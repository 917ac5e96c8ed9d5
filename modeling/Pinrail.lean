import Pinrail.Lib.Rust
import Pinrail.Lib.Loop
import Pinrail.Lib.Iterator
import Pinrail.Lib.KeyedList
import Pinrail.Lib.Chunks
import Pinrail.Lib.Ranked
import Pinrail.Lib.Assoc
import Pinrail.SumTree.Basic
import Pinrail.SumTree.Append
import Pinrail.SumTree.Build
import Pinrail.SumTree.Growth
import Pinrail.SumTree.Ends
import Pinrail.SumTree.Cursor
import Pinrail.SumTree.Hereditary
import Pinrail.SumTree.Reachable
import Pinrail.SumTree.Termination
import Pinrail.SumTree.Trail
import Pinrail.SumTree.Search
import Pinrail.SumTree.Seek
import Pinrail.SumTree.Slice
import Pinrail.SumTree.Integers
import Pinrail.SumTree.ListCursor
import Pinrail.SumTree.Iter
import Pinrail.SumTree.Find
import Pinrail.SumTree.FindWithPrev
import Pinrail.SumTree.FindExact
import Pinrail.SumTree.FilterCursor
import Pinrail.SumTree.RemoveRange
import Pinrail.SumTree.Occupancy
import Pinrail.SumTree.StackBound
import Pinrail.SumTree.IterContract
import Pinrail.SumTree.Keyed
import Pinrail.SumTree.TreeMap
import Pinrail.SumTree.Stocked
import Pinrail.TextSystem.LineLayout
import Pinrail.TextSystem.LineLayoutCache
import Pinrail.TextSystem.WrapBoundaries
import Pinrail.TextSystem.Carets
import Pinrail.TextSystem.CaretPositions
import Pinrail.Lib.Emitter
import Pinrail.Lib.Offsets
import Pinrail.TextSystem.LineWrapper
import Pinrail.TextSystem.WrappedLines
import Pinrail.TextSystem.FittingLines
import Pinrail.TextSystem.BreakOpportunities
import Pinrail.TextSystem.Truncation
import Pinrail.TextSystem.TruncationScans
import Pinrail.TextSystem.TruncatedRuns
import Pinrail.TextSystem.TruncatedWidth
import Pinrail.TextSystem.WrappedLoops
import Pinrail.Web.RunReplacements
import Pinrail.Web.Expansion
import Pinrail.Keymap.Context
import Pinrail.Keymap.Binding
import Pinrail.Keymap.Keymap
import Pinrail.Keymap.Pending
import Pinrail.Keymap.Parse
import Pinrail.Keymap.Grammar
import Pinrail.Keymap.RoundTrip
import Pinrail.Keymap.ContextParse
import Pinrail.Keymap.KeystrokeParse
import Pinrail.Keymap.ActionBindings
import Pinrail.Keymap.Dispatch
import Pinrail.Geometry.Bounds
import Pinrail.Geometry.BoundsTree
import Pinrail.Geometry.Subtree
import Pinrail.Geometry.Insertion
import Pinrail.Geometry.Scan
import Pinrail.Geometry.Shape
import Pinrail.Wayland.FrameLoop
import Pinrail.Wayland.Wake
import Pinrail.Wayland.Closed
import Pinrail.Wayland.Pointer
import Pinrail.Lib.Coalescing
import Pinrail.App.Effects
import Pinrail.App.Subscription
import Pinrail.App.Retain
import Pinrail.App.Remove
import Pinrail.App.EntityMap
import Pinrail.App.EntityCounts
import Pinrail.Focus.TabStop
import Pinrail.Focus.TabOrder
import Pinrail.Focus.Traversal
import Pinrail.Focus.Groups
import Pinrail.Path.RelPath
import Pinrail.Path.Resolve
import Pinrail.Path.Pieces
import Pinrail.Path.Normalized
import Pinrail.Path.LexicalResolution
import Pinrail.Path.Components
import Pinrail.Path.Normalize
import Pinrail.Path.NormalForm
import Pinrail.Path.Locations
import Pinrail.Path.StripPrefix
import Pinrail.Path.NaturalSort
import Pinrail.Path.CompareRelPaths
import Pinrail.Path.EntryOrder
import Pinrail.Lib.LastPiece
import Pinrail.Path.StdPath
import Pinrail.Path.StdParent
import Pinrail.Path.Parent
import Pinrail.Path.Prefixes
import Pinrail.Path.HostAgreement
import Pinrail.Path.Misread
import Pinrail.Path.Mutations
import Pinrail.Zlog.Filter
import Pinrail.Zlog.Rows
import Pinrail.Zlog.Layout
import Pinrail.Zlog.Table
import Pinrail.Zlog.Lookup
import Pinrail.Zlog.FastPath
import Pinrail.Zlog.MapOrder
import Pinrail.Elements.List
import Pinrail.Elements.ListLayout
import Pinrail.Elements.ListSeek
import Pinrail.Elements.ListScroll
import Pinrail.Elements.ListFrames
import Pinrail.Elements.ListRuns
import Pinrail.Elements.ListMeasured
import Pinrail.Elements.ListScrollbar
import Pinrail.Elements.ListVisible
import Pinrail.Elements.UniformList
import Pinrail.Lib.Lanes
import Pinrail.Lib.Coins
import Pinrail.Lib.Spans
import Pinrail.Lib.Sweep
import Pinrail.Lib.Agenda
import Pinrail.Lib.Residues
import Pinrail.Util.WrappedRanges
import Pinrail.Util.ExtendSorted
import Pinrail.Shell.QuoteWindows
import Pinrail.Shell.QuotePwsh
import Pinrail.Lib.CommonMark
import Pinrail.Util.Markdown
import Pinrail.Util.PathList
import Pinrail.Lib.Collisions
import Pinrail.Util.Disambiguate
import Pinrail.Lib.Replay
import Pinrail.Scheduler.TestScheduler
import Pinrail.Scheduler.Step
import Pinrail.Scheduler.Sessions
import Pinrail.Scheduler.Advancing
import Pinrail.Queue.PriorityQueue
import Pinrail.Queue.Disconnect
import Pinrail.Queue.Pops
import Pinrail.Lib.Comparators
import Pinrail.Lib.Cuts
import Pinrail.Style.HighlightRuns
import Pinrail.Scene.Scene
import Pinrail.Scene.Batches
import Pinrail.Scene.PaintOrder
import Pinrail.Atlas.WgpuAtlas
import Pinrail.Atlas.Texels
import Pinrail.Atlas.Bookkeeping
import Pinrail.Atlas.Runs
import Pinrail.Atlas.Failures
import Pinrail.Gestures.Recognizer
import Pinrail.Gestures.Streams
import Pinrail.Gestures.Protocol
import Pinrail.Gestures.ScrollTotals
import Pinrail.Lib.Bisection
import Pinrail.Gestures.FrictionSpline
import Pinrail.Journal.Ring
import Pinrail.Journal.Publisher
import Pinrail.Journal.Collectors
import Pinrail.Journal.Reads
import Pinrail.Journal.Delivery
import Pinrail.Journal.Sealer
import Pinrail.Journal.Intervals
import Pinrail.Journal.Occupancy
import Pinrail.Lib.Worklist
import Pinrail.Import.Lock
import Pinrail.Import.Gate
import Pinrail.Lib.FileTree
import Pinrail.Import.PosixPaths
import Pinrail.Import.Symlinks
import Pinrail.Lib.Utf16
import Pinrail.Lib.Utf8
import Pinrail.Ime.Import
import Pinrail.Threaded.ThreadedDispatcher
import Pinrail.Threaded.Accounts
import Pinrail.Threaded.Quiescence
import Pinrail.KeyDispatch.Paths
import Pinrail.KeyDispatch.Reuse
import Pinrail.KeyDispatch.Truncate
import Pinrail.Window.Frame
import Pinrail.Window.Transparency

import Mathlib.Order.Lattice
import Pinrail.Lib.Rust
import Pinrail.Journal.Ring

/-!
# Sealing intervals

`IntervalSealer` of `journal.rs`, which groups the entries of the journal into snapshots.
-/

namespace Pinrail.Journal

open Lib

def maxIntervalEvents : Nat := 16 * 1024

/-! ## Entries -/

structure Timing (Instant Data : Type) where
  start : Instant
  stop : Instant
  data : Data
deriving DecidableEq

structure PollSummary where
  count : Nat := 0
  total : Nat := 0
deriving DecidableEq

structure SmallPollFlush (Instant : Type) where
  summary : PollSummary
  since : Instant
  untl : Instant
deriving DecidableEq

inductive ForegroundEvent (Instant Data : Type) where
  | taskPoll (timing : Timing Instant Data)
  | action (timing : Timing Instant Data)
  | input (timing : Timing Instant Data)
  | draw (timing : Timing Instant Data)
  | present (timing : Timing Instant Data)
  | smallPolls (flush : SmallPollFlush Instant)
deriving DecidableEq

structure PresentedFrame (Instant Data : Type) where
  frame : Timing Instant Data
  presentation : Timing Instant Data
deriving DecidableEq

inductive IntervalBoundary (Instant Data : Type) where
  | presented (frame : PresentedFrame Instant Data)
  | idle (endedAt : Instant)
  | powerTransition (endedAt : Instant)
deriving DecidableEq

inductive Recorded (Instant Data : Type) where
  | event (event : ForegroundEvent Instant Data)
  | boundary (boundary : IntervalBoundary Instant Data)
  | frameState
deriving DecidableEq

abbrev ForegroundJournalEntry (Instant Data : Type) := JournalEntry (Recorded Instant Data)

variable {Instant Data : Type}

def ForegroundEvent.startTime : ForegroundEvent Instant Data → Instant
  | .taskPoll timing => timing.start
  | .action timing => timing.start
  | .input timing => timing.start
  | .draw timing => timing.start
  | .present timing => timing.start
  | .smallPolls flush => flush.since

def IntervalBoundary.endTime : IntervalBoundary Instant Data → Instant
  | .presented frame => frame.presentation.stop
  | .idle endedAt => endedAt
  | .powerTransition endedAt => endedAt

/-- `Duration::MAX`. -/
def durationMax : Nat := 2 ^ 64 * 10 ^ 9 - 1

def addDuration (left right : Nat) : Except Panic Nat :=
  if left + right ≤ durationMax then .ok (left + right) else .error .addOverflow

def PollSummary.add (self other : PollSummary) : Except Panic PollSummary := do
  let count ← checkedAdd 64 self.count other.count
  let total ← addDuration self.total other.total
  return ⟨count, total⟩

/-! ## The sealer -/

structure FrameSnapshot (Instant Data : Type) where
  intervalStart : Instant
  boundary : IntervalBoundary Instant Data
  events : List (ForegroundEvent Instant Data)
  smallPolls : List (SmallPollFlush Instant)
  droppedEvents : Nat
  journalDiscontinuous : Bool
deriving DecidableEq

structure IntervalSealer (Instant Data : Type) where
  intervalStart : Instant
  events : List (ForegroundEvent Instant Data) := []
  smallPolls : List (SmallPollFlush Instant) := []
  droppedEvents : Nat := 0
  journalDiscontinuous : Bool := false
deriving DecidableEq

namespace IntervalSealer

def new (start : Instant) : IntervalSealer Instant Data := { intervalStart := start }

def noteLost (self : IntervalSealer Instant Data) (lost : Nat) : Except Panic (IntervalSealer Instant Data) := do
  let droppedEvents ← checkedAdd 64 self.droppedEvents lost
  return { self with
    droppedEvents := droppedEvents
    journalDiscontinuous := self.journalDiscontinuous || decide (lost > 0) }

def isEmpty (self : IntervalSealer Instant Data) : Bool :=
  self.events.isEmpty && self.smallPolls.isEmpty && self.droppedEvents == 0 && !self.journalDiscontinuous

def pushEvent (self : IntervalSealer Instant Data) (event : ForegroundEvent Instant Data) :
    Except Panic (IntervalSealer Instant Data) :=
  if self.events.length ≥ maxIntervalEvents then do
    let droppedEvents ← checkedAdd 64 self.droppedEvents 1
    return { self with droppedEvents := droppedEvents }
  else .ok { self with events := self.events ++ [event] }

def seal_ (self : IntervalSealer Instant Data) (boundary : IntervalBoundary Instant Data) :
    IntervalSealer Instant Data × FrameSnapshot Instant Data :=
  ({ intervalStart := boundary.endTime },
    { intervalStart := self.intervalStart
      boundary := boundary
      events := self.events
      smallPolls := self.smallPolls
      droppedEvents := self.droppedEvents
      journalDiscontinuous := self.journalDiscontinuous })

variable [LinearOrder Instant]

def pushSmallPolls (self : IntervalSealer Instant Data) (flush : SmallPollFlush Instant) :
    Except Panic (IntervalSealer Instant Data) :=
  match self.smallPolls.getLast? with
  | some last =>
    if self.smallPolls.length ≥ maxIntervalEvents then do
      let summary ← last.summary.add flush.summary
      return { self with
        smallPolls := self.smallPolls.dropLast ++
          [{ summary := summary, since := min last.since flush.since, untl := max last.untl flush.untl }] }
    else .ok { self with smallPolls := self.smallPolls ++ [flush] }
  | none => .ok { self with smallPolls := self.smallPolls ++ [flush] }

def startAt (self : IntervalSealer Instant Data) (time : Instant) : IntervalSealer Instant Data :=
  if self.isEmpty then { self with intervalStart := max self.intervalStart time } else self

/-- One entry of `push_entries`, with the snapshot it completes. -/
def pushEntry (self : IntervalSealer Instant Data) :
    ForegroundJournalEntry Instant Data → Except Panic (IntervalSealer Instant Data × Option (FrameSnapshot Instant Data))
  | .recorded (.event event) => do
    let self := self.startAt event.startTime
    let self ← (match event with
      | .smallPolls flush => self.pushSmallPolls flush
      | event => self.pushEvent event)
    return (self, none)
  | .recorded (.boundary boundary) => do
    let self ← (match boundary with
      | .presented frame => (self.startAt frame.presentation.start).pushEvent (.present frame.presentation)
      | _ => .ok self)
    if self.isEmpty then return (self.startAt boundary.endTime, none)
    else
      let (self, snapshot) := self.seal_ boundary
      return (self, some snapshot)
  | .recorded .frameState => .ok (self, none)
  | .discontinuity lost => do
    let self ← self.noteLost lost
    return (self, none)

def pushEntries (self : IntervalSealer Instant Data) (entries : List (ForegroundJournalEntry Instant Data)) :
    Except Panic (IntervalSealer Instant Data × List (FrameSnapshot Instant Data)) :=
  entries.foldlM (fun (self, snapshots) entry => do
    let (self, snapshot) ← self.pushEntry entry
    return (self, snapshots ++ snapshot.toList)) (self, [])

end IntervalSealer

/-! ## Runs -/

inductive Call (Instant Data : Type) where
  | noteLost (lost : Nat)
  | pushEntries (entries : List (ForegroundJournalEntry Instant Data))
deriving DecidableEq

variable [LinearOrder Instant]

def IntervalSealer.call (self : IntervalSealer Instant Data) :
    Call Instant Data → Except Panic (IntervalSealer Instant Data × List (FrameSnapshot Instant Data))
  | .noteLost lost => do
    let self ← self.noteLost lost
    return (self, [])
  | .pushEntries entries => self.pushEntries entries

def IntervalSealer.run (self : IntervalSealer Instant Data) :
    List (Call Instant Data) → Except Panic (IntervalSealer Instant Data × List (FrameSnapshot Instant Data))
  | [] => .ok (self, [])
  | call :: calls => do
    let (self, snapshots) ← self.call call
    let (self, more) ← self.run calls
    return (self, snapshots ++ more)

end Pinrail.Journal

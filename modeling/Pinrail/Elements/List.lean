import Mathlib.Algebra.Order.Field.Rat
import Pinrail.Geometry.Bounds
import Pinrail.SumTree.ListCursor

/-!
# List elements

The state of a list element of `list.rs`, over exact rational pixels. The tree of the items is the
list of its items, and a cursor in it is an index. What rendering an item and laying it out returns,
which handle has the focus and what the children ask to be scrolled to are parameters of a layout;
scroll handlers and notifications, which do not change the state, are left out.
-/

namespace Pinrail.ListElement
open Lib Pinrail.Geometry

abbrev Pixels := ℚ

structure Edges where
  top : Pixels
  bottom : Pixels
deriving DecidableEq

structure Range where
  start : Nat
  stop : Nat
deriving DecidableEq

def Range.Contains (self : Range) (i : Nat) : Prop := self.start ≤ i ∧ i < self.stop

instance (self : Range) (i : Nat) : Decidable (self.Contains i) := inferInstanceAs (Decidable (_ ∧ _))

structure ListOffset where
  itemIx : Nat
  offsetInItem : Pixels
deriving DecidableEq

inductive PendingScroll where
  | absolute (itemIx : Nat) (offset : Pixels)
  | proportional (itemIx : Nat) (fraction : Pixels)
deriving DecidableEq

inductive ScrollAnchor where
  | absolute
  | proportional
deriving DecidableEq

inductive FollowMode where
  | normal
  | tail
deriving DecidableEq

inductive FollowState where
  | normal
  | tail (isFollowing : Bool)
deriving DecidableEq

namespace FollowState

def isFollowing : FollowState → Bool
  | .tail isFollowing => isFollowing
  | .normal => false

def hasStoppedFollowing : FollowState → Bool
  | .tail isFollowing => !isFollowing
  | .normal => false

def startFollowing : FollowState → FollowState
  | .tail _ => .tail true
  | .normal => .normal

def stopFollowing : FollowState → FollowState
  | .tail _ => .tail false
  | .normal => .normal

end FollowState

inductive ListAlignment where
  | top
  | bottom
deriving DecidableEq

inductive ListMeasuringBehavior where
  | measure (hasMeasured : Bool)
  | visible
deriving DecidableEq

def ListMeasuringBehavior.reset : ListMeasuringBehavior → ListMeasuringBehavior
  | .measure _ => .measure false
  | .visible => .visible

/-! ## Items -/

inductive ListItem (F : Type) where
  | unmeasured (sizeHint : Option (Size Pixels)) (focusHandle : Option F)
  | measured (size : Size Pixels) (focusHandle : Option F)
deriving DecidableEq

structure ListItemSummary where
  count : Nat
  renderedCount : Nat
  unrenderedCount : Nat
  height : Pixels
  hasFocusHandles : Bool
  hasUnknownHeight : Bool
deriving DecidableEq

instance : Summary ListItemSummary where
  zero := ⟨0, 0, 0, 0, false, false⟩
  addSummary a b := ⟨a.count + b.count, a.renderedCount + b.renderedCount, a.unrenderedCount + b.unrenderedCount,
      a.height + b.height, a.hasFocusHandles || b.hasFocusHandles,
      a.hasUnknownHeight || b.hasUnknownHeight⟩

variable {F : Type}

namespace ListItem

def size : ListItem F → Option (Size Pixels)
  | .measured size _ => some size
  | .unmeasured .. => none

def sizeHint : ListItem F → Option (Size Pixels)
  | .measured size _ => some size
  | .unmeasured sizeHint _ => sizeHint

def focusHandle : ListItem F → Option F
  | .measured _ focusHandle => focusHandle
  | .unmeasured _ focusHandle => focusHandle

def containsFocused (focused : F → Bool) (self : ListItem F) : Bool := self.focusHandle.any focused

end ListItem

instance : Item (ListItem F) ListItemSummary where
  summary
    | .unmeasured sizeHint focusHandle =>
      ⟨1, 0, 1, sizeHint.elim 0 Size.height, focusHandle.isSome, sizeHint.isNone⟩
    | .measured size focusHandle => ⟨1, 1, 0, size.height, focusHandle.isSome, false⟩

/-- `Count` as a target. -/
def count (n : Nat) : SeekTarget ListItemSummary := ⟨fun s => compare n s.count⟩

/-- `Height` as a target. -/
def height (h : Pixels) : SeekTarget ListItemSummary := ⟨fun s => compare h s.height⟩

/-! ## Cursors -/

def startAt (items : List (ListItem F)) (i : Nat) : ListItemSummary := measure (items.take i)

def seekForward (items : List (ListItem F)) (i : Nat) (target : SeekTarget ListItemSummary)
    (bias : Bias) : Except Panic Nat := do
  assert ((target.cmp (startAt items i)).isGE = true)
  return ListCursor.landing items target bias i

def seek (items : List (ListItem F)) (target : SeekTarget ListItemSummary) (bias : Bias) :
    Except Panic Nat :=
  seekForward items 0 target bias

def seekCount (items : List (ListItem F)) (n : Nat) : Nat := ListCursor.landing items (count n) .right 0

/-- The start that `SumTree::find` returns. -/
def findStart (items : List (ListItem F)) (target : SeekTarget ListItemSummary) (bias : Bias) :
    ListItemSummary :=
  startAt items (ListCursor.landing items target bias 0)

/-! ## State -/

structure StateInner (F : Type) where
  lastLayoutBounds : Option (Bounds Pixels)
  lastPadding : Option Edges
  items : List (ListItem F)
  logicalScrollTop : Option ListOffset
  alignment : ListAlignment
  overdraw : Pixels
  reset : Bool
  scrollbarDragStartHeight : Option Pixels
  measuringBehavior : ListMeasuringBehavior
  pendingScroll : Option PendingScroll
  followState : FollowState

namespace StateInner

def summary (self : StateInner F) : ListItemSummary := measure self.items

def padding (self : StateInner F) : Edges := self.lastPadding.getD ⟨0, 0⟩

def layoutHeight (self : StateInner F) : Pixels :=
  self.lastLayoutBounds.elim 0 fun bounds => bounds.size.height

def logicalTop (self : StateInner F) : ListOffset :=
  self.logicalScrollTop.getD
    (match self.alignment with
      | .top => ⟨0, 0⟩
      | .bottom => ⟨self.summary.count, 0⟩)

def scrollTop (self : StateInner F) (logicalScrollTop : ListOffset) : Pixels :=
  (findStart self.items (count logicalScrollTop.itemIx) .right).height + logicalScrollTop.offsetInItem

def clamp (x : Pixels) : Pixels := max 0 (min x 1)

def rebasePendingScroll (self : StateInner F) (scrollTop : ListOffset) : StateInner F :=
  match self.pendingScroll with
  | none => self
  | some pending =>
    if scrollTop.itemIx ≥ self.summary.count then { self with pendingScroll := none }
    else
      { self with
        pendingScroll :=
          match pending with
          | .absolute .. => some (.absolute scrollTop.itemIx scrollTop.offsetInItem)
          | .proportional .. =>
            (self.items[seekCount self.items scrollTop.itemIx]?.bind ListItem.sizeHint).bind fun size =>
                if size.height > 0 then
                  some (.proportional scrollTop.itemIx (clamp (scrollTop.offsetInItem / size.height)))
                else none }

def setScrollTop (self : StateInner F) (scrollTop : ListOffset) : StateInner F :=
  { self.rebasePendingScroll scrollTop with logicalScrollTop := some scrollTop }

/-! ## Operations on the items -/

def spliceOffset (oldRange : Range) (splicedCount : Nat) (top : ListOffset) : ListOffset :=
  if oldRange.Contains top.itemIx then ⟨oldRange.start, 0⟩
  else if oldRange.stop ≤ top.itemIx then
    { top with itemIx := top.itemIx - (oldRange.stop - oldRange.start) + splicedCount }
  else top

def spliceFocusable (self : StateInner F) (oldRange : Range) (focusHandles : List (Option F)) :
    Except Panic (StateInner F) := do
  let start := seekCount self.items oldRange.start
  let stop ← seekForward self.items start (count oldRange.stop) .right
  return { self with
    items := self.items.take start ++ focusHandles.map (.unmeasured none) ++ self.items.drop stop
    logicalScrollTop := self.logicalScrollTop.map (spliceOffset oldRange focusHandles.length) }

def splice (self : StateInner F) (oldRange : Range) (count : Nat) : Except Panic (StateInner F) :=
  self.spliceFocusable oldRange (List.replicate count none)

def resetTo (self : StateInner F) (elementCount : Nat) : Except Panic (StateInner F) :=
  splice
    { self with
      reset := true
      measuringBehavior := self.measuringBehavior.reset
      logicalScrollTop := none
      pendingScroll := none
      scrollbarDragStartHeight := none }
    ⟨0, self.summary.count⟩ elementCount

def applyUniformItemHeight (self : StateInner F) (height : Pixels) : StateInner F :=
  { self with
    items := self.items.map fun item =>
      .unmeasured (some (item.sizeHint.getD ⟨0, height⟩)) item.focusHandle }

def anchorScroll (self : StateInner F) (scrollTop : ListOffset) : ScrollAnchor → Option PendingScroll
  | .absolute => some (.absolute scrollTop.itemIx scrollTop.offsetInItem)
  | .proportional =>
    ((self.items[seekCount self.items scrollTop.itemIx]?.bind ListItem.size).map fun size =>
      .proportional scrollTop.itemIx
        (if size.height > 0 then clamp (scrollTop.offsetInItem / size.height) else 0)).or
      self.pendingScroll

def remeasureItemsWithScrollAnchor (self : StateInner F) (range : Range) (anchor : ScrollAnchor) :
    Except Panic (StateInner F) := do
  let pendingScroll :=
    match self.logicalScrollTop with
    | some scrollTop =>
      if range.Contains scrollTop.itemIx then self.anchorScroll scrollTop anchor
      else self.pendingScroll
    | none => self.pendingScroll
  let start := seekCount self.items range.start
  let stop ← seekForward self.items start (count range.stop) .right
  let invalidated := (self.items.take stop).drop start
  return { self with
    pendingScroll := pendingScroll
    items := self.items.take start ++
      invalidated.map (fun item => .unmeasured item.sizeHint item.focusHandle) ++ self.items.drop stop
    measuringBehavior := self.measuringBehavior.reset }

def remeasure (self : StateInner F) : Except Panic (StateInner F) :=
  self.remeasureItemsWithScrollAnchor ⟨0, self.summary.count⟩ .proportional

def remeasureItems (self : StateInner F) (range : Range) : Except Panic (StateInner F) :=
  self.remeasureItemsWithScrollAnchor range .absolute

/-! ## Scrolling -/

def stopFollowingIf (self : StateInner F) (p : Prop) [Decidable p] : StateInner F :=
  if p then { self with followState := self.followState.stopFollowing } else self

def scrollBy (self : StateInner F) (distance : Pixels) : Except Panic (StateInner F) := do
  if distance = 0 then return self
  let currentOffset := self.logicalTop
  let self := self.stopFollowingIf (distance < 0)
  let cursor := seekCount self.items currentOffset.itemIx
  let startPixelOffset := (startAt self.items cursor).height + currentOffset.offsetInItem
  let newPixelOffset := max (startPixelOffset + distance) 0
  let cursor ←
    seekForward self.items (if newPixelOffset > startPixelOffset then cursor else 0)
      (height newPixelOffset) .right
  return self.setScrollTop ⟨(startAt self.items cursor).count, newPixelOffset - (startAt self.items cursor).height⟩

def scrollToEnd (self : StateInner F) : StateInner F :=
  { self with pendingScroll := none, logicalScrollTop := some ⟨self.summary.count, 0⟩ }

def setFollowMode (self : StateInner F) : FollowMode → StateInner F
  | .normal => { self with followState := .normal }
  | .tail => { self with
      followState := .tail true
      logicalScrollTop := some ⟨self.summary.count, 0⟩ }

def scrollTo (self : StateInner F) (scrollTop : ListOffset) : StateInner F :=
  let itemCount := self.summary.count
  let scrollTop := if scrollTop.itemIx ≥ itemCount then ⟨itemCount, 0⟩ else scrollTop
  (self.stopFollowingIf (scrollTop.itemIx < itemCount)).setScrollTop scrollTop

def scrollToRevealItem (self : StateInner F) (ix : Nat) : Except Panic (StateInner F) := do
  let scrollTop := self.logicalTop
  if ix ≤ scrollTop.itemIx then return self.setScrollTop ⟨ix, 0⟩
  let cursor := seekCount self.items (ix + 1)
  let bottom := (startAt self.items cursor).height + self.padding.top
  let goalTop := max 0 (bottom - self.layoutHeight + self.padding.bottom)
  let cursor ← seek self.items (height goalTop) .left
  let startIx := (startAt self.items cursor).count
  let startItemTop := (startAt self.items cursor).height
  return self.setScrollTop (if startIx ≥ scrollTop.itemIx then ⟨startIx, goalTop - startItemTop⟩ else scrollTop)

/-- The part of `scroll` and of `set_offset_from_scrollbar` that moves to a pixel offset. -/
def scrollToPixel (self : StateInner F) (newScrollTop scrollMax : Pixels) : StateInner F :=
  if self.alignment = .bottom ∧ newScrollTop = scrollMax then
    { self with pendingScroll := none, logicalScrollTop := none }
  else
    let start := findStart self.items (height newScrollTop) .right
    self.setScrollTop ⟨start.count, newScrollTop - start.height⟩

/-- A scroll-wheel event: the scroll top and the height are those of the layout that was painted. -/
def scroll (self : StateInner F) (scrollTop : ListOffset) (viewportHeight deltaY : Pixels) :
    StateInner F :=
  if self.reset then self
  else
    let scrollMax :=
      max (self.summary.height + self.padding.top + self.padding.bottom - viewportHeight) 0
    let newScrollTop := min (max (self.scrollTop scrollTop - deltaY) 0) scrollMax
    (self.scrollToPixel newScrollTop scrollMax).stopFollowingIf (deltaY > 0)

def scrollbarDragStarted (self : StateInner F) : StateInner F :=
  { self with scrollbarDragStartHeight := some self.summary.height }

def scrollbarDragEnded (self : StateInner F) : StateInner F :=
  { self with scrollbarDragStartHeight := none }

def setOffsetFromScrollbar (self : StateInner F) (pointY : Pixels) : StateInner F :=
  match self.lastLayoutBounds with
  | none => self
  | some bounds =>
    let contentHeight := self.scrollbarDragStartHeight.getD self.summary.height
    let scrollMax :=
      max (contentHeight + self.padding.top + self.padding.bottom - bounds.size.height) 0
    let newScrollTop := min (max (-pointY) 0) scrollMax
    let draggedToEnd := scrollMax > 0 ∧ newScrollTop ≥ max (scrollMax - 1) 0
    if draggedToEnd ∧ self.followState ≠ .normal then
      { self with
        followState := .tail true
        pendingScroll := none
        logicalScrollTop := some ⟨self.summary.count, 0⟩ }
    else
      scrollToPixel { self with followState := self.followState.stopFollowing } newScrollTop scrollMax

end StateInner
end Pinrail.ListElement

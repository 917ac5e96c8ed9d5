import Pinrail.Elements.List

/-!
# Layout of list elements

`layout_items` and the part of `prepaint` that changes the state of a list. The items in front of a
cursor are listed from the nearest on, so that their number is the index of the cursor.
-/

namespace Pinrail.ListElement
open Lib Pinrail.Geometry

variable {F : Type}

structure ItemLayout where
  index : Nat
  size : Size Pixels
deriving DecidableEq

structure LayoutItemsResponse where
  maxItemWidth : Pixels
  scrollTop : ListOffset
  itemLayouts : List ItemLayout
deriving DecidableEq

/-- What a call of `layout_items` reads of the window: the size of a rendered item, and the focus. -/
structure Renderer (F : Type) where
  size : Nat → Size Pixels
  focused : F → Bool

/-- What one pass of `prepaint_items` reads of the window. The k-th painted item may ask to scroll
to the span between two heights. -/
structure Frame (F : Type) where
  measureAll : Nat → Size Pixels
  renderer : Renderer F
  autoscroll : Nat → Option (Pixels × Pixels)
  measureAbove : Nat → Size Pixels

/-- The variables of `layout_items`, with the fields of the state that its first loop changes. -/
structure Pass (F : Type) where
  measuredItems : List (ListItem F)
  itemLayouts : List ItemLayout
  renderedHeight : Pixels
  maxItemWidth : Pixels
  scrollTop : ListOffset
  renderedFocusedItem : Bool
  pendingScroll : Option PendingScroll
  logicalScrollTop : Option ListOffset

namespace Pass

def setOffset (self : Pass F) (offset : Pixels) : Pass F :=
  { self with
    scrollTop := { self.scrollTop with offsetInItem := offset }
    logicalScrollTop := some { self.scrollTop with offsetInItem := offset } }

def applyPending (self : Pass F) (elementSize : Size Pixels) : Pass F :=
  let taken := { self with pendingScroll := none }
  match self.pendingScroll with
  | some (.absolute itemIx offset) =>
    if itemIx = self.scrollTop.itemIx then taken.setOffset (min offset elementSize.height) else taken
  | some (.proportional itemIx fraction) =>
    if itemIx = self.scrollTop.itemIx then taken.setOffset (fraction * elementSize.height) else taken
  | none => taken

def pushLayout (self : Pass F) (layout : ItemLayout) (focused : Bool) : Pass F :=
  { self with
    itemLayouts := self.itemLayouts ++ [layout]
    renderedFocusedItem := self.renderedFocusedItem || focused }

def pushMeasured (self : Pass F) (size : Size Pixels) (focusHandle : Option F) : Pass F :=
  { self with
    renderedHeight := self.renderedHeight + size.height
    maxItemWidth := max self.maxItemWidth size.width
    measuredItems := self.measuredItems ++ [.measured size focusHandle] }

def renderItem (renderer : Renderer F) (availableHeight : Pixels) (ix : Nat) (item : ListItem F)
    (self : Pass F) : Pass F :=
  let visibleHeight := self.renderedHeight - self.scrollTop.offsetInItem
  match (if visibleHeight < availableHeight then none else item.size) with
  | some size => self.pushMeasured size item.focusHandle
  | none =>
    let itemIndex := self.scrollTop.itemIx + ix
    let elementSize := renderer.size itemIndex
    let self := if ix = 0 then self.applyPending elementSize else self
    let self :=
      if visibleHeight < availableHeight then
        self.pushLayout ⟨itemIndex, elementSize⟩ (item.containsFocused renderer.focused)
      else self
    self.pushMeasured elementSize item.focusHandle

def renderDown (renderer : Renderer F) (availableHeight overdraw : Pixels) :
    Nat → List (ListItem F) → Pass F → Pass F
  | _, [], self => self
  | ix, item :: below, self =>
    if self.renderedHeight - self.scrollTop.offsetInItem ≥ availableHeight + overdraw then self
    else
      renderDown renderer availableHeight overdraw (ix + 1) below (self.renderItem renderer availableHeight ix item)

def renderAbove (renderer : Renderer F) (index : Nat) (item : ListItem F) (self : Pass F) : Pass F :=
  { self with
    renderedHeight := self.renderedHeight + (renderer.size index).height
    measuredItems := .measured (renderer.size index) item.focusHandle :: self.measuredItems
    itemLayouts := ⟨index, renderer.size index⟩ :: self.itemLayouts
    renderedFocusedItem := self.renderedFocusedItem || item.containsFocused renderer.focused }

/-- The loop that fills the visible region upwards; also returns the items still in front of the
cursor. -/
def fillUp (renderer : Renderer F) (availableHeight : Pixels) :
    List (ListItem F) → Pass F → List (ListItem F) × Pass F
  | [], self => ([], self)
  | item :: above, self =>
    if self.renderedHeight < availableHeight then
      fillUp renderer availableHeight above (self.renderAbove renderer above.length item)
    else (item :: above, self)

def moveUp (renderer : Renderer F) (availableHeight : Pixels) (alignment : ListAlignment)
    (above : List (ListItem F)) (self : Pass F) : List (ListItem F) × Pass F :=
  let (above, self) := self.fillUp renderer availableHeight above
  let offset := self.renderedHeight - availableHeight
  match alignment with
  | .top =>
    (above, { self with
      scrollTop := ⟨above.length, max offset 0⟩
      logicalScrollTop := some ⟨above.length, max offset 0⟩ })
  | .bottom => (above, { self with scrollTop := ⟨above.length, offset⟩, logicalScrollTop := none })

def overdrawUp (renderer : Renderer F) (overdraw : Pixels) :
    List (ListItem F) → Pixels → List (ListItem F) → List (ListItem F) × List (ListItem F)
  | [], _, measuredItems => ([], measuredItems)
  | item :: above, leadingOverdraw, measuredItems =>
    if leadingOverdraw < overdraw then
      let size := item.size.getD (renderer.size above.length)
      overdrawUp renderer overdraw above (leadingOverdraw + size.height)
        (.measured size item.focusHandle :: measuredItems)
    else (item :: above, measuredItems)

end Pass

namespace StateInner

def layoutTop (self : StateInner F) : ListOffset × Option ListOffset :=
  if self.followState.isFollowing then
    (⟨self.summary.count, 0⟩, some ⟨self.summary.count, 0⟩)
  else (self.logicalTop, self.logicalScrollTop)

def layoutDown (self : StateInner F) (availableHeight : Pixels) (padding : Edges)
    (renderer : Renderer F) : Pass F :=
  let (scrollTop, logicalScrollTop) := self.layoutTop
  let pass := Pass.renderDown renderer availableHeight self.overdraw 0
    (self.items.drop (seekCount self.items scrollTop.itemIx))
    { measuredItems := []
      itemLayouts := []
      renderedHeight := padding.top
      maxItemWidth := 0
      scrollTop := scrollTop
      renderedFocusedItem := false
      pendingScroll := self.pendingScroll
      logicalScrollTop := logicalScrollTop }
  { pass with renderedHeight := pass.renderedHeight + padding.bottom }

/-- The three loops of `layout_items`: the items in front of the measured ones, the measured ones,
and the variables at the end. -/
def layoutPass (self : StateInner F) (availableHeight : Pixels) (padding : Edges)
    (renderer : Renderer F) : List (ListItem F) × List (ListItem F) × Pass F :=
  let pass := self.layoutDown availableHeight padding renderer
  let above := (self.items.take (seekCount self.items pass.scrollTop.itemIx)).reverse
  let (above, pass) :=
    if pass.renderedHeight - pass.scrollTop.offsetInItem < availableHeight then
      pass.moveUp renderer availableHeight self.alignment above
    else (above, pass)
  let (above, measuredItems) :=
    Pass.overdrawUp renderer self.overdraw above pass.scrollTop.offsetInItem pass.measuredItems
  (above, measuredItems, pass)

def refollow (self : StateInner F) (scrollTop : ListOffset) (availableHeight : Pixels) :
    StateInner F :=
  if self.followState.hasStoppedFollowing ∧ self.scrollTop scrollTop + availableHeight ≥
      self.summary.height + self.padding.top + self.padding.bottom - 1 then
    { self with followState := self.followState.startFollowing }
  else self

def focusedItem (self : StateInner F) (renderer : Renderer F) : Option ItemLayout :=
  (self.items.zipIdx.find? fun (item, _) => item.containsFocused renderer.focused).map
    fun (_, index) => ⟨index, renderer.size index⟩

def layoutItems (self : StateInner F) (availableHeight : Pixels) (padding : Edges)
    (renderer : Renderer F) : StateInner F × LayoutItemsResponse :=
  let (above, measuredItems, pass) := self.layoutPass availableHeight padding renderer
  let measuredRange : Range := ⟨above.length, above.length + measuredItems.length⟩
  let items := self.items.take (seekCount self.items measuredRange.start) ++ measuredItems ++
    self.items.drop (seekCount self.items measuredRange.stop)
  let self := refollow
    { self with
      items := items
      logicalScrollTop := pass.logicalScrollTop
      pendingScroll := pass.pendingScroll }
    pass.scrollTop availableHeight
  let focused := if pass.renderedFocusedItem then none else self.focusedItem renderer
  (self, ⟨pass.maxItemWidth, pass.scrollTop, pass.itemLayouts ++ focused.toList⟩)

def layoutAllItems (self : StateInner F) (measureAll : Nat → Size Pixels) : StateInner F :=
  match self.measuringBehavior with
  | .measure false =>
    { self with
      measuringBehavior := .measure true
      items := self.items.zipIdx.map fun (item, ix) =>
        .measured (item.size.getD (measureAll ix)) item.focusHandle }
  | _ => self

/-! ## Autoscroll -/

def walkAbove (measureAbove : Nat → Size Pixels) : List (ListItem F) → ListOffset → ListOffset
  | [], top => if top.offsetInItem < 0 then ⟨top.itemIx, 0⟩ else top
  | item :: above, top =>
    if top.offsetInItem < 0 then
      walkAbove measureAbove above ⟨above.length,
        top.offsetInItem + (item.size.getD (measureAbove above.length)).height⟩
    else top

def walkBelow (measureAbove : Nat → Size Pixels) : List (ListItem F) → Pixels → ListOffset
  | [], height => ⟨0, if height < 0 then -height else 0⟩
  | item :: above, height =>
    if height > 0 then
      walkBelow measureAbove above (height - (item.size.getD (measureAbove above.length)).height)
    else ⟨above.length + 1, if height < 0 then -height else 0⟩

def autoscrollRequest (self : StateInner F) (bounds : Bounds Pixels) (padding : Edges)
    (frame : Frame F) : Nat → Pixels → List ItemLayout → Option ListOffset
  | _, _, [] => none
  | k, originY, item :: layouts =>
    match frame.autoscroll k with
    | some (top, bottom) =>
      if top < bounds.origin.y then
        some (walkAbove frame.measureAbove
          (self.items.take (seekCount self.items item.index)).reverse ⟨item.index, top - originY⟩)
      else if bottom > bounds.origin.y + bounds.size.height then
        some (walkBelow frame.measureAbove (self.items.take (seekCount self.items item.index)).reverse
          (bounds.size.height - padding.top - padding.bottom - (bottom - originY)))
      else
        autoscrollRequest self bounds padding frame (k + 1) (originY + item.size.height) layouts
    | none =>
      autoscrollRequest self bounds padding frame (k + 1) (originY + item.size.height) layouts

def prepaintItems (self : StateInner F) (bounds : Bounds Pixels) (padding : Edges)
    (autoscroll : Bool) (frame : Frame F) : StateInner F × Except ListOffset LayoutItemsResponse :=
  let (self, response) :=
    (self.layoutAllItems frame.measureAll).layoutItems bounds.size.height padding frame.renderer
  if bounds.size.height > padding.top + padding.bottom then
    let originY := bounds.origin.y + padding.top - response.scrollTop.offsetInItem
    match (if autoscroll then
        self.autoscrollRequest bounds padding frame 0 originY response.itemLayouts else none) with
    | some request => (self, .error request)
    | none => (self, .ok response)
  else (self, .ok { response with itemLayouts := [] })

def invalidateWidth (self : StateInner F) (bounds : Bounds Pixels) : StateInner F :=
  if self.lastLayoutBounds.any fun last => last.size.width = bounds.size.width then self
  else
    { self with
      items := self.items.map fun item => .unmeasured none item.focusHandle
      measuringBehavior := self.measuringBehavior.reset }

def prepaint (self : StateInner F) (bounds : Bounds Pixels) (padding : Edges)
    (first second : Frame F) : Except Panic (StateInner F) := do
  let self := invalidateWidth { self with reset := false } bounds
  match self.prepaintItems bounds padding true first with
  | (self, .ok _) =>
    return { self with lastLayoutBounds := some bounds, lastPadding := some padding }
  | (self, .error request) =>
    match prepaintItems { self with logicalScrollTop := some request } bounds padding false second with
    | (self, .ok _) =>
      return { self with lastLayoutBounds := some bounds, lastPadding := some padding }
    | (_, .error _) => throw .unwrapNone

/-- The layout that `request_layout` makes of a list sized by its items. -/
def requestLayout (self : StateInner F) (padding : Edges) (renderer : Renderer F) : StateInner F :=
  (self.layoutItems (self.lastLayoutBounds.elim self.overdraw fun bounds => bounds.size.height) padding renderer).1

end StateInner

/-! ## Runs -/

inductive Op (F : Type) where
  | measureAll
  | applyUniformItemHeight (height : Pixels)
  | reset (elementCount : Nat)
  | splice (oldRange : Range) (count : Nat)
  | spliceFocusable (oldRange : Range) (focusHandles : List (Option F))
  | remeasure
  | remeasureItems (range : Range)
  | scrollBy (distance : Pixels)
  | scrollToEnd
  | setFollowMode (mode : FollowMode)
  | pauseFollowingTail
  | scrollTo (scrollTop : ListOffset)
  | scrollToRevealItem (ix : Nat)
  | scroll (scrollTop : ListOffset) (viewportHeight deltaY : Pixels)
  | scrollbarDragStarted
  | scrollbarDragEnded
  | setOffsetFromScrollbar (pointY : Pixels)
  | requestLayout (padding : Edges) (renderer : Renderer F)
  | prepaint (bounds : Bounds Pixels) (padding : Edges) (first second : Frame F)

def step (state : StateInner F) : Op F → Except Panic (StateInner F)
  | .measureAll => return { state with measuringBehavior := .measure false }
  | .applyUniformItemHeight height => return state.applyUniformItemHeight height
  | .reset elementCount => state.resetTo elementCount
  | .splice oldRange count => state.splice oldRange count
  | .spliceFocusable oldRange focusHandles => state.spliceFocusable oldRange focusHandles
  | .remeasure => state.remeasure
  | .remeasureItems range => state.remeasureItems range
  | .scrollBy distance => state.scrollBy distance
  | .scrollToEnd => return state.scrollToEnd
  | .setFollowMode mode => return state.setFollowMode mode
  | .pauseFollowingTail => return { state with followState := state.followState.stopFollowing }
  | .scrollTo scrollTop => return state.scrollTo scrollTop
  | .scrollToRevealItem ix => state.scrollToRevealItem ix
  | .scroll scrollTop viewportHeight deltaY => return state.scroll scrollTop viewportHeight deltaY
  | .scrollbarDragStarted => return state.scrollbarDragStarted
  | .scrollbarDragEnded => return state.scrollbarDragEnded
  | .setOffsetFromScrollbar pointY => return state.setOffsetFromScrollbar pointY
  | .requestLayout padding renderer => return state.requestLayout padding renderer
  | .prepaint bounds padding first second => state.prepaint bounds padding first second

def ListState.new (itemCount : Nat) (alignment : ListAlignment) (overdraw : Pixels) :
    Except Panic (StateInner F) :=
  StateInner.splice
    { lastLayoutBounds := none
      lastPadding := none
      items := []
      logicalScrollTop := none
      alignment := alignment
      overdraw := overdraw
      reset := false
      scrollbarDragStartHeight := none
      measuringBehavior := .visible
      pendingScroll := none
      followState := .normal }
    ⟨0, 0⟩ itemCount

def run (itemCount : Nat) (alignment : ListAlignment) (overdraw : Pixels) (ops : List (Op F)) :
    Except Panic (StateInner F) := do
  ops.foldlM step (← ListState.new itemCount alignment overdraw)

end Pinrail.ListElement

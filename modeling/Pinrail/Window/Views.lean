import Pinrail.Window.Frame

/-!
# Cached views

The draw of a window: `ViewElement` prepaints and paints a view from what the rendered frame holds
of it where it may, and renders the view otherwise. An element is what it calls on the window, or the
elements of several, or a view with what its `render` would return in this draw. None of these calls
is `defer_draw`: the deferred draws of every frame, and the range of them that a view would reuse, are
empty.
-/

namespace Pinrail.Views
open Lib Pinrail.Geometry Paint

abbrev EntityId := Nat

/-- A `ViewElement` at its place in the tree. -/
structure View (U : Type) (P : Payload) where
  globalId : GlobalElementId P
  entityId : EntityId
  cached : Bool
  cacheKey : ViewElementCacheKey U P

variable {U : Type} {P : Payload}

def viewKey (globalId : GlobalElementId P) : ElementStateKey P := ⟨globalId, .viewElementState⟩

structure Calls (U : Type) (P : Payload) where
  prepaints : List (PrepaintCall P)
  paints : List (PaintCall U P)
  prepaints_other : ∀ key ∈ prepaints.filterMap PrepaintCall.key, key.stateType ≠ .viewElementState
  paints_other : ∀ key ∈ paints.filterMap PaintCall.key, key.stateType ≠ .viewElementState

inductive Element (U : Type) (P : Payload) where
  | calls (calls : Calls U P)
  | siblings (first second : Element U P)
  | view (view : View U P) (content : Element U P)

inductive Prepainted (U : Type) (P : Payload) where
  | calls (calls : Calls U P)
  | siblings (first second : Prepainted U P)
  | rendered (view : View U P) (element : Prepainted U P)
  | reused (view : View U P)

structure Window (U : Type) (P : Payload) where
  renderedFrame : Frame U P := {}
  nextFrame : Frame U P := {}
  dirtyViews : List EntityId := []
  refreshing : Bool := false
  inspectorPicking : Bool := false
  inputHandler : Option P.InputHandler := none

def takeLast {α : Type} : List (Option α) → Option α × List (Option α)
  | [] => (none, [])
  | slot :: slots =>
    match takeLast slots with
    | (some a, slots) => (some a, slot :: slots)
    | (none, slots) => (slot, none :: slots)

def fillLast {α : Type} (a : α) : List (Option α) → Option (List (Option α))
  | [] => none
  | slot :: slots =>
    match fillLast a slots with
    | some slots => some (slot :: slots)
    | none => if slot.isNone then some (some a :: slots) else none

def putBack {α : Type} (handler : Option α) (slots : List (Option α)) : List (Option α) :=
  match handler with
  | some handler => (fillLast handler slots).getD (slots ++ [some handler])
  | none => slots

namespace Frame
variable [DecidableEq P.ElementId]

def moveState (states : ElementStates U P × ElementStates U P) (key : ElementStateKey P) :
    ElementStates U P × ElementStates U P :=
  match key.stateType, states.2 key.globalId with
  | .viewElementState, some state =>
    (Function.update states.1 key.globalId (some state), Function.update states.2 key.globalId none)
  | _, _ => states

def finish (self prevFrame : Frame U P) : Frame U P :=
  { self with
    elementStates := (self.accessedElementStates.foldl moveState (self.elementStates, prevFrame.elementStates)).1
    scene := self.scene.finish }

end Frame

namespace Window

def reusePrepaint (self : Window U P) (range : Span PrepaintStateIndex) :
    Except Panic (Window U P) := do
  let rendered := self.renderedFrame
  let next := self.nextFrame
  let hitboxes ← sliceRange rendered.hitboxes range.start.hitboxesIndex range.stop.hitboxesIndex
  let (requests, left) ←
    takeRange rendered.tooltipRequests range.start.tooltipsIndex range.stop.tooltipsIndex
  let accessed ← sliceRange rendered.accessedElementStates
    range.start.accessedElementStatesIndex range.stop.accessedElementStatesIndex
  return { self with
    renderedFrame := { rendered with tooltipRequests := left }
    nextFrame := { next with
      hitboxes := next.hitboxes ++ hitboxes
      tooltipRequests := next.tooltipRequests ++ requests
      accessedElementStates := next.accessedElementStates ++ accessed } }

variable [DecidableEq P.ElementId]

def takeElementState (self : Window U P) (globalId : GlobalElementId P) :
    Option (ViewElementState U P) × Window U P :=
  let rendered := self.renderedFrame
  let next := { self.nextFrame with
    accessedElementStates := self.nextFrame.accessedElementStates ++ [viewKey globalId] }
  match next.elementStates globalId with
  | some state => (some state, { self with
      nextFrame := { next with elementStates := Function.update next.elementStates globalId none } })
  | none => (rendered.elementStates globalId, { self with
      renderedFrame := { rendered with elementStates := Function.update rendered.elementStates globalId none }
      nextFrame := next })

def insertElementState (self : Window U P) (globalId : GlobalElementId P)
    (state : ViewElementState U P) : Window U P :=
  { self with nextFrame := { self.nextFrame with
      elementStates := Function.update self.nextFrame.elementStates globalId (some state) } }

def withElementState {α : Type} (self : Window U P) (globalId : GlobalElementId P)
    (f : Option (ViewElementState U P) → Window U P →
      Except Panic (α × ViewElementState U P × Window U P)) : Except Panic (α × Window U P) := do
  let (state, window) := self.takeElementState globalId
  let (result, state, window) ← f state window
  return (result, window.insertElementState globalId state)

section Prepaint
variable [DecidableEq U] [DecidableEq P.TextStyle]

def reusable (self : Window U P) (view : View U P) (state : Option (ViewElementState U P)) :
    Option (ViewElementState U P) :=
  state.filter fun state =>
    state.cacheKey.bounds = view.cacheKey.bounds ∧ state.cacheKey.contentMask = view.cacheKey.contentMask ∧
      state.cacheKey.textStyle = view.cacheKey.textStyle ∧
      view.entityId ∉ self.dirtyViews ∧ self.refreshing = false

def prepaintView (view : View U P)
    (render : Window U P → Except Panic (Prepainted U P × Window U P)) (self : Window U P) :
    Except Panic (Prepainted U P × Window U P) :=
  if view.cached = true ∧ self.inspectorPicking = false then
    self.withElementState view.globalId fun state window =>
      match window.reusable view state with
      | some state => do
        let prepaintStart := window.nextFrame.prepaintIndex
        let window ← window.reusePrepaint state.prepaintRange
        let prepaintEnd := window.nextFrame.prepaintIndex
        return (.reused view, { state with prepaintRange := ⟨prepaintStart, prepaintEnd⟩ }, window)
      | none => do
        let prepaintStart := window.nextFrame.prepaintIndex
        let (element, rendered) ← render { window with refreshing := true }
        let prepaintEnd := rendered.nextFrame.prepaintIndex
        let state := {
          prepaintRange := ⟨prepaintStart, prepaintEnd⟩
          paintRange := ⟨{}, {}⟩
          cacheKey := view.cacheKey }
        return (.rendered view element, state, { rendered with refreshing := window.refreshing })
  else do
    let (element, window) ← render self
    return (.rendered view element, window)

def prepaint : Element U P → Window U P → Except Panic (Prepainted U P × Window U P)
  | .calls calls, window =>
    return (.calls calls, { window with nextFrame := calls.prepaints.foldl Frame.prepaint window.nextFrame })
  | .siblings first second, window => do
    let (first, window) ← prepaint first window
    let (second, window) ← prepaint second window
    return (.siblings first second, window)
  | .view view content, window => prepaintView view (prepaint content) window

end Prepaint

section Paint
variable [AddCommGroup U] [LinearOrder U]

def reusePaint (self : Window U P) (range : Span PaintIndex) : Except Panic (Window U P) := do
  let rendered := self.renderedFrame
  let next := self.nextFrame
  let cursorStyles ← sliceRange rendered.cursorStyles
    range.start.cursorStylesIndex range.stop.cursorStylesIndex
  let (handlers, handlersLeft) ← takeRange rendered.inputHandlers
    range.start.inputHandlersIndex range.stop.inputHandlersIndex
  let (listeners, listenersLeft) ← takeRange rendered.mouseListeners
    range.start.mouseListenersIndex range.stop.mouseListenersIndex
  let accessed ← sliceRange rendered.accessedElementStates
    range.start.accessedElementStatesIndex range.stop.accessedElementStatesIndex
  let tabStops ← next.tabStops.replay (← sliceRange rendered.tabStops.insertionHistory
    range.start.tabHandleIndex range.stop.tabHandleIndex)
  let scene ← next.scene.replay range.start.sceneIndex range.stop.sceneIndex rendered.scene
  return { self with
    renderedFrame := { rendered with inputHandlers := handlersLeft, mouseListeners := listenersLeft }
    nextFrame := { next with
      cursorStyles := next.cursorStyles ++ cursorStyles
      inputHandlers := next.inputHandlers ++ handlers
      mouseListeners := next.mouseListeners ++ listeners
      accessedElementStates := next.accessedElementStates ++ accessed
      tabStops := tabStops
      scene := scene } }

def paintView (view : View U P) (element : Option (Window U P → Except Panic (Window U P)))
    (self : Window U P) : Except Panic (Window U P) :=
  if view.cached = true ∧ self.inspectorPicking = false then do
    let ((), window) ← self.withElementState view.globalId fun state window => do
      let state ← unwrap state
      let paintStart := window.nextFrame.paintIndex
      let painted ← match element with
        | some paint => do
          let painted ← paint { window with refreshing := true }
          pure { painted with refreshing := window.refreshing }
        | none => window.reusePaint state.paintRange
      let paintEnd := painted.nextFrame.paintIndex
      return ((), { state with paintRange := ⟨paintStart, paintEnd⟩ }, painted)
    return window
  else do (← unwrap element) self

def paint : Prepainted U P → Window U P → Except Panic (Window U P)
  | .calls calls, window =>
    return { window with nextFrame := ← calls.paints.foldlM Frame.paint window.nextFrame }
  | .siblings first second, window => do paint second (← paint first window)
  | .rendered view element, window => paintView view (some (paint element)) window
  | .reused view, window => paintView view none window

end Paint
end Window

structure Draw (U : Type) (P : Payload) where
  root : Element U P
  dirtyViews : List EntityId := []
  refreshing : Bool := false
  inspectorPicking : Bool := false

section Draws
variable [DecidableEq P.ElementId] [DecidableEq P.TextStyle] [AddCommGroup U] [LinearOrder U]

def Window.begin (self : Window U P) (draw : Draw U P) : Window U P :=
  let handlers := putBack self.inputHandler self.renderedFrame.inputHandlers
  { self with
    renderedFrame := { self.renderedFrame with inputHandlers := handlers }
    dirtyViews := draw.dirtyViews
    refreshing := draw.refreshing
    inspectorPicking := draw.inspectorPicking
    inputHandler := none }

def Window.finish (self : Window U P) : Window U P :=
  let taken := takeLast self.nextFrame.inputHandlers
  let next := { self.nextFrame with inputHandlers := taken.2 }
  { self with
    renderedFrame := next.finish self.renderedFrame
    nextFrame := {}
    dirtyViews := []
    refreshing := false
    inputHandler := taken.1 }

def Window.draw (self : Window U P) (draw : Draw U P) : Except Panic (Window U P) := do
  let (root, window) ← Window.prepaint draw.root (self.begin draw)
  let window ← Window.paint root window
  return window.finish

def Window.draws : Window U P → List (Draw U P) → Except Panic (List (Window U P))
  | _, [] => return []
  | window, draw :: draws => do
    let window ← window.draw draw
    return window :: (← Window.draws window draws)

end Draws

/-! ## Draws without a cache -/

namespace Element

def prepaints (picking : Bool) : Element U P → List (PrepaintCall P)
  | .calls own => own.prepaints
  | .siblings first second => first.prepaints picking ++ second.prepaints picking
  | .view place content =>
    if place.cached = true ∧ picking = false then
      .withElementState (viewKey place.globalId) :: content.prepaints picking
    else content.prepaints picking

def paints (picking : Bool) : Element U P → List (PaintCall U P)
  | .calls own => own.paints
  | .siblings first second => first.paints picking ++ second.paints picking
  | .view place content =>
    if place.cached = true ∧ picking = false then
      .withElementState (viewKey place.globalId) :: content.paints picking
    else content.paints picking

end Element

structure Shown (U : Type) (P : Payload) where
  frame : Frame U P
  inputHandler : Option P.InputHandler

def Window.shown (self : Window U P) : Shown U P where
  frame := { self.renderedFrame with elementStates := fun _ => none }
  inputHandler := self.inputHandler

def Draw.plain [AddCommGroup U] [LinearOrder U] (self : Draw U P) : Except Panic (Shown U P) := do
  let prepainted := (self.root.prepaints self.inspectorPicking).foldl Frame.prepaint {}
  let painted ← (self.root.paints self.inspectorPicking).foldlM Frame.paint prepainted
  let (handler, handlers) := takeLast painted.inputHandlers
  return ⟨{ painted with inputHandlers := handlers, scene := painted.scene.finish }, handler⟩

end Pinrail.Views

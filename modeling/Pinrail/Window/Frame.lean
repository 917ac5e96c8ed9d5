import Pinrail.Focus.TabStop
import Pinrail.Lib.Replay
import Pinrail.Scene.Scene

/-!
# Frames

The `Frame` that a draw of a window fills: vectors that the phases of the draw push to, a scene and
the tab stops. A range of what one frame holds is pushed to the next one as what was called for it
would be.
-/

namespace Pinrail.Views
open Lib Pinrail.Geometry Paint

structure Payload where
  Primitive : Type
  MouseListener : Type
  InputHandler : Type
  Hitbox : Type
  TooltipRequest : Type
  CursorStyleRequest : Type
  TextStyle : Type
  ElementId : Type

abbrev GlobalElementId (P : Payload) := List P.ElementId

/-- The type of the state of an element, that of a view's being `ViewElementState`. -/
inductive StateType where
  | viewElementState
  | other (typeId : Nat)
deriving DecidableEq

structure ElementStateKey (P : Payload) where
  globalId : GlobalElementId P
  stateType : StateType

structure PrepaintStateIndex where
  hitboxesIndex : Nat
  tooltipsIndex : Nat
  accessedElementStatesIndex : Nat
deriving DecidableEq

structure PaintIndex where
  sceneIndex : Nat := 0
  mouseListenersIndex : Nat := 0
  inputHandlersIndex : Nat := 0
  cursorStylesIndex : Nat := 0
  accessedElementStatesIndex : Nat := 0
  tabHandleIndex : Nat := 0
deriving DecidableEq

/-- A `Range` of indices. -/
structure Span (ι : Type) where
  start : ι
  stop : ι
deriving DecidableEq

variable {U : Type} {P : Payload}

structure ViewElementCacheKey (U : Type) (P : Payload) where
  bounds : Bounds U
  contentMask : Bounds U
  textStyle : P.TextStyle

structure ViewElementState (U : Type) (P : Payload) where
  prepaintRange : Span PrepaintStateIndex
  paintRange : Span PaintIndex
  cacheKey : ViewElementCacheKey U P

abbrev ElementStates (U : Type) (P : Payload) := GlobalElementId P → Option (ViewElementState U P)

structure Frame (U : Type) (P : Payload) where
  elementStates : ElementStates U P := fun _ => none
  accessedElementStates : List (ElementStateKey P) := []
  mouseListeners : List (Option P.MouseListener) := []
  scene : Scene U P.Primitive := {}
  hitboxes : List P.Hitbox := []
  inputHandlers : List (Option P.InputHandler) := []
  tooltipRequests : List (Option P.TooltipRequest) := []
  cursorStyles : List P.CursorStyleRequest := []
  tabStops : TabStopMap := .default

inductive PrepaintCall (P : Payload) where
  | insertHitbox (hitbox : P.Hitbox)
  | setTooltip (request : P.TooltipRequest)
  | withElementState (key : ElementStateKey P)

inductive PaintCall (U : Type) (P : Payload) where
  | paint (operation : PaintOperation U P.Primitive)
  | onMouseEvent (listener : P.MouseListener)
  | handleInput (handler : P.InputHandler)
  | setCursorStyle (request : P.CursorStyleRequest)
  | withElementState (key : ElementStateKey P)
  | tabStop (operation : TabStopOperation)

namespace PrepaintCall

def hitbox : PrepaintCall P → Option P.Hitbox
  | insertHitbox hitbox => some hitbox
  | _ => none

def tooltip : PrepaintCall P → Option P.TooltipRequest
  | setTooltip request => some request
  | _ => none

def key : PrepaintCall P → Option (ElementStateKey P)
  | withElementState key => some key
  | _ => none

end PrepaintCall

namespace PaintCall

def operation : PaintCall U P → Option (PaintOperation U P.Primitive)
  | paint operation => some operation
  | _ => none

def listener : PaintCall U P → Option P.MouseListener
  | onMouseEvent listener => some listener
  | _ => none

def handler : PaintCall U P → Option P.InputHandler
  | handleInput handler => some handler
  | _ => none

def style : PaintCall U P → Option P.CursorStyleRequest
  | setCursorStyle request => some request
  | _ => none

def key : PaintCall U P → Option (ElementStateKey P)
  | withElementState key => some key
  | _ => none

def tabOperation : PaintCall U P → Option TabStopOperation
  | tabStop operation => some operation
  | _ => none

end PaintCall

namespace Frame

def prepaintIndex (self : Frame U P) : PrepaintStateIndex where
  hitboxesIndex := self.hitboxes.length
  tooltipsIndex := self.tooltipRequests.length
  accessedElementStatesIndex := self.accessedElementStates.length

def paintIndex (self : Frame U P) : PaintIndex where
  sceneIndex := self.scene.paintOperations.length
  mouseListenersIndex := self.mouseListeners.length
  inputHandlersIndex := self.inputHandlers.length
  cursorStylesIndex := self.cursorStyles.length
  accessedElementStatesIndex := self.accessedElementStates.length
  tabHandleIndex := self.tabStops.insertionHistory.length

structure Grows (before after : Frame U P) : Prop where
  hitboxes : before.hitboxes <+: after.hitboxes
  tooltipRequests : before.tooltipRequests <+: after.tooltipRequests
  accessedElementStates : before.accessedElementStates <+: after.accessedElementStates
  paintOperations : before.scene.paintOperations <+: after.scene.paintOperations
  mouseListeners : before.mouseListeners <+: after.mouseListeners
  inputHandlers : before.inputHandlers <+: after.inputHandlers
  cursorStyles : before.cursorStyles <+: after.cursorStyles
  insertionHistory : before.tabStops.insertionHistory <+: after.tabStops.insertionHistory

variable {frame frame' later : Frame U P}

theorem Grows.trans (grows : Grows frame frame') (grows' : Grows frame' later) : Grows frame later where
  hitboxes := grows.hitboxes.trans grows'.hitboxes
  tooltipRequests := grows.tooltipRequests.trans grows'.tooltipRequests
  accessedElementStates := grows.accessedElementStates.trans grows'.accessedElementStates
  paintOperations := grows.paintOperations.trans grows'.paintOperations
  mouseListeners := grows.mouseListeners.trans grows'.mouseListeners
  inputHandlers := grows.inputHandlers.trans grows'.inputHandlers
  cursorStyles := grows.cursorStyles.trans grows'.cursorStyles
  insertionHistory := grows.insertionHistory.trans grows'.insertionHistory

theorem Grows.withStates (grows : Grows frame later) (states states' : ElementStates U P) :
    Grows { frame with elementStates := states } { later with elementStates := states' } where
  hitboxes := grows.hitboxes
  tooltipRequests := grows.tooltipRequests
  accessedElementStates := grows.accessedElementStates
  paintOperations := grows.paintOperations
  mouseListeners := grows.mouseListeners
  inputHandlers := grows.inputHandlers
  cursorStyles := grows.cursorStyles
  insertionHistory := grows.insertionHistory

/-! ## Prepainting -/

def prepaint (self : Frame U P) : PrepaintCall P → Frame U P
  | .insertHitbox hitbox => { self with hitboxes := self.hitboxes ++ [hitbox] }
  | .setTooltip request => { self with tooltipRequests := self.tooltipRequests ++ [some request] }
  | .withElementState key => { self with accessedElementStates := self.accessedElementStates ++ [key] }

theorem foldl_prepaint (calls : List (PrepaintCall P)) (frame : Frame U P) : calls.foldl prepaint frame = { frame with
      hitboxes := frame.hitboxes ++ calls.filterMap PrepaintCall.hitbox
      tooltipRequests := frame.tooltipRequests ++ (calls.filterMap PrepaintCall.tooltip).map some
      accessedElementStates := frame.accessedElementStates ++ calls.filterMap PrepaintCall.key } := by
  induction calls generalizing frame with
  | nil => simp
  | cons call calls ih =>
    rw [List.foldl_cons, ih]
    cases call <;>
      simp [prepaint, List.filterMap_cons, PrepaintCall.hitbox, PrepaintCall.tooltip, PrepaintCall.key]

structure HoldsPrepaint (frame : Frame U P) (range : Span PrepaintStateIndex)
    (calls : List (PrepaintCall P)) : Prop where
  hitboxes : sliceRange frame.hitboxes range.start.hitboxesIndex range.stop.hitboxesIndex =
    .ok (calls.filterMap PrepaintCall.hitbox)
  tooltipRequests : sliceRange frame.tooltipRequests range.start.tooltipsIndex range.stop.tooltipsIndex =
      .ok ((calls.filterMap PrepaintCall.tooltip).map some)
  accessedElementStates : sliceRange frame.accessedElementStates range.start.accessedElementStatesIndex
      range.stop.accessedElementStatesIndex = .ok (calls.filterMap PrepaintCall.key)

theorem HoldsPrepaint.grows {range : Span PrepaintStateIndex} {calls : List (PrepaintCall P)}
    (holds : HoldsPrepaint frame range calls) (grows : Grows frame later) :
    HoldsPrepaint later range calls where
  hitboxes := sliceRange_of_prefix grows.hitboxes holds.hitboxes
  tooltipRequests := sliceRange_of_prefix grows.tooltipRequests holds.tooltipRequests
  accessedElementStates := sliceRange_of_prefix grows.accessedElementStates holds.accessedElementStates

theorem HoldsPrepaint.withStates {range : Span PrepaintStateIndex} {calls : List (PrepaintCall P)}
    (holds : HoldsPrepaint frame range calls) (states : ElementStates U P) :
    HoldsPrepaint { frame with elementStates := states } range calls where
  hitboxes := holds.hitboxes
  tooltipRequests := holds.tooltipRequests
  accessedElementStates := holds.accessedElementStates

theorem grows_prepaint (calls : List (PrepaintCall P)) (frame : Frame U P) :
    Grows frame (calls.foldl prepaint frame) := by
  rw [foldl_prepaint]
  constructor <;> first | exact List.prefix_rfl | exact List.prefix_append _ _

theorem holdsPrepaint (calls : List (PrepaintCall P)) (frame : Frame U P) : HoldsPrepaint (calls.foldl prepaint frame)
      ⟨frame.prepaintIndex, (calls.foldl prepaint frame).prepaintIndex⟩ calls := by
  rw [foldl_prepaint]
  constructor <;> exact sliceRange_append _ _

/-! ## Painting -/

variable [AddCommGroup U] [LinearOrder U]

def paint (self : Frame U P) : PaintCall U P → Except Panic (Frame U P)
  | .paint operation => return { self with scene := ← self.scene.paint operation }
  | .onMouseEvent listener => return { self with mouseListeners := self.mouseListeners ++ [some listener] }
  | .handleInput handler => return { self with inputHandlers := self.inputHandlers ++ [some handler] }
  | .setCursorStyle request => return { self with cursorStyles := self.cursorStyles ++ [request] }
  | .withElementState key =>
    return { self with accessedElementStates := self.accessedElementStates ++ [key] }
  | .tabStop operation => return { self with tabStops := ← self.tabStops.perform operation }

def painted (self : Frame U P) (calls : List (PaintCall U P)) (scene : Scene U P.Primitive)
    (tabStops : TabStopMap) : Frame U P :=
  { self with
    scene := scene
    tabStops := tabStops
    mouseListeners := self.mouseListeners ++ (calls.filterMap PaintCall.listener).map some
    inputHandlers := self.inputHandlers ++ (calls.filterMap PaintCall.handler).map some
    cursorStyles := self.cursorStyles ++ calls.filterMap PaintCall.style
    accessedElementStates := self.accessedElementStates ++ calls.filterMap PaintCall.key }

theorem foldlM_paint_eq_ok (calls : List (PaintCall U P)) (frame frame' : Frame U P) :
    calls.foldlM paint frame = .ok frame' ↔ ∃ scene tabStops,
    (calls.filterMap PaintCall.operation).foldlM Scene.paint frame.scene = .ok scene ∧
    (calls.filterMap PaintCall.tabOperation).foldlM TabStopMap.perform frame.tabStops = .ok tabStops ∧
    frame' = frame.painted calls scene tabStops := by
  induction calls generalizing frame with
  | nil =>
    simp only [List.foldlM_nil, List.filterMap_nil, pure_eq_ok, existsAndEq, true_and]
    simp [painted, eq_comm]
  | cons call calls ih =>
    rw [List.foldlM_cons, bind_eq_ok]
    cases call with
    | paint operation =>
      simp only [paint, bind_eq_ok, pure_eq_ok, List.filterMap_cons, PaintCall.operation,
        PaintCall.tabOperation, List.foldlM_cons]
      constructor
      · rintro ⟨next, ⟨scene, first, rfl⟩, rest⟩
        obtain ⟨scene', tabStops, scenes, tabs, rfl⟩ := (ih _).mp rest
        exact ⟨scene', tabStops, ⟨scene, first, scenes⟩, tabs, rfl⟩
      · rintro ⟨scene', tabStops, ⟨scene, first, scenes⟩, tabs, rfl⟩
        exact ⟨_, ⟨scene, first, rfl⟩, (ih _).mpr ⟨scene', tabStops, scenes, tabs, rfl⟩⟩
    | tabStop operation =>
      simp only [paint, bind_eq_ok, pure_eq_ok, List.filterMap_cons, PaintCall.operation,
        PaintCall.tabOperation, List.foldlM_cons]
      constructor
      · rintro ⟨next, ⟨tabStops, first, rfl⟩, rest⟩
        obtain ⟨scene, tabStops', scenes, tabs, rfl⟩ := (ih _).mp rest
        exact ⟨scene, tabStops', scenes, ⟨tabStops, first, tabs⟩, rfl⟩
      · rintro ⟨scene, tabStops', scenes, ⟨tabStops, first, tabs⟩, rfl⟩
        exact ⟨_, ⟨tabStops, first, rfl⟩, (ih _).mpr ⟨scene, tabStops', scenes, tabs, rfl⟩⟩
    | _ =>
      simp only [paint, pure_eq_ok, exists_eq_left', ih, List.filterMap_cons,
        PaintCall.operation, PaintCall.tabOperation]
      simp [painted, List.filterMap_cons, PaintCall.listener, PaintCall.handler, PaintCall.style, PaintCall.key]

theorem foldlM_paint_elementStates {calls : List (PaintCall U P)} {frame frame' : Frame U P}
    (painted : calls.foldlM paint frame = .ok frame') (states : ElementStates U P) :
    calls.foldlM paint { frame with elementStates := states } = .ok { frame' with elementStates := states } := by
  obtain ⟨scene, tabStops, scenes, tabs, rfl⟩ := (foldlM_paint_eq_ok ..).mp painted
  exact (foldlM_paint_eq_ok ..).mpr ⟨scene, tabStops, scenes, tabs, rfl⟩

structure HoldsPaint (frame : Frame U P) (range : Span PaintIndex) (calls : List (PaintCall U P)) :
    Prop where
  paintOperations : ∃ recorded, sliceRange frame.scene.paintOperations range.start.sceneIndex range.stop.sceneIndex =
      .ok recorded ∧ Records Scene.paint (calls.filterMap PaintCall.operation) recorded
  mouseListeners : sliceRange frame.mouseListeners range.start.mouseListenersIndex range.stop.mouseListenersIndex =
      .ok ((calls.filterMap PaintCall.listener).map some)
  inputHandlers : sliceRange frame.inputHandlers range.start.inputHandlersIndex range.stop.inputHandlersIndex =
      .ok ((calls.filterMap PaintCall.handler).map some)
  cursorStyles : sliceRange frame.cursorStyles range.start.cursorStylesIndex range.stop.cursorStylesIndex =
      .ok (calls.filterMap PaintCall.style)
  accessedElementStates : sliceRange frame.accessedElementStates range.start.accessedElementStatesIndex
      range.stop.accessedElementStatesIndex = .ok (calls.filterMap PaintCall.key)
  insertionHistory : ∃ recorded,
    sliceRange frame.tabStops.insertionHistory range.start.tabHandleIndex range.stop.tabHandleIndex = .ok recorded ∧
      Records TabStopMap.perform (calls.filterMap PaintCall.tabOperation) recorded

theorem HoldsPaint.grows {range : Span PaintIndex} {calls : List (PaintCall U P)}
    (holds : HoldsPaint frame range calls) (grows : Grows frame later) :
    HoldsPaint later range calls where
  paintOperations := by
    obtain ⟨recorded, sliced, records⟩ := holds.paintOperations
    exact ⟨recorded, sliceRange_of_prefix grows.paintOperations sliced, records⟩
  mouseListeners := sliceRange_of_prefix grows.mouseListeners holds.mouseListeners
  inputHandlers := sliceRange_of_prefix grows.inputHandlers holds.inputHandlers
  cursorStyles := sliceRange_of_prefix grows.cursorStyles holds.cursorStyles
  accessedElementStates := sliceRange_of_prefix grows.accessedElementStates holds.accessedElementStates
  insertionHistory := by
    obtain ⟨recorded, sliced, records⟩ := holds.insertionHistory
    exact ⟨recorded, sliceRange_of_prefix grows.insertionHistory sliced, records⟩

theorem HoldsPaint.withStates {range : Span PaintIndex} {calls : List (PaintCall U P)}
    (holds : HoldsPaint frame range calls) (states : ElementStates U P)
    (requests : List (Option P.TooltipRequest)) :
    HoldsPaint { frame with elementStates := states, tooltipRequests := requests } range calls where
  paintOperations := holds.paintOperations
  mouseListeners := holds.mouseListeners
  inputHandlers := holds.inputHandlers
  cursorStyles := holds.cursorStyles
  accessedElementStates := holds.accessedElementStates
  insertionHistory := holds.insertionHistory

theorem perform_replayable : Replayable TabStopMap.perform TabStopMap.insertionHistory := by
  refine ⟨fun state operation state' performed => ⟨[operation], ?_, fun _ => rfl⟩⟩
  cases operation with
  | insert focusHandle =>
    obtain ⟨⟨_, tree⟩, -, inserted⟩ := bind_eq_ok.mp performed
    cases inserted
    rfl
  | group tabIndex =>
    cases performed
    rfl
  | groupEnd =>
    cases performed
    rfl

theorem grows_paint {calls : List (PaintCall U P)} (painted : calls.foldlM paint frame = .ok frame') :
    Grows frame frame' := by
  obtain ⟨scene, tabStops, scenes, tabs, rfl⟩ := (foldlM_paint_eq_ok ..).mp painted
  obtain ⟨operations, paints, -⟩ := Scene.paint_replayable.run scenes
  obtain ⟨performed, performs, -⟩ := perform_replayable.run tabs
  constructor
  case paintOperations => exact ⟨operations, paints.symm⟩
  case insertionHistory => exact ⟨performed, performs.symm⟩
  all_goals first | exact List.prefix_rfl | exact List.prefix_append _ _

theorem holdsPaint {calls : List (PaintCall U P)} (painted : calls.foldlM paint frame = .ok frame') :
    HoldsPaint frame' ⟨frame.paintIndex, frame'.paintIndex⟩ calls := by
  obtain ⟨scene, tabStops, scenes, tabs, rfl⟩ := (foldlM_paint_eq_ok ..).mp painted
  obtain ⟨operations, paints, records⟩ := Scene.paint_replayable.run scenes
  obtain ⟨performed, performs, records'⟩ := perform_replayable.run tabs
  constructor
  case paintOperations =>
    refine ⟨operations, ?_, records⟩
    simp only [Frame.painted, paintIndex, paints]
    exact sliceRange_append _ _
  case insertionHistory =>
    refine ⟨performed, ?_, records'⟩
    simp only [Frame.painted, paintIndex, performs]
    exact sliceRange_append _ _
  all_goals exact sliceRange_append _ _

end Frame
end Pinrail.Views

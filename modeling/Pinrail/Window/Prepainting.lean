import Pinrail.Lib.Replay
import Pinrail.Window.Views

/-!
# Prepainting cached views

Prepainting makes of the next frame what all that is called in the tree makes of it, when each view
that is reused has in the rendered frame what it would call.
-/

namespace Pinrail.Views
open Lib Paint

variable {U : Type} {P : Payload}

/-! ## Reusing a range -/

section Reuse
variable {window : Window U P}

theorem Window.reusePrepaint_eq {range : Span PrepaintStateIndex} {calls : List (PrepaintCall P)}
    (holds : window.renderedFrame.HoldsPrepaint range calls) :
    window.reusePrepaint range = .ok { window with
      renderedFrame := { window.renderedFrame with
        tooltipRequests := emptied window.renderedFrame.tooltipRequests
          range.start.tooltipsIndex range.stop.tooltipsIndex }
      nextFrame := calls.foldl Frame.prepaint window.nextFrame } := by
  rw [reusePrepaint, holds.hitboxes, takeRange_of_slice holds.tooltipRequests,
    holds.accessedElementStates, Frame.foldl_prepaint]
  rfl

theorem Window.takeElementState_of_none [DecidableEq P.ElementId] {id : GlobalElementId P}
    (absent : window.nextFrame.elementStates id = none) :
    window.takeElementState id = (window.renderedFrame.elementStates id, { window with
      renderedFrame := { window.renderedFrame with
        elementStates := Function.update window.renderedFrame.elementStates id none }
      nextFrame := window.nextFrame.prepaint (.withElementState (viewKey id)) }) := by
  simp only [takeElementState, absent]
  rfl

theorem Window.reusable_eq_some [DecidableEq U] [DecidableEq P.TextStyle] {place : View U P}
    {state : Option (ViewElementState U P)} {kept : ViewElementState U P}
    (reusable : window.reusable place state = some kept) : state = some kept ∧ kept.cacheKey = place.cacheKey ∧
    place.entityId ∉ window.dirtyViews ∧ window.refreshing = false := by
  unfold Window.reusable at reusable
  obtain ⟨found, conditions⟩ := Option.filter_eq_some_iff.mp reusable
  obtain ⟨bounds, contentMask, textStyle, clean, still⟩ := of_decide_eq_true conditions
  refine ⟨found, ?_, clean, still⟩
  cases kept with
  | mk prepaintRange paintRange cacheKey =>
    cases cacheKey
    cases h : place.cacheKey
    simp only [h] at bounds contentMask textStyle
    simp [bounds, contentMask, textStyle]

section Entering
variable [DecidableEq P.ElementId] [DecidableEq U] [DecidableEq P.TextStyle] {place : View U P}
  {render : Window U P → Except Panic (Prepainted U P × Window U P)}

def Window.entered (window : Window U P) (place : View U P) : Window U P :=
  { window with
    renderedFrame := { window.renderedFrame with
      elementStates := Function.update window.renderedFrame.elementStates place.globalId none }
    nextFrame := window.nextFrame.prepaint (.withElementState (viewKey place.globalId)) }

theorem Window.prepaintView_reused {state : ViewElementState U P} {calls : List (PrepaintCall P)}
    (caches : place.cached = true ∧ window.inspectorPicking = false)
    (absent : window.nextFrame.elementStates place.globalId = none)
    (reusable : (window.entered place).reusable place (window.renderedFrame.elementStates place.globalId) = some state)
    (holds : window.renderedFrame.HoldsPrepaint state.prepaintRange calls) :
    Window.prepaintView place render window = .ok (.reused place, { window with
      renderedFrame := { (window.entered place).renderedFrame with
        tooltipRequests := emptied window.renderedFrame.tooltipRequests
          state.prepaintRange.start.tooltipsIndex state.prepaintRange.stop.tooltipsIndex }
      nextFrame := { calls.foldl Frame.prepaint (window.entered place).nextFrame with
        elementStates := Function.update window.nextFrame.elementStates place.globalId (some { state with
          prepaintRange := ⟨(window.entered place).nextFrame.prepaintIndex,
            (calls.foldl Frame.prepaint (window.entered place).nextFrame).prepaintIndex⟩ }) } }) := by
  have held : (window.entered place).renderedFrame.HoldsPrepaint state.prepaintRange calls := holds.withStates _
  rw [prepaintView, if_pos caches, withElementState, takeElementState_of_none absent]
  have reuse := reusePrepaint_eq held
  simp only [entered] at reuse reusable
  simp only [reusable, reuse, ok_bind]
  simp only [insertElementState, entered, Frame.foldl_prepaint, Frame.prepaint]
  rfl

theorem Window.prepaintView_rendered {element : Prepainted U P} {rendered : Window U P}
    (caches : place.cached = true ∧ window.inspectorPicking = false)
    (absent : window.nextFrame.elementStates place.globalId = none)
    (reusable : (window.entered place).reusable place (window.renderedFrame.elementStates place.globalId) = none)
    (render_eq : render { window.entered place with refreshing := true } = .ok (element, rendered)) :
    Window.prepaintView place render window = .ok (.rendered place element, { rendered with
      refreshing := window.refreshing
      nextFrame := { rendered.nextFrame with
        elementStates := Function.update rendered.nextFrame.elementStates place.globalId (some {
          prepaintRange := ⟨(window.entered place).nextFrame.prepaintIndex, rendered.nextFrame.prepaintIndex⟩
          paintRange := ⟨{}, {}⟩
          cacheKey := place.cacheKey }) } }) := by
  rw [prepaintView, if_pos caches, withElementState, takeElementState_of_none absent]
  simp only [entered] at render_eq reusable
  simp only [reusable, render_eq, ok_bind]
  rfl

end Entering

variable [AddCommGroup U] [LinearOrder U]

theorem Window.reusePaint_eq {range : Span PaintIndex} {calls : List (PaintCall U P)}
    {painted : Frame U P} (holds : window.renderedFrame.HoldsPaint range calls)
    (paints : calls.foldlM Frame.paint window.nextFrame = .ok painted) :
    window.reusePaint range = .ok { window with
      renderedFrame := { window.renderedFrame with
        inputHandlers := emptied window.renderedFrame.inputHandlers
          range.start.inputHandlersIndex range.stop.inputHandlersIndex
        mouseListeners := emptied window.renderedFrame.mouseListeners
          range.start.mouseListenersIndex range.stop.mouseListenersIndex }
      nextFrame := painted } := by
  obtain ⟨scene, tabStops, scenes, tabs, rfl⟩ := (Frame.foldlM_paint_eq_ok ..).mp paints
  obtain ⟨operations, sliced, records⟩ := holds.paintOperations
  obtain ⟨history, sliced', records'⟩ := holds.insertionHistory
  rw [reusePaint, holds.cursorStyles, takeRange_of_slice holds.inputHandlers,
    takeRange_of_slice holds.mouseListeners, holds.accessedElementStates, sliced']
  simp only [ok_bind, TabStopMap.replay, Scene.replay, sliced, (records' _).trans tabs, (records _).trans scenes]
  rfl

variable [DecidableEq P.ElementId] {place : View U P} {state : ViewElementState U P}

def Window.taken (window : Window U P) (place : View U P) : Window U P :=
  { window with nextFrame := { window.nextFrame with
      accessedElementStates := window.nextFrame.accessedElementStates ++ [viewKey place.globalId]
      elementStates := Function.update window.nextFrame.elementStates place.globalId none } }

omit [AddCommGroup U] [LinearOrder U] in
theorem Window.takeElementState_of_some (found : window.nextFrame.elementStates place.globalId = some state) :
    window.takeElementState place.globalId = (some state, window.taken place) := by
  simp only [takeElementState, found]
  rfl

theorem Window.paintView_reused {painted : Window U P} (caches : place.cached = true ∧ window.inspectorPicking = false)
    (found : window.nextFrame.elementStates place.globalId = some state)
    (reuse : (window.taken place).reusePaint state.paintRange = .ok painted) :
    Window.paintView place none window = .ok (painted.insertElementState place.globalId { state with
      paintRange := ⟨(window.taken place).nextFrame.paintIndex, painted.nextFrame.paintIndex⟩ }) := by
  rw [paintView, if_pos caches, withElementState, takeElementState_of_some found]
  simp only [unwrap_some, ok_bind, reuse]
  rfl

theorem Window.paintView_rendered {paint : Window U P → Except Panic (Window U P)}
    {painted : Window U P} (caches : place.cached = true ∧ window.inspectorPicking = false)
    (found : window.nextFrame.elementStates place.globalId = some state)
    (paint_eq : paint { window.taken place with refreshing := true } = .ok painted) :
    Window.paintView place (some paint) window =
      .ok (({ painted with refreshing := window.refreshing } : Window U P).insertElementState
        place.globalId { state with
          paintRange := ⟨(window.taken place).nextFrame.paintIndex, painted.nextFrame.paintIndex⟩ }) := by
  rw [paintView, if_pos caches, withElementState, takeElementState_of_some found]
  simp only [unwrap_some, ok_bind, paint_eq]
  rfl

end Reuse

/-! ## The views of a draw -/

namespace Element

def globalIds (picking : Bool) : Element U P → List (GlobalElementId P)
  | .calls _ => []
  | .siblings first second => first.globalIds picking ++ second.globalIds picking
  | .view place content =>
    if place.cached = true ∧ picking = false then place.globalId :: content.globalIds picking
    else content.globalIds picking

def outermost (picking : Bool) : Element U P → List (View U P × Element U P)
  | .calls _ => []
  | .siblings first second => first.outermost picking ++ second.outermost picking
  | .view place content =>
    if place.cached = true ∧ picking = false then [(place, content)]
    else content.outermost picking

theorem view_cached {picking : Bool} {place : View U P} (content : Element U P)
    (caches : place.cached = true ∧ picking = false) : (view place content).globalIds picking = place.globalId ::
    content.globalIds picking ∧ (view place content).outermost picking = [(place, content)] ∧
    (view place content).prepaints picking = .withElementState (viewKey place.globalId) :: content.prepaints picking ∧
    (view place content).paints picking = .withElementState (viewKey place.globalId) :: content.paints picking :=
  ⟨if_pos caches, if_pos caches, if_pos caches, if_pos caches⟩

theorem view_uncached {picking : Bool} {place : View U P} (content : Element U P)
    (uncached : ¬(place.cached = true ∧ picking = false)) :
    (view place content).globalIds picking = content.globalIds picking ∧
    (view place content).outermost picking = content.outermost picking ∧
    (view place content).prepaints picking = content.prepaints picking ∧
    (view place content).paints picking = content.paints picking :=
  ⟨if_neg uncached, if_neg uncached, if_neg uncached, if_neg uncached⟩

theorem outermost_sublist (picking : Bool) (element : Element U P) :
    ((element.outermost picking).map fun item => item.1.globalId).Sublist (element.globalIds picking) := by
  induction element with
  | calls own => exact .slnil
  | siblings first second ih ih' =>
    rw [outermost, List.map_append]
    exact ih.append ih'
  | view place content ih =>
    unfold outermost globalIds
    split_ifs
    · exact (List.nil_sublist _).cons_cons _
    · exact ih

theorem globalId_mem_of_outermost {picking : Bool} {element : Element U P} {item : View U P × Element U P}
    (mem : item ∈ element.outermost picking) : item.1.globalId ∈ element.globalIds picking :=
  (outermost_sublist picking element).subset (List.mem_map_of_mem mem)

theorem mem_globalIds_of_prepaints {picking : Bool} {element : Element U P} {id : GlobalElementId P}
    (mem : viewKey id ∈ (element.prepaints picking).filterMap PrepaintCall.key) : id ∈ element.globalIds picking := by
  induction element with
  | calls own => exact absurd rfl (own.prepaints_other _ mem)
  | siblings first second ih ih' =>
    rw [prepaints, List.filterMap_append] at mem
    exact List.mem_append.mpr ((List.mem_append.mp mem).imp ih ih')
  | view place content ih =>
    unfold prepaints at mem
    unfold globalIds
    split_ifs at mem ⊢
    · rw [List.filterMap_cons] at mem
      rcases List.mem_cons.mp mem with same | mem
      · cases same
        exact List.mem_cons_self
      · exact List.mem_cons_of_mem _ (ih mem)
    · exact ih mem

theorem mem_globalIds_of_paints {picking : Bool} {element : Element U P} {id : GlobalElementId P}
    (mem : viewKey id ∈ (element.paints picking).filterMap PaintCall.key) : id ∈ element.globalIds picking := by
  induction element with
  | calls own => exact absurd rfl (own.paints_other _ mem)
  | siblings first second ih ih' =>
    rw [paints, List.filterMap_append] at mem
    exact List.mem_append.mpr ((List.mem_append.mp mem).imp ih ih')
  | view place content ih =>
    unfold paints at mem
    unfold globalIds
    split_ifs at mem ⊢
    · rw [List.filterMap_cons] at mem
      rcases List.mem_cons.mp mem with same | mem
      · cases same
        exact List.mem_cons_self
      · exact List.mem_cons_of_mem _ (ih mem)
    · exact ih mem

end Element

abbrev Memory (U : Type) (P : Payload) :=
  GlobalElementId P → Option (ViewElementState U P × Element U P)

section Phases

structure Apart (state state' : ViewElementState U P) : Prop where
  tooltips : state.prepaintRange.stop.tooltipsIndex ≤ state'.prepaintRange.start.tooltipsIndex ∨
    state'.prepaintRange.stop.tooltipsIndex ≤ state.prepaintRange.start.tooltipsIndex
  listeners : state.paintRange.stop.mouseListenersIndex ≤ state'.paintRange.start.mouseListenersIndex ∨
      state'.paintRange.stop.mouseListenersIndex ≤ state.paintRange.start.mouseListenersIndex
  handlers : state.paintRange.stop.inputHandlersIndex ≤ state'.paintRange.start.inputHandlersIndex ∨
      state'.paintRange.stop.inputHandlersIndex ≤ state.paintRange.start.inputHandlersIndex

def Separate (memory : Memory U P) : Prop :=
  ∀ id id' entry entry', id ≠ id' → memory id = some entry → memory id' = some entry' → Apart entry.1 entry'.1

inductive Decided (memory : Memory U P) (picking : Bool) (states : ElementStates U P) :
    Element U P → Prepainted U P → Prop where
  | calls (own : Calls U P) : Decided memory picking states (.calls own) (.calls own)
  | siblings {first second : Element U P} {first' second' : Prepainted U P}
      (decided : Decided memory picking states first first')
      (decided' : Decided memory picking states second second') :
      Decided memory picking states (.siblings first second) (.siblings first' second')
  | rendered {place : View U P} {content : Element U P} {element : Prepainted U P}
      (entered : place.cached = true ∧ picking = false → (states place.globalId).isSome)
      (decided : Decided memory picking states content element) :
      Decided memory picking states (.view place content) (.rendered place element)
  | reused {place : View U P} {content : Element U P} {state old : ViewElementState U P}
      (caches : place.cached = true ∧ picking = false)
      (found : states place.globalId = some state)
      (remembered : memory place.globalId = some (old, content))
      (same : state.paintRange = old.paintRange) :
      Decided memory picking states (.view place content) (.reused place)

theorem Decided.congr {memory : Memory U P} {picking : Bool} {states states' : ElementStates U P}
    {element : Element U P} {result : Prepainted U P} (decided : Decided memory picking states element result)
    (same : ∀ id ∈ element.globalIds picking, states' id = states id) :
    Decided memory picking states' element result := by
  induction decided with
  | calls own => exact .calls own
  | siblings _ _ ih ih' =>
    exact .siblings (ih fun id mem => same id (List.mem_append_left _ mem))
      (ih' fun id mem => same id (List.mem_append_right _ mem))
  | @rendered place content element entered _ ih =>
    simp only [Element.globalIds] at same
    split_ifs at same with caches
    · refine .rendered (fun _ => ?_) (ih fun id mem => same id (List.mem_cons_of_mem _ mem))
      rw [same _ List.mem_cons_self]
      exact entered caches
    · exact .rendered (fun cached => absurd cached caches) (ih same)
  | reused caches found remembered range =>
    refine .reused caches ((same _ ?_).trans found) remembered range
    rw [Element.globalIds, if_pos caches]
    exact List.mem_cons_self

variable [AddCommGroup U] [LinearOrder U]

def Frame.HoldsView (frame : Frame U P) (state : ViewElementState U P) (content : Element U P) : Prop :=
  frame.HoldsPrepaint state.prepaintRange (content.prepaints false) ∧
    frame.HoldsPaint state.paintRange (content.paints false)

theorem Frame.HoldsView.withStates {frame : Frame U P} {state : ViewElementState U P}
    {content : Element U P} (holds : frame.HoldsView state content) (states : ElementStates U P) :
    ({ frame with elementStates := states } : Frame U P).HoldsView state content :=
  ⟨holds.1.withStates _, holds.2.withStates _ _⟩

/-! ## Prepainting -/

section Prepainting
structure Prepaints (memory : Memory U P) (picking : Bool) (before : Window U P)
    (element : Element U P) (result : Prepainted U P) (after : Window U P) : Prop where
  next : ∃ states, after.nextFrame =
    { (element.prepaints picking).foldl Frame.prepaint before.nextFrame with elementStates := states }
  rendered : ∃ states requests, after.renderedFrame =
    { before.renderedFrame with elementStates := states, tooltipRequests := requests }
  dirtyViews : after.dirtyViews = before.dirtyViews
  refreshing : after.refreshing = before.refreshing
  inspectorPicking : after.inspectorPicking = before.inspectorPicking
  others : ∀ id ∉ element.globalIds picking, after.nextFrame.elementStates id = before.nextFrame.elementStates id ∧
      after.renderedFrame.elementStates id = before.renderedFrame.elementStates id
  kept : ∀ id ∉ element.globalIds picking, ∀ entry, memory id = some entry →
    before.renderedFrame.HoldsView entry.1 entry.2 → after.renderedFrame.HoldsView entry.1 entry.2
  decided : Decided memory picking after.nextFrame.elementStates element result
  taken : ∀ item ∈ element.outermost picking, after.renderedFrame.elementStates item.1.globalId = none
  laid : Laid after.nextFrame.elementStates (fun item => item.1.globalId)
    (fun item state => state.cacheKey = item.1.cacheKey ∧
      after.nextFrame.HoldsPrepaint state.prepaintRange (item.2.prepaints false))
    (fun state => state.prepaintRange.start.tooltipsIndex)
    (fun state => state.prepaintRange.stop.tooltipsIndex)
    before.nextFrame.tooltipRequests.length after.nextFrame.tooltipRequests.length
    (element.outermost picking)

variable {memory : Memory U P} {picking : Bool}

theorem Prepaints.grows {before after : Window U P} {element : Element U P}
    {result : Prepainted U P} (prepaints : Prepaints memory picking before element result after) :
    Frame.Grows before.nextFrame after.nextFrame := by
  obtain ⟨states, next⟩ := prepaints.next
  have grows := Frame.grows_prepaint (element.prepaints picking) before.nextFrame
  rw [next]
  exact grows.withStates _ _

theorem Prepaints.siblings {before between after : Window U P} {first second : Element U P}
    {result result' : Prepainted U P} (prepaints : Prepaints memory picking before first result between)
    (prepaints' : Prepaints memory picking between second result' after)
    (nodup : ((Element.siblings first second).globalIds picking).Nodup) :
    Prepaints memory picking before (.siblings first second) (.siblings result result') after := by
  obtain ⟨-, -, apart⟩ := List.nodup_append.mp nodup
  have left : ∀ id ∈ first.globalIds picking, id ∉ second.globalIds picking :=
    fun id mem mem' => apart id mem id mem' rfl
  constructor
  case next =>
    obtain ⟨states, next⟩ := prepaints.next
    obtain ⟨states', next'⟩ := prepaints'.next
    refine ⟨states', ?_⟩
    rw [next', next, Element.prepaints, List.foldl_append, Frame.foldl_prepaint,
      Frame.foldl_prepaint (second.prepaints picking)]
  case rendered =>
    obtain ⟨states, requests, rendered⟩ := prepaints.rendered
    obtain ⟨states', requests', rendered'⟩ := prepaints'.rendered
    exact ⟨states', requests', by rw [rendered', rendered]⟩
  case dirtyViews => exact prepaints'.dirtyViews.trans prepaints.dirtyViews
  case refreshing => exact prepaints'.refreshing.trans prepaints.refreshing
  case inspectorPicking => exact prepaints'.inspectorPicking.trans prepaints.inspectorPicking
  case others =>
    intro id notMem
    obtain ⟨notMem, notMem'⟩ := not_or.mp (mt List.mem_append.mpr notMem)
    obtain ⟨next, rendered⟩ := prepaints.others id notMem
    obtain ⟨next', rendered'⟩ := prepaints'.others id notMem'
    exact ⟨next'.trans next, rendered'.trans rendered⟩
  case kept =>
    intro id notMem entry remembered holds
    obtain ⟨notMem, notMem'⟩ := not_or.mp (mt List.mem_append.mpr notMem)
    exact prepaints'.kept id notMem' entry remembered (prepaints.kept id notMem entry remembered holds)
  case decided =>
    refine .siblings (prepaints.decided.congr fun id mem => ?_) prepaints'.decided
    exact (prepaints'.others id (left id mem)).1
  case taken =>
    intro item mem
    rcases List.mem_append.mp mem with mem | mem
    · rw [(prepaints'.others _ (left _ (Element.globalId_mem_of_outermost mem))).2]
      exact prepaints.taken item mem
    · exact prepaints'.taken item mem
  case laid =>
    refine (prepaints.laid.congr (fun item mem => ?_) fun item mem state good => ?_).append
      prepaints'.laid prepaints.grows.tooltipRequests.length_le
      prepaints'.grows.tooltipRequests.length_le
    · exact (prepaints'.others _ (left _ (Element.globalId_mem_of_outermost mem))).1
    · exact ⟨good.1, good.2.grows prepaints'.grows⟩

theorem prepaints_uncached {window after : Window U P} {place : View U P} {content : Element U P}
    {element : Prepainted U P} (uncached : ¬(place.cached = true ∧ picking = false))
    (prepaints : Prepaints memory picking window content element after) :
    Prepaints memory picking window (.view place content) (.rendered place element) after := by
  obtain ⟨ids, outermost, calls, -⟩ := Element.view_uncached content uncached
  exact ⟨calls ▸ prepaints.next, prepaints.rendered, prepaints.dirtyViews, prepaints.refreshing,
    prepaints.inspectorPicking, ids ▸ prepaints.others,
    ids ▸ prepaints.kept, .rendered (fun caches => absurd caches uncached) prepaints.decided,
    outermost ▸ prepaints.taken, outermost ▸ prepaints.laid⟩

theorem Frame.HoldsView.emptied {frame : Frame U P} {state other : ViewElementState U P}
    {content : Element U P} (holds : frame.HoldsView other content) (apart : Apart state other)
    (states : ElementStates U P) :
    ({ frame with
      elementStates := states
      tooltipRequests := Lib.emptied frame.tooltipRequests
        state.prepaintRange.start.tooltipsIndex state.prepaintRange.stop.tooltipsIndex } :
      Frame U P).HoldsView other content := by
  obtain ⟨prepaints, paints⟩ := holds
  refine ⟨⟨prepaints.1, ?_, prepaints.3⟩, paints.withStates _ _⟩
  exact (sliceRange_emptied apart.tooltips).trans prepaints.tooltipRequests

variable [DecidableEq P.ElementId] [DecidableEq P.TextStyle]

def Recalled (memory : Memory U P) (window : Window U P) (item : View U P × Element U P) : Prop :=
  window.refreshing = false → ∀ state, window.renderedFrame.elementStates item.1.globalId = some state →
      state.cacheKey = item.1.cacheKey → item.1.entityId ∉ window.dirtyViews →
        memory item.1.globalId = some (state, item.2)

structure Prepaintable (memory : Memory U P) (picking : Bool) (window : Window U P)
    (element : Element U P) : Prop where
  inspectorPicking : window.inspectorPicking = picking
  absent : ∀ id ∈ element.globalIds picking, window.nextFrame.elementStates id = none
  holds : ∀ id ∈ element.globalIds picking, ∀ entry, memory id = some entry →
    window.renderedFrame.HoldsView entry.1 entry.2
  recalled : ∀ item ∈ element.outermost picking, Recalled memory window item

omit [DecidableEq P.ElementId] [DecidableEq P.TextStyle] in
theorem Prepaintable.second {window between : Window U P} {first second : Element U P} {result : Prepainted U P}
    (prepaintable : Prepaintable memory picking window (.siblings first second))
    (prepaints : Prepaints memory picking window first result between)
    (others : ∀ id ∈ second.globalIds picking, id ∉ first.globalIds picking) :
    Prepaintable memory picking between second := by
  constructor
  case inspectorPicking => exact prepaints.inspectorPicking.trans prepaintable.inspectorPicking
  case absent =>
    intro id mem
    rw [(prepaints.others id (others id mem)).1]
    exact prepaintable.absent id (List.mem_append_right _ mem)
  case holds =>
    intro id mem entry known
    exact prepaints.kept id (others id mem) entry known
      (prepaintable.holds id (List.mem_append_right _ mem) entry known)
  case recalled =>
    intro item mem still state found sameKey clean
    have member := others _ (Element.globalId_mem_of_outermost mem)
    rw [prepaints.refreshing] at still
    rw [(prepaints.others _ member).2] at found
    rw [prepaints.dirtyViews] at clean
    exact prepaintable.recalled item (List.mem_append_right _ mem) still state found sameKey clean

omit [DecidableEq P.TextStyle] in
theorem Prepaintable.content {window : Window U P} {place : View U P} {content : Element U P}
    (prepaintable : Prepaintable memory picking window (.view place content))
    (ids : (Element.view place content).globalIds picking = place.globalId :: content.globalIds picking) :
    Prepaintable memory picking { window.entered place with refreshing := true } content := by
  constructor
  case inspectorPicking => exact prepaintable.inspectorPicking
  case absent =>
    intro id mem
    exact prepaintable.absent id (ids ▸ List.mem_cons_of_mem _ mem)
  case holds =>
    intro id mem entry known
    exact (prepaintable.holds id (ids ▸ List.mem_cons_of_mem _ mem) entry known).withStates _
  case recalled =>
    -- nothing is reused inside a view that is rendered
    intro item mem still
    cases still

theorem prepaints_reused {window : Window U P} {place : View U P} {content : Element U P}
    {state : ViewElementState U P} (separate : Separate memory)
    (caches : place.cached = true ∧ picking = false)
    (prepaintable : Prepaintable memory picking window (.view place content))
    (reusable : (window.entered place).reusable place
      (window.renderedFrame.elementStates place.globalId) = some state) :
    ∃ after, Window.prepaintView place (Window.prepaint content) window = .ok (.reused place, after) ∧
      Prepaints memory picking window (.view place content) (.reused place) after := by
  obtain ⟨ids, outermost, calls, -⟩ := Element.view_cached content caches
  have member : place.globalId ∈ (Element.view place content).globalIds picking := ids ▸ List.mem_cons_self
  obtain ⟨found, sameKey, clean, still⟩ := Window.reusable_eq_some reusable
  have remembered : memory place.globalId = some (state, content) :=
    prepaintable.recalled (place, content) (outermost ▸ List.mem_singleton_self _) still state found sameKey clean
  obtain ⟨prepaints, -⟩ := prepaintable.holds _ member _ remembered
  have again := Frame.holdsPrepaint (content.prepaints false) (window.entered place).nextFrame
  refine ⟨_, Window.prepaintView_reused ⟨caches.1, prepaintable.inspectorPicking.trans caches.2⟩
    (prepaintable.absent _ member) reusable prepaints, ?_⟩
  constructor
  case next =>
    rw [calls, caches.2]
    exact ⟨_, rfl⟩
  case rendered => exact ⟨_, _, rfl⟩
  case dirtyViews | refreshing | inspectorPicking => rfl
  case others =>
    intro id notMem
    rw [ids] at notMem
    have other := List.ne_of_not_mem_cons notMem
    exact ⟨Function.update_of_ne other _ _, Function.update_of_ne other _ _⟩
  case kept =>
    intro id notMem entry known holds
    rw [ids] at notMem
    have other := List.ne_of_not_mem_cons notMem
    exact holds.emptied (separate _ _ _ _ other.symm remembered known) _
  case decided => exact .reused caches (Function.update_self _ _ _) remembered rfl
  case taken =>
    rw [outermost]
    rintro item (_ | _)
    · exact Function.update_self _ _ _
    · contradiction
  case laid =>
    rw [outermost]
    exact .singleton (Function.update_self _ _ _) ⟨sameKey, again.withStates _⟩ le_rfl le_rfl

theorem prepaints_rendered {window rendered : Window U P} {place : View U P} {content : Element U P}
    {element : Prepainted U P} (caches : place.cached = true ∧ picking = false)
    (nodup : ((Element.view place content).globalIds picking).Nodup)
    (prepaintable : Prepaintable memory picking window (.view place content))
    (reusable : (window.entered place).reusable place (window.renderedFrame.elementStates place.globalId) = none)
    (render_eq : Window.prepaint content { window.entered place with refreshing := true } = .ok (element, rendered))
    (prepaints : Prepaints memory picking { window.entered place with refreshing := true } content element rendered) :
    ∃ after, Window.prepaintView place (Window.prepaint content) window = .ok (.rendered place element, after) ∧
    Prepaints memory picking window (.view place content) (.rendered place element) after := by
  obtain ⟨ids, outermost, calls, -⟩ := Element.view_cached content caches
  have member : place.globalId ∈ (Element.view place content).globalIds picking := ids ▸ List.mem_cons_self
  obtain ⟨inside, -⟩ := List.nodup_cons.mp (ids ▸ nodup)
  obtain ⟨states, next⟩ := prepaints.next
  refine ⟨_, Window.prepaintView_rendered ⟨caches.1, prepaintable.inspectorPicking.trans caches.2⟩
    (prepaintable.absent _ member) reusable render_eq, ?_⟩
  constructor
  case next =>
    rw [calls, next]
    exact ⟨_, rfl⟩
  case rendered =>
    obtain ⟨states, requests, same⟩ := prepaints.rendered
    exact ⟨states, requests, same⟩
  case dirtyViews => exact prepaints.dirtyViews
  case refreshing => rfl
  case inspectorPicking => exact prepaints.inspectorPicking
  case others =>
    intro id notMem
    rw [ids] at notMem
    have other := List.ne_of_not_mem_cons notMem
    obtain ⟨same, same'⟩ := prepaints.others id (List.not_mem_of_not_mem_cons notMem)
    exact ⟨(Function.update_of_ne other _ _).trans same, same'.trans (Function.update_of_ne other _ _)⟩
  case kept =>
    intro id notMem entry known holds
    rw [ids] at notMem
    exact prepaints.kept id (List.not_mem_of_not_mem_cons notMem) entry known (holds.withStates _)
  case decided =>
    refine .rendered (fun _ => ?_) (prepaints.decided.congr fun id mem => ?_)
    · exact Option.isSome_iff_exists.mpr ⟨_, Function.update_self _ _ _⟩
    · exact Function.update_of_ne (fun same : id = place.globalId => inside (same ▸ mem)) _ _
  case taken =>
    rw [outermost]
    rintro item (_ | _)
    · exact (prepaints.others _ inside).2.trans (Function.update_self _ _ _)
    · contradiction
  case laid =>
    have again := Frame.holdsPrepaint (content.prepaints picking) (window.entered place).nextFrame
    rw [caches.2] at again next
    rw [outermost]
    refine .singleton (Function.update_self _ _ _) ⟨rfl, ?_⟩ le_rfl le_rfl
    rw [next]
    exact again.withStates _

theorem prepaint_prepaints (separate : Separate memory) (element : Element U P) {window : Window U P}
    (nodup : (element.globalIds picking).Nodup) (prepaintable : Prepaintable memory picking window element) :
    ∃ result after, Window.prepaint element window = .ok (result, after) ∧
    Prepaints memory picking window element result after := by
  induction element generalizing window with
  | calls own =>
    refine ⟨_, _, rfl, ⟨_, rfl⟩, ⟨_, _, rfl⟩, rfl, rfl, rfl, fun id _ => ?_,
      fun _ _ _ _ holds => holds, .calls own, fun _ mem => absurd mem List.not_mem_nil, .nil⟩
    simp [Frame.foldl_prepaint]
  | siblings first second ih ih' =>
    obtain ⟨nodup₁, nodup₂, apart⟩ := List.nodup_append.mp nodup
    obtain ⟨result, between, ran, prepaints⟩ := ih nodup₁ ⟨prepaintable.inspectorPicking,
        fun id mem => prepaintable.absent id (List.mem_append_left _ mem),
        fun id mem => prepaintable.holds id (List.mem_append_left _ mem),
        fun item mem => prepaintable.recalled item (List.mem_append_left _ mem)⟩
    have others : ∀ id ∈ second.globalIds picking, id ∉ first.globalIds picking :=
      fun id mem mem' => apart id mem' id mem rfl
    obtain ⟨result', after, ran', prepaints'⟩ := ih' nodup₂ (prepaintable.second prepaints others)
    refine ⟨.siblings result result', after, ?_, prepaints.siblings prepaints' nodup⟩
    rw [Window.prepaint, ran, ok_bind]
    simp only [ran', ok_bind]
    rfl
  | view place content ih =>
    by_cases caches : place.cached = true ∧ picking = false
    · obtain ⟨ids, -⟩ := Element.view_cached content caches
      cases reusable : (window.entered place).reusable place (window.renderedFrame.elementStates place.globalId) with
      | some state =>
        obtain ⟨after, ran, prepaints⟩ := prepaints_reused separate caches prepaintable reusable
        exact ⟨_, after, ran, prepaints⟩
      | none =>
        obtain ⟨inside, nodup'⟩ := List.nodup_cons.mp (ids ▸ nodup)
        obtain ⟨element, rendered, ran, prepaints⟩ := ih nodup' (prepaintable.content ids)
        obtain ⟨after, ran', prepaints'⟩ := prepaints_rendered caches nodup prepaintable reusable ran prepaints
        exact ⟨_, after, ran', prepaints'⟩
    · obtain ⟨ids, outermost, -⟩ := Element.view_uncached content caches
      obtain ⟨element, after, ran, prepaints⟩ := ih (ids ▸ nodup)
        ⟨prepaintable.inspectorPicking, ids ▸ prepaintable.absent, ids ▸ prepaintable.holds,
          outermost ▸ prepaintable.recalled⟩
      refine ⟨.rendered place element, after, ?_, prepaints_uncached caches prepaints⟩
      rw [Window.prepaint, Window.prepaintView, prepaintable.inspectorPicking, if_neg caches, ran]
      rfl

end Prepainting

end Phases
end Pinrail.Views

import Pinrail.Lib.Assoc
import Pinrail.Window.Prepainting

/-!
# What cached views show

A window shows in every draw what all the elements call in it, as if no view was ever reused, when a
view that is not dirty has the content it had before.
-/

namespace Pinrail.Views
open Lib Paint

variable {U : Type} {P : Payload}

/-! ## Painting -/

section Painting
variable [AddCommGroup U] [LinearOrder U]

structure Paints (memory : Memory U P) (picking : Bool) (before : Window U P)
    (element : Element U P) (painted : Frame U P) (after : Window U P) : Prop where
  next : ∃ states, after.nextFrame = { painted with elementStates := states }
  grows : Frame.Grows before.nextFrame painted
  rendered : ∃ listeners handlers, after.renderedFrame =
    { before.renderedFrame with mouseListeners := listeners, inputHandlers := handlers }
  inspectorPicking : after.inspectorPicking = before.inspectorPicking
  others : ∀ id ∉ element.globalIds picking, after.nextFrame.elementStates id = before.nextFrame.elementStates id
  same : ∀ id state, before.nextFrame.elementStates id = some state →
    ∃ state', after.nextFrame.elementStates id = some state' ∧
      state'.cacheKey = state.cacheKey ∧ state'.prepaintRange = state.prepaintRange
  kept : ∀ id ∉ element.globalIds picking, ∀ entry, memory id = some entry →
    before.renderedFrame.HoldsPaint entry.1.paintRange (entry.2.paints false) →
      after.renderedFrame.HoldsPaint entry.1.paintRange (entry.2.paints false)
  laid : Laid after.nextFrame.elementStates (fun item => item.1.globalId)
    (fun item state => painted.HoldsPaint state.paintRange (item.2.paints false))
    (fun state => (state.paintRange.start.mouseListenersIndex, state.paintRange.start.inputHandlersIndex))
    (fun state => (state.paintRange.stop.mouseListenersIndex, state.paintRange.stop.inputHandlersIndex))
    (before.nextFrame.mouseListeners.length, before.nextFrame.inputHandlers.length)
    (painted.mouseListeners.length, painted.inputHandlers.length)
    (element.outermost picking)

variable {memory : Memory U P} {picking : Bool}

theorem Paints.siblings {before between after : Window U P} {first second : Element U P}
    {painted painted' : Frame U P} (paints : Paints memory picking before first painted between)
    (paints' : Paints memory picking between second painted' after)
    (nodup : ((Element.siblings first second).globalIds picking).Nodup) :
    Paints memory picking before (.siblings first second) painted' after := by
  obtain ⟨-, -, apart⟩ := List.nodup_append.mp nodup
  have left : ∀ id ∈ first.globalIds picking, id ∉ second.globalIds picking :=
    fun id mem mem' => apart id mem id mem' rfl
  obtain ⟨states, next⟩ := paints.next
  have grows : Frame.Grows painted painted' := by
    have grows' := paints'.grows
    rw [next] at grows'
    exact grows'.withStates _ _
  have laid := paints'.laid
  rw [next] at laid
  constructor
  case next => exact paints'.next
  case grows => exact paints.grows.trans grows
  case rendered =>
    obtain ⟨_, _, rendered⟩ := paints.rendered
    obtain ⟨listeners, handlers, rendered'⟩ := paints'.rendered
    exact ⟨listeners, handlers, by rw [rendered', rendered]⟩
  case inspectorPicking => exact paints'.inspectorPicking.trans paints.inspectorPicking
  case others =>
    intro id notMem
    obtain ⟨notMem, notMem'⟩ := not_or.mp (mt List.mem_append.mpr notMem)
    exact (paints'.others id notMem').trans (paints.others id notMem)
  case same =>
    intro id state found
    obtain ⟨state', found', key, range⟩ := paints.same id state found
    obtain ⟨state'', found'', key', range'⟩ := paints'.same id state' found'
    exact ⟨state'', found'', key'.trans key, range'.trans range⟩
  case kept =>
    intro id notMem entry remembered holds
    obtain ⟨notMem, notMem'⟩ := not_or.mp (mt List.mem_append.mpr notMem)
    exact paints'.kept id notMem' entry remembered (paints.kept id notMem entry remembered holds)
  case laid =>
    refine (paints.laid.congr (fun item mem => ?_) fun item mem state good => good.grows grows).append
      laid ⟨paints.grows.mouseListeners.length_le, paints.grows.inputHandlers.length_le⟩
      ⟨grows.mouseListeners.length_le, grows.inputHandlers.length_le⟩
    exact paints'.others _ (left _ (Element.globalId_mem_of_outermost mem))

theorem paints_uncached {window after : Window U P} {place : View U P} {content : Element U P}
    {painted : Frame U P} (uncached : ¬(place.cached = true ∧ picking = false))
    (paints : Paints memory picking window content painted after) :
    Paints memory picking window (.view place content) painted after := by
  obtain ⟨ids, outermost, -, -⟩ := Element.view_uncached content uncached
  exact ⟨paints.next, paints.grows, paints.rendered, paints.inspectorPicking, ids ▸ paints.others,
    paints.same, ids ▸ paints.kept, outermost ▸ paints.laid⟩

variable [DecidableEq P.ElementId]

theorem Window.foldlM_taken {window : Window U P} {place : View U P} {calls : List (PaintCall U P)}
    {painted : Frame U P} (paints : (.withElementState (viewKey place.globalId) :: calls).foldlM
      Frame.paint window.nextFrame = .ok painted) :
    calls.foldlM Frame.paint (window.taken place).nextFrame =
      .ok { painted with elementStates := (window.taken place).nextFrame.elementStates } :=
  Frame.foldlM_paint_elementStates paints _

theorem paints_reused {window : Window U P} {place : View U P} {content : Element U P}
    {state old : ViewElementState U P} {painted : Frame U P} (separate : Separate memory)
    (caches : place.cached = true ∧ picking = false) (off : window.inspectorPicking = picking)
    (found : window.nextFrame.elementStates place.globalId = some state)
    (remembered : memory place.globalId = some (old, content)) (range : state.paintRange = old.paintRange)
    (holds : window.renderedFrame.HoldsPaint old.paintRange (content.paints false))
    (paints : ((Element.view place content).paints picking).foldlM Frame.paint window.nextFrame = .ok painted) :
    ∃ after, Window.paintView place none window = .ok after ∧
    Paints memory picking window (.view place content) painted after := by
  obtain ⟨ids, outermost, -, calls⟩ := Element.view_cached content caches
  rw [calls] at paints
  have again := Window.foldlM_taken paints
  rw [caches.2] at again
  have grown := Frame.grows_paint again
  have held := Frame.holdsPaint again
  have stored : (window.taken place).renderedFrame.HoldsPaint state.paintRange (content.paints false) := by
    rw [range]
    exact holds
  have reused := Window.reusePaint_eq stored again
  refine ⟨_, Window.paintView_reused ⟨caches.1, off.trans caches.2⟩ found reused, ?_⟩
  constructor
  case next => exact ⟨_, rfl⟩
  case grows => exact Frame.grows_paint paints
  case rendered => exact ⟨_, _, rfl⟩
  case inspectorPicking => rfl
  case others =>
    intro id notMem
    rw [ids] at notMem
    have other := List.ne_of_not_mem_cons notMem
    exact (Function.update_of_ne other _ _).trans (Function.update_of_ne other _ _)
  case same =>
    intro id state' found'
    by_cases same : id = place.globalId
    · subst same
      cases found.symm.trans found'
      exact ⟨_, Function.update_self _ _ _, rfl, rfl⟩
    · refine ⟨state', ?_, rfl, rfl⟩
      exact ((Function.update_of_ne same _ _).trans (Function.update_of_ne same _ _)).trans found'
  case kept =>
    intro id notMem entry known holds'
    rw [ids] at notMem
    have apart := separate _ _ _ _ (List.ne_of_not_mem_cons notMem).symm remembered known
    rw [range]
    exact ⟨holds'.1, (sliceRange_emptied apart.listeners).trans holds'.2,
      (sliceRange_emptied apart.handlers).trans holds'.3, holds'.4, holds'.5, holds'.6⟩
  case laid =>
    rw [outermost]
    refine .singleton (Function.update_self _ _ _) ?_ ⟨?_, ?_⟩ ⟨le_rfl, le_rfl⟩
    · exact held.withStates _ _
    · exact le_rfl
    · exact le_rfl

theorem paints_rendered {window after : Window U P} {place : View U P} {content : Element U P}
    {state : ViewElementState U P} {element : Prepainted U P} {painted : Frame U P}
    (caches : place.cached = true ∧ picking = false) (off : window.inspectorPicking = picking)
    (nodup : ((Element.view place content).globalIds picking).Nodup)
    (found : window.nextFrame.elementStates place.globalId = some state)
    (paints : ((Element.view place content).paints picking).foldlM Frame.paint window.nextFrame = .ok painted)
    (ran : Window.paint element { window.taken place with refreshing := true } = .ok after)
    (inside : Paints memory picking { window.taken place with refreshing := true } content
      { painted with elementStates := (window.taken place).nextFrame.elementStates } after) :
    ∃ after, Window.paintView place (some (Window.paint element)) window = .ok after ∧
      Paints memory picking window (.view place content) painted after := by
  obtain ⟨ids, outermost, -, calls⟩ := Element.view_cached content caches
  obtain ⟨notInside, -⟩ := List.nodup_cons.mp (ids ▸ nodup)
  rw [calls] at paints
  have again := Window.foldlM_taken paints
  rw [caches.2] at again
  have held := Frame.holdsPaint again
  obtain ⟨states, next⟩ := inside.next
  refine ⟨_, Window.paintView_rendered ⟨caches.1, off.trans caches.2⟩ found ran, ?_⟩
  constructor
  case next =>
    rw [Window.insertElementState, next]
    exact ⟨_, rfl⟩
  case grows => exact Frame.grows_paint paints
  case rendered => exact inside.rendered
  case inspectorPicking => exact inside.inspectorPicking
  case others =>
    intro id notMem
    rw [ids] at notMem
    have other := List.ne_of_not_mem_cons notMem
    exact (Function.update_of_ne other _ _).trans
      ((inside.others id (List.not_mem_of_not_mem_cons notMem)).trans (Function.update_of_ne other _ _))
  case same =>
    intro id state' found'
    by_cases same : id = place.globalId
    · subst same
      cases found.symm.trans found'
      exact ⟨_, Function.update_self _ _ _, rfl, rfl⟩
    · obtain ⟨state'', found'', key, range⟩ := inside.same id state' ((Function.update_of_ne same _ _).trans found')
      exact ⟨state'', (Function.update_of_ne same _ _).trans found'', key, range⟩
  case kept =>
    intro id notMem entry known holds
    rw [ids] at notMem
    exact inside.kept id (List.not_mem_of_not_mem_cons notMem) entry known holds
  case laid =>
    rw [outermost]
    refine .singleton (Function.update_self _ _ _) ?_ ⟨le_rfl, le_rfl⟩ ?_
    · rw [next]
      exact held.withStates _ _
    · rw [next]
      exact ⟨le_rfl, le_rfl⟩

theorem paint_paints (separate : Separate memory) (element : Element U P) {window : Window U P}
    {result : Prepainted U P} {painted : Frame U P}
    (decided : Decided memory picking window.nextFrame.elementStates element result)
    (nodup : (element.globalIds picking).Nodup) (off : window.inspectorPicking = picking)
    (holds : ∀ id ∈ element.globalIds picking, ∀ entry, memory id = some entry →
      window.renderedFrame.HoldsPaint entry.1.paintRange (entry.2.paints false))
    (paints : (element.paints picking).foldlM Frame.paint window.nextFrame = .ok painted) :
    ∃ after, Window.paint result window = .ok after ∧ Paints memory picking window element painted after := by
  induction element generalizing window result painted with
  | calls own =>
    cases decided
    replace paints : own.paints.foldlM Frame.paint window.nextFrame = .ok painted := paints
    have same : painted.elementStates = window.nextFrame.elementStates := by
      obtain ⟨scene, tabStops, -, -, rfl⟩ := (Frame.foldlM_paint_eq_ok ..).mp paints
      rfl
    refine ⟨{ window with nextFrame := painted }, by rw [Window.paint, paints]; rfl, ?_⟩
    refine ⟨⟨_, rfl⟩, Frame.grows_paint paints, ⟨_, _, rfl⟩, rfl, fun id _ => by rw [same],
      fun id state found => ⟨state, by rw [same, found], rfl, rfl⟩, fun _ _ _ _ holds => holds, .nil⟩
  | siblings first second ih ih' =>
    cases decided with
    | siblings decided decided' =>
      obtain ⟨nodup₁, nodup₂, apart⟩ := List.nodup_append.mp nodup
      have others : ∀ id ∈ second.globalIds picking, id ∉ first.globalIds picking :=
        fun id mem mem' => apart id mem' id mem rfl
      rw [Element.paints, List.foldlM_append] at paints
      obtain ⟨frame, paints, rest⟩ := bind_eq_ok.mp paints
      obtain ⟨between, ran, inside⟩ := ih decided nodup₁ off
        (fun id mem => holds id (List.mem_append_left _ mem)) paints
      obtain ⟨states, next⟩ := inside.next
      replace rest := Frame.foldlM_paint_elementStates rest states
      rw [← next] at rest
      obtain ⟨after, ran', inside'⟩ := @ih' between _ _
        (decided'.congr fun id mem => inside.others id (others id mem)) nodup₂
        (inside.inspectorPicking.trans off)
        (fun id mem entry known => inside.kept id (others id mem) entry known
          (holds id (List.mem_append_right _ mem) entry known)) rest
      have whole := inside.siblings inside' nodup
      refine ⟨after, by rw [Window.paint, ran, ok_bind, ran'], ?_⟩
      exact ⟨whole.next, whole.grows.withStates _ _, whole.rendered, whole.inspectorPicking,
        whole.others, whole.same, whole.kept,
        whole.laid.congr (fun _ _ => rfl) fun _ _ _ good => good.withStates _ _⟩
  | view place content ih =>
    by_cases caches : place.cached = true ∧ picking = false
    · obtain ⟨ids, -, -, calls⟩ := Element.view_cached content caches
      have member : place.globalId ∈ (Element.view place content).globalIds picking := ids ▸ List.mem_cons_self
      cases decided with
      | reused caches found remembered range =>
        exact paints_reused separate caches off found remembered range (holds _ member _ remembered) paints
      | rendered entered decided =>
        obtain ⟨state, found⟩ := Option.isSome_iff_exists.mp (entered caches)
        obtain ⟨notInside, nodup'⟩ := List.nodup_cons.mp (ids ▸ nodup)
        have again := paints
        rw [calls] at again
        obtain ⟨after, ran, inside⟩ := @ih { window.taken place with refreshing := true } _ _
          (decided.congr fun id mem =>
            Function.update_of_ne (fun same : id = place.globalId => notInside (same ▸ mem)) _ _)
          nodup' off (fun id mem => holds id (ids ▸ List.mem_cons_of_mem _ mem))
          (Window.foldlM_taken again)
        exact paints_rendered caches off nodup found paints ran inside
    · obtain ⟨ids, -, -, calls⟩ := Element.view_uncached content caches
      cases decided with
      | reused caches' => exact absurd caches' caches
      | rendered _ decided =>
        obtain ⟨after, ran, inside⟩ := ih decided (ids ▸ nodup) off (ids ▸ holds) (calls ▸ paints)
        refine ⟨after, ?_, paints_uncached caches inside⟩
        rw [Window.paint, Window.paintView, off, if_neg caches, unwrap_some, ok_bind, ran]

end Painting

/-! ## The input handler -/

theorem fillLast_takeLast {α : Type} (handlers : List α) (nonempty : handlers ≠ []) : ∃ handler slots,
    takeLast (handlers.map some) = (some handler, slots) ∧ fillLast handler slots = some (handlers.map some) := by
  induction handlers with
  | nil => exact absurd rfl nonempty
  | cons first rest ih =>
    cases rest with
    | nil => exact ⟨first, [none], rfl, rfl⟩
    | cons second rest =>
      obtain ⟨handler, slots, taken, filled⟩ := ih (List.cons_ne_nil _ _)
      refine ⟨handler, some first :: slots, ?_, ?_⟩
      · rw [List.map_cons, takeLast, taken]
      · rw [fillLast, filled]
        rfl

theorem putBack_takeLast {α : Type} (handlers : List α) :
    putBack (takeLast (handlers.map some)).1 (takeLast (handlers.map some)).2 = handlers.map some := by
  cases handlers with
  | nil => rfl
  | cons first rest =>
    obtain ⟨handler, slots, taken, filled⟩ := fillLast_takeLast (first :: rest) (List.cons_ne_nil _ _)
    rw [taken, putBack, filled]
    rfl

/-! ## Draws -/

section Draws
variable [DecidableEq P.ElementId]

theorem Frame.moveState_of_ne (states : ElementStates U P × ElementStates U P)
    {key : ElementStateKey P} {id : GlobalElementId P} (other : states.2 id = none ∨ viewKey id ≠ key) :
    (Frame.moveState states key).1 id = states.1 id ∧ (Frame.moveState states key).2 id = states.2 id := by
  obtain ⟨keyId, stateType⟩ := key
  cases stateType with
  | other typeId => exact ⟨rfl, rfl⟩
  | viewElementState =>
    cases found : states.2 keyId with
    | none => simp [moveState, found]
    | some state =>
      have apart : id ≠ keyId := by
        rintro rfl
        rcases other with absent | other
        · exact absurd (found.symm.trans absent) (Option.some_ne_none _)
        · exact other rfl
      simp [moveState, found, apart]

theorem Frame.foldl_moveState (keys : List (ElementStateKey P)) (states : ElementStates U P × ElementStates U P)
    {id : GlobalElementId P} (other : states.2 id = none ∨ viewKey id ∉ keys) :
    (keys.foldl Frame.moveState states).1 id = states.1 id := by
  induction keys generalizing states with
  | nil => rfl
  | cons key keys ih =>
    obtain ⟨same, same'⟩ := moveState_of_ne states (other.imp_right fun notMem => List.ne_of_not_mem_cons notMem)
    rw [List.foldl_cons, ih, same]
    rw [same']
    exact other.imp_right List.not_mem_of_not_mem_cons

namespace Draw

def globalIds (self : Draw U P) : List (GlobalElementId P) :=
  self.root.globalIds self.inspectorPicking

def outermost (self : Draw U P) : List (View U P × Element U P) :=
  self.root.outermost self.inspectorPicking

end Draw

/-- A view that may be reused has the content that it had in the previous draw, and is in no cached
view if it was in none. -/
structure Follows (previous draw : Draw U P) : Prop where
  unchanged : draw.refreshing = false → ∀ item ∈ draw.outermost, ∀ item' ∈ previous.outermost,
    item.1.globalId = item'.1.globalId → item.1.cacheKey = item'.1.cacheKey →
      item.1.entityId ∉ draw.dirtyViews → item.2 = item'.2
  stays : ∀ item ∈ draw.outermost, item.1.globalId ∈ previous.globalIds →
    ∃ item' ∈ previous.outermost, item'.1.globalId = item.1.globalId

def remember (window : Window U P) (draw : Draw U P) : Memory U P := fun id =>
  (valueOf id (draw.outermost.map fun item => (item.1.globalId, item.2))).bind fun content =>
    (window.renderedFrame.elementStates id).map fun state => (state, content)

variable [AddCommGroup U] [LinearOrder U]

structure Settled (window : Window U P) (draw : Draw U P) : Prop where
  next : window.nextFrame = {}
  separate : Separate (remember window draw)
  holds : ∀ id entry, remember window draw id = some entry → ({ window.renderedFrame with
      inputHandlers := putBack window.inputHandler window.renderedFrame.inputHandlers } :
      Frame U P).HoldsView entry.1 entry.2
  known : ∀ id state, window.renderedFrame.elementStates id = some state → id ∈ draw.globalIds
  remembered : ∀ item ∈ draw.outermost, ∃ state, remember window draw item.1.globalId = some (state, item.2) ∧
      window.renderedFrame.elementStates item.1.globalId = some state ∧
      state.cacheKey = item.1.cacheKey

theorem Settled.new : Settled ({} : Window U P) ⟨.calls ⟨[], [], by simp, by simp⟩, [], false, false⟩ where
  next := rfl
  separate id id' entry entry' _ found := by cases found
  holds id entry found := by cases found
  known id state found := by cases found
  remembered item mem := by cases mem

omit [DecidableEq P.ElementId] in
theorem painted_of_empty {calls : List (PrepaintCall P)} {calls' : List (PaintCall U P)} {painted : Frame U P}
    (paints : calls'.foldlM Frame.paint (calls.foldl Frame.prepaint {}) = .ok painted) :
    painted.elementStates = (fun _ => none) ∧ painted.inputHandlers = (calls'.filterMap PaintCall.handler).map some ∧
    painted.accessedElementStates = calls.filterMap PrepaintCall.key ++ calls'.filterMap PaintCall.key := by
  obtain ⟨scene, tabStops, -, -, rfl⟩ := (Frame.foldlM_paint_eq_ok ..).mp paints
  rw [Frame.foldl_prepaint]
  exact ⟨rfl, rfl, rfl⟩

theorem Settled.prepaintable {window : Window U P} {previous draw : Draw U P}
    (settled : Settled window previous) (follows : Follows previous draw) :
    Prepaintable (remember window previous) draw.inspectorPicking (window.begin draw) draw.root := by
  constructor
  · rfl
  · intro id _
    rw [Window.begin, settled.next]
  · intro id _ entry known
    exact settled.holds id entry known
  · intro item mem still state found sameKey clean
    obtain ⟨item', mem', sameId⟩ := follows.stays item mem (settled.known _ _ found)
    obtain ⟨state', remembered, found', sameKey'⟩ := settled.remembered item' mem'
    rw [sameId] at remembered found'
    cases found.symm.trans found'
    rw [remembered, follows.unchanged still item mem item' mem' sameId.symm (sameKey.symm.trans sameKey') clean]

omit [AddCommGroup U] [LinearOrder U] in
theorem mem_of_remember {window : Window U P} {draw : Draw U P} {id : GlobalElementId P}
    {entry : ViewElementState U P × Element U P} (found : remember window draw id = some entry) :
    ∃ item ∈ draw.outermost, item.1.globalId = id ∧ item.2 = entry.2 ∧
    window.renderedFrame.elementStates id = some entry.1 := by
  obtain ⟨content, known, found⟩ := Option.bind_eq_some_iff.mp found
  obtain ⟨state, at_, rfl⟩ := Option.map_eq_some_iff.mp found
  obtain ⟨item, mem, same⟩ := List.mem_map.mp (mem_of_valueOf known)
  cases same
  exact ⟨item, mem, rfl, rfl, at_⟩

omit [AddCommGroup U] [LinearOrder U] in
theorem remember_of_mem {window : Window U P} {draw : Draw U P} {item : View U P × Element U P}
    {state : ViewElementState U P} (nodup : draw.globalIds.Nodup) (mem : item ∈ draw.outermost)
    (found : window.renderedFrame.elementStates item.1.globalId = some state) :
    remember window draw item.1.globalId = some (state, item.2) := by
  have keys : ((draw.outermost.map fun item => (item.1.globalId, item.2)).map Prod.fst).Nodup := by
    rw [List.map_map]
    exact (Element.outermost_sublist _ _).nodup nodup
  rw [remember, valueOf_of_mem keys (List.mem_map.mpr ⟨item, mem, rfl⟩), Option.bind_some, found]
  rfl

section Finishing
variable {memory : Memory U P} {before prepainted after : Window U P} {draw : Draw U P}
  {root : Prepainted U P} {painted : Frame U P} {states : ElementStates U P}

theorem known_finish (paints : (draw.root.paints draw.inspectorPicking).foldlM Frame.paint
      ((draw.root.prepaints draw.inspectorPicking).foldl Frame.prepaint {}) = .ok painted)
    (began : before.nextFrame = {})
    (prepainting : Prepaints memory draw.inspectorPicking before draw.root root prepainted)
    (painting : Paints memory draw.inspectorPicking prepainted draw.root
      { painted with elementStates := states } after) {id : GlobalElementId P}
    (notMem : id ∉ draw.globalIds) : after.finish.renderedFrame.elementStates id = none := by
  obtain ⟨_, _, keys⟩ := painted_of_empty paints
  obtain ⟨states', next⟩ := painting.next
  have unaccessed : viewKey id ∉ after.nextFrame.accessedElementStates := by
    rw [next]
    change viewKey id ∉ painted.accessedElementStates
    rw [keys]
    intro mem
    rcases List.mem_append.mp mem with mem | mem
    · exact notMem (Element.mem_globalIds_of_prepaints mem)
    · exact notMem (Element.mem_globalIds_of_paints mem)
  calc after.finish.renderedFrame.elementStates id
      = after.nextFrame.elementStates id := Frame.foldl_moveState _ _ (.inr unaccessed)
    _ = prepainted.nextFrame.elementStates id := painting.others id notMem
    _ = before.nextFrame.elementStates id := (prepainting.others id notMem).1
    _ = none := by rw [began]

theorem entry_finish (prepainting : Prepaints memory draw.inspectorPicking before draw.root root prepainted)
    (painting : Paints memory draw.inspectorPicking prepainted draw.root
      { painted with elementStates := states } after) {item : View U P × Element U P}
    (mem : item ∈ draw.outermost) :
    ∃ state state', prepainted.nextFrame.elementStates item.1.globalId = some state ∧
      after.nextFrame.elementStates item.1.globalId = some state' ∧
      after.finish.renderedFrame.elementStates item.1.globalId = some state' ∧
      state'.cacheKey = item.1.cacheKey ∧ state'.prepaintRange = state.prepaintRange ∧
      prepainted.nextFrame.HoldsPrepaint state'.prepaintRange (item.2.prepaints false) ∧
      painted.HoldsPaint state'.paintRange (item.2.paints false) := by
  obtain ⟨state, found, ⟨sameKey, prepaints⟩, -⟩ := prepainting.laid.entry item mem
  obtain ⟨state', found', paints, -⟩ := painting.laid.entry item mem
  obtain ⟨state'', found'', key, range⟩ := painting.same _ _ found
  cases found'.symm.trans found''
  obtain ⟨_, _, rendered⟩ := painting.rendered
  have absent : after.renderedFrame.elementStates item.1.globalId = none := by
    rw [rendered]
    exact prepainting.taken item mem
  refine ⟨state, state', found, found', ?_, key.trans sameKey, range, range ▸ prepaints, ?_⟩
  · exact (Frame.foldl_moveState _ _ (.inl absent)).trans found'
  · exact paints.withStates _ _

theorem settled_finish (nodup : draw.globalIds.Nodup)
    (paints : (draw.root.paints draw.inspectorPicking).foldlM Frame.paint
      ((draw.root.prepaints draw.inspectorPicking).foldl Frame.prepaint {}) = .ok painted)
    (began : before.nextFrame = {})
    (prepainting : Prepaints memory draw.inspectorPicking before draw.root root prepainted)
    (painting : Paints memory draw.inspectorPicking prepainted draw.root
      { painted with elementStates := states } after) : Settled after.finish draw := by
  obtain ⟨_, handlers, _⟩ := painted_of_empty paints
  obtain ⟨states', next⟩ := painting.next
  constructor
  case next => rfl
  case separate =>
    intro id id' entry entry' other found found'
    obtain ⟨item, mem, rfl, -, at_⟩ := mem_of_remember found
    obtain ⟨item', mem', rfl, -, at_'⟩ := mem_of_remember found'
    obtain ⟨old, state, prepainted, painted, final, -, range, -⟩ := entry_finish prepainting painting mem
    obtain ⟨old', state', prepainted', painted', final', -, range', -⟩ := entry_finish prepainting painting mem'
    cases at_.symm.trans final
    cases at_'.symm.trans final'
    have tooltips := prepainting.laid.apart item mem item' mem' other _ _ prepainted prepainted'
    have slots := painting.laid.apart item mem item' mem' other _ _ painted painted'
    rw [← range, ← range'] at tooltips
    exact ⟨tooltips, slots.imp And.left And.left, slots.imp And.right And.right⟩
  case holds =>
    intro id entry found
    obtain ⟨item, mem, rfl, same, at_⟩ := mem_of_remember found
    obtain ⟨old, state, -, -, final, -, -, prepaints, paints⟩ := entry_finish prepainting painting mem
    cases at_.symm.trans final
    replace prepaints := prepaints.grows painting.grows
    rw [← same]
    have slots : putBack after.finish.inputHandler after.finish.renderedFrame.inputHandlers =
        painted.inputHandlers := by
      have same : after.nextFrame.inputHandlers = painted.inputHandlers := by rw [next]
      change putBack (takeLast after.nextFrame.inputHandlers).1 (takeLast after.nextFrame.inputHandlers).2 = _
      rw [same, handlers, putBack_takeLast]
    have whole : ({ after.finish.renderedFrame with
        inputHandlers := putBack after.finish.inputHandler after.finish.renderedFrame.inputHandlers } :
        Frame U P) = { painted with
          elementStates := after.finish.renderedFrame.elementStates
          scene := painted.scene.finish } := by
      rw [slots]
      simp [Window.finish, Frame.finish, next]
    rw [whole]
    exact ⟨⟨prepaints.1, prepaints.2, prepaints.3⟩, ⟨paints.1, paints.2, paints.3, paints.4, paints.5, paints.6⟩⟩
  case known =>
    intro id state found
    by_contra notMem
    cases found.symm.trans (known_finish paints began prepainting painting notMem)
  case remembered =>
    intro item mem
    obtain ⟨old, state, -, -, final, sameKey, -⟩ := entry_finish prepainting painting mem
    exact ⟨state, remember_of_mem nodup mem final, final, sameKey⟩

end Finishing

variable [DecidableEq P.TextStyle]

theorem draw_spec {window : Window U P} {previous draw : Draw U P} {shown : Shown U P}
    (settled : Settled window previous) (follows : Follows previous draw)
    (nodup : draw.globalIds.Nodup) (plain : draw.plain = .ok shown) :
    ∃ after, window.draw draw = .ok after ∧ after.shown = shown ∧ Settled after draw := by
  obtain ⟨painted, paints, rest⟩ := bind_eq_ok.mp plain
  have prepaintable := settled.prepaintable follows
  obtain ⟨root, prepainted, ran, prepaints⟩ := prepaint_prepaints settled.separate draw.root nodup prepaintable
  obtain ⟨states, next⟩ := prepaints.next
  have began : (window.begin draw).nextFrame = {} := settled.next
  rw [began] at next
  have again := Frame.foldlM_paint_elementStates paints states
  rw [← next] at again
  obtain ⟨after, ran', inside⟩ := paint_paints settled.separate draw.root prepaints.decided nodup
    prepaints.inspectorPicking (fun id mem entry known => by
      obtain ⟨_, _, rendered⟩ := prepaints.rendered
      obtain ⟨-, holds⟩ := prepaintable.holds id mem entry known
      rw [rendered]
      exact holds.withStates _ _) again
  refine ⟨after.finish, ?_, ?_, ?_⟩
  · rw [Window.draw, ran, ok_bind]
    simp only [ran', ok_bind]
    rfl
  · obtain ⟨states', next'⟩ := inside.next
    cases rest
    rw [Window.shown, Window.finish, next', ← (painted_of_empty paints).1]
    rfl
  · exact settled_finish nodup paints began prepaints inside

theorem draws_of_settled {window : Window U P} {previous : Draw U P} (settled : Settled window previous)
    {draws : List (Draw U P)} {shown : List (Shown U P)} (follows : (previous :: draws).IsChain Follows)
    (nodup : ∀ draw ∈ draws, draw.globalIds.Nodup) (plain : draws.mapM Draw.plain = .ok shown) : ∃ windows,
    window.draws draws = .ok windows ∧ windows.map Window.shown = shown := by
  induction draws generalizing window previous shown with
  | nil =>
    cases plain
    exact ⟨[], rfl, rfl⟩
  | cons draw draws ih =>
    obtain ⟨first, rest⟩ := List.isChain_cons_cons.mp follows
    rw [List.mapM_cons] at plain
    obtain ⟨shows, plainly, more⟩ := bind_eq_ok.mp plain
    obtain ⟨others, plains, same⟩ := bind_eq_ok.mp more
    cases same
    obtain ⟨after, drawn, showsIt, settled⟩ := draw_spec settled first (nodup draw List.mem_cons_self) plainly
    obtain ⟨windows, ran, showsThem⟩ := ih settled rest (fun draw mem => nodup draw (List.mem_cons_of_mem _ mem)) plains
    refine ⟨after :: windows, ?_, ?_⟩
    · rw [Window.draws, drawn, ok_bind, ran]
      rfl
    · rw [List.map_cons, showsIt, showsThem]

/-- A window shows in each draw what the elements of the draw call, whatever it reuses for it. -/
theorem draws_show {draws : List (Draw U P)} {shown : List (Shown U P)} (follows : draws.IsChain Follows)
    (nodup : ∀ draw ∈ draws, draw.globalIds.Nodup) (plain : draws.mapM Draw.plain = .ok shown) : ∃ windows,
    ({} : Window U P).draws draws = .ok windows ∧ windows.map Window.shown = shown := by
  refine draws_of_settled .new (List.isChain_cons.mpr ⟨fun draw _ => ?_, follows⟩) nodup plain
  constructor
  · intro _ item _ item' mem
    cases mem
  · intro item _ mem
    cases mem

end Draws

abbrev Numbers : Payload := ⟨Nat, Nat, Nat, Nat, Nat, Nat, Nat, Nat⟩

def listening : Element ℤ Numbers :=
  .view ⟨[1], 7, true, ⟨⟨⟨0, 0⟩, ⟨8, 8⟩⟩, ⟨⟨0, 0⟩, ⟨8, 8⟩⟩, 0⟩⟩ (.calls {
    prepaints := [.insertHitbox 4]
    paints := [.onMouseEvent 5, .handleInput 6, .paint (.startLayer ⟨⟨0, 0⟩, ⟨8, 8⟩⟩), .paint .endLayer]
    prepaints_other := by simp [PrepaintCall.key]
    paints_other := by simp [PaintCall.key] })

theorem draws_show_listening : ∃ first second : Window ℤ Numbers,
    ({} : Window ℤ Numbers).draws [{ root := listening }, { root := listening }] = .ok [first, second] ∧
    second.shown = first.shown ∧ second.shown.frame.mouseListeners = [some 5] ∧ second.shown.inputHandler = some 6 := by
  obtain ⟨shows, plain, listeners, handler⟩ : ∃ shows, ({ root := listening } : Draw ℤ Numbers).plain = .ok shows ∧
        shows.frame.mouseListeners = [some 5] ∧ shows.inputHandler = some 6 := ⟨_, rfl, rfl, rfl⟩
  have follows : Follows ({ root := listening } : Draw ℤ Numbers) { root := listening } := by
    refine ⟨fun _ item mem item' mem' _ _ _ => ?_, fun item mem _ => ⟨item, mem, rfl⟩⟩
    rw [List.mem_singleton.mp mem, List.mem_singleton.mp mem']
  have plains : [{ root := listening }, { root := listening }].mapM Draw.plain = .ok [shows, shows] := by
    rw [List.mapM_cons, plain, ok_bind, List.mapM_cons, plain]
    rfl
  obtain ⟨windows, ran, shown⟩ := draws_show (List.isChain_cons_cons.mpr ⟨follows, List.isChain_singleton _⟩)
    (by simp [Draw.globalIds, listening, Element.globalIds]) plains
  obtain ⟨first, rest, rfl, showsFirst, shown⟩ := List.map_eq_cons_iff.mp shown
  obtain ⟨second, rest, rfl, showsSecond, shown⟩ := List.map_eq_cons_iff.mp shown
  obtain rfl := List.map_eq_nil_iff.mp shown
  refine ⟨first, second, ran, showsSecond.trans showsFirst.symm, ?_, ?_⟩
  · rw [showsSecond, listeners]
  · rw [showsSecond, handler]

end Pinrail.Views

import Pinrail.Focus.TabOrder

/-!
# The cycle of tab stops

From every sequence of insertions and groups, `next` and `prev` go around the tab stops in opposite
directions, and lead from any other handle to the nearest tab stop.
-/

namespace Pinrail
open Lib SumTree Cursor TabStopNode

namespace TabStopMap

variable {map : TabStopMap}

/-! ## One walk -/

/-- A walk over the nodes of `pairs`, in that order. -/
structure Walk (map : TabStopMap) (edge : Except Panic (Option TabStopNode))
    (inner : TabStopNode → Except Panic (Option TabStopNode))
    (pairs : List (TabStopNode × FocusHandle)) : Prop where
  edge : edge = .ok (pairs.map Prod.fst).head?
  inner : ∀ before node after, pairs.map Prod.fst = before ++ node :: after →
    inner node = .ok (after.find? TabStopNode.tabStop)
  tabStop : ∀ node handle, (node, handle) ∈ pairs → node.tabStop = handle.tabStop
  handle : ∀ node handle, (node, handle) ∈ pairs → map.focusHandleForOrder node = .ok (some handle)
  byId : ∀ node handle, (node, handle) ∈ pairs → map.byId handle.id = some node

variable {edge : Except Panic (Option TabStopNode)}
  {inner : TabStopNode → Except Panic (Option TabStopNode)}
  {pairs : List (TabStopNode × FocusHandle)}

theorem Walk.handleFor_eq (walk : Walk map edge inner pairs)
    (some' : List (TabStopNode × FocusHandle)) (within : some' ⊆ pairs) :
    map.handleFor ((some'.map Prod.fst).find? TabStopNode.tabStop) =
      .ok ((some'.map Prod.snd).find? FocusHandle.tabStop) := by
  induction some' with
  | nil => rfl
  | cons pair rest ih =>
    obtain ⟨node, handle⟩ := pair
    have member := within List.mem_cons_self
    rw [List.map_cons, List.map_cons, List.find?_cons, List.find?_cons, ← walk.tabStop node handle member]
    cases node.tabStop with
    | true => exact walk.handle node handle member
    | false => exact ih fun pair later => within (List.mem_cons_of_mem _ later)

theorem Walk.enter_eq (walk : Walk map edge inner pairs) :
    map.enter (pairs.map Prod.fst).head? inner = .ok ((pairs.map Prod.snd).find? FocusHandle.tabStop) := by
  cases pairs with
  | nil => rfl
  | cons pair rest =>
    obtain ⟨node, handle⟩ := pair
    have member : (node, handle) ∈ (node, handle) :: rest := List.mem_cons_self
    rw [List.map_cons, List.map_cons, List.head?_cons, List.find?_cons, enter, ← walk.tabStop node handle member]
    cases node.tabStop with
    | true => exact walk.handle node handle member
    | false =>
      have onwards := walk.inner [] node (rest.map Prod.fst) rfl
      simp only [onwards, ok_bind]
      exact walk.handleFor_eq rest (List.subset_cons_self _ _)

theorem Walk.travel_none (walk : Walk map edge inner pairs) :
    map.travel edge inner none = .ok ((pairs.map Prod.snd).find? FocusHandle.tabStop) := by
  rw [travel, Option.bind_none]
  simp only [walk.edge, ok_bind]
  exact walk.enter_eq

theorem Walk.travel_some (walk : Walk map edge inner pairs) {before after : List FocusHandle}
    {handle : FocusHandle} (split : pairs.map Prod.snd = before ++ handle :: after) :
    map.travel edge inner (some handle.id) = .ok ((after ++ pairs.map Prod.snd).find? FocusHandle.tabStop) := by
  obtain ⟨front, back, rfl, -, backEq⟩ := List.map_eq_append_iff.mp split
  obtain ⟨⟨node, handle'⟩, rest, rfl, rfl, rfl⟩ := List.map_eq_cons_iff.mp backEq
  have member : (node, handle') ∈ front ++ (node, handle') :: rest := by simp
  have onwards := walk.inner (front.map Prod.fst) node (rest.map Prod.fst) (by simp)
  have later := walk.handleFor_eq rest fun pair within => by simp [within]
  rw [travel, Option.bind_some, tabNodeForFocusId, walk.byId node handle' member]
  simp only [onwards, ok_bind]
  rw [List.find?_append]
  cases found : (rest.map Prod.fst).find? TabStopNode.tabStop with
  | none =>
    rw [found] at later
    injection later with nothing
    rw [← nothing, Option.none_or]
    simp only [walk.edge, ok_bind]
    exact walk.enter_eq
  | some item =>
    rw [found] at later
    change map.focusHandleForOrder item = _ at later
    have there : ((rest.map Prod.snd).find? FocusHandle.tabStop).isSome = true := by
      rw [List.find?_isSome]
      obtain ⟨pair, within, rfl⟩ := List.mem_map.mp (List.mem_of_find?_eq_some found)
      refine ⟨pair.2, List.mem_map_of_mem within, ?_⟩
      rw [← walk.tabStop pair.1 pair.2 (by simp [within])]
      exact List.find?_some found
    obtain ⟨handle, found'⟩ := Option.isSome_iff_exists.mp there
    rw [found'] at later ⊢
    exact later

/-! ## The two walks of a map -/

def sorted (nodes : List TabStopOperation) : List (TabStopNode × FocusHandle) :=
  (placed [] 0 nodes).insertionSort fun a b => a.1.rank ≤ b.1.rank

theorem tabOrder_eq (nodes : List TabStopOperation) : tabOrder nodes = (sorted nodes).map Prod.snd := rfl

variable {nodes : List TabStopOperation}

theorem mem_sorted {pair : TabStopNode × FocusHandle} : pair ∈ sorted nodes ↔ pair ∈ placed [] 0 nodes :=
  (List.perm_insertionSort _ _).mem_iff

theorem Ordered.toList_eq (ordered : Ordered map nodes) : map.order.toList = (sorted nodes).map Prod.fst := by
  have apart : (map.order.toList.map rank).Nodup := by
    rw [List.Nodup, List.pairwise_map]
    exact ordered.ascending.imp fun less => less.ne
  have weakly : map.order.toList.Pairwise fun a b => rank a ≤ rank b := ordered.ascending.imp fun less => less.le
  refine List.Perm.eq_of_pairwise ?_ weakly ?_ ?_
  · intro a b aMember bMember le ge
    have member : b ∈ map.order.toList := by
      rw [ordered.items.mem_iff]
      obtain ⟨pair, within, rfl⟩ := List.mem_map.mp bMember
      exact List.mem_map_of_mem (mem_sorted.mp within)
    exact List.inj_on_of_nodup_map apart aMember member (le_antisymm le ge)
  · rw [List.pairwise_map]
    exact List.pairwise_insertionSort _ _
  · exact ordered.items.trans ((List.perm_insertionSort _ _).map _).symm

theorem Holds.focusHandleForOrder_eq (holds : Holds map nodes) {node : TabStopNode} {handle : FocusHandle}
    (member : (node, handle) ∈ placed [] 0 nodes) : map.focusHandleForOrder node = .ok (some handle) := by
  obtain ⟨-, -, found⟩ := placed_spec member
  rw [Nat.sub_zero] at found
  rw [focusHandleForOrder, holds.history, index_of_getElem? found, ok_bind]
  rfl

variable (holds : Holds map nodes) (shallow : Shallow map.order)
include holds shallow

theorem Holds.forward : Walk map map.order.first map.nextInner (sorted nodes) where
  edge := by rw [first_spec holds.sturdy.wellFormed, holds.toList_eq]
  inner before node after split :=
    nextInner_spec holds.sturdy.wellFormed shallow holds.ascending (holds.toList_eq.trans split)
  tabStop node handle member := (placed_spec (mem_sorted.mp member)).1
  handle node handle member := holds.focusHandleForOrder_eq (mem_sorted.mp member)
  byId node handle member := holds.byId node handle (mem_sorted.mp member)

theorem Holds.backward : Walk map map.order.last map.prevInner (sorted nodes).reverse where
  edge := by
    rw [last_spec holds.sturdy.wellFormed, holds.toList_eq, List.map_reverse, List.head?_reverse]
  inner before node after split := by
    have split' : map.order.toList = after.reverse ++ node :: before.reverse := by
      rw [holds.toList_eq, ← List.reverse_reverse ((sorted nodes).map Prod.fst), ← List.map_reverse, split]
      simp
    have inner := prevInner_spec holds.sturdy.wellFormed shallow holds.ascending split'
    rwa [List.reverse_reverse] at inner
  tabStop node handle member := (placed_spec (mem_sorted.mp (List.mem_reverse.mp member))).1
  handle node handle member := holds.focusHandleForOrder_eq (mem_sorted.mp (List.mem_reverse.mp member))
  byId node handle member := holds.byId node handle (mem_sorted.mp (List.mem_reverse.mp member))

theorem Holds.next_none : map.next none = .ok ((tabOrder nodes).find? FocusHandle.tabStop) :=
  (holds.forward shallow).travel_none

variable {before after : List FocusHandle} {handle : FocusHandle}
  (split : tabOrder nodes = before ++ handle :: after)
include split

theorem Holds.next_some : map.next (some handle.id) = .ok ((after ++ tabOrder nodes).find? FocusHandle.tabStop) :=
  (holds.forward shallow).travel_some split

theorem Holds.prev_some :
    map.prev (some handle.id) = .ok ((before.reverse ++ (tabOrder nodes).reverse).find? FocusHandle.tabStop) := by
  have reversed : (sorted nodes).reverse.map Prod.snd = after.reverse ++ handle :: before.reverse := by
    rw [List.map_reverse, ← tabOrder_eq, split]
    simp
  have walked := (holds.backward shallow).travel_some reversed
  rwa [List.map_reverse, ← tabOrder_eq] at walked

end TabStopMap

/-! ## Going around -/

def stops (order : List FocusHandle) : List FocusHandle := order.filter FocusHandle.tabStop

namespace TabStopMap

/-- Where the focus is after `next` was applied `n` times, starting without focus. -/
def visit (map : TabStopMap) : Nat → Except Panic (Option FocusHandle)
  | 0 => .ok none
  | n + 1 => do
    let focused ← map.visit n
    map.next (focused.map FocusHandle.id)

/-- What `next` and `prev` do on the handles `order`. -/
structure Traverses (map : TabStopMap) (order : List FocusHandle) : Prop where
  visit : ∀ n, map.visit (n + 1) = .ok (stops order)[n % (stops order).length]?
  prev_next : ∀ handle ∈ stops order, ∃ next ∈ stops order,
    map.next (some handle.id) = .ok (some next) ∧ map.prev (some next.id) = .ok (some handle)
  next_prev : ∀ handle ∈ stops order, ∃ prev ∈ stops order,
    map.prev (some handle.id) = .ok (some prev) ∧ map.next (some prev.id) = .ok (some handle)
  nearest_next : ∀ before handle after, order = before ++ handle :: after → handle.tabStop = false →
    map.next (some handle.id) = .ok ((after ++ before).find? FocusHandle.tabStop)
  nearest_prev : ∀ before handle after, order = before ++ handle :: after → handle.tabStop = false →
    map.prev (some handle.id) = .ok ((before.reverse ++ after.reverse).find? FocusHandle.tabStop)

theorem split_of_stop {order : List FocusHandle} {i : Nat} {handle : FocusHandle}
    (found : (stops order)[i]? = some handle) : ∃ before after, order = before ++ handle :: after ∧
    stops before = (stops order).take i ∧ stops after = (stops order).drop (i + 1) := by
  have parts : stops order = (stops order).take i ++ handle :: (stops order).drop (i + 1) := by
    obtain ⟨low, same⟩ := List.getElem?_eq_some_iff.mp found
    rw [← same, List.getElem_cons_drop, List.take_append_drop]
  obtain ⟨front, back, orderEq, frontEq, backEq⟩ := List.filter_eq_append_iff.mp parts
  obtain ⟨skipped, after, rfl, rejected, -, afterEq⟩ := List.filter_eq_cons_iff.mp backEq
  refine ⟨front ++ skipped, after, by simp [orderEq], ?_, afterEq⟩
  rw [stops, List.filter_append, frontEq, List.filter_eq_nil_iff.mpr rejected, List.append_nil]

theorem head?_drop_append {α : Type} {ring : List α} {i : Nat} (low : i < ring.length) :
    (ring.drop (i + 1) ++ ring).head? = ring[(i + 1) % ring.length]? := by
  rw [List.head?_append, List.head?_drop, List.head?_eq_getElem?]
  by_cases last : i + 1 = ring.length
  · rw [last, Nat.mod_self, List.getElem?_eq_none (Nat.le_refl _), Option.none_or]
  · rw [Nat.mod_eq_of_lt (by omega), List.getElem?_eq_getElem (by omega), Option.some_or]

theorem head?_take_append {α : Type} {ring : List α} {i : Nat} (low : i < ring.length) :
    ((ring.take i).reverse ++ ring.reverse).head? = ring[(i + ring.length - 1) % ring.length]? := by
  rw [List.head?_append, List.head?_reverse, List.head?_reverse, List.getLast?_eq_getElem?,
    List.getLast?_eq_getElem?, List.length_take, Nat.min_eq_left low.le]
  cases i with
  | zero =>
    rw [List.take_zero, List.getElem?_nil, Option.none_or, Nat.zero_add, Nat.mod_eq_of_lt (by omega)]
  | succ i =>
    rw [List.getElem?_take_of_lt (by omega), Nat.add_sub_cancel,
      show i + 1 + ring.length - 1 = i + ring.length by omega, Nat.add_mod_right,
      Nat.mod_eq_of_lt (by omega), List.getElem?_eq_getElem (by omega), Option.some_or]

theorem find?_append_eq (left right : List FocusHandle) :
    (left ++ right).find? FocusHandle.tabStop = (stops left ++ stops right).head? := by
  rw [stops, stops, ← List.filter_append, List.head?_filter]

theorem stops_reverse (order : List FocusHandle) : stops order.reverse = (stops order).reverse := List.filter_reverse

section Stops

variable {map : TabStopMap} {nodes : List TabStopOperation} (holds : Holds map nodes)
  (shallow : Shallow map.order) {i : Nat} {handle : FocusHandle}
  (found : (stops (tabOrder nodes))[i]? = some handle)
include holds shallow found

theorem Holds.next_stop : map.next (some handle.id) =
    .ok (stops (tabOrder nodes))[(i + 1) % (stops (tabOrder nodes)).length]? := by
  obtain ⟨before, after, split, -, later⟩ := split_of_stop found
  obtain ⟨low, -⟩ := List.getElem?_eq_some_iff.mp found
  rw [holds.next_some shallow split, find?_append_eq, later, head?_drop_append low]

theorem Holds.prev_stop : map.prev (some handle.id) =
    .ok (stops (tabOrder nodes))[(i + (stops (tabOrder nodes)).length - 1) % (stops (tabOrder nodes)).length]? := by
  obtain ⟨before, after, split, earlier, -⟩ := split_of_stop found
  obtain ⟨low, -⟩ := List.getElem?_eq_some_iff.mp found
  rw [holds.prev_some shallow split, find?_append_eq, stops_reverse, stops_reverse, earlier, head?_take_append low]

end Stops

variable {map : TabStopMap} {nodes : List TabStopOperation}

theorem Holds.visit_eq (holds : Holds map nodes) (shallow : Shallow map.order) (n : Nat) :
    map.visit (n + 1) = .ok (stops (tabOrder nodes))[n % (stops (tabOrder nodes)).length]? := by
  have first : map.next none = .ok (stops (tabOrder nodes)).head? := by
    rw [holds.next_none shallow, stops, List.head?_filter]
  induction n with
  | zero =>
    rw [Nat.zero_mod, ← List.head?_eq_getElem?]
    exact first
  | succ n ih =>
    rw [visit, ih, ok_bind]
    cases found : (stops (tabOrder nodes))[n % (stops (tabOrder nodes)).length]? with
    | some handle =>
      rw [Option.map_some, holds.next_stop shallow found, Nat.mod_add_mod]
    | none =>
      -- There is no tab stop at all.
      have none : stops (tabOrder nodes) = [] := by
        by_contra some
        have low := Nat.mod_lt n (List.length_pos_iff.mpr some)
        rw [List.getElem?_eq_none_iff] at found
        omega
      rw [Option.map_none, first, none]
      rfl

theorem Holds.traverses (holds : Holds map nodes) (shallow : Shallow map.order) : Traverses map (tabOrder nodes) where
  visit := holds.visit_eq shallow
  prev_next handle member := by
    obtain ⟨i, found⟩ := List.mem_iff_getElem?.mp member
    obtain ⟨low, -⟩ := List.getElem?_eq_some_iff.mp found
    have within := Nat.mod_lt (i + 1) (Nat.zero_lt_of_lt low)
    have next := List.getElem?_eq_getElem within
    refine ⟨_, List.getElem_mem within, by rw [holds.next_stop shallow found, next], ?_⟩
    rw [holds.prev_stop shallow next, ← found]
    congr 1
    by_cases last : i + 1 = (stops (tabOrder nodes)).length
    · rw [← last, Nat.mod_self, Nat.zero_add, Nat.add_sub_cancel, Nat.mod_eq_of_lt (Nat.lt_succ_self i)]
    · rw [Nat.mod_eq_of_lt (show i + 1 < (stops (tabOrder nodes)).length by omega),
        show i + 1 + (stops (tabOrder nodes)).length - 1 = i + (stops (tabOrder nodes)).length by
          omega, Nat.add_mod_right, Nat.mod_eq_of_lt low]
  next_prev handle member := by
    obtain ⟨i, found⟩ := List.mem_iff_getElem?.mp member
    obtain ⟨low, -⟩ := List.getElem?_eq_some_iff.mp found
    have within := Nat.mod_lt (i + (stops (tabOrder nodes)).length - 1) (Nat.zero_lt_of_lt low)
    have prev := List.getElem?_eq_getElem within
    refine ⟨_, List.getElem_mem within, by rw [holds.prev_stop shallow found, prev], ?_⟩
    rw [holds.next_stop shallow prev, ← found, Nat.mod_add_mod,
      show i + (stops (tabOrder nodes)).length - 1 + 1 = i + (stops (tabOrder nodes)).length by
        omega, Nat.add_mod_right, Nat.mod_eq_of_lt low]
  nearest_next before handle after split skipped := by
    rw [holds.next_some shallow split, split, find?_append_eq, find?_append_eq]
    simp only [stops, List.filter_append, List.filter_cons, skipped]
    cases List.filter FocusHandle.tabStop after <;> simp
  nearest_prev before handle after split skipped := by
    rw [holds.prev_some shallow split, split, find?_append_eq, find?_append_eq]
    simp only [stops, List.reverse_append, List.reverse_cons, List.filter_append, List.filter_cons,
      List.filter_nil, skipped]
    cases List.filter FocusHandle.tabStop before.reverse <;> simp

/-- Every sequence of insertions and groups builds a map whose `next` goes around the tab stops in
the order of their paths, with `prev` going the other way. -/
theorem replay_traverses (nodes : List TabStopOperation) (live : Live nodes) : ∃ map,
    TabStopMap.default.replay nodes = .ok map ∧ Traverses map (tabOrder nodes) ∧ (stops (tabOrder nodes)).Nodup ∧
    ∀ handle, handle ∈ stops (tabOrder nodes) ↔ .insert handle ∈ nodes ∧ handle.tabStop = true := by
  obtain ⟨map, replayed, holds⟩ := Holds.default.replay nodes live
  have handles : (tabOrder nodes).Perm (nodes.filterMap TabStopOperation.focusHandle) := by
    rw [← handles_placed [] 0]
    exact (List.perm_insertionSort _ _).map _
  refine ⟨map, replayed, holds.traverses (holds.shallow live), ?_, fun handle => ?_⟩
  · exact (handles.nodup_iff.mpr live.of_map).filter _
  · rw [stops, List.mem_filter, handles.mem_iff, List.mem_filterMap]
    refine and_congr_left fun _ => ⟨?_, fun member => ⟨_, member, rfl⟩⟩
    rintro ⟨operation, member, same⟩
    cases operation with
    | insert other =>
      cases same
      exact member
    | group tabIndex => cases same
    | groupEnd => cases same

def grouped : List TabStopOperation :=
  [.group 1, .insert ⟨⟨0, 1⟩, 0, true⟩, .groupEnd, .insert ⟨⟨1, 1⟩, 0, true⟩, .insert ⟨⟨2, 1⟩, 0, false⟩]

theorem replay_traverses_grouped : ∃ map, TabStopMap.default.replay grouped = .ok map ∧
    Traverses map [⟨⟨1, 1⟩, 0, true⟩, ⟨⟨2, 1⟩, 0, false⟩, ⟨⟨0, 1⟩, 0, true⟩] := by
  have live : Live grouped := by
    unfold Live
    decide
  have order : tabOrder grouped = [⟨⟨1, 1⟩, 0, true⟩, ⟨⟨2, 1⟩, 0, false⟩, ⟨⟨0, 1⟩, 0, true⟩] := by decide
  obtain ⟨map, replayed, traverses, -⟩ := replay_traverses grouped live
  rw [order] at traverses
  exact ⟨map, replayed, traverses⟩

end TabStopMap
end Pinrail

import Mathlib.Data.Fintype.Card
import Pinrail.Focus.TabStop

/-!
# Walking the tab stops

`next` and `prev` walk the handles of a frame in the order of their paths, skip what is not a tab
stop and go on at the other end.
-/

namespace Pinrail
open Lib SumTree Cursor

namespace TabStopNode

/-! ## Nodes as positions -/

theorem passes_left (node position : TabStopNode) :
    (SeekTarget.ofOrd node).passes .left position = decide (position.rank < node.rank) := by
  have gt : cmp node.rank position.rank = .gt ↔ position.rank < node.rank := cmp_eq_gt_iff _ _
  rw [SeekTarget.passes, SeekTarget.ofOrd]
  change (cmp node.rank position.rank == .gt || _) = _
  rw [show (Bias.left == Bias.right) = false from rfl, Bool.and_false, Bool.or_false,
    Bool.eq_iff_iff, beq_iff_eq, gt, decide_eq_true_iff]

theorem rank_addSummary (position node : TabStopNode) :
    (Dimension.addSummary position (Item.summary node : TabStopOrderNodeSummary)).rank = node.rank := rfl

theorem rank_measure (before : List TabStopNode) (node : TabStopNode) :
    (measure (before ++ [node]) : TabStopNode).rank = node.rank := by
  rw [← measure_concat]
  rfl

theorem zero_rank_le (node : TabStopNode) : (TabStopNode.default).rank ≤ node.rank := by
  rw [Prod.Lex.le_iff]
  rcases List.eq_nil_or_concat node.path with empty | ⟨init, last, concat⟩
  · exact .inr ⟨empty.symm, Nat.zero_le _⟩
  · refine .inl ?_
    change [] < node.path
    rw [concat]
    cases init with
    | nil => exact List.Lex.nil
    | cons first init => exact List.Lex.nil

variable {nodes : List TabStopNode} (ascending : Ascending rank nodes)
include ascending

theorem monotone_node (node : TabStopNode) : Monotone (SeekTarget.ofOrd node) .left nodes := by
  intro before between within pass
  rw [passes_left, decide_eq_true_iff] at pass ⊢
  rcases List.eq_nil_or_concat' between with rfl | ⟨init, last, rfl⟩
  · rwa [List.append_nil] at pass
  · rw [← List.append_assoc, rank_measure] at pass
    rcases List.eq_nil_or_concat' before with rfl | ⟨init', last', rfl⟩
    · exact (zero_rank_le last).trans_lt pass
    · rw [rank_measure]
      have ordered := ascending.sublist within.sublist
      exact ((List.pairwise_append.mp ordered).2.2 last' (by simp) last (by simp)).trans pass

theorem passed_node (node position : TabStopNode) :
    passed (SeekTarget.ofOrd node) .left position nodes = below rank node.rank nodes := by
  rw [← ascending.takeWhile_lt]
  clear ascending
  induction nodes generalizing position with
  | nil => rfl
  | cons first nodes ih =>
    rw [passed, passes_left, rank_addSummary, ih, List.takeWhile_cons]

omit ascending in
theorem isGE_node (node : TabStopNode) :
    ((SeekTarget.ofOrd node).cmp (Dimension.zero TabStopOrderNodeSummary)).isGE = true := by
  have le := zero_rank_le node
  change (cmp node.rank TabStopNode.default.rank).isGE = true
  rcases le.lt_or_eq with less | same
  · rw [cmp_eq_gt_iff _ _ |>.mpr less]
    rfl
  · rw [cmp_eq_eq_iff _ _ |>.mpr same.symm]
    rfl

omit ascending in
theorem drop_below_fresh {node : TabStopNode} (ascending : Ascending rank nodes)
    (fresh : ∀ other ∈ nodes, other.rank ≠ node.rank) :
    nodes.drop (below rank node.rank nodes).length = above rank node.rank nodes := by
  have cut := ascending.cut node.rank
  rw [entryAt_eq_none fresh, Option.toList_none, List.nil_append] at cut
  nth_rewrite 2 [cut]
  rw [List.drop_left]

end TabStopNode

/-! ## Insertion -/

open TabStopNode

variable {tree : SumTree TabStopNode TabStopOrderNodeSummary}

theorem insertOrReplace_fresh (sturdy : Sturdy tree) (shallow : Shallow tree) (ascending : Ascending rank tree.toList)
    {node : TabStopNode} (fresh : ∀ other ∈ tree.toList, other.rank ≠ node.rank) : ∃ tree',
    tree.insertOrReplace node = .ok (none, tree') ∧ Sturdy tree' ∧
    tree'.toList = replaceAt rank node.rank (some node) tree.toList := by
  have wellFormed := sturdy.wellFormed
  obtain ⟨slice, moved, sliced, sliceWellFormed, sliceLow, held, rests⟩ :=
    slice_new wellFormed shallow (monotone_node ascending node) (isGE_node node)
  rw [passed_node ascending] at held rests
  rw [drop_below_fresh ascending fresh] at rests
  have untaken : takeKey moved node (above rank node.rank tree.toList).head? = .ok (none, moved) := by
    cases later : above rank node.rank tree.toList with
    | nil => rfl
    | cons first rest =>
      have high : node.rank < first.rank := lt_of_mem_above (by rw [later]; simp)
      have apart : ¬ first = node := by
        rintro rfl
        exact high.ne rfl
      simp only [List.head?_cons, takeKey]
      exact if_neg apart
  obtain ⟨pushed, pushedEq, pushedWellFormed, pushedItems, pushedLow⟩ := pushItem_below sliceWellFormed (by omega) node
  obtain ⟨rest, last, suffixEq, restWellFormed, restLow, restItems⟩ := rests.suffix shallow
  obtain ⟨tree', appended, wellFormed', items, -⟩ := append_below pushedWellFormed restWellFormed (by omega) (by omega)
  have inserted : tree.insertOrReplace node = .ok (none, tree') := by
    simp only [insertOrReplace, sliced, ok_bind, rests.item_eq, untaken, pushedEq, suffixEq, appended, KeyedItem.key]
    rfl
  refine ⟨tree', inserted, insertOrReplace_sturdy sturdy inserted, ?_⟩
  rw [items, pushedItems, held, restItems, replaceAt]
  simp

/-! ## Skipping -/

namespace TabStopMap

theorem skip_spec (move : NodeCursor → Except Panic NodeCursor) (ahead : NodeCursor → List TabStopNode → Prop)
    (reads : ∀ cursor nodes, ahead cursor nodes → cursor.item = .ok nodes.head?)
    (moves : ∀ cursor node nodes, ahead cursor (node :: nodes) → ∃ moved, move cursor = .ok moved ∧ ahead moved nodes)
    (fuel : Nat) (cursor : NodeCursor) (nodes : List TabStopNode) (there : ahead cursor nodes)
    (enough : nodes.length < fuel) : ∃ stopped, loopFor (skipStep move) fuel cursor = .ok stopped ∧
    stopped.item = .ok (nodes.find? TabStopNode.tabStop) := by
  induction nodes generalizing cursor fuel with
  | nil =>
    obtain ⟨fuel, rfl⟩ : ∃ n, fuel = n + 1 := ⟨fuel - 1, by omega⟩
    have item := reads cursor [] there
    refine ⟨cursor, ?_, item⟩
    simp only [loopFor, skipStep, item, ok_bind, List.head?_nil]
    rfl
  | cons node nodes ih =>
    obtain ⟨fuel, rfl⟩ : ∃ n, fuel = n + 1 := ⟨fuel - 1, by omega⟩
    have item := reads cursor (node :: nodes) there
    cases stop : node.tabStop with
    | true =>
      refine ⟨cursor, ?_, ?_⟩
      · simp only [loopFor, skipStep, item, ok_bind, List.head?_cons, stop]
        rfl
      · rw [item, List.find?_cons, stop]
        rfl
    | false =>
      obtain ⟨moved, stepped, there'⟩ := moves cursor node nodes there
      rw [List.length_cons] at enough
      obtain ⟨stopped, looped, read⟩ := ih fuel moved there' (by omega)
      refine ⟨stopped, ?_, ?_⟩
      · simp only [loopFor, skipStep, item, ok_bind, List.head?_cons, stop, stepped]
        exact looped
      · rw [read, List.find?_cons, stop]

variable {map : TabStopMap}

section Inner

variable (wellFormed : WellFormed map.order) (shallow : Shallow map.order)
  (ascending : Ascending rank map.order.toList) {before after : List TabStopNode}
  {node : TabStopNode} (split : map.order.toList = before ++ node :: after)
include wellFormed shallow ascending split

theorem seek_node : ∃ found moved, (Cursor.new map.order : NodeCursor).seek (.ofOrd node) .left = .ok (found, moved) ∧
    Rests map.order moved before (node :: after) := by
  obtain ⟨found, moved, sought, rests⟩ := seek_new wellFormed shallow (monotone_node ascending node) (isGE_node node)
  have behind : below rank node.rank map.order.toList = before := by
    rw [split] at ascending ⊢
    obtain ⟨-, rest, across⟩ := List.pairwise_append.mp ascending
    rw [below_append, below_eq_self fun other member => across other member node (by simp),
      below_eq_nil, List.append_nil]
    intro other member
    rcases List.mem_cons.mp member with rfl | member
    · exact le_rfl
    · exact ((List.pairwise_cons.mp rest).1 other member).le
  rw [passed_node ascending, behind] at rests
  rw [split, List.drop_left] at rests
  exact ⟨found, moved, sought, rests⟩

theorem nextInner_spec : map.nextInner node = .ok (after.find? TabStopNode.tabStop) := by
  obtain ⟨found, cursor, sought, rests⟩ := seek_node wellFormed shallow ascending split
  obtain ⟨moved, stepped, rests'⟩ := rests.next shallow
  have few : after.length < map.order.weight + 1 := by
    have all := Iter.length_le_weight wellFormed
    rw [split, List.length_append, List.length_cons] at all
    omega
  obtain ⟨stopped, looped, read⟩ := skip_spec Cursor.next
    (fun cursor nodes => ∃ before, Rests map.order cursor before nodes)
    (fun cursor nodes ⟨before, rests⟩ => rests.item_eq)
    (fun cursor node nodes ⟨before, rests⟩ => by
      obtain ⟨moved, stepped, rests'⟩ := rests.next shallow
      exact ⟨moved, stepped, before ++ [node], rests'⟩)
    (map.order.weight + 1) moved after ⟨_, rests'⟩ few
  simp only [nextInner, inner, sought, ok_bind, stepped, looped, read]

theorem prevInner_spec : map.prevInner node = .ok (before.reverse.find? TabStopNode.tabStop) := by
  obtain ⟨found, cursor, sought, rests⟩ := seek_node wellFormed shallow ascending split
  obtain ⟨moved, stepped, landed⟩ := rests.prev_landed wellFormed shallow
  have few : before.reverse.length < map.order.weight + 1 := by
    have all := Iter.length_le_weight wellFormed
    rw [split, List.length_append] at all
    rw [List.length_reverse]
    omega
  obtain ⟨stopped, looped, read⟩ := skip_spec Cursor.prev (fun cursor nodes => Landed map.order nodes.reverse cursor)
    (fun cursor nodes landed => by rw [landed.item_eq, List.getLast?_reverse])
    (fun cursor node nodes landed => by
      generalize behind : (node :: nodes).reverse = items at landed
      rw [List.reverse_cons] at behind
      cases landed with
      | @item _ init after item rests =>
        obtain ⟨rfl, same⟩ := List.append_inj' behind rfl
        exact rests.prev_landed wellFormed shallow
      | beforeStart nonempty => simp at behind
      | empty empty rests => simp at behind)
    (map.order.weight + 1) moved before.reverse (by rwa [List.reverse_reverse]) few
  simp only [prevInner, inner, sought, ok_bind, stepped, looped, read]

end Inner

/-! ## Building a map -/

/-- The handles of a frame are references to entries of one slot map, which gives every key that is
in use a slot of its own. -/
def Live (nodes : List TabStopOperation) : Prop :=
  ((nodes.filterMap TabStopOperation.focusHandle).map fun handle => handle.id.idx).Nodup

/-- The handles are so few that the stack of a cursor has room for a path of their tree. -/
def Few (nodes : List TabStopOperation) : Prop :=
  (nodes.filterMap TabStopOperation.focusHandle).length < treeBase ^ stackCapacity

theorem Live.few {nodes : List TabStopOperation} (live : Live nodes) : Few nodes := by
  have slots := List.Nodup.length_le_card live
  rw [List.length_map, Fintype.card_fin] at slots
  exact slots.trans_lt (by decide)

theorem Live.of_append {nodes rest : List TabStopOperation} (live : Live (nodes ++ rest)) : Live nodes := by
  rw [Live, List.filterMap_append, List.map_append] at live
  exact live.of_append_left

theorem Few.of_append {nodes rest : List TabStopOperation} (few : Few (nodes ++ rest)) : Few nodes := by
  rw [Few, List.filterMap_append, List.length_append] at few
  exact (Nat.le_add_right _ _).trans_lt few

structure Ordered (map : TabStopMap) (nodes : List TabStopOperation) : Prop where
  path : map.currentPath = openPath [] nodes
  history : map.insertionHistory = nodes
  sturdy : Sturdy map.order
  ascending : Ascending rank map.order.toList
  items : map.order.toList.Perm ((placed [] 0 nodes).map Prod.fst)

structure Holds (map : TabStopMap) (nodes : List TabStopOperation) : Prop extends
    Ordered map nodes where
  byId : ∀ node handle, (node, handle) ∈ placed [] 0 nodes → map.byId handle.id = some node

theorem Ordered.shallow {nodes : List TabStopOperation} (ordered : Ordered map nodes)
    (few : Few nodes) : Shallow map.order := by
  refine ordered.sturdy.shallow ?_
  rw [ordered.items.length_eq, List.length_map]
  rwa [Few, ← handles_placed [] 0, List.length_map] at few

theorem Holds.shallow {nodes : List TabStopOperation} (holds : Holds map nodes)
    (live : Live nodes) : Shallow map.order :=
  holds.toOrdered.shallow live.few

def nextNode (nodes : List TabStopOperation) (handle : FocusHandle) : TabStopNode :=
  ⟨openPath [] nodes ++ [handle.tabIndex], nodes.length, handle.tabStop⟩

theorem placed_insert (nodes : List TabStopOperation) (handle : FocusHandle) :
    placed [] 0 (nodes ++ [.insert handle]) = placed [] 0 nodes ++ [(nextNode nodes handle, handle)] := by
  rw [placed_append]
  simp [placed, nextNode]

theorem Ordered.insert {nodes : List TabStopOperation} (ordered : Ordered map nodes) (shallow : Shallow map.order)
    (handle : FocusHandle) : ∃ map', map.insert handle = .ok map' ∧ Ordered map' (nodes ++ [.insert handle]) ∧
    map'.byId = Function.update map.byId handle.id (some (nextNode nodes handle)) := by
  have fresh : ∀ other ∈ map.order.toList, other.rank ≠ (nextNode nodes handle).rank := by
    intro other member same
    obtain ⟨⟨_, theirs⟩, placed, rfl⟩ := List.mem_map.mp (ordered.items.mem_iff.mp member)
    obtain ⟨-, -, found⟩ := placed_spec placed
    obtain ⟨low, -⟩ := List.getElem?_eq_some_iff.mp found
    have index := congrArg (fun rank => (ofLex rank).2) same
    simp only [rank, ofLex_toLex, nextNode] at index
    omega
  obtain ⟨tree, inserted, sturdy, items⟩ := insertOrReplace_fresh ordered.sturdy shallow ordered.ascending fresh
  refine ⟨⟨map.currentPath, map.insertionHistory ++ [.insert handle],
    Function.update map.byId handle.id (some (nextNode nodes handle)), tree⟩, ?_,
    ⟨?_, ?_, sturdy, ?_, ?_⟩, rfl⟩
  · rw [nextNode] at inserted
    rw [TabStopMap.insert]
    simp only [ordered.path, ordered.history, List.length_append, List.length_singleton,
      Nat.add_sub_cancel, inserted, ok_bind]
    rfl
  · rw [openPath_append]
    exact ordered.path
  · rw [ordered.history]
  · simp only [items]
    exact ordered.ascending.replaceAt (by simp)
  · have cut := ordered.ascending.cut (nextNode nodes handle).rank
    rw [entryAt_eq_none fresh, Option.toList_none, List.nil_append] at cut
    simp only [items, replaceAt, placed_insert, List.map_append, List.map_cons, List.map_nil,
      Option.toList_some, List.singleton_append]
    calc below rank (nextNode nodes handle).rank map.order.toList ++
          nextNode nodes handle :: above rank (nextNode nodes handle).rank map.order.toList
        |>.Perm (nextNode nodes handle :: map.order.toList) := by
          nth_rewrite 3 [cut]
          exact List.perm_middle
      _ |>.Perm (nextNode nodes handle :: (placed [] 0 nodes).map Prod.fst) := ordered.items.cons _
      _ |>.Perm ((placed [] 0 nodes).map Prod.fst ++ [nextNode nodes handle]) := (List.perm_append_singleton _ _).symm

theorem placed_concat (nodes : List TabStopOperation) {operation : TabStopOperation}
    (group : operation.focusHandle = none) : placed [] 0 (nodes ++ [operation]) = placed [] 0 nodes := by
  rw [placed_append]
  cases operation with
  | insert handle => cases group
  | group tabIndex => simp [placed]
  | groupEnd => simp [placed]

theorem Ordered.perform {nodes : List TabStopOperation} (ordered : Ordered map nodes)
    (shallow : Shallow map.order) (operation : TabStopOperation) :
    ∃ map', map.perform operation = .ok map' ∧ Ordered map' (nodes ++ [operation]) := by
  cases operation with
  | insert handle =>
    obtain ⟨map', inserted, ordered, -⟩ := ordered.insert shallow handle
    exact ⟨map', inserted, ordered⟩
  | group tabIndex =>
    refine ⟨_, rfl, ?_, ?_, ordered.sturdy, ordered.ascending, ?_⟩
    · rw [openPath_append]
      simp [beginGroup, ordered.path, openPath]
    · simp [beginGroup, ordered.history]
    · rw [placed_concat nodes rfl]
      exact ordered.items
  | groupEnd =>
    refine ⟨_, rfl, ?_, ?_, ordered.sturdy, ordered.ascending, ?_⟩
    · rw [openPath_append]
      simp [endGroup, ordered.path, openPath]
    · simp [endGroup, ordered.history]
    · rw [placed_concat nodes rfl]
      exact ordered.items

theorem Ordered.default : Ordered default [] := ⟨rfl, rfl, .new, .nil, .nil⟩

theorem Ordered.replay {nodes : List TabStopOperation} (ordered : Ordered map nodes) (more : List TabStopOperation)
    (few : Few (nodes ++ more)) : ∃ map', map.replay more = .ok map' ∧ Ordered map' (nodes ++ more) := by
  induction more generalizing map nodes with
  | nil => exact ⟨map, rfl, by simpa using ordered⟩
  | cons operation more ih =>
    obtain ⟨next, performed, ordered'⟩ := ordered.perform (ordered.shallow few.of_append) operation
    rw [List.append_cons] at few ⊢
    obtain ⟨last, replayed, ordered''⟩ := ih ordered' few
    refine ⟨last, ?_, ordered''⟩
    rw [TabStopMap.replay, List.foldlM_cons, performed, ok_bind]
    exact replayed

theorem Holds.insert {nodes : List TabStopOperation} (holds : Holds map nodes)
    (handle : FocusHandle) (live : Live (nodes ++ [.insert handle])) :
    ∃ map', map.insert handle = .ok map' ∧ Holds map' (nodes ++ [.insert handle]) := by
  obtain ⟨map', inserted, ordered, byId⟩ := holds.toOrdered.insert (holds.shallow live.of_append) handle
  refine ⟨map', inserted, ordered, fun node' handle' member => ?_⟩
  rw [placed_insert] at member
  rw [byId]
  rcases List.mem_append.mp member with member | member
  · have apart : handle'.id ≠ handle.id := by
      intro same
      have slots := live
      rw [Live, List.filterMap_append, List.map_append] at slots
      have others : handle' ∈ nodes.filterMap TabStopOperation.focusHandle := by
        rw [← handles_placed [] 0]
        exact List.mem_map_of_mem member
      refine List.disjoint_of_nodup_append slots (List.mem_map_of_mem (f := fun handle => handle.id.idx) others) ?_
      rw [same]
      simp [TabStopOperation.focusHandle]
    rw [Function.update_of_ne apart]
    exact holds.byId node' handle' member
  · cases List.mem_singleton.mp member
    exact Function.update_self ..

theorem Holds.perform {nodes : List TabStopOperation} (holds : Holds map nodes)
    (operation : TabStopOperation) (live : Live (nodes ++ [operation])) :
    ∃ map', map.perform operation = .ok map' ∧ Holds map' (nodes ++ [operation]) := by
  cases operation with
  | insert handle => exact holds.insert handle live
  | group tabIndex =>
    obtain ⟨map', performed, ordered⟩ := holds.toOrdered.perform (holds.shallow live.of_append) (.group tabIndex)
    cases performed
    exact ⟨_, rfl, ordered, by rw [placed_concat nodes rfl]; exact holds.byId⟩
  | groupEnd =>
    obtain ⟨map', performed, ordered⟩ := holds.toOrdered.perform (holds.shallow live.of_append) .groupEnd
    cases performed
    exact ⟨_, rfl, ordered, by rw [placed_concat nodes rfl]; exact holds.byId⟩

theorem Holds.default : Holds default [] := ⟨.default, fun _ _ member => nomatch member⟩

theorem Holds.replay {nodes : List TabStopOperation} (holds : Holds map nodes) (more : List TabStopOperation)
    (live : Live (nodes ++ more)) : ∃ map', map.replay more = .ok map' ∧ Holds map' (nodes ++ more) := by
  induction more generalizing map nodes with
  | nil => exact ⟨map, rfl, by simpa using holds⟩
  | cons operation more ih =>
    rw [List.append_cons] at live ⊢
    obtain ⟨next, performed, holds'⟩ := holds.perform operation live.of_append
    obtain ⟨last, replayed, holds''⟩ := ih holds' live
    refine ⟨last, ?_, holds''⟩
    rw [TabStopMap.replay, List.foldlM_cons, performed, ok_bind]
    exact replayed

end TabStopMap
end Pinrail

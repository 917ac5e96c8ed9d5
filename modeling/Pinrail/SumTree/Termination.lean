import Pinrail.SumTree.Cursor

/-!
# The loops of a cursor end

Every round of a loop of the cursor uses up some of the work that its stack has left, whatever the
stack holds.
-/

namespace Pinrail
open Lib SumTree

variable {T S : Type}

namespace SumTree

theorem weights_children_le (tree : SumTree T S) :
    weights tree.children + tree.childSummaries.length + 2 ≤ weight tree := by
  cases tree with
  | internal h s ss trees =>
    simp only [children, childSummaries, weight]
    omega
  | leaf s xs ss =>
    simp only [children, childSummaries, weight, weights]
    omega

theorem weights_append (left right : List (SumTree T S)) : weights (left ++ right) = weights left + weights right := by
  induction left with
  | nil => simp [weights]
  | cons tree left ih =>
    simp only [List.cons_append, weights, ih]
    omega

theorem weights_drop_of_getElem? {trees : List (SumTree T S)} {i : Nat} {tree : SumTree T S}
    (found : trees[i]? = some tree) : weights (trees.drop i) = weight tree + weights (trees.drop (i + 1)) := by
  obtain ⟨within, rfl⟩ := List.getElem?_eq_some_iff.mp found
  rw [List.drop_eq_getElem_cons within, weights]

theorem weights_take_of_getElem? {trees : List (SumTree T S)} {i : Nat} {tree : SumTree T S}
    (found : trees[i]? = some tree) : weights (trees.take (i + 1)) = weights (trees.take i) + weight tree := by
  rw [List.take_add_one, found, weights_append]
  simp [weights]

theorem weights_drop_le (trees : List (SumTree T S)) {i j : Nat} (le : i ≤ j) :
    weights (trees.drop j) ≤ weights (trees.drop i) := by
  obtain ⟨k, rfl⟩ := Nat.exists_eq_add_of_le le
  have split := weights_append ((trees.drop i).take k) ((trees.drop i).drop k)
  rw [List.take_append_drop, List.drop_drop] at split
  omega

theorem weights_take_le (trees : List (SumTree T S)) (i : Nat) : weights (trees.take i) ≤ weights trees := by
  have split := weights_append (trees.take i) (trees.drop i)
  rw [List.take_append_drop] at split
  omega

end SumTree

namespace Cursor
variable {D : Type} [Dimension S D]

omit [Dimension S D] in
theorem insertFront_eq {α : Type} {cap : Nat} {x : α} {xs pushed : List α}
    (eq : insertFront cap x xs = .ok pushed) : pushed = x :: xs := by
  unfold insertFront at eq
  split_ifs at eq
  cases eq
  rfl

omit [Dimension S D] in
theorem workAhead_enter {tree subtree : SumTree T S} {i j : Nat} {p p' q : D} {rest : List (StackEntry T S D)}
    {descend : Bool} (le : (if descend then i else i + 1) ≤ j) (found : tree.children[j]? = some subtree) :
    workAhead (⟨subtree, 0, q⟩ :: ⟨tree, j, p'⟩ :: rest) true < workAhead (⟨tree, i, p⟩ :: rest) descend := by
  have fewer := weights_drop_le tree.children le
  have split := weights_drop_of_getElem? found
  have below := weights_children_le subtree
  simp only [workAhead, if_true, List.drop_zero, Bool.false_eq_true, if_false]
  omega

theorem skipRejected_le (filterNode : S → Bool) (summaries : List S) (i : Nat) (p position : D) :
    i ≤ (skipRejected filterNode summaries i p position).1 := by
  induction summaries generalizing i p position with
  | nil => exact Nat.le_refl i
  | cons next rest ih =>
    rw [skipRejected]
    split_ifs
    · exact Nat.le_refl i
    · exact Nat.le_of_succ_le (ih (i + 1) _ _)

theorem searchForwardStep_decreases (filterNode : S → Bool) (state next : Cursor T S D × Bool)
    (stepped : searchForwardStep filterNode state = .ok (.inl next)) :
    workAhead next.1.stack next.2 < workAhead state.1.stack state.2 := by
  obtain ⟨⟨root, stack, position, didSeek, atEnd⟩, descend⟩ := state
  rcases stack with _ | ⟨⟨node, i, p⟩, rest⟩
  · cases stepped
  · cases node with
    | internal h s ss trees =>
      simp only [searchForwardStep] at stepped
      split at stepped
      · rename_i subtree found
        obtain ⟨stack, pushed, stepped⟩ := bind_eq_ok.mp stepped
        cases stepped
        obtain rfl := insertFront_eq pushed
        refine workAhead_enter (Nat.le_trans ?_ (skipRejected_le _ _ _ _ _)) found
        split_ifs <;> exact Nat.le_refl _
      · cases stepped
        simp only [workAhead]
        omega
    | leaf s xs ss =>
      simp only [searchForwardStep] at stepped
      obtain ⟨left, -, stepped⟩ := bind_eq_ok.mp stepped
      split_ifs at stepped
      · cases stepped
      · cases stepped
        simp only [workAhead]
        omega

theorem visitBackward_decreases (filterNode : S → Bool) {root tree : SumTree T S} {i : Nat}
    {rest : List (StackEntry T S D)} {didSeek atEnd : Bool} {next : Cursor T S D × Bool}
    (visited : visitBackward filterNode root tree i rest didSeek atEnd = .ok (.inl next)) :
    workBehind next.1.stack next.2 < 2 + i + weights (tree.children.take (i + 1)) + workBehind rest false := by
  have fewer : weights (tree.children.take i) ≤ weights (tree.children.take (i + 1)) := by
    rw [List.take_add_one, weights_append]
    omega
  have stays : ∀ position : D, workBehind (⟨tree, i, position⟩ :: rest) false <
      2 + i + weights (tree.children.take (i + 1)) + workBehind rest false := by
    intro position
    simp only [workBehind, Bool.false_eq_true, if_false]
    omega
  obtain ⟨before, -, visited⟩ := bind_eq_ok.mp visited
  obtain ⟨summary, -, visited⟩ := bind_eq_ok.mp visited
  cases tree with
  | internal h s ss trees =>
    cases accepted : filterNode summary with
    | true =>
      simp only [accepted, if_true] at visited
      obtain ⟨child, found, visited⟩ := bind_eq_ok.mp visited
      obtain ⟨last, lastEq, visited⟩ := bind_eq_ok.mp visited
      obtain ⟨stack, pushed, visited⟩ := bind_eq_ok.mp visited
      cases visited
      obtain rfl := insertFront_eq pushed
      have split : weights ((internal h s ss trees).children.take (i + 1)) = _ :=
        weights_take_of_getElem? (getElem?_of_index found)
      have below := weights_children_le child
      have within := sub_of_checkedSub lastEq
      have all : weights (child.children.take (last + 1)) ≤ weights child.children := weights_take_le _ _
      have held : (internal h s ss trees).children = trees := rfl
      simp only [workBehind, if_true, Bool.false_eq_true, if_false, held] at split ⊢
      omega
    | false =>
      simp only [accepted, Bool.false_eq_true, if_false] at visited
      cases visited
      exact stays _
  | leaf s xs ss =>
    cases accepted : filterNode summary with
    | true =>
      simp only [accepted, if_true] at visited
      cases visited
    | false =>
      simp only [accepted, Bool.false_eq_true, if_false] at visited
      cases visited
      exact stays _

theorem searchBackwardStep_decreases (filterNode : S → Bool) (state next : Cursor T S D × Bool)
    (stepped : searchBackwardStep filterNode state = .ok (.inl next)) :
    workBehind next.1.stack next.2 < workBehind state.1.stack state.2 := by
  obtain ⟨⟨root, stack, position, didSeek, atEnd⟩, descending⟩ := state
  rcases stack with _ | ⟨⟨tree, i, p⟩, rest⟩
  · cases stepped
  · cases descending with
    | true =>
      have fewer := visitBackward_decreases filterNode stepped
      simp only [workBehind, if_true]
      omega
    | false =>
      cases i with
      | zero =>
        cases stepped
        simp only [workBehind]
        omega
      | succ i =>
        have fewer := visitBackward_decreases filterNode stepped
        simp only [workBehind, Bool.false_eq_true, if_false]
        omega

/-! ## Seeks -/

variable {A : Type}

theorem seekChildren_found (target : SeekTarget D) (bias : Bias)
    (aggregate : SeekAggregate T S A) (trees : List (SumTree T S)) (summaries : List S)
    {i i' : Nat} {p p' position position' : D} {a a' : A} {child : SumTree T S}
    (eq : seekChildren target bias aggregate (trees.zip summaries) i p position a =
      .ok (some child, i', p', position', a')) :
    i ≤ i' ∧ trees[i' - i]? = some child := by
  induction trees generalizing summaries i p position a with
  | nil => cases eq
  | cons tree trees ih =>
    cases summaries with
    | nil => cases eq
    | cons summary summaries =>
      simp only [List.zip_cons_cons, seekChildren] at eq
      split_ifs at eq
      · obtain ⟨pushed, -, eq⟩ := bind_eq_ok.mp eq
        obtain ⟨le, found⟩ := ih summaries eq
        refine ⟨by omega, ?_⟩
        rw [show i' - i = (i' - (i + 1)) + 1 by omega]
        exact found
      · cases eq
        exact ⟨Nat.le_refl _, by simp⟩

theorem seekStep_decreases (target : SeekTarget D) (bias : Bias) (aggregate : SeekAggregate T S A)
    (state next : Cursor T S D × Bool × A) (stepped : seekStep target bias aggregate state = .ok (.inl next)) :
    workAhead next.1.stack (!next.2.1) < workAhead state.1.stack (!state.2.1) := by
  obtain ⟨⟨root, stack, position, didSeek, atEnd⟩, ascending, a⟩ := state
  rcases stack with _ | ⟨⟨node, i, p⟩, rest⟩
  · cases stepped
  · cases node with
    | internal h s ss trees =>
      simp only [seekStep] at stepped
      obtain ⟨remaining, sliced, stepped⟩ := bind_eq_ok.mp stepped
      obtain ⟨summaries, -, stepped⟩ := bind_eq_ok.mp stepped
      obtain ⟨⟨child, i', p', position', a'⟩, sought, stepped⟩ := bind_eq_ok.mp stepped
      cases child with
      | none =>
        cases stepped
        simp only [workAhead, Bool.not_true]
        omega
      | some child =>
        obtain ⟨stack, pushed, stepped⟩ := bind_eq_ok.mp stepped
        cases stepped
        obtain rfl := insertFront_eq pushed
        obtain ⟨le, found⟩ := seekChildren_found target bias aggregate remaining summaries sought
        rw [eq_drop_of_sliceFrom sliced, List.getElem?_drop] at found
        refine workAhead_enter ?_ (Nat.add_sub_cancel' le ▸ found)
        cases ascending <;> exact le
    | leaf s xs ss =>
      simp only [seekStep] at stepped
      obtain ⟨remaining, -, stepped⟩ := bind_eq_ok.mp stepped
      obtain ⟨summaries, -, stepped⟩ := bind_eq_ok.mp stepped
      obtain ⟨⟨stopped, i', position', a'⟩, -, stepped⟩ := bind_eq_ok.mp stepped
      obtain ⟨a'', -, stepped⟩ := bind_eq_ok.mp stepped
      cases stopped with
      | true => cases stepped
      | false =>
        cases stepped
        simp only [workAhead, Bool.not_true]
        omega

end Cursor
end Pinrail

import Pinrail.SumTree.FindExact
import Pinrail.SumTree.Iter

/-!
# The contract of iterators

`size_hint` and `last` of an iterator look at the leaf it is in and at the last leaf of the tree. They
are right until the iterator reaches that last leaf.
-/

namespace Pinrail
open Lib SumTree Cursor

variable {T S : Type}

namespace Iter

def last (self : Iter T S) : Except Panic (Option T) := do
  (← rightmostLeaf self.tree).last

def sizeHint (self : Iter T S) : Except Panic (Nat × Option Nat) := do
  let lowerBound ← match self.stack with
    | top :: _ => checkedSub top.tree.childSummaries.length top.index
    | [] => pure self.tree.childSummaries.length
  return (lowerBound, none)

/-- Calls of `next` that have each returned an item. -/
inductive Yielded : Iter T S → List T → Iter T S → Prop where
  | none {self : Iter T S} : Yielded self [] self
  | next {self moved after : Iter T S} {items : List T} {item : T}
      (before : Yielded self items moved) (stepped : moved.next = .ok (some item, after)) :
      Yielded self (items ++ [item]) after

variable [Summary S] [Item T S]

/-- What the contract says of an iterator over `all` that has yielded `items`. -/
structure Honours (self : Iter T S) (items all : List T) : Prop where
  inOrder : items = all.take items.length
  sizeHint : ∃ lower, self.sizeHint = .ok (lower, none) ∧ lower ≤ (all.drop items.length).length
  last : self.last = .ok (all.drop items.length).getLast?

/-! ## Trees that are too high -/

theorem loopFor_tooTall {h : Nat} {tree : SumTree T S}
    (balanced : Balanced h tree) (stack : List (StackEntry T S PUnit))
    (tall : stackCapacity ≤ stack.length + h) (room : stack.length < stackCapacity) (fuel : Nat) :
    ∃ e, loopFor step fuel (⟨tree, 0, ⟨⟩⟩ :: stack, true) = .error e := by
  induction balanced generalizing stack fuel with
  | leaf nonempty fits => omega
  | @internal h trees nonempty fits below ih =>
    obtain ⟨first, rest, rfl⟩ := List.exists_cons_of_ne_nil nonempty
    cases fuel with
    | zero => exact ⟨_, rfl⟩
    | succ fuel =>
      simp only [loopFor, step, if_true, List.getElem?_cons_zero]
      rcases Nat.lt_or_ge (stack.length + 1) stackCapacity with more | full
      · rw [insertFront_of_lt (by simpa using more), ok_bind]
        refine ih first (by simp) _ ?_ (by simpa using more) fuel
        rw [List.length_cons]
        omega
      · refine ⟨.capacity, ?_⟩
        rw [insertFront, if_neg (by simpa using full)]
        rfl

theorem next_tooTall {root : SumTree T S} (wellFormed : WellFormed root) (tall : ¬ Shallow root) :
    ∃ e, root.iter.next = .error e := by
  rcases wellFormed with rfl | ⟨h, balanced⟩
  · exact absurd (Nat.zero_lt_succ 15) tall
  · have high : stackCapacity ≤ h := by
      rw [Shallow, balanced.height_eq] at tall
      exact Nat.le_of_not_lt tall
    have entered : root.iter.enter = .ok ([⟨root, 0, ⟨⟩⟩], true) := rfl
    rw [next, entered, ok_bind, loop]
    obtain ⟨e, failed⟩ := loopFor_tooTall balanced [] (by simpa using high) (Nat.zero_lt_succ 15) _
    exact ⟨e, by rw [failed]; rfl⟩

end Iter

/-! ## The last leaf -/

namespace SumTree

def lastLeafLength (tree : SumTree T S) : Nat := (tree.leaves.getLast?.getD []).length

end SumTree

variable [Summary S] [Item T S]

theorem Cursor.Trail.leaves {D : Type} [Dimension S D] {root tree : SumTree T S} {stack : List (StackEntry T S D)}
    {h : Nat} {before after : List T} (trail : Trail root stack h tree before after) : ∃ front back,
    root.leaves = front ++ tree.leaves ++ back ∧ front.flatten = before ∧ back.flatten = after := by
  induction trail with
  | root balanced => exact ⟨[], [], by simp, rfl, rfl⟩
  | @child stack h s ss left right tree before after parent ih =>
    obtain ⟨front, back, split, rfl, rfl⟩ := ih
    have below := parent.balanced.child
    have flat : ∀ trees : List (SumTree T S), (∀ t ∈ trees, t ∈ left ++ tree :: right) →
        (leavesOf trees).flatten = toLists trees := fun trees among =>
      flatten_leavesOf trees fun t mem => (below t (among t mem)).flatten_leaves
    have parts : (SumTree.internal (h + 1) s ss (left ++ tree :: right)).leaves =
        leavesOf left ++ tree.leaves ++ leavesOf right := by
      rw [SumTree.leaves, leavesOf_append, leavesOf, List.append_assoc]
    refine ⟨front ++ leavesOf left, leavesOf right ++ back, ?_, ?_, ?_⟩
    · rw [split, parts]
      simp
    · rw [List.flatten_append, flat left (by simp +contextual)]
    · rw [List.flatten_append, flat right (by simp +contextual)]

namespace Iter

variable [LawfulSummary S] {root : SumTree T S} {items : List T} {self : Iter T S}

theorem Yielded.rests (wellFormed : WellFormed root) (yielded : Yielded root.iter items self) :
    (items = [] ∧ self = root.iter) ∨
    (Shallow root ∧ ∃ (cursor : Cursor T S PUnit) (before after : List T) (item : T),
      Rests root cursor before (item :: after) ∧ self = ⟨root, cursor.stack⟩ ∧
      items = before ++ [item]) := by
  induction yielded with
  | none => exact .inl ⟨rfl, rfl⟩
  | @next moved after items item yielded stepped ih =>
    rcases ih with ⟨rfl, rfl⟩ | ⟨shallow, cursor, before, rest, last, rests, rfl, rfl⟩
    · have shallow : Shallow root := by
        by_contra tall
        obtain ⟨e, failed⟩ := next_tooTall wellFormed tall
        rw [failed] at stepped
        cases stepped
      obtain ⟨cursor, first, rests⟩ := next_new wellFormed shallow
      cases all : root.toList with
      | nil =>
        rw [all, stepped] at first
        cases first
      | cons head tail =>
        rw [all, stepped] at first
        rw [all] at rests
        cases first
        exact .inr ⟨shallow, cursor, [], tail, _, rests, rfl, rfl⟩
    · obtain ⟨cursor', follows, rests'⟩ := next_follows shallow rests
      cases rest with
      | nil =>
        rw [stepped] at follows
        cases follows
      | cons head tail =>
        rw [stepped] at follows
        cases follows
        exact .inr ⟨shallow, cursor', before ++ [last], tail, _, rests', rfl, rfl⟩

omit [LawfulSummary S] in
theorem length_childSummaries_le {h : Nat} {tree : SumTree T S} (balanced : Balanced h tree) :
    tree.childSummaries.length ≤ tree.toList.length := by
  cases balanced with
  | leaf nonempty fits => simp
  | @internal h trees nonempty fits below =>
    clear nonempty fits
    rw [childSummaries_internal, List.length_map, toList_internal]
    induction trees with
    | nil => simp
    | cons tree trees ih =>
      have first := List.length_pos_iff.mpr (below tree (by simp)).toList_ne_nil
      have rest := ih fun t mem => below t (by simp [mem])
      rw [toLists_cons, List.length_append, List.length_cons]
      omega

omit [LawfulSummary S] in
theorem last_spec (wellFormed : WellFormed root) (stack : List (StackEntry T S PUnit)) :
    last ⟨root, stack⟩ = .ok root.toList.getLast? := by
  have whole := SumTree.last_spec wellFormed
  rw [SumTree.last] at whole
  obtain ⟨leaf, found, read⟩ := bind_eq_ok.mp whole
  have here : rightmostLeaf leaf = .ok leaf := by
    rcases wellFormed with rfl | ⟨h, balanced⟩
    · cases found
      rfl
    · obtain ⟨leaf', xs, found', held, -⟩ := rightmostLeaf_spec balanced
      cases found.symm.trans found'
      cases leaf with
      | leaf s xs ss => rfl
      | internal h s ss trees => cases held
  rw [last, found, ok_bind, SumTree.last, here, ok_bind]
  exact read

omit [LawfulSummary S] in
theorem honours_new (wellFormed : WellFormed root) : Honours root.iter [] root.toList where
  inOrder := by simp
  sizeHint := by
    refine ⟨_, rfl, ?_⟩
    rcases wellFormed with rfl | ⟨h, balanced⟩
    · exact Nat.zero_le _
    · exact length_childSummaries_le balanced
  last := last_spec wellFormed []

omit [LawfulSummary S] in
theorem honours_rests {stack : List (StackEntry T S PUnit)} {s : S} {ss : List S} {left right : List T} {item : T}
    {before after : List T} (wellFormed : WellFormed root)
    (trail : Trail root stack 0 (.leaf s (left ++ item :: right) ss) before after) (p : PUnit) :
    Honours (⟨root, ⟨.leaf s (left ++ item :: right) ss, left.length, p⟩ :: stack⟩ : Iter T S)
    (before ++ left ++ [item]) root.toList ↔ after ≠ [] := by
  obtain rfl := trail.balanced.itemSummaries_eq
  have whole : root.toList = (before ++ left ++ [item]) ++ (right ++ after) := by
    rw [trail.held]
    simp
  have hint : sizeHint (⟨root, ⟨.leaf s (left ++ item :: right)
      ((left ++ item :: right).map Item.summary), left.length, p⟩ :: stack⟩ : Iter T S) =
      .ok (right.length + 1, none) := by
    simp only [sizeHint, childSummaries_leaf, List.length_map, List.length_append, List.length_cons]
    rw [checkedSub_of_le (by omega), ok_bind, Nat.add_sub_cancel_left]
    rfl
  constructor
  · rintro ⟨-, ⟨lower, hinted, few⟩, -⟩ rfl
    cases hint.symm.trans hinted
    rw [whole, List.drop_left, List.append_nil] at few
    omega
  · intro more
    refine ⟨?_, ⟨_, hint, ?_⟩, ?_⟩
    · rw [whole, List.take_left]
    · have some := List.length_pos_iff.mpr more
      rw [whole, List.drop_left, List.length_append]
      omega
    · rw [last_spec wellFormed, whole, List.drop_left, List.getLast?_append_of_ne_nil _ (by simp [more])]

omit [LawfulSummary S] in
theorem after_ne_nil_iff {stack : List (StackEntry T S PUnit)} {s : S} {ss : List S}
    {left right : List T} {item : T} {before after : List T} (wellFormed : WellFormed root)
    (trail : Trail root stack 0 (.leaf s (left ++ item :: right) ss) before after) :
    after ≠ [] ↔ (before ++ left ++ [item]).length + root.lastLeafLength ≤ root.toList.length := by
  have whole := congrArg List.length trail.held
  simp only [toList_leaf, List.length_append, List.length_cons, List.length_nil] at whole ⊢
  obtain ⟨front, back, split, -, rfl⟩ := trail.leaves
  rw [SumTree.leaves] at split
  rcases List.eq_nil_or_concat' back with rfl | ⟨back, last, rfl⟩
  · have here : root.lastLeafLength = (left ++ item :: right).length := by
      rw [lastLeafLength, split, List.append_nil, List.getLast?_concat]
      rfl
    simp only [List.length_append, List.length_cons, List.flatten_nil, List.length_nil] at here whole
    simp only [List.flatten_nil, ne_eq, not_true_eq_false, false_iff]
    omega
  · have there : root.lastLeafLength = last.length := by
      rw [lastLeafLength, split, ← List.append_assoc, List.getLast?_concat]
      rfl
    have nonempty : last ≠ [] := by
      rcases wellFormed with rfl | ⟨h, balanced⟩
      · rw [toList_new, List.length_nil] at whole
        omega
      · exact balanced.leaf_ne_nil last (by simp [split])
    simp only [List.flatten_append, List.flatten_cons, List.flatten_nil, List.append_nil, List.length_append] at whole
    refine ⟨fun _ => by omega, fun _ => ?_⟩
    simp [nonempty]

/-- An iterator honours the contract of iterators until it has entered the last leaf. -/
theorem honours_iff (wellFormed : WellFormed root) (yielded : Yielded root.iter items self) :
    Honours self items root.toList ↔ items = [] ∨ items.length + root.lastLeafLength ≤ root.toList.length := by
  rcases yielded.rests wellFormed with
    ⟨rfl, rfl⟩ | ⟨-, cursor, before, after, item, rests, rfl, rfl⟩
  · exact ⟨fun _ => .inl rfl, fun _ => honours_new wellFormed⟩
  · cases rests with
    | item trail p =>
      rw [honours_rests wellFormed trail, after_ne_nil_iff wellFormed trail]
      exact ⟨.inr, fun either => either.resolve_left (by simp)⟩

theorem single_yielded : Yielded single.iter [1] ⟨single, [⟨single, 0, ⟨⟩⟩]⟩ := .next .none rfl

/-- An iterator that has two of thirteen items behind it and the border of the leaves before it. -/
theorem honours_iff_thirteen : ∃ self, Yielded thirteen.iter [1, 2] self ∧ Honours self [1, 2] thirteen.toList := by
  obtain ⟨self, yielded⟩ : ∃ self, Yielded thirteen.iter ([] ++ [1] ++ [2]) self := ⟨_, .next (.next .none rfl) rfl⟩
  exact ⟨self, yielded, (honours_iff thirteen_wellFormed yielded).mpr (.inr (by decide))⟩

/-- After its only item an iterator still promises one, and returns that item as the last one. -/
theorem single_exhausted : WellFormed single ∧ Yielded single.iter [1] ⟨single, [⟨single, 0, ⟨⟩⟩]⟩ ∧
    sizeHint (⟨single, [⟨single, 0, ⟨⟩⟩]⟩ : Iter Nat IntegersSummary) = .ok (1, none) ∧
    last (⟨single, [⟨single, 0, ⟨⟩⟩]⟩ : Iter Nat IntegersSummary) = .ok (some 1) ∧ single.toList.drop 1 = [] ∧ ∃ after,
    next (⟨single, [⟨single, 0, ⟨⟩⟩]⟩ : Iter Nat IntegersSummary) = .ok (none, after) :=
  ⟨single_wellFormed, single_yielded, rfl, rfl, rfl, _, rfl⟩

end Iter
end Pinrail

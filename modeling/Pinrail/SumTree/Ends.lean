import Pinrail.SumTree.Append

/-!
# The ends of a tree

The outermost leaves, the first and the last item, and the functions that update these items in
place.
-/

namespace Pinrail.SumTree
open Lib Summary

variable {T S : Type}

def leftmostLeaf : SumTree T S → Except Panic (SumTree T S)
  | .leaf summary items itemSummaries => .ok (.leaf summary items itemSummaries)
  | .internal _ _ _ childTrees =>
    match childTrees with
    | [] => .error .unwrapNone
    | first :: _ => leftmostLeaf first
termination_by structural tree => tree

mutual

def rightmostLeaf : SumTree T S → Except Panic (SumTree T S)
  | .leaf summary items itemSummaries => .ok (.leaf summary items itemSummaries)
  | .internal _ _ _ childTrees => rightmostLeafOfLast childTrees

/-- `child_trees.last().unwrap().rightmost_leaf()`. -/
def rightmostLeafOfLast : List (SumTree T S) → Except Panic (SumTree T S)
  | [] => .error .unwrapNone
  | [last] => rightmostLeaf last
  | _ :: trees => rightmostLeafOfLast trees

end

def first (self : SumTree T S) : Except Panic (Option T) := do
  return (← (← leftmostLeaf self).items).head?

def last (self : SumTree T S) : Except Panic (Option T) := do
  return (← (← rightmostLeaf self).items).getLast?

variable [Summary S] [Item T S]

mutual

def updateLastRecursive (f : T → T) : SumTree T S → Except Panic (SumTree T S × Option S)
  | .internal height _ childSummaries childTrees => do
    let _ ← unwrap childSummaries.getLast?
    let (childTrees, updated) ← updateLastOfLast f childTrees
    let childSummaries ← setLast childSummaries (← unwrap updated)
    let summary := sum childSummaries
    return (.internal height summary childSummaries childTrees, some summary)
  | .leaf summary items itemSummaries =>
    match items.getLast?, itemSummaries.getLast? with
    | some item, some _ =>
      let item := f item
      let itemSummaries := itemSummaries.dropLast ++ [Item.summary item]
      let summary := sum itemSummaries
      .ok (.leaf summary (items.dropLast ++ [item]) itemSummaries, some summary)
    | _, _ => .ok (.leaf summary items itemSummaries, none)

/-- `child_trees.last_mut().unwrap().update_last_recursive(f)`. -/
def updateLastOfLast (f : T → T) :
    List (SumTree T S) → Except Panic (List (SumTree T S) × Option S)
  | [] => .error .unwrapNone
  | [last] => do
    let (last, updated) ← updateLastRecursive f last
    return ([last], updated)
  | tree :: trees => do
    let (trees, updated) ← updateLastOfLast f trees
    return (tree :: trees, updated)

end

def updateLast (self : SumTree T S) (f : T → T) : Except Panic (SumTree T S) := do
  return (← updateLastRecursive f self).1

def updateFirstRecursive (f : T → T) : SumTree T S → Except Panic (SumTree T S × Option S)
  | .internal height _ childSummaries childTrees => do
    let _ ← unwrap childSummaries.head?
    match childTrees with
    | [] => throw .unwrapNone
    | first :: rest =>
      let (first, updated) ← updateFirstRecursive f first
      let childSummaries ← setFirst childSummaries (← unwrap updated)
      let summary := sum childSummaries
      return (.internal height summary childSummaries (first :: rest), some summary)
  | .leaf summary items itemSummaries =>
    match items, itemSummaries with
    | item :: items, _ :: itemSummaries =>
      let item := f item
      let itemSummaries := Item.summary item :: itemSummaries
      let summary := sum itemSummaries
      .ok (.leaf summary (item :: items) itemSummaries, some summary)
    | _, _ => .ok (.leaf summary items itemSummaries, none)
termination_by structural tree => tree

def updateFirst (self : SumTree T S) (f : T → T) : Except Panic (SumTree T S) := do
  return (← updateFirstRecursive f self).1

/-! ## First and last item -/

omit [Summary S] [Item T S] in
theorem rightmostLeafOfLast_concat (init : List (SumTree T S)) (last : SumTree T S) :
    rightmostLeafOfLast (init ++ [last]) = rightmostLeaf last := by
  induction init with
  | nil => rfl
  | cons tree init ih =>
    cases init with
    | nil => rfl
    | cons next init => exact ih

theorem leftmostLeaf_spec {h : Nat} {tree : SumTree T S} (balanced : Balanced h tree) :
    ∃ leaf xs, leftmostLeaf tree = .ok leaf ∧ leaf.items = .ok xs ∧ xs ≠ [] ∧ ∃ rest, tree.toList = xs ++ rest := by
  induction balanced with
  | @leaf items nonempty fits => exact ⟨_, items, rfl, rfl, nonempty, [], by simp⟩
  | @internal h trees nonempty fits below ih =>
    obtain ⟨first, rest, rfl⟩ := List.exists_cons_of_ne_nil nonempty
    obtain ⟨leaf, xs, found, held, some, more, split⟩ := ih first (by simp)
    exact ⟨leaf, xs, found, held, some, more ++ toLists rest, by simp [split]⟩

theorem rightmostLeaf_spec {h : Nat} {tree : SumTree T S} (balanced : Balanced h tree) : ∃ leaf xs,
    rightmostLeaf tree = .ok leaf ∧ leaf.items = .ok xs ∧ xs ≠ [] ∧ ∃ before, tree.toList = before ++ xs := by
  induction balanced with
  | @leaf items nonempty fits => exact ⟨_, items, rfl, rfl, nonempty, [], by simp⟩
  | @internal h trees nonempty fits below ih =>
    obtain ⟨init, last, rfl⟩ := (List.eq_nil_or_concat' trees).resolve_left nonempty
    obtain ⟨leaf, xs, found, held, some, before, split⟩ := ih last (by simp)
    refine ⟨leaf, xs, ?_, held, some, toLists init ++ before, by simp [split]⟩
    rw [rightmostLeaf, rightmostLeafOfLast_concat, found]

theorem first_spec {tree : SumTree T S} (wellFormed : WellFormed tree) : first tree = .ok tree.toList.head? := by
  rcases wellFormed with rfl | ⟨h, balanced⟩
  · rfl
  · obtain ⟨leaf, xs, found, held, nonempty, rest, split⟩ := leftmostLeaf_spec balanced
    obtain ⟨x, xs, rfl⟩ := List.exists_cons_of_ne_nil nonempty
    rw [first, found, ok_bind, held, ok_bind, split]
    rfl

theorem last_spec {tree : SumTree T S} (wellFormed : WellFormed tree) : last tree = .ok tree.toList.getLast? := by
  rcases wellFormed with rfl | ⟨h, balanced⟩
  · rfl
  · obtain ⟨leaf, xs, found, held, nonempty, before, split⟩ := rightmostLeaf_spec balanced
    rw [last, found, ok_bind, held, ok_bind, split, List.getLast?_append_of_ne_nil _ nonempty]
    rfl

/-! ## Updating the ends -/

theorem updateLastOfLast_concat (f : T → T) (init : List (SumTree T S)) (last : SumTree T S) :
    updateLastOfLast f (init ++ [last]) = do
      let (last, updated) ← updateLastRecursive f last
      return (init ++ [last], updated) := by
  induction init with
  | nil => rfl
  | cons tree init ih =>
    have step : updateLastOfLast f (tree :: (init ++ [last])) = do
        let (trees, updated) ← updateLastOfLast f (init ++ [last])
        return (tree :: trees, updated) := by
      cases h : init ++ [last] with
      | nil => simp at h
      | cons next rest => rfl
    rw [List.cons_append, step, ih]
    cases updateLastRecursive f last with
    | error e => rfl
    | ok result => rfl

variable [LawfulSummary S]

theorem updateLastRecursive_spec (f : T → T) {h : Nat} {tree : SumTree T S} (balanced : Balanced h tree) :
    ∃ tree', updateLastRecursive f tree = .ok (tree', some tree'.summary) ∧ Balanced h tree' := by
  induction balanced with
  | @leaf items nonempty fits =>
    obtain ⟨init, item, rfl⟩ := (List.eq_nil_or_concat' items).resolve_left nonempty
    refine ⟨_, ?_, balanced_leaf (init ++ [f item]) (by simp) (by simpa using fits)⟩
    simp [updateLastRecursive, summary]
  | @internal h trees nonempty fits below ih =>
    obtain ⟨init, last, rfl⟩ := (List.eq_nil_or_concat' trees).resolve_left nonempty
    obtain ⟨last', updated, lastBalanced⟩ := ih last (by simp)
    have below' : ∀ tree ∈ init ++ [last'], Balanced h tree := by
      intro tree mem
      rcases List.mem_append.mp mem with mem | mem
      · exact below tree (by simp [mem])
      · rwa [List.mem_singleton.mp mem]
    refine ⟨_, ?_, balanced_internal (by simp) (by simpa using fits) below'⟩
    have pushed : updateLastOfLast f (init ++ [last]) = .ok (init ++ [last'], some last'.summary) := by
      rw [updateLastOfLast_concat, updated]
      rfl
    have present : unwrap ((init ++ [last]).map summary).getLast? = .ok last.summary := by
      simp [unwrap]
    rw [updateLastRecursive, present, ok_bind, pushed, ok_bind]
    simp only [unwrap_some, ok_bind]
    rw [setLast_map_concat, ok_bind]
    rfl

theorem updateFirstRecursive_spec (f : T → T) {h : Nat} {tree : SumTree T S} (balanced : Balanced h tree) :
    ∃ tree', updateFirstRecursive f tree = .ok (tree', some tree'.summary) ∧ Balanced h tree' := by
  induction balanced with
  | @leaf items nonempty fits =>
    obtain ⟨item, rest, rfl⟩ := List.exists_cons_of_ne_nil nonempty
    exact ⟨_, rfl, balanced_leaf (f item :: rest) (by simp) (by simpa using fits)⟩
  | @internal h trees nonempty fits below ih =>
    obtain ⟨first, rest, rfl⟩ := List.exists_cons_of_ne_nil nonempty
    obtain ⟨first', updated, firstBalanced⟩ := ih first (by simp)
    have below' : ∀ tree ∈ first' :: rest, Balanced h tree := by
      intro tree mem
      rcases List.mem_cons.mp mem with rfl | mem
      · exact firstBalanced
      · exact below tree (by simp [mem])
    refine ⟨_, ?_, balanced_internal (by simp) (by simpa using fits) below'⟩
    simp [updateFirstRecursive, updated, unwrap, ok_bind, setFirst, summary, pure, Except.pure]

theorem updateLast_wellFormed (f : T → T) {tree : SumTree T S} (wellFormed : WellFormed tree) :
    ∃ tree', updateLast tree f = .ok tree' ∧ WellFormed tree' := by
  rcases wellFormed with rfl | ⟨h, balanced⟩
  · exact ⟨new, rfl, .inl rfl⟩
  · obtain ⟨tree', updated, balanced'⟩ := updateLastRecursive_spec f balanced
    exact ⟨tree', by rw [updateLast, updated]; rfl, .inr ⟨h, balanced'⟩⟩

theorem updateFirst_wellFormed (f : T → T) {tree : SumTree T S} (wellFormed : WellFormed tree) :
    ∃ tree', updateFirst tree f = .ok tree' ∧ WellFormed tree' := by
  rcases wellFormed with rfl | ⟨h, balanced⟩
  · exact ⟨new, rfl, .inl rfl⟩
  · obtain ⟨tree', updated, balanced'⟩ := updateFirstRecursive_spec f balanced
    exact ⟨tree', by rw [updateFirst, updated]; rfl, .inr ⟨h, balanced'⟩⟩

end Pinrail.SumTree

import Mathlib.Data.List.TakeWhile
import Pinrail.Lib.Comparators
import Pinrail.Lib.Rust

/-!
# Extending a sorted vector

`extend_sorted` against the merge of all items, cut at the limit at the end.
-/

namespace Pinrail.Util

open Lib Std

variable {T : Type} {cmp : T → T → Ordering} {vec merged newItems : List T} {limit : Nat} {x y : T}

/-- `binary_search_by` on a sorted slice: where the match is, or where it would be inserted. -/
def binarySearchBy (f : T → Ordering) (xs : List T) : Except Nat Nat :=
  let i := (xs.takeWhile fun m => f m = .lt).length
  match xs[i]? with
  | some m => if f m = .eq then .ok i else .error i
  | none => .error i

/-- `Vec::insert`. -/
def insertAt (xs : List T) (i : Nat) (x : T) : Except Panic (List T) := do
  assert (i ≤ xs.length)
  return xs.take i ++ x :: xs.drop i

def extendStep (cmp : T → T → Ordering) (limit : Nat) (state : List T × Nat) (newItem : T) :
    Except Panic (List T × Nat) := do
  let (vec, startIndex) := state
  match binarySearchBy (fun m => cmp m newItem) (← sliceFrom vec startIndex) with
  | .ok _ => return (vec, startIndex)
  | .error i =>
    let index := startIndex + i
    if vec.length < limit then
      return (← insertAt vec index newItem, index)
    else if index < vec.length then
      return (← insertAt vec.dropLast index newItem, index)
    else
      return (vec, index)

def extendSorted (vec newItems : List T) (limit : Nat) (cmp : T → T → Ordering) : Except Panic (List T) := do
  let (vec, _) ← newItems.foldlM (extendStep cmp limit) (vec, 0)
  return vec

/-! ## Merging -/

def mergeItem (cmp : T → T → Ordering) (xs : List T) (x : T) : List T :=
  match xs with
  | [] => [x]
  | y :: ys =>
    match cmp y x with
    | .lt => y :: mergeItem cmp ys x
    | .eq => y :: ys
    | .gt => x :: y :: ys

theorem mem_mergeItem_of_mem (member : y ∈ merged) : y ∈ mergeItem cmp merged x := by
  induction merged with
  | nil => cases member
  | cons z merged ih =>
    rw [mergeItem]
    cases cmp z x with
    | lt =>
      rcases List.mem_cons.mp member with rfl | later
      · exact List.mem_cons_self
      · exact List.mem_cons_of_mem _ (ih later)
    | eq => exact member
    | gt => exact List.mem_cons_of_mem _ member

theorem of_mem_mergeItem (member : y ∈ mergeItem cmp merged x) : y ∈ merged ∨ y = x := by
  induction merged with
  | nil => exact .inr (List.mem_singleton.mp member)
  | cons z merged ih =>
    rw [mergeItem] at member
    cases order : cmp z x with
    | lt =>
      rw [order] at member
      rcases List.mem_cons.mp member with rfl | later
      · exact .inl List.mem_cons_self
      · exact (ih later).imp_left (List.mem_cons_of_mem _)
    | eq =>
      rw [order] at member
      exact .inl member
    | gt =>
      rw [order] at member
      exact (List.mem_cons.mp member).symm

theorem exists_mem_mergeItem (cmp : T → T → Ordering) [OrientedCmp cmp] (merged : List T) (x : T) :
    ∃ y ∈ mergeItem cmp merged x, cmp y x = .eq := by
  have self : cmp x x = .eq := ReflCmp.compare_self
  induction merged with
  | nil => exact ⟨x, List.mem_singleton_self x, self⟩
  | cons z merged ih =>
    rw [mergeItem]
    cases order : cmp z x with
    | lt =>
      obtain ⟨y, member, same⟩ := ih
      exact ⟨y, List.mem_cons_of_mem _ member, same⟩
    | eq => exact ⟨z, List.mem_cons_self, order⟩
    | gt => exact ⟨x, List.mem_cons_self, self⟩

theorem mergeItem_sorted [TransCmp cmp] (sorted : merged.Pairwise fun a b => cmp a b = .lt) (x : T) :
    (mergeItem cmp merged x).Pairwise fun a b => cmp a b = .lt := by
  induction merged with
  | nil => exact List.pairwise_singleton _ _
  | cons z merged ih =>
    obtain ⟨first, sorted'⟩ := List.pairwise_cons.mp sorted
    rw [mergeItem]
    cases order : cmp z x with
    | lt =>
      refine List.pairwise_cons.mpr ⟨fun y member => ?_, ih sorted'⟩
      rcases of_mem_mergeItem member with old | rfl
      · exact first y old
      · exact order
    | eq => exact sorted
    | gt =>
      have before : cmp x z = .lt := OrientedCmp.lt_of_gt order
      refine List.pairwise_cons.mpr ⟨List.forall_mem_cons.mpr ⟨before, fun y member => ?_⟩, sorted⟩
      exact TransCmp.lt_trans before (first y member)

theorem mergeItem_append {front back : List T} (less : ∀ y ∈ front, cmp y x = .lt) :
    mergeItem cmp (front ++ back) x = front ++ mergeItem cmp back x := by
  induction front with
  | nil => rfl
  | cons y front ih =>
    obtain ⟨here, later⟩ := List.forall_mem_cons.mp less
    rw [List.cons_append, mergeItem, here]
    exact congrArg (y :: ·) (ih later)

def mergeItems (cmp : T → T → Ordering) (vec newItems : List T) : List T := newItems.foldl (mergeItem cmp) vec

structure Merged (cmp : T → T → Ordering) (vec newItems merged : List T) : Prop where
  sorted : merged.Pairwise fun a b => cmp a b = .lt
  keeps : ∀ x ∈ vec, x ∈ merged
  known : ∀ x ∈ merged, x ∈ vec ∨ x ∈ newItems
  covers : ∀ x ∈ newItems, ∃ y ∈ merged, cmp y x = .eq

theorem mergeItems_merged [TransCmp cmp] (sorted : vec.Pairwise fun a b => cmp a b = .lt) (newItems : List T) :
    Merged cmp vec newItems (mergeItems cmp vec newItems) := by
  induction newItems generalizing vec with
  | nil => exact ⟨sorted, fun _ => id, fun _ => .inl, by simp⟩
  | cons x newItems ih =>
    have merged := ih (mergeItem_sorted sorted x)
    refine ⟨merged.sorted, ?_, ?_, ?_⟩
    · exact fun y member => merged.keeps y (mem_mergeItem_of_mem member)
    · intro y member
      rcases merged.known y member with old | new
      · rcases of_mem_mergeItem old with old | rfl
        · exact .inl old
        · exact .inr List.mem_cons_self
      · exact .inr (List.mem_cons_of_mem _ new)
    · refine List.forall_mem_cons.mpr ⟨?_, merged.covers⟩
      obtain ⟨y, member, same⟩ := exists_mem_mergeItem cmp vec x
      exact ⟨y, merged.keeps y member, same⟩

/-! ## The loop -/

theorem binarySearchBy_nil {f : T → Ordering} {xs : List T} (less : ∀ y ∈ xs, f y = .lt) :
    binarySearchBy f xs = .error xs.length := by
  have all : xs.takeWhile (fun m => f m = .lt) = xs := by
    rw [List.takeWhile_eq_self_iff]
    exact fun y member => decide_eq_true (less y member)
  simp only [binarySearchBy, all, List.getElem?_length]

theorem binarySearchBy_cons {f : T → Ordering} {front back : List T} (less : ∀ y ∈ front, f y = .lt)
    (here : f y ≠ .lt) :
    binarySearchBy f (front ++ y :: back) = if f y = .eq then .ok front.length else .error front.length := by
  have split : (front ++ y :: back).takeWhile (fun m => f m = .lt) = front := by
    rw [List.takeWhile_append_of_pos fun z member => decide_eq_true (less z member),
      List.takeWhile_cons_of_neg (by simpa using here), List.append_nil]
  have found : (front ++ y :: back)[front.length]? = some y := by simp
  simp only [binarySearchBy, split, found]

theorem insertAt_append (front back : List T) (x : T) :
    insertAt (front ++ back) front.length x = .ok (front ++ x :: back) := by
  rw [insertAt, assert_of (by simp), ok_bind, List.take_left, List.drop_left]
  rfl

structure Extending (cmp : T → T → Ordering) (limit : Nat) (merged : List T) (state : List T × Nat) (x : T) : Prop where
  vec : state.1 = merged.take limit
  inside : state.2 ≤ state.1.length
  passed : ∀ y ∈ state.1.take state.2, cmp y x = .lt

theorem Extending.later [TransCmp cmp] {state : List T × Nat} (extending : Extending cmp limit merged state x)
    (later : (cmp x y).isLE) : Extending cmp limit merged state y where
  vec := extending.vec
  inside := extending.inside
  passed z member := TransCmp.lt_of_lt_of_isLE (extending.passed z member) later

theorem extending_at (front back : List T) (limit : Nat) (less : ∀ y ∈ front, cmp y x = .lt) (index : Nat)
    (inside : index ≤ ((front ++ back).take limit).length) (reached : index ≤ front.length) :
    Extending cmp limit (front ++ back) ((front ++ back).take limit, index) x where
  vec := rfl
  inside := inside
  passed y member := by
    rw [List.take_take] at member
    rw [List.take_append_of_le_length (Nat.le_trans (Nat.min_le_left index limit) reached)] at member
    exact less y (List.mem_of_mem_take member)

theorem exists_split (cmp : T → T → Ordering) (merged : List T) (x : T) : ∃ front back, merged = front ++ back ∧
    (∀ y ∈ front, cmp y x = .lt) ∧ ∀ y ∈ back.head?, cmp y x ≠ .lt := by
  induction merged with
  | nil => exact ⟨[], [], rfl, by simp, by simp⟩
  | cons y merged ih =>
    by_cases less : cmp y x = .lt
    · obtain ⟨front, back, rfl, before, stops⟩ := ih
      exact ⟨y :: front, back, rfl, List.forall_mem_cons.mpr ⟨less, before⟩, stops⟩
    · exact ⟨[], y :: merged, rfl, by simp, by simpa using less⟩

theorem extendStep_full {front back : List T} {start : Nat} (less : ∀ y ∈ front, cmp y x = .lt)
    (full : limit ≤ front.length) (inside : start ≤ limit) :
    extendStep cmp limit ((front ++ back).take limit, start) x = .ok ((front ++ back).take limit, limit) := by
  have vec : (front ++ back).take limit = front.take limit := List.take_append_of_le_length full
  have length : (front.take limit).length = limit := List.length_take_of_le full
  have search : binarySearchBy (fun m => cmp m x) ((front.take limit).drop start) = .error (limit - start) := by
    rw [binarySearchBy_nil fun y member => less y (List.mem_of_mem_take (List.mem_of_mem_drop member)),
      List.length_drop, length]
  rw [vec, extendStep, sliceFrom, length, if_pos inside, ok_bind, search]
  dsimp only
  rw [if_neg (Nat.lt_irrefl _), if_neg (by omega), Nat.add_sub_cancel' inside]
  rfl

theorem extendStep_end {front : List T} {start : Nat} (less : ∀ y ∈ front, cmp y x = .lt) (room : front.length < limit)
    (inside : start ≤ front.length) : extendStep cmp limit (front, start) x = .ok (front ++ [x], front.length) := by
  have search : binarySearchBy (fun m => cmp m x) (front.drop start) = .error (front.length - start) := by
    rw [binarySearchBy_nil fun y member => less y (List.mem_of_mem_drop member), List.length_drop]
  have insert := insertAt_append front [] x
  rw [List.append_nil] at insert
  rw [extendStep, sliceFrom, if_pos inside, ok_bind, search]
  dsimp only
  rw [if_pos room, Nat.add_sub_cancel' inside, insert]
  rfl

theorem search_rest {front back : List T} {start : Nat} (less : ∀ y ∈ front, cmp y x = .lt) (stops : cmp y x ≠ .lt)
    (inside : start ≤ front.length) : binarySearchBy (fun m => cmp m x) ((front ++ y :: back).drop start) =
      if cmp y x = .eq then .ok (front.length - start) else .error (front.length - start) := by
  rw [List.drop_append_of_le_length inside, binarySearchBy_cons
    (fun z member => less z (List.mem_of_mem_drop member)) stops, List.length_drop]

theorem extendStep_found {front back : List T} {start : Nat} (less : ∀ y ∈ front, cmp y x = .lt)
    (same : cmp y x = .eq) (inside : start ≤ front.length) :
    extendStep cmp limit (front ++ y :: back, start) x = .ok (front ++ y :: back, start) := by
  have stops : cmp y x ≠ .lt := by
    rw [same]
    decide
  rw [extendStep, sliceFrom, if_pos (by rw [List.length_append]; omega), ok_bind, search_rest less stops inside,
    if_pos same]
  rfl

theorem extendStep_insert {front back : List T} {start : Nat} (less : ∀ y ∈ front, cmp y x = .lt)
    (greater : cmp y x = .gt) (inside : start ≤ front.length) (short : (front ++ y :: back).length ≤ limit) :
    extendStep cmp limit (front ++ y :: back, start) x = .ok ((front ++ x :: y :: back).take limit, front.length) := by
  have stops : cmp y x ≠ .lt := by
    rw [greater]
    decide
  have other : cmp y x ≠ .eq := by
    rw [greater]
    decide
  rw [extendStep, sliceFrom, if_pos (by rw [List.length_append]; omega), ok_bind, search_rest less stops inside,
    if_neg other]
  dsimp only
  rw [Nat.add_sub_cancel' inside]
  rw [List.length_append, List.length_cons] at short ⊢
  by_cases room : front.length + (back.length + 1) < limit
  · rw [if_pos room, insertAt_append, List.take_of_length_le]
    · rfl
    · simp only [List.length_append, List.length_cons]
      omega
  · have cut : limit - front.length = back.length + 1 := by omega
    rw [if_neg room, if_pos (by omega), List.dropLast_append_of_ne_nil (by simp), insertAt_append,
      List.take_append, List.take_of_length_le (by omega), cut, List.take_succ_cons, List.dropLast_eq_take,
      List.length_cons, Nat.add_sub_cancel]
    rfl

theorem take_append_cons {front back : List T} (room : front.length < limit) :
    (front ++ y :: back).take limit = front ++ y :: back.take (limit - front.length - 1) := by
  have positive : limit - front.length = limit - front.length - 1 + 1 := by omega
  rw [List.take_append, List.take_of_length_le (Nat.le_of_lt room), positive, List.take_succ_cons]
  rfl

theorem start_le {front back : List T} {start : Nat} (room : front.length < limit)
    (stops : ∀ y ∈ back.head?, cmp y x ≠ .lt) (inside : start ≤ ((front ++ back).take limit).length)
    (passed : ∀ y ∈ ((front ++ back).take limit).take start, cmp y x = .lt) : start ≤ front.length := by
  by_contra beyond
  cases back with
  | nil =>
    rw [List.append_nil, List.take_of_length_le (Nat.le_of_lt room)] at inside
    exact beyond inside
  | cons y back =>
    apply stops y (by simp)
    apply passed
    rw [take_append_cons room, take_append_cons (Nat.lt_of_not_le beyond)]
    exact List.mem_append_right _ List.mem_cons_self

theorem Extending.step [TransCmp cmp] {state : List T × Nat} (extending : Extending cmp limit merged state x) :
    ∃ state', extendStep cmp limit state x = .ok state' ∧ Extending cmp limit (mergeItem cmp merged x) state' x := by
  obtain ⟨vec, start⟩ := state
  obtain ⟨vecEq, inside, passed⟩ := extending
  dsimp only at vecEq inside passed
  subst vecEq
  obtain ⟨front, back, rfl, less, stops⟩ := exists_split cmp merged x
  rw [mergeItem_append less]
  rcases Nat.lt_or_ge front.length limit with room | full
  · have reached := start_le room stops inside passed
    cases back with
    | nil =>
      refine ⟨(front ++ [x], front.length), ?_, ?_⟩
      · rw [List.append_nil, List.take_of_length_le (Nat.le_of_lt room)]
        exact extendStep_end less room reached
      · have whole : (front ++ [x]).take limit = front ++ [x] := by
          rw [take_append_cons room, List.take_nil]
        have extended := extending_at front [x] limit less front.length
          (by rw [whole, List.length_append]; omega) (Nat.le_refl _)
        rw [whole] at extended
        exact extended
    | cons y back =>
      have vec : (front ++ y :: back).take limit = _ := take_append_cons room
      cases order : cmp y x with
      | lt => exact absurd order (stops y (by simp))
      | eq =>
        refine ⟨((front ++ y :: back).take limit, start), ?_, ?_⟩
        · rw [vec]
          exact extendStep_found less order reached
        · rw [mergeItem, order]
          exact extending_at front _ limit less start inside reached
      | gt =>
        have short : (front ++ y :: back.take (limit - front.length - 1)).length ≤ limit := by
          rw [← vec, List.length_take]
          omega
        have cut : (front ++ x :: y :: back.take (limit - front.length - 1)).take limit =
            (front ++ x :: y :: back).take limit := by
          rw [take_append_cons room, take_append_cons room]
          cases limit - front.length - 1 with
          | zero => rfl
          | succ n =>
            rw [List.take_succ_cons, List.take_succ_cons, List.take_take, Nat.min_eq_left (Nat.le_succ n)]
        refine ⟨((front ++ x :: y :: back).take limit, front.length), ?_, ?_⟩
        · rw [vec, ← cut]
          exact extendStep_insert less order reached short
        · rw [mergeItem, order]
          exact extending_at front _ limit less front.length (by rw [take_append_cons room, List.length_append]; omega)
            (Nat.le_refl _)
  · have start_le_limit : start ≤ limit := by
      rw [List.length_take] at inside
      omega
    refine ⟨((front ++ back).take limit, limit), extendStep_full less full start_le_limit, ?_⟩
    have same : (front ++ back).take limit = (front ++ mergeItem cmp back x).take limit := by
      rw [List.take_append_of_le_length full, List.take_append_of_le_length full]
    rw [same]
    refine extending_at front _ limit less limit ?_ full
    rw [List.take_append_of_le_length full, List.length_take]
    omega

theorem Extending.run [TransCmp cmp] {state : List T × Nat} (vec : state.1 = merged.take limit)
    (sorted : newItems.Pairwise fun a b => (cmp a b).isLE)
    (extending : ∀ x ∈ newItems.head?, Extending cmp limit merged state x) :
    ∃ start, newItems.foldlM (extendStep cmp limit) state =
      .ok ((mergeItems cmp merged newItems).take limit, start) := by
  induction newItems generalizing merged state with
  | nil =>
    refine ⟨state.2, ?_⟩
    show Except.ok state = Except.ok (merged.take limit, state.2)
    rw [← vec]
  | cons x newItems ih =>
    obtain ⟨first, sorted⟩ := List.pairwise_cons.mp sorted
    obtain ⟨state', stepped, extending'⟩ := (extending x (by simp)).step
    rw [List.foldlM_cons, stepped, ok_bind]
    refine ih extending'.vec sorted fun y next => extending'.later (first y ?_)
    exact List.mem_of_mem_head? next

/-- `extend_sorted` leaves the first items of the merge without duplicates, and no index is out of range. -/
theorem extendSorted_merges [TransCmp cmp] (vec newItems : List T) (limit : Nat)
    (sorted : vec.Pairwise fun a b => cmp a b = .lt) (sorted' : newItems.Pairwise fun a b => (cmp a b).isLE)
    (short : vec.length ≤ limit) :
    ∃ merged, extendSorted vec newItems limit cmp = .ok (merged.take limit) ∧ Merged cmp vec newItems merged := by
  have whole : vec = vec.take limit := (List.take_of_length_le short).symm
  have start : ∀ x ∈ newItems.head?, Extending cmp limit vec (vec, 0) x := fun x _ => ⟨whole, Nat.zero_le _, by simp⟩
  obtain ⟨index, ran⟩ := Extending.run whole sorted' start
  refine ⟨mergeItems cmp vec newItems, ?_, mergeItems_merged sorted newItems⟩
  rw [extendSorted, ran, ok_bind]
  rfl

/-- Falling numbers, some of which are there already. -/
theorem extendSorted_merges_numbers : ∃ merged, extendSorted [101, 21, 19, 17]
    [1000, 19, 19, 18, 5] 5 (fun a b : Nat => compare b a) = .ok (merged.take 5) ∧ Merged (fun a b : Nat => compare b a)
    [101, 21, 19, 17] [1000, 19, 19, 18, 5] merged := by
  exact extendSorted_merges _ _ _ (by decide) (by decide) (by decide)

example : extendSorted [101, 21, 19, 17] [1000, 19, 19, 18, 5] 5 (fun a b : Nat => compare b a) =
    .ok [1000, 101, 21, 19, 18] := rfl

end Pinrail.Util

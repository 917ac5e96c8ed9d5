import Mathlib.Algebra.BigOperators.Group.List.Basic
import Mathlib.Algebra.GroupWithZero.Nat
import Mathlib.Algebra.Order.BigOperators.Group.List

/-!
# Items at running offsets

Items with sizes stand one behind the other, each at the sum of the sizes before it. A stretch of
offsets selects the items that start in it; the weight of a stretch is the sum of theirs.
-/

namespace Pinrail.Lib

universe u v
variable {α : Type u} {W : Type v}

section Placed

variable (size : α → Nat)

def extent (items : List α) : Nat := (items.map size).sum

def placedFrom : Nat → List α → List (Nat × α)
  | _, [] => []
  | start, a :: rest => (start, a) :: placedFrom (start + size a) rest

variable {size}

theorem extent_append (front back : List α) : extent size (front ++ back) = extent size front + extent size back := by
  simp [extent]

theorem extent_cons (a : α) (rest : List α) : extent size (a :: rest) = size a + extent size rest := by
  simp [extent]

theorem placedFrom_append (start : Nat) (front back : List α) : placedFrom size start (front ++ back) =
      placedFrom size start front ++ placedFrom size (start + extent size front) back := by
  induction front generalizing start with
  | nil => simp [placedFrom, extent]
  | cons a front ih =>
    rw [List.cons_append, placedFrom, placedFrom, ih, List.cons_append, extent_cons, Nat.add_assoc]

theorem placedFrom_within {start : Nat} {items : List α} {item : Nat × α}
    (member : item ∈ placedFrom size start items) :
    start ≤ item.1 ∧ item.1 + size item.2 ≤ start + extent size items := by
  induction items generalizing start with
  | nil => cases member
  | cons a rest ih =>
    rw [extent_cons]
    rcases List.mem_cons.mp member with rfl | member
    · exact ⟨Nat.le_refl _, by dsimp only; omega⟩
    · have within := ih member
      omega

theorem placedFrom_snd_mem {start : Nat} {items : List α} {item : Nat × α}
    (member : item ∈ placedFrom size start items) : item.2 ∈ items := by
  induction items generalizing start with
  | nil => cases member
  | cons a rest ih =>
    rcases List.mem_cons.mp member with rfl | member
    · exact List.mem_cons_self
    · exact List.mem_cons_of_mem _ (ih member)

end Placed

section Between

/-- The items that start at an offset from `first` on and before `last`. -/
def between (first last : Nat) (items : List (Nat × α)) : List (Nat × α) :=
  items.filter fun item => first ≤ item.1 && item.1 < last

variable {first middle last : Nat} {items front back : List (Nat × α)}

theorem mem_between {item : Nat × α} :
    item ∈ between first last items ↔ item ∈ items ∧ first ≤ item.1 ∧ item.1 < last := by
  simp [between]

theorem between_append : between first last (front ++ back) =
    between first last front ++ between first last back := List.filter_append ..

theorem between_eq_nil (outside : ∀ item ∈ items, item.1 < first ∨ last ≤ item.1) : between first last items = [] := by
  rw [between, List.filter_eq_nil_iff]
  intro item member inside
  have := outside item member
  simp only [Bool.and_eq_true, decide_eq_true_eq] at inside
  omega

theorem between_append_left (behind : ∀ item ∈ back, last ≤ item.1) :
    between first last (front ++ back) = between first last front := by
  rw [between_append, between_eq_nil fun item member => .inr (behind item member), List.append_nil]

theorem between_extend (before : ∀ item ∈ items, item.1 < middle) (le : middle ≤ last) :
    between first last items = between first middle items := by
  apply List.filter_congr
  intro item member
  have inside := before item member
  have insideLast : item.1 < last := by omega
  rw [decide_eq_true inside, decide_eq_true insideLast]

theorem between_snoc {item : Nat × α} (starts : first ≤ item.1) (ends : item.1 < last) :
    between first last (items ++ [item]) = between first last items ++ [item] := by
  rw [between_append]
  congr 1
  simp [between, starts, ends]

theorem between_sublist (le : middle ≤ last) : (between first middle items).Sublist (between first last items) := by
  apply List.monotone_filter_right
  intro item inside
  simp only [Bool.and_eq_true, decide_eq_true_eq] at inside ⊢
  omega

variable [AddCommMonoid W] (weight : α → W)

def weightBetween (first last : Nat) (items : List (Nat × α)) : W :=
  ((between first last items).map fun item => weight item.2).sum

variable {weight}

theorem weightBetween_add (items : List (Nat × α)) (le : first ≤ middle) (le' : middle ≤ last) :
    weightBetween weight first last items =
      weightBetween weight first middle items + weightBetween weight middle last items := by
  induction items with
  | nil => simp [weightBetween, between]
  | cons item items ih =>
    unfold weightBetween between at ih ⊢
    simp only [List.filter_cons, Bool.and_eq_true, decide_eq_true_eq]
    rcases Nat.lt_or_ge item.1 middle with inFront | inBack
    · have whole : (first ≤ item.1 ∧ item.1 < last) ↔ first ≤ item.1 ∧ item.1 < middle := by omega
      have notBack : ¬ (middle ≤ item.1 ∧ item.1 < last) := by omega
      rw [if_neg notBack, if_congr whole rfl rfl]
      split
      · rw [List.map_cons, List.sum_cons, List.map_cons, List.sum_cons, ih, add_assoc]
      · exact ih
    · have whole : (first ≤ item.1 ∧ item.1 < last) ↔ middle ≤ item.1 ∧ item.1 < last := by omega
      have notFront : ¬ (first ≤ item.1 ∧ item.1 < middle) := by omega
      rw [if_neg notFront, if_congr whole rfl rfl]
      split
      · rw [List.map_cons, List.sum_cons, List.map_cons, List.sum_cons, ih, add_left_comm]
      · exact ih

theorem weightBetween_snoc {item : Nat × α} (starts : first ≤ item.1) (ends : item.1 < last) :
    weightBetween weight first last (items ++ [item]) = weightBetween weight first last items + weight item.2 := by
  rw [weightBetween, between_snoc starts ends, weightBetween]
  simp

end Between

end Pinrail.Lib

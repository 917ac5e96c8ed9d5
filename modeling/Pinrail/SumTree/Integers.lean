import Pinrail.SumTree.Seek

/-!
# Trees of integers

The item and summary types of the tests of `sum_tree.rs`, for concrete runs. Bytes and counts are
natural numbers here.
-/

namespace Pinrail

structure IntegersSummary where
  count : Nat
  sum : Nat
  containsEven : Bool
  max : Nat
deriving DecidableEq

instance : Summary IntegersSummary where
  zero := ⟨0, 0, false, 0⟩
  addSummary a b := ⟨a.count + b.count, a.sum + b.sum, a.containsEven || b.containsEven, Max.max a.max b.max⟩

instance : LawfulSummary IntegersSummary where
  assoc a b c := by
    simp [Summary.addSummary, Nat.add_assoc, Bool.or_assoc, Nat.max_assoc]
  zero_add a := by
    simp [Summary.addSummary, Summary.zero]

instance : Item Nat IntegersSummary where
  summary n := ⟨1, n, n % 2 == 0, n⟩

structure Count where
  value : Nat
deriving DecidableEq

instance : Dimension IntegersSummary Count where
  zero := ⟨0⟩
  addSummary d s := ⟨d.value + s.count⟩

instance : LawfulDimension IntegersSummary Count where
  add_add d a b := by
    simp [Dimension.addSummary, Summary.addSummary, Nat.add_assoc]

instance : Ord Count where
  compare a b := compare a.value b.value

theorem measure_count (xs : List Nat) : (measure xs : Count) = ⟨xs.length⟩ := by
  induction xs using List.reverseRecOn with
  | nil => rfl
  | append_singleton xs n ih =>
    rw [← Cursor.measure_concat, ih, List.length_append]
    rfl

theorem monotone_count (target : Count) (bias : Bias) (xs : List Nat) : Cursor.Monotone (.ofOrd target) bias xs := by
  intro before between _ pass
  simp only [SeekTarget.passes, SeekTarget.ofOrd, compare, measure_count, List.length_append,
    Bool.or_eq_true, Bool.and_eq_true, beq_iff_eq, compareOfLessAndEq] at pass ⊢
  grind

def single : SumTree Nat IntegersSummary := .leaf ⟨1, 1, false, 1⟩ [1] [⟨1, 1, false, 1⟩]

theorem single_wellFormed : SumTree.WellFormed single := .inr ⟨0, SumTree.balanced_leaf [1] (by simp) (by decide)⟩

/-! ## Two levels -/

section Leaves

variable {T S : Type} [Summary S] [Item T S]

def leafOf (items : List T) : SumTree T S :=
  .leaf (Summary.sum (items.map Item.summary)) items (items.map Item.summary)

/-- One node over leaves with these items. -/
def ofLeaves (leaves : List (List T)) : SumTree T S :=
  .internal 1 (Summary.sum ((leaves.map leafOf).map SumTree.summary))
    ((leaves.map leafOf).map SumTree.summary) (leaves.map leafOf)

theorem ofLeaves_wellFormed [LawfulSummary S] {leaves : List (List T)} (nonempty : leaves ≠ [])
    (fits : leaves.length ≤ nodeCapacity) (each : ∀ items ∈ leaves, items ≠ [] ∧ items.length ≤ nodeCapacity) :
    SumTree.WellFormed (ofLeaves leaves : SumTree T S) := by
  refine .inr ⟨1, SumTree.balanced_internal (by simpa using nonempty) (by simpa using fits) ?_⟩
  intro tree mem
  obtain ⟨items, member, rfl⟩ := List.mem_map.mp mem
  obtain ⟨some_, few⟩ := each items member
  exact SumTree.balanced_leaf items some_ few

end Leaves

def thirteen : SumTree Nat IntegersSummary := ofLeaves [[1, 2, 3, 4, 5, 6, 7], [8, 9, 10, 11, 12, 13]]

theorem thirteen_wellFormed : SumTree.WellFormed thirteen := ofLeaves_wellFormed (by decide) (by decide) (by decide)

/-! ## High trees -/

section Tower

variable {T S : Type} [Summary S] [Item T S]

/-- A tree with one item below `h` nodes that have one child each. -/
def tower (item : T) : Nat → SumTree T S
  | 0 => .leaf (Item.summary item) [item] [Item.summary item]
  | h + 1 => .internal (h + 1) (Item.summary item) [Item.summary item] [tower item h]

omit [Summary S] in
theorem tower_summary (item : T) (h : Nat) : (tower item h).summary = Item.summary item := by
  cases h <;> rfl

theorem tower_balanced [LawfulSummary S] (item : T) (h : Nat) : SumTree.Balanced h (tower item h) := by
  induction h with
  | zero =>
    have balanced := SumTree.balanced_leaf (S := S) [item] (by simp) (show 1 ≤ nodeCapacity by decide)
    rwa [List.map_singleton, Summary.sum_singleton] at balanced
  | succ h ih =>
    have balanced := SumTree.balanced_internal (show [tower item h] ≠ [] by simp)
      (show 1 ≤ nodeCapacity by decide) (fun tree mem => by rwa [List.mem_singleton.mp mem])
    rwa [List.map_singleton, tower_summary, Summary.sum_singleton] at balanced

theorem tower_wellFormed [LawfulSummary S] (item : T) (h : Nat) :
    SumTree.WellFormed (tower item h) := .inr ⟨h, tower_balanced item h⟩

end Tower

end Pinrail

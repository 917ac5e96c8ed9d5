import Mathlib.Data.List.Sort
import Mathlib.Order.Bounds.Basic

/-!
# Ranked lists

A stable sort by a comparison, the part of a list that ranks before an element of it, and the scan
of a range of numbers from its end.
-/

namespace Pinrail.Lib

variable {α : Type}

/-- `sort_by`, a stable sort. -/
def sortBy (cmp : α → α → Ordering) (xs : List α) : List α :=
  xs.insertionSort fun a b => (cmp a b).isLE = true

theorem perm_sortBy {cmp : α → α → Ordering} {xs : List α} : (sortBy cmp xs).Perm xs := List.perm_insertionSort _ xs

theorem mem_sortBy {cmp : α → α → Ordering} {xs : List α} {a : α} : a ∈ sortBy cmp xs ↔ a ∈ xs := perm_sortBy.mem_iff

theorem sorted_sortBy {cmp : α → α → Ordering} {xs : List α}
    (total : ∀ a b, (cmp a b).isLE = true ∨ (cmp b a).isLE = true)
    (trans : ∀ a b c, (cmp a b).isLE = true → (cmp b c).isLE = true → (cmp a c).isLE = true) :
    (sortBy cmp xs).Pairwise fun a b => (cmp a b).isLE = true := by
  let _ : Std.Total fun a b => (cmp a b).isLE = true := ⟨total⟩
  let _ : IsTrans α fun a b => (cmp a b).isLE = true := ⟨trans⟩
  exact List.pairwise_insertionSort _ xs

theorem isLE_compare {κ : Type} [LinearOrder κ] {a b : κ} : (compare a b).isLE = true ↔ a ≤ b := by
  rw [Ordering.isLE_iff_ne_gt]
  exact compare_le_iff_le

theorem sorted_sortBy_key {κ : Type} [LinearOrder κ] (key : α → κ) (xs : List α) :
    (sortBy (fun a b => compare (key a) (key b)) xs).Pairwise fun a b => key a ≤ key b := by
  simp only [← isLE_compare]
  apply sorted_sortBy
  · intro a b
    simp only [isLE_compare]
    exact le_total _ _
  · intro a b c
    simp only [isLE_compare]
    exact le_trans

theorem pairwise_sortBy {cmp : α → α → Ordering} {before : α → α → Prop} {xs : List α}
    (total : ∀ a b, (cmp a b).isLE = true ∨ (cmp b a).isLE = true)
    (trans : ∀ a b c, (cmp a b).isLE = true → (cmp b c).isLE = true → (cmp a c).isLE = true)
    (apart : xs.Pairwise fun a b => before a b ∨ before b a)
    (decides : ∀ a b, (cmp a b).isLE = true → before a b ∨ before b a → before a b) :
    (sortBy cmp xs).Pairwise before := by
  have ranked : (sortBy cmp xs).Pairwise fun a b => before a b ∨ before b a := perm_sortBy.symm.pairwise apart Or.symm
  exact (sorted_sortBy total trans).imp₂ decides ranked

theorem mem_left_iff {before : α → α → Prop} (asymm : ∀ a b, before a b → ¬ before b a) {left right : List α} {a x : α}
    (ranked : (left ++ a :: right).Pairwise before) : x ∈ left ↔ x ∈ left ++ a :: right ∧ before x a := by
  obtain ⟨-, tail, across⟩ := List.pairwise_append.mp ranked
  constructor
  · intro mem
    exact ⟨List.mem_append_left _ mem, across x mem a (by simp)⟩
  · rintro ⟨mem, ranks⟩
    rcases List.mem_append.mp mem with mem | mem
    · exact mem
    · rcases List.mem_cons.mp mem with rfl | mem
      · exact absurd ranks (asymm _ _ ranks)
      · exact absurd ranks (asymm _ _ (List.rel_of_pairwise_cons tail mem))

theorem pairwise_zipIdx (xs : List α) : xs.zipIdx.Pairwise fun a b => a.2 < b.2 := by
  have indices : (xs.zipIdx.map Prod.snd).Pairwise (· < ·) := by
    rw [List.zipIdx_map_snd]
    exact List.pairwise_lt_range'
  exact List.pairwise_map.mp indices

/-! ## Runs of equal keys -/

section Runs

variable {κ : Type} [Ord κ] [Std.TransOrd κ] [Std.LawfulEqOrd κ] [DecidableEq κ] {key : α → κ}

theorem takeWhile_eq_filter {first : α} {others : List α}
    (sorted : (first :: others).Pairwise fun a b => (compare (key a) (key b)).isLE = true) :
    others.takeWhile (fun a => key a = key first) = others.filter fun a => key a = key first := by
  induction others with
  | nil => rfl
  | cons a others ih =>
    obtain ⟨above, sorted'⟩ := List.pairwise_cons.mp sorted
    by_cases same : key a = key first
    · rw [List.takeWhile_cons_of_pos (by simpa using same), List.filter_cons_of_pos (by simpa using same), ih]
      exact sorted.sublist (by simp)
    · rw [List.takeWhile_cons_of_neg (by simpa using same),
        List.filter_cons_of_neg (by simpa using same), eq_comm, List.filter_eq_nil_iff]
      intro b member
      simp only [decide_eq_true_eq]
      intro equal
      -- A later element with the first key would squeeze `a` between equal keys.
      have low := above a (by simp)
      have high := (List.pairwise_cons.mp sorted').1 b member
      rw [equal] at high
      exact same (Std.LawfulEqOrd.compare_eq_iff_eq.mp (Std.OrientedCmp.isLE_antisymm high low))

omit [Std.TransOrd κ] [Std.LawfulEqOrd κ] [DecidableEq κ] in
theorem isLE_of_common_start [Std.ReflOrd κ] {start xs ys : List κ} {x y : κ}
    (le : (compare (start ++ x :: xs) (start ++ y :: ys)).isLE = true) : (compare x y).isLE = true := by
  induction start with
  | nil =>
    rw [List.nil_append, List.nil_append, List.compare_cons_cons] at le
    cases order : compare x y with
    | lt => rfl
    | eq => rfl
    | gt => simp [order, Ordering.then] at le
  | cons z start ih =>
    rw [List.cons_append, List.cons_append, List.compare_cons_cons, Std.ReflOrd.compare_self] at le
    exact ih le

omit [Ord κ] [Std.TransOrd κ] [Std.LawfulEqOrd κ] [DecidableEq κ] in
theorem drop_takeWhile_length {p : α → Bool} (xs : List α) : xs.drop (xs.takeWhile p).length = xs.dropWhile p := by
  induction xs with
  | nil => rfl
  | cons x xs ih =>
    cases hit : p x with
    | false => simp [hit]
    | true => simpa [hit] using ih

theorem cut_run (key : α → κ) {done others : List α} {first : α}
    (sorted : (done ++ first :: others).Pairwise fun a b => (compare (key a) (key b)).isLE = true)
    (apart : ∀ a ∈ done, ∀ b ∈ first :: others, key a ≠ key b) {same rest : List α}
    (same_eq : same = others.takeWhile fun a => key a = key first)
    (rest_eq : rest = others.drop same.length) :
    first :: same = (done ++ first :: others).filter (fun a => key a = key first) ∧
      same ++ rest = others ∧ ∀ a ∈ done ++ first :: same, ∀ b ∈ rest, key a ≠ key b := by
  subst rest_eq same_eq
  have run := takeWhile_eq_filter (sorted.sublist (List.sublist_append_right _ _))
  have none : done.filter (fun a => key a = key first) = [] := by
    rw [List.filter_eq_nil_iff]
    intro a member
    simpa using apart a member first (by simp)
  refine ⟨?_, ?_, ?_⟩
  · rw [List.filter_append, none, List.filter_cons_of_pos (by simp), run, List.nil_append]
  · rw [drop_takeWhile_length, List.takeWhile_append_dropWhile]
  · intro a inA b inB equal
    rw [drop_takeWhile_length] at inB
    have later : b ∈ others := (List.dropWhile_suffix _).subset inB
    rcases List.mem_append.mp inA with inA | inA
    · exact apart a inA b (by simp [later]) equal
    · have first_eq : key a = key first := by
        rcases List.mem_cons.mp inA with rfl | inA
        · rfl
        · rw [run] at inA
          simpa using (List.mem_filter.mp inA).2
      -- The rest would have an element of the run, which was taken whole.
      have whole : (others.dropWhile fun a => key a = key first).filter (fun a => key a = key first) = [] := by
        have split := congrArg (List.filter fun a => key a = key first)
          (List.takeWhile_append_dropWhile (p := fun a => decide (key a = key first)) (l := others))
        rw [List.filter_append, ← run, List.filter_eq_self.mpr] at split
        · simpa using split
        · intro c member
          rw [run] at member
          exact (List.mem_filter.mp member).2
      have hit := List.filter_eq_nil_iff.mp whole b inB
      simp [← equal, first_eq] at hit

end Runs

/-! ## Scanning a range from its end -/

/-- The first hit of `(0..n).rev()`. -/
def rfind (n : Nat) (p : Nat → Bool) : Option Nat := (List.range n).reverse.find? p

theorem rfind_succ (n : Nat) (p : Nat → Bool) :
    rfind (n + 1) p = if p n then some n else rfind n p := by
  rw [rfind, List.range_succ, List.reverse_append, List.reverse_singleton, List.singleton_append, List.find?_cons]
  cases p n <;> rfl

theorem rfind_eq_some {n i : Nat} {p : Nat → Bool} : rfind n p = some i ↔ IsGreatest {j | j < n ∧ p j = true} i := by
  induction n with
  | zero =>
    constructor
    · intro found
      cases found
    · rintro ⟨⟨low, -⟩, -⟩
      cases low
  | succ n ih =>
    rw [rfind_succ]
    split_ifs with hit
    · constructor
      · intro found
        rw [← Option.some.inj found]
        exact ⟨⟨Nat.lt_succ_self n, hit⟩, fun j low => Nat.le_of_lt_succ low.1⟩
      · rintro ⟨⟨low, -⟩, greatest⟩
        have above : n ≤ i := greatest ⟨Nat.lt_succ_self n, hit⟩
        rw [show n = i by omega]
    · rw [ih]
      have same : {j | j < n + 1 ∧ p j = true} = {j | j < n ∧ p j = true} := by
        ext j
        constructor
        · rintro ⟨low, at_⟩
          have other : j ≠ n := by
            rintro rfl
            exact hit at_
          exact ⟨by omega, at_⟩
        · rintro ⟨low, at_⟩
          exact ⟨by omega, at_⟩
      rw [same]

end Pinrail.Lib

import Mathlib.Data.List.Sort
import Mathlib.Order.Basic

/-!
# Lists ordered by a key

A finite map as a list in strictly ascending order of the keys. Every operation cuts the list at one
key: what is below it, the entry at it, and what is above it.
-/

namespace Pinrail.Lib

universe u v
variable {α : Type u} {κ : Type v} [LinearOrder κ] (key : α → κ)

def Ascending (xs : List α) : Prop := xs.Pairwise fun a b => key a < key b

def below (k : κ) (xs : List α) : List α := xs.filter fun x => key x < k

def above (k : κ) (xs : List α) : List α := xs.filter fun x => k < key x

def entryAt (k : κ) (xs : List α) : Option α := xs.find? fun x => key x = k

/-- Puts `new`, or nothing, where the entry at `k` belongs. -/
def replaceAt (k : κ) (new : Option α) (xs : List α) : List α :=
  below key k xs ++ (new.toList ++ above key k xs)

variable {key} {k : κ} {xs ys : List α}

/-! ## Cutting -/

theorem lt_of_mem_below {x : α} (mem : x ∈ below key k xs) : key x < k := by
  simpa using (List.mem_filter.mp mem).2

theorem lt_of_mem_above {x : α} (mem : x ∈ above key k xs) : k < key x := by
  simpa using (List.mem_filter.mp mem).2

theorem entryAt_eq_some {x : α} (found : entryAt key k xs = some x) : key x = k := by
  simpa using List.find?_some found

theorem below_eq_self (low : ∀ x ∈ xs, key x < k) : below key k xs = xs :=
  List.filter_eq_self.mpr fun x mem => decide_eq_true (low x mem)

theorem below_eq_nil (high : ∀ x ∈ xs, k ≤ key x) : below key k xs = [] :=
  List.filter_eq_nil_iff.mpr fun x mem => by simpa using high x mem

theorem above_eq_self (high : ∀ x ∈ xs, k < key x) : above key k xs = xs :=
  List.filter_eq_self.mpr fun x mem => decide_eq_true (high x mem)

theorem above_eq_nil (low : ∀ x ∈ xs, key x ≤ k) : above key k xs = [] :=
  List.filter_eq_nil_iff.mpr fun x mem => by simpa using low x mem

theorem entryAt_eq_none (other : ∀ x ∈ xs, key x ≠ k) : entryAt key k xs = none :=
  List.find?_eq_none.mpr fun x mem => by simpa using other x mem

theorem below_append : below key k (xs ++ ys) = below key k xs ++ below key k ys := List.filter_append ..

theorem above_append : above key k (xs ++ ys) = above key k xs ++ above key k ys := List.filter_append ..

theorem Ascending.below (ascending : Ascending key xs) : Ascending key (below key k xs) := ascending.filter _

theorem Ascending.above (ascending : Ascending key xs) : Ascending key (above key k xs) := ascending.filter _

theorem Ascending.dropWhile_lt (ascending : Ascending key xs) :
    xs.dropWhile (fun x => key x < k) = (entryAt key k xs).toList ++ Lib.above key k xs := by
  induction xs with
  | nil => rfl
  | cons x xs ih =>
    obtain ⟨first, rest⟩ := List.pairwise_cons.mp ascending
    rcases lt_trichotomy (key x) k with low | same | high
    · rw [List.dropWhile_cons_of_pos (by simpa using low), ih rest]
      simp [entryAt, Lib.above, low.ne, low.le]
    · have higher : Lib.above key k xs = xs := above_eq_self fun y mem => same ▸ first y mem
      rw [List.dropWhile_cons_of_neg (by simp [same])]
      simp only [entryAt, Lib.above] at higher ⊢
      simp [same, higher]
    · have higher : ∀ y ∈ xs, k < key y := fun y mem => high.trans (first y mem)
      have absent : entryAt key k xs = none := entryAt_eq_none fun y mem => (higher y mem).ne'
      have all := above_eq_self higher
      rw [List.dropWhile_cons_of_neg (by simpa using high.le)]
      simp only [entryAt, Lib.above] at absent all ⊢
      simp [high, high.ne', absent, all]

theorem Ascending.takeWhile_eq_filter (ascending : Ascending key xs) {p : α → Bool}
    (down : ∀ a b, key a < key b → p b = true → p a = true) : xs.takeWhile p = xs.filter p := by
  induction xs with
  | nil => rfl
  | cons x xs ih =>
    obtain ⟨first, rest⟩ := List.pairwise_cons.mp ascending
    cases holds : p x with
    | true => rw [List.takeWhile_cons_of_pos holds, List.filter_cons_of_pos holds, ih rest]
    | false =>
      rw [List.takeWhile_cons_of_neg (by simp [holds]),
        List.filter_cons_of_neg (by simp [holds]), eq_comm, List.filter_eq_nil_iff]
      intro y mem later
      rw [down x y (first y mem) later] at holds
      cases holds

theorem Ascending.takeWhile_lt (ascending : Ascending key xs) :
    xs.takeWhile (fun x => key x < k) = Lib.below key k xs :=
  ascending.takeWhile_eq_filter fun a b less low => by
    simpa using less.trans (by simpa using low)

theorem Ascending.takeWhile_le (ascending : Ascending key xs) :
    xs.takeWhile (fun x => key x ≤ k) = xs.filter fun x => key x ≤ k :=
  ascending.takeWhile_eq_filter fun a b less low => by
    simpa using less.le.trans (by simpa using low)

theorem Ascending.cut (ascending : Ascending key xs) (k : κ) :
    xs = Lib.below key k xs ++ ((entryAt key k xs).toList ++ Lib.above key k xs) := by
  rw [← ascending.takeWhile_lt, ← ascending.dropWhile_lt, List.takeWhile_append_dropWhile]

theorem Ascending.filter_ge (ascending : Ascending key xs) (k : κ) :
    xs.filter (fun x => k ≤ key x) = (entryAt key k xs).toList ++ Lib.above key k xs := by
  have low : (Lib.below key k xs).filter (fun x => k ≤ key x) = [] :=
    List.filter_eq_nil_iff.mpr fun x mem => by simpa using lt_of_mem_below mem
  have mid : (entryAt key k xs).toList.filter (fun x => k ≤ key x) = (entryAt key k xs).toList :=
    List.filter_eq_self.mpr fun x mem => by
      simpa using (entryAt_eq_some (by simpa using mem)).ge
  have high : (Lib.above key k xs).filter (fun x => k ≤ key x) = Lib.above key k xs :=
    List.filter_eq_self.mpr fun x mem => by simpa using (lt_of_mem_above mem).le
  nth_rewrite 1 [ascending.cut k]
  rw [List.filter_append, List.filter_append, low, mid, high, List.nil_append]

/-! ## Replacing -/

theorem Ascending.replaceAt (ascending : Ascending key xs) {new : Option α}
    (placed : ∀ x ∈ new, key x = k) : Ascending key (replaceAt key k new xs) := by
  refine List.pairwise_append.mpr ⟨ascending.below, List.pairwise_append.mpr ⟨?_, ascending.above, ?_⟩, ?_⟩
  · cases new <;> simp
  · intro x xMem y yMem
    rw [placed x (by simpa using xMem)]
    exact lt_of_mem_above yMem
  · intro x xMem y yMem
    refine (lt_of_mem_below xMem).trans_le ?_
    rcases List.mem_append.mp yMem with yMem | yMem
    · exact (placed y (by simpa using yMem)).ge
    · exact (lt_of_mem_above yMem).le

theorem Ascending.replaceAt_self (ascending : Ascending key xs) (k : κ) :
    Lib.replaceAt key k (entryAt key k xs) xs = xs :=
  (ascending.cut k).symm

theorem below_below {j : κ} (le : j ≤ k) : below key j (below key k xs) = below key j xs := by
  rw [below, below, List.filter_filter]
  refine List.filter_congr fun x _ => ?_
  simpa using fun low => lt_of_lt_of_le low le

theorem above_above {j : κ} (le : k ≤ j) : above key j (above key k xs) = above key j xs := by
  rw [above, above, List.filter_filter]
  refine List.filter_congr fun x _ => ?_
  simpa using fun high => lt_of_le_of_lt le high

theorem above_below {j : κ} : above key j (below key k xs) = below key k (above key j xs) := List.filter_comm _ _ _

theorem replaceAt_replaceAt {j : κ} (less : j < k) {first second : Option α}
    (placed : ∀ x ∈ first, key x = j) (xs : List α) :
    replaceAt key k second (replaceAt key j first xs) = below key j xs ++
      (first.toList ++ (below key k (above key j xs) ++ (second.toList ++ above key k xs))) := by
  have low : below key k (below key j xs) = below key j xs :=
    below_eq_self fun z mem => (lt_of_mem_below mem).trans less
  have none : above key k (below key j xs) = [] := above_eq_nil fun z mem => (lt_of_mem_below mem).le.trans less.le
  have firstLow : below key k first.toList = first.toList :=
    below_eq_self fun x mem => (placed x (by simpa using mem)).trans_lt less
  have firstNone : above key k first.toList = [] :=
    above_eq_nil fun x mem => (placed x (by simpa using mem)).le.trans less.le
  rw [replaceAt, replaceAt, below_append, above_append, below_append, above_append, low, none,
    firstLow, firstNone, above_above less.le]
  simp

theorem replaceAt_comm {j : κ} (apart : j ≠ k) {first second : Option α}
    (placed : ∀ x ∈ first, key x = j) (placed' : ∀ x ∈ second, key x = k) (xs : List α) :
    replaceAt key k second (replaceAt key j first xs) = replaceAt key j first (replaceAt key k second xs) := by
  wlog less : j < k generalizing j k first second with symmetric
  · exact (symmetric apart.symm placed' placed (lt_of_le_of_ne (not_lt.mp less) apart.symm)).symm
  · have none : below key j (above key k xs) = [] := below_eq_nil fun z mem => (less.trans (lt_of_mem_above mem)).le
    have high : above key j (above key k xs) = above key k xs :=
      above_eq_self fun z mem => less.trans (lt_of_mem_above mem)
    have secondNone : below key j second.toList = [] :=
      below_eq_nil fun x mem => less.le.trans (placed' x (by simpa using mem)).ge
    have secondHigh : above key j second.toList = second.toList :=
      above_eq_self fun x mem => less.trans_eq (placed' x (by simpa using mem)).symm
    rw [replaceAt_replaceAt less placed, replaceAt, replaceAt, below_append, above_append,
      below_append, above_append, none, high, secondNone, secondHigh, below_below less.le,
      above_below]
    simp

/-! ## Edits

An edit replaces what is at one place. Edits of different places can be made in any order, and in
the order of their places in one pass. -/

section Edits

variable {ε : Type u} {place : ε → κ} {new : ε → Option α}

def applyEdits (key : α → κ) (place : ε → κ) (new : ε → Option α) (edits : List ε) (xs : List α) :
    List α :=
  edits.foldl (fun xs e => replaceAt key (place e) (new e) xs) xs

def mergeEdits (key : α → κ) (place : ε → κ) (new : ε → Option α) : List ε → List α → List α
  | [], xs => xs
  | e :: edits, xs => below key (place e) xs ++
      ((new e).toList ++ mergeEdits key place new edits (above key (place e) xs))

def takenEdits (key : α → κ) (place : ε → κ) : List ε → List α → List α
  | [], _ => []
  | e :: edits, xs => (entryAt key (place e) xs).toList ++ takenEdits key place edits (above key (place e) xs)

theorem Ascending.takenEdits_eq (ascending : Ascending key xs) {edits : List ε}
    (ordered : edits.Pairwise fun e f => place e ≤ place f) :
    takenEdits key place edits xs = xs.filter fun x => key x ∈ edits.map place := by
  induction edits generalizing xs with
  | nil => simp [takenEdits]
  | cons e edits ih =>
    obtain ⟨first, rest⟩ := List.pairwise_cons.mp ordered
    have low : (Lib.below key (place e) xs).filter (fun x => key x ∈ (e :: edits).map place) = [] := by
      refine List.filter_eq_nil_iff.mpr fun x mem => ?_
      have less := lt_of_mem_below mem
      simp only [List.map_cons, List.mem_cons, List.mem_map, decide_eq_true_eq, not_or, not_exists, not_and]
      exact ⟨less.ne, fun f fMem same => (less.trans_le (first f fMem)).ne' same⟩
    have here : (entryAt key (place e) xs).toList.filter
        (fun x => key x ∈ (e :: edits).map place) = (entryAt key (place e) xs).toList := by
      refine List.filter_eq_self.mpr fun x mem => ?_
      simp [entryAt_eq_some (by simpa using mem)]
    have high : (Lib.above key (place e) xs).filter (fun x => key x ∈ (e :: edits).map place) =
        (Lib.above key (place e) xs).filter fun x => key x ∈ edits.map place := by
      refine List.filter_congr fun x mem => ?_
      simp [(lt_of_mem_above mem).ne']
    nth_rewrite 2 [ascending.cut (place e)]
    rw [List.filter_append, List.filter_append, low, here, high, takenEdits, ih ascending.above rest, List.nil_append]

variable (placed : ∀ e, ∀ x ∈ new e, key x = place e)
include placed

theorem mem_replaceAt (e : ε) (xs : List α) (x : α) :
    x ∈ replaceAt key (place e) (new e) xs ↔ x ∈ new e ∨ (x ∈ xs ∧ place e ≠ key x) := by
  have apart : key x < place e ∨ place e < key x ↔ place e ≠ key x := by
    rw [ne_comm, ne_iff_lt_or_gt]
  simp only [replaceAt, below, above, List.mem_append, Option.mem_toList, List.mem_filter, decide_eq_true_eq]
  have := placed e x
  tauto

theorem mem_applyEdits {edits : List ε} (distinct : (edits.map place).Nodup) (xs : List α) (x : α) :
    x ∈ applyEdits key place new edits xs ↔ (∃ e ∈ edits, x ∈ new e) ∨ (x ∈ xs ∧ ∀ e ∈ edits, place e ≠ key x) := by
  induction edits generalizing xs with
  | nil => simp [applyEdits]
  | cons e edits ih =>
    obtain ⟨fresh, rest⟩ := List.nodup_cons.mp distinct
    have others : ∀ f ∈ edits, x ∈ new e → place f ≠ key x := by
      intro f mem inserted same
      exact fresh (List.mem_map.mpr ⟨f, mem, same.trans (placed e x inserted)⟩)
    rw [applyEdits, List.foldl_cons, ← applyEdits, ih rest, mem_replaceAt placed]
    simp only [List.mem_cons, forall_eq_or_imp, exists_eq_or_imp]
    constructor
    · rintro (found | ⟨inserted | ⟨kept, apart⟩, absent⟩)
      · exact .inl (.inr found)
      · exact .inl (.inl inserted)
      · exact .inr ⟨kept, apart, absent⟩
    · rintro ((inserted | found) | ⟨kept, apart, absent⟩)
      · exact .inr ⟨.inl inserted, fun f mem => others f mem inserted⟩
      · exact .inl found
      · exact .inr ⟨.inr ⟨kept, apart⟩, absent⟩

theorem Ascending.applyEdits (ascending : Ascending key xs) (edits : List ε) :
    Ascending key (applyEdits key place new edits xs) := by
  induction edits generalizing xs with
  | nil => exact ascending
  | cons e edits ih => exact ih (ascending.replaceAt (placed e))

theorem applyEdits_perm {edits edits' : List ε} (perm : edits.Perm edits')
    (distinct : (edits.map place).Nodup) (xs : List α) :
    applyEdits key place new edits xs = applyEdits key place new edits' xs := by
  refine perm.foldl_eq' ?_ xs
  intro e eMem f fMem xs
  by_cases same : place e = place f
  · rw [List.inj_on_of_nodup_map distinct eMem fMem same]
  · exact replaceAt_comm same (placed e) (placed f) xs

theorem applyEdits_eq_mergeEdits {edits : List ε} (ordered : Ascending place edits)
    (front : List α) (low : ∀ x ∈ front, ∀ e ∈ edits, key x < place e) (xs : List α) :
    applyEdits key place new edits (front ++ xs) = front ++ mergeEdits key place new edits xs := by
  induction edits generalizing front xs with
  | nil => rfl
  | cons e edits ih =>
    obtain ⟨first, rest⟩ := List.pairwise_cons.mp ordered
    have frontBelow : below key (place e) front = front := below_eq_self fun x mem => low x mem e (by simp)
    have frontAbove : above key (place e) front = [] := above_eq_nil fun x mem => (low x mem e (by simp)).le
    have replaced : replaceAt key (place e) (new e) (front ++ xs) =
        (front ++ (below key (place e) xs ++ (new e).toList)) ++ above key (place e) xs := by
      rw [replaceAt, below_append, above_append, frontBelow, frontAbove]
      simp
    rw [applyEdits, List.foldl_cons, replaced]
    refine (ih rest _ ?_ _).trans ?_
    · intro x mem f fMem
      simp only [List.mem_append] at mem
      rcases mem with mem | mem | mem
      · exact low x mem f (by simp [fMem])
      · exact (lt_of_mem_below mem).trans (first f fMem)
      · exact (placed e x (by simpa using mem)).trans_lt (first f fMem)
    · simp [mergeEdits]

theorem mergeEdits_sorted {edits sorted : List ε} (perm : sorted.Perm edits)
    (ordered : sorted.Pairwise fun e f => place e ≤ place f) (distinct : (edits.map place).Nodup)
    (xs : List α) :
    mergeEdits key place new sorted xs = applyEdits key place new edits xs := by
  have apart : sorted.Pairwise fun e f => place e ≠ place f :=
    List.pairwise_map.mp ((perm.map place).nodup_iff.mpr distinct)
  have ascending : Ascending place sorted := (ordered.and apart).imp fun both => lt_of_le_of_ne both.1 both.2
  have merged := applyEdits_eq_mergeEdits placed ascending [] (by simp) xs
  rw [List.nil_append, List.nil_append] at merged
  rw [← merged, applyEdits_perm placed perm.symm distinct]

end Edits

end Pinrail.Lib

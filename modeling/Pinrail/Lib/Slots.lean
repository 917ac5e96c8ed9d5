import Mathlib.Data.List.Basic
import Mathlib.Data.List.Nodup
import Mathlib.Tactic.Common

/-!
# Slots with a free list

A list of slots that are occupied or empty, beside a list of the indices of the empty ones.
-/

namespace Pinrail.Lib

universe u v
variable {T : Type u} {R : Type v}

structure Vacancies (slots : List (Option T)) (free : List Nat) : Prop where
  nodup : free.Nodup
  mem_iff : ∀ i, i ∈ free ↔ slots[i]? = some none

variable {slots : List (Option T)} {free : List Nat} {value old : T} {i : Nat}

theorem Vacancies.nil : Vacancies ([] : List (Option T)) [] where
  nodup := List.nodup_nil
  mem_iff := by simp

theorem Vacancies.push (tidy : Vacancies slots free) : Vacancies (slots ++ [some value]) free where
  nodup := tidy.nodup
  mem_iff := by
    intro i
    rw [tidy.mem_iff, List.getElem?_append]
    by_cases inside : i < slots.length
    · rw [if_pos inside]
    · rw [if_neg inside, List.getElem?_eq_none (by omega)]
      cases i - slots.length with
      | zero => simp
      | succ k => simp

theorem Vacancies.fill (tidy : Vacancies slots (free ++ [i])) : Vacancies (slots.set i (some value)) free where
  nodup := (List.nodup_append.mp tidy.nodup).1
  mem_iff := by
    intro k
    have empty : slots[i]? = some none := (tidy.mem_iff i).mp (by simp)
    have fresh : i ∉ free := by
      intro member
      exact (List.nodup_append.mp tidy.nodup).2.2 i member i (by simp) rfl
    have others := tidy.mem_iff k
    rw [List.getElem?_set]
    by_cases same : i = k
    · subst same
      simp [fresh, (List.getElem?_eq_some_iff.mp empty).1]
    · rw [if_neg same, ← others]
      simp [Ne.symm same]

theorem Vacancies.replace (tidy : Vacancies slots free) (occupied : slots[i]? = some (some old)) :
    Vacancies (slots.set i (some value)) free where
  nodup := tidy.nodup
  mem_iff := by
    intro k
    rw [tidy.mem_iff, List.getElem?_set]
    by_cases same : i = k
    · subst same
      simp [occupied]
    · rw [if_neg same]

theorem Vacancies.vacate (tidy : Vacancies slots free) (occupied : slots[i]? = some (some old)) :
    Vacancies (slots.set i none) (free ++ [i]) where
  nodup := by
    have fresh : i ∉ free := by
      rw [tidy.mem_iff, occupied]
      simp
    exact List.nodup_append.mpr ⟨tidy.nodup, List.nodup_singleton i, by
      rintro k member _ last rfl
      exact fresh (List.mem_singleton.mp last ▸ member)⟩
  mem_iff := by
    intro k
    rw [List.mem_append, tidy.mem_iff, List.getElem?_set, List.mem_singleton]
    by_cases same : i = k
    · subst same
      simp [(List.getElem?_eq_some_iff.mp occupied).1]
    · simp [same, Ne.symm same]

/-! ## Scanning the occupied slots -/

/-- Tries the occupied slots below `n` from the last to the first, until one gives a result. Every
attempt may change its slot. -/
def findMapRev (attempt : T → Option R × T) (slots : List (Option T)) : Nat → Option R × List (Option T)
  | 0 => (none, slots)
  | n + 1 =>
    match slots[n]?.join with
    | none => findMapRev attempt slots n
    | some value =>
      match attempt value with
      | (some result, value') => (some result, slots.set n (some value'))
      | (none, value') => findMapRev attempt (slots.set n (some value')) n

variable {attempt : T → Option R × T} {P : List (Option T) → Prop}

theorem findMapRev_rule (refused : ∀ slots i value value', P slots → slots[i]? = some (some value) →
      attempt value = (none, value') → P (slots.set i (some value')))
    (initial : P slots) (n : Nat) :
    (∃ slots', findMapRev attempt slots n = (none, slots') ∧ P slots') ∨
      ∃ result before i value value', findMapRev attempt slots n = (some result, before.set i (some value')) ∧
        P before ∧ before[i]? = some (some value) ∧ attempt value = (some result, value') := by
  induction n generalizing slots with
  | zero => exact .inl ⟨slots, rfl, initial⟩
  | succ n ih =>
    rw [findMapRev]
    cases slot : slots[n]?.join with
    | none => exact ih initial
    | some value =>
      have occupied : slots[n]? = some (some value) := Option.join_eq_some_iff.mp slot
      cases tried : attempt value with
      | mk result value' =>
        cases result with
        | none =>
          simp only [tried]
          exact ih (refused slots n value value' initial occupied tried)
        | some result =>
          simp only [tried]
          exact .inr ⟨result, slots, n, value, value', rfl, initial, occupied, tried⟩

theorem findMapRev_none_iff {slots : List (Option T)} (n : Nat) : (findMapRev attempt slots n).1 = none ↔ ∀ i < n,
    ∀ value, slots[i]? = some (some value) → (attempt value).1 = none := by
  induction n generalizing slots with
  | zero => simp [findMapRev]
  | succ n ih =>
    rw [findMapRev]
    cases slot : slots[n]?.join with
    | none =>
      rw [ih]
      constructor
      · intro below i inside value occupied
        rcases Nat.lt_succ_iff_lt_or_eq.mp inside with inside | rfl
        · exact below i inside value occupied
        · rw [occupied, Option.join_some] at slot
          cases slot
      · intro below i inside
        exact below i (Nat.lt_succ_of_lt inside)
    | some value =>
      have occupied : slots[n]? = some (some value) := Option.join_eq_some_iff.mp slot
      cases tried : attempt value with
      | mk result value' =>
        cases result with
        | some result =>
          simp only [tried]
          refine iff_of_false (by simp) fun below => ?_
          have refused := below n (Nat.lt_succ_self n) value occupied
          rw [tried] at refused
          cases refused
        | none =>
          simp only [tried]
          rw [ih]
          constructor
          · intro below i inside other occupied'
            rcases Nat.lt_succ_iff_lt_or_eq.mp inside with inside | rfl
            · apply below i inside other
              rw [List.getElem?_set_ne (Nat.ne_of_gt inside), occupied']
            · rw [occupied] at occupied'
              cases occupied'
              rw [tried]
          · intro below i inside other occupied'
            rw [List.getElem?_set_ne (Nat.ne_of_gt inside)] at occupied'
            exact below i (Nat.lt_succ_of_lt inside) other occupied'

end Pinrail.Lib

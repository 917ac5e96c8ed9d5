import Mathlib.Data.Int.ModEq
import Mathlib.Data.List.Nodup
import Mathlib.Tactic.Common

/-!
# Residues of an interval

The numbers below a modulus that the integers of an interval leave, and intervals that are visited outward
from a point.
-/

namespace Pinrail.Lib

/-- An integer from `low` on and below `high` leaves the residue `x`. -/
def IsResidue (modulus : Nat) (low high : ℤ) (x : Nat) : Prop :=
  x < modulus ∧ ∃ i : ℤ, low ≤ i ∧ i < high ∧ i % modulus = x

variable {modulus x : Nat} {low high i j : ℤ}

theorem emod_of_negative (above : -modulus ≤ i) (negative : i < 0) : i % modulus = i + modulus := by
  rw [← Int.add_emod_right, Int.emod_eq_of_lt]
  · omega
  · omega

theorem eq_of_emod_eq (same : i % modulus = j % modulus) (near : |i - j| < modulus) : i = j := by
  have divides : (modulus : ℤ) ∣ i - j := Int.ModEq.dvd same.symm
  have zero := Int.eq_zero_of_abs_lt_dvd divides near
  omega

theorem isResidue_of_long (long : low + modulus ≤ high) : IsResidue modulus low high x ↔ x < modulus := by
  refine and_iff_left_of_imp fun below => ?_
  have positive : (0 : ℤ) < modulus := by omega
  refine ⟨low + (x - low) % modulus, ?_, ?_, ?_⟩
  · have := Int.emod_nonneg ((x : ℤ) - low) positive.ne'
    omega
  · have := Int.emod_lt_of_pos ((x : ℤ) - low) positive
    omega
  · rw [Int.add_emod_emod, add_sub_cancel, Int.emod_eq_of_lt]
    · omega
    · omega

theorem isResidue_inside (start : 0 ≤ low) (stop : high ≤ modulus) :
    IsResidue modulus low high x ↔ low ≤ x ∧ x < high := by
  constructor
  · rintro ⟨-, i, after, before, residue⟩
    rw [Int.emod_eq_of_lt (by omega) (by omega)] at residue
    omega
  · intro inside
    refine ⟨by omega, x, inside.1, inside.2, ?_⟩
    rw [Int.emod_eq_of_lt (by omega) (by omega)]

theorem isResidue_before (start : -modulus ≤ low) (negative : low < 0) (positive : 0 ≤ high) (stop : high ≤ modulus) :
    IsResidue modulus low high x ↔ x < modulus ∧ (x < high ∨ low + modulus ≤ x) := by
  refine and_congr_right fun below => ⟨?_, ?_⟩
  · rintro ⟨i, after, before, residue⟩
    rcases lt_or_ge i 0 with less | more
    · rw [emod_of_negative (by omega) less] at residue
      omega
    · rw [Int.emod_eq_of_lt more (by omega)] at residue
      omega
  · rintro (early | late)
    · refine ⟨x, by omega, early, ?_⟩
      rw [Int.emod_eq_of_lt (by omega) (by omega)]
    · refine ⟨x - modulus, by omega, by omega, ?_⟩
      rw [emod_of_negative (by omega) (by omega)]
      omega

theorem isResidue_after (inside : low ≤ modulus) (stop : high ≤ low + modulus) (wraps : modulus < high) :
    IsResidue modulus low high x ↔ x < modulus ∧ (x < high - modulus ∨ low ≤ x) := by
  have shift : ∀ y : ℤ, (y - modulus) % modulus = y % modulus := fun y => by
    rw [Int.sub_emod_right]
  refine and_congr_right fun below => ⟨?_, ?_⟩
  · rintro ⟨i, after, before, residue⟩
    rcases lt_or_ge i modulus with less | more
    · rw [Int.emod_eq_of_lt (by omega) less] at residue
      omega
    · rw [← shift, Int.emod_eq_of_lt (by omega) (by omega)] at residue
      omega
  · rintro (early | late)
    · refine ⟨x + modulus, by omega, by omega, ?_⟩
      rw [Int.add_emod_right, Int.emod_eq_of_lt (by omega) (by omega)]
    · exact ⟨x, late, by omega, Int.emod_eq_of_lt (by omega) (by omega)⟩

/-! ## Visiting outward -/

/-- Offsets that go on outward where those from `-before` to `after` have been visited. -/
inductive Outward : Nat → Nat → List ℤ → Prop where
  | nil (before after : Nat) : Outward before after []
  | after {before after : Nat} {offsets : List ℤ} (rest : Outward before (after + 1) offsets) :
      Outward before after ((after + 1 : ℕ) :: offsets)
  | before {before after : Nat} {offsets : List ℤ} (rest : Outward (before + 1) after offsets) :
      Outward before after (-(before + 1 : ℕ) :: offsets)

variable {before after : Nat} {offsets : List ℤ}

theorem Outward.take (outward : Outward before after offsets) (n : Nat) : Outward before after (offsets.take n) := by
  induction outward generalizing n with
  | nil before after =>
    rw [List.take_nil]
    exact .nil _ _
  | after rest ih =>
    cases n with
    | zero => exact .nil _ _
    | succ n => exact .after (ih n)
  | before rest ih =>
    cases n with
    | zero => exact .nil _ _
    | succ n => exact .before (ih n)

theorem Outward.interval (outward : Outward before after offsets) : ∃ before' after', before ≤ before' ∧
    after ≤ after' ∧ before' + after' = before + after + offsets.length ∧ offsets.Nodup ∧ ∀ k, k ∈ offsets ↔
    (-before' ≤ k ∧ k < -before) ∨ (after < k ∧ k ≤ after') := by
  induction outward with
  | nil before after => exact ⟨before, after, Nat.le_refl _, Nat.le_refl _, rfl, List.nodup_nil, by simp⟩
  | after rest ih =>
    obtain ⟨before', after', wider, further, size, nodup, members⟩ := ih
    refine ⟨before', after', wider, Nat.le_of_succ_le further, by rw [size, List.length_cons]; omega, ?_, ?_⟩
    · refine List.nodup_cons.mpr ⟨fun again => ?_, nodup⟩
      rw [members] at again
      omega
    · intro k
      rw [List.mem_cons, members]
      omega
  | before rest ih =>
    obtain ⟨before', after', wider, further, size, nodup, members⟩ := ih
    refine ⟨before', after', Nat.le_of_succ_le wider, further, by rw [size, List.length_cons]; omega, ?_, ?_⟩
    · refine List.nodup_cons.mpr ⟨fun again => ?_, nodup⟩
      rw [members] at again
      omega
    · intro k
      rw [List.mem_cons, members]
      omega

end Pinrail.Lib

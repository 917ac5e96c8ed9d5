import Mathlib.Data.Int.Log
import Mathlib.Data.Rat.Floor
import Mathlib.Tactic.Linarith
import Mathlib.Tactic.NormNum

/-!
# Rounding to single precision

The rationals that `f32` holds, and the one nearest to a rational, to which the sum, the difference, the
product or the quotient of two of them is rounded. The exponent has no upper bound here.
-/

namespace Pinrail.Lib

/-- The nearest integer, of two the even one. -/
def roundEven (x : ℚ) : ℤ :=
  if Int.fract x < 1 / 2 ∨ Int.fract x = 1 / 2 ∧ ⌊x⌋ % 2 = 0 then ⌊x⌋ else ⌊x⌋ + 1

/-- The distance between the numbers of 24 bits around `x`, and the least distance below them. -/
def unitInLastPlace (x : ℚ) : ℚ := 2 ^ max (Int.log 2 |x| - 23) (-149)

def binary32 (x : ℚ) : ℚ := roundEven (x / unitInLastPlace x) * unitInLastPlace x

example : binary32 (1 / 10) = 13421773 / 2 ^ 27 := by decide +kernel

/-! ## Sums that are not rounded -/

def OnGrid (k : ℤ) (x : ℚ) : Prop := ∃ n : ℤ, x = n * 2 ^ k

theorem onGrid_of_den {x : ℚ} (whole : x.den = 1) : OnGrid 0 x :=
  ⟨x.num, by rw [zpow_zero, mul_one, Rat.coe_int_num_of_den_eq_one whole]⟩

theorem roundEven_intCast (n : ℤ) : roundEven n = n := by
  simp [roundEven]

theorem binary32_zero : binary32 0 = 0 := by
  have even : roundEven 0 = 0 := roundEven_intCast 0
  rw [binary32, zero_div, even, Int.cast_zero, zero_mul]

/-- A number of less than 24 bits is not rounded. -/
theorem binary32_of_onGrid {k : ℤ} (least : -149 ≤ k) {x : ℚ} (onGrid : OnGrid k x) (small : |x| < 2 ^ 24 * 2 ^ k) :
    binary32 x = x := by
  obtain ⟨n, rfl⟩ := onGrid
  rcases eq_or_ne (n * 2 ^ k : ℚ) 0 with zero | nonzero
  · rw [zero, binary32_zero]
  · have bits : Int.log 2 |(n * 2 ^ k : ℚ)| < 24 + k := by
      apply (Int.lt_zpow_iff_log_lt (by norm_num) (abs_pos.mpr nonzero)).mp
      push_cast
      rwa [zpow_add₀ (by norm_num)]
    have fine : max (Int.log 2 |(n * 2 ^ k : ℚ)| - 23) (-149) ≤ k := by omega
    rw [binary32, unitInLastPlace]
    generalize max (Int.log 2 |(n * 2 ^ k : ℚ)| - 23) (-149) = e at fine
    obtain ⟨d, rfl⟩ := Int.le.dest fine
    have unit : (2 : ℚ) ^ e ≠ 0 := zpow_ne_zero _ (by norm_num)
    have quotient : (n * 2 ^ (e + d) : ℚ) / 2 ^ e = ((n * 2 ^ d : ℤ) : ℚ) := by
      rw [zpow_add₀ (by norm_num), div_eq_iff unit]
      push_cast
      rw [zpow_natCast]
      ring
    rw [quotient, roundEven_intCast, ← quotient, div_mul_cancel₀ _ unit]

/-- The sum of some of the sizes, each with its sign. -/
def signedSum (signs : List ℤ) (sizes : List ℚ) : ℚ :=
  (List.zipWith (fun (sign : ℤ) (size : ℚ) => sign * size) signs sizes).sum

theorem signedSum_onGrid {k : ℤ} (signs : List ℤ) {sizes : List ℚ} (onGrid : ∀ size ∈ sizes, OnGrid k size) :
    OnGrid k (signedSum signs sizes) := by
  induction sizes generalizing signs with
  | nil => exact ⟨0, by simp [signedSum]⟩
  | cons size sizes ih =>
    cases signs with
    | nil => exact ⟨0, by simp [signedSum]⟩
    | cons sign signs =>
      obtain ⟨n, isSize⟩ := onGrid size List.mem_cons_self
      obtain ⟨m, isSum⟩ := ih signs fun other member => onGrid other (List.mem_cons_of_mem _ member)
      refine ⟨sign * n + m, ?_⟩
      rw [signedSum, List.zipWith_cons_cons, List.sum_cons, ← signedSum, isSum, isSize]
      push_cast
      ring

theorem abs_signedSum_le {signs : List ℤ} (unit : ∀ sign ∈ signs, |sign| ≤ 1) (sizes : List ℚ) :
    |signedSum signs sizes| ≤ (sizes.map abs).sum := by
  induction sizes generalizing signs with
  | nil => simp [signedSum]
  | cons size sizes ih =>
    have rest : 0 ≤ (sizes.map abs).sum := (abs_nonneg (signedSum [] sizes)).trans (ih (by simp))
    cases signs with
    | nil =>
      rw [List.map_cons, List.sum_cons]
      simpa [signedSum] using add_nonneg (abs_nonneg size) rest
    | cons sign signs =>
      have bounded := ih fun other member => unit other (List.mem_cons_of_mem _ member)
      have one : |(sign : ℚ)| ≤ 1 := by exact_mod_cast unit sign List.mem_cons_self
      have first : |sign * size| ≤ |size| := by
        rw [abs_mul]
        exact mul_le_of_le_one_left (abs_nonneg size) one
      rw [signedSum, List.zipWith_cons_cons, List.sum_cons, ← signedSum, List.map_cons, List.sum_cons]
      linarith [abs_add_le (sign * size) (signedSum signs sizes)]

/-- No sum or difference of the sizes is rounded. -/
def Unrounded (sizes : List ℚ) : Prop :=
  ∀ signs : List ℤ, (∀ sign ∈ signs, |sign| ≤ 1) → binary32 (signedSum signs sizes) = signedSum signs sizes

theorem unrounded_of_onGrid {k : ℤ} (least : -149 ≤ k) {sizes : List ℚ} (onGrid : ∀ size ∈ sizes, OnGrid k size)
    (small : (sizes.map abs).sum < 2 ^ 24 * 2 ^ k) : Unrounded sizes := fun signs unit =>
  binary32_of_onGrid least (signedSum_onGrid signs onGrid) ((abs_signedSum_le unit sizes).trans_lt small)

/-- The sizes are multiples of one power of two and too few of it for a sum to be rounded. -/
def SmallGrid (sizes : List ℚ) : Prop :=
  ∃ k : ℤ, -149 ≤ k ∧ (∀ size ∈ sizes, OnGrid k size) ∧ (sizes.map abs).sum < 2 ^ 24 * 2 ^ k

theorem SmallGrid.unrounded {sizes : List ℚ} (grid : SmallGrid sizes) : Unrounded sizes := by
  obtain ⟨k, least, onGrid, small⟩ := grid
  exact unrounded_of_onGrid least onGrid small

theorem smallGrid_of_den {sizes : List ℚ} (whole : ∀ size ∈ sizes, size.den = 1) (small : (sizes.map abs).sum < 2 ^ 24) :
    SmallGrid sizes :=
  ⟨0, by decide, fun size member => onGrid_of_den (whole size member), by simpa using small⟩

/-! ## The numbers -/

/-- The numbers with the arithmetic of `f32`. -/
structure Binary32 where
  value : ℚ
deriving DecidableEq

namespace Binary32

def of (x : ℚ) : Binary32 := ⟨binary32 x⟩

instance : Add Binary32 := ⟨fun a b => of (a.value + b.value)⟩

instance : Sub Binary32 := ⟨fun a b => of (a.value - b.value)⟩

instance : LinearOrder Binary32 :=
  LinearOrder.lift' value fun ⟨_⟩ ⟨_⟩ same => congrArg mk same

end Binary32

end Pinrail.Lib

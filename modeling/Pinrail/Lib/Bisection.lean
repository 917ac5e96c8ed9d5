import Mathlib.Algebra.Order.Field.Basic
import Mathlib.Tactic.Linarith
import Mathlib.Tactic.Ring

/-!
# Bisection

A bracket of a function around a target is halved until the value in its middle is near enough.
-/

namespace Pinrail.Lib

variable {K : Type} [Field K] [LinearOrder K]

def bisect (f : K → K) (tolerance target : K) : Nat → K → K → Option (K × K)
  | 0, _, _ => none
  | fuel + 1, lower, upper =>
    let middle := lower + (upper - lower) / 2
    if |f middle - target| < tolerance then some (middle, lower)
    else if target < f middle then bisect f tolerance target fuel lower middle
    else bisect f tolerance target fuel middle upper

structure Brackets (f : K → K) (target lower upper : K) : Prop where
  order : lower ≤ upper
  under : f lower ≤ target
  above : target ≤ f upper

def GrowsAtMost (f : K → K) (rate first last : K) : Prop :=
  ∀ ⦃x y⦄, first ≤ x → x ≤ y → y ≤ last → f y - f x ≤ rate * (y - x)

variable [IsStrictOrderedRing K] {f : K → K} {rate tolerance target lower upper : K}

theorem Brackets.middle (brackets : Brackets f target lower upper) :
    lower ≤ lower + (upper - lower) / 2 ∧ lower + (upper - lower) / 2 ≤ upper := by
  have := brackets.order
  constructor <;> linarith

theorem Brackets.near (brackets : Brackets f target lower upper) (grows : GrowsAtMost f rate lower upper) :
    |f (lower + (upper - lower) / 2) - target| ≤ rate * (upper - lower) / 2 := by
  obtain ⟨left, right⟩ := brackets.middle
  have first := grows le_rfl left right
  have second := grows left right le_rfl
  have under := brackets.under
  have above := brackets.above
  rw [abs_le]
  constructor <;> linarith

omit [IsStrictOrderedRing K] in
theorem GrowsAtMost.mono {first last first' last' : K} (grows : GrowsAtMost f rate first last)
    (left : first ≤ first') (right : last' ≤ last) : GrowsAtMost f rate first' last' :=
  fun _ _ low order high => grows (left.trans low) order (high.trans right)

theorem bisect_returns {fuel : Nat} (grows : GrowsAtMost f rate lower upper) (brackets : Brackets f target lower upper)
    (enough : rate * (upper - lower) < tolerance * 2 ^ (fuel + 1)) :
    ∃ found, bisect f tolerance target (fuel + 1) lower upper = some found := by
  induction fuel generalizing lower upper with
  | zero =>
    have near := brackets.near grows
    rw [zero_add, pow_one] at enough
    rw [bisect]
    rw [if_pos (by linarith)]
    exact ⟨_, rfl⟩
  | succ fuel ih =>
    obtain ⟨left, right⟩ := brackets.middle
    have half : rate * ((upper - lower) / 2) < tolerance * 2 ^ (fuel + 1) := by
      rw [pow_succ] at enough
      linarith
    rw [bisect]
    split_ifs with near above
    · exact ⟨_, rfl⟩
    · exact ih (grows.mono le_rfl right) ⟨left, brackets.under, above.le⟩ (by linarith)
    · exact ih (grows.mono left le_rfl) ⟨right, not_lt.mp above, brackets.above⟩ (by linarith)

theorem bisect_spec {fuel : Nat} {middle low : K} (brackets : Brackets f target lower upper)
    (found : bisect f tolerance target fuel lower upper = some (middle, low)) :
    |f middle - target| < tolerance ∧ lower ≤ low ∧ low ≤ middle ∧ middle ≤ upper ∧ f low ≤ target := by
  induction fuel generalizing lower upper with
  | zero => cases found
  | succ fuel ih =>
    obtain ⟨left, right⟩ := brackets.middle
    rw [bisect] at found
    split_ifs at found with near above
    · cases found
      exact ⟨near, le_rfl, left, right, brackets.under⟩
    · obtain ⟨near, low, order, high, under⟩ := ih ⟨left, brackets.under, above.le⟩ found
      exact ⟨near, low, order, high.trans right, under⟩
    · obtain ⟨near, low, order, high, under⟩ := ih ⟨right, not_lt.mp above, brackets.above⟩ found
      exact ⟨near, left.trans low, order, high, under⟩

end Pinrail.Lib

import Pinrail.Lib.Residues
import Pinrail.Lib.Rust
import Pinrail.Lib.Iterator

/-!
# Expanded and wrapped ranges

`expanded_and_wrapped_usize_range`, with the range as a pair.
-/

namespace Pinrail.Util

open Lib

/-- What `start..end` yields. -/
def rangeOf (start stop : Nat) : List Nat := List.range' start (stop - start)

def expandedAndWrappedUsizeRange (range : Nat × Nat) (additionalBefore additionalAfter wrapLength : Nat) :
    Except Panic (List Nat) := do
  let startWraps : Bool := range.1 < additionalBefore
  let endWraps : Bool := wrapLength < (← checkedAdd 64 range.2 additionalAfter)
  if startWraps && endWraps then
    return rangeOf 0 wrapLength
  else if startWraps then
    let wrappedStart := (← checkedAdd 64 range.1 wrapLength) - additionalBefore
    if wrappedStart ≤ range.2 then
      return rangeOf 0 wrapLength
    else
      return rangeOf 0 (← checkedAdd 64 range.2 additionalAfter) ++ rangeOf wrappedStart wrapLength
  else if endWraps then
    let wrappedEnd ← checkedSub (← checkedAdd 64 range.2 additionalAfter) wrapLength
    if range.1 ≤ wrappedEnd then
      return rangeOf 0 wrapLength
    else
      return rangeOf 0 wrappedEnd ++ rangeOf (← checkedSub range.1 additionalBefore) wrapLength
  else
    return rangeOf (← checkedSub range.1 additionalBefore) (← checkedAdd 64 range.2 additionalAfter)

variable {range : Nat × Nat} {additionalBefore additionalAfter wrapLength start stop x : Nat}

/-! ## What is yielded -/

theorem mem_rangeOf : x ∈ rangeOf start stop ↔ start ≤ x ∧ x < stop := by
  rw [rangeOf, List.mem_range'_1]
  omega

theorem rangeOf_nodup (start stop : Nat) : (rangeOf start stop).Nodup := List.nodup_range'

theorem rangeOf_append_nodup {start' stop' : Nat} (first : start ≤ start') :
    (rangeOf start stop ++ rangeOf start' stop').Nodup ↔ stop ≤ start' ∨ stop' ≤ start' := by
  rw [List.nodup_append]
  constructor
  · rintro ⟨-, -, apart⟩
    by_contra overlap
    exact apart start' (mem_rangeOf.mpr (by omega)) start' (mem_rangeOf.mpr (by omega)) rfl
  · intro apart
    refine ⟨rangeOf_nodup _ _, rangeOf_nodup _ _, fun a inside b inside' same => ?_⟩
    rw [mem_rangeOf] at inside inside'
    omega

def YieldsResidues (range : Nat × Nat) (additionalBefore additionalAfter wrapLength : Nat) : Prop :=
  ∃ out, expandedAndWrappedUsizeRange range additionalBefore additionalAfter wrapLength = .ok out ∧ out.Nodup ∧
    ∀ x, x ∈ out ↔ IsResidue wrapLength (range.1 - additionalBefore) (range.2 + additionalAfter) x

theorem checkedAdd_eq {bits m n : Nat} (fits : m + n < 2 ^ bits) : checkedAdd bits m n = .ok (m + n) := if_pos fits

theorem checkedSub_eq {m n : Nat} (le : n ≤ m) : checkedSub m n = .ok (m - n) := if_pos le

theorem yieldsResidues_of_eq {out : List Nat}
    (returned : expandedAndWrappedUsizeRange range additionalBefore additionalAfter wrapLength = .ok out) :
    YieldsResidues range additionalBefore additionalAfter wrapLength ↔ out.Nodup ∧ ∀ x, x ∈ out ↔
    IsResidue wrapLength (range.1 - additionalBefore) (range.2 + additionalAfter) x := by
  constructor
  · rintro ⟨out', returned', yields⟩
    rw [returned] at returned'
    cases returned'
    exact yields
  · exact fun yields => ⟨out, returned, yields⟩

theorem yieldsResidues_of_long
    (returned : expandedAndWrappedUsizeRange range additionalBefore additionalAfter wrapLength =
      .ok (rangeOf 0 wrapLength))
    (long : (range.1 : ℤ) - additionalBefore + wrapLength ≤ range.2 + additionalAfter) :
    YieldsResidues range additionalBefore additionalAfter wrapLength := by
  rw [yieldsResidues_of_eq returned]
  refine ⟨rangeOf_nodup _ _, fun x => ?_⟩
  rw [isResidue_of_long long, mem_rangeOf]
  omega

theorem checkedAdd_overflow {bits m n : Nat} (exceeds : ¬ m + n < 2 ^ bits) :
    checkedAdd bits m n = .error .addOverflow := if_neg exceeds

theorem yieldsResidues_both (fits : range.2 + additionalAfter < 2 ^ 64)
    (startWraps : range.1 < additionalBefore) (endWraps : wrapLength < range.2 + additionalAfter) :
    YieldsResidues range additionalBefore additionalAfter wrapLength := by
  apply yieldsResidues_of_long
  · simp only [expandedAndWrappedUsizeRange, checkedAdd_eq fits, ok_bind, startWraps, endWraps, decide_true,
      Bool.and_self, if_true]
    rfl
  · omega

theorem yieldsResidues_start (fits : range.2 + additionalAfter < 2 ^ 64)
    (startWraps : range.1 < additionalBefore) (endWraps : ¬ wrapLength < range.2 + additionalAfter) :
    YieldsResidues range additionalBefore additionalAfter wrapLength ↔ range.1 + wrapLength < 2 ^ 64 ∧
      (range.1 + wrapLength - additionalBefore ≤ range.2 ∨
        range.2 + additionalAfter ≤ range.1 + wrapLength - additionalBefore) := by
  by_cases fits' : range.1 + wrapLength < 2 ^ 64
  · rw [and_iff_right fits']
    by_cases reaches : range.1 + wrapLength - additionalBefore ≤ range.2
    · refine iff_of_true (yieldsResidues_of_long ?_ (by omega)) (.inl reaches)
      simp only [expandedAndWrappedUsizeRange, checkedAdd_eq fits, checkedAdd_eq fits', ok_bind, startWraps,
        endWraps, decide_true, decide_false, Bool.and_false, Bool.false_eq_true, if_false, if_true, reaches]
      rfl
    · have returned : expandedAndWrappedUsizeRange range additionalBefore additionalAfter wrapLength =
          .ok (rangeOf 0 (range.2 + additionalAfter) ++
            rangeOf (range.1 + wrapLength - additionalBefore) wrapLength) := by
        simp only [expandedAndWrappedUsizeRange, checkedAdd_eq fits, checkedAdd_eq fits', ok_bind, startWraps,
          endWraps, decide_true, decide_false, Bool.and_false, Bool.false_eq_true, if_false, if_true, reaches]
        rfl
      have members : ∀ x, x ∈ rangeOf 0 (range.2 + additionalAfter) ++
          rangeOf (range.1 + wrapLength - additionalBefore) wrapLength ↔
            IsResidue wrapLength (range.1 - additionalBefore) (range.2 + additionalAfter) x := by
        intro x
        rw [isResidue_before (by omega) (by omega) (by omega) (by omega), List.mem_append, mem_rangeOf, mem_rangeOf]
        omega
      rw [yieldsResidues_of_eq returned, and_iff_left members, rangeOf_append_nodup (Nat.zero_le _)]
      omega
  · refine iff_of_false ?_ fun both => fits' both.1
    rintro ⟨out, returned, -⟩
    simp only [expandedAndWrappedUsizeRange, checkedAdd_eq fits, checkedAdd_overflow fits', ok_bind, startWraps,
      endWraps, decide_true, decide_false, Bool.and_false, Bool.false_eq_true, if_false, if_true] at returned
    cases returned

theorem yieldsResidues_end (fits : range.2 + additionalAfter < 2 ^ 64) (inside : range.1 ≤ wrapLength)
    (startWraps : ¬ range.1 < additionalBefore) (endWraps : wrapLength < range.2 + additionalAfter) :
    YieldsResidues range additionalBefore additionalAfter wrapLength ↔
    range.1 ≤ range.2 + additionalAfter - wrapLength ∨
    range.2 + additionalAfter - wrapLength ≤ range.1 - additionalBefore := by
  have back : checkedSub (range.2 + additionalAfter) wrapLength = .ok (range.2 + additionalAfter - wrapLength) :=
    checkedSub_eq (Nat.le_of_lt endWraps)
  have front : checkedSub range.1 additionalBefore = .ok (range.1 - additionalBefore) :=
    checkedSub_eq (Nat.le_of_not_lt startWraps)
  by_cases reaches : range.1 ≤ range.2 + additionalAfter - wrapLength
  · refine iff_of_true (yieldsResidues_of_long ?_ (by omega)) (.inl reaches)
    simp only [expandedAndWrappedUsizeRange, checkedAdd_eq fits, back, ok_bind, startWraps, endWraps, decide_true,
      decide_false, Bool.false_and, Bool.false_eq_true, if_false, if_true, reaches]
    rfl
  · have returned : expandedAndWrappedUsizeRange range additionalBefore additionalAfter wrapLength =
        .ok (rangeOf 0 (range.2 + additionalAfter - wrapLength) ++
          rangeOf (range.1 - additionalBefore) wrapLength) := by
      simp only [expandedAndWrappedUsizeRange, checkedAdd_eq fits, back, front, ok_bind, startWraps, endWraps,
        decide_true, decide_false, Bool.false_and, Bool.false_eq_true, if_false, if_true, reaches]
      rfl
    rw [yieldsResidues_of_eq returned, rangeOf_append_nodup (Nat.zero_le _)]
    by_cases apart : range.2 + additionalAfter - wrapLength ≤ range.1 - additionalBefore
    · refine iff_of_true ⟨.inl apart, fun x => ?_⟩ (.inr apart)
      rw [isResidue_after (by omega) (by omega) (by omega), List.mem_append, mem_rangeOf, mem_rangeOf]
      omega
    · refine iff_of_false (fun yields => ?_) (not_or.mpr ⟨reaches, apart⟩)
      have := yields.1
      omega

theorem yieldsResidues_neither (fits : range.2 + additionalAfter < 2 ^ 64)
    (startWraps : ¬ range.1 < additionalBefore) (endWraps : ¬ wrapLength < range.2 + additionalAfter) :
    YieldsResidues range additionalBefore additionalAfter wrapLength := by
  have front : checkedSub range.1 additionalBefore = .ok (range.1 - additionalBefore) :=
    checkedSub_eq (Nat.le_of_not_lt startWraps)
  have returned : expandedAndWrappedUsizeRange range additionalBefore additionalAfter wrapLength =
      .ok (rangeOf (range.1 - additionalBefore) (range.2 + additionalAfter)) := by
    simp only [expandedAndWrappedUsizeRange, checkedAdd_eq fits, front, ok_bind, startWraps, endWraps,
      decide_false, Bool.and_self, Bool.false_eq_true, if_false]
    rfl
  rw [yieldsResidues_of_eq returned]
  refine ⟨rangeOf_nodup _ _, fun x => ?_⟩
  rw [isResidue_inside (by omega) (by omega), mem_rangeOf]
  omega

/-- The sums have to fit. Where only the start wraps, its piece has to reach the range itself or to stay apart
from the expanded end, and where only the end wraps, likewise. -/
theorem yieldsResidues_iff (inside : range.1 ≤ wrapLength ∧ range.2 ≤ wrapLength) :
    YieldsResidues range additionalBefore additionalAfter wrapLength ↔ range.2 + additionalAfter < 2 ^ 64 ∧
      (range.1 < additionalBefore ∧ range.2 + additionalAfter ≤ wrapLength → range.1 + wrapLength < 2 ^ 64 ∧
        (range.1 + wrapLength - additionalBefore ≤ range.2 ∨
          range.2 + additionalAfter ≤ range.1 + wrapLength - additionalBefore)) ∧
      (additionalBefore ≤ range.1 ∧ wrapLength < range.2 + additionalAfter →
        range.1 ≤ range.2 + additionalAfter - wrapLength ∨
          range.2 + additionalAfter - wrapLength ≤ range.1 - additionalBefore) := by
  by_cases fits : range.2 + additionalAfter < 2 ^ 64
  · rw [and_iff_right fits]
    by_cases startWraps : range.1 < additionalBefore
    · by_cases endWraps : wrapLength < range.2 + additionalAfter
      · exact iff_of_true (yieldsResidues_both fits startWraps endWraps) (by omega)
      · rw [yieldsResidues_start fits startWraps endWraps]
        omega
    · by_cases endWraps : wrapLength < range.2 + additionalAfter
      · rw [yieldsResidues_end fits inside.1 startWraps endWraps]
        omega
      · exact iff_of_true (yieldsResidues_neither fits startWraps endWraps) (by omega)
  · refine iff_of_false ?_ fun both => fits both.1
    rintro ⟨out, returned, -⟩
    rw [expandedAndWrappedUsizeRange, checkedAdd_overflow fits] at returned
    cases returned

/-- The range is expanded to both sides and does not wrap into itself. -/
theorem yieldsResidues_iff_wraps : YieldsResidues (2, 4) 3 1 8 := (yieldsResidues_iff (by decide)).mpr (by decide)

/-- The wrapped start meets the expanded end behind the range itself. -/
theorem expanded_repeats : expandedAndWrappedUsizeRange (2, 4) 3 4 8 = .ok [0, 1, 2, 3, 4, 5, 6, 7, 7] ∧
    ¬ YieldsResidues (2, 4) 3 4 8 := by
  have returned : expandedAndWrappedUsizeRange (2, 4) 3 4 8 = .ok [0, 1, 2, 3, 4, 5, 6, 7, 7] := rfl
  refine ⟨returned, fun yields => ?_⟩
  rw [yieldsResidues_of_eq returned] at yields
  exact absurd yields.1 (by decide)

end Pinrail.Util

/-! ## Wrapping outward

`wrapped_usize_outward_from`, as the `next` of its iterator and as what it yields.
-/

namespace Pinrail.Util

open Lib

structure OutwardFrom where
  count : Nat := 0
  afterOffset : Nat := 1
  beforeOffset : Nat := 1

/-- The closure of `std::iter::from_fn`. -/
def OutwardFrom.next (start additionalBefore additionalAfter wrapLength : Nat) (self : OutwardFrom) :
    Except Panic (Option Nat × OutwardFrom) := do
  let count ← checkedAdd 64 self.count 1
  let self := { self with count := count }
  if count > wrapLength then
    return (none, self)
  else if count = 1 then
    return (some (start % wrapLength), self)
  else if self.afterOffset ≤ additionalAfter ∧ self.afterOffset ≤ self.beforeOffset then
    let value := (← checkedAdd 64 start self.afterOffset) % wrapLength
    return (some value, { self with afterOffset := ← checkedAdd 64 self.afterOffset 1 })
  else if self.beforeOffset ≤ additionalBefore then
    let value := (← checkedSub (← checkedAdd 64 start wrapLength) self.beforeOffset) % wrapLength
    return (some value, { self with beforeOffset := ← checkedAdd 64 self.beforeOffset 1 })
  else if self.afterOffset ≤ additionalAfter then
    let value := (← checkedAdd 64 start self.afterOffset) % wrapLength
    return (some value, { self with afterOffset := ← checkedAdd 64 self.afterOffset 1 })
  else
    return (none, self)

def wrappedUsizeOutwardFrom (start additionalBefore additionalAfter wrapLength : Nat) : Except Panic (List Nat) :=
  drain (OutwardFrom.next start additionalBefore additionalAfter wrapLength) (wrapLength + 1) {}

variable {start additionalBefore additionalAfter wrapLength : Nat}

def offsetsAt (additionalBefore additionalAfter distance : Nat) : List ℤ :=
  (if distance ≤ additionalAfter then [(distance : ℤ)] else []) ++
    if distance ≤ additionalBefore then [-(distance : ℤ)] else []

/-- The offsets `0, +1, -1, +2, -2, …`. -/
def outwardOffsets (additionalBefore additionalAfter : Nat) : List ℤ :=
  0 :: (List.range' 1 (max additionalBefore additionalAfter)).flatMap (offsetsAt additionalBefore additionalAfter)

def indexAt (start wrapLength : Nat) (offset : ℤ) : Nat := ((start + offset) % wrapLength).toNat

/-! ## Offsets -/

theorem before_outward (k : Nat) {after : Nat} {offsets : List ℤ}
    (outward : Outward (min (k + 1) additionalBefore) after offsets) : Outward (min k additionalBefore) after
      ((if k + 1 ≤ additionalBefore then [-((k + 1 : ℕ) : ℤ)] else []) ++ offsets) := by
  by_cases before : k + 1 ≤ additionalBefore
  · rw [if_pos before]
    rw [Nat.min_eq_left before] at outward
    rw [Nat.min_eq_left (Nat.le_of_succ_le before)]
    exact .before outward
  · rw [if_neg before]
    rw [Nat.min_eq_right (by omega)] at outward ⊢
    exact outward

theorem offsetsAt_outward (k : Nat) {offsets : List ℤ}
    (outward : Outward (min (k + 1) additionalBefore) (min (k + 1) additionalAfter) offsets) :
    Outward (min k additionalBefore) (min k additionalAfter)
    (offsetsAt additionalBefore additionalAfter (k + 1) ++ offsets) := by
  rw [offsetsAt, List.append_assoc]
  by_cases after : k + 1 ≤ additionalAfter
  · rw [if_pos after]
    rw [Nat.min_eq_left after] at outward
    rw [Nat.min_eq_left (Nat.le_of_succ_le after)]
    exact .after (before_outward k outward)
  · rw [if_neg after]
    rw [Nat.min_eq_right (a := k + 1) (b := additionalAfter) (by omega)] at outward
    rw [Nat.min_eq_right (a := k) (b := additionalAfter) (by omega)]
    exact before_outward k outward

theorem flatMap_outward (additionalBefore additionalAfter m k : Nat) : Outward (min k additionalBefore) (min k additionalAfter)
    ((List.range' (k + 1) m).flatMap (offsetsAt additionalBefore additionalAfter)) := by
  induction m generalizing k with
  | zero => exact .nil _ _
  | succ m ih =>
    rw [List.range'_succ, List.flatMap_cons]
    exact offsetsAt_outward k (ih (k + 1))

theorem mem_outwardOffsets (additionalBefore additionalAfter : Nat) (k : ℤ) :
    k ∈ outwardOffsets additionalBefore additionalAfter ↔ -additionalBefore ≤ k ∧ k ≤ additionalAfter := by
  rw [outwardOffsets, List.mem_cons, List.mem_flatMap]
  constructor
  · rintro (rfl | ⟨distance, near, member⟩)
    · omega
    · rw [offsetsAt, List.mem_append] at member
      rcases member with after | before
      · split_ifs at after
        · rw [List.mem_singleton] at after
          omega
        · cases after
      · split_ifs at before
        · rw [List.mem_singleton] at before
          omega
        · cases before
  · intro inside
    rcases lt_trichotomy k 0 with negative | rfl | positive
    · refine .inr ⟨(-k).toNat, by rw [List.mem_range'_1]; omega, ?_⟩
      rw [offsetsAt, List.mem_append, if_pos (by omega : (-k).toNat ≤ additionalBefore), List.mem_singleton]
      omega
    · exact .inl rfl
    · refine .inr ⟨k.toNat, by rw [List.mem_range'_1]; omega, ?_⟩
      rw [offsetsAt, List.mem_append, if_pos (by omega : k.toNat ≤ additionalAfter), List.mem_singleton]
      omega

/-! ## The iterator -/

theorem indexAt_after (start wrapLength offset : Nat) :
    (start + offset) % wrapLength = indexAt start wrapLength offset := by
  rw [indexAt, ← Int.natCast_add, ← Int.natCast_emod, Int.toNat_natCast]

theorem indexAt_before {offset : Nat} (inside : offset ≤ wrapLength) :
    (start + wrapLength - offset) % wrapLength = indexAt start wrapLength (-offset) := by
  have moved : ((start + wrapLength - offset : ℕ) : ℤ) = start + -offset + wrapLength := by omega
  rw [indexAt, ← Int.add_emod_right, ← moved, ← Int.natCast_emod, Int.toNat_natCast]

variable {count afterOffset beforeOffset : Nat}

theorem next_after (fits : start + wrapLength < 2 ^ 64) (counts : wrapLength + 1 < 2 ^ 64) (started : 0 < count)
    (more : count < wrapLength) (ahead : afterOffset ≤ count) (side : afterOffset ≤ additionalAfter)
    (turn : afterOffset ≤ beforeOffset ∨ additionalBefore < beforeOffset) :
    OutwardFrom.next start additionalBefore additionalAfter wrapLength ⟨count, afterOffset, beforeOffset⟩ =
      .ok (some (indexAt start wrapLength afterOffset), ⟨count + 1, afterOffset + 1, beforeOffset⟩) := by
  have sum : checkedAdd 64 start afterOffset = .ok (start + afterOffset) := checkedAdd_eq (by omega)
  have step : checkedAdd 64 afterOffset 1 = .ok (afterOffset + 1) := checkedAdd_eq (by omega)
  rw [OutwardFrom.next, checkedAdd_eq (by omega : count + 1 < 2 ^ 64), ok_bind]
  dsimp only
  rw [if_neg (by omega), if_neg (by omega)]
  by_cases first : afterOffset ≤ beforeOffset
  · rw [if_pos ⟨side, first⟩, sum, ok_bind, step, ok_bind, indexAt_after]
    rfl
  · rw [if_neg (fun both => first both.2), if_neg (by omega), if_pos side, sum, ok_bind, step, ok_bind, indexAt_after]
    rfl

theorem next_before (fits : start + wrapLength < 2 ^ 64) (counts : wrapLength + 1 < 2 ^ 64) (started : 0 < count)
    (more : count < wrapLength) (ahead : beforeOffset ≤ count) (side : beforeOffset ≤ additionalBefore)
    (turn : afterOffset ≤ additionalAfter → beforeOffset < afterOffset) :
    OutwardFrom.next start additionalBefore additionalAfter wrapLength ⟨count, afterOffset, beforeOffset⟩ =
      .ok (some (indexAt start wrapLength (-beforeOffset)), ⟨count + 1, afterOffset, beforeOffset + 1⟩) := by
  have sum : checkedAdd 64 start wrapLength = .ok (start + wrapLength) := checkedAdd_eq fits
  have sub : checkedSub (start + wrapLength) beforeOffset = .ok (start + wrapLength - beforeOffset) :=
    checkedSub_eq (by omega)
  have step : checkedAdd 64 beforeOffset 1 = .ok (beforeOffset + 1) := checkedAdd_eq (by omega)
  rw [OutwardFrom.next, checkedAdd_eq (by omega : count + 1 < 2 ^ 64), ok_bind]
  dsimp only
  rw [if_neg (by omega), if_neg (by omega), if_neg (by omega), if_pos side, sum, ok_bind, sub, ok_bind, step,
    ok_bind, indexAt_before (by omega)]
  rfl

theorem next_done (counts : wrapLength + 1 < 2 ^ 64) (started : 0 < count) (within : count ≤ wrapLength)
    (done : wrapLength ≤ count ∨ additionalAfter < afterOffset ∧ additionalBefore < beforeOffset) :
    ∃ last, OutwardFrom.next start additionalBefore additionalAfter wrapLength ⟨count, afterOffset, beforeOffset⟩ =
      .ok (none, last) := by
  refine ⟨⟨count + 1, afterOffset, beforeOffset⟩, ?_⟩
  rw [OutwardFrom.next, checkedAdd_eq (by omega : count + 1 < 2 ^ 64), ok_bind]
  dsimp only
  by_cases full : count + 1 > wrapLength
  · rw [if_pos full]
    rfl
  · rw [if_neg full, if_neg (by omega), if_neg (by omega), if_neg (by omega), if_neg (by omega)]
    rfl

theorem yields_offset {offset : ℤ} {offsets : List ℤ} {next' : OutwardFrom} (counts : wrapLength + 1 < 2 ^ 64)
    (started : 0 < count) (within : count ≤ wrapLength)
    (step : count < wrapLength →
      OutwardFrom.next start additionalBefore additionalAfter wrapLength ⟨count, afterOffset, beforeOffset⟩ =
        .ok (some (indexAt start wrapLength offset), next'))
    (rest : count < wrapLength → Yields (OutwardFrom.next start additionalBefore additionalAfter wrapLength) next'
      ((offsets.take (wrapLength - (count + 1))).map (indexAt start wrapLength))) :
    Yields (OutwardFrom.next start additionalBefore additionalAfter wrapLength) ⟨count, afterOffset, beforeOffset⟩
      (((offset :: offsets).take (wrapLength - count)).map (indexAt start wrapLength)) := by
  rcases Nat.lt_or_ge count wrapLength with more | full
  · have split : wrapLength - count = wrapLength - (count + 1) + 1 := by omega
    rw [split, List.take_succ_cons, List.map_cons]
    exact ⟨next', step more, rest more⟩
  · rw [Nat.sub_eq_zero_of_le full, List.take_zero]
    exact next_done counts started within (.inl full)

theorem yields_rings (additionalBefore additionalAfter : Nat) (fits : start + wrapLength < 2 ^ 64)
    (counts : wrapLength + 1 < 2 ^ 64) (m k : Nat)
    (size : max additionalBefore additionalAfter = k + m)
    (within : 1 + min k additionalBefore + min k additionalAfter ≤ wrapLength) :
    Yields (OutwardFrom.next start additionalBefore additionalAfter wrapLength)
      ⟨1 + min k additionalBefore + min k additionalAfter, min k additionalAfter + 1, min k additionalBefore + 1⟩
      ((((List.range' (k + 1) m).flatMap (offsetsAt additionalBefore additionalAfter)).take
        (wrapLength - (1 + min k additionalBefore + min k additionalAfter))).map (indexAt start wrapLength)) := by
  induction m generalizing k with
  | zero =>
    rw [List.range'_zero, List.flatMap_nil, List.take_nil]
    exact next_done counts (by omega) within (.inr (by omega))
  | succ m ih =>
    rw [List.range'_succ, List.flatMap_cons, offsetsAt]
    by_cases after : k + 1 ≤ additionalAfter
    · by_cases before : k + 1 ≤ additionalBefore
      · rw [if_pos after, if_pos before, List.singleton_append, List.cons_append, List.singleton_append]
        rw [Nat.min_eq_left (Nat.le_of_succ_le after), Nat.min_eq_left (Nat.le_of_succ_le before)] at within ⊢
        apply yields_offset counts (by omega) within
        · exact fun more => next_after fits counts (by omega) more (by omega) after (.inl (Nat.le_refl _))
        · intro more
          apply yields_offset counts (by omega) more
          · exact fun more => next_before fits counts (by omega) more (by omega) before fun _ => Nat.lt_succ_self _
          · intro more
            have later := ih (k + 1) (by omega) (by omega)
            have size : 1 + (k + 1) + (k + 1) = 1 + k + k + 1 + 1 := by omega
            rw [Nat.min_eq_left after, Nat.min_eq_left before, size] at later
            exact later
      · rw [if_pos after, if_neg before, List.append_nil, List.singleton_append]
        rw [Nat.min_eq_left (Nat.le_of_succ_le after), Nat.min_eq_right (by omega)] at within ⊢
        apply yields_offset counts (by omega) within
        · exact fun more => next_after fits counts (by omega) more (by omega) after (.inr (Nat.lt_succ_self _))
        · intro more
          have later := ih (k + 1) (by omega) (by omega)
          rw [Nat.min_eq_left after, Nat.min_eq_right (by omega)] at later
          exact later
    · have before : k + 1 ≤ additionalBefore := by omega
      rw [if_neg after, if_pos before, List.nil_append, List.singleton_append]
      rw [Nat.min_eq_right (a := k) (b := additionalAfter) (by omega),
        Nat.min_eq_left (Nat.le_of_succ_le before)] at within ⊢
      apply yields_offset counts (by omega) within
      · exact fun more => next_before fits counts (by omega) more (by omega) before (by omega)
      · intro more
        have later := ih (k + 1) (by omega) (by omega)
        have size : 1 + (k + 1) + additionalAfter = 1 + k + additionalAfter + 1 := by omega
        rw [Nat.min_eq_right (a := k + 1) (b := additionalAfter) (by omega), Nat.min_eq_left before, size] at later
        exact later

theorem wrappedUsizeOutwardFrom_eq (fits : start + wrapLength < 2 ^ 64) (counts : wrapLength + 1 < 2 ^ 64) :
    wrappedUsizeOutwardFrom start additionalBefore additionalAfter wrapLength =
      .ok (((outwardOffsets additionalBefore additionalAfter).take wrapLength).map (indexAt start wrapLength)) := by
  apply Yields.drain
  · cases wrapLength with
    | zero => exact ⟨_, rfl⟩
    | succ wrapLength =>
      have rings := yields_rings additionalBefore additionalAfter fits counts _ 0 (Nat.zero_add _).symm (by omega)
      rw [Nat.zero_min, Nat.zero_min] at rings
      rw [outwardOffsets, List.take_succ_cons, List.map_cons]
      refine ⟨⟨1, 1, 1⟩, ?_, rings⟩
      have first : indexAt start (wrapLength + 1) 0 = start % (wrapLength + 1) := (indexAt_after start _ 0).symm
      rw [OutwardFrom.next, checkedAdd_eq (by decide : 0 + 1 < 2 ^ 64), ok_bind, first]
      dsimp only
      rw [if_neg (by omega), if_pos rfl]
      rfl
  · rw [List.length_map, List.length_take]
    omega

theorem natCast_indexAt (start : Nat) (positive : 0 < wrapLength) (offset : ℤ) :
    (indexAt start wrapLength offset : ℤ) = (start + offset) % wrapLength :=
  Int.toNat_of_nonneg (Int.emod_nonneg _ (by omega))

theorem take_outwardOffsets (additionalBefore additionalAfter : Nat) (positive : 0 < wrapLength) : ∃ before after : Nat,
    before + after < wrapLength ∧ ((outwardOffsets additionalBefore additionalAfter).take wrapLength).Nodup ∧
    (∀ k, k ∈ (outwardOffsets additionalBefore additionalAfter).take wrapLength ↔ -before ≤ k ∧ k ≤ after) ∧
    (before + after + 1 = wrapLength ∨ before = additionalBefore ∧ after = additionalAfter) := by
  obtain ⟨w, rfl⟩ := Nat.exists_eq_add_one.mpr positive
  have outward := flatMap_outward additionalBefore additionalAfter (max additionalBefore additionalAfter) 0
  have whole := mem_outwardOffsets additionalBefore additionalAfter
  rw [Nat.zero_min, Nat.zero_min] at outward
  rw [outwardOffsets] at whole ⊢
  generalize (List.range' (0 + 1) (max additionalBefore additionalAfter)).flatMap
    (offsetsAt additionalBefore additionalAfter) = rings at outward whole
  obtain ⟨before, after, -, -, size, nodup, members⟩ := (outward.take w).interval
  have inside : ∀ k, k ∈ (0 :: rings).take (w + 1) ↔ -before ≤ k ∧ k ≤ after := by
    intro k
    rw [List.take_succ_cons, List.mem_cons, members]
    omega
  rw [List.length_take] at size
  refine ⟨before, after, by omega, ?_, inside, ?_⟩
  · rw [List.take_succ_cons, List.nodup_cons]
    refine ⟨fun again => ?_, nodup⟩
    rw [members] at again
    omega
  · rcases Nat.lt_or_ge rings.length w with few | many
    · right
      rw [List.take_of_length_le (by rw [List.length_cons]; omega)] at inside
      have lowest := (whole (-additionalBefore)).symm.trans (inside _)
      have lowest' := (whole (-before)).symm.trans (inside _)
      have highest := (whole additionalAfter).symm.trans (inside _)
      have highest' := (whole after).symm.trans (inside _)
      omega
    · left
      omega

theorem indices_nodup (wrapLength : Nat) (positive : 0 < wrapLength) :
    (((outwardOffsets additionalBefore additionalAfter).take wrapLength).map (indexAt start wrapLength)).Nodup ∧ ∀ x,
    x ∈ ((outwardOffsets additionalBefore additionalAfter).take wrapLength).map (indexAt start wrapLength) ↔
    IsResidue wrapLength (start - additionalBefore) (start + additionalAfter + 1) x := by
  obtain ⟨before, after, short, nodup, members, enough⟩ := take_outwardOffsets additionalBefore additionalAfter positive
  constructor
  · refine nodup.map_on fun i inside j inside' same => ?_
    rw [members] at inside inside'
    have residues := congrArg (Nat.cast (R := ℤ)) same
    rw [natCast_indexAt start positive, natCast_indexAt start positive] at residues
    have moved := eq_of_emod_eq residues (by rw [abs_lt]; omega)
    omega
  · intro x
    rw [List.mem_map]
    constructor
    · rintro ⟨k, member, rfl⟩
      have inside := (mem_outwardOffsets _ _ _).mp (List.mem_of_mem_take member)
      have value := natCast_indexAt start positive k
      refine ⟨?_, start + k, by omega, by omega, value.symm⟩
      have below := Int.emod_lt_of_pos (start + k) (Int.natCast_pos.mpr positive)
      omega
    · rintro ⟨below, i, low, high, residue⟩
      rcases enough with full | ⟨rfl, rfl⟩
      · have long : IsResidue wrapLength (start - before) (start + after + 1) x :=
          (isResidue_of_long (by omega)).mpr below
        obtain ⟨-, i', low', high', residue'⟩ := long
        refine ⟨i' - start, (members _).mpr (by omega), ?_⟩
        rw [← Nat.cast_inj (R := ℤ), natCast_indexAt start positive, add_sub_cancel, residue']
      · refine ⟨i - start, (members _).mpr (by omega), ?_⟩
        rw [← Nat.cast_inj (R := ℤ), natCast_indexAt start positive, add_sub_cancel, residue]

/-- `wrapped_usize_outward_from` yields every index once, from the start outward. -/
theorem wrappedUsizeOutwardFrom_yields (start additionalBefore additionalAfter wrapLength : Nat)
    (fits : start + wrapLength < 2 ^ 64) (counts : wrapLength + 1 < 2 ^ 64) : ∃ out,
    wrappedUsizeOutwardFrom start additionalBefore additionalAfter wrapLength = .ok out ∧
    out = ((outwardOffsets additionalBefore additionalAfter).take wrapLength).map (indexAt start wrapLength) ∧
    out.length ≤ wrapLength ∧ out.Nodup ∧ ∀ x, x ∈ out ↔ IsResidue wrapLength (start - additionalBefore)
    (start + additionalAfter + 1) x := by
  refine ⟨_, wrappedUsizeOutwardFrom_eq fits counts, rfl, ?_, ?_⟩
  · rw [List.length_map, List.length_take]
    omega
  · rcases Nat.eq_zero_or_pos wrapLength with rfl | positive
    · exact ⟨List.nodup_nil, fun x => iff_of_false List.not_mem_nil fun residue => Nat.not_lt_zero _ residue.1⟩
    · exact indices_nodup wrapLength positive

theorem wrappedUsizeOutwardFrom_yields_wraps : ∃ out, wrappedUsizeOutwardFrom 8 2 3 10 = .ok out ∧
    out = [8, 9, 7, 0, 6, 1] ∧ out.Nodup := by
  obtain ⟨out, returned, rfl, -, nodup, -⟩ := wrappedUsizeOutwardFrom_yields 8 2 3 10 (by decide) (by decide)
  exact ⟨_, returned, rfl, nodup⟩

end Pinrail.Util

import Mathlib.Data.Char
import Mathlib.Data.List.TakeWhile
import Pinrail.Lib.Comparators
import Pinrail.Lib.Rust

/-!
# Natural sorting

`natural_sort` of `paths.rs`. It compares two strings by their tokens, the runs of digits and the
other characters without their ASCII case, and then as texts. Runs of digits are compared as numbers
where both fit `u128`, and as texts otherwise, so that they are no order together.
-/

namespace Pinrail
open Lib
open Std (TransCmp OrientedCmp LawfulEqCmp)

namespace Paths

/-! ## The code -/

/-- `str::cmp`: the order of the bytes is that of the code points. -/
abbrev cmpStr (a b : Str) : Ordering := List.compareLex compare a b

def digitValue (c : Char) : Nat := c.toNat - '0'.toNat

def numberValue (digits : Str) : Nat :=
  digits.foldl (fun value c => 10 * value + digitValue c) 0

/-- `str::parse::<u128>` of a string of digits. -/
def parseU128 (digits : Str) : Option Nat :=
  if digits.isEmpty || 2 ^ 128 ≤ numberValue digits then none else some (numberValue digits)

/-- The comparison that `compare_numeric_segments` makes of the two runs of digits. -/
def compareNumStrs (aNumStr bNumStr : Str) : Ordering :=
  match compare aNumStr.length bNumStr.length with
  | .eq => cmpStr aNumStr bNumStr
  | ordering =>
    match parseU128 aNumStr, parseU128 bNumStr with
    | some aVal, some bVal =>
      match compare aVal bVal with
      | .eq => ordering
      | ord => ord
    | _, _ => cmpStr aNumStr bNumStr

def compareNumericSegments (aIter bIter : Str) : Ordering × Str × Str :=
  let aNumStr := aIter.takeWhile Char.isDigit
  let bNumStr := bIter.takeWhile Char.isDigit
  (compareNumStrs aNumStr bNumStr, aIter.dropWhile Char.isDigit, bIter.dropWhile Char.isDigit)

theorem length_dropWhile_digit {c : Char} (digit : c.isDigit) (s : Str) :
    ((c :: s).dropWhile Char.isDigit).length < (c :: s).length := by
  rw [List.dropWhile_cons_of_pos digit, List.length_cons]
  have shorter := (List.dropWhile_sublist (l := s) Char.isDigit).length_le
  omega

/-- The loop of `natural_sort`. -/
def naturalSortLoop (a b : Str) : Str → Str → Ordering
  | [], [] => cmpStr b a
  | [], _ :: _ => .lt
  | _ :: _, [] => .gt
  | aChar :: aRest, bChar :: bRest =>
    if digits : aChar.isDigit && bChar.isDigit then
      let compared := compareNumericSegments (aChar :: aRest) (bChar :: bRest)
      match compared.1 with
      | .eq => naturalSortLoop a b compared.2.1 compared.2.2
      | ordering => ordering
    else
      match compare aChar.toLower bChar.toLower with
      | .eq => naturalSortLoop a b aRest bRest
      | ordering => ordering
termination_by aIter => aIter.length
decreasing_by
  · exact length_dropWhile_digit (Bool.and_eq_true_iff.mp digits).1 aRest
  · simp

def naturalSort (a b : Str) : Ordering := naturalSortLoop a b a b

/-! ## Tokens -/

theorem isDigit_iff (c : Char) : c.isDigit ↔ 48 ≤ c.toNat ∧ c.toNat ≤ 57 := by
  simp only [Char.isDigit, Bool.and_eq_true, decide_eq_true_eq, ge_iff_le, UInt32.le_iff_toNat_le]
  rfl

theorem toLower_cases (c : Char) : 65 ≤ c.toNat ∧ c.toNat ≤ 90 ∧ c.toLower.toNat = c.toNat + 32 ∨
    ¬(65 ≤ c.toNat ∧ c.toNat ≤ 90) ∧ c.toLower = c := by
  delta Char.toLower
  split
  next upper =>
    simp only [ge_iff_le, UInt32.le_iff_toNat_le] at upper
    refine .inl ⟨upper.1, upper.2, ?_⟩
    have high : c.toNat ≤ 90 := upper.2
    change (c.val + ('a'.val - 'A'.val)).toNat = c.toNat + 32
    rw [UInt32.toNat_add]
    exact Nat.mod_eq_of_lt (by change c.toNat + 32 < _; omega)
  next lower =>
    simp only [ge_iff_le, UInt32.le_iff_toNat_le] at lower
    exact .inr ⟨lower, rfl⟩

theorem isDigit_toLower (c : Char) : c.toLower.isDigit ↔ c.isDigit := by
  rcases toLower_cases c with ⟨low, high, lowered⟩ | ⟨-, same⟩
  · rw [isDigit_iff, isDigit_iff]
    omega
  · rw [same]

inductive Token where
  | digits (run : Str) (nonempty : run ≠ []) (digits : ∀ c ∈ run, c.isDigit)
  | other (c : Char) (notDigit : ¬c.isDigit)

def tokens : Str → List Token
  | [] => []
  | c :: s =>
    if digit : c.isDigit then
      .digits ((c :: s).takeWhile Char.isDigit) (by simp [List.takeWhile_cons_of_pos digit])
        (fun _ member => List.mem_takeWhile_imp member) ::
        tokens ((c :: s).dropWhile Char.isDigit)
    else .other c.toLower ((isDigit_toLower c).not.mpr digit) :: tokens s
termination_by s => s.length
decreasing_by
  · exact length_dropWhile_digit digit s
  · simp

def compareTokens : Token → Token → Ordering
  | .digits a _ _, .digits b _ _ => compareNumStrs a b
  | .digits a nonempty _, .other d _ => compare (a.head nonempty) d
  | .other c _, .digits b nonempty _ => compare c (b.head nonempty)
  | .other c _, .other d _ => compare c d

/-! ## Characters -/

theorem compare_char (c d : Char) : compare c d = compare c.toNat d.toNat := by
  rcases Nat.lt_trichotomy c.toNat d.toNat with less | same | greater
  · rw [Nat.compare_eq_lt.mpr less]
    exact compare_lt_iff_lt.mpr (UInt32.lt_iff_toNat_lt.mpr less)
  · rw [Char.toNat_inj.mp same]
    simp
  · rw [Nat.compare_eq_gt.mpr greater]
    exact compare_gt_iff_gt.mpr (UInt32.lt_iff_toNat_lt.mpr greater)

/-! ## Runs of digits -/

theorem compare_digit (m n : Nat) {c d : Char} (cDigit : c.isDigit) (dDigit : d.isDigit) :
    compare (10 * m + digitValue c) (10 * n + digitValue d) = (compare m n).then (compare c d) := by
  rw [isDigit_iff] at cDigit dDigit
  have cValue : digitValue c = c.toNat - 48 := rfl
  have dValue : digitValue d = d.toNat - 48 := rfl
  rw [compare_char, cValue, dValue]
  rcases Nat.lt_trichotomy m n with less | rfl | greater
  · rw [Nat.compare_eq_lt.mpr less, Nat.compare_eq_lt.mpr (by omega)]
    rfl
  · rw [Nat.compare_eq_eq.mpr rfl, Ordering.then]
    rcases Nat.lt_trichotomy c.toNat d.toNat with less | same | greater
    · rw [Nat.compare_eq_lt.mpr less, Nat.compare_eq_lt.mpr (by omega)]
    · rw [same]
      simp
    · rw [Nat.compare_eq_gt.mpr greater, Nat.compare_eq_gt.mpr (by omega)]
  · rw [Nat.compare_eq_gt.mpr greater, Nat.compare_eq_gt.mpr (by omega)]
    rfl

theorem foldl_compare (m n : Nat) (a b : Str) (same : a.length = b.length) (aDigits : ∀ c ∈ a, c.isDigit)
    (bDigits : ∀ c ∈ b, c.isDigit) : compare (a.foldl (fun value c => 10 * value + digitValue c) m)
    (b.foldl (fun value c => 10 * value + digitValue c) n) = (compare m n).then (cmpStr a b) := by
  induction a generalizing b m n with
  | nil =>
    obtain rfl := List.length_eq_zero_iff.mp same.symm
    simp [List.compareLex_nil_nil]
  | cons c a ih =>
    cases b with
    | nil => cases same
    | cons d b =>
      rw [List.forall_mem_cons] at aDigits bDigits
      rw [List.foldl_cons, List.foldl_cons, ih _ _ b (Nat.succ.inj same) aDigits.2 bDigits.2,
        compare_digit m n aDigits.1 bDigits.1, Ordering.then_assoc, cmpStr, cmpStr,
        List.compareLex_cons_cons]

theorem numberValue_compare (a b : Str) (same : a.length = b.length) (aDigits : ∀ c ∈ a, c.isDigit)
    (bDigits : ∀ c ∈ b, c.isDigit) : compare (numberValue a) (numberValue b) = cmpStr a b := by
  rw [numberValue, numberValue, foldl_compare 0 0 a b same aDigits bDigits]
  rfl

/-- Whether a run of digits is a number of `u128`. -/
def Fits (run : Str) : Prop := (parseU128 run).isSome

instance (run : Str) : Decidable (Fits run) := inferInstanceAs (Decidable (_ = true))

def cmpNumber (a b : Str) : Ordering :=
  compareLex (compareOn numberValue) (compareOn List.length) a b

theorem Fits.parse {run : Str} (fits : Fits run) : parseU128 run = some (numberValue run) := by
  unfold Fits parseU128 at *
  split at fits
  · cases fits
  · next small => rw [if_neg small]

theorem compareNumStrs_number {a b : Str} (aFits : Fits a) (bFits : Fits b) (aDigits : ∀ c ∈ a, c.isDigit)
    (bDigits : ∀ c ∈ b, c.isDigit) : compareNumStrs a b = cmpNumber a b := by
  unfold compareNumStrs cmpNumber compareLex compareOn
  rw [aFits.parse, bFits.parse]
  cases lengths : compare a.length b.length with
  | eq =>
    rw [numberValue_compare a b (Nat.compare_eq_eq.mp lengths) aDigits bDigits]
    simp
  | lt =>
    dsimp only
    cases compare (numberValue a) (numberValue b) <;> rfl
  | gt =>
    dsimp only
    cases compare (numberValue a) (numberValue b) <;> rfl

theorem compareNumStrs_text {a b : Str} (large : ¬(Fits a ∧ Fits b)) : compareNumStrs a b = cmpStr a b := by
  unfold compareNumStrs
  split
  · rfl
  · split
    next aFits bFits => exact absurd ⟨by simp [Fits, aFits], by simp [Fits, bFits]⟩ large
    · rfl

instance : OrientedCmp cmpNumber := inferInstanceAs (OrientedCmp (compareLex _ _))
instance : TransCmp cmpNumber := inferInstanceAs (TransCmp (compareLex _ _))

def Overtaken (u v w : Str) : Prop :=
  Fits u ∧ Fits v ∧ ¬Fits w ∧ cmpNumber u v = .lt ∧ cmpStr v w = .lt ∧ cmpStr w u = .lt

instance (u v w : Str) : Decidable (Overtaken u v w) :=
  inferInstanceAs (Decidable (_ ∧ _))

theorem Overtaken.cyclic {u v w : Str} (overtaken : Overtaken u v w) (uDigits : ∀ c ∈ u, c.isDigit)
    (vDigits : ∀ c ∈ v, c.isDigit) : Cyclic compareNumStrs u v w := by
  obtain ⟨uFits, vFits, wLarge, byNumber, below, above⟩ := overtaken
  refine ⟨?_, ?_, ?_⟩
  · rwa [compareNumStrs_number uFits vFits uDigits vDigits]
  · rwa [compareNumStrs_text fun fits => wLarge fits.2]
  · rwa [compareNumStrs_text fun fits => wLarge fits.1]

theorem overtaken_of_cyclic {x y z : Str} (cyclic : Cyclic compareNumStrs x y z) (xFits : Fits x) (yFits : Fits y)
    (xDigits : ∀ c ∈ x, c.isDigit) (yDigits : ∀ c ∈ y, c.isDigit) (zDigits : ∀ c ∈ z, c.isDigit) : Overtaken x y z := by
  obtain ⟨first, second, third⟩ := cyclic
  rw [compareNumStrs_number xFits yFits xDigits yDigits] at first
  by_cases zFits : Fits z
  · rw [compareNumStrs_number yFits zFits yDigits zDigits] at second
    rw [compareNumStrs_number zFits xFits zDigits xDigits] at third
    have across := TransCmp.lt_trans first second
    rw [cmp_gt_of_lt across] at third
    cases third
  · rw [compareNumStrs_text fun fits => zFits fits.2] at second
    rw [compareNumStrs_text fun fits => zFits fits.1] at third
    exact ⟨xFits, yFits, zFits, first, second, third⟩

theorem not_cyclic_of_large {x y z : Str} (xLarge : ¬Fits x) (yLarge : ¬Fits y) : ¬Cyclic compareNumStrs x y z := by
  rintro ⟨first, second, third⟩
  rw [compareNumStrs_text fun fits => xLarge fits.1] at first
  rw [compareNumStrs_text fun fits => yLarge fits.1] at second
  rw [compareNumStrs_text fun fits => xLarge fits.2] at third
  have across := TransCmp.lt_trans  first second
  rw [cmp_gt_of_lt across] at third
  cases third

theorem compareNumStrs_cyclic_iff {x y z : Str} (xDigits : ∀ c ∈ x, c.isDigit)
    (yDigits : ∀ c ∈ y, c.isDigit) (zDigits : ∀ c ∈ z, c.isDigit) :
    Cyclic compareNumStrs x y z ↔ Overtaken x y z ∨ Overtaken y z x ∨ Overtaken z x y := by
  constructor
  · intro cyclic
    by_cases xFits : Fits x
    · by_cases yFits : Fits y
      · exact .inl (overtaken_of_cyclic cyclic xFits yFits xDigits yDigits zDigits)
      · by_cases zFits : Fits z
        · exact .inr (.inr (overtaken_of_cyclic cyclic.turn.turn zFits xFits zDigits xDigits yDigits))
        · exact absurd cyclic.turn (not_cyclic_of_large yFits zFits)
    · by_cases yFits : Fits y
      · by_cases zFits : Fits z
        · exact .inr (.inl (overtaken_of_cyclic cyclic.turn yFits zFits yDigits zDigits xDigits))
        · exact absurd cyclic.turn.turn (not_cyclic_of_large zFits xFits)
      · exact absurd cyclic (not_cyclic_of_large xFits yFits)
  · rintro (overtaken | overtaken | overtaken)
    · exact overtaken.cyclic xDigits yDigits
    · exact (overtaken.cyclic yDigits zDigits).turn.turn
    · exact (overtaken.cyclic zDigits xDigits).turn

/-! ## Tokens in order -/

theorem compareNumStrs_swap (a b : Str) : compareNumStrs a b = (compareNumStrs b a).swap := by
  by_cases fits : Fits a ∧ Fits b
  · have values : compare (numberValue a) (numberValue b) =
        (compare (numberValue b) (numberValue a)).swap := OrientedCmp.eq_swap
    have texts : cmpStr a b = (cmpStr b a).swap := OrientedCmp.eq_swap
    have lengths : compare a.length b.length = (compare b.length a.length).swap := OrientedCmp.eq_swap
    unfold compareNumStrs
    rw [fits.1.parse, fits.2.parse, texts, lengths]
    cases compare b.length a.length with
    | eq => rfl
    | lt =>
      dsimp only [Ordering.swap]
      rw [values]
      cases compare (numberValue b) (numberValue a) <;> rfl
    | gt =>
      dsimp only [Ordering.swap]
      rw [values]
      cases compare (numberValue b) (numberValue a) <;> rfl
  · rw [compareNumStrs_text fits, compareNumStrs_text (mt And.symm fits)]
    exact OrientedCmp.eq_swap

theorem eq_of_compareNumStrs {a b : Str} (same : compareNumStrs a b = .eq) : a = b := by
  by_cases fits : Fits a ∧ Fits b
  · unfold compareNumStrs at same
    rw [fits.1.parse, fits.2.parse] at same
    split at same
    · exact LawfulEqCmp.eq_of_compare same
    next different =>
      dsimp only at same
      split at same
      · exact absurd same different
      · next other => exact absurd same other
  · rw [compareNumStrs_text fits] at same
    exact LawfulEqCmp.eq_of_compare same

instance : OrientedCmp compareTokens where
  eq_swap {s t} := by
    cases s <;> cases t
    · exact compareNumStrs_swap ..
    all_goals
      simp only [compareTokens]
      exact OrientedCmp.eq_swap

instance : LawfulEqCmp compareTokens where
  eq_of_compare {s t} same := by
    cases s with
    | digits a nonempty aDigits =>
      cases t with
      | digits b =>
        obtain rfl := eq_of_compareNumStrs same
        rfl
      | other d notDigit =>
        have head : a.head nonempty = d := compare_eq_iff_eq.mp same
        exact absurd (head ▸ aDigits _ (List.head_mem nonempty)) notDigit
    | other c notDigit =>
      cases t with
      | digits b nonempty bDigits =>
        have head : c = b.head nonempty := compare_eq_iff_eq.mp same
        exact absurd (head ▸ bDigits _ (List.head_mem nonempty)) notDigit
      | other d =>
        obtain rfl : c = d := compare_eq_iff_eq.mp same
        rfl

def RunsInCircle : Token → Token → Token → Prop
  | .digits x _ _, .digits y _ _, .digits z _ _ =>
    Overtaken x y z ∨ Overtaken y z x ∨ Overtaken z x y
  | _, _, _ => False

theorem compareTokens_cyclic_iff (s t r : Token) : Cyclic compareTokens s t r ↔ RunsInCircle s t r := by
  have head (run : Str) (nonempty : run ≠ []) (digits : ∀ c ∈ run, c.isDigit) :
      48 ≤ (run.head nonempty).toNat ∧ (run.head nonempty).toNat ≤ 57 :=
    (isDigit_iff _).mp (digits _ (List.head_mem nonempty))
  cases s <;> cases t <;> cases r
  · exact compareNumStrs_cyclic_iff ‹_› ‹_› ‹_›
  all_goals
    simp only [Cyclic, compareTokens, compare_char, Nat.compare_eq_lt, RunsInCircle, iff_false]
    grind [isDigit_iff]

/-! ## The order of strings -/

theorem tokens_digit {c : Char} (digit : c.isDigit) (s : Str) : ∃ nonempty digits, tokens (c :: s) =
      .digits ((c :: s).takeWhile Char.isDigit) nonempty digits :: tokens ((c :: s).dropWhile Char.isDigit) := by
  rw [tokens, dif_pos digit]
  exact ⟨_, _, rfl⟩

theorem tokens_other {c : Char} (other : ¬c.isDigit) (s : Str) :
    tokens (c :: s) = .other c.toLower ((isDigit_toLower c).not.mpr other) :: tokens s := by
  rw [tokens, dif_neg other]

theorem toLower_digit {c : Char} (digit : c.isDigit) : c.toLower = c := by
  rw [isDigit_iff] at digit
  refine dif_neg fun upper => ?_
  have low : 65 ≤ c.toNat := UInt32.le_iff_toNat_le.mp upper.1
  omega

theorem tokens_apart {aChar bChar : Char} (aRest bRest : Str) (apart : ¬(aChar.isDigit && bChar.isDigit)) :
    ∃ s t restA restB, tokens (aChar :: aRest) = s :: restA ∧ tokens (bChar :: bRest) = t :: restB ∧
    compareTokens s t = compare aChar.toLower bChar.toLower ∧
    (compareTokens s t = .eq → restA = tokens aRest ∧ restB = tokens bRest) := by
  by_cases aDigit : aChar.isDigit
  · have bOther : ¬bChar.isDigit := fun bDigit => apart (by rw [aDigit, bDigit]; rfl)
    obtain ⟨nonempty, digits, isTokens⟩ := tokens_digit aDigit aRest
    refine ⟨_, _, _, _, isTokens, tokens_other bOther bRest, ?_, ?_⟩
    · simp only [compareTokens, List.takeWhile_cons_of_pos aDigit, List.head_cons, toLower_digit aDigit]
    · intro same
      cases LawfulEqCmp.eq_of_compare same
  · rw [tokens_other aDigit]
    by_cases bDigit : bChar.isDigit
    · obtain ⟨nonempty, digits, isTokens⟩ := tokens_digit bDigit bRest
      refine ⟨_, _, _, _, rfl, isTokens, ?_, ?_⟩
      · simp only [compareTokens, List.takeWhile_cons_of_pos bDigit, List.head_cons, toLower_digit bDigit]
      · intro same
        cases LawfulEqCmp.eq_of_compare same
    · exact ⟨_, _, _, _, rfl, tokens_other bDigit bRest, rfl, fun _ => ⟨rfl, rfl⟩⟩

theorem naturalSortLoop_eq (a b aIter bIter : Str) : naturalSortLoop a b aIter bIter =
      (List.compareLex compareTokens (tokens aIter) (tokens bIter)).then (cmpStr b a) := by
  fun_induction naturalSortLoop a b aIter bIter with
  | case1 => rw [tokens, List.compareLex_nil_nil, Ordering.then]
  | case2 bChar bRest =>
    rw [tokens, tokens]
    split <;> rfl
  | case3 aChar aRest =>
    rw [tokens, tokens]
    split <;> rfl
  | case4 aChar aRest bChar bRest digits compared same ih =>
    obtain ⟨aDigit, bDigit⟩ := Bool.and_eq_true_iff.mp digits
    obtain ⟨_, _, aTokens⟩ := tokens_digit aDigit aRest
    obtain ⟨_, _, bTokens⟩ := tokens_digit bDigit bRest
    change compareNumStrs _ _ = .eq at same
    rw [ih, aTokens, bTokens, List.compareLex_cons_cons, compareTokens, same]
    rfl
  | case5 aChar aRest bChar bRest digits compared different =>
    obtain ⟨aDigit, bDigit⟩ := Bool.and_eq_true_iff.mp digits
    obtain ⟨_, _, aTokens⟩ := tokens_digit aDigit aRest
    obtain ⟨_, _, bTokens⟩ := tokens_digit bDigit bRest
    change compareNumStrs _ _ = .eq → False at different
    change compareNumStrs _ _ = _
    rw [aTokens, bTokens, List.compareLex_cons_cons, compareTokens]
    cases ordering : compareNumStrs ((aChar :: aRest).takeWhile Char.isDigit)
      ((bChar :: bRest).takeWhile Char.isDigit) with
    | eq => exact absurd ordering different
    | lt => rfl
    | gt => rfl
  | case6 aChar aRest bChar bRest apart same ih =>
    obtain ⟨s, t, restA, restB, aTokens, bTokens, compared, rests⟩ := tokens_apart aRest bRest apart
    obtain ⟨rfl, rfl⟩ := rests (compared.trans same)
    rw [ih, aTokens, bTokens, List.compareLex_cons_cons, compared, same]
    rfl
  | case7 aChar aRest bChar bRest apart different =>
    obtain ⟨s, t, restA, restB, aTokens, bTokens, compared, -⟩ := tokens_apart aRest bRest apart
    rw [aTokens, bTokens, List.compareLex_cons_cons, compared]
    cases ordering : compare aChar.toLower bChar.toLower with
    | eq => exact absurd ordering different
    | lt => rfl
    | gt => rfl

theorem naturalSort_eq (a b : Str) :
    naturalSort a b = (List.compareLex compareTokens (tokens a) (tokens b)).then (cmpStr b a) :=
  naturalSortLoop_eq a b a b

/-- The strings are the same up to ASCII case in front of three runs of digits that are compared in
a circle: one of them overflows `u128` and stands as a text between the other two, which their
values order the other way. -/
def PartInCircle (a b c : Str) : Prop :=
  ∃ front x y z restA restB restC, tokens a = front ++ x :: restA ∧ tokens b = front ++ y :: restB ∧
    tokens c = front ++ z :: restC ∧ RunsInCircle x y z

/-- Equality and antisymmetry hold of all strings; transitivity fails exactly around a run of
digits that overflows. -/
theorem naturalSort_order_iff (a b c : Str) :
    ((naturalSort a b = .eq → a = b) ∧ naturalSort b a = (naturalSort a b).swap ∧
      ((naturalSort a b).isLE → (naturalSort b c).isLE → (naturalSort a c).isLE)) ↔
    ¬PartInCircle a b c := by
  have equal : naturalSort a b = .eq → a = b := by
    intro same
    rw [naturalSort_eq, Ordering.then_eq_eq] at same
    exact (LawfulEqCmp.eq_of_compare same.2).symm
  have reversed : naturalSort b a = (naturalSort a b).swap := by
    rw [naturalSort_eq, naturalSort_eq, Ordering.swap_then]
    congr 1
    · exact OrientedCmp.eq_swap
    · exact OrientedCmp.eq_swap
  have parts : PartInCircle a b c ↔ CyclicAt compareTokens (tokens a) (tokens b) (tokens c) := by
    simp only [PartInCircle, cyclicAt_iff, compareTokens_cyclic_iff]
  have tie : (cmpStr b a).isLE → (cmpStr c b).isLE → (cmpStr c a).isLE := fun first second =>
    TransCmp.isLE_trans second first
  rw [parts, ← compareLex_then_trans_iff tie, ← naturalSort_eq, ← naturalSort_eq, ← naturalSort_eq]
  exact ⟨fun order => order.2.2, fun trans => ⟨equal, reversed, trans⟩⟩

/-- 9 is less than 10, and 10 as a text less than 10 ^ 39, which as a text is less than 9. -/
theorem naturalSort_circle : ¬∀ a b c, (naturalSort a b).isLE → (naturalSort b c).isLE → (naturalSort a c).isLE := by
  intro trans
  have large := trans ['9'] ['1', '0'] ('1' :: List.replicate 39 '0')
  revert large
  decide +kernel

end Paths
end Pinrail

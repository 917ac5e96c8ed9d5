import Mathlib.Data.List.Forall2
import Mathlib.Tactic.Common
import Pinrail.Lib.Rust

/-!
# UTF-16

Texts and their code units. Units that are no text decode with a replacement character for each
surrogate that has no partner.
-/

namespace Pinrail.Lib.Utf16

def isHigh (unit : UInt16) : Bool := 0xD800 ≤ unit.toNat && unit.toNat < 0xDC00

def isLow (unit : UInt16) : Bool := 0xDC00 ≤ unit.toNat && unit.toNat < 0xE000

def isSurrogate (unit : UInt16) : Bool := isHigh unit || isLow unit

def encodeChar (c : Char) : List UInt16 :=
  if c.toNat < 0x10000 then [.ofNat c.toNat]
  else [.ofNat (0xD800 + (c.toNat - 0x10000) / 0x400), .ofNat (0xDC00 + (c.toNat - 0x10000) % 0x400)]

def encode (text : Str) : List UInt16 := text.flatMap encodeChar

def replacement : Char := '\uFFFD'

def decodePair (high low : UInt16) : Char :=
  .ofNat (0x10000 + (high.toNat - 0xD800) * 0x400 + (low.toNat - 0xDC00))

def decodeUnit (unit : UInt16) : Char := if isSurrogate unit then replacement else .ofNat unit.toNat

def decodeLossy : List UInt16 → Str
  | [] => []
  | [unit] => [decodeUnit unit]
  | unit :: next :: rest =>
    if isHigh unit && isLow next then decodePair unit next :: decodeLossy rest
    else decodeUnit unit :: decodeLossy (next :: rest)

def WellFormed (units : List UInt16) : Prop := encode (decodeLossy units) = units

instance (units : List UInt16) : Decidable (WellFormed units) := inferInstanceAs (Decidable (_ = _))

def Kept (unit kept : UInt16) : Prop := kept = unit ∨ isSurrogate unit = true ∧ kept = 0xFFFD

/-! ## One character -/

theorem toNat_ofNat_of_lt {n : Nat} (low : n < 0x10000) : (UInt16.ofNat n).toNat = n := by
  rw [UInt16.toNat_ofNat', Nat.mod_eq_of_lt low]

theorem char_toNat (c : Char) : c.toNat < 0xD800 ∨ 0xDFFF < c.toNat ∧ c.toNat < 0x110000 := c.valid

theorem toNat_char_ofNat {n : Nat} (valid : n < 0xD800 ∨ 0xDFFF < n ∧ n < 0x110000) : (Char.ofNat n).toNat = n := by
  unfold Char.ofNat
  rw [dif_pos (show n.isValidChar from valid)]
  rfl

theorem isHigh_iff {unit : UInt16} : isHigh unit = true ↔ 0xD800 ≤ unit.toNat ∧ unit.toNat < 0xDC00 := by
  simp [isHigh]

theorem isLow_iff {unit : UInt16} : isLow unit = true ↔ 0xDC00 ≤ unit.toNat ∧ unit.toNat < 0xE000 := by
  simp [isLow]

theorem isSurrogate_iff {unit : UInt16} : isSurrogate unit = true ↔ 0xD800 ≤ unit.toNat ∧ unit.toNat < 0xE000 := by
  rw [isSurrogate, Bool.or_eq_true, isHigh_iff, isLow_iff]
  omega

theorem toNat_decodePair {high low : UInt16} (isHigh_ : isHigh high = true) (isLow_ : isLow low = true) :
    (decodePair high low).toNat = 0x10000 + (high.toNat - 0xD800) * 0x400 + (low.toNat - 0xDC00) := by
  rw [isHigh_iff] at isHigh_
  rw [isLow_iff] at isLow_
  exact toNat_char_ofNat (.inr (by omega))

theorem encodeChar_decodePair {high low : UInt16} (isHigh_ : isHigh high = true) (isLow_ : isLow low = true) :
    encodeChar (decodePair high low) = [high, low] := by
  have value := toNat_decodePair isHigh_ isLow_
  rw [isHigh_iff] at isHigh_
  rw [isLow_iff] at isLow_
  have first : UInt16.ofNat (0xD800 + ((decodePair high low).toNat - 0x10000) / 0x400) = high := by
    rw [← UInt16.toNat_inj, toNat_ofNat_of_lt (by omega), value]
    omega
  have second : UInt16.ofNat (0xDC00 + ((decodePair high low).toNat - 0x10000) % 0x400) = low := by
    rw [← UInt16.toNat_inj, toNat_ofNat_of_lt (by omega), value]
    omega
  rw [encodeChar, if_neg (by omega), first, second]

theorem encodeChar_ofNat {unit : UInt16} (plain : isSurrogate unit = false) :
    encodeChar (.ofNat unit.toNat) = [unit] := by
  rw [Bool.eq_false_iff, Ne, isSurrogate_iff] at plain
  have low : unit.toNat < 0x10000 := unit.toNat_lt
  rw [encodeChar, toNat_char_ofNat (by omega), if_pos low, UInt16.ofNat_toNat]

theorem encodeChar_decodeUnit (unit : UInt16) : ∃ kept, encodeChar (decodeUnit unit) = [kept] ∧ Kept unit kept := by
  unfold decodeUnit
  split_ifs with surrogate
  · exact ⟨0xFFFD, by decide, .inr ⟨surrogate, rfl⟩⟩
  · exact ⟨unit, encodeChar_ofNat (by simpa using surrogate), .inl rfl⟩

theorem encodeChar_cases (c : Char) : (∃ unit, encodeChar c = [unit] ∧ isSurrogate unit = false ∧ decodeUnit unit = c) ∨
    ∃ high low, encodeChar c = [high, low] ∧ isHigh high = true ∧ isLow low = true ∧ decodePair high low = c := by
  have valid := char_toNat c
  unfold encodeChar
  split_ifs with low
  · left
    have unit := toNat_ofNat_of_lt low
    have plain : ¬ isSurrogate (.ofNat c.toNat) = true := by
      rw [isSurrogate_iff, unit]
      omega
    refine ⟨_, rfl, by simpa using plain, ?_⟩
    rw [decodeUnit, if_neg plain, unit, Char.ofNat_toNat]
  · right
    have high := toNat_ofNat_of_lt (n := 0xD800 + (c.toNat - 0x10000) / 0x400) (by omega)
    have low := toNat_ofNat_of_lt (n := 0xDC00 + (c.toNat - 0x10000) % 0x400) (by omega)
    refine ⟨_, _, rfl, by rw [isHigh_iff, high]; omega, by rw [isLow_iff, low]; omega, ?_⟩
    have value : 0x10000 + (0xD800 + (c.toNat - 0x10000) / 0x400 - 0xD800) * 0x400 +
        (0xDC00 + (c.toNat - 0x10000) % 0x400 - 0xDC00) = c.toNat := by omega
    rw [decodePair, high, low, value, Char.ofNat_toNat]

/-! ## Texts -/

@[simp] theorem encode_cons (c : Char) (text : Str) : encode (c :: text) = encodeChar c ++ encode text := rfl

theorem decodeLossy_encode (text : Str) : decodeLossy (encode text) = text := by
  induction text with
  | nil => rfl
  | cons c text ih =>
    rw [encode_cons]
    rcases encodeChar_cases c with ⟨unit, encoded, plain, same⟩ | ⟨high, low, encoded, isHigh_, isLow_, same⟩
    · rw [encoded, List.singleton_append]
      have notHigh : isHigh unit = false := by
        rw [isSurrogate, Bool.or_eq_false_iff] at plain
        exact plain.1
      cases units : encode text with
      | nil =>
        rw [units] at ih
        rw [decodeLossy, same, ← ih, decodeLossy]
      | cons next rest =>
        rw [units] at ih
        rw [decodeLossy, notHigh, Bool.false_and, if_neg Bool.false_ne_true, same, ih]
    · rw [encoded, List.cons_append, List.singleton_append, decodeLossy, isHigh_, isLow_, Bool.and_self, if_pos rfl,
        same, ih]

theorem wellFormed_encode (text : Str) : WellFormed (encode text) := by
  rw [WellFormed, decodeLossy_encode]

theorem kept_encode (units : List UInt16) : List.Forall₂ Kept units (encode (decodeLossy units)) := by
  induction units using decodeLossy.induct with
  | case1 => exact .nil
  | case2 unit =>
    obtain ⟨kept, encoded, keeps⟩ := encodeChar_decodeUnit unit
    rw [decodeLossy, encode_cons, encoded]
    exact .cons keeps .nil
  | case3 unit next rest pair ih =>
    rw [decodeLossy, if_pos pair, encode_cons]
    rw [Bool.and_eq_true] at pair
    rw [encodeChar_decodePair pair.1 pair.2]
    exact .cons (.inl rfl) (.cons (.inl rfl) ih)
  | case4 unit next rest alone ih =>
    obtain ⟨kept, encoded, keeps⟩ := encodeChar_decodeUnit unit
    rw [decodeLossy, if_neg alone, encode_cons, encoded]
    exact .cons keeps ih

theorem Kept.antisymm {unit kept : UInt16} (there : Kept unit kept) (back : Kept kept unit) : unit = kept := by
  rcases there with same | ⟨surrogate, same⟩
  · exact same.symm
  · rcases back with same | ⟨surrogate', -⟩
    · exact same
    · rw [same] at surrogate'
      exact absurd surrogate' (by decide)

end Pinrail.Lib.Utf16

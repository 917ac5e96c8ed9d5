import Pinrail.Lib.Rust

/-!
# Strings by their bytes

Positions in a string are offsets of bytes in its UTF-8 encoding, and a cut that is not between two
characters panics.
-/

namespace Pinrail.Lib

/-- `str::len`. -/
def byteLen : Str → Nat
  | [] => 0
  | c :: s => c.utf8Size + byteLen s

/-- `str::find` with a predicate. -/
def findByte (p : Char → Bool) : Str → Option Nat
  | [] => none
  | c :: s => if p c then some 0 else (findByte p s).map (c.utf8Size + ·)

/-- `str::split_at`. -/
def splitAtByte : Str → Nat → Except Panic (Str × Str)
  | s, 0 => .ok ([], s)
  | [], _ + 1 => .error .indexOutOfBounds
  | c :: s, offset =>
    if offset < c.utf8Size then .error .indexOutOfBounds
    else do
      let (front, back) ← splitAtByte s (offset - c.utf8Size)
      return (c :: front, back)

/-- The slice `&s[offset..]`. -/
def sliceFromByte (s : Str) (offset : Nat) : Except Panic Str := do
  let (_, back) ← splitAtByte s offset
  return back

/-- `char::is_whitespace`. -/
def isWhitespace (c : Char) : Bool :=
  let code := c.toNat
  (9 ≤ code && code ≤ 13) || code == 0x20 || code == 0x85 || code == 0xA0 || code == 0x1680 ||
    (0x2000 ≤ code && code ≤ 0x200A) || code == 0x2028 || code == 0x2029 || code == 0x202F ||
    code == 0x205F || code == 0x3000

theorem byteLen_append (front back : Str) : byteLen (front ++ back) = byteLen front + byteLen back := by
  induction front with
  | nil => rw [List.nil_append, byteLen, Nat.zero_add]
  | cons c front ih => rw [List.cons_append, byteLen, byteLen, ih, Nat.add_assoc]

theorem byteLen_cons (c : Char) (s : Str) : byteLen (c :: s) = c.utf8Size + byteLen s := rfl

theorem eq_nil_of_byteLen {s : Str} (none : byteLen s = 0) : s = [] := by
  cases s with
  | nil => rfl
  | cons c s =>
    have positive := c.utf8Size_pos
    rw [byteLen] at none
    omega

theorem append_of_byteLen_le {front back front' back' : Str} (same : front ++ back = front' ++ back')
    (le : byteLen front ≤ byteLen front') : ∃ middle, front' = front ++ middle ∧ back = middle ++ back' := by
  rcases List.append_eq_append_iff.mp same with ⟨middle, longer, others⟩ | ⟨middle, rfl, rfl⟩
  · exact ⟨middle, longer, others⟩
  · rw [byteLen_append] at le
    obtain rfl := eq_nil_of_byteLen (s := middle) (by omega)
    exact ⟨[], by simp, by simp⟩

theorem splitAtByte_append (front back : Str) : splitAtByte (front ++ back) (byteLen front) = .ok (front, back) := by
  induction front with
  | nil => rw [byteLen, splitAtByte, List.nil_append]
  | cons c front ih =>
    have positive := c.utf8Size_pos
    obtain ⟨offset, at_⟩ : ∃ offset, byteLen (c :: front) = offset + 1 :=
      ⟨byteLen (c :: front) - 1, by rw [byteLen]; omega⟩
    have inside : ¬ offset + 1 < c.utf8Size := by
      rw [← at_, byteLen]
      omega
    have rest : offset + 1 - c.utf8Size = byteLen front := by
      rw [← at_, byteLen]
      omega
    rw [at_, List.cons_append, splitAtByte, if_neg inside, rest, ih]
    · rfl
    · exact nofun

theorem sliceFromByte_append (front back : Str) : sliceFromByte (front ++ back) (byteLen front) = .ok back := by
  rw [sliceFromByte, splitAtByte_append]
  rfl

theorem findByte_getD (p : Char → Bool) (s : Str) :
    (findByte p s).getD (byteLen s) = byteLen (s.takeWhile fun c => !p c) := by
  induction s with
  | nil => rfl
  | cons c s ih =>
    rw [findByte, List.takeWhile_cons]
    cases found : p c with
    | true => rfl
    | false =>
      rw [if_neg Bool.false_ne_true, byteLen]
      cases later : findByte p s with
      | none =>
        rw [later] at ih
        simp only [Option.map_none, Option.getD_none, Bool.not_false, if_true, byteLen] at ih ⊢
        rw [← ih]
      | some offset =>
        rw [later] at ih
        simp only [Option.map_some, Option.getD_some, Bool.not_false, if_true, byteLen] at ih ⊢
        rw [← ih]

theorem splitAtByte_findByte (p : Char → Bool) (s : Str) : splitAtByte s ((findByte p s).getD (byteLen s)) =
      .ok (s.takeWhile (fun c => !p c), s.dropWhile fun c => !p c) := by
  rw [findByte_getD]
  have split := splitAtByte_append (s.takeWhile fun c => !p c) (s.dropWhile fun c => !p c)
  rwa [List.takeWhile_append_dropWhile] at split

end Pinrail.Lib

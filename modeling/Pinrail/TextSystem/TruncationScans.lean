import Mathlib.Tactic.Linarith
import Mathlib.Tactic.Ring
import Pinrail.TextSystem.Truncation

/-!
# The scans of truncation

A scan passes over the characters of a line from one of its ends. What it returns is the offset of a
cut between two characters, at which what it passed over is narrow enough.
-/

namespace Pinrail.TextSystem
open Lib

theorem extent_utf8Size (text : Text) : extent Char.utf8Size text = byteLen text := by
  induction text with
  | nil => rfl
  | cons c text ih => rw [extent_cons, ih, byteLen]

theorem charIndices_append (front back : Text) :
    charIndices (front ++ back) = charIndices front ++ placedFrom Char.utf8Size (byteLen front) back := by
  rw [charIndices, placedFrom_append, extent_utf8Size, Nat.zero_add, charIndices]

theorem charIndices_concat (front : Text) (c : Char) :
    (charIndices (front ++ [c])).reverse = (byteLen front, c) :: (charIndices front).reverse := by
  rw [charIndices_append, placedFrom, placedFrom, List.reverse_append]
  rfl

namespace LineWrapper

variable {self : LineWrapper} {truncateWidth suffixWidth : ℚ}

theorem textWidth_append (front back : Text) :
    self.textWidth (front ++ back) = self.textWidth front + self.textWidth back := by
  simp [textWidth]

theorem textWidth_cons (c : Char) (text : Text) :
    self.textWidth (c :: text) = self.widthForChar c + self.textWidth text := by
  simp [textWidth]

theorem textWidth_nonneg (nonneg : ∀ c, 0 ≤ self.widthForChar c) (text : Text) : 0 ≤ self.textWidth text := by
  apply List.sum_nonneg
  intro width member
  obtain ⟨c, -, rfl⟩ := List.mem_map.mp member
  exact nonneg c

/-! ## Where a line is too wide -/

theorem truncateScan_cons {ix truncateIx found : Nat} {c : Char} {rest : List (Nat × Char)} {width : ℚ}
    (good : Nat → Prop) (starts : good truncateIx)
    (fits : width + suffixWidth < truncateWidth → good ix)
    (scanned : self.truncateScan truncateWidth suffixWidth ((ix, c) :: rest) width truncateIx = some found) :
    ∃ next, good next ∧ (found = next ∨
      self.truncateScan truncateWidth suffixWidth rest (width + self.widthForChar c) next = some found) := by
  rw [truncateScan] at scanned
  refine ⟨if width + suffixWidth < truncateWidth then ix else truncateIx, ?_, ?_⟩
  · split
    next room => exact fits room
    next => exact starts
  · split at scanned
    · exact .inl (Option.some.inj scanned).symm
    · exact .inr scanned

theorem truncateScan_forward (good : Nat → Prop) {front back : Text} {truncateIx found : Nat} (starts : good truncateIx)
    (fits : ∀ passed c rest, back = passed ++ c :: rest →
      self.textWidth (front ++ passed) + suffixWidth < truncateWidth → good (byteLen (front ++ passed)))
    (scanned : self.truncateScan truncateWidth suffixWidth
      (placedFrom Char.utf8Size (byteLen front) back) (self.textWidth front) truncateIx = some found) :
    good found := by
  induction back generalizing front truncateIx with
  | nil => cases scanned
  | cons c back ih =>
    have here : self.textWidth front + suffixWidth < truncateWidth → good (byteLen front) := by
      simpa using fits [] c back rfl
    obtain ⟨next, isGood, rfl | later⟩ := truncateScan_cons good starts here scanned
    · exact isGood
    · have width : self.textWidth front + self.widthForChar c = self.textWidth (front ++ [c]) := by
        simp [textWidth]
      have size : byteLen front + c.utf8Size = byteLen (front ++ [c]) := by simp [byteLen_append, byteLen]
      rw [width, size] at later
      refine ih isGood (fun passed d rest split room => ?_) later
      rw [List.append_assoc] at room ⊢
      exact fits (c :: passed) d rest (by rw [split, List.cons_append]) room

theorem truncateScan_backward (good : Nat → Prop) {front back : Text} {truncateIx found : Nat}
    (starts : good truncateIx)
    (fits : ∀ rest c passed, front = rest ++ c :: passed →
      self.textWidth (passed ++ back) + suffixWidth < truncateWidth → good (byteLen rest))
    (scanned : self.truncateScan truncateWidth suffixWidth (charIndices front).reverse
      (self.textWidth back) truncateIx = some found) : good found := by
  induction front using List.reverseRecOn generalizing back truncateIx with
  | nil => cases scanned
  | append_singleton front c ih =>
    rw [charIndices_concat] at scanned
    have here : self.textWidth back + suffixWidth < truncateWidth → good (byteLen front) := fits front c [] rfl
    obtain ⟨next, isGood, rfl | later⟩ := truncateScan_cons good starts here scanned
    · exact isGood
    · have width : self.textWidth back + self.widthForChar c = self.textWidth (c :: back) := by
        rw [textWidth_cons, add_comm]
      rw [width] at later
      refine ih isGood (fun rest d passed split room => ?_) later
      refine fits rest d (passed ++ [c]) (by rw [split, List.append_assoc, List.cons_append]) ?_
      rwa [List.append_assoc]

/-! ## When a line is too wide -/

theorem truncateScan_none_iff {width : ℚ} {truncateIx : Nat} (characters : List (Nat × Char)) :
    self.truncateScan truncateWidth suffixWidth characters width truncateIx = none ↔ ∀ passed rest,
    characters = passed ++ rest → passed ≠ [] → ¬ truncateWidth < ⌊width + self.textWidth (passed.map Prod.snd)⌋ := by
  induction characters generalizing width truncateIx with
  | nil =>
    refine iff_of_true rfl fun passed rest split notEmpty => absurd ?_ notEmpty
    exact (List.append_eq_nil_iff.mp split.symm).1
  | cons character characters ih =>
    obtain ⟨ix, c⟩ := character
    rw [truncateScan]
    split
    next exceeds =>
      refine iff_of_false nofun fun fits => fits [(ix, c)] characters rfl (List.cons_ne_nil _ _) ?_
      simpa [textWidth] using exceeds
    next fits =>
      rw [ih]
      constructor
      · intro later passed rest split notEmpty
        obtain ⟨first, passed, rfl⟩ := List.exists_cons_of_ne_nil notEmpty
        obtain ⟨rfl, others⟩ := List.cons.inj split
        rw [List.map_cons, textWidth_cons, ← add_assoc]
        cases passed with
        | nil => simpa [textWidth] using fits
        | cons second passed => exact later (second :: passed) rest others (List.cons_ne_nil _ _)
      · intro all passed rest split notEmpty
        have longer := all ((ix, c) :: passed) rest (by rw [split]; rfl) (List.cons_ne_nil _ _)
        rwa [List.map_cons, textWidth_cons, ← add_assoc] at longer

/-! ## How much fits -/

theorem fitScan_forward (front back : Text) {budget : ℚ} (fits : self.textWidth front ≤ budget) : ∃ passed rest,
    back = passed ++ rest ∧ self.textWidth (front ++ passed) ≤ budget ∧
    self.fitScan budget (fun (ix, c) => ix + c.utf8Size) (placedFrom Char.utf8Size (byteLen front) back)
    (self.textWidth front) (byteLen front) = byteLen (front ++ passed) := by
  induction back generalizing front with
  | nil => exact ⟨[], [], rfl, by simpa using fits, by simp [placedFrom, fitScan]⟩
  | cons c back ih =>
    have width : self.textWidth front + self.widthForChar c = self.textWidth (front ++ [c]) := by
      simp [textWidth]
    have size : byteLen front + c.utf8Size = byteLen (front ++ [c]) := by simp [byteLen_append, byteLen]
    rw [placedFrom, fitScan]
    dsimp only
    rw [width, size]
    split
    next => exact ⟨[], c :: back, rfl, by simpa using fits, by simp⟩
    next room =>
      obtain ⟨passed, rest, rfl, inside, scanned⟩ := ih (front ++ [c]) (not_lt.mp room)
      exact ⟨c :: passed, rest, rfl, by simpa using inside, by simpa using scanned⟩

theorem fitScan_front (line : Text) {budget : ℚ} (room : 0 ≤ budget) : ∃ front rest, line = front ++ rest ∧
    self.textWidth front ≤ budget ∧ self.fitScan budget (fun (ix, c) => ix + c.utf8Size)
    (charIndices line) 0 0 = byteLen front :=
  fitScan_forward [] line room

theorem fitScan_backward (front back : Text) {budget : ℚ} (fits : self.textWidth back ≤ budget) : ∃ rest passed,
    front = rest ++ passed ∧ self.textWidth (passed ++ back) ≤ budget ∧ self.fitScan budget (fun (ix, _) => ix)
    (charIndices front).reverse (self.textWidth back) (byteLen front) = byteLen rest := by
  induction front using List.reverseRecOn generalizing back with
  | nil => exact ⟨[], [], rfl, fits, rfl⟩
  | append_singleton front c ih =>
    have width : self.textWidth back + self.widthForChar c = self.textWidth (c :: back) := by
      rw [textWidth_cons, add_comm]
    rw [charIndices_concat, fitScan]
    dsimp only
    rw [width]
    split
    next => exact ⟨front ++ [c], [], by simp, fits, rfl⟩
    next room =>
      obtain ⟨rest, passed, rfl, inside, scanned⟩ := ih (c :: back) (not_lt.mp room)
      exact ⟨rest, passed ++ [c], by simp, by simpa using inside, scanned⟩

theorem fitScan_back (line : Text) {budget : ℚ} (room : 0 ≤ budget) : ∃ rest back, line = rest ++ back ∧
    self.textWidth back ≤ budget ∧ self.fitScan budget (fun (ix, _) => ix)
    (charIndices line).reverse 0 (byteLen line) = byteLen rest := by
  obtain ⟨rest, back, split, fits, scanned⟩ := fitScan_backward line [] room
  rw [List.append_nil] at fits
  exact ⟨rest, back, split, fits, scanned⟩

/-! ## Cuts of a line -/

theorem shouldTruncateLine_fromEnd {line affix : Text} {ix : Nat}
    (found : self.shouldTruncateLine line truncateWidth affix .fromEnd = some ix) : ∃ front c back, line = front ++ c ::
    back ∧ ix = byteLen front ∧ (front = [] ∨ self.textWidth front + self.textWidth affix < truncateWidth) := by
  cases line with
  | nil => cases found
  | cons first line =>
    have found : self.truncateScan truncateWidth (self.textWidth affix)
        (placedFrom Char.utf8Size (byteLen []) (first :: line)) (self.textWidth []) 0 = some ix := found
    refine truncateScan_forward (fun ix => ∃ front c back, first :: line = front ++ c :: back ∧
      ix = byteLen front ∧ (front = [] ∨ self.textWidth front + self.textWidth affix < truncateWidth))
      ?_ ?_ found
    · exact ⟨[], first, line, rfl, rfl, .inl rfl⟩
    · intro passed c rest split room
      exact ⟨passed, c, rest, split, rfl, .inr room⟩

theorem truncateScan_start {ix : Nat} {c : Char} {rest : List (Nat × Char)} {width : ℚ}
    (room : width + suffixWidth < truncateWidth) (truncateIx : Nat) :
    self.truncateScan truncateWidth suffixWidth ((ix, c) :: rest) width truncateIx =
      self.truncateScan truncateWidth suffixWidth ((ix, c) :: rest) width ix := by
  rw [truncateScan, truncateScan, if_pos room, if_pos room]

theorem shouldTruncateLine_fromStart {line affix : Text} {ix : Nat}
    (found : self.shouldTruncateLine line truncateWidth affix .fromStart = some ix) : ∃ front c back,
    line = front ++ c :: back ∧ ix = byteLen front ∧
    (self.textWidth affix < truncateWidth → self.textWidth back + self.textWidth affix < truncateWidth) := by
  have found : self.truncateScan truncateWidth (self.textWidth affix) (charIndices line).reverse
      (self.textWidth []) 0 = some ix := found
  by_cases room : self.textWidth affix < truncateWidth
  · rcases List.eq_nil_or_concat' line with rfl | ⟨line, last, rfl⟩
    · cases found
    · have starts : self.textWidth [] + self.textWidth affix < truncateWidth := by
        simpa [textWidth] using room
      rw [charIndices_concat, truncateScan_start starts, ← charIndices_concat] at found
      refine truncateScan_backward (fun ix => ∃ front c back, line ++ [last] = front ++ c :: back ∧
        ix = byteLen front ∧ (self.textWidth affix < truncateWidth →
          self.textWidth back + self.textWidth affix < truncateWidth)) ?_ ?_ found
      · exact ⟨line, last, [], rfl, rfl, fun _ => starts⟩
      · intro rest c passed split room
        exact ⟨rest, c, passed, split, rfl, fun _ => by simpa using room⟩
  · cases line with
    | nil => cases found
    | cons first line =>
      refine truncateScan_backward (fun ix => ∃ front c back, first :: line = front ++ c :: back ∧
        ix = byteLen front ∧ (self.textWidth affix < truncateWidth →
          self.textWidth back + self.textWidth affix < truncateWidth)) ?_ ?_ found
      · exact ⟨[], first, line, rfl, rfl, fun fits => absurd fits room⟩
      · intro rest c passed split _
        exact ⟨rest, c, passed, split, rfl, fun fits => absurd fits room⟩

theorem shouldTruncateLineMiddle_some {line affix : Text} {frontEnd backStart : Nat}
    (found : self.shouldTruncateLineMiddle line truncateWidth affix = some (frontEnd, backStart)) :
    ∃ front removed back, line = front ++ removed ++ back ∧ frontEnd = byteLen front ∧
    backStart = byteLen (front ++ removed) ∧
    self.textWidth front + self.textWidth back ≤ max 0 (truncateWidth - self.textWidth affix) := by
  have nothing : ∃ front removed back, line = front ++ removed ++ back ∧ 0 = byteLen front ∧
      byteLen line = byteLen (front ++ removed) ∧
      self.textWidth front + self.textWidth back ≤ max 0 (truncateWidth - self.textWidth affix) :=
    ⟨[], line, [], by simp, rfl, rfl, by simp [textWidth]⟩
  unfold shouldTruncateLineMiddle at found
  dsimp only at found
  split at found
  · cases found
  split at found
  · cases found
    exact nothing
  next hasBudget =>
    have budget := not_le.mp hasBudget
    split at found
    · cases found
      exact nothing
    next apart =>
      generalize truncateWidth - self.textWidth affix = content at budget apart found ⊢
      have frontRoom : 0 ≤ content * (2 / 3) := mul_nonneg budget.le (by norm_num)
      have backRoom : 0 ≤ content - content * (2 / 3) := by
        have third : content - content * (2 / 3) = content * (1 / 3) := by ring
        rw [third]
        exact mul_nonneg budget.le (by norm_num)
      obtain ⟨front, rest, split, frontFits, frontScan⟩ := fitScan_front line frontRoom
      obtain ⟨rest', back, split', backFits, backScan⟩ := fitScan_back line backRoom
      rw [frontScan, backScan] at apart found
      cases found
      obtain ⟨removed, rfl, -⟩ := append_of_byteLen_le (split.symm.trans split') (not_le.mp apart).le
      refine ⟨front, removed, back, split', rfl, rfl, ?_⟩
      calc self.textWidth front + self.textWidth back
          ≤ content * (2 / 3) + (content - content * (2 / 3)) := add_le_add frontFits backFits
        _ = content := by ring
        _ ≤ max 0 content := le_max_right ..

end LineWrapper

/-! ## Truncated lines -/

theorem ceilCharBoundary_append (front : Text) (c : Char) (back : Text) :
    ceilCharBoundary (front ++ c :: back) (byteLen front + 1) = byteLen (front ++ [c]) := by
  have positive := c.utf8Size_pos
  induction front with
  | nil =>
    have reached : 0 + 1 - c.utf8Size = 0 := by omega
    rw [List.nil_append, byteLen, ceilCharBoundary, reached]
    cases back <;> rfl
  | cons d front ih =>
    have rest : d.utf8Size + byteLen front + 1 - d.utf8Size = byteLen front + 1 := by omega
    rw [List.cons_append, byteLen_cons, ceilCharBoundary, rest, ih, List.cons_append, byteLen_cons]

def trimmed (front : Text) : Text := front.rdropWhile fun c => isWhitespace c || isAsciiPunctuation c

theorem trimmedTo_append (front back : Text) : trimmedTo (front ++ back) (byteLen front) = .ok (trimmed front) := by
  rw [trimmedTo, splitAtByte_append]
  rfl

theorem trimmed_split (front : Text) : ∃ cut, front = trimmed front ++ cut := by
  obtain ⟨cut, split⟩ := List.rdropWhile_prefix (fun c => isWhitespace c || isAsciiPunctuation c) front
  exact ⟨cut, split.symm⟩

namespace LineWrapper

variable {self : LineWrapper} {truncateWidth : ℚ} {S : Type}

theorem truncateLine_fromEnd {line affix : Text} {ix : Nat} (runs : List (TextRun S))
    (found : self.shouldTruncateLine line truncateWidth affix .fromEnd = some ix) :
    ∃ front c back, line = front ++ c :: back ∧
      (front = [] ∨ self.textWidth front + self.textWidth affix < truncateWidth) ∧
      self.truncateLine line truncateWidth affix runs .fromEnd = .ok (trimmed front ++ affix,
          .owned (shrinkRuns (byteLen affix) (byteLen (trimmed front)) runs)) := by
  obtain ⟨front, c, back, rfl, rfl, narrow⟩ := shouldTruncateLine_fromEnd found
  refine ⟨front, c, back, rfl, narrow, ?_⟩
  have size : byteLen (trimmed front ++ affix) - byteLen affix = byteLen (trimmed front) := by
    rw [byteLen_append, Nat.add_sub_cancel]
  rw [truncateLine, if_neg (by decide), found]
  dsimp only
  rw [truncatedText, trimmedTo_append]
  simp only [ok_bind, pure_bind, updateRunsAfterTruncation, size]
  rfl

theorem truncateLine_fromStart {line affix : Text} {ix : Nat} (runs : List (TextRun S))
    (found : self.shouldTruncateLine line truncateWidth affix .fromStart = some ix) :
    ∃ front c back, line = front ++ c :: back ∧
      (self.textWidth affix < truncateWidth → self.textWidth back + self.textWidth affix < truncateWidth) ∧
      self.truncateLine line truncateWidth affix runs .fromStart = .ok (affix ++ back,
          .owned (shrinkRuns (byteLen affix) (byteLen back) runs.reverse).reverse) := by
  obtain ⟨front, c, back, rfl, rfl, narrow⟩ := shouldTruncateLine_fromStart found
  refine ⟨front, c, back, rfl, narrow, ?_⟩
  have size : byteLen (affix ++ back) - byteLen affix = byteLen back := by
    rw [byteLen_append, Nat.add_sub_cancel_left]
  have kept : sliceFromByte (front ++ c :: back) (byteLen (front ++ [c])) = .ok back := by
    rw [List.append_cons, sliceFromByte_append]
  rw [truncateLine, if_neg (by decide), found]
  dsimp only
  rw [truncatedText, ceilCharBoundary_append, kept]
  simp only [ok_bind, pure_bind, updateRunsAfterTruncation, size]
  rfl

theorem truncateLine_none {line affix : Text} {truncateFrom : TruncateFrom} (runs : List (TextRun S))
    (atEnd : truncateFrom ≠ .fromMiddle)
    (found : self.shouldTruncateLine line truncateWidth affix truncateFrom = none) :
    self.truncateLine line truncateWidth affix runs truncateFrom = .ok (line, .borrowed runs) := by
  rw [truncateLine, if_neg atEnd, found]

theorem truncateLine_fromMiddle_none {line affix : Text} (runs : List (TextRun S))
    (found : self.shouldTruncateLineMiddle line truncateWidth affix = none) :
    self.truncateLine line truncateWidth affix runs .fromMiddle = .ok (line, .borrowed runs) := by
  rw [truncateLine, if_pos rfl, found]

theorem truncateLine_fromMiddle {line affix : Text} {frontEnd backStart : Nat} (runs : List (TextRun S))
    (found : self.shouldTruncateLineMiddle line truncateWidth affix = some (frontEnd, backStart)) :
    ∃ front removed back, line = front ++ removed ++ back ∧
      self.textWidth front + self.textWidth back ≤ max 0 (truncateWidth - self.textWidth affix) ∧
      self.truncateLine line truncateWidth affix runs .fromMiddle =
        .ok (front ++ affix ++ back, .owned (updateRunsAfterMiddleTruncation affix runs (byteLen front)
          (byteLen (front ++ removed)))) := by
  obtain ⟨front, removed, back, rfl, rfl, rfl, narrow⟩ := shouldTruncateLineMiddle_some found
  refine ⟨front, removed, back, rfl, narrow, ?_⟩
  have first : splitAtByte (front ++ removed ++ back) (byteLen front) = .ok (front, removed ++ back) := by
    rw [List.append_assoc, splitAtByte_append]
  rw [truncateLine, if_pos rfl, found]
  dsimp only
  rw [first, splitAtByte_append]
  rfl

end LineWrapper

end Pinrail.TextSystem

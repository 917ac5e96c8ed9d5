import Pinrail.TextSystem.TruncationScans

/-!
# The width of a truncated line

A line that is not too wide stays as it is. What is kept of one that is leaves room for the affix.
-/

namespace Pinrail.TextSystem
open Lib

theorem charIndices_snd (line : Text) : (charIndices line).map Prod.snd = line := by
  induction line using List.reverseRecOn with
  | nil => rfl
  | append_singleton line c ih => rw [charIndices_append, List.map_append, ih, placedFrom, placedFrom]; rfl

namespace LineWrapper

variable {self : LineWrapper} {truncateWidth suffixWidth : ℚ} {line affix : Text}

theorem textWidth_reverse (line : Text) : self.textWidth line.reverse = self.textWidth line := by
  rw [textWidth, textWidth, List.map_reverse, List.sum_reverse]

theorem charIndices_reverse_width (line : Text) :
    self.textWidth ((charIndices line).reverse.map Prod.snd) = self.textWidth line := by
  rw [List.map_reverse, charIndices_snd, textWidth_reverse]

theorem textWidth_trimmed_le (nonneg : ∀ c, 0 ≤ self.widthForChar c) (front : Text) :
    self.textWidth (trimmed front) ≤ self.textWidth front := by
  obtain ⟨cut, split⟩ := trimmed_split front
  have whole : self.textWidth front = self.textWidth (trimmed front) + self.textWidth cut := by
    rw [← textWidth_append, ← split]
  have := textWidth_nonneg nonneg cut
  linarith

/-! ## Whether the scans find the line too wide -/

theorem truncateScan_fits (nonneg : ∀ c, 0 ≤ self.widthForChar c) {characters : List (Nat × Char)}
    (fits : ⌊self.textWidth (characters.map Prod.snd)⌋ ≤ truncateWidth) (truncateIx : Nat) :
    self.truncateScan truncateWidth suffixWidth characters 0 truncateIx = none := by
  rw [truncateScan_none_iff]
  rintro passed rest rfl -
  rw [List.map_append, textWidth_append] at fits
  have more := textWidth_nonneg nonneg (rest.map Prod.snd)
  have below : ⌊self.textWidth (passed.map Prod.snd)⌋ ≤
      ⌊self.textWidth (passed.map Prod.snd) + self.textWidth (rest.map Prod.snd)⌋ :=
    Int.floor_le_floor (by linarith)
  rw [zero_add, not_lt]
  calc (⌊self.textWidth (passed.map Prod.snd)⌋ : ℚ)
      ≤ ⌊self.textWidth (passed.map Prod.snd) + self.textWidth (rest.map Prod.snd)⌋ := by
        exact_mod_cast below
    _ ≤ truncateWidth := fits

theorem truncateScan_exceeds {characters : List (Nat × Char)} (notEmpty : characters ≠ [])
    (exceeds : truncateWidth < ⌊self.textWidth (characters.map Prod.snd)⌋) (truncateIx : Nat) :
    ∃ found, self.truncateScan truncateWidth suffixWidth characters 0 truncateIx = some found := by
  rw [← Option.ne_none_iff_exists', ne_eq, truncateScan_none_iff]
  intro fits
  refine fits characters [] (List.append_nil _).symm notEmpty ?_
  rwa [zero_add]

/-- How wide a line is taken to be: a scan that stops where it exceeds the width counts whole pixels. -/
def measuredWidth (self : LineWrapper) (line : Text) : TruncateFrom → ℚ
  | .fromStart | .fromEnd => ⌊self.textWidth line⌋
  | .fromMiddle => self.textWidth line

theorem truncateLine_unchanged {S : Type} (nonneg : ∀ c, 0 ≤ self.widthForChar c) {truncateFrom : TruncateFrom}
    (fits : self.measuredWidth line truncateFrom ≤ truncateWidth) (affix : Text) (runs : List (TextRun S)) :
    self.truncateLine line truncateWidth affix runs truncateFrom = .ok (line, .borrowed runs) := by
  cases truncateFrom with
  | fromStart =>
    have scanned : self.shouldTruncateLine line truncateWidth affix .fromStart = none := by
      apply truncateScan_fits nonneg
      rwa [charIndices_reverse_width]
    exact truncateLine_none runs (by decide) scanned
  | fromEnd =>
    have scanned : self.shouldTruncateLine line truncateWidth affix .fromEnd = none := by
      apply truncateScan_fits nonneg
      rwa [charIndices_snd]
    exact truncateLine_none runs (by decide) scanned
  | fromMiddle =>
    have scanned : self.shouldTruncateLineMiddle line truncateWidth affix = none := if_pos fits
    exact truncateLine_fromMiddle_none runs scanned

/-! ## What is kept -/

/-- The text is the line with a part replaced by the affix, or an empty line. What is kept of the line
leaves room for the affix. -/
def KeepsRoom (self : LineWrapper) (line affix : Text) (truncateWidth : ℚ) (text : Text) : Prop :=
  ∃ front removed back, line = front ++ removed ++ back ∧ (text = front ++ affix ++ back ∨ line = [] ∧ text = []) ∧
    self.textWidth (front ++ back) ≤ max 0 (truncateWidth - self.textWidth affix)

theorem KeepsRoom.empty : self.KeepsRoom [] affix truncateWidth [] := ⟨[], [], [], rfl, .inr ⟨rfl, rfl⟩, le_max_left ..⟩

theorem KeepsRoom.fits {text : Text} (nonneg : ∀ c, 0 ≤ self.widthForChar c)
    (keeps : self.KeepsRoom line affix truncateWidth text) (room : self.textWidth affix ≤ truncateWidth) :
    self.textWidth text ≤ truncateWidth := by
  obtain ⟨front, removed, back, -, rfl | ⟨-, rfl⟩, narrow⟩ := keeps
  · rw [max_eq_right (by linarith), textWidth_append] at narrow
    rw [textWidth_append, textWidth_append]
    linarith
  · exact (textWidth_nonneg nonneg affix).trans room

theorem truncateLine_keepsRoom {S : Type} (nonneg : ∀ c, 0 ≤ self.widthForChar c) {truncateFrom : TruncateFrom}
    (exceeds : truncateWidth < self.measuredWidth line truncateFrom)
    (narrowAffix : truncateFrom = .fromStart → self.textWidth affix < truncateWidth) (runs : List (TextRun S)) :
    ∃ text others, self.truncateLine line truncateWidth affix runs truncateFrom = .ok (text, others) ∧
    self.KeepsRoom line affix truncateWidth text := by
  cases truncateFrom with
  | fromStart =>
    rcases line.eq_nil_or_concat' with rfl | ⟨front, last, rfl⟩
    · exact ⟨[], .borrowed runs, rfl, .empty⟩
    have scanned : ∃ ix, self.shouldTruncateLine (front ++ [last]) truncateWidth affix .fromStart = some ix := by
      apply truncateScan_exceeds
      · simp [charIndices_concat]
      · rwa [charIndices_reverse_width]
    obtain ⟨ix, found⟩ := scanned
    obtain ⟨removed, c, back, split, room, same⟩ := truncateLine_fromStart runs found
    refine ⟨_, _, same, [], removed ++ [c], back, by simpa using split, .inl rfl, ?_⟩
    have fits := room (narrowAffix rfl)
    rw [List.nil_append]
    exact le_max_of_le_right (by linarith)
  | fromEnd =>
    cases line with
    | nil => exact ⟨[], .borrowed runs, rfl, .empty⟩
    | cons first line =>
      have scanned : ∃ ix, self.shouldTruncateLine (first :: line) truncateWidth affix .fromEnd = some ix := by
        apply truncateScan_exceeds
        · exact List.cons_ne_nil _ _
        · rwa [charIndices_snd]
      obtain ⟨ix, found⟩ := scanned
      obtain ⟨front, c, back, split, room, same⟩ := truncateLine_fromEnd runs found
      obtain ⟨cut, trims⟩ := trimmed_split front
      have whole : first :: line = trimmed front ++ (cut ++ c :: back) ++ [] := by
        rw [split, List.append_nil, ← List.append_assoc, ← trims]
      refine ⟨_, _, same, trimmed front, _, [], whole, .inl (by simp), ?_⟩
      have kept := textWidth_trimmed_le nonneg front
      rw [List.append_nil]
      rcases room with rfl | room
      · exact kept.trans (le_max_left ..)
      · exact le_max_of_le_right (by linarith)
  | fromMiddle =>
    have scanned : ∃ cuts, self.shouldTruncateLineMiddle line truncateWidth affix = some cuts := by
      have tooWide : ¬ self.textWidth line ≤ truncateWidth := not_le.mpr exceeds
      rw [shouldTruncateLineMiddle, if_neg tooWide]
      dsimp only
      split
      · exact ⟨_, rfl⟩
      split
      · exact ⟨_, rfl⟩
      · exact ⟨_, rfl⟩
    obtain ⟨⟨frontEnd, backStart⟩, found⟩ := scanned
    obtain ⟨front, removed, back, split, room, same⟩ := truncateLine_fromMiddle runs found
    refine ⟨_, _, same, front, removed, back, split, .inl rfl, ?_⟩
    rwa [textWidth_append]

/-- A line that is not too wide is returned as it is. Of a wider one a part is kept that leaves room
for the affix, so that the text fits if the affix does. -/
theorem truncateLine_width {S : Type} (self : LineWrapper) (nonneg : ∀ c, 0 ≤ self.widthForChar c)
    (line affix : Text) (truncateWidth : ℚ) (runs : List (TextRun S)) (truncateFrom : TruncateFrom) :
    (self.measuredWidth line truncateFrom ≤ truncateWidth →
      self.truncateLine line truncateWidth affix runs truncateFrom = .ok (line, .borrowed runs)) ∧
    (truncateWidth < self.measuredWidth line truncateFrom →
      (truncateFrom = .fromStart → self.textWidth affix < truncateWidth) →
      ∃ text others, self.truncateLine line truncateWidth affix runs truncateFrom = .ok (text, others) ∧
        self.KeepsRoom line affix truncateWidth text ∧
        (self.textWidth affix ≤ truncateWidth → self.textWidth text ≤ truncateWidth)) := by
  refine ⟨fun fits => truncateLine_unchanged nonneg fits affix runs, ?_⟩
  intro exceeds narrowAffix
  obtain ⟨text, others, same, keeps⟩ := truncateLine_keepsRoom nonneg exceeds narrowAffix runs
  exact ⟨text, others, same, keeps, keeps.fits nonneg⟩

theorem truncateLine_width_middle : (⟨fun _ => 1⟩ : LineWrapper).truncateLine ['a', 'b'] 4 ['…']
    [(⟨2, 0⟩ : TextRun Nat)] .fromMiddle = .ok (['a', 'b'], .borrowed [⟨2, 0⟩]) ∧ ∃ text others,
    (⟨fun _ => 1⟩ : LineWrapper).truncateLine ['a', 'b', 'c', 'd', 'e'] 4 ['…']
    [(⟨5, 0⟩ : TextRun Nat)] .fromMiddle = .ok (text, others) ∧
    (⟨fun _ => 1⟩ : LineWrapper).KeepsRoom ['a', 'b', 'c', 'd', 'e'] ['…'] 4 text ∧
    ((⟨fun _ => 1⟩ : LineWrapper).textWidth ['…'] ≤ 4 → (⟨fun _ => 1⟩ : LineWrapper).textWidth text ≤ 4) :=
  ⟨(truncateLine_width ⟨fun _ => 1⟩ (fun _ => zero_le_one) ['a', 'b'] ['…'] 4 [⟨2, 0⟩] .fromMiddle).1
      (by decide +kernel),
    (truncateLine_width ⟨fun _ => 1⟩ (fun _ => zero_le_one) ['a', 'b', 'c', 'd', 'e'] ['…'] 4 [⟨5, 0⟩]
      .fromMiddle).2 (by decide +kernel) nofun⟩

/-- A line that is too wide by less than a pixel is not truncated at an end, an affix that leaves no
room keeps nearly all of a line that is truncated at its start, and with negative widths a line that
fits may be truncated. -/
theorem truncateLine_other_widths : ((⟨fun _ => 3 / 2⟩ : LineWrapper).textWidth ['a'] = 3 / 2 ∧
      (⟨fun _ => 3 / 2⟩ : LineWrapper).truncateLine ['a'] 1 [] [(⟨1, 0⟩ : TextRun Nat)] .fromEnd =
        .ok (['a'], .borrowed [⟨1, 0⟩])) ∧
    (⟨fun _ => 1⟩ : LineWrapper).truncateLine ['a', 'b', 'c', 'd'] 1 ['.', '.'] [(⟨4, 0⟩ : TextRun Nat)]
        .fromStart = .ok (['.', '.', 'b', 'c', 'd'], .owned [⟨5, 0⟩]) ∧
    (⟨fun c => if c = 'a' then 2 else -2⟩ : LineWrapper).textWidth ['a', 'b'] = 0 ∧
    (⟨fun c => if c = 'a' then 2 else -2⟩ : LineWrapper).truncateLine ['a', 'b'] 1 [] [(⟨2, 0⟩ : TextRun Nat)]
        .fromEnd = .ok ([], .owned [⟨0, 0⟩]) := by
  decide +kernel

end LineWrapper

end Pinrail.TextSystem

import Pinrail.TextSystem.TruncationScans

/-!
# The runs of a truncated text

Read as one style for each byte, the runs of a truncated text are those of what is kept with the
style of a run at the cut for the affix.
-/

namespace Pinrail.TextSystem
open Lib

variable {S : Type} {runs : List (TextRun S)}

/-! ## Styles of bytes -/

def styles (runs : List (TextRun S)) : List S := runs.flatMap fun run => List.replicate run.len run.style

def totalLen (runs : List (TextRun S)) : Nat := (runs.map (·.len)).sum

theorem styles_length (runs : List (TextRun S)) : (styles runs).length = totalLen runs := by
  simp [styles, totalLen, List.length_flatMap]

theorem styles_append (front back : List (TextRun S)) :
    styles (front ++ back) = styles front ++ styles back := List.flatMap_append ..

theorem styles_cons (run : TextRun S) (runs : List (TextRun S)) :
    styles (run :: runs) = List.replicate run.len run.style ++ styles runs := rfl

theorem styles_reverse (runs : List (TextRun S)) : styles runs.reverse = (styles runs).reverse := by
  induction runs with
  | nil => rfl
  | cons run runs ih =>
    rw [List.reverse_cons, styles_append, ih, styles_cons run runs, List.reverse_append, List.reverse_replicate]
    simp [styles]

theorem take_styles_cons (run : TextRun S) (runs : List (TextRun S)) (k : Nat) :
    (styles (run :: runs)).take k = List.replicate (min k run.len) run.style ++ (styles runs).take (k - run.len) := by
  rw [styles_cons, List.take_append, List.take_replicate, List.length_replicate]

theorem drop_styles_cons (run : TextRun S) (runs : List (TextRun S)) (k : Nat) :
    (styles (run :: runs)).drop k = List.replicate (run.len - k) run.style ++ (styles runs).drop (k - run.len) := by
  rw [styles_cons, List.drop_append, List.drop_replicate, List.length_replicate]

theorem totalLen_cons (run : TextRun S) (runs : List (TextRun S)) :
    totalLen (run :: runs) = run.len + totalLen runs := by simp [totalLen]

theorem totalLen_append (front back : List (TextRun S)) :
    totalLen (front ++ back) = totalLen front + totalLen back := by simp [totalLen]

theorem totalLen_reverse (runs : List (TextRun S)) : totalLen runs.reverse = totalLen runs := by
  rw [← styles_length, styles_reverse, List.length_reverse, styles_length]

def Adjacent (runs : List (TextRun S)) (offset : Nat) (style : S) : Prop :=
  ∃ before run after, runs = before ++ run :: after ∧ run.style = style ∧
    totalLen before ≤ offset ∧ offset ≤ totalLen before + run.len

/-! ## Shrinking -/

theorem shrinkRuns_spec (affixLen : Nat) {truncateAt : Nat} (inside : truncateAt < totalLen runs) :
    ∃ before run after, runs = before ++ run :: after ∧ totalLen before ≤ truncateAt ∧
      truncateAt < totalLen before + run.len ∧
      styles (shrinkRuns affixLen truncateAt runs) =
        (styles runs).take truncateAt ++ List.replicate affixLen run.style := by
  induction runs generalizing truncateAt with
  | nil => exact absurd inside (Nat.not_lt_zero _)
  | cons run runs ih =>
    rw [totalLen_cons] at inside
    rw [shrinkRuns, take_styles_cons]
    by_cases whole : run.len ≤ truncateAt
    · have later : truncateAt - run.len < totalLen runs := by omega
      obtain ⟨before, cut, after, rfl, behind, within, same⟩ := ih later
      refine ⟨run :: before, cut, after, rfl, ?_, ?_, ?_⟩
      · rw [totalLen_cons]
        omega
      · rw [totalLen_cons]
        omega
      · rw [if_pos whole, styles_cons, same, min_eq_right whole, List.append_assoc]
    · refine ⟨[], run, runs, rfl, Nat.zero_le _, by simpa [totalLen] using whole, ?_⟩
      have nothing : truncateAt - run.len = 0 := by omega
      rw [if_neg whole, min_eq_left (by omega), nothing, List.take_zero, List.append_nil,
        List.replicate_append_replicate]
      simp [styles]

theorem frontRuns_inside (affixLen : Nat) {frontEnd : Nat} (inside : frontEnd < totalLen runs) :
    frontRuns affixLen frontEnd runs = (shrinkRuns affixLen frontEnd runs, true) := by
  induction runs generalizing frontEnd with
  | nil => exact absurd inside (Nat.not_lt_zero _)
  | cons run runs ih =>
    rw [totalLen_cons] at inside
    rw [frontRuns, shrinkRuns]
    split
    · rw [ih (by omega)]
    · rfl

theorem frontRuns_behind (affixLen : Nat) {frontEnd : Nat} (behind : totalLen runs ≤ frontEnd) :
    frontRuns affixLen frontEnd runs = (runs, false) := by
  induction runs generalizing frontEnd with
  | nil => rfl
  | cons run runs ih =>
    rw [totalLen_cons] at behind
    rw [frontRuns, if_pos (by omega), ih (by omega)]

theorem styles_backRuns (backStart bytePos : Nat) (runs : List (TextRun S)) :
    styles (backRuns backStart bytePos runs) = (styles runs).drop (backStart - bytePos) := by
  induction runs generalizing bytePos with
  | nil => simp [backRuns, styles]
  | cons run runs ih =>
    rw [backRuns, drop_styles_cons]
    have rest : backStart - bytePos - run.len = backStart - (bytePos + run.len) := by omega
    rw [rest, ← ih]
    split
    · rw [styles_cons]
      congr 1
      split
      · dsimp only
        congr 1
        omega
      · congr 1
        omega
    · have nothing : run.len - (backStart - bytePos) = 0 := by omega
      rw [nothing, List.replicate_zero, List.nil_append]

theorem styles_updateRunsAfterMiddleTruncation (ellipsis : Text) {frontEnd : Nat} (backStart : Nat)
    (hasRun : runs ≠ []) (inside : frontEnd ≤ totalLen runs) :
    ∃ style, Adjacent runs frontEnd style ∧ styles (updateRunsAfterMiddleTruncation ellipsis runs frontEnd backStart) =
        (styles runs).take frontEnd ++ List.replicate (byteLen ellipsis) style ++ (styles runs).drop backStart := by
  unfold updateRunsAfterMiddleTruncation
  rcases inside.lt_or_eq with inside | rfl
  · obtain ⟨before, cut, after, split, behind, within, same⟩ := shrinkRuns_spec (byteLen ellipsis) inside
    refine ⟨cut.style, ⟨before, cut, after, split, rfl, behind, within.le⟩, ?_⟩
    rw [frontRuns_inside _ inside]
    simp only [if_true]
    rw [styles_append, same, styles_backRuns, Nat.sub_zero]
  · obtain ⟨before, last, rfl⟩ := (List.eq_nil_or_concat' runs).resolve_left hasRun
    have whole : (styles (before ++ [last])).take (totalLen (before ++ [last])) =
        styles (before ++ [last]) := List.take_of_length_le (styles_length _).le
    have size : totalLen (before ++ [last]) = totalLen before + last.len := by simp [totalLen]
    refine ⟨last.style, ⟨before, last, [], rfl, rfl, by omega, by omega⟩, ?_⟩
    rw [frontRuns_behind _ le_rfl, whole]
    simp only [Bool.false_eq_true, if_false]
    rw [styles_append, styles_backRuns, Nat.sub_zero]
    unfold appendEllipsis
    rw [List.getLast?_concat]
    dsimp only
    rw [List.dropLast_concat, styles_append, styles_append]
    congr 1
    rw [List.append_assoc]
    congr 1
    simp [styles]

theorem styles_shrinkRuns {kept : Nat} (affixLen : Nat) (inside : kept < totalLen runs) : ∃ style,
    Adjacent runs kept style ∧
    styles (shrinkRuns affixLen kept runs) = (styles runs).take kept ++ List.replicate affixLen style := by
  obtain ⟨before, cut, after, split, behind, within, same⟩ := shrinkRuns_spec affixLen inside
  exact ⟨cut.style, ⟨before, cut, after, split, rfl, behind, within.le⟩, same⟩

theorem styles_shrinkRuns_reverse {removed kept : Nat} (affixLen : Nat)
    (total : totalLen runs = removed + kept) (inside : 0 < removed) :
    ∃ style, Adjacent runs removed style ∧ styles (shrinkRuns affixLen kept runs.reverse).reverse =
        List.replicate affixLen style ++ (styles runs).drop removed := by
  have reversed : kept < totalLen runs.reverse := by
    rw [totalLen_reverse]
    omega
  obtain ⟨before, cut, after, split, behind, within, same⟩ := shrinkRuns_spec affixLen reversed
  have forward : runs = after.reverse ++ cut :: before.reverse := by
    rw [← List.reverse_inj, split]
    simp
  have parts : totalLen after + (cut.len + totalLen before) = removed + kept := by
    rw [← total, forward, totalLen_append, totalLen_cons, totalLen_reverse, totalLen_reverse]
  refine ⟨cut.style, ⟨after.reverse, cut, before.reverse, forward, rfl, ?_, ?_⟩, ?_⟩
  · rw [totalLen_reverse]
    omega
  · rw [totalLen_reverse]
    omega
  · rw [styles_reverse, same, styles_reverse, List.reverse_append, List.reverse_replicate,
      List.take_reverse, List.reverse_reverse, styles_length, total, Nat.add_sub_cancel]

/-! ## Truncated lines -/

/-- A part of the line is replaced by the affix. What is kept has its styles, and the bytes of the
affix have those of runs at the ends of the part. -/
def Restyled (line affix : Text) (runs : List (TextRun S)) (text : Text) (others : List (TextRun S)) :
    Prop :=
  ∃ front removed back affixStyles, line = front ++ removed ++ back ∧ text = front ++ affix ++ back ∧
    styles others = (styles runs).take (byteLen front) ++ affixStyles ++
      (styles runs).drop (byteLen (front ++ removed)) ∧
    affixStyles.length = byteLen affix ∧
    ∀ style ∈ affixStyles, Adjacent runs (byteLen front) style ∨ Adjacent runs (byteLen (front ++ removed)) style

def Truncated (line affix : Text) (runs : List (TextRun S)) (out : Text × Cow (List (TextRun S))) :
    Prop :=
  totalLen out.2.get = byteLen out.1 ∧
  (out = (line, .borrowed runs) ∨ Restyled line affix runs out.1 out.2.get)

theorem Restyled.truncated {line affix text : Text} {others : List (TextRun S)} (covers : totalLen runs = byteLen line)
    (restyled : Restyled line affix runs text others) : Truncated line affix runs (text, .owned others) := by
  refine ⟨?_, .inr restyled⟩
  obtain ⟨front, removed, back, affixStyles, rfl, rfl, same, size, -⟩ := restyled
  rw [byteLen_append, byteLen_append] at covers
  change totalLen others = byteLen (front ++ affix ++ back)
  rw [← styles_length, same, List.length_append, List.length_append, List.length_take,
    List.length_drop, styles_length, size, byteLen_append, byteLen_append, byteLen_append]
  omega

theorem Restyled.front {line affix front cut : Text} (covers : totalLen runs = byteLen line)
    (split : line = front ++ cut) (inside : byteLen front < byteLen line) :
    Restyled line affix runs (front ++ affix) (shrinkRuns (byteLen affix) (byteLen front) runs) := by
  obtain ⟨style, adjacent, same⟩ := styles_shrinkRuns (byteLen affix) (covers ▸ inside)
  refine ⟨front, cut, [], List.replicate (byteLen affix) style, by simpa using split, by simp, ?_,
    List.length_replicate .., ?_⟩
  · have nothing : (styles runs).drop (byteLen (front ++ cut)) = [] := by
      rw [List.drop_eq_nil_iff, styles_length, covers, split]
    rw [same, nothing, List.append_nil]
  · intro other member
    exact .inl (List.eq_of_mem_replicate member ▸ adjacent)

namespace LineWrapper

theorem truncateLine_truncated (self : LineWrapper) (line : Text) {truncateWidth : ℚ} (affix : Text)
    (covers : totalLen runs = byteLen line) {truncateFrom : TruncateFrom}
    (hasRun : runs = [] → truncateFrom = .fromMiddle → 0 ≤ truncateWidth) :
    ∃ out, self.truncateLine line truncateWidth affix runs truncateFrom = .ok out ∧ Truncated line affix runs out := by
  have unchanged : Truncated line affix runs (line, .borrowed runs) := ⟨covers, .inl rfl⟩
  cases truncateFrom with
  | fromStart =>
    cases found : self.shouldTruncateLine line truncateWidth affix .fromStart with
    | none => exact ⟨_, truncateLine_none runs (by decide) found, unchanged⟩
    | some ix =>
      obtain ⟨front, c, back, rfl, -, same⟩ := truncateLine_fromStart runs found
      refine ⟨_, same, Restyled.truncated covers ?_⟩
      have total : totalLen runs = byteLen (front ++ [c]) + byteLen back := by
        rw [covers, List.append_cons, byteLen_append]
      have bytes : 0 < byteLen (front ++ [c]) := by
        have := c.utf8Size_pos
        rw [byteLen_append, byteLen_cons]
        omega
      obtain ⟨style, adjacent, sameStyles⟩ := styles_shrinkRuns_reverse (byteLen affix) total bytes
      refine ⟨[], front ++ [c], back, List.replicate (byteLen affix) style, by simp, by simp, ?_,
        List.length_replicate .., ?_⟩
      · rw [sameStyles, List.nil_append]
        rfl
      · intro other member
        exact .inr (List.eq_of_mem_replicate member ▸ adjacent)
  | fromEnd =>
    cases found : self.shouldTruncateLine line truncateWidth affix .fromEnd with
    | none => exact ⟨_, truncateLine_none runs (by decide) found, unchanged⟩
    | some ix =>
      obtain ⟨front, c, back, rfl, -, same⟩ := truncateLine_fromEnd runs found
      obtain ⟨cut, split⟩ := trimmed_split front
      refine ⟨_, same, Restyled.truncated covers ?_⟩
      have whole : front ++ c :: back = trimmed front ++ (cut ++ c :: back) := by
        rw [← List.append_assoc, ← split]
      refine .front covers whole ?_
      have := c.utf8Size_pos
      rw [whole, byteLen_append, byteLen_append, byteLen_cons]
      omega
  | fromMiddle =>
    cases found : self.shouldTruncateLineMiddle line truncateWidth affix with
    | none => exact ⟨_, truncateLine_fromMiddle_none runs found, unchanged⟩
    | some cuts =>
      have notEmpty : runs ≠ [] := by
        rintro rfl
        obtain rfl := eq_nil_of_byteLen covers.symm
        have fits : self.textWidth [] ≤ truncateWidth := hasRun rfl rfl
        rw [shouldTruncateLineMiddle, if_pos fits] at found
        cases found
      obtain ⟨front, removed, back, rfl, -, same⟩ := truncateLine_fromMiddle runs found
      refine ⟨_, same, Restyled.truncated covers ?_⟩
      have inside : byteLen front ≤ totalLen runs := by
        rw [covers, byteLen_append, byteLen_append]
        omega
      obtain ⟨style, adjacent, sameStyles⟩ := styles_updateRunsAfterMiddleTruncation affix
        (byteLen (front ++ removed)) notEmpty inside
      refine ⟨front, removed, back, List.replicate (byteLen affix) style, rfl, rfl, sameStyles,
        List.length_replicate .., ?_⟩
      intro other member
      exact .inl (List.eq_of_mem_replicate member ▸ adjacent)

end LineWrapper

/-! ## Wrapped lines -/

def Cut (text : Text) (offset : Nat) : Prop := ∃ front back, text = front ++ back ∧ offset = byteLen front

theorem Cut.zero (text : Text) : Cut text 0 := ⟨[], text, rfl, rfl⟩

theorem Cut.whole (text : Text) : Cut text (byteLen text) := ⟨text, [], by simp, rfl⟩

theorem Cut.append {text : Text} {offset : Nat} (cut : Cut text offset) (others : Text) :
    Cut (text ++ others) offset := by
  obtain ⟨front, back, rfl, isOffset⟩ := cut
  exact ⟨front, back ++ others, by simp, isOffset⟩

theorem Cut.inFront {text : Text} {offset : Nat} (cut : Cut text offset) (c : Char) (rest : Text) :
    Cut (text ++ c :: rest) offset ∧ offset < byteLen (text ++ c :: rest) := by
  refine ⟨cut.append _, ?_⟩
  obtain ⟨front, back, rfl, rfl⟩ := cut
  have := c.utf8Size_pos
  rw [byteLen_append, byteLen_append, byteLen_cons]
  omega

structure WrappedTruncation.Cuts (passed : Text) (s : WrappedTruncation) : Prop where
  index : s.index = byteLen passed
  candidate : Cut passed s.lastCandidateIx
  wrap : Cut passed s.lastWrapIx
  truncate : Cut passed s.truncateIx

namespace LineWrapper

variable {self : LineWrapper} {wrapWidth affixWidth : ℚ} {maxLines : Nat} {passed : Text}

theorem addIndent_breakWrapped (self : LineWrapper) (s : Wrapping) (charWidth : ℚ) :
    ((self.addIndent (s.setIndent.breakWrapped charWidth)).lastWrapIx = s.lastCandidateIx ∨
      (self.addIndent (s.setIndent.breakWrapped charWidth)).lastWrapIx = s.index) ∧
    ((self.addIndent (s.setIndent.breakWrapped charWidth)).lastCandidateIx = s.lastCandidateIx ∨
      (self.addIndent (s.setIndent.breakWrapped charWidth)).lastCandidateIx = 0) := by
  have kept : s.setIndent.lastCandidateIx = s.lastCandidateIx ∧ s.setIndent.index = s.index := by
    unfold Wrapping.setIndent
    split <;> exact ⟨rfl, rfl⟩
  have frame : ∀ t : Wrapping, (self.addIndent t).lastWrapIx = t.lastWrapIx ∧
      (self.addIndent t).lastCandidateIx = t.lastCandidateIx := by
    intro t
    unfold addIndent
    split <;> exact ⟨rfl, rfl⟩
  rw [(frame _).1, (frame _).2, Wrapping.breakWrapped]
  split
  · exact ⟨.inl kept.1, .inr rfl⟩
  · exact ⟨.inr kept.2, .inl kept.1⟩

theorem truncateStep_cuts (self : LineWrapper) (wrapWidth : ℚ) (maxLines : Nat) {s : WrappedTruncation}
    (cuts : s.Cuts passed) (nonneg : 0 ≤ affixWidth) (c : Char) :
    (∃ truncateIx, self.truncateStep wrapWidth affixWidth maxLines s c = .inl truncateIx ∧ Cut passed truncateIx) ∨
    ∃ next, self.truncateStep wrapWidth affixWidth maxLines s c = .inr next ∧
      next.Cuts (passed ++ [c]) := by
  have reached : s.index + c.utf8Size = byteLen (passed ++ [c]) := by
    rw [cuts.index, byteLen_append, byteLen_cons, byteLen, Nat.add_zero]
  have here : Cut (passed ++ [c]) s.index := cuts.index ▸ (Cut.whole passed).append [c]
  have candidate : Cut (passed ++ [c]) (s.lay c (self.widthForChar c)).lastCandidateIx := by
    unfold WrappedTruncation.lay
    dsimp only
    split
    · exact here
    · exact cuts.candidate.append [c]
  have broken := addIndent_breakWrapped self (s.lay c (self.widthForChar c)) (self.widthForChar c)
  unfold truncateStep
  dsimp only
  split
  · right
    split
    · have wrap : Cut (passed ++ [c]) (self.addIndent ((s.lay c (self.widthForChar c)).setIndent.breakWrapped
          (self.widthForChar c))).lastWrapIx := by
        rcases broken.1 with same | same
        · exact same ▸ candidate
        · exact same ▸ here
      refine ⟨_, rfl, reached, ?_, wrap, wrap⟩
      rcases broken.2 with same | same
      · exact same ▸ candidate
      · exact same ▸ Cut.zero _
    · exact ⟨_, rfl, reached, candidate, cuts.wrap.append [c], cuts.truncate.append [c]⟩
  · split
    next exceeds =>
      left
      have tooWide : ¬ (s.lay c (self.widthForChar c)).width + affixWidth ≤ wrapWidth := by
        intro fits
        linarith
      rw [if_neg tooWide]
      exact ⟨_, rfl, cuts.truncate⟩
    next =>
      right
      refine ⟨_, rfl, reached, candidate, cuts.wrap.append [c], ?_⟩
      dsimp only
      split
      · exact reached ▸ Cut.whole _
      · exact cuts.truncate.append [c]

theorem truncateLoop_cut (nonneg : 0 ≤ affixWidth) {rest : Text} {s : WrappedTruncation} (cuts : s.Cuts passed)
    {truncateIx : Nat} (found : self.truncateLoop wrapWidth affixWidth maxLines s rest = some truncateIx) :
    Cut (passed ++ rest) truncateIx ∧ truncateIx < byteLen (passed ++ rest) := by
  induction rest generalizing passed s with
  | nil => cases found
  | cons c rest ih =>
    rw [truncateLoop] at found
    split at found
    next isNewline =>
      subst isNewline
      split at found
      · cases found
        exact cuts.truncate.inFront _ _
      · have reached : s.index + 1 = byteLen (passed ++ ['\n']) := by
          rw [cuts.index, byteLen_append]
          rfl
        have whole : Cut (passed ++ ['\n']) (s.index + 1) := reached ▸ Cut.whole _
        rw [List.append_cons]
        exact ih ⟨reached, Cut.zero _, whole, whole⟩ found
    next =>
      rcases truncateStep_cuts self wrapWidth maxLines cuts nonneg c with
        ⟨ix, step, cut⟩ | ⟨next, step, nextCuts⟩
      · rw [step] at found
        cases found
        exact cut.inFront _ _
      · rw [step] at found
        rw [List.append_cons]
        exact ih nextCuts found

/-- The runs of a truncated text have its length, what is kept has its styles, and the affix has those
of runs at the cut. -/
theorem truncate_styles (self : LineWrapper) (text : Text) (runs : List (TextRun S))
    (covers : totalLen runs = byteLen text) (width : ℚ) (affix : Text) (truncateFrom : TruncateFrom)
    (hasRun : runs = [] → truncateFrom = .fromMiddle → 0 ≤ width) :
    (∃ out, self.truncateLine text width affix runs truncateFrom = .ok out ∧ Truncated text affix runs out) ∧
    (0 ≤ self.textWidth affix → ∀ maxLines, ∃ out,
      self.truncateWrappedLine text width maxLines affix runs truncateFrom = .ok out ∧
      Truncated text affix runs out) := by
  refine ⟨self.truncateLine_truncated text affix covers hasRun, ?_⟩
  intro nonneg maxLines
  unfold truncateWrappedLine
  split
  · refine self.truncateLine_truncated text affix covers fun noRun isMiddle => ?_
    exact mul_nonneg (hasRun noRun isMiddle) maxLines.cast_nonneg
  split
  · exact self.truncateLine_truncated text affix covers hasRun
  dsimp only
  cases found : self.truncateLoop width (self.textWidth affix) maxLines .start text with
  | none => exact ⟨_, rfl, covers, .inl rfl⟩
  | some truncateIx =>
    have start : (WrappedTruncation.start).Cuts [] := ⟨rfl, Cut.zero _, Cut.zero _, Cut.zero _⟩
    obtain ⟨⟨front, back, split, rfl⟩, inside⟩ := truncateLoop_cut nonneg start found
    rw [List.nil_append] at split inside
    obtain ⟨cut, trims⟩ := trimmed_split front
    have whole : text = trimmed front ++ (cut ++ back) := by
      rw [← List.append_assoc, ← trims, split]
    have shorter : byteLen (trimmed front) < byteLen text := by
      have size : byteLen front = byteLen (trimmed front) + byteLen cut := by
        rw [← byteLen_append, ← trims]
      omega
    have kept : trimmedTo text (byteLen front) = .ok (trimmed front) := by
      rw [split, trimmedTo_append]
    have size : byteLen (trimmed front ++ affix) - byteLen affix = byteLen (trimmed front) := by
      rw [byteLen_append, Nat.add_sub_cancel]
    refine ⟨_, ?_, Restyled.truncated covers (.front covers whole shorter)⟩
    simp only [kept, ok_bind, updateRunsAfterTruncation, size]
    rfl

theorem truncate_styles_threeRuns : ∃ out,
    (⟨fun _ => 1⟩ : LineWrapper).truncateWrappedLine ['a', 'a', ' ', 'b', 'b', 'b'] 2 2 ['…']
    [(⟨2, 0⟩ : TextRun Nat), ⟨1, 1⟩, ⟨3, 2⟩] .fromEnd = .ok out ∧ Truncated ['a', 'a', ' ', 'b', 'b', 'b'] ['…']
    [(⟨2, 0⟩ : TextRun Nat), ⟨1, 1⟩, ⟨3, 2⟩] out :=
  (truncate_styles ⟨fun _ => 1⟩ ['a', 'a', ' ', 'b', 'b', 'b'] [⟨2, 0⟩, ⟨1, 1⟩, ⟨3, 2⟩] (by decide) 2
    ['…'] .fromEnd nofun).2 (by decide +kernel) 2

/-- An empty line without runs leaves no run to put the affix in. An affix of negative width is put
behind the whole text, whose runs are then kept as they are. -/
theorem truncate_without_run :
    (⟨fun _ => 1⟩ : LineWrapper).truncateLine [] (-1) ['…'] ([] : List (TextRun Nat)) .fromMiddle =
      .ok (['…'], .owned []) ∧
    (⟨fun c => if c = '…' then -1 else 1⟩ : LineWrapper).truncateWrappedLine ['a', 'a', 'a', 'a', 'a'] 2 2
      ['…'] [(⟨5, 0⟩ : TextRun Nat)] .fromEnd =
      .ok (['a', 'a', 'a', 'a', 'a', '…'], .owned [⟨5, 0⟩]) ∧
    byteLen ['…'] = 3 ∧ byteLen ['a', 'a', 'a', 'a', 'a', '…'] = 8 := by
  decide +kernel

end LineWrapper

end Pinrail.TextSystem

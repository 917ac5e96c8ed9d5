import Pinrail.TextSystem.BreakOpportunities
import Pinrail.TextSystem.Truncation

/-!
# The two wrapping loops

`truncate_wrapped_line` lays out its lines with a loop of its own. It is the loop of `wrap_line` with
one difference: the previous character is kept up to date also where a line is broken.
-/

namespace Pinrail.TextSystem
open Lib

namespace LineWrapper

variable {self : LineWrapper} {wrapWidth : ℚ} {passed rest : List WrapBoundaryCandidate}

/-! ## A loop that is up to date -/

/-- The round of `wrap_line` with `prev_c` brought up to date on every path. -/
def refreshedStep (self : LineWrapper) (wrapWidth : ℚ) (s : Wrapping) (item : WrapBoundaryCandidate) :
    Wrapping × Option Boundary :=
  let (next, boundary) := self.wrapStep wrapWidth s item
  ({ next with prevC := if item = .char '\n' then s.prevC else item.newPrevC s.prevC }, boundary)

def refreshedLine (self : LineWrapper) (fragments : List LineFragment) (wrapWidth : ℚ) : List Boundary :=
  emitted (self.refreshedStep wrapWidth) .start (wrapCandidates fragments)

theorem lay_withPrevC {s : Wrapping} {item : WrapBoundaryCandidate} (prevC : Char)
    (same : ({ s with prevC := prevC } : Wrapping).isCandidate item = s.isCandidate item) :
    self.lay { s with prevC := prevC } item = { self.lay s item with prevC := prevC } := by
  rw [lay, lay, visit_eq, visit_eq]
  dsimp only
  rw [same]

theorem nextLine_withPrevC {s : Wrapping} {item : WrapBoundaryCandidate} (prevC : Char)
    (same : ({ s with prevC := prevC } : Wrapping).isCandidate item = s.isCandidate item) :
    self.nextLine { s with prevC := prevC } item = { self.nextLine s item with prevC := prevC } := by
  rw [nextLine_eq, nextLine_eq, lay_withPrevC prevC same]
  have indent : ({ self.lay s item with prevC := prevC } : Wrapping).setIndent.indent =
      (self.lay s item).setIndent.indent := by
    unfold Wrapping.setIndent
    dsimp only
    split <;> rfl
  dsimp only
  rw [indent]
  split <;> rfl

theorem refreshedStep_withPrevC {s : Wrapping} {item : WrapBoundaryCandidate} (prevC : Char) (same : item ≠ .char '\n' →
      ({ s with prevC := prevC } : Wrapping).isCandidate item = s.isCandidate item) :
    self.refreshedStep wrapWidth { s with prevC := prevC } item = ({ (self.wrapStep wrapWidth s item).1 with
          prevC := if item = .char '\n' then prevC else item.newPrevC prevC },
        (self.wrapStep wrapWidth s item).2) := by
  unfold refreshedStep
  rw [wrapStep_eq, wrapStep_eq]
  by_cases newline : item = .char '\n'
  · simp only [if_pos newline]
  · have overflow : self.Overflows wrapWidth { s with prevC := prevC } item ↔ self.Overflows wrapWidth s item := Iff.rfl
    simp only [if_neg newline, lay_withPrevC prevC (same newline),
      nextLine_withPrevC prevC (same newline), overflow]
    split <;> rfl

theorem refreshedLine_eq {fragments : List LineFragment} (current : self.DecidesCurrent fragments wrapWidth) :
    self.wrapLine fragments wrapWidth = self.refreshedLine fragments wrapWidth := by
  have keeps : KeepsSame (self.wrapStep wrapWidth) (self.refreshedStep wrapWidth) Current
      fun passed s t => NotesFirst passed s ∧ t = { s with prevC := lastChar passed } := by
    rintro passed s _ item ⟨notes, rfl⟩ current
    have same (visible : item ≠ .char '\n') :
        ({ s with prevC := lastChar passed } : Wrapping).isCandidate item = s.isCandidate item := by
      rw [Bool.eq_iff_iff, isCandidate_iff visible, current visible]
      exact and_congr_right fun _ => and_congr_right fun _ => notes
    rw [refreshedStep_withPrevC _ same]
    refine ⟨rfl, notes.step, ?_⟩
    rw [lastChar_append]
  exact emitted_eq keeps [] .start .start _ ⟨.start, rfl⟩ current

/-! ## The loop of `truncate_wrapped_line` -/

theorem isCandidate_char (t : WrappedTruncation) (c : Char) : t.toWrapping.isCandidate (.char c) = t.isCandidate c := by
  unfold WrappedTruncation.isCandidate Wrapping.isCandidate
  cases word : isWordChar c with
  | false => simp [word]
  | true =>
    have notSpace : (c != ' ') = true := by
      rw [bne_iff_ne]
      rintro rfl
      exact absurd word (by decide)
    simp [word, notSpace]

theorem lay_char (self : LineWrapper) (t : WrappedTruncation) (c : Char) :
    { t.lay c (self.widthForChar c) with index := t.index + c.utf8Size } = self.lay t.toWrapping (.char c) := by
  rw [lay, visit_eq, isCandidate_char]
  rfl

theorem nextLine_char {t : WrappedTruncation} (tracks : self.Tracks passed t.toWrapping)
    (positive : AllPositive passed) {c : Char} (visible : c ≠ '\n') :
    { self.addIndent ((t.lay c (self.widthForChar c)).setIndent.breakWrapped (self.widthForChar c)) with
        index := t.index + c.utf8Size } = self.nextLine t.toWrapping (.char c) := by
  have laid : self.Tracks (passed ++ [.char c]) (self.lay t.toWrapping (.char c)) :=
    tracks.lay (fun _ => positive.clear) (by simpa using visible)
  have starts : (t.lay c (self.widthForChar c)).index = t.index := rfl
  rw [nextLine_eq]
  rw [← lay_char] at laid ⊢
  generalize t.lay c (self.widthForChar c) = L at laid starts ⊢
  have indent : ({ L with index := t.index + c.utf8Size } : Wrapping).setIndent.indent = L.setIndent.indent := by
    unfold Wrapping.setIndent
    dsimp only
    split <;> rfl
  have behind : L.lastWrapIx < L.lastCandidateIx ↔ 0 < L.lastCandidateIx :=
    ⟨Nat.zero_lt_of_lt, fun has => (laid.candidate has).1⟩
  dsimp only
  rw [addIndent_eq, setIndent_eq, Wrapping.breakWrapped, indent]
  dsimp only
  by_cases has : 0 < L.lastCandidateIx
  · rw [if_pos (behind.mpr has), if_pos has]
  · rw [if_neg (mt behind.mp has), if_neg has, ← starts]
    rfl

theorem truncateStep_cases (wrapWidth : ℚ) {t : WrappedTruncation} (tracks : self.Tracks passed t.toWrapping)
    (positive : AllPositive passed) {c : Char} (visible : c ≠ '\n') (affixWidth : ℚ) (maxLines : Nat)
    (started : ¬ t.line < maxLines - 1 → t.lastWrapIx < t.index) :
    (∃ truncateIx, self.truncateStep wrapWidth affixWidth maxLines t c = .inl truncateIx ∧ ¬ t.line < maxLines - 1 ∧
      (self.refreshedStep wrapWidth t.toWrapping (.char c)).2.isSome) ∨
    ∃ next, self.truncateStep wrapWidth affixWidth maxLines t c = .inr next ∧
      next.toWrapping = (self.refreshedStep wrapWidth t.toWrapping (.char c)).1 ∧
      next.line = t.line + (self.refreshedStep wrapWidth t.toWrapping (.char c)).2.toList.length ∧
      ((self.refreshedStep wrapWidth t.toWrapping (.char c)).2.isSome → t.line < maxLines - 1) := by
  have isVisible : WrapBoundaryCandidate.char c ≠ .char '\n' := by simpa using visible
  have laid := lay_char self t c
  have overflow : self.Overflows wrapWidth t.toWrapping (.char c) ↔ wrapWidth < (t.lay c (self.widthForChar c)).width ∧
      (t.lay c (self.widthForChar c)).lastWrapIx < t.index := Iff.rfl
  unfold refreshedStep
  rcases self.wrapStep_cases wrapWidth t.toWrapping (.char c) with
    ⟨newline, -⟩ | ⟨-, stays, step⟩ | ⟨-, overflows, step⟩
  · exact absurd newline isVisible
  · right
    rw [step, ← laid]
    rw [overflow] at stays
    unfold truncateStep
    dsimp only
    by_cases last : t.line < maxLines - 1
    · rw [if_pos last, if_neg stays]
      exact ⟨_, rfl, by simp [isVisible, WrapBoundaryCandidate.newPrevC], rfl, nofun⟩
    · have fits : ¬ wrapWidth < (t.lay c (self.widthForChar c)).width := fun exceeds =>
        stays ⟨exceeds, started last⟩
      rw [if_neg last, if_neg fits]
      exact ⟨_, rfl, by simp [isVisible, WrapBoundaryCandidate.newPrevC], rfl, nofun⟩
  · rw [step, ← nextLine_char tracks positive visible]
    rw [overflow] at overflows
    unfold truncateStep
    dsimp only
    by_cases last : t.line < maxLines - 1
    · right
      rw [if_pos last, if_pos overflows]
      exact ⟨_, rfl, by simp [isVisible, WrapBoundaryCandidate.newPrevC], rfl, fun _ => last⟩
    · left
      rw [if_neg last, if_pos overflows.1]
      exact ⟨_, rfl, last, rfl⟩

theorem refreshed_tracks {s : Wrapping} (tracks : self.Tracks passed s) (positive : AllPositive passed)
    {item : WrapBoundaryCandidate} : self.Tracks (passed ++ [item]) (self.refreshedStep wrapWidth s item).1 :=
  (tracks.step fun _ => .inl positive.clear).withPrevC _

theorem truncateLoop_none_iff {affixWidth : ℚ} {maxLines : Nat} (text : Text) (noNewline : '\n' ∉ text)
    {t : WrappedTruncation} (tracks : self.Tracks passed t.toWrapping) (positive : AllPositive passed)
    (room : t.line ≤ maxLines - 1) (several : 2 ≤ maxLines) (begun : 0 < t.line → 0 < t.index) :
    self.truncateLoop wrapWidth affixWidth maxLines t text = none ↔
    t.line + (emitted (self.refreshedStep wrapWidth) t.toWrapping (text.map .char)).length < maxLines := by
  induction text generalizing t passed with
  | nil =>
    refine iff_of_true rfl ?_
    rw [List.map_nil, emitted, List.length_nil]
    omega
  | cons c text ih =>
    have visible : c ≠ '\n' := fun newline => noNewline (newline ▸ List.mem_cons_self)
    have bytes : 0 < (WrapBoundaryCandidate.char c).lenUtf8 := c.utf8Size_pos
    have stepped : self.Tracks (passed ++ [.char c])
        (self.refreshedStep wrapWidth t.toWrapping (.char c)).1 := refreshed_tracks tracks positive
    have wrap := tracks.lastWrap_lt positive.clear
    have started : ¬ t.line < maxLines - 1 → t.lastWrapIx < t.index := by omega
    have cases := truncateStep_cases wrapWidth tracks positive visible affixWidth maxLines started
    rw [truncateLoop, if_neg visible, List.map_cons, emitted, List.length_append]
    rcases cases with ⟨ix, step, last, boundary⟩ | ⟨next, step, state, line, earlier⟩
    · rw [step]
      obtain ⟨boundary, out⟩ := Option.isSome_iff_exists.mp boundary
      rw [out, Option.toList_some, List.length_singleton]
      refine iff_of_false (by simp) ?_
      omega
    · have nextPositive : AllPositive (passed ++ [.char c]) := by
        intro item member
        rcases List.mem_append.mp member with earlier | isNew
        · exact positive item earlier
        · obtain rfl := List.mem_singleton.mp isNew
          exact bytes
      have nextRoom : next.line ≤ maxLines - 1 := by
        rw [line]
        cases out : (self.refreshedStep wrapWidth t.toWrapping (.char c)).2 with
        | none => simpa using room
        | some boundary =>
          have := earlier (by rw [out]; rfl)
          simp only [Option.toList_some, List.length_singleton]
          omega
      have moved : 0 < next.index := by
        have ends := (state ▸ stepped).index
        rw [ends, byteExtent_append]
        have size : byteExtent [.char c] = c.utf8Size := by simp [extent, WrapBoundaryCandidate.lenUtf8]
        have := c.utf8Size_pos
        omega
      rw [step]
      dsimp only
      rw [ih (fun member => noNewline (List.mem_cons_of_mem _ member)) (state ▸ stepped) nextPositive
        nextRoom (fun _ => moved), state, line, Nat.add_assoc]

/-! ## The same lines -/

variable {S : Type}

theorem truncateWrappedLine_borrowed_iff (self : LineWrapper) (text : Text) (noNewline : '\n' ∉ text) (wrapWidth : ℚ)
    {maxLines : Nat} (several : 2 ≤ maxLines) (affix : Text) (runs : List (TextRun S)) :
    self.truncateWrappedLine text wrapWidth maxLines affix runs .fromEnd = .ok (text, .borrowed runs) ↔
    (self.refreshedLine [.text text] wrapWidth).length < maxLines := by
  have items : wrapCandidates [.text text] = text.map .char := by
    simp [wrapCandidates, LineFragment.wrapBoundaryCandidates]
  have loop : self.truncateLoop wrapWidth (self.textWidth affix) maxLines .start text = none ↔
      0 + (emitted (self.refreshedStep wrapWidth) .start (text.map .char)).length < maxLines :=
    truncateLoop_none_iff text noNewline .start (fun _ => nofun) (Nat.zero_le _) several nofun
  unfold refreshedLine
  rw [items, ← Nat.zero_add (List.length _)]
  refine Iff.trans ?_ loop
  unfold truncateWrappedLine
  rw [if_neg (by simp; omega), if_neg (by simp)]
  dsimp only
  cases cut : self.truncateLoop wrapWidth (self.textWidth affix) maxLines .start text with
  | none => simp
  | some truncateIx =>
    refine iff_of_false ?_ nofun
    intro unchanged
    obtain ⟨truncated, -, unchanged⟩ := bind_eq_ok.mp unchanged
    obtain ⟨others, -, unchanged⟩ := bind_eq_ok.mp unchanged
    cases unchanged

/-- The text is returned as it is if `wrap_line` begins no line too many, up to the stale character
that `wrap_line` may see behind a boundary. -/
theorem truncateWrappedLine_wrapLine (self : LineWrapper) (text : Text) (noNewline : '\n' ∉ text)
    (wrapWidth : ℚ) {maxLines : Nat} (several : 2 ≤ maxLines) (affix : Text) (runs : List (TextRun S)) :
    (self.DecidesCurrent [.text text] wrapWidth →
      (self.truncateWrappedLine text wrapWidth maxLines affix runs .fromEnd = .ok (text, .borrowed runs) ↔
        (self.wrapLine [.text text] wrapWidth).length < maxLines)) ∧
    (self.truncateWrappedLine text wrapWidth maxLines affix runs .fromEnd = .ok (text, .borrowed runs) ↔
      (self.refreshedLine [.text text] wrapWidth).length < maxLines) := by
  rw [truncateWrappedLine_borrowed_iff self text noNewline wrapWidth several affix runs]
  refine ⟨fun current => ?_, Iff.rfl⟩
  rw [refreshedLine_eq current]

theorem truncateWrappedLine_wrapLine_twoWords :
    (monospace 1).truncateWrappedLine ['a', 'a', ' ', 'b', 'b', 'b'] 4 2 ['…']
    [(⟨6, 0⟩ : TextRun Nat)] .fromEnd = .ok (['a', 'a', ' ', 'b', 'b', 'b'], .borrowed [⟨6, 0⟩]) ↔
    ((monospace 1).wrapLine [.text ['a', 'a', ' ', 'b', 'b', 'b']] 4).length < 2 :=
  (truncateWrappedLine_wrapLine (monospace 1) ['a', 'a', ' ', 'b', 'b', 'b'] (by decide) 4 (by decide)
    ['…'] [⟨6, 0⟩]).1 (by decide +kernel)

/-- Behind the boundary in front of the space `wrap_line` does not see the space, takes `bbbb` for a
part of the line and breaks in it; the other loop breaks in front of it and needs one line more. -/
theorem truncateWrappedLine_stale :
    (monospace 1).wrapLine [.text ['a', 'a', 'a', 'a', ' ', 'b', 'b', 'b', 'b', 'c', 'c']] 4 = [⟨4, 0⟩, ⟨8, 0⟩] ∧
    (monospace 1).truncateWrappedLine ['a', 'a', 'a', 'a', ' ', 'b', 'b', 'b', 'b', 'c', 'c'] 4 3 ['…']
    [(⟨11, 0⟩ : TextRun Nat)] .fromEnd = .ok (['a', 'a', 'a', 'a', '…'], .owned [⟨7, 0⟩]) := by
  decide +kernel

end LineWrapper

end Pinrail.TextSystem

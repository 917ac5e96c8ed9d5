import Pinrail.Lib.Binary32
import Pinrail.TextSystem.FittingLines

/-!
# Where lines are broken

A line is broken at its last opportunity or, when it has none, in front of the item that overflows.
After a boundary the loop still remembers the character in front of the one that overflowed, so that
the next decision may see a wrong one.
-/

namespace Pinrail.TextSystem
open Lib

/-! ## Opportunities -/

def lastChar (front : List WrapBoundaryCandidate) : Char :=
  front.foldl (fun prevC item => if item = .char '\n' then prevC else item.newPrevC prevC) '\x00'

namespace WrapBoundaryCandidate

def isBlank (item : WrapBoundaryCandidate) : Bool := item == .char '\n' || item.isSpace

def joins : WrapBoundaryCandidate → Bool
  | .char c => isWordChar c
  | .element .. => true

end WrapBoundaryCandidate

/-- A line may be broken in front of an item that is not blank, behind one that is not blank, and
behind a space unless the item is a character outside of words. -/
def Opportunity (front : List WrapBoundaryCandidate) (item : WrapBoundaryCandidate) : Prop :=
  item.isBlank = false ∧ (item.joins = true → lastChar front = ' ') ∧
  ∃ other ∈ front, other.isBlank = false

instance (front : List WrapBoundaryCandidate) (item : WrapBoundaryCandidate) :
    Decidable (Opportunity front item) := inferInstanceAs (Decidable (_ ∧ _ ∧ _))

def OpportunityAt (items : List WrapBoundaryCandidate) (ix : Nat) : Prop :=
  ∃ passed item rest, items = passed ++ item :: rest ∧ ix = byteExtent passed ∧ Opportunity passed item

variable {items passed rest : List WrapBoundaryCandidate} {item : WrapBoundaryCandidate}

theorem opportunityAt_iff {ix : Nat} : OpportunityAt items ix ↔ ∃ n ∈ List.range items.length, ∃ item ∈ items[n]?,
    ix = byteExtent (items.take n) ∧ Opportunity (items.take n) item := by
  constructor
  · rintro ⟨passed, item, rest, rfl, isIx, opportunity⟩
    exact ⟨passed.length, by simp, item, by simp, by simpa using isIx, by simpa using opportunity⟩
  · rintro ⟨n, -, item, isItem, isIx, opportunity⟩
    obtain ⟨inside, rfl⟩ := List.getElem?_eq_some_iff.mp isItem
    exact ⟨items.take n, items[n], items.drop (n + 1), by simp, isIx, opportunity⟩

instance (items : List WrapBoundaryCandidate) (ix : Nat) : Decidable (OpportunityAt items ix) :=
  decidable_of_iff _ opportunityAt_iff.symm

def Current (passed : List WrapBoundaryCandidate) (s : Wrapping) (item : WrapBoundaryCandidate) : Prop :=
  item ≠ .char '\n' → (s.isCandidate item = true ↔ Opportunity passed item)

instance (passed : List WrapBoundaryCandidate) (s : Wrapping) (item : WrapBoundaryCandidate) :
    Decidable (Current passed s item) := inferInstanceAs (Decidable (_ → (_ ↔ _)))

theorem lastChar_append (passed : List WrapBoundaryCandidate) (item : WrapBoundaryCandidate) :
    lastChar (passed ++ [item]) =
      if item = .char '\n' then lastChar passed else item.newPrevC (lastChar passed) := by
  simp [lastChar]

theorem isCandidate_iff {s : Wrapping} (visible : item ≠ .char '\n') : s.isCandidate item = true ↔
    item.isBlank = false ∧ (item.joins = true → s.prevC = ' ') ∧ s.firstNonWhitespaceIx.isSome := by
  cases item with
  | element width lenUtf8 => simp [Wrapping.isCandidate, WrapBoundaryCandidate.isBlank,
      WrapBoundaryCandidate.joins, WrapBoundaryCandidate.isSpace]
  | char c =>
    have notNewline : c ≠ '\n' := fun newline => visible (newline ▸ rfl)
    simp only [Wrapping.isCandidate, WrapBoundaryCandidate.isBlank, WrapBoundaryCandidate.joins,
      WrapBoundaryCandidate.isSpace]
    cases word : isWordChar c <;> simp [notNewline, and_assoc, and_left_comm]

namespace LineWrapper

variable {self : LineWrapper} {wrapWidth : ℚ}

/-! ## Decisions in a run -/

def NotesFirst (passed : List WrapBoundaryCandidate) (s : Wrapping) : Prop :=
  s.firstNonWhitespaceIx.isSome ↔ ∃ other ∈ passed, other.isBlank = false

theorem NotesFirst.start : NotesFirst [] .start := by simp [NotesFirst, Wrapping.start]

theorem lay_first {s : Wrapping} (visible : item ≠ .char '\n') : (self.lay s item).firstNonWhitespaceIx.isSome ↔
    s.firstNonWhitespaceIx.isSome ∨ item.isBlank = false := by
  have blank : item.isBlank = item.isSpace := by simp [WrapBoundaryCandidate.isBlank, visible]
  rw [blank, LineWrapper.lay, visit_eq]
  cases first : s.firstNonWhitespaceIx with
  | none => cases item.isSpace <;> simp
  | some ix => simp

theorem nextLine_first (s : Wrapping) (item : WrapBoundaryCandidate) :
    (self.nextLine s item).firstNonWhitespaceIx = (self.lay s item).firstNonWhitespaceIx := by
  rw [nextLine_eq]
  dsimp only
  split <;> rfl

theorem NotesFirst.step {s : Wrapping} (notes : NotesFirst passed s) :
    NotesFirst (passed ++ [item]) (self.wrapStep wrapWidth s item).1 := by
  have joined (visible : item ≠ .char '\n') : (self.lay s item).firstNonWhitespaceIx.isSome ↔
      ∃ other ∈ passed ++ [item], other.isBlank = false := by
    rw [lay_first visible, show s.firstNonWhitespaceIx.isSome ↔ _ from notes]
    simp [or_and_right, exists_or]
  rcases self.wrapStep_cases wrapWidth s item with
    ⟨rfl, step⟩ | ⟨visible, -, step⟩ | ⟨visible, -, step⟩
  all_goals rw [step]
  · have blank : (WrapBoundaryCandidate.char '\n').isBlank = true := by decide
    refine Iff.trans notes ?_
    simp [or_and_right, exists_or, blank]
  · exact joined visible
  · unfold NotesFirst
    rw [nextLine_first]
    exact joined visible

theorem nextLine_prevC (s : Wrapping) (item : WrapBoundaryCandidate) : (self.nextLine s item).prevC = s.prevC := by
  rw [nextLine_eq]
  dsimp only
  split <;> rw [LineWrapper.lay, visit_eq]

/-- The line is broken at its last candidate or, if the item and the line have none, in front of the item. -/
theorem nextLine_cases (s : Wrapping) (item : WrapBoundaryCandidate) :
    (0 < (self.lay s item).lastCandidateIx ∧ (self.nextLine s item).lastWrapIx = (self.lay s item).lastCandidateIx) ∨
    ((self.lay s item).lastCandidateIx = 0 ∧ (self.nextLine s item).lastWrapIx = s.index) := by
  rw [nextLine_eq]
  dsimp only
  split
  next has => exact .inl ⟨has, rfl⟩
  next none => exact .inr ⟨Nat.eq_zero_of_not_pos none, rfl⟩

theorem nextLine_indent (s : Wrapping) (item : WrapBoundaryCandidate) :
    s.indent.getD 0 = 0 ∨ s.indent.getD 0 = (self.nextLine s item).indent.getD 0 := by
  have next : (self.nextLine s item).indent = (self.lay s item).setIndent.indent := by
    rw [nextLine_eq]
    dsimp only
    split <;> rfl
  rw [next]
  cases indent : s.indent with
  | none => exact .inl rfl
  | some width =>
    right
    unfold Wrapping.setIndent
    rw [lay_indent, indent]
    simp [indent]

theorem wrapStep_index (s : Wrapping) (item : WrapBoundaryCandidate) :
    (self.wrapStep wrapWidth s item).1.index = s.index + item.lenUtf8 := by
  rcases self.wrapStep_cases wrapWidth s item with ⟨-, step⟩ | ⟨-, -, step⟩ | ⟨-, -, step⟩
  all_goals rw [step]
  · rfl
  · exact nextLine_index s item

theorem eq_or_before {front back : List WrapBoundaryCandidate} {other : WrapBoundaryCandidate}
    (same : passed ++ item :: rest = front ++ other :: back) (positive : AllPositive (passed ++ item :: rest))
    (le : byteExtent passed ≤ byteExtent front) :
    (front = passed ∧ other = item) ∨ byteExtent passed + item.lenUtf8 ≤ byteExtent front := by
  rcases List.append_eq_append_iff.mp same with ⟨middle, rfl, behind⟩ | ⟨middle, rfl, behind⟩
  · cases middle with
    | nil => exact .inl ⟨List.append_nil passed, (List.cons.inj behind).1.symm⟩
    | cons head middle =>
      obtain ⟨rfl, -⟩ := List.cons.inj behind
      right
      rw [byteExtent_append, byteExtent_cons]
      omega
  · cases middle with
    | nil => exact .inl ⟨(List.append_nil front).symm, (List.cons.inj behind).1⟩
    | cons head middle =>
      have bytes := positive head (by simp)
      rw [byteExtent_append, byteExtent_cons] at le
      omega

def DecidesCurrent (self : LineWrapper) (fragments : List LineFragment) (wrapWidth : ℚ) : Prop :=
  Along (self.wrapStep wrapWidth) Current [] .start (wrapCandidates fragments)

instance (fragments : List LineFragment) : Decidable (self.DecidesCurrent fragments wrapWidth) :=
  inferInstanceAs (Decidable (Along ..))

/-! ## Where boundaries are returned -/

def after (self : LineWrapper) (wrapWidth : ℚ) (passed : List WrapBoundaryCandidate) : Wrapping :=
  passed.foldl (fun s item => (self.wrapStep wrapWidth s item).1) .start

def Returns (self : LineWrapper) (wrapWidth : ℚ) (passed : List WrapBoundaryCandidate)
    (item : WrapBoundaryCandidate) : Prop :=
  (self.wrapStep wrapWidth (self.after wrapWidth passed) item).2.isSome

def ReturnsAt (self : LineWrapper) (wrapWidth : ℚ) (items : List WrapBoundaryCandidate) (ix : Nat) : Prop :=
  ∃ passed item rest, items = passed ++ item :: rest ∧ ix = byteExtent passed ∧ self.Returns wrapWidth passed item

/-- Of the items passed, `front` ends with the last character that is remembered: one at which a boundary is
returned is not. -/
inductive Remembered (self : LineWrapper) (wrapWidth : ℚ) :
    List WrapBoundaryCandidate → List WrapBoundaryCandidate → Prop where
  | start : Remembered self wrapWidth [] []
  | stored {passed : List WrapBoundaryCandidate} {c : Char} (visible : c ≠ '\n')
      (stays : ¬ self.Returns wrapWidth passed (.char c)) :
      Remembered self wrapWidth (passed ++ [.char c]) (passed ++ [.char c])
  | unstored {front passed : List WrapBoundaryCandidate} {item : WrapBoundaryCandidate}
      (remembered : Remembered self wrapWidth front passed)
      (silent : ∀ c, item = .char c → c = '\n' ∨ self.Returns wrapWidth passed item) :
      Remembered self wrapWidth front (passed ++ [item])

/-- The item begins a line only behind a space, and of the character in front of it and the one that is
remembered there one is a space. -/
def Stale (self : LineWrapper) (wrapWidth : ℚ) (items : List WrapBoundaryCandidate) (ix : Nat) : Prop :=
  ∃ front passed item rest, items = passed ++ item :: rest ∧ ix = byteExtent passed ∧ item.joins = true ∧
    self.Remembered wrapWidth front passed ∧ ¬ (lastChar front = ' ' ↔ lastChar passed = ' ')

/-- The items of a line behind its first one, up to an offset, fit on it, those aside that are carried over:
they stand no later than an item at which a boundary is returned. -/
def FitsUntil (self : LineWrapper) (wrapWidth : ℚ) (items : List WrapBoundaryCandidate) (opening : Boundary)
    (stop : Nat) : Prop :=
  ∀ front item back, items = front ++ item :: back → item ≠ .char '\n' → opening.ix < byteExtent front →
    byteExtent front < stop →
    self.lineWidth items opening.ix (byteExtent front + 1) + self.indentWidth opening.nextIndent ≤ wrapWidth ∨
      ∃ ix < stop, byteExtent front ≤ ix ∧ self.ReturnsAt wrapWidth items ix

/-- The item at the boundary is the first with which the line exceeds the wrap width. -/
def FirstExceeds (self : LineWrapper) (wrapWidth : ℚ) (items : List WrapBoundaryCandidate)
    (opening closing : Boundary) : Prop :=
  wrapWidth < self.lineWidth items opening.ix (closing.ix + 1) + self.indentWidth opening.nextIndent ∧
  self.FitsUntil wrapWidth items opening closing.ix

/-- Behind one boundary of a text the next is an opportunity, or the item that overflows the line. -/
def Breaks (self : LineWrapper) (wrapWidth : ℚ) (items : List WrapBoundaryCandidate)
    (opening closing : Boundary) : Prop :=
  (opening.ix < closing.ix ∧ closing.ix < byteExtent items) ∧
  (OpportunityAt items closing.ix ∨ self.Stale wrapWidth items closing.ix ∨
    self.ReturnsAt wrapWidth items closing.ix ∧ self.FirstExceeds wrapWidth items opening closing)

/-! ## What a run keeps -/

/-- The state in front of the rest of the items. -/
structure Reads (wrapper : LineWrapper) (wrapWidth : ℚ) (items passed : List WrapBoundaryCandidate)
    (s : Wrapping) : Prop where
  tracks : wrapper.Tracks passed s
  reached : s = wrapper.after wrapWidth passed
  notes : NotesFirst passed s
  remembers : ∃ front, wrapper.Remembered wrapWidth front passed ∧ s.prevC = lastChar front
  marks : 0 < s.lastCandidateIx →
    OpportunityAt items s.lastCandidateIx ∨ wrapper.Stale wrapWidth items s.lastCandidateIx
  within : wrapper.FitsUntil wrapWidth items ⟨s.lastWrapIx, s.indent.getD 0⟩ s.index

theorem Reads.start : self.Reads wrapWidth items [] .start where
  tracks := .start
  reached := rfl
  notes := .start
  remembers := ⟨[], .start, rfl⟩
  marks := nofun
  within := fun _ _ _ _ _ _ before => absurd before (Nat.not_lt_zero _)

section Step

variable {s : Wrapping} (reads : self.Reads wrapWidth (passed ++ item :: rest) passed s)
  (positive : AllPositive (passed ++ item :: rest))
include reads

theorem Reads.decides (visible : item ≠ .char '\n') : (s.isCandidate item = true ↔ Opportunity passed item) ∨
    self.Stale wrapWidth (passed ++ item :: rest) s.index := by
  obtain ⟨front, remembered, prevC⟩ := reads.remembers
  rw [isCandidate_iff visible, prevC, Opportunity]
  by_cases same : item.joins = true → (lastChar front = ' ' ↔ lastChar passed = ' ')
  · left
    exact and_congr_right fun _ => and_congr (forall_congr' same) reads.notes
  · right
    obtain ⟨joins, differs⟩ := Classical.not_imp.mp same
    exact ⟨front, passed, item, rest, rfl, reads.tracks.index, joins, remembered, differs⟩

theorem Reads.marks_lay (visible : item ≠ .char '\n') (has : 0 < (self.lay s item).lastCandidateIx) :
    OpportunityAt (passed ++ item :: rest) (self.lay s item).lastCandidateIx ∨
    self.Stale wrapWidth (passed ++ item :: rest) (self.lay s item).lastCandidateIx := by
  simp only [LineWrapper.lay, visit_eq] at has ⊢
  split at has
  next candidate =>
    rw [if_pos candidate]
    rcases reads.decides visible with decides | stale
    · exact .inl ⟨passed, item, rest, rfl, reads.tracks.index, decides.mp candidate⟩
    · exact .inr stale
  next notCandidate =>
    rw [if_neg notCandidate]
    exact reads.marks has

theorem Reads.returns {boundary : Boundary} (out : (self.wrapStep wrapWidth s item).2 = some boundary) :
    self.Returns wrapWidth passed item := by
  rw [Returns, ← reads.reached, out]
  rfl

theorem Reads.returnsAt {boundary : Boundary} (out : (self.wrapStep wrapWidth s item).2 = some boundary) :
    self.ReturnsAt wrapWidth (passed ++ item :: rest) s.index :=
  ⟨passed, item, rest, rfl, reads.tracks.index, reads.returns out⟩

theorem Reads.remembers_step : ∃ front, self.Remembered wrapWidth front (passed ++ [item]) ∧
    (self.wrapStep wrapWidth s item).1.prevC = lastChar front := by
  obtain ⟨front, remembered, prevC⟩ := reads.remembers
  rcases self.wrapStep_cases wrapWidth s item with
    ⟨rfl, step⟩ | ⟨visible, -, step⟩ | ⟨-, -, step⟩
  · refine ⟨front, remembered.unstored fun c isNewline => .inl ?_, by rw [step]; exact prevC⟩
    exact (WrapBoundaryCandidate.char.inj isNewline).symm
  · cases item with
    | element width lenUtf8 => exact ⟨front, remembered.unstored nofun, by rw [step]; exact prevC⟩
    | char c =>
      refine ⟨passed ++ [.char c], .stored (fun newline => visible (newline ▸ rfl)) ?_, ?_⟩
      · rw [Returns, ← reads.reached, step]
        simp
      · rw [step, lastChar_append, if_neg visible]
        rfl
  · refine ⟨front, remembered.unstored fun _ _ => .inr (reads.returns (by rw [step])), ?_⟩
    rw [step, nextLine_prevC]
    exact prevC

theorem Reads.le_lay {first : Nat}
    (behind : first ≤ max s.lastWrapIx s.lastCandidateIx ∨ s.isCandidate item = true ∧ first ≤ s.index) :
    first ≤ max s.lastWrapIx (self.lay s item).lastCandidateIx := by
  have := reads.tracks.lastWrap_le
  have := reads.tracks.lastCandidate_le
  simp only [LineWrapper.lay, visit_eq]
  grind

include positive

theorem Reads.lineWidth_item (visible : item ≠ .char '\n') :
    self.lineWidth (passed ++ item :: rest) s.lastWrapIx (s.index + 1) + self.indentWidth (s.indent.getD 0) =
    s.width + self.itemWidth item := by
  have bytes : 0 < item.lenUtf8 := positive item (by simp)
  have index := reads.tracks.index
  have starts := reads.tracks.lastWrap_le
  have inside : s.index + 1 ≤ byteExtent (passed ++ [item]) := by
    rw [byteExtent_append, byteExtent_cons]
    omega
  rw [List.append_cons, lineWidth_eq_of_lineItems_eq (lineItems_append inside),
    LineWrapper.lineWidth_item visible (by omega) (by omega), reads.tracks.width]
  ring

theorem Reads.within_step : self.FitsUntil wrapWidth (passed ++ item :: rest)
    ⟨(self.wrapStep wrapWidth s item).1.lastWrapIx, (self.wrapStep wrapWidth s item).1.indent.getD 0⟩
    (s.index + item.lenUtf8) := by
  have index := reads.tracks.index
  intro front other back split visible behind before
  have place : byteExtent front < s.index ∨ front = passed ∧ other = item := by
    rcases Nat.lt_or_ge (byteExtent front) s.index with early | late
    · exact .inl early
    · exact .inr ((eq_or_before split positive (index ▸ late)).resolve_right (by omega))
  rcases self.wrapStep_cases wrapWidth s item with
    ⟨newline, step⟩ | ⟨-, stays, step⟩ | ⟨-, -, step⟩
  rotate_right
  · have bytes := positive item (by simp)
    refine .inr ⟨s.index, by omega, ?_, reads.returnsAt (by rw [step])⟩
    rcases place with early | ⟨rfl, -⟩
    · exact early.le
    · exact index.ge
  all_goals
    rw [step] at behind ⊢
    simp only [lay_lastWrapIx, lay_indent] at behind ⊢
    rcases place with early | ⟨rfl, rfl⟩
    · refine (reads.within front other back split visible behind early).imp_right ?_
      rintro ⟨ix, before, carried⟩
      exact ⟨ix, by omega, carried⟩
  · exact absurd newline visible
  · left
    rw [← index] at behind ⊢
    rw [reads.lineWidth_item positive visible]
    exact not_lt.mp fun exceeds => stays ⟨exceeds, behind⟩

theorem Reads.step : self.Reads wrapWidth (passed ++ item :: rest) (passed ++ [item])
    (self.wrapStep wrapWidth s item).1 where
  tracks := reads.tracks.step fun _ => .inl positive.front.clear
  reached := by simp [after, reads.reached]
  notes := reads.notes.step
  remembers := reads.remembers_step
  marks := by
    rcases self.wrapStep_cases wrapWidth s item with
      ⟨-, step⟩ | ⟨visible, -, step⟩ | ⟨-, -, step⟩
    all_goals rw [step]
    · exact reads.marks
    · exact reads.marks_lay visible
    · exact fun has => absurd (nextLine_candidate s item) has.ne'
  within := by
    rw [wrapStep_index]
    exact reads.within_step positive

/-! ## Boundaries -/

theorem Reads.advances (visible : item ≠ .char '\n') (overflows : self.Overflows wrapWidth s item) :
    max s.lastWrapIx (self.lay s item).lastCandidateIx ≤ (self.nextLine s item).lastWrapIx ∧
    s.lastWrapIx < (self.nextLine s item).lastWrapIx ∧ (self.nextLine s item).lastWrapIx ≤ s.index := by
  have laid := reads.tracks.lay (fun _ => positive.front.clear) visible
  have within : (self.lay s item).lastCandidateIx ≤ s.index := by
    have := reads.tracks.lastCandidate_le
    simp only [LineWrapper.lay, visit_eq]
    grind
  rcases nextLine_cases s item with ⟨has, start⟩ | ⟨none, start⟩
  · have behind := (laid.candidate has).1
    rw [lay_lastWrapIx] at behind
    omega
  · have := overflows.2
    omega

theorem Reads.breaks (visible : item ≠ .char '\n') (overflows : self.Overflows wrapWidth s item) (indent : Nat) :
    self.Breaks wrapWidth (passed ++ item :: rest) ⟨s.lastWrapIx, s.indent.getD 0⟩
      ⟨(self.nextLine s item).lastWrapIx, indent⟩ := by
  have ahead := (reads.advances positive visible overflows).2
  have index := reads.tracks.index
  have inside : byteExtent passed < byteExtent (passed ++ item :: rest) := by
    have bytes := positive item (by simp)
    rw [byteExtent_append, byteExtent_cons]
    omega
  refine ⟨⟨ahead.1, by dsimp only; omega⟩, ?_⟩
  rcases nextLine_cases s item with ⟨has, start⟩ | ⟨-, start⟩
  all_goals rw [start]
  · exact (reads.marks_lay visible has).imp_right .inl
  · refine .inr (.inr ⟨reads.returnsAt (by rw [wrapStep_eq, if_neg visible, if_pos overflows]), ?_, reads.within⟩)
    rw [reads.lineWidth_item positive visible]
    exact overflows.1

end Step

theorem wrapLine_isChain {fragments : List LineFragment} (bytes : Bytes fragments) :
    (⟨0, 0⟩ :: self.wrapLine fragments wrapWidth).IsChain (self.Breaks wrapWidth (wrapCandidates fragments)) := by
  have positive := bytes.allPositive
  rw [wrapLine_eq]
  generalize wrapCandidates fragments = whole at positive ⊢
  have keeps : KeepsChain (self.wrapStep wrapWidth) (fun _ _ _ => True) whole (self.Breaks wrapWidth whole)
      fun passed opening s =>
        self.Reads wrapWidth whole passed s ∧ opening = ⟨s.lastWrapIx, s.indent.getD 0⟩ := by
    rintro passed item rest _ s rfl ⟨reads, rfl⟩ -
    have stepped := reads.step positive
    rcases self.wrapStep_cases wrapWidth s item with
      ⟨-, step⟩ | ⟨-, -, step⟩ | ⟨visible, overflows, step⟩
    all_goals rw [step] at stepped ⊢
    · exact .inl ⟨rfl, stepped, rfl⟩
    · exact .inl ⟨rfl, stepped, by rw [lay_lastWrapIx, lay_indent]⟩
    · exact .inr ⟨_, rfl, reads.breaks positive visible overflows _, stepped, rfl⟩
  exact (emitted_isChain keeps [] ⟨0, 0⟩ .start whole rfl ⟨.start, rfl⟩ (Along.of_forall (fun _ _ _ => trivial) ..)).1

/-! ## Words -/

/-- A part of the text that begins at its start or at an opportunity and has no other one. -/
structure Stretch (items : List WrapBoundaryCandidate) (first last : Nat) : Prop where
  opens : first = 0 ∨ OpportunityAt items first
  unbroken : ∀ ix, first < ix → ix < last → ¬ OpportunityAt items ix

/-- Every part of a stretch fits on a line, with the indent and without. -/
def StretchFits (self : LineWrapper) (wrapWidth : ℚ) (items : List WrapBoundaryCandidate)
    (first last indent : Nat) : Prop :=
  ∀ width, width = 0 ∨ width = indent → ∀ start stop, first ≤ start → start ≤ stop → stop ≤ last →
    self.lineWidth items start stop + self.indentWidth width ≤ wrapWidth

theorem stretchFits_of_nonneg (nonneg : ∀ item ∈ items, 0 ≤ self.itemWidth item) (space : 0 ≤ self.widthForChar ' ')
    {first last indent : Nat} (fits : self.lineWidth items first last + self.indentWidth indent ≤ wrapWidth) :
    self.StretchFits wrapWidth items first last indent := by
  intro width isIndent start stop behind le before
  have less : self.indentWidth width ≤ self.indentWidth indent := by
    rcases isIndent with rfl | rfl
    · simpa [indentWidth] using mul_nonneg space (Nat.cast_nonneg indent)
    · exact le_rfl
  rw [lineWidth_add behind (le.trans before), lineWidth_add le before] at fits
  linarith [lineWidth_nonneg nonneg first start, lineWidth_nonneg nonneg stop last]

/-- The boundary does not split the stretch if it fits, unless a wrong character is remembered in front of
either of them. -/
def Spares (self : LineWrapper) (wrapWidth : ℚ) (items : List WrapBoundaryCandidate) (first last : Nat)
    (boundary : Boundary) : Prop :=
  self.StretchFits wrapWidth items first last boundary.nextIndent → boundary.ix ≤ first ∨ last ≤ boundary.ix ∨
      self.Stale wrapWidth items boundary.ix ∨ self.Stale wrapWidth items first

/-- In a stretch that begins at an opportunity the line has a candidate or begins at it or later. -/
theorem Reads.opened {s : Wrapping} (reads : self.Reads wrapWidth (passed ++ item :: rest) passed s)
    (positive : AllPositive (passed ++ item :: rest)) {first : Nat}
    (opens : first = 0 ∨ OpportunityAt (passed ++ item :: rest) first)
    (opened : first < s.index → first ≤ max s.lastWrapIx s.lastCandidateIx ∨
      self.Stale wrapWidth (passed ++ item :: rest) first)
    (behind : first < s.index + item.lenUtf8) :
    (first ≤ max s.lastWrapIx s.lastCandidateIx ∨ item ≠ .char '\n' ∧ s.isCandidate item = true ∧ first ≤ s.index) ∨
    self.Stale wrapWidth (passed ++ item :: rest) first := by
  rcases Nat.lt_or_ge first s.index with inside | notInside
  · exact (opened inside).imp_left .inl
  · have index := reads.tracks.index
    rcases opens with rfl | ⟨front, other, back, same, rfl, opportunity⟩
    · exact .inl (.inl (Nat.zero_le _))
    · rcases eq_or_before same positive (index ▸ notInside) with ⟨rfl, rfl⟩ | before
      · have visible : other ≠ .char '\n' := by
          rintro rfl
          exact absurd opportunity.1 (by decide)
        rcases reads.decides visible with decides | stale
        · exact .inl (.inr ⟨visible, decides.mpr opportunity, index.ge⟩)
        · exact .inr (index ▸ stale)
      · omega

theorem wrapLine_spares {fragments : List LineFragment} (bytes : Bytes fragments) {first last : Nat}
    (stretch : Stretch (wrapCandidates fragments) first last) : ∀ boundary ∈ self.wrapLine fragments wrapWidth,
    self.Spares wrapWidth (wrapCandidates fragments) first last boundary := by
  have positive := bytes.allPositive
  rw [wrapLine_eq]
  generalize wrapCandidates fragments = whole at positive stretch ⊢
  have keeps : KeepsEach (self.wrapStep wrapWidth) (fun _ _ _ => True) whole (self.Spares wrapWidth whole first last)
      fun passed s => self.Reads wrapWidth whole passed s ∧
        (first < s.index → first ≤ max s.lastWrapIx s.lastCandidateIx ∨ self.Stale wrapWidth whole first) := by
    rintro passed item rest s rfl ⟨reads, opened⟩ -
    have stepped := reads.step positive
    have opensHere := reads.opened positive stretch.opens opened
    rcases self.wrapStep_cases wrapWidth s item with
      ⟨newline, step⟩ | ⟨-, -, step⟩ | ⟨visible, overflows, step⟩
    all_goals rw [step] at stepped ⊢
    · refine ⟨nofun, stepped, fun behind => (opensHere behind).imp_left ?_⟩
      rintro (early | ⟨visible, -⟩)
      · exact early
      · exact absurd newline visible
    · refine ⟨nofun, stepped, fun behind => (opensHere behind).imp_left fun early => ?_⟩
      rw [lay_lastWrapIx]
      exact reads.le_lay (early.imp_right And.right)
    · have advances := reads.advances positive visible overflows
      refine ⟨?_, stepped, fun behind => ?_⟩
      · rintro _ ⟨⟩ fits
        by_contra within
        simp only [not_or, not_le] at within
        obtain ⟨behind, before, current, seen⟩ := within
        rcases nextLine_cases s item with ⟨has, start⟩ | ⟨none, start⟩
        · rw [start] at behind before current
          rcases reads.marks_lay visible has with opportunity | stale
          · exact stretch.unbroken _ behind before opportunity
          · exact current stale
        · have early : first ≤ s.lastWrapIx := by
            rcases opened (by omega) with early | stale
            · have laid := reads.le_lay (.inl early)
              omega
            · exact absurd stale seen
          have fit := fits (s.indent.getD 0) (nextLine_indent s item) s.lastWrapIx (s.index + 1) early
            (by omega) (by omega)
          rw [reads.lineWidth_item positive visible] at fit
          exact absurd overflows.1 (not_lt.mpr fit)
      · rw [nextLine_index] at behind
        refine (opensHere behind).imp_left fun early => ?_
        have laid := reads.le_lay (early.imp_right And.right)
        dsimp only
        omega
  exact emitted_forall keeps [] .start whole rfl ⟨.start, fun behind => absurd behind (Nat.not_lt_zero _)⟩
    (Along.of_forall (fun _ _ _ => trivial) ..)

/-! ## The boundaries of a text -/

/-- What the sums are made of; an indent is up to `MAX_INDENT` spaces. -/
def sizes (self : LineWrapper) (items : List WrapBoundaryCandidate) : List ℚ :=
  (laidOut items).map (fun item => self.itemWidth item.2) ++ List.replicate maxIndent (self.widthForChar ' ')

def monospace (width : ℚ) : LineWrapper := ⟨fun _ => width⟩

def threeWords : List LineFragment := [.text ['a', 'a', ' ', 'b', 'b', 'b', ' ', 'c', 'c']]

end LineWrapper

end Pinrail.TextSystem

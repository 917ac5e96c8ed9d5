import Mathlib.Tactic.Ring
import Pinrail.TextSystem.LineWrapper

/-!
# The lines between boundaries

The loop keeps the width of the line that it lays out, indent included, and the width that the line
has at its last candidate. The carried part of a line that is broken at a candidate is not checked
against the wrap width again.
-/

namespace Pinrail.TextSystem
open Lib

/-! ## Items and lines -/

abbrev byteExtent (items : List WrapBoundaryCandidate) : Nat :=
  extent WrapBoundaryCandidate.lenUtf8 items

def laidOut (items : List WrapBoundaryCandidate) : List (Nat × WrapBoundaryCandidate) :=
  (placedFrom WrapBoundaryCandidate.lenUtf8 0 items).filter fun item => item.2 ≠ .char '\n'

def AllPositive (items : List WrapBoundaryCandidate) : Prop := ∀ item ∈ items, 0 < item.lenUtf8

variable {items passed rest : List WrapBoundaryCandidate} {item : WrapBoundaryCandidate}

theorem byteExtent_append (front back : List WrapBoundaryCandidate) :
    byteExtent (front ++ back) = byteExtent front + byteExtent back := extent_append ..

theorem byteExtent_cons (item : WrapBoundaryCandidate) (back : List WrapBoundaryCandidate) :
    byteExtent (item :: back) = item.lenUtf8 + byteExtent back := extent_cons ..

theorem byteExtent_le_append (front back : List WrapBoundaryCandidate) :
    byteExtent front ≤ byteExtent (front ++ back) := byteExtent_append front back ▸ Nat.le_add_right ..

theorem laidOut_append_newline : laidOut (passed ++ [.char '\n']) = laidOut passed := by
  simp [laidOut, placedFrom_append, placedFrom]

theorem laidOut_append_item (visible : item ≠ .char '\n') :
    laidOut (passed ++ [item]) = laidOut passed ++ [(byteExtent passed, item)] := by
  simp [laidOut, placedFrom_append, placedFrom, visible]

theorem laidOut_ends : ∀ item ∈ laidOut passed, item.1 + item.2.lenUtf8 ≤ byteExtent passed := by
  intro item member
  have ends : item.1 + item.2.lenUtf8 ≤ 0 + byteExtent passed := (placedFrom_within (List.mem_filter.mp member).1).2
  rwa [Nat.zero_add] at ends

theorem laidOut_lt_succ : ∀ item ∈ laidOut passed, item.1 < byteExtent passed + 1 := by
  intro item member
  have := laidOut_ends item member
  omega

/-- Nothing without bytes stands right in front of the next item. -/
def Clear (passed : List WrapBoundaryCandidate) : Prop := ∀ item ∈ laidOut passed, item.1 < byteExtent passed

instance (passed : List WrapBoundaryCandidate) : Decidable (Clear passed) :=
  inferInstanceAs (Decidable (∀ item ∈ laidOut passed, item.1 < byteExtent passed))

theorem AllPositive.clear (positive : AllPositive passed) : Clear passed := by
  intro item member
  have ends := laidOut_ends item member
  have bytes := positive item.2 (placedFrom_snd_mem (List.mem_filter.mp member).1)
  omega

theorem AllPositive.front (positive : AllPositive (passed ++ rest)) : AllPositive passed :=
  fun item member => positive item (List.mem_append_left rest member)

theorem laidOut_append (passed rest : List WrapBoundaryCandidate) :
    ∃ back, laidOut (passed ++ rest) = laidOut passed ++ back ∧ ∀ item ∈ back, byteExtent passed ≤ item.1 := by
  refine ⟨_, by rw [laidOut, placedFrom_append, List.filter_append]; rfl, ?_⟩
  intro item member
  have starts := (placedFrom_within (List.mem_filter.mp member).1).1
  rwa [Nat.zero_add] at starts

def lineItems (items : List WrapBoundaryCandidate) (first last : Nat) :
    List (Nat × WrapBoundaryCandidate) := between first last (laidOut items)

theorem lineItems_append {first last : Nat} (within : last ≤ byteExtent passed) :
    lineItems (passed ++ rest) first last = lineItems passed first last := by
  obtain ⟨back, split, behind⟩ := laidOut_append passed rest
  unfold lineItems
  rw [split]
  exact between_append_left fun item member => within.trans (behind item member)

theorem lineItems_newline {first last : Nat} :
    lineItems (passed ++ [.char '\n']) first last = lineItems passed first last := by
  rw [lineItems, laidOut_append_newline, lineItems]

theorem lineItems_item (visible : item ≠ .char '\n') {first last : Nat}
    (starts : first ≤ byteExtent passed) (ends : byteExtent passed < last) :
    lineItems (passed ++ [item]) first last = lineItems passed first last ++ [(byteExtent passed, item)] := by
  rw [lineItems, laidOut_append_item visible]
  exact between_snoc starts ends

theorem lineItems_extend {first last : Nat} (ends : byteExtent passed < last) :
    lineItems passed first last = lineItems passed first (byteExtent passed + 1) :=
  between_extend laidOut_lt_succ ends

theorem Clear.lineItems_end (clear : Clear passed) (first : Nat) :
    lineItems passed first (byteExtent passed + 1) = lineItems passed first (byteExtent passed) :=
  between_extend clear (Nat.le_succ _)

theorem Clear.lineItems_of_le (clear : Clear passed) {last : Nat} : lineItems passed (byteExtent passed) last = [] :=
  between_eq_nil fun item member => .inl (clear item member)

namespace LineWrapper

variable (self : LineWrapper)

def lineWidth (items : List WrapBoundaryCandidate) (first last : Nat) : ℚ :=
  weightBetween self.itemWidth first last (laidOut items)

def indentWidth (indent : Nat) : ℚ := self.widthForChar ' ' * indent

variable {self}

theorem lineWidth_eq_of_lineItems_eq {others : List WrapBoundaryCandidate} {first last first' last' : Nat}
    (same : lineItems items first last = lineItems others first' last') :
    self.lineWidth items first last = self.lineWidth others first' last' := by
  unfold lineWidth weightBetween
  unfold lineItems at same
  rw [same]

theorem lineWidth_end (clear : Clear passed) (first : Nat) :
    self.lineWidth passed first (byteExtent passed + 1) = self.lineWidth passed first (byteExtent passed) :=
  lineWidth_eq_of_lineItems_eq (clear.lineItems_end first)

theorem lineWidth_add {first middle last : Nat} (le : first ≤ middle) (le' : middle ≤ last) :
    self.lineWidth items first last = self.lineWidth items first middle + self.lineWidth items middle last :=
  weightBetween_add _ le le'

theorem lineWidth_of_lineItems_nil {first last : Nat} (nothing : lineItems items first last = []) :
    self.lineWidth items first last = 0 := by
  unfold lineItems at nothing
  rw [lineWidth, weightBetween, nothing, List.map_nil, List.sum_nil]

theorem lineWidth_item (visible : item ≠ .char '\n') {first last : Nat}
    (starts : first ≤ byteExtent passed) (ends : byteExtent passed < last) :
    self.lineWidth (passed ++ [item]) first last = self.lineWidth passed first last + self.itemWidth item := by
  rw [lineWidth, laidOut_append_item visible]
  exact weightBetween_snoc starts ends

/-! ## One step -/

def lay (self : LineWrapper) (s : Wrapping) (item : WrapBoundaryCandidate) : Wrapping :=
  { s.visit s.index item with
    width := s.width + self.itemWidth item
    index := s.index + item.lenUtf8 }

def nextLine (self : LineWrapper) (s : Wrapping) (item : WrapBoundaryCandidate) : Wrapping :=
  self.addIndent ((self.lay s item).setIndent.breakLine s.index (self.itemWidth item))

def Overflows (self : LineWrapper) (wrapWidth : ℚ) (s : Wrapping) (item : WrapBoundaryCandidate) :
    Prop := wrapWidth < s.width + self.itemWidth item ∧ s.lastWrapIx < s.index

instance (wrapWidth : ℚ) (s : Wrapping) (item : WrapBoundaryCandidate) :
    Decidable (self.Overflows wrapWidth s item) := inferInstanceAs (Decidable (_ ∧ _))

theorem visit_eq (s : Wrapping) (ix : Nat) (item : WrapBoundaryCandidate) : s.visit ix item =
      { s with
        lastCandidateIx := if s.isCandidate item then ix else s.lastCandidateIx
        lastCandidateWidth := if s.isCandidate item then s.width else s.lastCandidateWidth
        firstNonWhitespaceIx :=
          if !item.isSpace && s.firstNonWhitespaceIx.isNone then some ix
          else s.firstNonWhitespaceIx } := by
  unfold Wrapping.visit
  cases s.isCandidate item <;> simp only [Bool.false_eq_true, if_true, if_false] <;> split <;> rfl

@[simp] theorem lay_lastWrapIx (s : Wrapping) (item : WrapBoundaryCandidate) :
    (self.lay s item).lastWrapIx = s.lastWrapIx := by rw [lay, visit_eq]

@[simp] theorem lay_indent (s : Wrapping) (item : WrapBoundaryCandidate) :
    (self.lay s item).indent = s.indent := by rw [lay, visit_eq]

theorem wrapStep_eq (wrapWidth : ℚ) (s : Wrapping) (item : WrapBoundaryCandidate) : self.wrapStep wrapWidth s item =
      if item = .char '\n' then ({ s with index := s.index + item.lenUtf8 }, none)
      else if self.Overflows wrapWidth s item then
        (self.nextLine s item, some ⟨(self.nextLine s item).lastWrapIx, (self.nextLine s item).indent.getD 0⟩)
      else ({ self.lay s item with prevC := item.newPrevC s.prevC }, none) := by
  unfold wrapStep nextLine Overflows lay
  simp only [visit_eq]
  rfl

theorem wrapStep_cases (wrapWidth : ℚ) (s : Wrapping) (item : WrapBoundaryCandidate) :
    (item = .char '\n' ∧ self.wrapStep wrapWidth s item = ({ s with index := s.index + item.lenUtf8 }, none)) ∨
    (item ≠ .char '\n' ∧ ¬ self.Overflows wrapWidth s item ∧
      self.wrapStep wrapWidth s item = ({ self.lay s item with prevC := item.newPrevC s.prevC }, none)) ∨
    (item ≠ .char '\n' ∧ self.Overflows wrapWidth s item ∧
      self.wrapStep wrapWidth s item = (self.nextLine s item,
        some ⟨(self.nextLine s item).lastWrapIx, (self.nextLine s item).indent.getD 0⟩)) := by
  rw [wrapStep_eq]
  by_cases newline : item = .char '\n'
  · exact .inl ⟨newline, if_pos newline⟩
  · rw [if_neg newline]
    by_cases overflows : self.Overflows wrapWidth s item
    · exact .inr (.inr ⟨newline, overflows, if_pos overflows⟩)
    · exact .inr (.inl ⟨newline, overflows, if_neg overflows⟩)

theorem setIndent_eq (s : Wrapping) : s.setIndent = { s with indent := s.setIndent.indent } := by
  unfold Wrapping.setIndent
  split <;> rfl

theorem addIndent_eq (s : Wrapping) :
    self.addIndent s = { s with width := s.width + self.indentWidth (s.indent.getD 0) } := by
  unfold addIndent
  split
  next indent isIndent => rw [isIndent, Option.getD_some, indentWidth]
  next isNone =>
    have nothing : self.indentWidth (s.indent.getD 0) = 0 := by simp [isNone, indentWidth]
    rw [nothing, add_zero]

theorem nextLine_eq (s : Wrapping) (item : WrapBoundaryCandidate) : self.nextLine s item =
      let laid := self.lay s item
      let indent := laid.setIndent.indent
      if 0 < laid.lastCandidateIx then
        { laid with
          lastWrapIx := laid.lastCandidateIx
          width := laid.width - laid.lastCandidateWidth + self.indentWidth (indent.getD 0)
          lastCandidateIx := 0
          indent := indent }
      else
        { laid with
          lastWrapIx := s.index
          width := self.itemWidth item + self.indentWidth (indent.getD 0)
          indent := indent } := by
  unfold nextLine
  rw [addIndent_eq, setIndent_eq, Wrapping.breakLine]
  dsimp only
  split <;> rfl

/-! ## What the state keeps -/

/-- The state after some items: the widths are those of the current line and of its part in front of
the candidate, with the indent. -/
structure Tracks (wrapper : LineWrapper) (passed : List WrapBoundaryCandidate) (s : Wrapping) : Prop where
  index : s.index = byteExtent passed
  wrap : s.lastWrapIx = 0 ∨ ∃ item ∈ laidOut passed, item.1 = s.lastWrapIx
  first : ∀ ix, s.firstNonWhitespaceIx = some ix → ∃ item ∈ laidOut passed, item.1 = ix
  candidate : 0 < s.lastCandidateIx → s.lastWrapIx < s.lastCandidateIx ∧
    ∃ item ∈ laidOut passed, item.1 = s.lastCandidateIx
  width : s.width = wrapper.lineWidth passed s.lastWrapIx (s.index + 1) + wrapper.indentWidth (s.indent.getD 0)
  candidateWidth : 0 < s.lastCandidateIx → s.lastCandidateWidth =
    wrapper.lineWidth passed s.lastWrapIx s.lastCandidateIx + wrapper.indentWidth (s.indent.getD 0)
  candidateFirst : 0 < s.lastCandidateIx → s.firstNonWhitespaceIx.isSome

theorem Tracks.start : self.Tracks [] .start where
  index := rfl
  wrap := .inl rfl
  first := nofun
  candidate := nofun
  width := by simp [lineWidth, weightBetween, between, laidOut, placedFrom, indentWidth, Wrapping.start]
  candidateWidth := nofun
  candidateFirst := nofun

theorem Tracks.withPrevC {s : Wrapping} (tracks : self.Tracks passed s) (prevC : Char) :
    self.Tracks passed { s with prevC := prevC } :=
  ⟨tracks.index, tracks.wrap, tracks.first, tracks.candidate, tracks.width, tracks.candidateWidth,
    tracks.candidateFirst⟩

theorem Tracks.lastWrap_le {s : Wrapping} (tracks : self.Tracks passed s) : s.lastWrapIx ≤ s.index := by
  rcases tracks.wrap with none | ⟨item, member, starts⟩
  · omega
  · have := laidOut_ends item member
    have := tracks.index
    omega

theorem Tracks.lastCandidate_le {s : Wrapping} (tracks : self.Tracks passed s) : s.lastCandidateIx ≤ s.index := by
  rcases Nat.eq_zero_or_pos s.lastCandidateIx with none | has
  · omega
  · obtain ⟨item, member, starts⟩ := (tracks.candidate has).2
    have := laidOut_ends item member
    have := tracks.index
    omega

theorem Tracks.lastWrap_lt {s : Wrapping} (tracks : self.Tracks passed s) (clear : Clear passed) :
    s.lastWrapIx = 0 ∨ s.lastWrapIx < s.index := by
  rcases tracks.wrap with none | ⟨item, member, starts⟩
  · exact .inl none
  · right
    rw [← starts, tracks.index]
    exact clear item member

theorem Tracks.newline {s : Wrapping} (tracks : self.Tracks passed s) : self.Tracks (passed ++ [.char '\n'])
      { s with index := s.index + (WrapBoundaryCandidate.char '\n').lenUtf8 } where
  index := by simp [extent_append, tracks.index, extent]
  wrap := by simpa only [laidOut_append_newline] using tracks.wrap
  first := by simpa only [laidOut_append_newline] using tracks.first
  candidate := by simpa only [laidOut_append_newline] using tracks.candidate
  width := by
    dsimp only
    rw [tracks.width, lineWidth_eq_of_lineItems_eq lineItems_newline]
    congr 1
    apply lineWidth_eq_of_lineItems_eq
    rw [tracks.index]
    exact (lineItems_extend (by omega)).symm
  candidateWidth := by
    intro has
    rw [lineWidth_eq_of_lineItems_eq lineItems_newline]
    exact tracks.candidateWidth has
  candidateFirst := tracks.candidateFirst

theorem isCandidate_first {s : Wrapping} (candidate : s.isCandidate item = true) : s.firstNonWhitespaceIx.isSome := by
  unfold Wrapping.isCandidate at candidate
  grind

theorem Tracks.lastWrap_lt_of_isCandidate {s : Wrapping} (tracks : self.Tracks passed s)
    (clear : Clear passed) (candidate : s.isCandidate item = true) : s.lastWrapIx < s.index := by
  obtain ⟨ix, isFirst⟩ := Option.isSome_iff_exists.mp (isCandidate_first candidate)
  obtain ⟨first, member, -⟩ := tracks.first ix isFirst
  have := clear first member
  have := tracks.index
  rcases tracks.lastWrap_lt clear with none | less
  · omega
  · exact less

theorem Tracks.lay {s : Wrapping} (tracks : self.Tracks passed s) (clear : s.isCandidate item = true → Clear passed)
    (visible : item ≠ .char '\n') : self.Tracks (passed ++ [item]) (self.lay s item) := by
  have index := tracks.index
  have kept {last : Nat} (within : last ≤ s.index) :
      self.lineWidth (passed ++ [item]) s.lastWrapIx last = self.lineWidth passed s.lastWrapIx last :=
    lineWidth_eq_of_lineItems_eq (lineItems_append (index ▸ within))
  have here : (s.index, item) ∈ laidOut (passed ++ [item]) := by
    rw [laidOut_append_item visible, index]
    exact List.mem_append_right _ List.mem_cons_self
  have earlier {ix : Nat} (placed : ∃ other ∈ laidOut passed, other.1 = ix) :
      ∃ other ∈ laidOut (passed ++ [item]), other.1 = ix := by
    obtain ⟨other, member, starts⟩ := placed
    rw [laidOut_append_item visible]
    exact ⟨other, List.mem_append_left _ member, starts⟩
  refine ⟨?_, ?_, ?_, ?_, ?_, ?_, ?_⟩ <;> simp only [LineWrapper.lay, visit_eq]
  · simp [extent_append, index, extent]
  · exact tracks.wrap.imp_right earlier
  · intro ix isFirst
    split at isFirst
    · cases isFirst
      exact ⟨_, here, rfl⟩
    · exact earlier (tracks.first ix isFirst)
  · intro has
    split
    next candidate => exact ⟨tracks.lastWrap_lt_of_isCandidate (clear candidate) candidate, _, here, rfl⟩
    next notCandidate =>
      rw [if_neg notCandidate] at has
      exact (tracks.candidate has).imp_right earlier
  · have le := tracks.lastWrap_le
    have line : lineItems passed s.lastWrapIx (s.index + item.lenUtf8 + 1) =
        lineItems passed s.lastWrapIx (s.index + 1) := by
      rw [index]
      exact lineItems_extend (by omega)
    rw [tracks.width, lineWidth_item visible (by omega) (by omega), lineWidth_eq_of_lineItems_eq line]
    ring
  · intro has
    split
    next candidate =>
      rw [tracks.width, kept le_rfl, index]
      rw [lineWidth_end (clear candidate)]
    next notCandidate =>
      rw [if_neg notCandidate] at has
      rw [tracks.candidateWidth has, kept tracks.lastCandidate_le]
  · intro has
    have first : s.firstNonWhitespaceIx.isSome := by
      by_cases candidate : s.isCandidate item = true
      · exact isCandidate_first candidate
      · rw [if_neg candidate] at has
        exact tracks.candidateFirst has
    split
    · rfl
    · exact first

/-- No line is broken between two items at one offset: where something without bytes stands right in
front of the item, the item is no candidate, and if it overflows the line there is one. -/
def Apart (self : LineWrapper) (wrapWidth : ℚ) (passed : List WrapBoundaryCandidate) (s : Wrapping)
    (item : WrapBoundaryCandidate) : Prop :=
  Clear passed ∨ s.isCandidate item = false ∧ (wrapWidth < s.width + self.itemWidth item → 0 < s.lastCandidateIx)

instance (wrapWidth : ℚ) (passed : List WrapBoundaryCandidate) (s : Wrapping) (item : WrapBoundaryCandidate) :
    Decidable (self.Apart wrapWidth passed s item) := inferInstanceAs (Decidable (_ ∨ _ ∧ (_ → _)))

theorem Apart.clear {wrapWidth : ℚ} {s : Wrapping} (apart : self.Apart wrapWidth passed s item)
    (candidate : s.isCandidate item = true) : Clear passed := by
  rcases apart with clear | ⟨notCandidate, -⟩
  · exact clear
  · exact absurd candidate (notCandidate ▸ Bool.false_ne_true)

theorem Apart.clear_of_fresh {wrapWidth : ℚ} {s : Wrapping} (apart : self.Apart wrapWidth passed s item)
    (exceeds : wrapWidth < s.width + self.itemWidth item)
    (fresh : ¬ (0 < s.lastCandidateIx ∧ s.isCandidate item = false)) : Clear passed := by
  rcases apart with clear | ⟨notCandidate, earlier⟩
  · exact clear
  · exact absurd ⟨earlier exceeds, notCandidate⟩ fresh

theorem lay_lastCandidate {s : Wrapping} (carried : 0 < s.lastCandidateIx ∧ s.isCandidate item = false) :
    0 < (self.lay s item).lastCandidateIx := by
  simpa [LineWrapper.lay, visit_eq, carried.2] using carried.1

theorem Tracks.nextLine {s : Wrapping} (tracks : self.Tracks passed s) {wrapWidth : ℚ}
    (apart : self.Apart wrapWidth passed s item) (visible : item ≠ .char '\n')
    (overflows : self.Overflows wrapWidth s item) : self.Tracks (passed ++ [item]) (self.nextLine s item) := by
  have laid := tracks.lay apart.clear visible
  have reaches : (self.lay s item).index = s.index + item.lenUtf8 := rfl
  rw [nextLine_eq]
  dsimp only
  split
  next has =>
    have inside := laid.candidate has
    exact {
      index := laid.index
      wrap := .inr inside.2
      first := laid.first
      candidate := nofun
      width := by
        dsimp only
        rw [laid.width, laid.candidateWidth has,
          lineWidth_add inside.1.le (laid.lastCandidate_le.trans (Nat.le_succ _))]
        ring
      candidateWidth := nofun
      candidateFirst := nofun }
  next none =>
    have clear : Clear passed := apart.clear_of_fresh overflows.1 (mt lay_lastCandidate none)
    exact {
      index := laid.index
      wrap := .inr ⟨(byteExtent passed, item), by simp [laidOut_append_item visible], tracks.index.symm⟩
      first := laid.first
      candidate := fun has => absurd has none
      width := by
        dsimp only
        rw [reaches, tracks.index, lineWidth_item visible le_rfl (by omega),
          lineWidth_of_lineItems_nil clear.lineItems_of_le, zero_add]
      candidateWidth := fun has => absurd has none
      candidateFirst := fun has => absurd has none }

theorem Tracks.step {s : Wrapping} (tracks : self.Tracks passed s) {wrapWidth : ℚ}
    (apart : item ≠ .char '\n' → self.Apart wrapWidth passed s item) :
    self.Tracks (passed ++ [item]) (self.wrapStep wrapWidth s item).1 := by
  rcases self.wrapStep_cases wrapWidth s item with
    ⟨rfl, step⟩ | ⟨visible, -, step⟩ | ⟨visible, overflows, step⟩
  all_goals rw [step]
  · exact tracks.newline
  · exact (tracks.lay (apart visible).clear visible).withPrevC _
  · exact tracks.nextLine (apart visible) visible overflows

end LineWrapper

end Pinrail.TextSystem

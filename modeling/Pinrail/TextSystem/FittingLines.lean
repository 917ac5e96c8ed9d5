import Mathlib.Tactic.Linarith
import Pinrail.TextSystem.WrappedLines

/-!
# Lines within the wrap width

Each item is checked when it is laid out, so a line overflows only with its first item or with the
part that is carried over from the line before.
-/

namespace Pinrail.TextSystem
open Lib

/-! ## Lines that fit -/

abbrev wrapCandidates (fragments : List LineFragment) : List WrapBoundaryCandidate :=
  fragments.flatMap (·.wrapBoundaryCandidates)

def Bytes (fragments : List LineFragment) : Prop := ∀ width, LineFragment.element width 0 ∉ fragments

theorem Bytes.allPositive {fragments : List LineFragment} (bytes : Bytes fragments) :
    AllPositive (wrapCandidates fragments) := by
  intro item member
  obtain ⟨fragment, isFragment, isItem⟩ := List.mem_flatMap.mp member
  cases fragment with
  | text characters =>
    obtain ⟨c, -, rfl⟩ := List.mem_map.mp isItem
    exact c.utf8Size_pos
  | element width lenUtf8 =>
    obtain rfl := List.mem_singleton.mp isItem
    apply Nat.pos_of_ne_zero
    rintro rfl
    exact bytes width isFragment

namespace LineWrapper

/-- The line between two boundaries does not exceed the wrap width, unless it is one item. -/
def LineFits (self : LineWrapper) (wrapWidth : ℚ) (items : List WrapBoundaryCandidate)
    (opening closing : Boundary) : Prop :=
  2 ≤ (lineItems items opening.ix closing.ix).length →
    self.lineWidth items opening.ix closing.ix + self.indentWidth opening.nextIndent ≤ wrapWidth

/-- The lines between the boundaries and the ends. An item without bytes may start at the very end, so the last
line reaches past it. -/
def LinesFit (self : LineWrapper) (fragments : List LineFragment) (wrapWidth : ℚ) : Prop :=
  let items := wrapCandidates fragments
  (⟨0, 0⟩ :: (self.wrapLine fragments wrapWidth ++ [⟨byteExtent items + 1, 0⟩])).IsChain (self.LineFits wrapWidth items)

/-- If an item overflows the line behind an earlier candidate, it does so by no more than the width in front of the
candidate, less the indent of the next line. -/
def MakesRoom (self : LineWrapper) (wrapWidth : ℚ) (s : Wrapping) (item : WrapBoundaryCandidate) : Prop :=
  wrapWidth < s.width + self.itemWidth item → 0 < s.lastCandidateIx → s.isCandidate item = false →
    s.width + self.itemWidth item - wrapWidth ≤ s.lastCandidateWidth - self.indentWidth (s.setIndent.indent.getD 0)

instance (self : LineWrapper) (wrapWidth : ℚ) (s : Wrapping) (item : WrapBoundaryCandidate) :
    Decidable (self.MakesRoom wrapWidth s item) := inferInstanceAs (Decidable (_ → _ → _ → _ ≤ _))

def MovesWhole (self : LineWrapper) (fragments : List LineFragment) (wrapWidth : ℚ) : Prop :=
  Along (self.wrapStep wrapWidth)
    (fun passed s item => item ≠ .char '\n' → self.Apart wrapWidth passed s item ∧ self.MakesRoom wrapWidth s item)
    [] .start (wrapCandidates fragments)

instance (self : LineWrapper) (fragments : List LineFragment) (wrapWidth : ℚ) :
    Decidable (self.MovesWhole fragments wrapWidth) :=
  inferInstanceAs (Decidable (Along ..))

theorem wrapLine_eq (self : LineWrapper) (fragments : List LineFragment) (wrapWidth : ℚ) :
    self.wrapLine fragments wrapWidth = emitted (self.wrapStep wrapWidth) .start (wrapCandidates fragments) := rfl

variable {self : LineWrapper} {wrapWidth : ℚ} {items passed rest : List WrapBoundaryCandidate}
  {item : WrapBoundaryCandidate}

structure Fits (wrapWidth : ℚ) (passed : List WrapBoundaryCandidate) (s : Wrapping) : Prop where
  line : 2 ≤ (lineItems passed s.lastWrapIx (s.index + 1)).length → s.width ≤ wrapWidth
  candidate : 0 < s.lastCandidateIx →
    2 ≤ (lineItems passed s.lastWrapIx s.lastCandidateIx).length → s.lastCandidateWidth ≤ wrapWidth

theorem Fits.start : Fits wrapWidth [] .start where
  line := by simp [lineItems, laidOut, placedFrom, between]
  candidate := nofun

theorem Fits.newline {s : Wrapping} (fits : Fits wrapWidth passed s) (tracks : self.Tracks passed s)
    (bytes : Nat) : Fits wrapWidth (passed ++ [.char '\n']) { s with index := s.index + bytes } where
  line := by
    intro several
    apply fits.line
    rw [lineItems_newline] at several
    dsimp only at several
    rw [tracks.index] at several ⊢
    rwa [lineItems_extend (by omega)] at several
  candidate := by
    intro has several
    rw [lineItems_newline] at several
    exact fits.candidate has several

theorem Fits.layCandidate {s : Wrapping} (fits : Fits wrapWidth passed s) (tracks : self.Tracks passed s)
    (clear : s.isCandidate item = true → Clear passed) (has : 0 < (self.lay s item).lastCandidateIx)
    (several : 2 ≤ (lineItems (passed ++ [item]) s.lastWrapIx (self.lay s item).lastCandidateIx).length) :
    (self.lay s item).lastCandidateWidth ≤ wrapWidth := by
  simp only [LineWrapper.lay, visit_eq] at has several ⊢
  split at several
  next candidate =>
    rw [if_pos candidate]
    apply fits.line
    rwa [lineItems_append tracks.index.le, tracks.index, ← (clear candidate).lineItems_end, ← tracks.index] at several
  next notCandidate =>
    rw [if_neg notCandidate] at has ⊢
    rw [lineItems_append (tracks.index ▸ tracks.lastCandidate_le)] at several
    exact fits.candidate has several

theorem lineItems_single (clear : Clear passed) (visible : item ≠ .char '\n') {last : Nat}
    (ends : byteExtent passed < last) :
    lineItems (passed ++ [item]) (byteExtent passed) last = [(byteExtent passed, item)] := by
  rw [lineItems_item visible le_rfl ends, clear.lineItems_of_le, List.nil_append]

theorem Fits.lay {s : Wrapping} (fits : Fits wrapWidth passed s) (tracks : self.Tracks passed s)
    (apart : self.Apart wrapWidth passed s item) (visible : item ≠ .char '\n')
    (stays : ¬ self.Overflows wrapWidth s item) :
    Fits wrapWidth (passed ++ [item]) { self.lay s item with prevC := item.newPrevC s.prevC } := by
  constructor
  · intro several
    change s.width + self.itemWidth item ≤ wrapWidth
    by_contra exceeds
    have atStart : ¬ s.lastWrapIx < s.index := fun ahead => stays ⟨not_le.mp exceeds, ahead⟩
    have clear : Clear passed := apart.clear_of_fresh (not_le.mp exceeds) fun carried =>
      atStart ((tracks.candidate carried.1).1.trans_le tracks.lastCandidate_le)
    have first : s.lastWrapIx = byteExtent passed := by
      have := tracks.lastWrap_le
      have := tracks.index
      omega
    change 2 ≤ (lineItems (passed ++ [item]) (self.lay s item).lastWrapIx
      (s.index + item.lenUtf8 + 1)).length at several
    rw [lay_lastWrapIx, first, lineItems_single clear visible (by have := tracks.index; omega)] at several
    exact absurd several (by simp)
  · intro has several
    dsimp only at several
    rw [lay_lastWrapIx] at several
    exact fits.layCandidate tracks apart.clear has several

theorem lay_setIndent {s : Wrapping} (first : s.firstNonWhitespaceIx.isSome) :
    (self.lay s item).setIndent.indent = s.setIndent.indent := by
  obtain ⟨ix, isFirst⟩ := Option.isSome_iff_exists.mp first
  have same : (self.lay s item).firstNonWhitespaceIx = some ix := by
    simp [LineWrapper.lay, visit_eq, isFirst]
  unfold Wrapping.setIndent
  rw [same, isFirst, lay_indent, lay_lastWrapIx]
  cases indent : s.indent with
  | none => rfl
  | some width => simp only [lay_indent, indent]

theorem nextLine_carried {s : Wrapping} (tracks : self.Tracks passed s) (earlier : 0 < s.lastCandidateIx)
    (notCandidate : s.isCandidate item = false) :
    (self.nextLine s item).lastWrapIx = s.lastCandidateIx ∧
    (self.nextLine s item).width = s.width - s.lastCandidateWidth + self.itemWidth item +
      self.indentWidth (s.setIndent.indent.getD 0) := by
  have same : (self.lay s item).lastCandidateIx = s.lastCandidateIx := by
    simp [LineWrapper.lay, visit_eq, notCandidate]
  have sameWidth : (self.lay s item).lastCandidateWidth = s.lastCandidateWidth := by
    simp [LineWrapper.lay, visit_eq, notCandidate]
  rw [nextLine_eq]
  dsimp only
  rw [same, if_pos earlier, sameWidth, lay_setIndent (tracks.candidateFirst earlier)]
  refine ⟨rfl, ?_⟩
  rw [LineWrapper.lay]
  ring

theorem nextLine_candidate (s : Wrapping) (item : WrapBoundaryCandidate) :
    (self.nextLine s item).lastCandidateIx = 0 := by
  rw [nextLine_eq]
  dsimp only
  split
  next => rfl
  next none => exact Nat.eq_zero_of_not_pos none

theorem nextLine_index (s : Wrapping) (item : WrapBoundaryCandidate) :
    (self.nextLine s item).index = s.index + item.lenUtf8 := by
  rw [nextLine_eq]
  dsimp only
  split <;> rfl

theorem nextLine_fresh {s : Wrapping} (nothing : ¬ (0 < s.lastCandidateIx ∧ s.isCandidate item = false)) :
    (self.nextLine s item).lastWrapIx = s.index := by
  rw [nextLine_eq]
  dsimp only
  split
  next has =>
    simp only [LineWrapper.lay, visit_eq] at has ⊢
    split at has
    next candidate => rw [if_pos candidate]
    next notCandidate => exact absurd ⟨has, by simpa using notCandidate⟩ nothing
  next => rfl

theorem Fits.nextLine {s : Wrapping} (tracks : self.Tracks passed s) (apart : self.Apart wrapWidth passed s item)
    (room : self.MakesRoom wrapWidth s item) (visible : item ≠ .char '\n')
    (overflows : self.Overflows wrapWidth s item) : Fits wrapWidth (passed ++ [item]) (self.nextLine s item) := by
  refine ⟨fun several => ?_, fun has => absurd (nextLine_candidate s item) has.ne'⟩
  by_cases carried : 0 < s.lastCandidateIx ∧ s.isCandidate item = false
  · obtain ⟨earlier, notCandidate⟩ := carried
    rw [(nextLine_carried tracks earlier notCandidate).2]
    linarith [room overflows.1 earlier notCandidate]
  · have clear : Clear passed := apart.clear_of_fresh overflows.1 carried
    rw [nextLine_fresh carried, nextLine_index, tracks.index, lineItems_single clear visible (by omega)] at several
    exact absurd several (by simp)

/-! ## The lines of a run -/

structure OnLine (self : LineWrapper) (passed : List WrapBoundaryCandidate) (opening : Boundary)
    (s : Wrapping) : Prop where
  tracks : self.Tracks passed s
  opening : opening = ⟨s.lastWrapIx, s.indent.getD 0⟩

theorem Fits.closed {s : Wrapping} (fits : Fits wrapWidth passed s) (tracks : self.Tracks passed s)
    (apart : self.Apart wrapWidth passed s item) (visible : item ≠ .char '\n')
    (overflows : self.Overflows wrapWidth s item) (indent : Nat) :
    self.LineFits wrapWidth (passed ++ [item] ++ rest) ⟨s.lastWrapIx, s.indent.getD 0⟩
      ⟨(self.nextLine s item).lastWrapIx, indent⟩ := by
  have laid := tracks.lay apart.clear visible
  have next := tracks.nextLine apart visible overflows
  intro several
  have within : (self.nextLine s item).lastWrapIx ≤ byteExtent (passed ++ [item]) :=
    next.index ▸ next.lastWrap_le
  have seen : lineItems (passed ++ [item] ++ rest) s.lastWrapIx (self.nextLine s item).lastWrapIx =
      lineItems (passed ++ [item]) s.lastWrapIx (self.nextLine s item).lastWrapIx :=
    lineItems_append within
  rw [seen] at several
  rw [lineWidth_eq_of_lineItems_eq seen]
  rw [nextLine_eq] at several ⊢
  dsimp only at several ⊢
  split at several
  next has =>
    have width := laid.candidateWidth has
    rw [lay_lastWrapIx, lay_indent] at width
    rw [if_pos has]
    dsimp only
    rw [← width]
    exact fits.layCandidate tracks apart.clear has several
  next none =>
    have clear : Clear passed := apart.clear_of_fresh overflows.1 (mt lay_lastCandidate none)
    have before : lineItems (passed ++ [item]) s.lastWrapIx s.index = lineItems passed s.lastWrapIx (s.index + 1) := by
      rw [lineItems_append tracks.index.le, tracks.index, clear.lineItems_end]
    rw [before] at several
    rw [if_neg none]
    dsimp only
    rw [lineWidth_eq_of_lineItems_eq before, ← tracks.width]
    exact fits.line several

theorem movesWhole_linesFit {fragments : List LineFragment} (moves : self.MovesWhole fragments wrapWidth) :
    self.LinesFit fragments wrapWidth := by
  unfold LinesFit MovesWhole at *
  simp only [wrapLine_eq]
  generalize wrapCandidates fragments = whole at moves ⊢
  have keeps : KeepsChain (self.wrapStep wrapWidth) (fun passed s item => item ≠ .char '\n' →
        self.Apart wrapWidth passed s item ∧ self.MakesRoom wrapWidth s item)
      whole (self.LineFits wrapWidth whole)
      fun passed opening s => self.OnLine passed opening s ∧ Fits wrapWidth passed s := by
    rintro passed item rest _ s rfl ⟨⟨tracks, rfl⟩, fits⟩ moves
    have stepped := tracks.step fun visible => (moves visible).1
    rcases self.wrapStep_cases wrapWidth s item with
      ⟨rfl, step⟩ | ⟨visible, stays, step⟩ | ⟨visible, overflows, step⟩
    all_goals rw [step] at stepped ⊢
    · exact .inl ⟨rfl, ⟨stepped, rfl⟩, fits.newline tracks _⟩
    · have opening : (⟨s.lastWrapIx, s.indent.getD 0⟩ : Boundary) =
          ⟨(self.lay s item).lastWrapIx, (self.lay s item).indent.getD 0⟩ := by
        rw [lay_lastWrapIx, lay_indent]
      exact .inl ⟨rfl, ⟨stepped, opening⟩, fits.lay tracks (moves visible).1 visible stays⟩
    · obtain ⟨apart, room⟩ := moves visible
      refine .inr ⟨_, rfl, ?_, ⟨stepped, rfl⟩, .nextLine tracks apart room visible overflows⟩
      rw [List.append_cons]
      exact fits.closed tracks apart visible overflows _
  have ends : ∀ opening s, self.OnLine whole opening s ∧ Fits wrapWidth whole s →
      self.LineFits wrapWidth whole opening ⟨byteExtent whole + 1, 0⟩ := by
    rintro _ s ⟨⟨tracks, rfl⟩, fits⟩ several
    dsimp only at several ⊢
    rw [← tracks.index] at several ⊢
    rw [← tracks.width]
    exact fits.line several
  exact emitted_isChain_closed keeps ends [] ⟨0, 0⟩ .start whole rfl ⟨⟨.start, rfl⟩, .start⟩ moves

/-! ## A carry that does not fit -/

theorem boundaries_ge {whole : List WrapBoundaryCandidate} (positive : AllPositive whole) {s : Wrapping}
    (tracks : self.Tracks passed s) (split : whole = passed ++ rest) (none : s.lastCandidateIx = 0) :
    ∀ boundary ∈ emitted (self.wrapStep wrapWidth) s rest, s.index ≤ boundary.ix := by
  have keeps : KeepsEach (self.wrapStep wrapWidth) (fun _ _ _ => True) whole (s.index ≤ ·.ix)
      fun passed t => self.Tracks passed t ∧ s.index ≤ t.index ∧
        (0 < t.lastCandidateIx → s.index ≤ t.lastCandidateIx) := by
    rintro passed item rest t rfl ⟨tracks, behind, candidateBehind⟩ -
    have front : AllPositive passed := positive.front
    have stepped : self.Tracks (passed ++ [item]) (self.wrapStep wrapWidth t item).1 :=
      tracks.step fun _ => .inl front.clear
    have laidBehind : 0 < (self.lay t item).lastCandidateIx → s.index ≤ (self.lay t item).lastCandidateIx := by
      simp only [LineWrapper.lay, visit_eq]
      split
      · exact fun _ => behind
      · exact candidateBehind
    rcases self.wrapStep_cases wrapWidth t item with
      ⟨rfl, step⟩ | ⟨visible, -, step⟩ | ⟨visible, overflows, step⟩
    all_goals rw [step] at stepped ⊢
    · exact ⟨by simp, stepped, by dsimp only; omega, candidateBehind⟩
    · exact ⟨by simp, stepped, by dsimp only [LineWrapper.lay]; omega, laidBehind⟩
    · refine ⟨?_, stepped, by rw [nextLine_index]; omega, fun has => ?_⟩
      · rintro _ ⟨⟩
        rw [nextLine_eq]
        dsimp only
        split
        next has => exact laidBehind has
        next => exact behind
      · exact absurd (nextLine_candidate t item) has.ne'
  exact emitted_forall keeps passed s rest split ⟨tracks, le_rfl, fun has => absurd none has.ne'⟩
    (Along.of_forall (fun _ _ _ => trivial) ..)

theorem closing_ge {whole : List WrapBoundaryCandidate} (positive : AllPositive whole) {s : Wrapping}
    (tracks : self.Tracks passed s) (split : whole = passed ++ rest) (none : s.lastCandidateIx = 0)
    {related : Boundary → Boundary → Prop} {opening : Boundary}
    (chain : (opening :: (emitted (self.wrapStep wrapWidth) s rest ++ [⟨byteExtent whole + 1, 0⟩])).IsChain related) :
    ∃ closing, related opening closing ∧ s.index ≤ closing.ix := by
  have behind : ∀ boundary ∈ emitted (self.wrapStep wrapWidth) s rest, s.index ≤ boundary.ix :=
    boundaries_ge positive tracks split none
  cases later : emitted (self.wrapStep wrapWidth) s rest with
  | nil =>
    rw [later] at chain
    refine ⟨_, (List.isChain_cons_cons.mp chain).1, ?_⟩
    rw [tracks.index, split]
    exact (byteExtent_le_append passed rest).trans (Nat.le_succ _)
  | cons closing boundaries =>
    rw [later] at chain behind
    exact ⟨closing, (List.isChain_cons_cons.mp chain).1, behind closing List.mem_cons_self⟩

theorem lineWidth_nonneg {whole : List WrapBoundaryCandidate} (nonneg : ∀ item ∈ whole, 0 ≤ self.itemWidth item)
    (first last : Nat) : 0 ≤ self.lineWidth whole first last := by
  apply List.sum_nonneg
  intro width member
  obtain ⟨item, inLine, rfl⟩ := List.mem_map.mp member
  have placed := (List.mem_filter.mp (mem_between.mp inLine).1).1
  exact nonneg _ (placedFrom_snd_mem placed)

theorem LineFits.makesRoom {s : Wrapping} (tracks : self.Tracks passed s)
    (positive : AllPositive (passed ++ item :: rest))
    (nonneg : ∀ other ∈ passed ++ item :: rest, 0 ≤ self.itemWidth other) (visible : item ≠ .char '\n')
    (overflows : self.Overflows wrapWidth s item) (closing : Boundary)
    (behind : s.index + item.lenUtf8 ≤ closing.ix)
    (fits : self.LineFits wrapWidth (passed ++ item :: rest)
      ⟨(self.nextLine s item).lastWrapIx, (self.nextLine s item).indent.getD 0⟩ closing) :
    self.MakesRoom wrapWidth s item := by
  intro _ earlier notCandidate
  have front : AllPositive (passed ++ [item]) := by
    intro other member
    exact positive other (by simpa [or_assoc] using Or.inl (List.mem_append.mp member))
  have clear : Clear passed := positive.front.clear
  have bytes : 0 < item.lenUtf8 := positive item (by simp)
  have next := tracks.nextLine (.inl clear) visible overflows
  obtain ⟨carriedAt, carriedWidth⟩ := nextLine_carried tracks earlier notCandidate
  have index := tracks.index
  have le := tracks.lastCandidate_le
  have reaches : (self.nextLine s item).index = s.index + item.lenUtf8 := nextLine_index s item
  have seen : lineItems (passed ++ item :: rest) s.lastCandidateIx (s.index + item.lenUtf8) =
      lineItems (passed ++ [item]) s.lastCandidateIx (s.index + item.lenUtf8) := by
    rw [List.append_cons, lineItems_append (by rw [← next.index, reaches])]
  have several : 2 ≤ (lineItems (passed ++ item :: rest) s.lastCandidateIx closing.ix).length := by
    have carried : (lineItems (passed ++ item :: rest) s.lastCandidateIx (s.index + item.lenUtf8)).Sublist
        (lineItems (passed ++ item :: rest) s.lastCandidateIx closing.ix) := between_sublist behind
    obtain ⟨candidate, placed, starts⟩ := (tracks.candidate earlier).2
    have within := clear candidate placed
    have one : 0 < (lineItems passed s.lastCandidateIx (s.index + item.lenUtf8)).length :=
      List.length_pos_of_mem (mem_between.mpr ⟨placed, starts.ge, by omega⟩)
    have longer := carried.length_le
    rw [seen, lineItems_item visible (by omega) (by omega), List.length_append, List.length_singleton] at longer
    omega
  have line := fits (by rwa [carriedAt])
  have width := next.width
  rw [next.index, lineWidth_end front.clear, ← next.index, reaches, carriedAt] at width
  rw [carriedAt] at line
  dsimp only at line
  rw [lineWidth_add (by omega) behind, lineWidth_eq_of_lineItems_eq seen] at line
  have more : 0 ≤ self.lineWidth (passed ++ item :: rest) (s.index + item.lenUtf8) closing.ix :=
    lineWidth_nonneg nonneg _ _
  linarith

theorem linesFit_movesWhole {fragments : List LineFragment} (bytes : Bytes fragments)
    (nonneg : ∀ item ∈ wrapCandidates fragments, 0 ≤ self.itemWidth item)
    (fit : self.LinesFit fragments wrapWidth) : self.MovesWhole fragments wrapWidth := by
  have positive := bytes.allPositive
  unfold LinesFit MovesWhole at *
  simp only [wrapLine_eq] at fit
  generalize wrapCandidates fragments = whole at positive nonneg fit ⊢
  have run : ∀ passed s rest, whole = passed ++ rest → self.Tracks passed s →
      (⟨s.lastWrapIx, s.indent.getD 0⟩ :: (emitted (self.wrapStep wrapWidth) s rest ++
        [⟨byteExtent whole + 1, 0⟩])).IsChain (self.LineFits wrapWidth whole) →
      Along (self.wrapStep wrapWidth) (fun passed s item => item ≠ .char '\n' →
        self.Apart wrapWidth passed s item ∧ self.MakesRoom wrapWidth s item) passed s rest := by
    intro passed s rest split tracks chain
    induction rest generalizing passed s with
    | nil => trivial
    | cons item rest ih =>
      have front : AllPositive passed := (split ▸ positive).front
      have stepped : self.Tracks (passed ++ [item]) (self.wrapStep wrapWidth s item).1 :=
        tracks.step fun _ => .inl front.clear
      have splitNext : whole = (passed ++ [item]) ++ rest := by simpa using split
      rcases self.wrapStep_cases wrapWidth s item with
        ⟨newline, step⟩ | ⟨-, stays, step⟩ | ⟨visible, overflows, step⟩
      · unfold emitted at chain
        rw [step] at stepped chain
        refine ⟨fun visible => absurd newline visible, ?_⟩
        rw [step]
        exact ih _ _ splitNext stepped chain
      · unfold emitted at chain
        rw [step] at stepped chain
        have room : self.MakesRoom wrapWidth s item := fun exceeds earlier _ =>
          absurd ⟨exceeds, (tracks.candidate earlier).1.trans_le tracks.lastCandidate_le⟩ stays
        refine ⟨fun _ => ⟨.inl front.clear, room⟩, ?_⟩
        rw [step]
        refine ih _ _ splitNext stepped ?_
        have opening : (⟨s.lastWrapIx, s.indent.getD 0⟩ : Boundary) =
            ⟨(self.lay s item).lastWrapIx, (self.lay s item).indent.getD 0⟩ := by
          rw [lay_lastWrapIx, lay_indent]
        rw [opening] at chain
        exact chain
      · unfold emitted at chain
        rw [step] at stepped chain
        have later := (List.isChain_cons_cons.mp chain).2
        obtain ⟨closing, fits, behind⟩ := closing_ge positive stepped splitNext (nextLine_candidate s item) later
        rw [nextLine_index] at behind
        rw [split] at positive nonneg fits
        refine ⟨fun _ => ⟨.inl front.clear, fits.makesRoom tracks positive nonneg visible overflows closing behind⟩, ?_⟩
        rw [step]
        exact ih _ _ splitNext stepped later
  exact run [] .start whole rfl .start fit

/-! ## The lines of a text -/

def proportional : LineWrapper := ⟨fun c => if c = 'W' then 20 else 3⟩

end LineWrapper

end Pinrail.TextSystem

import Mathlib.Data.List.Basic
import Mathlib.Data.List.TakeDrop
import Pinrail.TextSystem.LineLayout

/-!
# The wrap boundaries of a shaped line

`compute_wrap_boundaries` picks some of the places of the line's glyphs, in their order; with
`max_lines` it stops in front of the first boundary that would begin a line too many.
-/

namespace Pinrail.TextSystem
open Lib

variable {P : Type} [Pixels P]

/-! ## Places -/

/-- `a < b`, as `isAfter` decides it. -/
def WrapBoundary.Before (a b : WrapBoundary) : Prop := b.isAfter a

theorem WrapBoundary.before_iff (a b : WrapBoundary) :
    a.Before b ↔ a.runIx < b.runIx ∨ (a.runIx = b.runIx ∧ a.glyphIx < b.glyphIx) := by
  simp [Before, isAfter]

omit [Pixels P] in
theorem LineLayout.placedGlyphs_ordered (self : LineLayout P) :
    (self.placedGlyphs.map Prod.fst).Pairwise WrapBoundary.Before := by
  simp only [placedGlyphs, List.map_flatten, List.map_map]
  rw [List.pairwise_flatten]
  constructor
  · intro places member
    obtain ⟨⟨run, runIx⟩, -, rfl⟩ := List.mem_map.mp member
    rw [List.pairwise_iff_getElem]
    intro i j inI inJ before
    simpa [WrapBoundary.before_iff] using before
  · rw [List.pairwise_iff_getElem]
    intro i j inI inJ before first isFirst second isSecond
    simp only [List.getElem_map, List.getElem_zipIdx, Function.comp_apply, List.mem_map] at isFirst isSecond
    obtain ⟨_, ⟨_, -, rfl⟩, rfl⟩ := isFirst
    obtain ⟨_, ⟨_, -, rfl⟩, rfl⟩ := isSecond
    rw [WrapBoundary.before_iff]
    left
    simpa using before

/-! ## One glyph -/

omit [Pixels P] in
theorem WrapState.visit_boundaries (state : WrapState P) (boundary : WrapBoundary) (ch : Char)
    (x : P) : (state.visit boundary ch x).boundaries = state.boundaries := by
  simp only [visit, apply_ite WrapState.boundaries, ite_self]

omit [Pixels P] in
theorem WrapState.visit_candidate (state : WrapState P) (boundary : WrapBoundary) (ch : Char) (x : P) :
    (state.visit boundary ch x).lastCandidateIx = state.lastCandidateIx ∨
    (state.visit boundary ch x).lastCandidateIx = some boundary := by
  simp only [visit, apply_ite WrapState.lastCandidateIx, ite_self]
  exact ite_eq_or_eq .. |>.symm

theorem wrapLoop_cons {text : Text} {width wrapWidth : P} {maxLines : Option Nat}
    {boundary : WrapBoundary} {glyph : ShapedGlyph P}
    {rest : List (WrapBoundary × ShapedGlyph P)} {state : WrapState P} {bounds : List WrapBoundary}
    (ran : wrapLoop text width wrapWidth maxLines ((boundary, glyph) :: rest) state = .ok bounds) :
    wrapLoop text width wrapWidth maxLines rest state = .ok bounds ∨
    bounds = state.boundaries ∨
    (∃ ch, wrapLoop text width wrapWidth maxLines rest
      { (state.visit boundary ch glyph.position.x).wrap boundary glyph.position.x with
        prevCh := ch } = .ok bounds) ∨
    ∃ ch, wrapLoop text width wrapWidth maxLines rest
      { state.visit boundary ch glyph.position.x with prevCh := ch } = .ok bounds := by
  rw [wrapLoop] at ran
  obtain ⟨ch, -, ran⟩ := bind_eq_ok.mp ran
  split at ran
  · exact .inl ran
  obtain ⟨nextX, -, ran⟩ := bind_eq_ok.mp ran
  split at ran
  · split at ran
    · cases ran
      exact .inr (.inl (state.visit_boundaries ..))
    · exact .inr (.inr (.inl ⟨ch, ran⟩))
  · exact .inr (.inr (.inr ⟨ch, ran⟩))

/-! ## Boundaries are places, in order -/

def WrapState.Among (state : WrapState P) (passed : List WrapBoundary) : Prop :=
  (state.boundaries ++ state.lastCandidateIx.toList).Sublist passed

omit [Pixels P] in
theorem WrapState.Among.boundaries {state : WrapState P} {passed : List WrapBoundary}
    (among : state.Among passed) : state.boundaries.Sublist passed :=
  (List.sublist_append_left ..).trans among

omit [Pixels P] in
theorem WrapState.Among.visit {state : WrapState P} {passed : List WrapBoundary} (among : state.Among passed)
    (boundary : WrapBoundary) (ch : Char) (x : P) : (state.visit boundary ch x).Among (passed ++ [boundary]) := by
  unfold Among
  rw [visit_boundaries]
  rcases state.visit_candidate boundary ch x with same | renewed
  · rw [same]
    exact among.trans (List.sublist_append_left ..)
  · rw [renewed]
    exact among.boundaries.append (.refl _)

omit [Pixels P] in
theorem WrapState.Among.wrap {state : WrapState P} {passed : List WrapBoundary}
    {boundary : WrapBoundary} (among : state.Among (passed ++ [boundary])) (x : P)
    (fallback : state.lastCandidateIx = none → state.boundaries.Sublist passed) :
    (state.wrap boundary x).Among (passed ++ [boundary]) := by
  unfold Among WrapState.wrap
  cases candidate : state.lastCandidateIx with
  | some place => simpa [Among, candidate] using among
  | none =>
    simp only [Option.toList_none, List.append_nil]
    exact (fallback candidate).append (.refl _)

theorem wrapLoop_sublist (text : Text) (width wrapWidth : P) (maxLines : Option Nat)
    (glyphs : List (WrapBoundary × ShapedGlyph P)) (state : WrapState P)
    (passed : List WrapBoundary) (bounds : List WrapBoundary) (among : state.Among passed)
    (ran : wrapLoop text width wrapWidth maxLines glyphs state = .ok bounds) :
    bounds.Sublist (passed ++ glyphs.map Prod.fst) := by
  induction glyphs generalizing state passed with
  | nil =>
    cases ran
    simpa using among.boundaries
  | cons glyph rest ih =>
    obtain ⟨boundary, glyph⟩ := glyph
    have next : passed ++ (boundary :: rest.map Prod.fst) = (passed ++ [boundary]) ++ rest.map Prod.fst := by simp
    rw [List.map_cons, next]
    rcases wrapLoop_cons ran with ran | rfl | ⟨ch, ran⟩ | ⟨ch, ran⟩
    · exact ih state _ (among.trans (List.sublist_append_left ..)) ran
    · exact (among.boundaries.trans (List.sublist_append_left ..)).trans (List.sublist_append_left ..)
    · refine ih _ (passed ++ [boundary]) ?_ ran
      exact (among.visit boundary ch glyph.position.x).wrap glyph.position.x
        fun _ => by rw [WrapState.visit_boundaries]; exact among.boundaries
    · refine ih _ (passed ++ [boundary]) ?_ ran
      exact among.visit boundary ch glyph.position.x

/-! ## A limit cuts the boundaries off -/

theorem wrapLoop_extends (text : Text) (width wrapWidth : P) (maxLines : Option Nat)
    (glyphs : List (WrapBoundary × ShapedGlyph P)) (state : WrapState P) (bounds : List WrapBoundary)
    (ran : wrapLoop text width wrapWidth maxLines glyphs state = .ok bounds) : state.boundaries <+: bounds := by
  induction glyphs generalizing state with
  | nil =>
    cases ran
    exact List.prefix_refl _
  | cons glyph rest ih =>
    obtain ⟨boundary, glyph⟩ := glyph
    rcases wrapLoop_cons ran with ran | rfl | ⟨ch, ran⟩ | ⟨ch, ran⟩
    · exact ih state ran
    · exact List.prefix_refl _
    · have kept := ih _ ran
      refine List.IsPrefix.trans ?_ kept
      unfold WrapState.wrap
      split <;> simp [WrapState.visit_boundaries]
    · simpa [WrapState.visit_boundaries] using ih _ ran

theorem wrapLoop_take (text : Text) (width wrapWidth : P) (maxLines : Nat)
    (glyphs : List (WrapBoundary × ShapedGlyph P)) (state : WrapState P)
    (bounds : List WrapBoundary) (room : state.boundaries.length ≤ maxLines - 1)
    (ran : wrapLoop text width wrapWidth none glyphs state = .ok bounds) :
    wrapLoop text width wrapWidth (some maxLines) glyphs state = .ok (bounds.take (maxLines - 1)) := by
  induction glyphs generalizing state with
  | nil =>
    cases ran
    rw [wrapLoop, List.take_of_length_le room]
  | cons glyph rest ih =>
    obtain ⟨boundary, glyph⟩ := glyph
    have kept := wrapLoop_extends _ _ _ _ _ _ _ ran
    rw [wrapLoop] at ran ⊢
    obtain ⟨ch, isCh, ran⟩ := bind_eq_ok.mp ran
    rw [isCh]
    simp only [bind, Except.bind]
    split at ran
    next isNewline => simpa [isNewline] using ih state room ran
    next notNewline =>
      obtain ⟨nextX, isNext, ran⟩ := bind_eq_ok.mp ran
      rw [if_neg notNewline, isNext]
      simp only
      split at ran
      next overflows =>
        rw [if_pos overflows]
        simp only [Option.any_none, Option.any_some, Bool.false_eq_true, if_false,
          WrapState.visit_boundaries, decide_eq_true_eq] at ran ⊢
        split
        next full =>
          have exact : state.boundaries.length = maxLines - 1 := Nat.le_antisymm room full
          rw [← exact, List.prefix_iff_eq_take.mp kept]
          simp [pure, Except.pure]
        next spare =>
          refine ih _ ?_ ran
          unfold WrapState.wrap
          split <;> simp [WrapState.visit_boundaries] <;> omega
      next fits =>
        rw [if_neg fits]
        exact ih _ (by simpa [WrapState.visit_boundaries] using room) ran

/-! ## Without panics -/

def LineLayout.Legible (self : LineLayout P) (text : Text) : Prop :=
  ∀ run ∈ self.runs, ∀ glyph ∈ run.glyphs, ∃ ch, charAt text glyph.index = .ok ch

theorem wrapLoop_isOk (text : Text) (width wrapWidth : P) (maxLines : Option Nat)
    (glyphs : List (WrapBoundary × ShapedGlyph P)) (state : WrapState P)
    (legible : ∀ placed ∈ glyphs, ∃ ch, charAt text placed.2.index = .ok ch) :
    ∃ bounds, wrapLoop text width wrapWidth maxLines glyphs state = .ok bounds := by
  induction glyphs generalizing state with
  | nil => exact ⟨_, rfl⟩
  | cons glyph rest ih =>
    obtain ⟨boundary, glyph⟩ := glyph
    obtain ⟨ch, isCh⟩ := legible _ List.mem_cons_self
    have continued := fun state => ih state fun placed member =>
      legible placed (List.mem_cons_of_mem _ member)
    have peeked : ∃ nextX, peekX text width rest = .ok nextX := by
      cases rest with
      | nil => exact ⟨_, rfl⟩
      | cons next rest =>
        obtain ⟨_, isNext⟩ := legible next (by simp)
        exact ⟨next.2.position.x, by simp [peekX, isNext, bind, Except.bind, pure, Except.pure]⟩
    obtain ⟨nextX, isNext⟩ := peeked
    rw [wrapLoop, isCh]
    simp only [bind, Except.bind, isNext]
    split
    · exact continued _
    · split
      · split
        · exact ⟨_, rfl⟩
        · exact continued _
      · exact continued _

omit [Pixels P] in
theorem LineLayout.Legible.placedGlyphs {self : LineLayout P} {text : Text} (legible : self.Legible text) :
    ∀ placed ∈ self.placedGlyphs, ∃ ch, charAt text placed.2.index = .ok ch := by
  intro placed member
  simp only [LineLayout.placedGlyphs, List.mem_flatten, List.mem_map] at member
  obtain ⟨_, ⟨⟨run, runIx⟩, isRun, rfl⟩, isPlaced⟩ := member
  obtain ⟨⟨glyph, glyphIx⟩, isGlyph, rfl⟩ := List.mem_map.mp isPlaced
  have inRuns := List.fst_mem_of_mem_zipIdx isRun
  have inRun := List.fst_mem_of_mem_zipIdx isGlyph
  exact legible run inRuns glyph inRun

/-! ## The boundaries of a line -/

theorem LineLayout.computeWrapBoundaries_sublist (self : LineLayout P) (text : Text) (wrapWidth : P)
    (maxLines : Option Nat) (bounds : List WrapBoundary)
    (ran : self.computeWrapBoundaries text wrapWidth maxLines = .ok bounds) :
    bounds.Sublist (self.placedGlyphs.map Prod.fst) := by
  simpa using wrapLoop_sublist _ _ _ _ _ _ [] _ (by simp [WrapState.Among]) ran

/-- The boundaries of a line are places of its glyphs, strictly increasing. A line with glyphs of
its text has them, and `max_lines` keeps the first `max_lines - 1` of them. -/
theorem LineLayout.computeWrapBoundaries_limited (self : LineLayout P) (text : Text) (wrapWidth : P) :
    (∀ maxLines bounds, self.computeWrapBoundaries text wrapWidth maxLines = .ok bounds →
      bounds.Pairwise WrapBoundary.Before ∧ bounds.Sublist (self.placedGlyphs.map Prod.fst)) ∧
    (∀ bounds, self.computeWrapBoundaries text wrapWidth none = .ok bounds →
      ∀ maxLines, self.computeWrapBoundaries text wrapWidth (some maxLines) = .ok (bounds.take (maxLines - 1))) ∧
    (self.Legible text → ∃ bounds, self.computeWrapBoundaries text wrapWidth none = .ok bounds) := by
  refine ⟨?_, ?_, ?_⟩
  · intro maxLines bounds ran
    have places := self.computeWrapBoundaries_sublist text wrapWidth maxLines bounds ran
    exact ⟨self.placedGlyphs_ordered.sublist places, places⟩
  · intro bounds ran maxLines
    exact wrapLoop_take _ _ _ _ _ _ _ (Nat.zero_le _) ran
  · intro legible
    exact wrapLoop_isOk _ _ _ _ _ _ legible.placedGlyphs

attribute [local instance] wholePixels

def twoWords : LineLayout Int :=
  ⟨10, 50, 8, 2, [⟨0, (List.range 5).map fun i => ⟨i, ⟨10 * i, 0⟩, i, false⟩⟩], 5⟩

theorem LineLayout.computeWrapBoundaries_limited_twoWords :
    twoWords.computeWrapBoundaries ['a', 'b', ' ', 'c', 'd'] 35 none = .ok [⟨0, 3⟩] ∧
    twoWords.computeWrapBoundaries ['a', 'b', ' ', 'c', 'd'] 35 (some 1) = .ok [] ∧
    ∃ bounds, twoWords.computeWrapBoundaries ['a', 'b', ' ', 'c', 'd'] 15 none = .ok bounds := by
  obtain ⟨-, limited, -⟩ := twoWords.computeWrapBoundaries_limited ['a', 'b', ' ', 'c', 'd'] 35
  have unlimited : twoWords.computeWrapBoundaries ['a', 'b', ' ', 'c', 'd'] 35 none = .ok [⟨0, 3⟩] := rfl
  refine ⟨unlimited, limited _ unlimited 1, ?_⟩
  apply (twoWords.computeWrapBoundaries_limited ['a', 'b', ' ', 'c', 'd'] 15).2.2
  intro run isRun glyph isGlyph
  obtain rfl := List.mem_singleton.mp isRun
  obtain ⟨i, inside, rfl⟩ := List.mem_map.mp isGlyph
  simp only [List.mem_range] at inside
  obtain rfl | rfl | rfl | rfl | rfl : i = 0 ∨ i = 1 ∨ i = 2 ∨ i = 3 ∨ i = 4 := by omega
  all_goals exact ⟨_, rfl⟩

end Pinrail.TextSystem

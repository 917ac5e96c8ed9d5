import Mathlib.Algebra.Order.Floor.Semiring
import Pinrail.TextSystem.Carets
import Pinrail.TextSystem.WrapBoundaries

/-!
# Carets of a wrapped line

`position_for_index` finds the wrapped line of a caret by the byte indices of the boundaries,
`_index_for_position` finds it by dividing by the line height. Where a caret lies inside of its
wrapped line, and the roundings give its line and its place back, the two are inverse.
-/

namespace Pinrail.TextSystem
open Lib

/-! ## The code -/

namespace WrappedLineLayout

def len (self : WrappedLineLayout ℚ) : Nat := self.unwrappedLayout.len

def boundaryGlyph (self : WrappedLineLayout ℚ) (boundary : WrapBoundary) :
    Except Panic (ShapedGlyph ℚ) := do
  let run ← index self.unwrappedLayout.runs boundary.runIx
  index run.glyphs boundary.glyphIx

def wrappedLineStart (self : WrappedLineLayout ℚ) (wrappedLineIx : Nat) :
    Except Panic (Option (Nat × ℚ)) :=
  if 0 < wrappedLineIx then
    match self.wrapBoundaries[wrappedLineIx - 1]? with
    | none => .ok none
    | some lineStartBoundary => do
      let glyph ← self.boundaryGlyph lineStartBoundary
      return some (glyph.index, glyph.position.x)
  else .ok (some (0, 0))

def wrappedLineEnd (self : WrappedLineLayout ℚ) (wrappedLineIx : Nat) : Except Panic (Nat × ℚ) :=
  match self.wrapBoundaries[wrappedLineIx]? with
  | some nextWrapBoundary => do
    let glyph ← self.boundaryGlyph nextWrapBoundary
    return (glyph.index, glyph.position.x)
  | none => .ok (self.unwrappedLayout.len, self.unwrappedLayout.width)

/-- `_index_for_position`: a position outside of its wrapped line gives an end of the line as the
error. -/
def indexForPosition (self : WrappedLineLayout ℚ) (round : ℚ → ℚ) (position : Point ℚ) (lineHeight : ℚ)
    (closest : Bool) : Except Panic (Except Nat Nat) := do
  let wrappedLineIx := ⌊round (position.y / lineHeight)⌋₊
  let some (wrappedLineStartIndex, wrappedLineStartX) ← self.wrappedLineStart wrappedLineIx
    | return .error 0
  let (wrappedLineEndIndex, wrappedLineEndX) ← self.wrappedLineEnd wrappedLineIx
  let x := round (position.x + wrappedLineStartX)
  if x < wrappedLineStartX then
    return .error wrappedLineStartIndex
  else if wrappedLineEndX ≤ x then
    return .error wrappedLineEndIndex
  else if closest then
    return .ok (self.unwrappedLayout.closestIndexForX round x)
  else
    match self.unwrappedLayout.indexForX x with
    | some index => return .ok index
    | none => return .error wrappedLineEndIndex

/-- The loop of `position_for_index` over the ends of the wrapped lines, the last one at the end of
the text. -/
def positionLoop (self : WrappedLineLayout ℚ) (round : ℚ → ℚ) (index : Nat) (lineHeight : ℚ) :
    List (Option WrapBoundary) → Nat → Nat → Except Panic (Option (Point ℚ))
  | [], _, _ => .ok none
  | boundary :: rest, ix, lineStartIx => do
    let lineEndIx ← match boundary with
      | some boundary => (·.index) <$> self.boundaryGlyph boundary
      | none => .ok self.len
    if index < lineStartIx then
      return none
    else if lineEndIx < index then
      positionLoop self round index lineHeight rest (ix + 1) lineEndIx
    else
      let lineStartX := self.unwrappedLayout.xForIndex lineStartIx
      return some ⟨round (self.unwrappedLayout.xForIndex index - lineStartX), round (round ix * lineHeight)⟩

def positionForIndex (self : WrappedLineLayout ℚ) (round : ℚ → ℚ) (index : Nat) (lineHeight : ℚ) :
    Except Panic (Option (Point ℚ)) :=
  self.positionLoop round index lineHeight (self.wrapBoundaries.map some ++ [none]) 0 0

/-! ## Boundaries -/

def Starts (self : WrappedLineLayout ℚ) (starts : List (ShapedGlyph ℚ)) : Prop :=
  ∃ places : List (WrapBoundary × ShapedGlyph ℚ), places.Sublist self.unwrappedLayout.placedGlyphs ∧
    places.map Prod.fst = self.wrapBoundaries ∧ places.map Prod.snd = starts

theorem placedGlyphs_glyphs (self : LineLayout ℚ) : self.placedGlyphs.map Prod.snd = self.glyphs := by
  unfold LineLayout.placedGlyphs LineLayout.glyphs
  rw [List.map_flatten, List.map_map]
  have runs : self.runs = self.runs.zipIdx.map Prod.fst := (List.zipIdx_map_fst 0 self.runs).symm
  conv_rhs => rw [runs, List.map_map]
  congr 2
  funext ⟨run, runIx⟩
  rw [Function.comp_apply, List.map_map]
  exact List.zipIdx_map_fst 0 run.glyphs

variable {self : WrappedLineLayout ℚ}

theorem boundaryGlyph_placed {boundary : WrapBoundary} {glyph : ShapedGlyph ℚ}
    (placed : (boundary, glyph) ∈ self.unwrappedLayout.placedGlyphs) : self.boundaryGlyph boundary = .ok glyph := by
  unfold LineLayout.placedGlyphs at placed
  obtain ⟨_, isRun, isGlyph⟩ := List.mem_flatten.mp placed
  obtain ⟨⟨run, runIx⟩, inRuns, rfl⟩ := List.mem_map.mp isRun
  obtain ⟨⟨glyph, glyphIx⟩, inGlyphs, same⟩ := List.mem_map.mp isGlyph
  cases same
  unfold boundaryGlyph
  rw [index_of_getElem? (List.mk_mem_zipIdx_iff_getElem?.mp inRuns), ok_bind,
    index_of_getElem? (List.mk_mem_zipIdx_iff_getElem?.mp inGlyphs)]

theorem starts_of_sublist (places : self.wrapBoundaries.Sublist (self.unwrappedLayout.placedGlyphs.map Prod.fst)) :
    ∃ starts, self.Starts starts := by
  obtain ⟨placed, isSublist, isMap⟩ := List.sublist_map_iff.mp places
  exact ⟨_, placed, isSublist, isMap.symm, rfl⟩

theorem Starts.sublist {starts : List (ShapedGlyph ℚ)} (isStarts : self.Starts starts) :
    starts.Sublist self.unwrappedLayout.glyphs := by
  obtain ⟨places, isSublist, -, rfl⟩ := isStarts
  rw [← placedGlyphs_glyphs]
  exact isSublist.map _

theorem Starts.read {starts : List (ShapedGlyph ℚ)} (isStarts : self.Starts starts) :
    List.Forall₂ (fun boundary glyph => self.boundaryGlyph boundary = .ok glyph) self.wrapBoundaries starts := by
  obtain ⟨places, isSublist, isBoundaries, rfl⟩ := isStarts
  rw [← isBoundaries, List.forall₂_map_left_iff, List.forall₂_map_right_iff, List.forall₂_same]
  intro placed member
  exact boundaryGlyph_placed (isSublist.subset member)

theorem Starts.read_getElem? {starts : List (ShapedGlyph ℚ)} (isStarts : self.Starts starts) (ix : Nat) :
    match starts[ix]? with
    | some glyph => ∃ boundary, self.wrapBoundaries[ix]? = some boundary ∧ self.boundaryGlyph boundary = .ok glyph
    | none => self.wrapBoundaries[ix]? = none := by
  have read := isStarts.read
  have lengths := read.length_eq
  cases found : starts[ix]? with
  | none =>
    rw [List.getElem?_eq_none_iff] at found ⊢
    omega
  | some glyph =>
    obtain ⟨inStarts, isGlyph⟩ := List.getElem?_eq_some_iff.mp found
    refine ⟨self.wrapBoundaries[ix], List.getElem?_eq_getElem (by omega), ?_⟩
    rw [← isGlyph]
    exact read.get (by omega) inStarts

/-! ## The wrapped line of a caret -/

theorem positionLoop_eq (round : ℚ → ℚ) (lineHeight : ℚ) {caret : Nat} (inText : caret ≤ self.len)
    {boundaries : List WrapBoundary} {front back : List (ShapedGlyph ℚ)} (ix start : Nat)
    (read : List.Forall₂ (fun boundary glyph => self.boundaryGlyph boundary = .ok glyph) boundaries (front ++ back))
    (passed : ∀ glyph ∈ front, glyph.index < caret) (stop : ∀ glyph ∈ back, caret ≤ glyph.index)
    (after : start ≤ caret) :
    self.positionLoop round caret lineHeight (boundaries.map some ++ [none]) ix start =
      .ok (some ⟨round (self.unwrappedLayout.xForIndex caret -
          self.unwrappedLayout.xForIndex ((front.getLast?.map (·.index)).getD start)),
        round (round (ix + front.length : Nat) * lineHeight)⟩) := by
  induction front generalizing boundaries ix start with
  | nil =>
    cases back with
    | nil =>
      cases read
      simp [positionLoop, not_lt.mpr after, not_lt.mpr inText, ok_bind, pure, Except.pure]
    | cons glyph back =>
      obtain ⟨boundary, boundaries, isGlyph, -, rfl⟩ := List.forall₂_cons_right_iff.mp read
      have notPassed := stop glyph List.mem_cons_self
      simp [positionLoop, isGlyph, not_lt.mpr after, not_lt.mpr notPassed, ok_bind, pure,
        Except.pure, Functor.map, Except.map]
  | cons glyph front ih =>
    rw [List.cons_append] at read
    obtain ⟨boundary, boundaries, isGlyph, rest, rfl⟩ := List.forall₂_cons_right_iff.mp read
    rw [List.forall_mem_cons] at passed
    have continued := ih (ix + 1) glyph.index rest passed.2 passed.1.le
    rw [List.map_cons, List.cons_append, positionLoop]
    simp only [isGlyph, Functor.map, Except.map, ok_bind, if_neg (not_lt.mpr after), if_pos passed.1]
    rw [continued]
    have rows : ix + 1 + front.length = ix + (glyph :: front).length := by
      rw [List.length_cons]
      omega
    rw [rows]
    cases front with
    | nil => rfl
    | cons second front => simp [List.getLast?_cons]

/-- Glyphs in increasing places and byte indices inside of the text, and boundaries at glyphs, in order. -/
structure WellPlaced (line : WrappedLineLayout ℚ) : Prop where
  ascending : line.unwrappedLayout.Ascending
  indices : line.unwrappedLayout.glyphs.Pairwise fun a b => a.index < b.index
  within : ∀ glyph ∈ line.unwrappedLayout.glyphs, glyph.index < line.len
  boundaries : line.wrapBoundaries.Sublist (line.unwrappedLayout.placedGlyphs.map Prod.fst)

theorem WellPlaced.xForIndex_glyph (placed : self.WellPlaced) {glyph : ShapedGlyph ℚ}
    (member : glyph ∈ self.unwrappedLayout.glyphs) : self.unwrappedLayout.xForIndex glyph.index = glyph.position.x := by
  obtain ⟨front, back, split⟩ := List.append_of_mem member
  have sorted := placed.indices
  rw [split, List.pairwise_append] at sorted
  refine LineLayout.xForIndex_found (List.find?_eq_some_iff_append.mpr ⟨by simp, front, back, split, ?_⟩)
  intro other inFront
  simpa using sorted.2.2 other inFront glyph List.mem_cons_self

theorem WellPlaced.place_lt (placed : self.WellPlaced) {a b : ShapedGlyph ℚ} (inA : a ∈ self.unwrappedLayout.glyphs)
    (inB : b ∈ self.unwrappedLayout.glyphs) (less : a.index < b.index) : a.position.x < b.position.x := by
  obtain ⟨front, back, split⟩ := List.append_of_mem inB
  have sorted := placed.indices
  have ascending := placed.ascending
  rw [LineLayout.Ascending, split, List.pairwise_append] at ascending
  rw [split, List.pairwise_append, List.pairwise_cons] at sorted
  rw [split, List.mem_append, List.mem_cons] at inA
  rcases inA with inFront | rfl | inBack
  · exact ascending.2.2 a inFront b List.mem_cons_self
  · exact absurd less (lt_irrefl _)
  · exact absurd less (sorted.2.1.1 a inBack).not_gt

theorem WellPlaced.xForIndex_len (placed : self.WellPlaced) :
    self.unwrappedLayout.xForIndex self.len = self.unwrappedLayout.width := by
  have none : self.unwrappedLayout.glyphForIndex self.len = none := by
    refine List.find?_eq_none.mpr fun glyph member => ?_
    simpa using placed.within glyph member
  rw [LineLayout.xForIndex, none]

theorem WellPlaced.split (placed : self.WellPlaced) {starts : List (ShapedGlyph ℚ)} (isStarts : self.Starts starts)
    (caret : Nat) : ∃ front back, starts = front ++ back ∧ (∀ glyph ∈ front, glyph.index < caret) ∧ ∀ glyph ∈ back,
    caret ≤ glyph.index := by
  have sorted := placed.indices.sublist isStarts.sublist
  clear isStarts
  induction starts with
  | nil => exact ⟨[], [], rfl, by simp, by simp⟩
  | cons start starts ih =>
    rw [List.pairwise_cons] at sorted
    by_cases passed : start.index < caret
    · obtain ⟨front, back, rfl, below, above⟩ := ih sorted.2
      exact ⟨start :: front, back, rfl, List.forall_mem_cons.mpr ⟨passed, below⟩, above⟩
    · refine ⟨[], start :: starts, rfl, by simp, List.forall_mem_cons.mpr ⟨by omega, ?_⟩⟩
      intro glyph member
      have later := sorted.1 glyph member
      omega

theorem Starts.wrappedLineStart {front back : List (ShapedGlyph ℚ)} (isStarts : self.Starts (front ++ back)) :
    self.wrappedLineStart front.length =
      .ok (some ((front.getLast?.map fun glyph => (glyph.index, glyph.position.x)).getD (0, 0))) := by
  unfold WrappedLineLayout.wrappedLineStart
  rcases List.eq_nil_or_concat front with rfl | ⟨front, last, rfl⟩
  · rfl
  · have read := isStarts.read_getElem? front.length
    simp only [List.concat_eq_append, List.append_assoc, List.length_append, List.length_cons,
      List.length_nil, zero_add, Nat.add_sub_cancel, List.singleton_append,
      List.getElem?_append_right le_rfl, Nat.sub_self, List.getElem?_cons_zero] at read ⊢
    obtain ⟨boundary, isBoundary, isGlyph⟩ := read
    simp [isBoundary, isGlyph, ok_bind, pure, Except.pure]

theorem Starts.wrappedLineEnd {front back : List (ShapedGlyph ℚ)} (isStarts : self.Starts (front ++ back)) :
    self.wrappedLineEnd front.length = .ok ((back.head?.map fun glyph => (glyph.index, glyph.position.x)).getD
        (self.len, self.unwrappedLayout.width)) := by
  unfold WrappedLineLayout.wrappedLineEnd
  have read := isStarts.read_getElem? front.length
  rw [List.getElem?_append_right le_rfl, Nat.sub_self] at read
  cases back with
  | nil =>
    rw [List.getElem?_nil] at read
    rw [read]
    rfl
  | cons next back =>
    obtain ⟨boundary, isBoundary, isGlyph⟩ := read
    simp [isBoundary, isGlyph, ok_bind, pure, Except.pure]

/-! ## The glyph at a place -/

theorem WellPlaced.indexForX_glyph (placed : self.WellPlaced) {glyph : ShapedGlyph ℚ}
    (member : glyph ∈ self.unwrappedLayout.glyphs) (inside : glyph.position.x < self.unwrappedLayout.width) :
    self.unwrappedLayout.indexForX glyph.position.x = some glyph.index := by
  obtain ⟨front, back, split⟩ := List.append_of_mem member
  have sorted := placed.ascending
  rw [LineLayout.Ascending, split, List.pairwise_append, List.pairwise_cons] at sorted
  have found : self.unwrappedLayout.glyphs.reverse.find?
      (fun other => other.position.x ≤ glyph.position.x) = some glyph := by
    refine List.find?_eq_some_iff_append.mpr ⟨by simp, back.reverse, front.reverse, by simp [split], ?_⟩
    intro other inBack
    simpa using sorted.2.1.1 other (List.mem_reverse.mp inBack)
  rw [LineLayout.indexForX, if_neg (not_le.mpr inside), found]

theorem WellPlaced.closestIndexForX_glyph (placed : self.WellPlaced) {round : ℚ → ℚ}
    (front : ∀ glyph, self.unwrappedLayout.glyphs.head? = some glyph → glyph.index = 0)
    {glyph : ShapedGlyph ℚ} (member : glyph ∈ self.unwrappedLayout.glyphs)
    (apart : ∀ other ∈ self.unwrappedLayout.glyphs, other.position.x < glyph.position.x →
      round 0 < round (glyph.position.x - other.position.x)) :
    self.unwrappedLayout.closestIndexForX round glyph.position.x = glyph.index := by
  obtain ⟨before, back, split⟩ := List.append_of_mem member
  have sorted := placed.ascending
  rw [LineLayout.Ascending, split, List.pairwise_append] at sorted
  have left : ∀ other ∈ before, other.position.x < glyph.position.x :=
    fun other inFront => sorted.2.2 other inFront glyph List.mem_cons_self
  have scan := LineLayout.closestScan_eq round glyph.position.x before back glyph left le_rfl 0 0
  rw [LineLayout.closestIndexForX, split, scan]
  rcases List.eq_nil_or_concat before with rfl | ⟨before, last, rfl⟩
  · have isHead : self.unwrappedLayout.glyphs.head? = some glyph := by rw [split]; rfl
    simp [front glyph isHead]
  · have less := apart last (by simp [split]) (left last (by simp))
    simp [less]

/-! ## There and back -/

def RoundTrips (self : WrappedLineLayout ℚ) (round : ℚ → ℚ) (lineHeight : ℚ) (closest : Bool) (caret : Nat) : Prop :=
  ∃ position, self.positionForIndex round caret lineHeight = .ok (some position) ∧
    (self.indexForPosition round position lineHeight closest = .ok (.ok caret) ∨
      self.indexForPosition round position lineHeight closest = .ok (.error caret))

/-- The glyphs at which wrapped lines start in front of a caret. -/
def startsBefore (self : WrappedLineLayout ℚ) (caret : Nat) : List (ShapedGlyph ℚ) :=
  (self.wrapBoundaries.filterMap fun boundary => (self.boundaryGlyph boundary).toOption).filter fun glyph =>
    glyph.index < caret

/-- The rounded operations give back every wrapped line, and the place of every caret on the line. -/
structure Restores (line : WrappedLineLayout ℚ) (round : ℚ → ℚ) (lineHeight : ℚ) : Prop where
  rows : ∀ row ≤ line.wrapBoundaries.length, ⌊round (round (round row * lineHeight) / lineHeight)⌋₊ = row
  places : ∀ caret ∈ line.unwrappedLayout.carets, round (round (line.unwrappedLayout.xForIndex caret -
        line.unwrappedLayout.xForIndex (((line.startsBefore caret).getLast?.map (·.index)).getD 0)) +
      ((line.startsBefore caret).getLast?.map (·.position.x)).getD 0) = line.unwrappedLayout.xForIndex caret
  apart : ∀ glyph ∈ line.unwrappedLayout.glyphs, ∀ other ∈ line.unwrappedLayout.glyphs,
    other.position.x < glyph.position.x → round 0 < round (glyph.position.x - other.position.x)

theorem Starts.startsBefore_eq {front back : List (ShapedGlyph ℚ)} (isStarts : self.Starts (front ++ back))
    {caret : Nat} (passed : ∀ glyph ∈ front, glyph.index < caret) (stop : ∀ glyph ∈ back, caret ≤ glyph.index) :
    self.startsBefore caret = front := by
  have all : self.wrapBoundaries.filterMap (fun boundary => (self.boundaryGlyph boundary).toOption) =
      front ++ back := by
    have read := isStarts.read
    generalize self.wrapBoundaries = boundaries at read ⊢
    generalize front ++ back = starts at read ⊢
    induction read with
    | nil => rfl
    | cons isGlyph rest ih => rw [List.filterMap_cons, isGlyph, ih]; rfl
  rw [startsBefore, all, List.filter_append, List.filter_eq_self.mpr (by simpa using passed),
    List.filter_eq_nil_iff.mpr (by simpa using stop), List.append_nil]

theorem Restores.position {round : ℚ → ℚ} {lineHeight : ℚ} (restores : self.Restores round lineHeight)
    (closest : Bool) {caret : Nat} (isCaret : caret ∈ self.unwrappedLayout.carets) (inText : caret ≤ self.len)
    {front back : List (ShapedGlyph ℚ)} (isStarts : self.Starts (front ++ back))
    (passed : ∀ glyph ∈ front, glyph.index < caret) (stop : ∀ glyph ∈ back, caret ≤ glyph.index)
    {startIndex stopIndex : Nat} {startX stopX : ℚ}
    (isStart : (front.getLast?.map fun glyph => (glyph.index, glyph.position.x)).getD (0, 0) = (startIndex, startX))
    (isStop : (back.head?.map fun glyph => (glyph.index, glyph.position.x)).getD
      (self.len, self.unwrappedLayout.width) = (stopIndex, stopX)) :
    ∃ position, self.positionForIndex round caret lineHeight = .ok (some position) ∧
      self.indexForPosition round position lineHeight closest =
        let x := self.unwrappedLayout.xForIndex caret
        if x < startX then .ok (.error startIndex)
        else if stopX ≤ x then .ok (.error stopIndex)
        else if closest then .ok (.ok (self.unwrappedLayout.closestIndexForX round x))
        else
          match self.unwrappedLayout.indexForX x with
          | some index => .ok (.ok index)
          | none => .ok (.error stopIndex) := by
  refine ⟨_, positionLoop_eq round lineHeight inText 0 0 isStarts.read passed stop (Nat.zero_le _), ?_⟩
  have place := restores.places caret isCaret
  rw [isStarts.startsBefore_eq passed stop] at place
  have atStart : (front.getLast?.map (·.position.x)).getD 0 = startX := by
    cases last : front.getLast? <;> rw [last] at isStart <;> cases isStart <;> rfl
  rw [atStart] at place
  have row : ⌊round (round (round (0 + front.length : Nat) * lineHeight) / lineHeight)⌋₊ = front.length := by
    rw [Nat.zero_add]
    apply restores.rows
    rw [isStarts.read.length_eq, List.length_append]
    exact Nat.le_add_right _ _
  have startRead := isStarts.wrappedLineStart
  have stopRead := isStarts.wrappedLineEnd
  rw [isStart] at startRead
  rw [isStop] at stopRead
  unfold indexForPosition
  simp only [row, startRead, stopRead, ok_bind, place]
  rfl

def StartsLine (self : WrappedLineLayout ℚ) (glyph : ShapedGlyph ℚ) : Prop :=
  ∃ boundary ∈ self.wrapBoundaries, self.boundaryGlyph boundary = .ok glyph

theorem Starts.mem_iff {starts : List (ShapedGlyph ℚ)} (isStarts : self.Starts starts)
    {glyph : ShapedGlyph ℚ} : self.StartsLine glyph ↔ glyph ∈ starts := by
  have read := isStarts.read
  unfold StartsLine
  generalize self.wrapBoundaries = boundaries at read ⊢
  clear isStarts
  induction read with
  | nil => simp
  | cons isGlyph rest ih =>
    simp only [List.mem_cons, or_and_right, exists_or, exists_eq_left, isGlyph, Except.ok.injEq, ih]
    exact or_congr_left eq_comm

theorem exists_start {front : List (ShapedGlyph ℚ)} {x : ℚ} (nonneg : 0 ≤ x)
    (passed : ∀ start ∈ front, start.position.x ≤ x) :
    ∃ startIndex startX, (front.getLast?.map fun start => (start.index, start.position.x)).getD (0, 0) =
      (startIndex, startX) ∧ ¬x < startX := by
  cases last : front.getLast? with
  | none => exact ⟨0, 0, rfl, not_lt.mpr nonneg⟩
  | some start =>
    exact ⟨_, _, rfl, not_lt.mpr (passed start (List.mem_of_getLast? last))⟩

theorem WellPlaced.roundTrips_glyph (placed : self.WellPlaced) {round : ℚ → ℚ} {lineHeight : ℚ}
    (restores : self.Restores round lineHeight) (closest : Bool)
    (zero : closest = true → ∀ glyph, self.unwrappedLayout.glyphs.head? = some glyph → glyph.index = 0)
    {glyph : ShapedGlyph ℚ} (member : glyph ∈ self.unwrappedLayout.glyphs) (nonneg : 0 ≤ glyph.position.x)
    (inside : glyph.position.x < self.unwrappedLayout.width ∨ self.StartsLine glyph) :
    self.RoundTrips round lineHeight closest glyph.index := by
  obtain ⟨starts, isStarts⟩ := starts_of_sublist placed.boundaries
  obtain ⟨front, back, rfl, passed, stop⟩ := placed.split isStarts glyph.index
  have isCaret : glyph.index ∈ self.unwrappedLayout.carets := LineLayout.mem_carets.mpr (.inl ⟨glyph, member, rfl⟩)
  have inText := (placed.within glyph member).le
  have place := placed.xForIndex_glyph member
  obtain ⟨startIndex, startX, isStart, notBefore⟩ := exists_start nonneg fun start inFront =>
      (placed.place_lt (isStarts.sublist.subset (List.mem_append_left _ inFront)) member (passed start inFront)).le
  have notPassed (starts : self.StartsLine glyph) : glyph ∈ back := by
    rcases List.mem_append.mp (isStarts.mem_iff.mp starts) with inFront | inBack
    · exact absurd (passed glyph inFront) (lt_irrefl _)
    · exact inBack
  have found (inLine : glyph.position.x < self.unwrappedLayout.width) (stop : Nat) :
      (if closest then .ok (.ok (self.unwrappedLayout.closestIndexForX round glyph.position.x))
        else
          match self.unwrappedLayout.indexForX glyph.position.x with
          | some index => .ok (.ok index)
          | none => .ok (.error stop) : Except Panic (Except Nat Nat)) = .ok (.ok glyph.index) := by
    cases closest with
    | false => simp [placed.indexForX_glyph member inLine]
    | true => simp [placed.closestIndexForX_glyph (zero rfl) member (restores.apart glyph member)]
  cases back with
  | nil =>
    have inLine := inside.resolve_right fun starts => List.not_mem_nil (notPassed starts)
    obtain ⟨position, isPosition, isIndex⟩ := restores.position closest isCaret inText isStarts passed stop isStart rfl
    refine ⟨position, isPosition, .inl ?_⟩
    rw [isIndex, place]
    dsimp only
    rw [if_neg notBefore, if_neg (not_le.mpr inLine), found inLine]
  | cons next back =>
    have inNext : next ∈ self.unwrappedLayout.glyphs := isStarts.sublist.subset (by simp)
    obtain ⟨position, isPosition, isIndex⟩ := restores.position closest isCaret inText isStarts passed stop isStart rfl
    rw [place] at isIndex
    dsimp only at isIndex
    rw [if_neg notBefore] at isIndex
    refine ⟨position, isPosition, ?_⟩
    rcases (stop next List.mem_cons_self).eq_or_lt with same | less
    · right
      have places : next.position.x = glyph.position.x := by
        rw [← placed.xForIndex_glyph inNext, ← place, same]
      rw [isIndex, if_pos places.le, same]
    · left
      have sorted := placed.indices.sublist isStarts.sublist
      have inLine := inside.resolve_right fun starts => by
        rcases List.mem_cons.mp (notPassed starts) with rfl | later
        · exact lt_irrefl _ less
        · have behind := (List.pairwise_cons.mp (List.pairwise_append.mp sorted).2.1).1 glyph later
          omega
      rw [isIndex, if_neg (not_le.mpr (placed.place_lt member inNext less)), found inLine]

theorem WellPlaced.roundTrips_len (placed : self.WellPlaced) {round : ℚ → ℚ} {lineHeight : ℚ}
    (restores : self.Restores round lineHeight) (closest : Bool) (width : 0 ≤ self.unwrappedLayout.width)
    (inside : ∀ glyph, self.StartsLine glyph → glyph.position.x ≤ self.unwrappedLayout.width) :
    self.RoundTrips round lineHeight closest self.len := by
  obtain ⟨starts, isStarts⟩ := starts_of_sublist placed.boundaries
  have passed : ∀ glyph ∈ starts, glyph.index < self.len :=
    fun glyph member => placed.within glyph (isStarts.sublist.subset member)
  have behind : ∀ glyph ∈ starts, glyph.position.x ≤ self.unwrappedLayout.width :=
    fun glyph member => inside glyph (isStarts.mem_iff.mpr member)
  rw [← List.append_nil starts] at isStarts
  obtain ⟨startIndex, startX, isStart, notBefore⟩ := exists_start width behind
  obtain ⟨position, isPosition, isIndex⟩ :=
    restores.position closest (LineLayout.mem_carets.mpr (.inr rfl)) le_rfl isStarts passed (by simp) isStart rfl
  have atEnd : self.unwrappedLayout.xForIndex self.unwrappedLayout.len = self.unwrappedLayout.width :=
    placed.xForIndex_len
  refine ⟨position, isPosition, .inr ?_⟩
  rw [isIndex, atEnd]
  dsimp only
  rw [if_neg notBefore, if_pos le_rfl]

/-- What the code takes for granted of a line: its glyphs lie inside of it or start a wrapped line, and no wrapped
line starts behind it. -/
structure Contained (line : WrappedLineLayout ℚ) (closest : Bool) : Prop where
  width : 0 ≤ line.unwrappedLayout.width
  nonneg : ∀ glyph ∈ line.unwrappedLayout.glyphs, 0 ≤ glyph.position.x
  glyphs : ∀ glyph ∈ line.unwrappedLayout.glyphs, glyph.position.x < line.unwrappedLayout.width ∨ line.StartsLine glyph
  starts : ∀ glyph, line.StartsLine glyph → glyph.position.x ≤ line.unwrappedLayout.width
  first : closest = true → ∀ glyph, line.unwrappedLayout.glyphs.head? = some glyph → glyph.index = 0

/-- Four glyphs of width 10, the last three of which start a wrapped line each. -/
def fourLines : WrappedLineLayout ℚ where
  unwrappedLayout := ⟨10, 40, 8, 2, [⟨0, [⟨0, ⟨0, 0⟩, 0, false⟩, ⟨0, ⟨10, 0⟩, 1, false⟩, ⟨0, ⟨20, 0⟩, 2, false⟩,
    ⟨0, ⟨30, 0⟩, 3, false⟩]⟩], 4⟩
  wrapBoundaries := [⟨0, 1⟩, ⟨0, 2⟩, ⟨0, 3⟩]
  wrapWidth := some 10

theorem fourLines_wellPlaced : fourLines.WellPlaced where
  ascending := by
    norm_num [LineLayout.Ascending, LineLayout.glyphs, fourLines]
  indices := by decide
  within := by decide
  boundaries := by decide

theorem fourLines_contained : fourLines.Contained true where
  width := by decide +kernel
  nonneg := by decide +kernel
  glyphs := fun glyph member => .inl ((by decide +kernel :
    ∀ glyph ∈ fourLines.unwrappedLayout.glyphs, glyph.position.x < fourLines.unwrappedLayout.width) glyph member)
  starts := by
    rintro glyph ⟨boundary, member, isGlyph⟩
    simp only [fourLines, List.mem_cons, List.not_mem_nil, or_false] at member
    rcases member with rfl | rfl | rfl <;> cases isGlyph <;> decide +kernel
  first := fun _ => by decide

end WrappedLineLayout
end Pinrail.TextSystem

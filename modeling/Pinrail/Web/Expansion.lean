import Mathlib.Data.List.Zip
import Pinrail.TextSystem.LineLayoutCache
import Pinrail.Web.RunReplacements

/-!
# In place and naive

Both ways visit the glyphs in the same order. The segments of a run give its glyphs their fonts, and
the second pass cuts the run into one piece for each segment. While it works from the right, the runs
that it has not come to stand where the first pass left them, and every slot that it fills is empty.
-/

namespace Pinrail.RunReplacements
open Lib TextSystem

variable {P : Type}

/-! ## Segments -/

def total (segments : List Segment) : Nat := (segments.map Segment.length).sum

def fonts (segments : List Segment) : List Nat :=
  segments.flatMap fun segment => List.replicate segment.length segment.fontId

def pieces : List Segment → List (ShapedGlyph P) → List (ShapedRun P)
  | [], _ => []
  | segment :: segments, glyphs =>
    ⟨segment.fontId, glyphs.take segment.length⟩ :: pieces segments (glyphs.drop segment.length)

theorem length_fonts (segments : List Segment) : (fonts segments).length = total segments := by
  simp [fonts, total, List.length_flatMap]

@[simp] theorem total_append (front back : List Segment) :
    total (front ++ back) = total front + total back := by
  simp [total]

@[simp] theorem total_singleton (segment : Segment) : total [segment] = segment.length := by
  simp [total]

theorem fonts_append (front back : List Segment) : fonts (front ++ back) = fonts front ++ fonts back := by
  simp [fonts]

theorem pieces_append (front back : List Segment) (glyphs : List (ShapedGlyph P)) :
    pieces (front ++ back) glyphs = pieces front glyphs ++ pieces back (glyphs.drop (total front)) := by
  induction front generalizing glyphs with
  | nil => simp [pieces, total]
  | cons segment front ih =>
    rw [List.cons_append, pieces, pieces, ih, List.drop_drop, List.cons_append]
    congr 4

theorem flatten_append (front back : List (ShapedRun P)) : flatten (front ++ back) = flatten front ++ flatten back := by
  simp [flatten]

theorem map_pair_eq_zip {α β : Type} (a : α) (xs : List β) :
    xs.map (fun x => (a, x)) = (List.replicate xs.length a).zip xs := by
  induction xs with
  | nil => rfl
  | cons x xs ih => rw [List.map_cons, ih, List.length_cons, List.replicate_succ, List.zip_cons_cons]

theorem flatten_pieces (segments : List Segment) (glyphs : List (ShapedGlyph P))
    (length : total segments = glyphs.length) : flatten (pieces segments glyphs) = (fonts segments).zip glyphs := by
  induction segments generalizing glyphs with
  | nil => rfl
  | cons segment segments ih =>
    have parts : total (segment :: segments) = segment.length + total segments := by simp [total]
    rw [parts] at length
    have front : (glyphs.take segment.length).length = segment.length := by
      rw [List.length_take]
      omega
    have rest := ih (glyphs.drop segment.length) (by rw [List.length_drop]; omega)
    rw [pieces, flatten, List.flatMap_cons]
    change _ ++ flatten _ = _
    have cut : (fonts (segment :: segments)).zip glyphs =
        (List.replicate segment.length segment.fontId).zip (glyphs.take segment.length) ++
          (fonts segments).zip (glyphs.drop segment.length) := by
      conv_lhs => rw [← List.take_append_drop segment.length glyphs]
      rw [← List.zip_append (by rw [List.length_replicate, front])]
      rfl
    rw [rest, cut, List.append_cancel_right_eq]
    have named := map_pair_eq_zip segment.fontId (glyphs.take segment.length)
    rw [front] at named
    exact named

theorem pieces_nonempty (segments : List Segment) (glyphs : List (ShapedGlyph P))
    (length : total segments = glyphs.length) (positive : ∀ segment ∈ segments, 0 < segment.length) :
    ∀ run ∈ pieces segments glyphs, run.glyphs ≠ [] := by
  induction segments generalizing glyphs with
  | nil => simp [pieces]
  | cons segment segments ih =>
    have parts : total (segment :: segments) = segment.length + total segments := by simp [total]
    rw [parts] at length
    rw [List.forall_mem_cons] at positive
    rw [pieces, List.forall_mem_cons]
    refine ⟨?_, ih _ (by rw [List.length_drop]; omega) positive.2⟩
    rw [← List.length_pos_iff, List.length_take]
    omega

/-! ## The first pass -/

theorem pushSegment_cases (segments : List Segment) (fontId : Nat) :
    (∃ front last, segments = front ++ [last] ∧ last.fontId = fontId ∧
      pushSegment segments fontId = front ++ [⟨fontId, last.length + 1⟩]) ∨
    pushSegment segments fontId = segments ++ [⟨fontId, 1⟩] := by
  unfold pushSegment
  cases last : segments.getLast? with
  | none => exact .inr rfl
  | some segment =>
    obtain ⟨front, rfl⟩ := List.getLast?_eq_some_iff.mp last
    dsimp only
    split
    next same =>
      rw [List.dropLast_concat]
      exact .inl ⟨front, segment, rfl, same, rfl⟩
    · exact .inr rfl

theorem fonts_pushSegment (segments : List Segment) (fontId : Nat) :
    fonts (pushSegment segments fontId) = fonts segments ++ [fontId] := by
  rcases pushSegment_cases segments fontId with ⟨front, last, rfl, rfl, pushed⟩ | pushed
  · rw [pushed, fonts_append, fonts_append, List.append_assoc]
    simp [fonts, List.replicate_succ']
  · rw [pushed, fonts_append]
    rfl

theorem pushSegment_positive (segments : List Segment) (fontId : Nat)
    (positive : ∀ segment ∈ segments, 0 < segment.length) :
    ∀ segment ∈ pushSegment segments fontId, 0 < segment.length := by
  rcases pushSegment_cases segments fontId with ⟨front, last, rfl, -, pushed⟩ | pushed
  · rw [pushed, List.forall_mem_append]
    exact ⟨fun segment member => positive segment (List.mem_append_left _ member), by simp⟩
  · rw [pushed, List.forall_mem_append]
    exact ⟨positive, by simp⟩

section
variable [Zero P] [Add P]

def visitAll : List (Nat × ShapedGlyph P) → Pass P → List (Nat × ShapedGlyph P) × Pass P
  | [], pass => ([], pass)
  | (fontId, glyph) :: glyphs, pass =>
    let (visited, pass) := pass.visit fontId glyph
    let (rest, pass) := visitAll glyphs pass
    (visited.toList ++ rest, pass)

omit [Zero P] in
theorem visitAll_append (front back : List (Nat × ShapedGlyph P)) (pass : Pass P) : visitAll (front ++ back) pass =
      ((visitAll front pass).1 ++ (visitAll back (visitAll front pass).2).1,
        (visitAll back (visitAll front pass).2).2) := by
  induction front generalizing pass with
  | nil => rfl
  | cons item front ih => simp [visitAll, ih]

omit [Zero P] in
theorem retainGlyphs_eq (fontId : Nat) (glyphs : List (ShapedGlyph P)) (segments : List Segment) (pass : Pass P) :
    let visited := visitAll (glyphs.map fun glyph => (fontId, glyph)) pass
    let retained := retainGlyphs fontId glyphs segments pass
    retained.1 = visited.1.map Prod.snd ∧
      fonts retained.2.1 = fonts segments ++ visited.1.map Prod.fst ∧ retained.2.2 = visited.2 := by
  induction glyphs generalizing segments pass with
  | nil => simp [visitAll, retainGlyphs]
  | cons glyph glyphs ih =>
    rw [List.map_cons, visitAll, retainGlyphs]
    rcases visited : pass.visit fontId glyph with ⟨kept, next⟩
    cases kept with
    | none => simpa using ih segments next
    | some kept =>
      obtain ⟨fontId', glyph'⟩ := kept
      obtain ⟨sameGlyphs, sameFonts, samePass⟩ := ih (pushSegment segments fontId') next
      simp [sameGlyphs, sameFonts, samePass, fonts_pushSegment]

omit [Zero P] in
theorem retainGlyphs_positive (fontId : Nat) (glyphs : List (ShapedGlyph P)) (segments : List Segment) (pass : Pass P)
    (positive : ∀ segment ∈ segments, 0 < segment.length) :
    ∀ segment ∈ (retainGlyphs fontId glyphs segments pass).2.1, 0 < segment.length := by
  induction glyphs generalizing segments pass with
  | nil => exact positive
  | cons glyph glyphs ih =>
    rw [retainGlyphs]
    rcases pass.visit fontId glyph with ⟨kept, next⟩
    cases kept with
    | none => exact ih segments next positive
    | some kept => exact ih _ next (pushSegment_positive segments kept.1 positive)

structure Fits (run : ShapedRun P) (segments : List Segment) : Prop where
  total : total segments = run.glyphs.length
  nonempty : segments ≠ []
  positive : ∀ segment ∈ segments, 0 < segment.length

structure Sound (retained : Retained P) : Prop where
  fits : List.Forall₂ Fits retained.runs retained.segmentsByRun
  count : retained.finalRunCount = (retained.segmentsByRun.map List.length).sum
  spare : ∀ buffer ∈ retained.spareBuffers, buffer = []

def spread (runs : List (ShapedRun P)) (segmentsByRun : List (List Segment)) : List (ShapedRun P) :=
  (runs.zip segmentsByRun).flatMap fun (run, segments) => pieces segments run.glyphs

omit [Zero P] [Add P] in
theorem spread_append {runs runs' : List (ShapedRun P)} {segments segments' : List (List Segment)}
    (lengths : runs.length = segments.length) :
    spread (runs ++ runs') (segments ++ segments') = spread runs segments ++ spread runs' segments' := by
  simp [spread, List.zip_append lengths]

omit [Zero P] in
theorem retainRuns_eq (runs : List (ShapedRun P)) (retained : Retained P) (pass : Pass P) (sound : Sound retained) :
    let visited := visitAll (flatten runs) pass
    let result := retainRuns runs retained pass
    Sound result.1 ∧ result.2 = visited.2 ∧ flatten (spread result.1.runs result.1.segmentsByRun) =
        flatten (spread retained.runs retained.segmentsByRun) ++ visited.1 := by
  induction runs generalizing retained pass with
  | nil => simp [retainRuns, visitAll, flatten, sound]
  | cons run runs ih =>
    have split : flatten (run :: runs) = (run.glyphs.map fun glyph => (run.fontId, glyph)) ++ flatten runs := rfl
    rw [split, visitAll_append, retainRuns]
    obtain ⟨sameGlyphs, sameFonts, samePass⟩ := retainGlyphs_eq run.fontId run.glyphs [] pass
    have positive := retainGlyphs_positive run.fontId run.glyphs [] pass (by simp)
    generalize visitAll (run.glyphs.map fun glyph => (run.fontId, glyph)) pass = visited at *
    generalize retainGlyphs run.fontId run.glyphs [] pass = kept at *
    obtain ⟨glyphs, segments, next⟩ := kept
    dsimp only at sameGlyphs sameFonts samePass positive ⊢
    subst sameGlyphs samePass
    have fontsOnly : fonts segments = visited.1.map Prod.fst := by simpa [fonts] using sameFonts
    have totals : total segments = (visited.1.map Prod.snd).length := by
      rw [← length_fonts, fontsOnly, List.length_map, List.length_map]
    split
    next isEmpty =>
      have noSegments := List.isEmpty_iff.mp isEmpty
      subst noSegments
      have nothing : visited.1 = [] := by simpa [fonts] using fontsOnly.symm
      have emptied : Sound { retained with
          spareBuffers := retained.spareBuffers ++ [visited.1.map Prod.snd] } :=
        ⟨sound.fits, sound.count, by
          rw [List.forall_mem_append]
          exact ⟨sound.spare, by simp [nothing]⟩⟩
      have rest := ih _ visited.2 emptied
      simpa [nothing] using rest
    next notEmpty =>
      have fits : Fits { run with glyphs := visited.1.map Prod.snd } segments :=
        ⟨totals, by simpa using notEmpty, positive⟩
      have extended : Sound { retained with
          runs := retained.runs ++ [{ run with glyphs := visited.1.map Prod.snd }]
          segmentsByRun := retained.segmentsByRun ++ [segments]
          finalRunCount := retained.finalRunCount + segments.length } :=
        ⟨List.rel_append sound.fits (.cons fits .nil), by simp [sound.count], sound.spare⟩
      obtain ⟨soundResult, passResult, flat⟩ := ih _ visited.2 extended
      refine ⟨soundResult, passResult, ?_⟩
      rw [flat, spread_append sound.fits.length_eq, flatten_append, List.append_assoc]
      congr 2
      have single : spread [({ run with glyphs := visited.1.map Prod.snd } : ShapedRun P)] [segments] =
          pieces segments (visited.1.map Prod.snd) := by simp [spread]
      rw [single, flatten_pieces _ _ totals, fontsOnly]
      simpa [List.unzip_eq_map] using List.zip_unzip visited.1

end

/-! ## One run -/

/-- In the loop over the segments of a run: the runs before it, the glyphs of the segments to come,
slots without glyphs, and what is done. -/
structure Laid (front : List (ShapedRun P)) (glyphs : List (ShapedGlyph P)) (destinationStart : Nat)
    (segments : List Segment) (done : List (ShapedRun P)) (state : Placing P) : Prop where
  runs : ∃ fontId gap, state.runs = front ++ ⟨fontId, glyphs.take (total segments)⟩ :: (gap ++ done) ∧
    (∀ run ∈ gap, run.glyphs = []) ∧
    front.length + gap.length + 1 = destinationStart + segments.length
  glyphEnd : state.glyphEnd = total segments
  within : total segments ≤ glyphs.length
  spare : ∀ buffer ∈ state.spareBuffers, buffer = []

theorem pop_empty {buffers : List (List (ShapedGlyph P))} (empty : ∀ buffer ∈ buffers, buffer = []) :
    buffers.getLast?.getD [] = [] ∧ ∀ buffer ∈ buffers.dropLast, buffer = [] := by
  refine ⟨?_, fun buffer member => empty buffer ((List.dropLast_sublist _).subset member)⟩
  cases last : buffers.getLast? with
  | none => rfl
  | some buffer => exact empty buffer (List.mem_of_getLast? last)

theorem set_front {α : Type} (front : List α) (x y : α) (back : List α) :
    (front ++ x :: back).set front.length y = front ++ y :: back := by
  simp

theorem swap_self {α : Type} (front : List α) (x : α) (back : List α) :
    swap (front ++ x :: back) front.length front.length = .ok (front ++ x :: back) := by
  have inside : front.length < (front ++ x :: back).length := by simp
  rw [swap_of_lt inside inside]
  simp

theorem swap_apart {α : Type} (front : List α) (x : α) (gap : List α) (y : α) (back : List α) :
    swap (front ++ x :: (gap ++ y :: back)) front.length (front.length + 1 + gap.length) =
      .ok (front ++ y :: (gap ++ x :: back)) := by
  have first : index (front ++ x :: (gap ++ y :: back)) front.length = .ok x := index_append ..
  have regroup (z : α) : front ++ z :: (gap ++ y :: back) = (front ++ z :: gap) ++ y :: back := by simp
  have width (z : α) : (front ++ z :: gap).length = front.length + 1 + gap.length := by
    simp
    omega
  have second : index (front ++ x :: (gap ++ y :: back)) (front.length + 1 + gap.length) = .ok y := by
    rw [regroup, ← width x]
    exact index_append ..
  rw [swap, first, ok_bind, second, ok_bind, set_front, regroup, ← width y, set_front]
  simp [pure, Except.pure]

theorem Laid.place {front done : List (ShapedRun P)} {glyphs : List (ShapedGlyph P)}
    {destinationStart : Nat} {segments : List Segment} {segment : Segment} {state : Placing P}
    (laid : Laid front glyphs destinationStart (segments ++ [segment]) done state)
    (more : segments ≠ []) (ahead : front.length ≤ destinationStart) :
    ∃ next, placeSegment front.length destinationStart state (segment, segments.length) = .ok next ∧
      Laid front glyphs destinationStart segments
        (⟨segment.fontId, (glyphs.drop (total segments)).take segment.length⟩ :: done) next := by
  obtain ⟨⟨fontId, gap, runs, gapEmpty, slots⟩, glyphEnd, within, spare⟩ := laid
  have someMore := List.length_pos_iff.mpr more
  rw [total_append, total_singleton] at glyphEnd within runs
  rw [List.length_append, List.length_singleton] at slots
  obtain ⟨gap, slot, rfl⟩ : ∃ gap' slot, gap = gap' ++ [slot] := by
    refine ⟨gap.dropLast, gap.getLast (fun none => ?_), (List.dropLast_append_getLast _).symm⟩
    rw [none, List.length_nil] at slots
    omega
  obtain ⟨popped, dropped⟩ := pop_empty spare
  rw [List.length_append, List.length_singleton] at slots
  refine ⟨⟨front ++ ⟨fontId, glyphs.take (total segments)⟩ ::
    (gap ++ ⟨segment.fontId, (glyphs.drop (total segments)).take segment.length⟩ :: done),
    state.spareBuffers.dropLast, total segments⟩, ?_,
    ⟨⟨fontId, gap, rfl, fun run member => gapEmpty run (List.mem_append_left _ member), by omega⟩,
      rfl, by omega, dropped⟩⟩
  have read : index state.runs front.length = .ok ⟨fontId, glyphs.take (total segments + segment.length)⟩ := by
    rw [runs]
    exact index_append ..
  have start : checkedSub state.glyphEnd segment.length = .ok (total segments) := by
    rw [glyphEnd, checkedSub_of_le (Nat.le_add_left _ _), Nat.add_sub_cancel]
  have drained : sliceRange (glyphs.take (total segments + segment.length)) (total segments)
      state.glyphEnd = .ok ((glyphs.drop (total segments)).take segment.length) := by
    rw [sliceRange, if_pos ⟨by omega, by rw [List.length_take]; omega⟩, glyphEnd, List.take_take,
      Nat.min_self, List.drop_take, Nat.add_sub_cancel_left]
  have rest : (glyphs.take (total segments + segment.length)).take (total segments) ++
      (glyphs.take (total segments + segment.length)).drop state.glyphEnd = glyphs.take (total segments) := by
    rw [glyphEnd, List.take_take, Nat.min_eq_left (Nat.le_add_right _ _),
      List.drop_eq_nil_of_le (List.length_take_le _ _), List.append_nil]
  have destination : destinationStart + segments.length = front.length + 1 + gap.length := by omega
  unfold placeSegment
  simp only [read, ok_bind, start, drained, rest, popped, List.nil_append, if_neg someMore.ne', destination]
  have slotAt (run : ShapedRun P) : front ++ run :: (gap ++ [slot] ++ done) =
      (front ++ run :: gap) ++ slot :: done := by simp
  have width (run : ShapedRun P) : (front ++ run :: gap).length = front.length + 1 + gap.length := by
    simp
    omega
  rw [runs, set_front, slotAt, ← width ⟨fontId, glyphs.take (total segments)⟩, store, if_pos (by simp), set_front]
  simp [ok_bind, pure, Except.pure]

theorem Laid.place_first {front done : List (ShapedRun P)} {glyphs : List (ShapedGlyph P)}
    {destinationStart : Nat} {segment : Segment} {state : Placing P}
    (laid : Laid front glyphs destinationStart [segment] done state) :
    ∃ next gap, placeSegment front.length destinationStart state (segment, 0) = .ok next ∧
      next.runs = front ++ (gap ++ ⟨segment.fontId, glyphs.take segment.length⟩ :: done) ∧
      (∀ run ∈ gap, run.glyphs = []) ∧ front.length + gap.length = destinationStart ∧
      ∀ buffer ∈ next.spareBuffers, buffer = [] := by
  obtain ⟨⟨fontId, gap, runs, gapEmpty, slots⟩, -, -, spare⟩ := laid
  rw [total_singleton] at runs
  rw [List.length_singleton] at slots
  have read : index state.runs front.length = .ok ⟨fontId, glyphs.take segment.length⟩ := by
    rw [runs]
    exact index_append ..
  unfold placeSegment
  simp only [read, ok_bind, if_true, Nat.add_zero]
  rw [runs, set_front]
  rcases List.eq_nil_or_concat gap with rfl | ⟨gap, slot, rfl⟩
  · have here : destinationStart = front.length := by simpa using slots.symm
    refine ⟨⟨front ++ ⟨segment.fontId, glyphs.take segment.length⟩ :: done, state.spareBuffers,
      state.glyphEnd⟩, [], ?_, rfl, by simp, by simpa using slots, spare⟩
    rw [here, List.nil_append, swap_self]
    simp [ok_bind, pure, Except.pure]
  · rw [List.concat_eq_append, List.length_append, List.length_singleton] at slots
    have there : destinationStart = front.length + 1 + gap.length := by omega
    refine ⟨⟨front ++ slot :: (gap ++ ⟨segment.fontId, glyphs.take segment.length⟩ :: done),
      state.spareBuffers, state.glyphEnd⟩, slot :: gap, ?_, by simp, ?_, by simp; omega, spare⟩
    · rw [there, List.concat_eq_append, List.append_assoc, List.singleton_append, swap_apart]
      simp [ok_bind, pure, Except.pure]
    · intro run member
      refine gapEmpty run ?_
      rw [List.concat_eq_append, List.mem_append, List.mem_singleton]
      exact (List.mem_cons.mp member).symm

theorem zipIdx_reverse_concat {α : Type} (xs : List α) (x : α) :
    (xs ++ [x]).zipIdx.reverse = (x, xs.length) :: xs.zipIdx.reverse := by
  simp [List.zipIdx_append]

theorem Laid.run {front done : List (ShapedRun P)} {glyphs : List (ShapedGlyph P)}
    {destinationStart : Nat} {segments : List Segment} {state : Placing P}
    (laid : Laid front glyphs destinationStart segments done state) (nonempty : segments ≠ [])
    (ahead : front.length ≤ destinationStart) :
    ∃ next gap, segments.zipIdx.reverse.foldlM (placeSegment front.length destinationStart) state = .ok next ∧
      next.runs = front ++ (gap ++ (pieces segments glyphs ++ done)) ∧
      (∀ run ∈ gap, run.glyphs = []) ∧ front.length + gap.length = destinationStart ∧
      ∀ buffer ∈ next.spareBuffers, buffer = [] := by
  induction segments using List.reverseRecOn generalizing done state with
  | nil => exact absurd rfl nonempty
  | append_singleton segments segment ih =>
    rw [zipIdx_reverse_concat, List.foldlM_cons]
    by_cases more : segments = []
    · subst more
      obtain ⟨next, gap, placed, runs, gapEmpty, slots, spare⟩ := laid.place_first
      exact ⟨next, gap, by simp [placed, ok_bind, pure, Except.pure],
        by simpa [pieces] using runs, gapEmpty, slots, spare⟩
    · obtain ⟨next, placed, continued⟩ := laid.place more ahead
      rw [placed, ok_bind, pieces_append]
      simpa [pieces] using ih continued more

theorem Laid.before {front done : List (ShapedRun P)} {glyphs : List (ShapedGlyph P)} {destinationStart : Nat}
    {segments : List Segment} {state : Placing P} (laid : Laid front glyphs destinationStart segments done state)
    (ahead : front.length ≤ destinationStart) {before after : List (Segment × Nat)} {item : Segment × Nat}
    (split : segments.zipIdx.reverse = before ++ item :: after) : ∃ current kept done',
    before.foldlM (placeSegment front.length destinationStart) state = .ok current ∧
    Laid front glyphs destinationStart (kept ++ [item.1]) done' current ∧ kept.length = item.2 := by
  induction segments using List.reverseRecOn generalizing done state before with
  | nil => simp at split
  | append_singleton segments segment ih =>
    rw [zipIdx_reverse_concat] at split
    cases before with
    | nil =>
      obtain ⟨rfl, -⟩ := List.cons.inj split
      exact ⟨state, segments, done, rfl, laid, rfl⟩
    | cons first before =>
      obtain ⟨rfl, rest⟩ := List.cons.inj split
      have more : segments ≠ [] := by
        rintro rfl
        simp at rest
      obtain ⟨next, placed, continued⟩ := laid.place more ahead
      rw [List.foldlM_cons, placed, ok_bind]
      exact ih continued rest

/-! ## All runs -/

structure Spread (runs : List (ShapedRun P)) (segmentsByRun : List (List Segment))
    (done : List (ShapedRun P)) (state : Expanding P) : Prop where
  runs : ∃ gap, state.runs = runs ++ (gap ++ done) ∧ (∀ run ∈ gap, run.glyphs = []) ∧
    runs.length + gap.length = state.destinationEnd
  count : state.destinationEnd = (segmentsByRun.map List.length).sum
  spare : ∀ buffer ∈ state.spareBuffers, buffer = []

theorem length_le_count {runs : List (ShapedRun P)} {segmentsByRun : List (List Segment)}
    (fits : List.Forall₂ Fits runs segmentsByRun) : runs.length ≤ (segmentsByRun.map List.length).sum := by
  induction fits with
  | nil => simp
  | cons fit _ ih =>
    have some := List.length_pos_iff.mpr fit.nonempty
    simp only [List.length_cons, List.map_cons, List.sum_cons]
    omega

theorem Spread.start {runs done : List (ShapedRun P)} {run : ShapedRun P} {segmentsByRun : List (List Segment)}
    {segments : List Segment} {state : Expanding P}
    (spread : Spread (runs ++ [run]) (segmentsByRun ++ [segments]) done state) (fit : Fits run segments) : ∃ placing,
    startPlacing state (runs.length, segments) = .ok ((segmentsByRun.map List.length).sum, placing) ∧
    Laid runs run.glyphs (segmentsByRun.map List.length).sum segments done placing := by
  obtain ⟨⟨gap, isRuns, gapEmpty, slots⟩, count, spare⟩ := spread
  rw [List.map_append, List.sum_append] at count
  simp only [List.map_cons, List.map_nil, List.sum_cons, List.sum_nil, Nat.add_zero] at count
  rw [List.append_assoc, List.singleton_append] at isRuns
  rw [List.length_append, List.length_singleton] at slots
  have read : index state.runs runs.length = .ok run := by
    rw [isRuns]
    exact index_append ..
  have destination : checkedSub state.destinationEnd segments.length = .ok (segmentsByRun.map List.length).sum := by
    rw [count, checkedSub_of_le (Nat.le_add_left _ _), Nat.add_sub_cancel]
  refine ⟨⟨state.runs, state.spareBuffers, run.glyphs.length⟩, ?_, ?_⟩
  · simp [startPlacing, destination, read, ok_bind, pure, Except.pure]
  · have whole : run.glyphs.take (total segments) = run.glyphs := by rw [fit.total, List.take_length]
    exact ⟨⟨run.fontId, gap, by rw [whole, isRuns], gapEmpty, by omega⟩, fit.total.symm, fit.total.le, spare⟩

theorem Spread.expand {runs done : List (ShapedRun P)} {run : ShapedRun P} {segmentsByRun : List (List Segment)}
    {segments : List Segment} {state : Expanding P}
    (spread : Spread (runs ++ [run]) (segmentsByRun ++ [segments]) done state)
    (fits : List.Forall₂ Fits runs segmentsByRun) (fit : Fits run segments) : ∃ next,
    expandRun state (runs.length, segments) = .ok next ∧
    Spread runs segmentsByRun (pieces segments run.glyphs ++ done) next := by
  obtain ⟨placing, started, laid⟩ := spread.start fit
  obtain ⟨placed, gap, isPlaced, isRuns, gapEmpty, slots, spare⟩ := laid.run fit.nonempty (length_le_count fits)
  refine ⟨⟨placed.runs, placed.spareBuffers, (segmentsByRun.map List.length).sum⟩, ?_,
    ⟨⟨gap, isRuns, gapEmpty, slots⟩, rfl, spare⟩⟩
  rw [expandRun, started, ok_bind]
  dsimp only
  rw [isPlaced, ok_bind]
  rfl

def sourcesOf (runs : List (ShapedRun P)) (segmentsByRun : List (List Segment)) :
    List (Nat × List Segment) :=
  ((List.range runs.length).zip segmentsByRun).reverse

theorem sourcesOf_concat {runs : List (ShapedRun P)} {segmentsByRun : List (List Segment)} (run : ShapedRun P)
    (segments : List Segment) (lengths : runs.length = segmentsByRun.length) : sourcesOf (runs ++ [run])
    (segmentsByRun ++ [segments]) = (runs.length, segments) :: sourcesOf runs segmentsByRun := by
  unfold sourcesOf
  rw [List.length_append, List.length_singleton, List.range_succ, List.zip_append (by rw [List.length_range, lengths])]
  simp

theorem forall₂_concat_inv {α β : Type} {relation : α → β → Prop} {xs : List α} {x : α}
    {ys : List β} (related : List.Forall₂ relation (xs ++ [x]) ys) :
    ∃ front y, ys = front ++ [y] ∧ List.Forall₂ relation xs front ∧ relation x y := by
  have reversed := List.forall₂_reverse_iff.mpr related
  rw [List.reverse_concat] at reversed
  obtain ⟨y, front, last, fronts, same⟩ := List.forall₂_cons_left_iff.mp reversed
  refine ⟨front.reverse, y, ?_, ?_, last⟩
  · rw [← List.reverse_reverse ys, same, List.reverse_cons]
  · rwa [← List.forall₂_reverse_iff, List.reverse_reverse]

theorem Spread.run {runs done : List (ShapedRun P)} {segmentsByRun : List (List Segment)}
    {state : Expanding P} (spread : Spread runs segmentsByRun done state)
    (fits : List.Forall₂ Fits runs segmentsByRun) :
    ∃ next, (sourcesOf runs segmentsByRun).foldlM expandRun state = .ok next ∧
      next.runs = RunReplacements.spread runs segmentsByRun ++ done := by
  induction runs using List.reverseRecOn generalizing segmentsByRun done state with
  | nil =>
    cases fits
    obtain ⟨gap, isRuns, -, slots⟩ := spread.runs
    have noGap : gap = [] := by
      have none := spread.count
      rw [← slots] at none
      simpa using none
    exact ⟨state, rfl, by rw [isRuns, noGap]; rfl⟩
  | append_singleton runs run ih =>
    obtain ⟨segmentsByRun, segments, rfl, fits, fit⟩ := forall₂_concat_inv fits
    obtain ⟨next, expanded, continued⟩ := spread.expand fits fit
    rw [sourcesOf_concat run segments fits.length_eq, List.foldlM_cons, expanded, ok_bind, spread_append fits.length_eq]
    obtain ⟨final, isFinal, finalRuns⟩ := ih continued fits
    refine ⟨final, isFinal, ?_⟩
    rw [finalRuns]
    simp [RunReplacements.spread]

theorem Spread.before {runs done : List (ShapedRun P)} {segmentsByRun : List (List Segment)} {state : Expanding P}
    (spread : Spread runs segmentsByRun done state) (fits : List.Forall₂ Fits runs segmentsByRun)
    {before after : List (Nat × List Segment)} {item : Nat × List Segment}
    (split : sourcesOf runs segmentsByRun = before ++ item :: after) : ∃ current front run rest segmentsBefore done',
    before.foldlM expandRun state = .ok current ∧ runs = front ++ run :: rest ∧ front.length = item.1 ∧
    List.Forall₂ Fits front segmentsBefore ∧ Fits run item.2 ∧ Spread (front ++ [run])
    (segmentsBefore ++ [item.2]) done' current := by
  induction runs using List.reverseRecOn generalizing segmentsByRun done state before with
  | nil => simp [sourcesOf] at split
  | append_singleton runs run ih =>
    obtain ⟨segmentsByRun, segments, rfl, fits, fit⟩ := forall₂_concat_inv fits
    rw [sourcesOf_concat run segments fits.length_eq] at split
    cases before with
    | nil =>
      obtain ⟨rfl, -⟩ := List.cons.inj split
      exact ⟨state, runs, run, [], segmentsByRun, done, rfl, rfl, rfl, fits, fit, spread⟩
    | cons first before =>
      obtain ⟨rfl, rest⟩ := List.cons.inj split
      obtain ⟨next, expanded, continued⟩ := spread.expand fits fit
      obtain ⟨current, front, source, behind, segmentsBefore, done', isCurrent, isRuns, others⟩ :=
        ih continued fits rest
      refine ⟨current, front, source, behind ++ [run], segmentsBefore, done', ?_, ?_, others⟩
      · rw [List.foldlM_cons, expanded, ok_bind, isCurrent]
      · rw [isRuns]
        simp

/-- At every step from the right the runs to come and the glyphs to come of the current run stand
where the first pass left them, and the slot to be filled holds no glyphs, if it is not the current
run's own. -/
def ExpansionSafe (retained : Retained P) : Prop :=
  ∀ before item after, retained.sources = before ++ item :: after → ∃ expanding destinationStart placing,
      before.foldlM expandRun retained.startExpanding = .ok expanding ∧
      (∀ ix ≤ item.1, expanding.runs[ix]? = retained.runs[ix]?) ∧
      startPlacing expanding item = .ok (destinationStart, placing) ∧ item.1 ≤ destinationStart ∧
      ∀ before' segment after', item.2.zipIdx.reverse = before' ++ segment :: after' →
        ∃ current, before'.foldlM (placeSegment item.1 destinationStart) placing = .ok current ∧
          (∀ ix < item.1, current.runs[ix]? = retained.runs[ix]?) ∧
          (∃ run source, retained.runs[item.1]? = some run ∧ current.runs[item.1]? = some source ∧
            source.glyphs = run.glyphs.take current.glyphEnd) ∧
          (segment.2 = 0 ∧ destinationStart = item.1 ∨
            ∃ slot, current.runs[destinationStart + segment.2]? = some slot ∧ slot.glyphs = [])

theorem Sound.startExpanding {retained : Retained P} (sound : Sound retained) :
    Spread retained.runs retained.segmentsByRun [] retained.startExpanding := by
  have room := length_le_count sound.fits
  rw [← sound.count] at room
  refine ⟨⟨List.replicate (retained.finalRunCount - retained.runs.length) ⟨0, []⟩, ?_, ?_, ?_⟩,
    sound.count, sound.spare⟩
  · rw [Retained.startExpanding, resizeRuns, List.take_of_length_le room, List.append_nil]
  · intro run member
    rw [List.eq_of_mem_replicate member]
  · rw [List.length_replicate]
    exact Nat.add_sub_cancel' room

theorem Sound.expansionSafe {retained : Retained P} (sound : Sound retained) : ExpansionSafe retained := by
  intro before item after split
  obtain ⟨expanding, front, run, rest, segmentsBefore, done, isExpanding, isRuns, isItem, fits, fit,
    spread⟩ := sound.startExpanding.before sound.fits split
  obtain ⟨itemIndex, segments⟩ := item
  dsimp only at isItem fit spread ⊢
  subst isItem
  obtain ⟨placing, started, laid⟩ := spread.start fit
  have ahead := length_le_count fits
  refine ⟨expanding, _, placing, isExpanding, ?_, started, ahead, ?_⟩
  · intro ix notBehind
    obtain ⟨gap, expandingRuns, -, -⟩ := spread.runs
    have regroup : front ++ run :: rest = front ++ [run] ++ rest := by simp
    have inside : ix < (front ++ [run]).length := by
      rw [List.length_append, List.length_singleton]
      omega
    rw [expandingRuns, isRuns, regroup, List.getElem?_append_left inside, List.getElem?_append_left inside]
  · intro before' segment after' splitSegments
    obtain ⟨current, kept, done', isCurrent, laidCurrent, isIndex⟩ := laid.before ahead splitSegments
    obtain ⟨⟨fontId, gap, currentRuns, gapEmpty, slots⟩, glyphEnd, -, -⟩ := laidCurrent
    rw [List.length_append, List.length_singleton] at slots
    refine ⟨current, isCurrent, ?_, ⟨run, ⟨fontId, run.glyphs.take (total (kept ++ [segment.1]))⟩,
      by simp [isRuns], by simp [currentRuns], by rw [glyphEnd]⟩, ?_⟩
    · intro ix inFront
      rw [currentRuns, isRuns, List.getElem?_append_left inFront, List.getElem?_append_left inFront]
    · rcases List.eq_nil_or_concat gap with rfl | ⟨gap, slot, rfl⟩
      · rw [List.length_nil] at slots
        left
        omega
      · rw [List.concat_eq_append, List.length_append, List.length_singleton] at slots
        refine .inr ⟨slot, ?_, gapEmpty slot (by simp)⟩
        have place : (segmentsBefore.map List.length).sum + segment.2 =
            (front ++ ⟨fontId, run.glyphs.take (total (kept ++ [segment.1]))⟩ :: gap).length := by
          rw [List.length_append, List.length_cons]
          omega
        have regroup : current.runs = (front ++ ⟨fontId, run.glyphs.take (total (kept ++ [segment.1]))⟩ :: gap) ++
              slot :: done' := by
          rw [currentRuns]
          simp
        rw [place, regroup, List.getElem?_append_right le_rfl, Nat.sub_self, List.getElem?_cons_zero]

theorem spread_nonempty {runs : List (ShapedRun P)} {segmentsByRun : List (List Segment)}
    (fits : List.Forall₂ Fits runs segmentsByRun) : ∀ run ∈ spread runs segmentsByRun, run.glyphs ≠ [] := by
  induction fits with
  | nil => simp [spread]
  | @cons run segments _ _ fit _ ih =>
    intro piece member
    rw [spread, List.zip_cons_cons, List.flatMap_cons, List.mem_append] at member
    rcases member with here | later
    · exact pieces_nonempty segments run.glyphs fit.total fit.positive piece here
    · exact ih piece later

theorem flatten_appendGlyph (runs : List (ShapedRun P)) (fontId : Nat) (glyph : ShapedGlyph P) :
    flatten (appendGlyph runs fontId glyph) = flatten runs ++ [(fontId, glyph)] := by
  unfold appendGlyph
  cases last : runs.getLast? with
  | none => rw [flatten_append]; rfl
  | some run =>
    obtain ⟨front, rfl⟩ := List.getLast?_eq_some_iff.mp last
    dsimp only
    split
    next same => simp [flatten, same]
    · rw [flatten_append _ [_]]
      rfl

section
variable [Zero P] [Add P]

omit [Zero P] in
theorem rebuild_eq (glyphs : List (Nat × ShapedGlyph P)) (runs : List (ShapedRun P)) (pass : Pass P) :
    flatten (rebuild glyphs runs pass).1 = flatten runs ++ (visitAll glyphs pass).1 ∧
    (rebuild glyphs runs pass).2 = (visitAll glyphs pass).2 := by
  induction glyphs generalizing runs pass with
  | nil => simp [rebuild, visitAll]
  | cons item glyphs ih =>
    obtain ⟨fontId, glyph⟩ := item
    rw [rebuild, visitAll]
    rcases pass.visit fontId glyph with ⟨kept, next⟩
    cases kept with
    | none => simpa using ih runs next
    | some kept =>
      obtain ⟨sameRuns, samePass⟩ := ih (appendGlyph runs kept.1 kept.2) next
      simp [sameRuns, samePass, flatten_appendGlyph]

/-- The replacement in place yields the glyphs, fonts and width of the naive rebuild, leaves no empty
run, and never writes over a run or a glyph that it has yet to process. -/
theorem applyReplacements_reference (layout : LineLayout P) (replacements : List (Replacement P))
    (nonempty : replacements ≠ []) : ∃ result, applyReplacements layout replacements = .ok result ∧
    flatten result.runs = flatten (reference layout replacements).runs ∧
    result = { reference layout replacements with runs := result.runs } ∧ (∀ run ∈ result.runs, run.glyphs ≠ []) ∧
    ExpansionSafe (firstPass layout replacements).1 := by
  have start : Sound (P := P) ⟨[], [], [], 0⟩ := ⟨.nil, rfl, by simp⟩
  obtain ⟨sound, samePass, flat⟩ := retainRuns_eq layout.runs ⟨[], [], [], 0⟩ ⟨replacements, 0, 0, 0⟩ start
  change Sound (firstPass layout replacements).1 at sound
  change (firstPass layout replacements).2 = _ at samePass
  change flatten (spread (firstPass layout replacements).1.runs
    (firstPass layout replacements).1.segmentsByRun) = _ at flat
  obtain ⟨sameRuns, sharedPass⟩ := rebuild_eq (flatten layout.runs) [] ⟨replacements, 0, 0, 0⟩
  obtain ⟨expanded, isExpanded, isRuns⟩ := sound.startExpanding.run sound.fits
  rw [List.append_nil] at isRuns
  refine ⟨{ layout with
    width := layout.width + (firstPass layout replacements).2.shift
    runs := expanded.runs }, ?_, ?_, ?_, ?_, sound.expansionSafe⟩
  · have some : replacements.isEmpty = false := by simpa using nonempty
    have unfolded : applyReplacements layout replacements = ((sourcesOf (firstPass layout replacements).1.runs
            (firstPass layout replacements).1.segmentsByRun).foldlM expandRun
          (firstPass layout replacements).1.startExpanding >>= fun expanded =>
            pure { layout with
              width := layout.width + (firstPass layout replacements).2.shift
              runs := expanded.runs }) := by
      rw [applyReplacements, some]
      rfl
    rw [unfolded, isExpanded, ok_bind]
    rfl
  · rw [isRuns, flat]
    exact sameRuns.symm
  · rw [samePass, ← sharedPass]
    rfl
  · rw [isRuns]
    exact spread_nonempty sound.fits

/-- Of the runs of two and one glyphs the second and third glyph are replaced by one of font 9. -/
theorem applyReplacements_reference_example :
    let glyph (x : Int) : ShapedGlyph Int := ⟨0, ⟨x, 0⟩, 0, false⟩
    let layout : LineLayout Int := ⟨14, 30, 11, 3, [⟨0, [glyph 0, glyph 10]⟩, ⟨1, [glyph 20]⟩], 3⟩
    ∃ result, applyReplacements layout [⟨1, 3, 9, glyph 11, -5⟩] = .ok result ∧
      flatten result.runs = [(0, glyph 0), (9, glyph 11)] := by
  intro glyph layout
  obtain ⟨result, applied, same, -⟩ := applyReplacements_reference layout [⟨1, 3, 9, glyph 11, -5⟩] (by simp)
  exact ⟨result, applied, same⟩

end
end Pinrail.RunReplacements

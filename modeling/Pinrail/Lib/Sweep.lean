import Mathlib.Data.List.Nodup
import Mathlib.Data.List.Induction
import Mathlib.Tactic.Common

/-!
# Sweeping over ranges

The endpoints of ranges are visited in the order of their positions, with the ids of the ranges that are
open. Between two positions the open ranges are those that cover what is between.
-/

namespace Pinrail.Lib

abbrev RangeEnd := Nat × Nat × Bool

def rangeEnds (ranges : List (Nat × Nat)) : List RangeEnd :=
  ranges.zipIdx.flatMap fun (range, id) => [(range.1, id, true), (range.2, id, false)]

def toggle (active : List Nat) (id : Nat) (isStart : Bool) : List Nat :=
  if isStart then (if id ∈ active then active else active ++ [id]) else active.filter (· ≠ id)

def sweep : List RangeEnd → List Nat → Nat → List ((Nat × Nat) × List Nat)
  | [], _, _ => []
  | (position, id, isStart) :: rest, active, ix =>
    (if position > ix ∧ active ≠ [] then [((ix, position), active)] else []) ++
      sweep rest (toggle active id isStart) position

def coveringIds (ranges : List (Nat × Nat)) (piece : Nat × Nat) : List Nat :=
  (ranges.zipIdx.filter fun entry => entry.1.1 ≤ piece.1 ∧ piece.2 ≤ entry.1.2).map Prod.snd

theorem length_sweep_le (rest : List RangeEnd) (active : List Nat) (ix : Nat) :
    (sweep rest active ix).length ≤ rest.length := by
  induction rest generalizing active ix with
  | nil => exact Nat.le_refl _
  | cons e rest ih =>
    obtain ⟨position, id, isStart⟩ := e
    have tail := ih (toggle active id isStart) position
    rw [sweep, List.length_append, List.length_cons]
    split_ifs <;> simp only [List.length_singleton, List.length_nil] <;> omega

/-- A sweep with `rest` left to visit and `ix` visited last. -/
structure Sweeping (ranges : List (Nat × Nat)) (rest : List RangeEnd) (active : List Nat) (ix : Nat) : Prop where
  sorted : rest.Pairwise fun first second => first.1 ≤ second.1
  nodup : rest.Nodup
  ahead : ∀ e ∈ rest, ix ≤ e.1
  known : ∀ e ∈ rest, e ∈ rangeEnds ranges
  behind : ∀ e ∈ rangeEnds ranges, e ∉ rest → e.1 ≤ ix
  open_ : ∀ id, id ∈ active ↔ ∃ range, ranges[id]? = some range ∧
    (range.1, id, true) ∉ rest ∧ (range.2, id, false) ∈ rest
  unique : active.Nodup

variable {ranges : List (Nat × Nat)} {rest ends : List RangeEnd} {active : List Nat} {ix position id x : Nat}
  {isStart : Bool} {range : Nat × Nat} {e : RangeEnd}

theorem mem_rangeEnds : e ∈ rangeEnds ranges ↔
    ∃ range, ranges[e.2.1]? = some range ∧ e.1 = if e.2.2 then range.1 else range.2 := by
  obtain ⟨position, id, isStart⟩ := e
  simp only [rangeEnds, List.mem_flatMap, Prod.exists, List.mem_zipIdx_iff_getElem?]
  constructor
  · rintro ⟨low, high, id', found, member⟩
    rcases List.mem_pair.mp member with same | same
    · cases same
      exact ⟨_, _, found, rfl⟩
    · cases same
      exact ⟨_, _, found, rfl⟩
  · rintro ⟨low, high, found, rfl⟩
    refine ⟨low, high, id, found, ?_⟩
    cases isStart <;> simp

theorem rangeEnds_concat (ranges : List (Nat × Nat)) (range : Nat × Nat) : rangeEnds (ranges ++ [range]) =
    rangeEnds ranges ++ [(range.1, ranges.length, true), (range.2, ranges.length, false)] := by
  simp [rangeEnds, List.zipIdx_append]

theorem rangeEnds_nodup (ranges : List (Nat × Nat)) : (rangeEnds ranges).Nodup := by
  induction ranges using List.reverseRecOn with
  | nil => exact List.nodup_nil
  | append_singleton ranges range ih =>
    rw [rangeEnds_concat, List.nodup_append]
    refine ⟨ih, by simp, ?_⟩
    rintro e member last atLast rfl
    obtain ⟨range', found, -⟩ := mem_rangeEnds.mp member
    have inside := (List.getElem?_eq_some_iff.mp found).1
    rcases List.mem_pair.mp atLast with rfl | rfl
    · exact Nat.lt_irrefl _ inside
    · exact Nat.lt_irrefl _ inside

theorem sweeping_start (perm : ends.Perm (rangeEnds ranges))
    (sorted : ends.Pairwise fun first second => first.1 ≤ second.1) : Sweeping ranges ends [] 0 where
  sorted := sorted
  nodup := perm.nodup_iff.mpr (rangeEnds_nodup ranges)
  ahead _ _ := Nat.zero_le _
  known e member := perm.mem_iff.mp member
  behind e member missing := absurd (perm.mem_iff.mpr member) missing
  open_ id := by
    refine iff_of_false (by simp) ?_
    rintro ⟨range, found, missing, -⟩
    exact missing (perm.mem_iff.mpr (mem_rangeEnds.mpr ⟨range, found, rfl⟩))
  unique := List.nodup_nil

theorem Sweeping.end_ahead (sweeping : Sweeping ranges rest active ix) (found : ranges[id]? = some range)
    (later : ix < range.2) : (range.2, id, false) ∈ rest := by
  by_contra missing
  have past := sweeping.behind (range.2, id, false) (mem_rangeEnds.mpr ⟨range, found, rfl⟩) missing
  exact Nat.lt_irrefl _ (Nat.lt_of_lt_of_le later past)

theorem Sweeping.step (sweeping : Sweeping ranges ((position, id, isStart) :: rest) active ix)
    (nonempty : ∀ range ∈ ranges, range.1 < range.2) : Sweeping ranges rest (toggle active id isStart) position := by
  obtain ⟨first, sorted⟩ := List.pairwise_cons.mp sweeping.sorted
  obtain ⟨fresh, nodup⟩ := List.nodup_cons.mp sweeping.nodup
  have reached := sweeping.ahead _ List.mem_cons_self
  obtain ⟨range, found, place⟩ := mem_rangeEnds.mp (sweeping.known _ List.mem_cons_self)
  dsimp only at reached found place
  have wide := nonempty range (List.mem_of_getElem? found)
  refine ⟨sorted, nodup, first, fun e member => sweeping.known e (List.mem_cons_of_mem _ member), ?_, ?_, ?_⟩
  · intro e member missing
    by_cases here : e = (position, id, isStart)
    · exact Nat.le_of_eq (by rw [here])
    · exact Nat.le_trans (sweeping.behind e member (by simp [here, missing])) reached
  · intro other
    by_cases same : other = id
    · subst same
      cases isStart with
      | true =>
        refine iff_of_true ?_ ⟨range, found, by rwa [if_pos rfl, ← place] at *, ?_⟩
        · rw [toggle, if_pos rfl]
          split_ifs with member
          · exact member
          · simp
        · have ahead := sweeping.end_ahead found (by rw [if_pos rfl] at place; omega)
          simpa using ahead
      | false =>
        refine iff_of_false ?_ ?_
        · simp [toggle]
        · rintro ⟨range', found', -, ahead⟩
          rw [found] at found'
          cases found'
          rw [if_neg (by simp)] at place
          exact fresh (place ▸ ahead)
    · have kept : other ∈ toggle active id isStart ↔ other ∈ active := by
        unfold toggle
        split_ifs <;> simp [same]
      rw [kept, sweeping.open_]
      simp [same]
  · unfold toggle
    split_ifs with start member
    · exact sweeping.unique
    · exact List.nodup_append.mpr ⟨sweeping.unique, List.nodup_singleton id, by
        rintro a inside b last rfl
        exact member (List.mem_singleton.mp last ▸ inside)⟩
    · exact sweeping.unique.filter _

theorem Sweeping.mem_active (sweeping : Sweeping ranges ((position, id, isStart) :: rest) active ix)
    (gap : ix < position) {other : Nat} :
    other ∈ active ↔ ∃ range, ranges[other]? = some range ∧ range.1 ≤ ix ∧ position ≤ range.2 := by
  obtain ⟨first, -⟩ := List.pairwise_cons.mp sweeping.sorted
  have least : ∀ e ∈ (position, id, isStart) :: rest, position ≤ e.1 := by
    rw [List.forall_mem_cons]
    exact ⟨Nat.le_refl _, first⟩
  rw [sweeping.open_]
  constructor
  · rintro ⟨range, found, started, ahead⟩
    exact ⟨range, found, sweeping.behind _ (mem_rangeEnds.mpr ⟨range, found, rfl⟩) started, least _ ahead⟩
  · rintro ⟨range, found, before, after⟩
    refine ⟨range, found, fun ahead => ?_, sweeping.end_ahead found (Nat.lt_of_lt_of_le gap after)⟩
    exact Nat.lt_irrefl _ (Nat.lt_of_lt_of_le gap (Nat.le_trans (least _ ahead) before))

structure Piece (ranges : List (Nat × Nat)) (piece : (Nat × Nat) × List Nat) : Prop where
  nonempty : piece.1.1 < piece.1.2
  covered : piece.2 ≠ []
  ids : piece.2.Perm (coveringIds ranges piece.1)
  whole : ∀ e ∈ rangeEnds ranges, e.1 ≤ piece.1.1 ∨ piece.1.2 ≤ e.1

theorem mem_coveringIds {piece : Nat × Nat} : id ∈ coveringIds ranges piece ↔
    ∃ range, ranges[id]? = some range ∧ range.1 ≤ piece.1 ∧ piece.2 ≤ range.2 := by
  simp only [coveringIds, List.mem_map, List.mem_filter, decide_eq_true_eq, Prod.exists,
    List.mem_zipIdx_iff_getElem?, exists_eq_right]

theorem coveringIds_nodup (ranges : List (Nat × Nat)) (piece : Nat × Nat) : (coveringIds ranges piece).Nodup := by
  have all : (ranges.zipIdx.map Prod.snd).Nodup := by
    rw [List.zipIdx_map_snd]
    exact List.nodup_range' ..
  exact all.sublist (List.filter_sublist.map Prod.snd)

theorem Sweeping.piece (sweeping : Sweeping ranges ((position, id, isStart) :: rest) active ix)
    (gap : position > ix ∧ active ≠ []) : Piece ranges ((ix, position), active) where
  nonempty := gap.1
  covered := gap.2
  ids := by
    rw [List.perm_ext_iff_of_nodup sweeping.unique (coveringIds_nodup _ _)]
    intro other
    rw [sweeping.mem_active gap.1, mem_coveringIds]
  whole e member := by
    by_cases left : e ∈ (position, id, isStart) :: rest
    · rcases List.mem_cons.mp left with rfl | later
      · exact .inr (Nat.le_refl _)
      · exact .inr ((List.pairwise_cons.mp sweeping.sorted).1 e later)
    · exact .inl (sweeping.behind e member left)

theorem Sweeping.started (sweeping : Sweeping ranges ((position, id, isStart) :: rest) active ix) {other : Nat}
    (found : ranges[other]? = some range) (starts : range.1 < position) : range.1 ≤ ix := by
  apply sweeping.behind (range.1, other, true) (mem_rangeEnds.mpr ⟨range, found, rfl⟩)
  intro ahead
  rcases List.mem_cons.mp ahead with here | later
  · cases here
    exact Nat.lt_irrefl _ starts
  · exact Nat.lt_irrefl _ (Nat.lt_of_lt_of_le starts ((List.pairwise_cons.mp sweeping.sorted).1 _ later))

theorem Sweeping.lasts (sweeping : Sweeping ranges ((position, id, isStart) :: rest) active ix) {other : Nat}
    (found : ranges[other]? = some range) (ends : ix < range.2) : position ≤ range.2 := by
  rcases List.mem_cons.mp (sweeping.end_ahead found ends) with here | later
  · cases here
    exact Nat.le_refl _
  · exact (List.pairwise_cons.mp sweeping.sorted).1 _ later

theorem Sweeping.gap_iff (sweeping : Sweeping ranges ((position, id, isStart) :: rest) active ix) (after : ix ≤ x)
    (before : x < position) : (∃ range ∈ ranges, range.1 ≤ x ∧ x < range.2) ↔ active ≠ [] := by
  have wide : ix < position := Nat.lt_of_le_of_lt after before
  constructor
  · rintro ⟨range, member, starts, ends⟩
    obtain ⟨other, found⟩ := List.getElem?_of_mem member
    apply List.ne_nil_of_mem ((sweeping.mem_active wide).mpr ⟨range, found, ?_, ?_⟩)
    · exact sweeping.started found (Nat.lt_of_le_of_lt starts before)
    · exact sweeping.lasts found (Nat.lt_of_le_of_lt after ends)
  · intro some
    obtain ⟨other, member⟩ := List.exists_mem_of_ne_nil _ some
    obtain ⟨range, found, starts, ends⟩ := (sweeping.mem_active wide).mp member
    exact ⟨range, List.mem_of_getElem? found, Nat.le_trans starts after, Nat.lt_of_lt_of_le before ends⟩

structure Swept (ranges : List (Nat × Nat)) (ix : Nat) (pieces : List ((Nat × Nat) × List Nat)) : Prop where
  ahead : ∀ piece ∈ pieces, ix ≤ piece.1.1
  whole : ∀ piece ∈ pieces, Piece ranges piece
  ascending : pieces.Pairwise fun first second => first.1.2 ≤ second.1.1
  covers : ∀ x, ix ≤ x → ((∃ piece ∈ pieces, piece.1.1 ≤ x ∧ x < piece.1.2) ↔
    ∃ range ∈ ranges, range.1 ≤ x ∧ x < range.2)

theorem Sweeping.swept (sweeping : Sweeping ranges ((position, id, isStart) :: rest) active ix)
    {pieces : List ((Nat × Nat) × List Nat)} (swept : Swept ranges position pieces) :
    Swept ranges ix ((if position > ix ∧ active ≠ [] then [((ix, position), active)] else []) ++ pieces) := by
  have reached : ix ≤ position := sweeping.ahead _ List.mem_cons_self
  have later : ∀ piece ∈ pieces, ix ≤ piece.1.1 := fun piece member =>
    Nat.le_trans reached (swept.ahead piece member)
  have front : ∀ x, ix ≤ x → x < position → ¬ ∃ piece ∈ pieces, piece.1.1 ≤ x ∧ x < piece.1.2 := by
    rintro x - before ⟨piece, member, starts, -⟩
    exact Nat.lt_irrefl _ (Nat.lt_of_lt_of_le before (Nat.le_trans (swept.ahead piece member) starts))
  by_cases gap : position > ix ∧ active ≠ []
  · rw [if_pos gap]
    refine ⟨?_, ?_, ?_, ?_⟩
    · exact List.forall_mem_cons.mpr ⟨Nat.le_refl _, later⟩
    · exact List.forall_mem_cons.mpr ⟨sweeping.piece gap, swept.whole⟩
    · exact List.pairwise_cons.mpr ⟨swept.ahead, swept.ascending⟩
    · intro x after
      rw [List.singleton_append, List.exists_mem_cons_iff]
      rcases Nat.lt_or_ge x position with before | past
      · exact iff_of_true (.inl ⟨after, before⟩) ((sweeping.gap_iff after before).mpr gap.2)
      · rw [← swept.covers x past]
        exact or_iff_right fun here => Nat.lt_irrefl _ (Nat.lt_of_lt_of_le here.2 past)
  · rw [if_neg gap, List.nil_append]
    refine ⟨later, swept.whole, swept.ascending, fun x after => ?_⟩
    rcases Nat.lt_or_ge x position with before | past
    · apply iff_of_false (front x after before)
      rw [sweeping.gap_iff after before]
      exact fun some => gap ⟨Nat.lt_of_le_of_lt after before, some⟩
    · exact swept.covers x past

theorem Sweeping.run (sweeping : Sweeping ranges rest active ix) (nonempty : ∀ range ∈ ranges, range.1 < range.2) :
    Swept ranges ix (sweep rest active ix) := by
  induction rest generalizing active ix with
  | nil =>
    refine ⟨by simp [sweep], by simp [sweep], List.Pairwise.nil, fun x later => iff_of_false (by simp [sweep]) ?_⟩
    rintro ⟨range, member, -, before⟩
    obtain ⟨id, found⟩ := List.getElem?_of_mem member
    have past := sweeping.behind (range.2, id, false) (mem_rangeEnds.mpr ⟨range, found, rfl⟩) (by simp)
    exact Nat.lt_irrefl _ (Nat.lt_of_lt_of_le before (Nat.le_trans past later))
  | cons e rest ih =>
    obtain ⟨position, id, isStart⟩ := e
    exact sweeping.swept (ih (sweeping.step nonempty))

theorem sweep_swept (perm : ends.Perm (rangeEnds ranges))
    (sorted : ends.Pairwise fun first second => first.1 ≤ second.1)
    (nonempty : ∀ range ∈ ranges, range.1 < range.2) : Swept ranges 0 (sweep ends [] 0) :=
  (sweeping_start perm sorted).run nonempty

end Pinrail.Lib

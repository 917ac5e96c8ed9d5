import Pinrail.Lib.Ranked
import Pinrail.Lib.Spans
import Pinrail.Journal.Sealer

/-!
# Occupancy

The event part of `FrameSnapshot::occupancy_within`, with instants in nanoseconds: how long some event
was under way in a window.
-/

namespace Pinrail.Journal

open Lib

variable {Instant Data : Type}

def ForegroundEvent.endTime : ForegroundEvent Instant Data → Instant
  | .taskPoll timing => timing.stop
  | .action timing => timing.stop
  | .input timing => timing.stop
  | .draw timing => timing.stop
  | .present timing => timing.stop
  | .smallPolls flush => flush.untl

/-- `Instant::duration_since`, which saturates. -/
def durationSince (later earlier : ℤ) : Nat := (later - earlier).toNat

namespace FrameSnapshot

def clamp (windowStart windowEnd : ℤ) (event : ForegroundEvent ℤ Data) : ℤ × ℤ :=
  let start := max event.startTime windowStart
  let stop := max (min event.endTime windowEnd) start
  (start, stop)

def spans (self : FrameSnapshot ℤ Data) (windowStart windowEnd : ℤ) : List (ℤ × ℤ) :=
  sortBy (fun span other => compare span.1 other.1) (self.events.map (clamp windowStart windowEnd))

def occupy : Nat × Option ℤ → ℤ × ℤ → Nat × Option ℤ
  | (occupied, mergedUntil), (start, stop) =>
    let begin_ := match mergedUntil with
      | some mergedUntil => max start mergedUntil
      | none => start
    (occupied + durationSince stop begin_,
      some (match mergedUntil with
        | some mergedUntil => max mergedUntil stop
        | none => stop))

/-- `occupancy_within` without the folded polls. -/
def occupied (self : FrameSnapshot ℤ Data) (windowStart windowEnd : ℤ) : Nat :=
  ((self.spans windowStart windowEnd).foldl occupy (0, none)).1

/-! ## The sweep -/

structure Swept (instants : Finset ℤ) (start : ℤ) (state : Nat × Option ℤ) : Prop where
  occupied : state.1 = instants.card
  filled : match state.2 with
    | some mergedUntil => FilledTo instants start mergedUntil
    | none => instants = ∅

variable {instants : Finset ℤ} {start : ℤ} {state : Nat × Option ℤ} {spans : List (ℤ × ℤ)}

theorem Swept.occupy (swept : Swept instants start state) {span : ℤ × ℤ} (later : start ≤ span.1) :
    Swept (instants ∪ Finset.Ico span.1 span.2) span.1 (occupy state span) := by
  obtain ⟨occupied, mergedUntil⟩ := state
  obtain ⟨low, high⟩ := span
  obtain ⟨length, filled⟩ := swept
  cases mergedUntil with
  | some mergedUntil =>
    have filled := FilledTo.mono filled later
    exact ⟨by rw [filled.card_union, ← length]; rfl, filled.union high⟩
  | none =>
    obtain rfl : instants = ∅ := filled
    have added := (filledTo_empty low).card_union high
    rw [max_self] at added
    refine ⟨by rw [added, ← length]; rfl, fun instant after => ?_⟩
    have after : low ≤ instant := after
    simp [after]

theorem Swept.foldl (swept : Swept instants start state) (sorted : spans.Pairwise fun a b => a.1 ≤ b.1)
    (later : ∀ span ∈ spans, start ≤ span.1) :
    (spans.foldl FrameSnapshot.occupy state).1 = (instants ∪ covered spans).card := by
  induction spans generalizing instants start state with
  | nil => rw [covered, Finset.union_empty, ← swept.occupied, List.foldl_nil]
  | cons span spans ih =>
    obtain ⟨first, sorted⟩ := List.pairwise_cons.mp sorted
    rw [List.foldl_cons, ih (swept.occupy (later span List.mem_cons_self)) sorted first, covered, Finset.union_assoc]

theorem sorted_spans (self : FrameSnapshot ℤ Data) (windowStart windowEnd : ℤ) :
    (self.spans windowStart windowEnd).Pairwise fun a b => a.1 ≤ b.1 := by
  apply (sorted_sortBy ?_ ?_).imp isLE_compare.mp
  · intro a b
    simp only [isLE_compare]
    exact le_total a.1 b.1
  · intro a b c
    simp only [isLE_compare]
    exact le_trans

/-! ## Occupancy -/

noncomputable def working (self : FrameSnapshot ℤ Data) (windowStart windowEnd : ℤ) : Finset ℤ :=
  (Finset.Ico windowStart windowEnd).filter fun instant =>
    ∃ event ∈ self.events, event.startTime ≤ instant ∧ instant < event.endTime

theorem mem_clamp {windowStart windowEnd instant : ℤ} {event : ForegroundEvent ℤ Data} :
    (clamp windowStart windowEnd event).1 ≤ instant ∧ instant < (clamp windowStart windowEnd event).2 ↔
    (windowStart ≤ instant ∧ instant < windowEnd) ∧ event.startTime ≤ instant ∧ instant < event.endTime := by
  simp only [clamp, max_le_iff, lt_max_iff, lt_min_iff]
  omega

theorem covered_spans (self : FrameSnapshot ℤ Data) (windowStart windowEnd : ℤ) :
    covered (self.spans windowStart windowEnd) = self.working windowStart windowEnd := by
  ext instant
  simp only [mem_covered, spans, mem_sortBy, List.mem_map, exists_exists_and_eq_and, mem_clamp,
    working, Finset.mem_filter, Finset.mem_Ico]
  constructor
  · rintro ⟨event, member, inside, under⟩
    exact ⟨inside, event, member, under⟩
  · rintro ⟨inside, event, member, under⟩
    exact ⟨event, member, inside, under⟩

theorem occupied_eq_card (self : FrameSnapshot ℤ Data) (windowStart windowEnd : ℤ) :
    self.occupied windowStart windowEnd = (self.working windowStart windowEnd).card := by
  have sorted := self.sorted_spans windowStart windowEnd
  rw [occupied, ← covered_spans]
  cases listed : self.spans windowStart windowEnd with
  | nil => rfl
  | cons span spans =>
    rw [listed] at sorted
    have start : Swept ∅ span.1 (0, none) := ⟨rfl, rfl⟩
    rw [start.foldl sorted ?_, Finset.empty_union]
    intro other member
    rcases List.mem_cons.mp member with rfl | member
    · exact le_refl _
    · exact List.rel_of_pairwise_cons sorted member

/-- The event part of the occupancy is the length of the union of the spans of the events in the window;
it is at most the length of the window, and the order of the events does not matter. -/
theorem occupied_eq_union (self : FrameSnapshot ℤ Data) (windowStart windowEnd : ℤ) :
    self.occupied windowStart windowEnd = (self.working windowStart windowEnd).card ∧
    self.occupied windowStart windowEnd ≤ durationSince windowEnd windowStart ∧
    ∀ events, events.Perm self.events →
      ({ self with events := events } : FrameSnapshot ℤ Data).occupied windowStart windowEnd =
        self.occupied windowStart windowEnd := by
  refine ⟨self.occupied_eq_card windowStart windowEnd, ?_, fun events same => ?_⟩
  · rw [occupied_eq_card, durationSince, ← Int.card_Ico]
    exact Finset.card_filter_le _ _
  · rw [occupied_eq_card, occupied_eq_card]
    congr 1
    ext instant
    simp only [working, Finset.mem_filter, same.mem_iff]

end FrameSnapshot
end Pinrail.Journal

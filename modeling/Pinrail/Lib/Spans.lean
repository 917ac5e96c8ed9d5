import Mathlib.Data.Int.ConditionallyCompleteOrder
import Mathlib.Data.Int.Interval
import Mathlib.Order.ConditionallyCompleteLattice.Indexed

/-!
# Spans

The instants of half-open spans between integers. When spans are added in the order of their starts,
what is covered has no gap after the last start, so a span adds what it has after the last end.
-/

namespace Pinrail.Lib

noncomputable def covered : List (ℤ × ℤ) → Finset ℤ
  | [] => ∅
  | span :: spans => Finset.Ico span.1 span.2 ∪ covered spans

def FilledTo (instants : Finset ℤ) (start stop : ℤ) : Prop :=
  ∀ instant, start ≤ instant → (instant ∈ instants ↔ instant < stop)

variable {instants : Finset ℤ} {start stop low high instant : ℤ} {spans : List (ℤ × ℤ)}

theorem mem_covered : instant ∈ covered spans ↔ ∃ span ∈ spans, span.1 ≤ instant ∧ instant < span.2 := by
  induction spans with
  | nil => simp [covered]
  | cons span spans ih => simp [covered, ih]

theorem filledTo_empty (start : ℤ) : FilledTo ∅ start start := by
  intro instant after
  simp [after]

theorem FilledTo.mono (filled : FilledTo instants start stop) (later : start ≤ low) :
    FilledTo instants low stop := fun instant after => filled instant (later.trans after)

theorem FilledTo.card_union (filled : FilledTo instants low stop) (high : ℤ) :
    (instants ∪ Finset.Ico low high).card = instants.card + (high - max low stop).toNat := by
  have added : instants ∪ Finset.Ico low high = instants ∪ Finset.Ico (max low stop) high := by
    ext instant
    simp only [Finset.mem_union, Finset.mem_Ico, max_le_iff]
    constructor
    · rintro (old | ⟨after, before⟩)
      · exact .inl old
      · rcases lt_or_ge instant stop with inside | outside
        · exact .inl ((filled instant after).mpr inside)
        · exact .inr ⟨⟨after, outside⟩, before⟩
    · rintro (old | ⟨⟨after, -⟩, before⟩)
      · exact .inl old
      · exact .inr ⟨after, before⟩
  have apart : Disjoint instants (Finset.Ico (max low stop) high) := by
    rw [Finset.disjoint_right]
    intro instant new old
    obtain ⟨after, -⟩ := Finset.mem_Ico.mp new
    obtain ⟨later, outside⟩ := max_le_iff.mp after
    exact absurd ((filled instant later).mp old) (not_lt.mpr outside)
  rw [added, Finset.card_union_of_disjoint apart, Int.card_Ico]

theorem FilledTo.union (filled : FilledTo instants low stop) (high : ℤ) :
    FilledTo (instants ∪ Finset.Ico low high) low (max stop high) := by
  intro instant after
  rw [Finset.mem_union, filled instant after, Finset.mem_Ico, lt_max_iff]
  simp [after]

end Pinrail.Lib

import Mathlib.Data.List.Basic
import Mathlib.Order.Basic
import Pinrail.Lib.Rust

/-!
# Logs that are replayed

A state logs the operations it performs. A range of the log of one state is performed on another, as
the operations themselves would be.
-/

namespace Pinrail.Lib

universe u v
variable {σ ο : Type u} {ε : Type v}

/-! ## Replaying -/

/-- `recorded` does to any state what `operations` do. -/
def Records (step : σ → ο → Except ε σ) (operations recorded : List ο) : Prop :=
  ∀ state, recorded.foldlM step state = operations.foldlM step state

structure Replayable (step : σ → ο → Except ε σ) (log : σ → List ο) : Prop where
  step_log : ∀ state operation state', step state operation = .ok state' →
    ∃ recorded, log state' = log state ++ recorded ∧ Records step [operation] recorded

variable {step : σ → ο → Except ε σ} {log : σ → List ο} {operations recorded : List ο}

theorem Records.append {operations' recorded' : List ο} (records : Records step operations recorded)
    (records' : Records step operations' recorded') :
    Records step (operations ++ operations') (recorded ++ recorded') := by
  intro state
  rw [List.foldlM_append, List.foldlM_append, records state]
  exact bind_congr records'

theorem Replayable.run (replayable : Replayable step log) {state state' : σ}
    (performed : operations.foldlM step state = .ok state') :
    ∃ recorded, log state' = log state ++ recorded ∧ Records step operations recorded := by
  induction operations generalizing state with
  | nil =>
    cases performed
    exact ⟨[], by simp, fun _ => rfl⟩
  | cons operation operations ih =>
    rw [List.foldlM_cons] at performed
    obtain ⟨next, first, rest⟩ := bind_eq_ok.mp performed
    obtain ⟨recorded, logged, records⟩ := replayable.step_log state operation next first
    obtain ⟨recorded', logged', records'⟩ := ih rest
    refine ⟨recorded ++ recorded', by rw [logged', logged, List.append_assoc], ?_⟩
    exact records.append records'

/-! ## Ranges of a log -/

variable {α : Type u}

theorem sliceRange_append (before after : List α) :
    sliceRange (before ++ after) before.length (before ++ after).length = .ok after := by
  rw [sliceRange, if_pos (by simp), List.take_length, List.drop_left]

theorem sliceRange_of_prefix {xs ys zs : List α} {i j : Nat} (grows : xs <+: ys)
    (sliced : sliceRange xs i j = .ok zs) : sliceRange ys i j = .ok zs := by
  obtain ⟨more, rfl⟩ := grows
  unfold sliceRange at sliced ⊢
  split_ifs at sliced with bounds
  rw [if_pos ⟨bounds.1, by rw [List.length_append]; omega⟩, List.take_append_of_le_length bounds.2]
  exact sliced

/-! ## Taking out of a range of slots -/

/-- The slots from `i` to `j` are empty. -/
def emptied (slots : List (Option α)) (i j : Nat) : List (Option α) :=
  slots.mapIdx fun k slot => if i ≤ k ∧ k < j then none else slot

/-- `slots[i..j].iter_mut().map(|slot| slot.take())`, and what is left behind. -/
def takeRange (slots : List (Option α)) (i j : Nat) :
    Except Panic (List (Option α) × List (Option α)) := do
  return (← sliceRange slots i j, emptied slots i j)

@[simp] theorem length_emptied (slots : List (Option α)) (i j : Nat) :
    (emptied slots i j).length = slots.length := by
  simp [emptied]

theorem takeRange_of_slice {slots taken : List (Option α)} {i j : Nat} (sliced : sliceRange slots i j = .ok taken) :
    takeRange slots i j = .ok (taken, emptied slots i j) := by
  rw [takeRange, sliced]
  rfl

theorem sliceRange_emptied {slots : List (Option α)} {i j i' j' : Nat} (apart : j ≤ i' ∨ j' ≤ i) :
    sliceRange (emptied slots i j) i' j' = sliceRange slots i' j' := by
  unfold sliceRange
  rw [length_emptied]
  split_ifs
  · congr 1
    refine List.ext_getElem? fun k => ?_
    rw [List.getElem?_drop, List.getElem?_drop, List.getElem?_take, List.getElem?_take]
    split_ifs
    · rw [emptied, List.getElem?_mapIdx]
      have outside : ¬(i ≤ i' + k ∧ i' + k < j) := by omega
      simp [outside]
    · rfl
  · rfl

/-! ## Ranges one after another -/

structure Laid {α κ β ι : Type*} [Preorder ι] (table : κ → Option β) (key : α → κ)
    (good : α → β → Prop) (start stop : β → ι) (low high : ι) (items : List α) : Prop where
  entry : ∀ item ∈ items, ∃ b, table (key item) = some b ∧ good item b ∧ low ≤ start b ∧ stop b ≤ high
  apart : ∀ item ∈ items, ∀ item' ∈ items, key item ≠ key item' → ∀ b b',
    table (key item) = some b → table (key item') = some b' → stop b ≤ start b' ∨ stop b' ≤ start b

namespace Laid
variable {α κ β ι : Type*} [Preorder ι] {table table' : κ → Option β} {key : α → κ}
  {good good' : α → β → Prop} {start stop : β → ι} {low middle high : ι} {items items' : List α}

theorem nil : Laid table key good start stop low high [] := by
  constructor <;> simp

theorem singleton {item : α} {b : β} (found : table (key item) = some b) (holds : good item b) (above : low ≤ start b)
    (below : stop b ≤ high) : Laid table key good start stop low high [item] := by
  constructor
  · simpa using ⟨b, found, holds, above, below⟩
  · simp only [List.mem_singleton]
    rintro item' rfl item'' rfl other
    exact absurd rfl other

theorem congr (laid : Laid table key good start stop low high items)
    (same : ∀ item ∈ items, table' (key item) = table (key item))
    (weaker : ∀ item ∈ items, ∀ b, good item b → good' item b) :
    Laid table' key good' start stop low high items where
  entry item mem := by
    obtain ⟨b, found, holds, above, below⟩ := laid.entry item mem
    exact ⟨b, (same item mem).trans found, weaker item mem b holds, above, below⟩
  apart item mem item' mem' other b b' found found' :=
    laid.apart item mem item' mem' other b b' ((same item mem).symm.trans found) ((same item' mem').symm.trans found')

theorem append (laid : Laid table key good start stop low middle items)
    (laid' : Laid table key good start stop middle high items') (rises : low ≤ middle)
    (rises' : middle ≤ high) : Laid table key good start stop low high (items ++ items') := by
  have across : ∀ item ∈ items, ∀ item' ∈ items', ∀ b b', table (key item) = some b →
      table (key item') = some b' → stop b ≤ start b' := by
    intro item mem item' mem' b b' found found'
    obtain ⟨c, at_, -, -, below⟩ := laid.entry item mem
    obtain ⟨c', at_', -, above, -⟩ := laid'.entry item' mem'
    cases found.symm.trans at_
    cases found'.symm.trans at_'
    exact below.trans above
  constructor
  · intro item mem
    rcases List.mem_append.mp mem with mem | mem
    · obtain ⟨b, found, holds, above, below⟩ := laid.entry item mem
      exact ⟨b, found, holds, above, below.trans rises'⟩
    · obtain ⟨b, found, holds, above, below⟩ := laid'.entry item mem
      exact ⟨b, found, holds, rises.trans above, below⟩
  · intro item mem item' mem' other b b' found found'
    rcases List.mem_append.mp mem with mem | mem <;> rcases List.mem_append.mp mem' with mem' | mem'
    · exact laid.apart item mem item' mem' other b b' found found'
    · exact .inl (across item mem item' mem' b b' found found')
    · exact .inr (across item' mem' item mem b' b found' found)
    · exact laid'.apart item mem item' mem' other b b' found found'

end Laid
end Pinrail.Lib

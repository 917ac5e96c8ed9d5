import Mathlib.Algebra.Order.Field.Rat
import Mathlib.Tactic.FieldSimp
import Mathlib.Tactic.Linarith

/-!
# Biased coins

A program that flips biased coins is a tree of flips. Its outcomes are its leaves, its probabilities
those of independent coins. A loaded die is rolled by flipping, for one alternative after the other, a
coin for its weight among the weights that are left.
-/

namespace Pinrail.Lib

variable {α β : Type}

inductive Coins (α : Type) where
  | done (a : α)
  | flip (numerator denominator : Nat) (heads tails : Coins α)

namespace Coins

inductive Outcome : Coins α → α → Prop where
  | done (a : α) : Outcome (.done a) a
  | heads {numerator denominator : Nat} {heads tails : Coins α} {a : α} (rest : Outcome heads a) :
      Outcome (.flip numerator denominator heads tails) a
  | tails {numerator denominator : Nat} {heads tails : Coins α} {a : α}
      (less : numerator ≠ denominator) (rest : Outcome tails a) :
      Outcome (.flip numerator denominator heads tails) a

/-- Every coin that can be flipped shows heads with a positive probability, at most one. -/
def Valid : Coins α → Prop
  | .done _ => True
  | .flip numerator denominator heads tails =>
    0 < numerator ∧ numerator ≤ denominator ∧ heads.Valid ∧ (numerator ≠ denominator → tails.Valid)

def probability (kind : α → Prop) [DecidablePred kind] : Coins α → ℚ
  | .done a => if kind a then 1 else 0
  | .flip numerator denominator heads tails =>
    (numerator / denominator : ℚ) * heads.probability kind + (1 - numerator / denominator : ℚ) * tails.probability kind

def map (f : α → β) : Coins α → Coins β
  | .done a => .done (f a)
  | .flip numerator denominator heads tails => .flip numerator denominator (heads.map f) (tails.map f)

def bind : Coins α → (α → Coins β) → Coins β
  | .done a, f => f a
  | .flip numerator denominator heads tails, f =>
    .flip numerator denominator (heads.bind f) (tails.bind f)

instance : Monad Coins where
  pure := .done
  bind := bind

theorem Valid.map {f : α → β} {coins : Coins α} (valid : coins.Valid) : (coins.map f).Valid := by
  induction coins with
  | done a => trivial
  | flip numerator denominator heads tails ihHeads ihTails =>
    obtain ⟨positive, atMost, first, second⟩ := valid
    exact ⟨positive, atMost, ihHeads first, fun less => ihTails (second less)⟩

theorem Outcome.of_map {f : α → β} {coins : Coins α} {b : β} (outcome : Outcome (coins.map f) b) :
    ∃ a, Outcome coins a ∧ b = f a := by
  induction coins with
  | done a =>
    cases outcome
    exact ⟨a, .done a, rfl⟩
  | flip numerator denominator heads tails ihHeads ihTails =>
    cases outcome with
    | heads rest =>
      obtain ⟨a, outcome, rfl⟩ := ihHeads rest
      exact ⟨a, .heads outcome, rfl⟩
    | tails less rest =>
      obtain ⟨a, outcome, rfl⟩ := ihTails rest
      exact ⟨a, .tails less outcome, rfl⟩

theorem probability_map (f : α → β) (kind : β → Prop) [DecidablePred kind] (coins : Coins α) :
    (coins.map f).probability kind = coins.probability fun a => kind (f a) := by
  induction coins with
  | done a => rfl
  | flip numerator denominator heads tails ihHeads ihTails =>
    rw [map, probability, ihHeads, ihTails]
    rfl

theorem probability_congr {kind other : α → Prop} [DecidablePred kind] [DecidablePred other]
    (same : ∀ a, kind a ↔ other a) (coins : Coins α) : coins.probability kind = coins.probability other := by
  induction coins with
  | done a => exact if_congr (same a) rfl rfl
  | flip numerator denominator heads tails ihHeads ihTails =>
    rw [probability, probability, ihHeads, ihTails]

theorem Outcome.bind {coins : Coins α} {f : α → Coins β} {a : α} {b : β} (first : Outcome coins a)
    (rest : Outcome (f a) b) : Outcome (coins >>= f) b := by
  induction first with
  | done a => exact rest
  | heads _ ih => exact .heads (ih rest)
  | tails less _ ih => exact .tails less (ih rest)

/-! ## Programs that panic -/

variable {ε : Type}

def lift (result : Except ε α) : ExceptT ε Coins α := .mk (.done result)

def Yields (coins : ExceptT ε Coins α) (result : Except ε α) : Prop := Outcome coins.run result

theorem yields_lift (result : Except ε α) : Yields (lift result) result := .done result

theorem Yields.bind {coins : ExceptT ε Coins α} {result : Except ε α} {f : α → ExceptT ε Coins β}
    {g : α → Except ε β} (first : Yields coins result) (rest : ∀ a, result = .ok a → Yields (f a) (g a)) :
    Yields (coins >>= f) (result >>= g) := by
  cases result with
  | error e => exact Outcome.bind first (Outcome.done (Except.error e : Except ε β))
  | ok a => exact Outcome.bind first (rest a rfl)

/-! ## Loaded dice -/

def total (weights : List (Nat × α)) : Nat := (weights.map Prod.fst).sum

def die : List (Nat × α) → Nat → Coins (Option α)
  | [], _ => .done none
  | (weight, a) :: weights, mass => .flip weight mass (.done (some a)) (die weights (mass - weight))

variable {weights : List (Nat × α)}

theorem total_cons (weight : Nat) (a : α) (weights : List (Nat × α)) :
    total ((weight, a) :: weights) = weight + total weights := by
  rw [total, List.map_cons, List.sum_cons]
  rfl

theorem total_filter_of_total (kind : Nat × α → Bool) (zero : total weights = 0) : total (weights.filter kind) = 0 := by
  rw [total, List.sum_eq_zero_iff_forall_eq_nat] at zero ⊢
  exact fun weight member => zero weight ((List.filter_sublist.map Prod.fst).subset member)

theorem die_valid (positive : ∀ entry ∈ weights, 0 < entry.1) : (die weights (total weights)).Valid := by
  induction weights with
  | nil => trivial
  | cons entry weights ih =>
    obtain ⟨weight, a⟩ := entry
    rw [List.forall_mem_cons] at positive
    have mass := total_cons weight a weights
    refine ⟨positive.1, by rw [mass]; exact Nat.le_add_right _ _, trivial, fun _ => ?_⟩
    rw [mass, Nat.add_sub_cancel_left]
    exact ih positive.2

theorem die_outcome (positive : ∀ entry ∈ weights, 0 < entry.1) {result : Option α}
    (outcome : Outcome (die weights (total weights)) result) :
    weights = [] ∧ result = none ∨ ∃ entry ∈ weights, result = some entry.2 := by
  induction weights with
  | nil =>
    cases outcome
    exact .inl ⟨rfl, rfl⟩
  | cons entry weights ih =>
    obtain ⟨weight, a⟩ := entry
    rw [List.forall_mem_cons] at positive
    have mass := total_cons weight a weights
    right
    cases outcome with
    | heads rest =>
      cases rest
      exact ⟨(weight, a), List.mem_cons_self, rfl⟩
    | tails less rest =>
      rw [mass, Nat.add_sub_cancel_left] at rest
      rcases ih positive.2 rest with ⟨rfl, -⟩ | ⟨entry, member, same⟩
      · exact absurd mass.symm less
      · exact ⟨entry, List.mem_cons_of_mem _ member, same⟩

theorem tails_share {weight mass kept : Nat} (heavy : 0 < weight) (none : mass = 0 → kept = 0) :
    (1 - weight / (weight + mass : ℕ) : ℚ) * (kept / mass) = kept / (weight + mass : ℕ) := by
  have positive : (0 : ℚ) < weight := by exact_mod_cast heavy
  rcases Nat.eq_zero_or_pos mass with zero | some
  · rw [none zero]
    simp
  · have more : (0 : ℚ) < mass := by exact_mod_cast some
    rw [Nat.cast_add]
    field_simp
    rw [add_sub_cancel_left]

theorem die_probability [DecidableEq α] (positive : ∀ entry ∈ weights, 0 < entry.1) (a : α) :
    (die weights (total weights)).probability (fun result => result = some a) =
      (total (weights.filter fun entry => entry.2 = a) : ℚ) / total weights := by
  induction weights with
  | nil => simp [die, probability, total]
  | cons entry weights ih =>
    obtain ⟨weight, b⟩ := entry
    rw [List.forall_mem_cons] at positive
    have mass := total_cons weight b weights
    rw [die, probability, probability, mass, Nat.add_sub_cancel_left, ih positive.2,
      tails_share positive.1 (total_filter_of_total _)]
    by_cases same : b = a
    · rw [if_pos (congrArg some same), List.filter_cons_of_pos (by simpa using same), mul_one,
        total_cons, ← add_div, ← Nat.cast_add]
    · rw [if_neg (by simpa using same), List.filter_cons_of_neg (by simpa using same), mul_zero, zero_add]

end Coins
end Pinrail.Lib

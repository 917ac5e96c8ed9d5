import Mathlib.Data.List.Chain

/-!
# Steps that hand out values

A step function takes the items of a list one by one and may hand out a value with each. The rules
below get facts about the values from an invariant of the steps; a condition that the steps are
known to meet is carried `Along` the run.
-/

namespace Pinrail.Lib

universe u
variable {σ τ α β : Type u}

def emitted (step : σ → α → σ × Option β) : σ → List α → List β
  | _, [] => []
  | s, a :: rest => (step s a).2.toList ++ emitted step (step s a).1 rest

/-- At every step of a run a condition holds of the items passed, the state and the next item. -/
def Along (step : σ → α → σ × Option β) (holds : List α → σ → α → Prop) : List α → σ → List α → Prop
  | _, _, [] => True
  | passed, s, a :: rest =>
    holds passed s a ∧ Along step holds (passed ++ [a]) (step s a).1 rest

instance Along.decidable {step : σ → α → σ × Option β} {holds : List α → σ → α → Prop}
    [∀ passed s a, Decidable (holds passed s a)] (passed : List α) (s : σ) (rest : List α) :
    Decidable (Along step holds passed s rest) :=
  match rest with
  | [] => .isTrue trivial
  | a :: rest =>
    have : Decidable (Along step holds (passed ++ [a]) (step s a).1 rest) := Along.decidable ..
    inferInstanceAs (Decidable (_ ∧ _))

variable {step : σ → α → σ × Option β} {holds : List α → σ → α → Prop} {whole : List α}

theorem Along.of_forall (all : ∀ passed s a, holds passed s a) (passed : List α) (s : σ)
    (rest : List α) : Along step holds passed s rest := by
  induction rest generalizing passed s with
  | nil => trivial
  | cons a rest ih => exact ⟨all .., ih ..⟩

/-- A step on a list of items that begins with the items passed keeps the invariant, and what it
hands out follows the value handed out before. -/
def KeepsChain (step : σ → α → σ × Option β) (holds : List α → σ → α → Prop) (whole : List α)
    (related : β → β → Prop) (inv : List α → β → σ → Prop) : Prop :=
  ∀ passed a rest last s, whole = passed ++ a :: rest → inv passed last s → holds passed s a →
    ((step s a).2 = none ∧ inv (passed ++ [a]) last (step s a).1) ∨
    ∃ b, (step s a).2 = some b ∧ related last b ∧ inv (passed ++ [a]) b (step s a).1

theorem emitted_isChain {related : β → β → Prop} {inv : List α → β → σ → Prop}
    (keeps : KeepsChain step holds whole related inv) (passed : List α) (last : β) (s : σ) (rest : List α)
    (split : whole = passed ++ rest) (starts : inv passed last s) (along : Along step holds passed s rest) :
    (last :: emitted step s rest).IsChain related ∧ ∃ b t, b ∈ (last :: emitted step s rest).getLast? ∧
    inv whole b t := by
  induction rest generalizing passed last s with
  | nil =>
    obtain rfl : whole = passed := by simpa using split
    exact ⟨.singleton last, last, s, rfl, starts⟩
  | cons a rest ih =>
    obtain ⟨now, later⟩ := along
    have splitNext : whole = (passed ++ [a]) ++ rest := by simpa using split
    unfold emitted
    rcases keeps passed a rest last s split starts now with ⟨out, kept⟩ | ⟨b, out, follows, kept⟩
    · rw [out]
      exact ih _ last _ splitNext kept later
    · obtain ⟨chain, ends⟩ := ih _ b _ splitNext kept later
      rw [out]
      exact ⟨.cons_cons follows chain, by simpa using ends⟩

theorem emitted_isChain_closed {related : β → β → Prop} {inv : List α → β → σ → Prop} {final : β}
    (keeps : KeepsChain step holds whole related inv) (ends : ∀ last s, inv whole last s → related last final)
    (passed : List α) (last : β) (s : σ) (rest : List α) (split : whole = passed ++ rest) (starts : inv passed last s)
    (along : Along step holds passed s rest) : (last :: (emitted step s rest ++ [final])).IsChain related := by
  obtain ⟨chain, b, t, isLast, kept⟩ := emitted_isChain keeps passed last s rest split starts along
  rw [← List.cons_append]
  refine chain.append (.singleton final) fun other otherLast closing isFinal => ?_
  obtain rfl := Option.mem_unique otherLast isLast
  obtain rfl : final = closing := by simpa using isFinal
  exact ends _ t kept

def KeepsEach (step : σ → α → σ × Option β) (holds : List α → σ → α → Prop) (whole : List α)
    (good : β → Prop) (inv : List α → σ → Prop) : Prop :=
  ∀ passed a rest s, whole = passed ++ a :: rest → inv passed s → holds passed s a →
    (∀ b, (step s a).2 = some b → good b) ∧ inv (passed ++ [a]) (step s a).1

theorem emitted_forall {good : β → Prop} {inv : List α → σ → Prop} (keeps : KeepsEach step holds whole good inv)
    (passed : List α) (s : σ) (rest : List α) (split : whole = passed ++ rest) (starts : inv passed s)
    (along : Along step holds passed s rest) : ∀ b ∈ emitted step s rest, good b := by
  induction rest generalizing passed s with
  | nil => exact fun _ => nofun
  | cons a rest ih =>
    obtain ⟨now, later⟩ := along
    obtain ⟨goodNow, kept⟩ := keeps passed a rest s split starts now
    intro b member
    rcases List.mem_append.mp member with member | member
    · exact goodNow b (by simpa using member)
    · exact ih _ _ (by simpa using split) kept later b member

def KeepsSame (step : σ → α → σ × Option β) (other : τ → α → τ × Option β)
    (holds : List α → σ → α → Prop) (related : List α → σ → τ → Prop) : Prop :=
  ∀ passed s t a, related passed s t → holds passed s a →
    (step s a).2 = (other t a).2 ∧ related (passed ++ [a]) (step s a).1 (other t a).1

theorem emitted_eq {other : τ → α → τ × Option β} {related : List α → σ → τ → Prop}
    (keeps : KeepsSame step other holds related)
    (passed : List α) (s : σ) (t : τ) (rest : List α) (starts : related passed s t)
    (along : Along step holds passed s rest) : emitted step s rest = emitted other t rest := by
  induction rest generalizing passed s t with
  | nil => rfl
  | cons a rest ih =>
    obtain ⟨now, later⟩ := along
    obtain ⟨same, kept⟩ := keeps passed s t a starts now
    rw [emitted, emitted, same, ih _ _ _ kept later]

end Pinrail.Lib

import Pinrail.Lib.Rust

/-!
# Loops

A loop is a step function on its state: a step either goes on with a new state, leaves the loop
with a result, or panics. It is run under a bound computed from the state it starts in, and the
rules below discharge the bound together with the invariant.
-/

namespace Pinrail.Lib

universe u
variable {σ ρ : Type u}

/-- Run at most `fuel` steps. -/
def loopFor (step : σ → Except Panic (σ ⊕ ρ)) : Nat → σ → Except Panic ρ
  | 0, _ => .error .outOfFuel
  | fuel + 1, s => do
    match ← step s with
    | .inl next => loopFor step fuel next
    | .inr result => return result

/-- Run until the loop is left; `work` bounds the number of steps that go on. -/
def loop (work : σ → Nat) (step : σ → Except Panic (σ ⊕ ρ)) (s : σ) : Except Panic ρ :=
  loopFor step (work s + 1) s

/-- What one step of a loop does: it goes on with less work and the invariant kept, or leaves with
a result, or panics, each as allowed. -/
def StepSpec (work : σ → Nat) (inv : σ → Prop) (post : ρ → Prop) (panics : Panic → Prop) (s : σ) :
    Except Panic (σ ⊕ ρ) → Prop
  | .ok (.inl next) => inv next ∧ work next < work s
  | .ok (.inr result) => post result
  | .error e => panics e

def EndSpec (post : ρ → Prop) (panics : Panic → Prop) : Except Panic ρ → Prop
  | .ok result => post result
  | .error e => panics e

section EndSpec

variable {α β : Type u} {post : α → Prop} {after : β → Prop} {panics : Panic → Prop}

theorem EndSpec.bind {x : Except Panic α} {f : α → Except Panic β} (first : EndSpec post panics x)
    (rest : ∀ a, post a → EndSpec after panics (f a)) : EndSpec after panics (x >>= f) := by
  cases x with
  | error e => exact first
  | ok a => exact rest a first

theorem EndSpec.mono {weaker : α → Prop} {x : Except Panic α} (ends : EndSpec post panics x)
    (implies : ∀ a, post a → weaker a) : EndSpec weaker panics x := by
  cases x with
  | error e => exact ends
  | ok a => exact implies a ends

theorem EndSpec.of_eq_ok {x : Except Panic α} {a : α} (ends : EndSpec post panics x) (eq : x = .ok a) : post a := by
  rw [eq] at ends
  exact ends

theorem EndSpec.ne_error {x : Except Panic α} {e : Panic} (ends : EndSpec post panics x)
    (refused : ¬ panics e) : x ≠ .error e := by
  rintro rfl
  exact refused ends

theorem StepSpec.of_endSpec {work : σ → Nat} {inv : σ → Prop} {left : ρ → Prop} {s : σ} {x : Except Panic (σ ⊕ ρ)}
    (ends : EndSpec (Sum.elim inv left) panics x) (decreases : ∀ next, x = .ok (.inl next) → work next < work s) :
    StepSpec work inv left panics s x := by
  cases x with
  | error e => exact ends
  | ok outcome =>
    cases outcome with
    | inl next => exact ⟨ends, decreases next rfl⟩
    | inr result => exact ends

end EndSpec

section Rules

variable {work : σ → Nat} {step : σ → Except Panic (σ ⊕ ρ)}

theorem loopFor_rule (inv : σ → Prop) (post : ρ → Prop) (panics : Panic → Prop)
    (spec : ∀ s, inv s → StepSpec work inv post panics s (step s)) (fuel : Nat) (s : σ) (holds : inv s)
    (enough : work s < fuel) : EndSpec post panics (loopFor step fuel s) := by
  induction fuel generalizing s with
  | zero => omega
  | succ fuel ih =>
    have one := spec s holds
    cases result : step s with
    | error e =>
      rw [result] at one
      simp only [loopFor, result, error_bind]
      exact one
    | ok next =>
      rw [result] at one
      simp only [loopFor, result, ok_bind]
      cases next with
      | inl next => exact ih next one.1 (by have := one.2; omega)
      | inr result => exact one

theorem loop_rule (inv : σ → Prop) (post : ρ → Prop) (panics : Panic → Prop)
    (spec : ∀ s, inv s → StepSpec work inv post panics s (step s)) (s : σ) (holds : inv s) :
    EndSpec post panics (loop work step s) :=
  loopFor_rule inv post panics spec (work s + 1) s holds (Nat.lt_succ_self _)

theorem loop_returns (inv : σ → Prop) (post : ρ → Prop)
    (spec : ∀ s, inv s → StepSpec work inv post (fun _ => False) s (step s)) (s : σ)
    (holds : inv s) : ∃ r, loop work step s = .ok r ∧ post r := by
  have ends := loop_rule inv post _ spec s holds
  cases outcome : loop work step s with
  | error e =>
    rw [outcome] at ends
    exact False.elim ends
  | ok r =>
    rw [outcome] at ends
    exact ⟨r, rfl, ends⟩

theorem loop_returns_of_decreases (decreases : ∀ s next, step s = .ok (.inl next) → work next < work s)
    (inv : σ → Prop) (post : ρ → Prop)
    (spec : ∀ s, inv s → (∃ next, step s = .ok (.inl next) ∧ inv next) ∨ ∃ r, step s = .ok (.inr r) ∧ post r)
    (s : σ) (holds : inv s) : ∃ r, loop work step s = .ok r ∧ post r := by
  refine loop_returns inv post (fun s holds => ?_) s holds
  rcases spec s holds with ⟨next, stepped, kept⟩ | ⟨r, stepped, left⟩
  · rw [stepped]
    exact ⟨kept, decreases s next stepped⟩
  · rw [stepped]
    exact left

theorem loop_preserves (inv : σ → Prop) (post : ρ → Prop)
    (goesOn : ∀ s next, inv s → step s = .ok (.inl next) → inv next)
    (leaves : ∀ s r, inv s → step s = .ok (.inr r) → post r) (s : σ) (holds : inv s) (r : ρ)
    (returned : loop work step s = .ok r) : post r := by
  unfold loop at returned
  generalize work s + 1 = fuel at returned
  induction fuel generalizing s with
  | zero => cases returned
  | succ fuel ih =>
    obtain ⟨next, stepped, rest⟩ := bind_eq_ok.mp returned
    cases next with
    | inl next => exact ih next (goesOn s next holds stepped) rest
    | inr result =>
      obtain rfl := pure_eq_ok.mp rest
      exact leaves s result holds stepped

end Rules

end Pinrail.Lib

/-! ## More fuel

A recursion on fuel that stops early says so with an error of its own. With more fuel it returns
what it did, unless it had stopped.
-/

namespace Pinrail.Lib

universe u v
variable {ε : Type u} {α : Type v} {β : Type v}

/-- `y` is what `x` is, unless `x` has stopped. -/
def Approximates (stop : ε) (x y : Except ε α) : Prop := x = .error stop ∨ x = y

namespace Approximates
variable {stop : ε} {x y z : Except ε α}

theorem stopped : Approximates stop (.error stop) x := .inl rfl

theorem refl : Approximates stop x x := .inr rfl

theorem trans (first : Approximates stop x y) (second : Approximates stop y z) : Approximates stop x z := by
  rcases first with stops | rfl
  · exact .inl stops
  · exact second

theorem bind {f g : α → Except ε β} (first : Approximates stop x y)
    (next : ∀ a, Approximates stop (f a) (g a)) : Approximates stop (x >>= f) (y >>= g) := by
  rcases first with rfl | rfl
  · exact .inl rfl
  · cases x with
    | error e => exact .inr rfl
    | ok a => exact next a

theorem eq_ok {a : α} (approximates : Approximates stop x y) (returned : x = .ok a) : y = .ok a := by
  rcases approximates with stops | same
  · rw [stops] at returned
    cases returned
  · exact same ▸ returned

theorem of_le {run : Nat → Except ε α} (step : ∀ fuel, Approximates stop (run fuel) (run (fuel + 1)))
    {less more : Nat} (le : less ≤ more) : Approximates stop (run less) (run more) := by
  induction le with
  | refl => exact refl
  | step _ ih => exact ih.trans (step _)

end Approximates

end Pinrail.Lib

import Mathlib.Data.List.Perm.Basic
import Pinrail.Lib.Loop
import Pinrail.Lib.Rust

/-!
# Iterators

An iterator is its `next` on a state. What it yields is the list of items up to the first `None`.
-/

namespace Pinrail.Lib

universe u
variable {α σ : Type u} {next : σ → Except Panic (Option α × σ)}

def Yields (next : σ → Except Panic (Option α × σ)) : σ → List α → Prop
  | s, [] => ∃ last, next s = .ok (none, last)
  | s, x :: xs => ∃ rest, next s = .ok (some x, rest) ∧ Yields next rest xs

theorem Yields.of_next_eq {s t : σ} (same : next s = next t) {xs : List α}
    (yields : Yields next t xs) : Yields next s xs := by
  cases xs with
  | nil =>
    obtain ⟨last, finished⟩ := yields
    exact ⟨last, same.trans finished⟩
  | cons x xs =>
    obtain ⟨rest, stepped, yields⟩ := yields
    exact ⟨rest, same.trans stepped, yields⟩

/-- `collect`, with a bound on the calls of `next`. -/
def drain (next : σ → Except Panic (Option α × σ)) : Nat → σ → Except Panic (List α)
  | 0, _ => .error .outOfFuel
  | fuel + 1, s => do
    match ← next s with
    | (none, _) => return []
    | (some x, rest) => return x :: (← drain next fuel rest)

theorem Yields.drain {xs : List α} {s : σ} {fuel : Nat} (yields : Yields next s xs)
    (enough : xs.length < fuel) : drain next fuel s = .ok xs := by
  induction xs generalizing s fuel with
  | nil =>
    obtain ⟨fuel, rfl⟩ := Nat.exists_eq_add_one.mpr enough
    obtain ⟨last, finished⟩ := yields
    rw [Lib.drain, finished, ok_bind]
    rfl
  | cons x xs ih =>
    obtain ⟨fuel, rfl⟩ := Nat.exists_eq_add_one.mpr (Nat.zero_lt_of_lt enough)
    obtain ⟨rest, stepped, yields⟩ := yields
    rw [Lib.drain, stepped, ok_bind]
    simp only [ih yields (by simpa using enough), ok_bind]
    rfl

end Pinrail.Lib

/-! ## Double-ended iterators

An iterator that can be called on either side. It stands for a list when each call takes the item
at that end of the list; then so does every interleaving of calls.
-/

namespace Pinrail.Lib

inductive Side where
  | front
  | back
deriving DecidableEq

universe u
variable {α σ : Type u}

def takeEnd : Side → List α → Option α × List α
  | .front, xs => (xs.head?, xs.tail)
  | .back, xs => (xs.getLast?, xs.dropLast)

def takeEnds : List Side → List α → List (Option α) × List α
  | [], xs => ([], xs)
  | side :: sides, xs =>
    let taken := takeEnd side xs
    let later := takeEnds sides taken.2
    (taken.1 :: later.1, later.2)

def calls (step : Side → σ → Except Panic (Option α × σ)) :
    List Side → σ → Except Panic (List (Option α) × σ)
  | [], s => return ([], s)
  | side :: sides, s => do
    let (item, next) ← step side s
    let (items, last) ← calls step sides next
    return (item :: items, last)

variable {step : Side → σ → Except Panic (Option α × σ)}

theorem calls_eq (Stands : σ → List α → Prop) (stepped : ∀ side s xs, Stands s xs →
      ∃ next, step side s = .ok ((takeEnd side xs).1, next) ∧ Stands next (takeEnd side xs).2)
    (sides : List Side) {s : σ} {xs : List α} (stands : Stands s xs) :
    ∃ last, calls step sides s = .ok ((takeEnds sides xs).1, last) ∧ Stands last (takeEnds sides xs).2 := by
  induction sides generalizing s xs with
  | nil => exact ⟨s, rfl, stands⟩
  | cons side sides ih =>
    obtain ⟨next, called, stands'⟩ := stepped side s xs stands
    obtain ⟨last, later, stands''⟩ := ih stands'
    refine ⟨last, ?_, stands''⟩
    rw [calls, called, ok_bind]
    simp only [later, ok_bind]
    rfl

theorem takeEnds_perm (sides : List Side) (xs : List α) :
    ((takeEnds sides xs).1.filterMap id ++ (takeEnds sides xs).2).Perm xs := by
  induction sides generalizing xs with
  | nil => exact List.Perm.refl xs
  | cons side sides ih =>
    have later := ih (takeEnd side xs).2
    cases side with
    | front =>
      cases xs with
      | nil => exact later
      | cons x xs => exact later.cons x
    | back =>
      rcases List.eq_nil_or_concat' xs with rfl | ⟨init, x, rfl⟩
      · exact later
      · have taken : takeEnd .back (init ++ [x]) = (some x, init) := by simp [takeEnd]
        rw [taken] at later
        rw [takeEnds, taken]
        exact (later.cons x).trans (List.perm_append_singleton x init).symm

theorem takeEnds_rest (sides : List Side) {xs : List α} (enough : xs.length ≤ sides.length) :
    (takeEnds sides xs).2 = [] := by
  induction sides generalizing xs with
  | nil => exact List.length_eq_zero_iff.mp (Nat.le_zero.mp enough)
  | cons side sides ih =>
    apply ih
    rw [List.length_cons] at enough
    cases side with
    | front =>
      rw [takeEnd, List.length_tail]
      exact Nat.sub_le_of_le_add enough
    | back =>
      rw [takeEnd, List.length_dropLast]
      exact Nat.sub_le_of_le_add enough

theorem takeEnds_all (sides : List Side) {xs : List α} (enough : xs.length ≤ sides.length) :
    ((takeEnds sides xs).1.filterMap id).Perm xs := by
  have whole := takeEnds_perm sides xs
  rwa [takeEnds_rest sides enough, List.append_nil] at whole

end Pinrail.Lib

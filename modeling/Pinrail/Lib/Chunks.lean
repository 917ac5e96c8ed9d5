import Mathlib.Data.List.Basic

/-!
# Chunks of a list

`chunks n` of an order-preserving iterator: full chunks of `n` elements and, at the end, what is
left over.
-/

namespace Pinrail.Lib

universe u
variable {α : Type u}

/-- Chunks of `rest`, the first of which starts with `current`. -/
def chunksFrom (n : Nat) (current : List α) : List α → List (List α)
  | [] => if current.isEmpty then [] else [current]
  | x :: rest =>
    if (current ++ [x]).length = n then (current ++ [x]) :: chunksFrom n [] rest
    else chunksFrom n (current ++ [x]) rest

def chunks (n : Nat) (xs : List α) : List (List α) := chunksFrom n [] xs

theorem chunksFrom_flatten (n : Nat) (current rest : List α) :
    (chunksFrom n current rest).flatten = current ++ rest := by
  induction rest generalizing current with
  | nil => by_cases empty : current = [] <;> simp [chunksFrom, empty]
  | cons x rest ih =>
    rw [chunksFrom]
    split_ifs with full
    · simp [ih]
    · simp [ih]

theorem chunksFrom_mem (n : Nat) (current rest : List α) (room : current.length < n) :
    ∀ chunk ∈ chunksFrom n current rest, chunk ≠ [] ∧ chunk.length ≤ n := by
  induction rest generalizing current with
  | nil =>
    intro chunk mem
    by_cases empty : current = []
    · simp [chunksFrom, empty] at mem
    · obtain rfl : chunk = current := by simpa [chunksFrom, empty] using mem
      exact ⟨empty, Nat.le_of_lt room⟩
  | cons x rest ih =>
    intro chunk mem
    rw [chunksFrom] at mem
    split_ifs at mem with full
    · rcases List.mem_cons.mp mem with rfl | mem
      · exact ⟨by simp, Nat.le_of_eq full⟩
      · exact ih [] (by simp; omega) chunk mem
    · refine ih (current ++ [x]) ?_ chunk mem
      simp only [List.length_append, List.length_singleton] at full ⊢
      omega

theorem chunksFrom_length (n : Nat) (current rest : List α) (room : current.length < n) :
    n * (chunksFrom n current rest).length + 1 ≤ current.length + rest.length + n := by
  induction rest generalizing current with
  | nil =>
    by_cases empty : current = []
    · simp [chunksFrom, empty]
      omega
    · have := List.length_pos_iff.mpr empty
      simp [chunksFrom, empty]
      omega
  | cons x rest ih =>
    rw [chunksFrom]
    split_ifs with full
    · have bound := ih [] (by simp; omega)
      simp only [List.length_append, List.length_cons, List.length_nil, Nat.mul_add, Nat.mul_one] at full bound ⊢
      omega
    · simp only [List.length_append, List.length_singleton] at full
      have bound := ih (current ++ [x]) (by simp; omega)
      simp only [List.length_append, List.length_cons, List.length_nil] at bound ⊢
      omega

theorem chunks_flatten (n : Nat) (xs : List α) : (chunks n xs).flatten = xs := chunksFrom_flatten n [] xs

theorem chunks_mem {n : Nat} (positive : 0 < n) (xs : List α) : ∀ chunk ∈ chunks n xs, chunk ≠ [] ∧ chunk.length ≤ n :=
  chunksFrom_mem n [] xs positive

theorem chunks_length {n : Nat} (positive : 0 < n) (xs : List α) : n * (chunks n xs).length + 1 ≤ xs.length + n := by
  simpa [chunks] using chunksFrom_length n [] xs positive

end Pinrail.Lib

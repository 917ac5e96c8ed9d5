import Mathlib.Data.List.Lex
import Mathlib.Data.List.TakeWhile
import Mathlib.Order.Lattice

/-!
# Blocks of a list

When the elements with a property stand next to each other, in a list in strict order; and the words
with one stem in the lexicographic order.
-/

namespace Pinrail.Lib

variable {α κ : Type} [LinearOrder κ] {p : α → Prop}

def Block (p : α → Prop) (xs : List α) : Prop :=
  ∃ front block back, xs = front ++ block ++ back ∧ (∀ x ∈ block, p x) ∧ ∀ x ∈ front ++ back, ¬ p x

theorem block_iff_between {rank : α → κ} {xs : List α} (sorted : xs.Pairwise fun a b => rank a < rank b) :
    Block p xs ↔ ∀ a ∈ xs, ∀ y ∈ xs, ∀ b ∈ xs, p a → p b → rank a < rank y → rank y < rank b → p y := by
  constructor
  · rintro ⟨front, block, back, rfl, inside, outside⟩ a aMem y yMem b bMem pa pb low high
    have within : ∀ x ∈ front ++ block ++ back, p x → x ∈ block := by
      intro x mem px
      by_contra out
      refine outside x ?_ px
      simp only [List.mem_append] at mem ⊢
      tauto
    obtain ⟨sorted, -, beforeBack⟩ := List.pairwise_append.mp sorted
    obtain ⟨-, -, beforeBlock⟩ := List.pairwise_append.mp sorted
    rcases List.mem_append.mp yMem with yMem | yMem
    · rcases List.mem_append.mp yMem with yMem | yMem
      · exact absurd (beforeBlock y yMem a (within a aMem pa)) low.not_gt
      · exact inside y yMem
    · refine absurd (beforeBack b ?_ y yMem) high.not_gt
      exact List.mem_append_right _ (within b bMem pb)
  · intro between
    classical
    obtain ⟨front, rest, rfl, outside, starts⟩ : ∃ front rest, xs = front ++ rest ∧
        (∀ x ∈ front, ¬ p x) ∧ ∀ x, rest.head? = some x → p x := by
      refine ⟨xs.takeWhile (¬ p ·), xs.dropWhile (¬ p ·), (List.takeWhile_append_dropWhile).symm,
        fun x mem => by simpa using List.mem_takeWhile_imp mem, fun x head => ?_⟩
      have first := List.head?_dropWhile_not (fun x => decide (¬ p x)) xs
      rw [head] at first
      simpa using first
    refine ⟨front, rest.takeWhile (p ·), rest.dropWhile (p ·), ?_, ?_, ?_⟩
    · rw [List.append_assoc, List.takeWhile_append_dropWhile]
    · exact fun x mem => by simpa using List.mem_takeWhile_imp mem
    · intro x mem px
      rcases List.mem_append.mp mem with mem | mem
      · exact outside x mem px
      · -- The first element behind the block stands between the first one in it and `x`.
        obtain ⟨a, others, split⟩ : ∃ a others, rest = a :: others :=
          List.exists_cons_of_ne_nil (List.ne_nil_of_mem ((List.dropWhile_sublist _).mem mem))
        have pa : p a := starts a (by rw [split]; rfl)
        obtain ⟨y, later, behind⟩ : ∃ y later, rest.dropWhile (p ·) = y :: later :=
          List.exists_cons_of_ne_nil (List.ne_nil_of_mem mem)
        have py : ¬ p y := by
          have first := List.head?_dropWhile_not (fun x => decide (p x)) rest
          rw [behind] at first
          simpa using first
        have tail : ∃ block, rest = a :: block ++ y :: later := by
          refine ⟨others.takeWhile (p ·), ?_⟩
          rw [← behind, split, List.dropWhile_cons_of_pos (by simpa using pa), List.cons_append,
            List.takeWhile_append_dropWhile]
        obtain ⟨block, rfl⟩ := tail
        rw [behind] at mem
        have sorted := (List.pairwise_append.mp sorted).2.1
        obtain ⟨-, after, across⟩ := List.pairwise_append.mp sorted
        have high : rank y < rank x := by
          refine (List.pairwise_cons.mp after).1 x ((List.mem_cons.mp mem).resolve_left ?_)
          rintro rfl
          exact py px
        have low : rank a < rank y := across a List.mem_cons_self y List.mem_cons_self
        refine absurd (between a (by simp) y (by simp) x ?_ pa px low high) py
        exact List.mem_append_right _ (List.mem_append_right _ mem)

theorem le_of_cons_le {first letter : κ} {low word : List κ} (le : first :: low ≤ letter :: word) : first ≤ letter := by
  by_contra less
  exact absurd le (not_le.mpr (List.Lex.rel (not_le.mp less)))

theorem tail_le_of_cons_le {first : κ} {low word : List κ} (le : first :: low ≤ first :: word) : low ≤ word := by
  by_contra less
  exact absurd le (not_le.mpr (List.Lex.cons (not_le.mp less)))

theorem prefix_of_between {stem low word high : List κ} (le : low ≤ word) (ge : word ≤ high)
    (left : stem <+: low) (right : stem <+: high) : stem <+: word := by
  induction stem generalizing low word high with
  | nil => exact List.nil_prefix
  | cons first stem ih =>
    obtain ⟨low, rfl⟩ := left
    obtain ⟨high, rfl⟩ := right
    cases word with
    | nil => exact absurd le (not_le.mpr List.Lex.nil)
    | cons letter word =>
      obtain rfl := le_antisymm (le_of_cons_le le) (le_of_cons_le ge)
      have stemmed := ih (tail_le_of_cons_le le) (tail_le_of_cons_le ge)
        (List.prefix_append _ _) (List.prefix_append _ _)
      exact (List.prefix_cons_inj first).mpr stemmed

end Pinrail.Lib

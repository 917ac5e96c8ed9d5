import Mathlib.Data.List.Perm.Basic
import Mathlib.Logic.Function.Basic

/-!
# Merges by cuts

Several lists are merged by cutting off fronts, now of one list and now of another. When every front
stands before all that is left, the fronts one after the other are in order.
-/

namespace Pinrail.Lib
open Function

variable {α κ : Type} [DecidableEq κ] {before : α → α → Prop} {lists : κ → List α}
  {cuts : List (κ × List α)}

inductive CutOff (before : α → α → Prop) : (κ → List α) → List (κ × List α) → Prop where
  | done {lists : κ → List α} (empty : ∀ k, lists k = []) : CutOff before lists []
  | cut {lists : κ → List α} {k : κ} {front back : List α} {cuts : List (κ × List α)} (split : lists k = front ++ back)
      (first : ∀ x ∈ front, ∀ j, ∀ y ∈ update lists k back j, before x y)
      (others : CutOff before (update lists k back) cuts) : CutOff before lists ((k, front) :: cuts)

theorem CutOff.mem (cutOff : CutOff before lists cuts) {x : α} (member : x ∈ cuts.flatMap Prod.snd) :
    ∃ k, x ∈ lists k := by
  induction cutOff with
  | done empty => cases member
  | @cut lists k front back cuts split first others ih =>
    rcases List.mem_append.mp member with member | member
    · exact ⟨k, by rw [split]; exact List.mem_append_left _ member⟩
    · obtain ⟨j, member⟩ := ih member
      by_cases same : j = k
      · subst same
        rw [update_self] at member
        exact ⟨j, by rw [split]; exact List.mem_append_right _ member⟩
      · rw [update_of_ne same] at member
        exact ⟨j, member⟩

theorem CutOff.sorted (cutOff : CutOff before lists cuts) (sorted : ∀ k, (lists k).Pairwise before) :
    (cuts.flatMap Prod.snd).Pairwise before := by
  induction cutOff with
  | done empty => exact .nil
  | @cut lists k front back cuts split first others ih =>
    have whole := sorted k
    rw [split] at whole
    obtain ⟨inFront, inBack, -⟩ := List.pairwise_append.mp whole
    refine List.pairwise_append.mpr ⟨inFront, ih ?_, ?_⟩
    · intro j
      by_cases same : j = k
      · subst same
        rw [update_self]
        exact inBack
      · rw [update_of_ne same]
        exact sorted j
    · intro x mx y my
      obtain ⟨j, member⟩ := others.mem my
      exact first x mx j y member

theorem CutOff.perm (cutOff : CutOff before lists cuts) {keys : List κ} (nodup : keys.Nodup)
    (all : ∀ k, k ∈ keys) : (cuts.flatMap Prod.snd).Perm (keys.flatMap lists) := by
  induction cutOff with
  | done empty =>
    have nothing : keys.flatMap _ = [] := List.flatMap_eq_nil_iff.mpr fun k _ => empty k
    rw [nothing]
    exact .refl _
  | @cut lists k front back cuts split first others ih =>
    obtain ⟨left, right, rfl⟩ := List.append_of_mem (all k)
    obtain ⟨-, right', apart⟩ := List.nodup_append.mp nodup
    have notLeft : ∀ j ∈ left, update lists k back j = lists j := fun j member =>
      update_of_ne (apart j member k (by simp)) _ _
    have notRight : ∀ j ∈ right, update lists k back j = lists j := by
      intro j member
      apply update_of_ne
      rintro rfl
      exact (List.nodup_cons.mp right').1 member
    rw [List.flatMap_append, List.flatMap_cons, update_self, List.flatMap_congr notLeft,
      List.flatMap_congr notRight] at ih
    rw [List.flatMap_append, List.flatMap_cons, List.flatMap_cons, split, List.append_assoc]
    calc (front ++ cuts.flatMap Prod.snd).Perm
          (front ++ (left.flatMap lists ++ (back ++ right.flatMap lists))) := ih.append_left front
      List.Perm _ (left.flatMap lists ++ (front ++ (back ++ right.flatMap lists))) := by
        rw [← List.append_assoc, ← List.append_assoc (left.flatMap lists)]
        exact List.perm_append_comm.append_right _

end Pinrail.Lib

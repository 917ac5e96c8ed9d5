import Mathlib.Data.List.Basic
import Mathlib.Data.List.Nodup

/-!
# Association lists

A list of pairs in which a key is assigned in place where it stands already, and at the end
otherwise.
-/

namespace Pinrail.Lib

universe u v
variable {κ : Type u} {β : Type v} [DecidableEq κ]

/-- Assigns `value` to `key`. -/
def upsert (key : κ) (value : β) (pairs : List (κ × β)) : List (κ × β) :=
  match pairs.findIdx? fun pair => pair.1 = key with
  | some idx => pairs.modify idx fun pair => (pair.1, value)
  | none => pairs ++ [(key, value)]

def valueOf (key : κ) (pairs : List (κ × β)) : Option β :=
  (pairs.find? fun pair => pair.1 = key).map Prod.snd

variable {key other : κ} {value : β} {pairs : List (κ × β)}

theorem upsert_nil : upsert key value ([] : List (κ × β)) = [(key, value)] := rfl

theorem upsert_cons (pair : κ × β) : upsert key value (pair :: pairs) =
    if pair.1 = key then (pair.1, value) :: pairs else pair :: upsert key value pairs := by
  unfold upsert
  rw [List.findIdx?_cons]
  by_cases same : pair.1 = key
  · simp [same]
  · cases found : pairs.findIdx? fun pair => pair.1 = key with
    | none => simp [same]
    | some idx => simp [same]

theorem valueOf_cons (pair : κ × β) : valueOf key (pair :: pairs) =
    if pair.1 = key then some pair.2 else valueOf key pairs := by
  unfold valueOf
  rw [List.find?_cons]
  by_cases same : pair.1 = key <;> simp [same]

theorem valueOf_upsert : valueOf other (upsert key value pairs) =
    if key = other then some value else valueOf other pairs := by
  induction pairs with
  | nil => rw [upsert_nil, valueOf_cons]
  | cons pair pairs ih =>
    rw [upsert_cons]
    split_ifs with same found found
    · rw [valueOf_cons, if_pos (same.trans found)]
    · rw [valueOf_cons, valueOf_cons, if_neg, if_neg]
      all_goals exact fun eq => found (same.symm.trans eq)
    · rw [valueOf_cons, if_neg fun eq => same (eq.trans found.symm), ih, if_pos found]
    · rw [valueOf_cons, valueOf_cons, ih, if_neg found]

theorem mem_keys_upsert : other ∈ (upsert key value pairs).map Prod.fst ↔ other = key ∨ other ∈ pairs.map Prod.fst := by
  induction pairs with
  | nil => simp [upsert_nil]
  | cons pair pairs ih =>
    rw [upsert_cons]
    split_ifs with same
    · simp only [List.map_cons, List.mem_cons, same]
      tauto
    · simp only [List.map_cons, List.mem_cons, ih]
      tauto

theorem nodup_keys_upsert (nodup : (pairs.map Prod.fst).Nodup) : ((upsert key value pairs).map Prod.fst).Nodup := by
  induction pairs with
  | nil => simp [upsert_nil]
  | cons pair pairs ih =>
    rw [List.map_cons, List.nodup_cons] at nodup
    rw [upsert_cons]
    split_ifs with same
    · exact List.nodup_cons.mpr nodup
    · rw [List.map_cons, List.nodup_cons, mem_keys_upsert]
      refine ⟨?_, ih nodup.2⟩
      rintro (eq | member)
      · exact same eq
      · exact nodup.1 member

theorem mem_of_valueOf (found : valueOf key pairs = some value) : (key, value) ∈ pairs := by
  obtain ⟨pair, at_, rfl⟩ := Option.map_eq_some_iff.mp found
  have same : pair.1 = key := by simpa using List.find?_some at_
  rw [← same]
  exact List.mem_of_find?_eq_some at_

theorem valueOf_of_mem (nodup : (pairs.map Prod.fst).Nodup) (member : (key, value) ∈ pairs) :
    valueOf key pairs = some value := by
  induction pairs with
  | nil => cases member
  | cons pair pairs ih =>
    rw [List.map_cons, List.nodup_cons] at nodup
    rw [valueOf_cons]
    rcases List.mem_cons.mp member with rfl | member
    · exact if_pos rfl
    · rw [if_neg, ih nodup.2 member]
      rintro rfl
      exact nodup.1 (List.mem_map.mpr ⟨_, member, rfl⟩)

theorem valueOf_perm {others : List (κ × β)} (perm : others.Perm pairs)
    (nodup : (pairs.map Prod.fst).Nodup) : valueOf key others = valueOf key pairs := by
  have nodup' : (others.map Prod.fst).Nodup := (perm.map Prod.fst).nodup_iff.mpr nodup
  ext value
  constructor
  · intro found
    exact valueOf_of_mem nodup (perm.mem_iff.mp (mem_of_valueOf found))
  · intro found
    exact valueOf_of_mem nodup' (perm.mem_iff.mpr (mem_of_valueOf found))

theorem perm_cons_filter (nodup : (pairs.map Prod.fst).Nodup) (member : (key, value) ∈ pairs) :
    pairs.Perm ((key, value) :: pairs.filter fun pair => pair.1 ≠ key) := by
  induction pairs with
  | nil => cases member
  | cons pair pairs ih =>
    rw [List.map_cons, List.nodup_cons] at nodup
    rcases List.mem_cons.mp member with rfl | member
    · have others : ∀ pair ∈ pairs, pair.1 ≠ key := by
        intro pair inside same
        exact nodup.1 (List.mem_map.mpr ⟨pair, inside, same⟩)
      rw [List.filter_cons_of_neg (by simp), List.filter_eq_self.mpr (by simpa using others)]
    · have other : pair.1 ≠ key := by
        intro same
        exact nodup.1 (List.mem_map.mpr ⟨_, member, same.symm⟩)
      rw [List.filter_cons_of_pos (by simpa using other)]
      exact ((ih nodup.2 member).cons pair).trans (List.Perm.swap _ _ _)

end Pinrail.Lib

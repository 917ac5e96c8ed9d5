import Mathlib.Algebra.Order.BigOperators.Group.List
import Mathlib.Algebra.Order.Group.Nat
import Mathlib.Logic.Relation
import Mathlib.Tactic.Common
import Pinrail.Lib.Loop

/-!
# Worklists

Items are collected from some roots with what they expand to. Two items of one key are the same, and an
item that cannot be expanded ends the collection.
-/

namespace Pinrail.Lib

universe u
variable {α κ ε : Type u} [DecidableEq κ] (key : α → κ) (expand : α → Except ε (List α)) (domain : List α)

def successors (item : α) : List α :=
  match expand item with
  | .ok more => more
  | .error _ => []

/-- The last of the pending items is taken. The state is the pending items and the collected ones. -/
def collectStep : List α × List α → Except Panic ((List α × List α) ⊕ Except ε (List α))
  | (pending, reached) =>
    match pending.getLast? with
    | none => .ok (.inr (.ok reached))
    | some item =>
      if key item ∈ reached.map key then .ok (.inl (pending.dropLast, reached))
      else
        match expand item with
        | .error error => .ok (.inr (.error error))
        | .ok more => .ok (.inl (pending.dropLast ++ more, reached ++ [item]))

/-- The pending items, and what the items of the domain that are not collected expand to. -/
def collectWork : List α × List α → Nat
  | (pending, reached) => pending.length +
      ((domain.filter fun item => key item ∉ reached.map key).map fun item => (successors expand item).length).sum

/-- The items that can be collected from `roots` in `domain`. -/
def collectFrom (roots : List α) : Except Panic (Except ε (List α)) :=
  loop (collectWork key expand domain) (collectStep key expand) (roots, [])

structure Collected (roots reached : List α) : Prop where
  rooted : ∀ root ∈ roots, root ∈ reached
  expanded : ∀ item ∈ reached, ∃ more, expand item = .ok more ∧ ∀ next ∈ more, next ∈ reached
  sound : ∀ item ∈ reached, ∃ root ∈ roots, Relation.ReflTransGen (fun item next => next ∈ successors expand item) root item

structure Collecting (roots : List α) (state : List α × List α) : Prop where
  inside : ∀ item ∈ state.1 ++ state.2, item ∈ domain
  rooted : ∀ root ∈ roots, root ∈ state.1 ++ state.2
  expanded : ∀ item ∈ state.2, ∃ more, expand item = .ok more ∧ ∀ next ∈ more, next ∈ state.1 ++ state.2
  sound : ∀ item ∈ state.1 ++ state.2, ∃ root ∈ roots,
    Relation.ReflTransGen (fun item next => next ∈ successors expand item) root item

variable {key expand domain} {roots : List α}

theorem sum_filter_add_le {items : List α} {item : α} (weight : α → Nat) {p : α → Bool} (member : item ∈ items)
    (out : p item = false) : ((items.filter p).map weight).sum + weight item ≤ (items.map weight).sum := by
  induction items with
  | nil => cases member
  | cons head tail ih =>
    rcases List.mem_cons.mp member with rfl | member
    · have rest : ((tail.filter p).map weight).sum ≤ (tail.map weight).sum :=
        (List.filter_sublist.map weight).sum_le_sum fun _ _ => Nat.zero_le _
      simp only [List.filter_cons, out, Bool.false_eq_true, if_false, List.map_cons, List.sum_cons]
      omega
    · have rest := ih member
      by_cases holds : p head = true
      · simp only [List.filter_cons, holds, if_true, List.map_cons, List.sum_cons]
        omega
      · rw [Bool.not_eq_true] at holds
        simp only [List.filter_cons, holds, Bool.false_eq_true, if_false, List.map_cons, List.sum_cons]
        omega

theorem collectWork_reached (pending : List α) {reached : List α} {item : α} {more : List α} (member : item ∈ domain)
    (fresh : key item ∉ reached.map key) (expanded : expand item = .ok more) :
    collectWork key expand domain (pending ++ more, reached ++ [item]) ≤
      collectWork key expand domain (pending, reached) := by
  have found : item ∈ domain.filter fun item => key item ∉ reached.map key := by
    rw [List.mem_filter]
    exact ⟨member, by simpa using fresh⟩
  have fewer := sum_filter_add_le (fun item => (successors expand item).length)
    (p := fun other => key other ≠ key item) found (by simp)
  have same : (domain.filter fun item => key item ∉ reached.map key).filter (fun other => key other ≠ key item) =
      domain.filter fun other => key other ∉ (reached ++ [item]).map key := by
    rw [List.filter_filter]
    congr 1
    funext other
    rw [List.map_append, List.map_singleton, Bool.eq_iff_iff]
    simp [and_comm]
  have size : (successors expand item).length = more.length := by rw [successors, expanded]
  rw [same, size] at fewer
  simp only [collectWork, List.length_append]
  omega

theorem collectStep_spec (inside : ∀ item ∈ domain, ∀ next ∈ successors expand item, next ∈ domain)
    (distinct : ∀ item ∈ domain, ∀ other ∈ domain, key item = key other → item = other) (state : List α × List α)
    (collecting : Collecting expand domain roots state) : StepSpec (collectWork key expand domain)
    (Collecting expand domain roots) (fun result => ∀ reached, result = .ok reached → Collected expand roots reached)
    (fun _ => False) state (collectStep key expand state) := by
  obtain ⟨pending, reached⟩ := state
  obtain ⟨within, rooted, expanded, sound⟩ := collecting
  dsimp only at within rooted expanded sound
  unfold collectStep
  cases ends : pending.getLast? with
  | none =>
    obtain rfl := List.getLast?_eq_none_iff.mp ends
    intro result same
    cases same
    exact ⟨rooted, expanded, sound⟩
  | some item =>
    have whole := List.dropLast_append_getLast? _ ends
    have shorter : pending.dropLast.length + 1 = pending.length := by
      rw [← whole]
      simp
    have here : item ∈ pending := List.mem_of_getLast? ends
    have split {other : α} (member : other ∈ pending ++ reached) :
        other ∈ pending.dropLast ++ reached ∨ other = item := by
      rw [← whole] at member
      simpa [or_comm, or_assoc, or_left_comm] using member
    have back {other : α} (member : other ∈ pending.dropLast ++ reached) : other ∈ pending ++ reached := by
      rcases List.mem_append.mp member with member | member
      · exact List.mem_append_left _ ((List.dropLast_sublist pending).subset member)
      · exact List.mem_append_right _ member
    simp only [ends]
    split_ifs with seen
    · -- The item of this key is collected already.
      obtain ⟨other, member, same⟩ := List.mem_map.mp seen
      obtain rfl : other = item := distinct other (within other (List.mem_append_right _ member)) item
          (within item (List.mem_append_left _ here)) same
      have kept {next : α} (inside : next ∈ pending ++ reached) : next ∈ pending.dropLast ++ reached := by
        rcases split inside with inside | rfl
        · exact inside
        · exact List.mem_append_right _ member
      refine ⟨⟨fun next member => within next (back member), fun root member => kept (rooted root member), ?_,
        fun next member => sound next (back member)⟩, ?_⟩
      · intro next member
        obtain ⟨more, expands, all⟩ := expanded next member
        exact ⟨more, expands, fun after member => kept (all after member)⟩
      · simp only [collectWork]
        omega
    · cases expands : expand item with
      | error error =>
        intro result same
        cases same
      | ok more =>
        have successors_eq : successors expand item = more := by rw [successors, expands]
        have grown {next : α} (inside : next ∈ pending ++ reached) :
            next ∈ (pending.dropLast ++ more) ++ (reached ++ [item]) := by
          rcases split inside with inside | rfl
          · rcases List.mem_append.mp inside with inside | inside
            · exact List.mem_append_left _ (List.mem_append_left _ inside)
            · exact List.mem_append_right _ (List.mem_append_left _ inside)
          · exact List.mem_append_right _ (List.mem_append_right _ (List.mem_singleton.mpr rfl))
        have origin {next : α} (inside : next ∈ (pending.dropLast ++ more) ++ (reached ++ [item])) :
            next ∈ pending ++ reached ∨ next ∈ more := by
          simp only [List.mem_append, List.mem_singleton] at inside ⊢
          rcases inside with (inside | inside) | inside | rfl
          · exact .inl (.inl ((List.dropLast_sublist pending).subset inside))
          · exact .inr inside
          · exact .inl (.inr inside)
          · exact .inl (.inl here)
        have itemInside := within item (List.mem_append_left _ here)
        refine ⟨⟨?_, fun root member => grown (rooted root member), ?_, ?_⟩, ?_⟩
        · intro next member
          rcases origin member with member | member
          · exact within next member
          · exact inside item itemInside next (successors_eq ▸ member)
        · intro next member
          rcases List.mem_append.mp member with member | member
          · obtain ⟨after, expands, all⟩ := expanded next member
            exact ⟨after, expands, fun after member => grown (all after member)⟩
          · cases List.mem_singleton.mp member
            exact ⟨more, expands, fun after member =>
              List.mem_append_left _ (List.mem_append_right _ member)⟩
        · intro next member
          rcases origin member with member | member
          · exact sound next member
          · obtain ⟨root, start, path⟩ := sound item (List.mem_append_left _ here)
            exact ⟨root, start, path.tail (successors_eq ▸ member)⟩
        · have := collectWork_reached pending.dropLast itemInside seen expands
          refine this.trans_lt ?_
          simp only [collectWork]
          omega

theorem collectFrom_returns (inside : ∀ item ∈ domain, ∀ next ∈ successors expand item, next ∈ domain)
    (distinct : ∀ item ∈ domain, ∀ other ∈ domain, key item = key other → item = other)
    (rooted : ∀ root ∈ roots, root ∈ domain) : ∃ result, collectFrom key expand domain roots = .ok result ∧ ∀ reached,
    result = .ok reached → Collected expand roots reached := by
  refine loop_returns (Collecting expand domain roots) _ (collectStep_spec inside distinct) _ ?_
  refine ⟨?_, ?_, nofun, ?_⟩
  · simpa using rooted
  · simp
  · intro item member
    exact ⟨item, by simpa using member, .refl⟩

end Pinrail.Lib

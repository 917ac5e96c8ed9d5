import Mathlib.Data.List.Flatten
import Mathlib.Data.List.Forall2
import Pinrail.Geometry.BoundsTree

/-!
# Subtrees of a bounds tree

A node of the arena is the root of a subtree. What the search relies on is said once for every
internal node: its bounds and order bound those of its children, whose last has its order. The
search then finds the highest order among the leaves that meet the query, whatever it prunes. The bounds
of all nodes are of a family.
-/

namespace Pinrail.Geometry

open Lib

variable {U : Type} [Add U] [LinearOrder U]

structure Part (U : Type) where
  index : Nat
  bounds : Bounds U
  maxOrder : Nat
  indices : List Nat
  leaves : List (Bounds U × Nat)

structure Gathers (bounds : Bounds U) (maxOrder : Nat) (parts : List (Part U)) : Prop where
  several : 2 ≤ parts.length
  fits : parts.length ≤ maxChildren
  within : ∀ part ∈ parts, part.bounds.Within bounds
  le : ∀ part ∈ parts, part.maxOrder ≤ maxOrder
  last : ∃ part, parts.getLast? = some part ∧ part.maxOrder = maxOrder

inductive Subtree (kept : Bounds U → Prop) (nodes : List (Node U)) : Part U → Prop
  | leaf {index : Nat} {bounds : Bounds U} {order : Nat} (isKept : kept bounds)
      (stored : nodes[index]? = some ⟨bounds, order, .leaf order⟩) :
      Subtree kept nodes ⟨index, bounds, order, [index], [(bounds, order)]⟩
  | internal {index : Nat} {bounds : Bounds U} {maxOrder : Nat} {parts : List (Part U)} (isKept : kept bounds)
      (stored : nodes[index]? = some ⟨bounds, maxOrder, .internal (parts.map Part.index)⟩)
      (below : ∀ part ∈ parts, Subtree kept nodes part) (gathers : Gathers bounds maxOrder parts) :
      Subtree kept nodes ⟨index, bounds, maxOrder, index :: parts.flatMap Part.indices, parts.flatMap Part.leaves⟩

variable {kept : Bounds U → Prop} {nodes nodes' : List (Node U)} {part : Part U}

namespace Subtree

theorem isKept (subtree : Subtree kept nodes part) : kept part.bounds := by
  cases subtree with
  | leaf isKept stored => exact isKept
  | internal isKept stored below gathers => exact isKept

theorem stored (subtree : Subtree kept nodes part) :
    ∃ kind, nodes[part.index]? = some ⟨part.bounds, part.maxOrder, kind⟩ := by
  cases subtree with
  | leaf isKept stored => exact ⟨_, stored⟩
  | internal isKept stored below gathers => exact ⟨_, stored⟩

theorem eq_leaf (subtree : Subtree kept nodes part) {bounds : Bounds U} {maxOrder order : Nat}
    (at_ : nodes[part.index]? = some ⟨bounds, maxOrder, .leaf order⟩) :
    maxOrder = order ∧ part = ⟨part.index, bounds, order, [part.index], [(bounds, order)]⟩ := by
  cases subtree with
  | leaf isKept stored =>
    cases at_.symm.trans stored
    exact ⟨rfl, rfl⟩
  | internal isKept stored below gathers => cases at_.symm.trans stored

theorem index_mem (subtree : Subtree kept nodes part) : part.index ∈ part.indices := by
  cases subtree <;> simp

theorem lt_length (subtree : Subtree kept nodes part) : ∀ i ∈ part.indices, i < nodes.length := by
  induction subtree with
  | leaf isKept stored =>
    intro i mem
    rw [List.mem_singleton.mp mem]
    exact (List.getElem?_eq_some_iff.mp stored).1
  | internal isKept stored below gathers ih =>
    intro i mem
    rcases List.mem_cons.mp mem with rfl | mem
    · exact (List.getElem?_eq_some_iff.mp stored).1
    · obtain ⟨part, partMem, mem⟩ := List.mem_flatMap.mp mem
      exact ih part partMem i mem

theorem leaf_le (subtree : Subtree kept nodes part) :
    ∀ leaf ∈ part.leaves, leaf.1.Within part.bounds ∧ leaf.2 ≤ part.maxOrder := by
  induction subtree with
  | leaf isKept stored =>
    intro leaf mem
    rw [List.mem_singleton.mp mem]
    exact ⟨.refl _, Nat.le_refl _⟩
  | internal isKept stored below gathers ih =>
    intro leaf mem
    obtain ⟨part, partMem, mem⟩ := List.mem_flatMap.mp mem
    obtain ⟨within, le⟩ := ih part partMem leaf mem
    exact ⟨within.trans (gathers.within part partMem), le.trans (gathers.le part partMem)⟩

theorem frame (subtree : Subtree kept nodes part) (same : ∀ i ∈ part.indices, nodes'[i]? = nodes[i]?) :
    Subtree kept nodes' part := by
  induction subtree with
  | leaf isKept stored => exact .leaf isKept ((same _ (by simp)).trans stored)
  | internal isKept stored below gathers ih =>
    refine .internal isKept ((same _ (by simp)).trans stored) (fun part mem => ih part mem ?_) gathers
    intro i here
    exact same i (List.mem_cons_of_mem _ (List.mem_flatMap.mpr ⟨part, mem, here⟩))

end Subtree

/-! ## The highest order that meets a query -/

def highest (query : Bounds U) (leaves : List (Bounds U × Nat)) : Nat :=
  ((leaves.filter fun leaf => leaf.1.intersects query).map Prod.snd).foldr max 0

theorem highest_le {query : Bounds U} {leaves : List (Bounds U × Nat)} {m : Nat} :
    highest query leaves ≤ m ↔ ∀ leaf ∈ leaves, leaf.1.intersects query = true → leaf.2 ≤ m := by
  unfold highest
  induction leaves with
  | nil => simp
  | cons leaf leaves ih =>
    rw [List.filter_cons, List.forall_mem_cons]
    split_ifs with meets
    · rw [List.map_cons, List.foldr_cons, Nat.max_le, ih]
      simp [meets]
    · rw [ih]
      simp [meets]

theorem highest_cons {query : Bounds U} {leaf : Bounds U × Nat} {leaves : List (Bounds U × Nat)}
    (meets : leaf.1.intersects query = true) : highest query (leaf :: leaves) = max leaf.2 (highest query leaves) := by
  simp only [highest, List.filter_cons, meets, if_true, List.map_cons, List.foldr_cons]

theorem max_highest_eq {query : Bounds U} {few many : List (Bounds U × Nat)} {found : Nat}
    (subset : few ⊆ many) (pruned : ∀ leaf ∈ many, leaf.1.intersects query = true → leaf ∈ few ∨ leaf.2 ≤ found) :
    max found (highest query few) = max found (highest query many) := by
  apply eq_of_forall_ge_iff
  intro m
  rw [Nat.max_le, Nat.max_le, highest_le, highest_le]
  constructor
  · rintro ⟨above, every⟩
    refine ⟨above, fun leaf mem meets => ?_⟩
    rcases pruned leaf mem meets with kept | low
    · exact every leaf kept meets
    · exact low.trans above
  · rintro ⟨above, every⟩
    exact ⟨above, fun leaf mem => every leaf (subset mem)⟩

/-! ## The search -/

/-- `node` is the root of the subtree. -/
def Shows (kept : Bounds U → Prop) (nodes : List (Node U)) (node : Node U) (part : Part U) : Prop :=
  Subtree kept nodes part ∧ nodes[part.index]? = some node

theorem Shows.node_eq {node : Node U} (shows_ : Shows kept nodes node part) :
    node.bounds = part.bounds ∧ node.maxOrder = part.maxOrder := by
  obtain ⟨kind, stored⟩ := shows_.1.stored
  cases shows_.2.symm.trans stored
  exact ⟨rfl, rfl⟩

theorem mapM_index {parts : List (Part U)} (below : ∀ part ∈ parts, Subtree kept nodes part) : ∃ children,
    (parts.map Part.index).mapM (fun childIdx => index nodes childIdx) = .ok children ∧
    List.Forall₂ (Shows kept nodes) children parts := by
  induction parts with
  | nil => exact ⟨[], rfl, .nil⟩
  | cons part parts ih =>
    obtain ⟨children, read, shows_⟩ := ih fun part mem => below part (by simp [mem])
    obtain ⟨kind, stored⟩ := (below part (by simp)).stored
    refine ⟨_ :: children, ?_, .cons ⟨below part (by simp), stored⟩ shows_⟩
    rw [List.map_cons, List.mapM_cons, index_of_getElem? stored, ok_bind, read]
    rfl

theorem Shows.misses {node : Node U} {query : Bounds U} (shows_ : Shows kept nodes node part)
    (misses : query.intersects node.bounds = false) : ∀ leaf ∈ part.leaves, leaf.1.intersects query = false := by
  intro leaf mem
  have within := (shows_.1.leaf_le leaf mem).1
  rw [← shows_.node_eq.1] at within
  rw [Bounds.intersects_comm, ← Bool.not_eq_true]
  intro meets
  rw [within.intersects meets] at misses
  cases misses

theorem max_highest_better {query : Bounds U} {children : List (Part U)} {found : Nat}
    (below : ∀ child ∈ children, Subtree kept nodes child) (rest : List (Bounds U × Nat)) :
    max found (highest query
      ((children.filter fun child => child.maxOrder > found).reverse.flatMap Part.leaves ++ rest)) =
    max found (highest query (children.flatMap Part.leaves ++ rest)) := by
  apply max_highest_eq
  · apply List.append_subset.mpr ⟨?_, List.subset_append_right _ _⟩
    intro leaf mem
    obtain ⟨child, childMem, mem⟩ := List.mem_flatMap.mp mem
    have kept := List.mem_filter.mp (List.mem_reverse.mp childMem)
    exact List.mem_append_left _ (List.mem_flatMap.mpr ⟨child, kept.1, mem⟩)
  · intro leaf mem meets
    rcases List.mem_append.mp mem with mem | mem
    · obtain ⟨child, childMem, mem⟩ := List.mem_flatMap.mp mem
      rcases Nat.lt_or_ge found child.maxOrder with high | low
      · have kept : child ∈ children.filter fun child => child.maxOrder > found :=
          List.mem_filter.mpr ⟨childMem, by simpa using high⟩
        exact .inl (List.mem_append_left _ (List.mem_flatMap.mpr ⟨child, List.mem_reverse.mpr kept, mem⟩))
      · exact .inr (((below child childMem).leaf_le leaf mem).2.trans low)
    · exact .inl (List.mem_append_right _ mem)

open BoundsTree in
theorem searchFor_spec (query : Bounds U) (fuel : Nat) (stack : List (Node U)) (parts : List (Part U)) (maxFound : Nat)
    (shows_ : List.Forall₂ (Shows kept nodes) stack parts) (enough : (parts.flatMap Part.indices).length < fuel) :
    searchFor nodes query fuel stack maxFound = .ok (max maxFound (highest query (parts.flatMap Part.leaves))) := by
  induction fuel generalizing stack parts maxFound with
  | zero => omega
  | succ fuel ih =>
    cases shows_ with
    | nil =>
      rw [searchFor, List.flatMap_nil, highest]
      exact congrArg Except.ok (Nat.max_zero maxFound).symm
    | @cons node part stack parts top rest =>
      have indices : part.indices ≠ [] := List.ne_nil_of_mem top.1.index_mem
      have some := List.length_pos_iff.mpr indices
      rw [List.flatMap_cons, List.length_append] at enough
      have skip := ih stack parts maxFound rest (by omega)
      have fewer : parts.flatMap Part.leaves ⊆ (part :: parts).flatMap Part.leaves := by
        rw [List.flatMap_cons]
        exact List.subset_append_right _ _
      rw [searchFor]
      split_ifs with low misses
      · rw [skip, max_highest_eq fewer]
        intro leaf mem meets
        rw [List.flatMap_cons, List.mem_append] at mem
        rcases mem with mem | mem
        · have le := (top.1.leaf_le leaf mem).2
          rw [← top.node_eq.2] at le
          exact .inr (le.trans low)
        · exact .inl mem
      · rw [skip, max_highest_eq fewer]
        intro leaf mem meets
        rw [List.flatMap_cons, List.mem_append] at mem
        rcases mem with mem | mem
        · rw [top.misses (by simpa using misses) leaf mem] at meets
          cases meets
        · exact .inl mem
      · obtain ⟨subtree, stored⟩ := top
        cases subtree with
        | @leaf index bounds order isKept at_ =>
          cases stored.symm.trans at_
          have meets : bounds.intersects query = true := by
            rw [Bounds.intersects_comm]
            simpa using misses
          show searchFor nodes query fuel stack (max maxFound order) = _
          rw [ih stack parts _ rest (by omega), List.flatMap_cons, List.singleton_append,
            highest_cons meets, Nat.max_assoc]
        | @internal index bounds maxOrder children isKept at_ below gathers =>
          cases stored.symm.trans at_
          obtain ⟨read, readEq, reads⟩ := mapM_index below
          simp only [readEq, ok_bind]
          have pushed : List.Forall₂ (Shows kept nodes) (read.filter fun child => child.maxOrder > maxFound)
              (children.filter fun child => child.maxOrder > maxFound) := by
            refine List.rel_filter ?_ reads
            intro node child shows_
            simp only [shows_.node_eq.2]
          have next := ih _ _ maxFound (List.rel_append (List.rel_reverse pushed) rest) ?_
          · rw [next, List.flatMap_append, max_highest_better below]
            rfl
          · have shorter : ((children.filter fun child => child.maxOrder > maxFound).flatMap
                Part.indices).length ≤ (children.flatMap Part.indices).length :=
              (List.filter_sublist.flatMap _).length_le
            rw [List.flatMap_append, List.length_append, ((List.reverse_perm _).flatMap_right _).length_eq]
            rw [List.length_cons] at enough
            omega

end Pinrail.Geometry

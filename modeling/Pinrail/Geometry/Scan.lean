import Mathlib.Algebra.Group.Int.Defs
import Mathlib.Data.List.Perm.Subperm
import Pinrail.Geometry.Insertion

/-!
# The bounds tree is a scan

The orders a `BoundsTree` gives out are those of the scan over all the bounds inserted since the
last `clear`: neither the highest leaf kept aside, nor the pruning, nor the shape of the tree
changes one.
-/

namespace Pinrail.Geometry

open Lib BoundsTree
open scoped List

section Leaf

variable {U : Type} [Add U] [Sub U] [LinearOrder U] {kept : Bounds U → Prop}

/-! ## Inserting a leaf -/

omit [Sub U] in
theorem Subtree.length_le {nodes : List (Node U)} {part : Part U} (subtree : Subtree kept nodes part)
    (nodup : part.indices.Nodup) : part.indices.length ≤ nodes.length := by
  have subset : part.indices ⊆ List.range nodes.length := fun i mem => List.mem_range.mpr (subtree.lt_length i mem)
  simpa using (nodup.subperm subset).length_le

theorem Grown.nodup {nodes nodes' : List (Node U)} {newIdx : Nat} {leaf : Bounds U × Nat} {part part' : Part U}
    (grown : Grown kept nodes nodes' newIdx leaf part part') (nodup : part.indices.Nodup)
    (before : ∀ i ∈ part.indices, i < newIdx) : part'.indices.Nodup := by
  obtain ⟨fresh, freshNodup, above, perm⟩ := grown.indices
  refine perm.nodup_iff.mpr (List.nodup_append.mpr ⟨freshNodup, nodup, ?_⟩)
  rintro i isFresh j old rfl
  exact absurd (above i isFresh) (Nat.not_le.mpr (before i old))

theorem Subtree.insertLeaf (joins : Bounds.Joins kept) {nodes : List (Node U)} {part : Part U} (subtree : Subtree kept nodes part)
    (nodup : part.indices.Nodup) (maxLeaf : Option Nat) {leaf : Bounds U × Nat}
    (leafKept : kept leaf.1) :
    ∃ (nodes' : List (Node U)) (part' : Part U), BoundsTree.insertLeaf ⟨nodes, some part.index, maxLeaf⟩ leaf.1 leaf.2 =
        .ok (nodes.length, ⟨nodes', some part'.index, maxLeaf⟩) ∧
      Grown kept (nodes ++ [Node.mk leaf.1 leaf.2 (.leaf leaf.2)]) nodes' nodes.length leaf part part' := by
  have leafStored : (nodes ++ [Node.mk leaf.1 leaf.2 (.leaf leaf.2)])[nodes.length]? =
      some ⟨leaf.1, leaf.2, .leaf leaf.2⟩ := List.getElem?_concat_length
  have same : ∀ i, i < nodes.length → (nodes ++ [Node.mk leaf.1 leaf.2 (.leaf leaf.2)])[i]? = nodes[i]? :=
    fun i low => List.getElem?_append_left low
  have subtree' := subtree.frame fun i mem => same i (subtree.lt_length i mem)
  obtain ⟨kind, root⟩ := subtree'.stored
  simp only [BoundsTree.insertLeaf, index_of_getElem? root, ok_bind]
  cases kind with
  | leaf rootOrder =>
    obtain ⟨sameOrder, alone⟩ := subtree'.eq_leaf root
    rw [sameOrder] at root ⊢
    have siblingKept := subtree'.isKept
    obtain ⟨part', isIndex, grown⟩ := Grown.pair joins siblingKept leafKept root leafStored
    rw [← alone] at grown
    refine ⟨_, part', ?_, grown⟩
    rw [isIndex]
    rfl
  | internal children =>
    obtain ⟨below, tail, above, part', descended, climbed, isIndex, grown⟩ :=
      subtree'.inserts joins leafKept leafStored ⟨_, _, _, root⟩ nodup subtree.lt_length
        ((nodes ++ [Node.mk leaf.1 leaf.2 (.leaf leaf.2)]).length + 1)
        (by have := subtree'.length_le nodup; omega)
    refine ⟨above, part', ?_, grown⟩
    simp only [descended, ok_bind, List.nil_append, climbed, isIndex]
    rfl

theorem Grown.leaf_stored {nodes nodes' : List (Node U)} {leaf : Bounds U × Nat} {part part' : Part U}
    (grown : Grown kept (nodes ++ [Node.mk leaf.1 leaf.2 (.leaf leaf.2)]) nodes' nodes.length leaf part part') :
    nodes'[nodes.length]? = some ⟨leaf.1, leaf.2, .leaf leaf.2⟩ ∧ ∀ (i : Nat) leafBounds leafOrder,
    nodes[i]? = some ⟨leafBounds, leafOrder, .leaf leafOrder⟩ → nodes'[i]? = nodes[i]? := by
  have leafStored : (nodes ++ [Node.mk leaf.1 leaf.2 (.leaf leaf.2)])[nodes.length]? =
      some ⟨leaf.1, leaf.2, .leaf leaf.2⟩ := List.getElem?_concat_length
  constructor
  · exact (grown.frame _ (by simp) fun _ => ⟨_, _, leafStored⟩).trans leafStored
  · intro i leafBounds leafOrder at_
    have low : i < nodes.length := (List.getElem?_eq_some_iff.mp at_).1
    have same : (nodes ++ [Node.mk leaf.1 leaf.2 (.leaf leaf.2)])[i]? = nodes[i]? := List.getElem?_append_left low
    have low' : i < (nodes ++ [Node.mk leaf.1 leaf.2 (.leaf leaf.2)]).length := by
      rw [List.length_append]
      omega
    exact (grown.frame i low' fun _ => ⟨_, _, same.trans at_⟩).trans same

end Leaf

section Scan

variable {U : Type} [AddCommGroup U] [LinearOrder U]

/-! ## What the tree holds -/

/-- The tree holds the bounds of `history` with their orders. -/
inductive Holds : BoundsTree U → List (Bounds U × Nat) → Prop
  | empty : Holds {} []
  | rooted {nodes : List (Node U)} {part : Part U} {maxIdx : Nat} {top : Bounds U × Nat}
      {history : List (Bounds U × Nat)} (subtree : Subtree (fun _ => True) nodes part) (nodup : part.indices.Nodup)
      (leaves : part.leaves ~ history)
      (stored : nodes[maxIdx]? = some ⟨top.1, top.2, .leaf top.2⟩) (listed : top ∈ history)
      (above : ∀ leaf ∈ history, leaf.2 ≤ top.2) :
      Holds ⟨nodes, some part.index, some maxIdx⟩ history

variable {tree : BoundsTree U} {history : List (Bounds U × Nat)}

theorem highest_perm {query : Bounds U} {leaves leaves' : List (Bounds U × Nat)}
    (perm : leaves ~ leaves') : highest query leaves = highest query leaves' := by
  apply eq_of_forall_ge_iff
  intro m
  simp only [highest_le, perm.mem_iff]

theorem Holds.findMaxOrdering (holds : Holds tree history) (query : Bounds U) :
    tree.findMaxOrdering query = .ok (highest query history) := by
  cases holds with
  | empty => rfl
  | @rooted nodes part maxIdx top _ subtree nodup leaves stored listed above =>
    simp only [BoundsTree.findMaxOrdering, index_of_getElem? stored, ok_bind]
    split_ifs with meets
    · -- The fast path: no order is above that of the highest leaf.
      have most : highest query history ≤ top.2 := highest_le.mpr fun leaf mem _ => above leaf mem
      have least : top.2 ≤ highest query history := by
        rw [Bounds.intersects_comm] at meets
        exact highest_le.mp le_rfl top listed meets
      exact congrArg Except.ok (Nat.le_antisymm least most)
    · obtain ⟨kind, root⟩ := subtree.stored
      have few := subtree.length_le nodup
      rw [index_of_getElem? root, ok_bind,
        searchFor_spec query (nodes.length + 1) _ [part] 0 (.cons ⟨subtree, root⟩ .nil)
          (by simpa using Nat.lt_succ_of_le few)]
      simp [highest_perm leaves]

/-! ## Inserting -/

theorem Holds.insertLeaf (holds : Holds tree history) (leaf : Bounds U × Nat) : ∃ (nodes : List (Node U))
    (part : Part U),
    tree.insertLeaf leaf.1 leaf.2 = .ok (tree.nodes.length, { tree with nodes, root := some part.index }) ∧
    Subtree (fun _ => True) nodes part ∧ part.indices.Nodup ∧ part.leaves ~ leaf :: history ∧
    nodes[tree.nodes.length]? = some ⟨leaf.1, leaf.2, .leaf leaf.2⟩ ∧ ∀ (i : Nat) leafBounds leafOrder,
    tree.nodes[i]? = some ⟨leafBounds, leafOrder, .leaf leafOrder⟩ → nodes[i]? = tree.nodes[i]? := by
  cases holds with
  | empty =>
    refine ⟨[⟨leaf.1, leaf.2, .leaf leaf.2⟩], ⟨0, leaf.1, leaf.2, [0], [leaf]⟩, rfl,
      .leaf trivial rfl, by simp, .refl _, rfl, ?_⟩
    intro i leafBounds leafOrder at_
    cases at_
  | @rooted nodes part maxIdx top _ subtree nodup leaves stored listed above =>
    obtain ⟨nodes', part', inserted, grown⟩ := subtree.insertLeaf Bounds.joins_all nodup (some maxIdx) trivial
    exact ⟨nodes', part', inserted, grown.subtree, grown.nodup nodup subtree.lt_length,
      grown.leaves.trans (leaves.cons _), grown.leaf_stored⟩

theorem Holds.insert (holds : Holds tree history) (bounds : Bounds U) {order : Nat}
    (fits : checkedAdd 32 (highest bounds history) 1 = .ok order) :
    ∃ tree', tree.insert bounds = .ok (order, tree') ∧ Holds tree' (history ++ [(bounds, order)]) := by
  obtain ⟨nodes, part, inserted, subtree, nodup, leaves, newLeaf, kept⟩ := holds.insertLeaf (bounds, order)
  have perm : part.leaves ~ history ++ [(bounds, order)] := leaves.trans (List.perm_append_singleton _ _).symm
  simp only [BoundsTree.insert, holds.findMaxOrdering, ok_bind, fits, inserted]
  cases holds with
  | empty =>
    refine ⟨_, rfl, .rooted subtree nodup perm newLeaf (by simp) ?_⟩
    intro leaf mem
    rw [List.nil_append, List.mem_singleton] at mem
    rw [mem]
  | @rooted old oldPart maxIdx top _ oldSubtree oldNodup oldLeaves stored listed above =>
    have oldStored := (kept maxIdx top.1 top.2 stored).trans stored
    simp only [index_of_getElem? oldStored, ok_bind]
    rcases Nat.lt_or_ge top.2 order with higher | lower
    · rw [if_pos higher]
      refine ⟨_, rfl, .rooted subtree nodup perm newLeaf (by simp) ?_⟩
      intro leaf mem
      rcases List.mem_append.mp mem with mem | mem
      · exact (above leaf mem).trans (Nat.le_of_lt higher)
      · rw [List.mem_singleton.mp mem]
    · rw [if_neg (Nat.not_lt.mpr lower)]
      refine ⟨_, rfl, .rooted subtree nodup perm oldStored (by simp [listed]) ?_⟩
      intro leaf mem
      rcases List.mem_append.mp mem with mem | mem
      · exact above leaf mem
      · rw [List.mem_singleton.mp mem]
        exact lower

theorem Holds.insert_overflow (holds : Holds tree history) (bounds : Bounds U) {panic : Panic}
    (overflows : checkedAdd 32 (highest bounds history) 1 = .error panic) : tree.insert bounds = .error panic := by
  rw [BoundsTree.insert, holds.findMaxOrdering, ok_bind, overflows]
  rfl

/-! ## Whole runs -/

inductive Op (U : Type) where
  | insert (bounds : Bounds U)
  | clear

/-- The orders given out along a sequence of calls; a `clear` gives none. -/
def BoundsTree.run (self : BoundsTree U) : List (Op U) → Except Panic (List (Option Nat))
  | [] => return []
  | .insert bounds :: ops => do
    let (order, self) ← self.insert bounds
    return some order :: (← self.run ops)
  | .clear :: ops => return none :: (← self.clear.run ops)

/-- The same calls answered by a scan of the bounds inserted since the last `clear`. -/
def scan (history : List (Bounds U × Nat)) : List (Op U) → Except Panic (List (Option Nat))
  | [] => return []
  | .insert bounds :: ops => do
    let order ← checkedAdd 32 (highest bounds history) 1
    return some order :: (← scan (history ++ [(bounds, order)]) ops)
  | .clear :: ops => return none :: (← scan [] ops)

theorem Holds.run_eq_scan (holds : Holds tree history) (ops : List (Op U)) : tree.run ops = scan history ops := by
  induction ops generalizing tree history with
  | nil => rfl
  | cons op ops ih =>
    cases op with
    | clear => rw [BoundsTree.run, scan, BoundsTree.clear, ih .empty]
    | insert bounds =>
      rw [BoundsTree.run, scan]
      cases sum : checkedAdd 32 (highest bounds history) 1 with
      | ok order =>
        obtain ⟨tree', inserted, holds'⟩ := holds.insert bounds sum
        simp only [inserted, ok_bind, ih holds']
      | error panic => rw [holds.insert_overflow bounds sum, error_bind, error_bind]

/-- A new tree answers every sequence of calls as the scan does. -/
theorem boundsTree_refines_scan (ops : List (Op U)) : BoundsTree.run {} ops = scan [] ops := Holds.empty.run_eq_scan ops

example : BoundsTree.run ({} : BoundsTree Int) [.insert ⟨⟨0, 0⟩, ⟨10, 10⟩⟩,
    .insert ⟨⟨5, 5⟩, ⟨10, 10⟩⟩, .insert ⟨⟨20, 20⟩, ⟨10, 10⟩⟩, .insert ⟨⟨12, 12⟩, ⟨9, 9⟩⟩] =
    .ok [some 1, some 2, some 1, some 3] := by
  rfl

end Scan

end Pinrail.Geometry

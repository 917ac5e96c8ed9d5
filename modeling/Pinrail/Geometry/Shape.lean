import Mathlib.Data.List.Nodup
import Pinrail.Geometry.Scan
import Pinrail.Lib.Binary32

/-!
# The shape of a bounds tree

What holds of every node of the arena after any inserts and clears: one path leads to it from the root, and
an internal node records of its children what the search relies on.
-/

namespace Pinrail.Geometry

open Lib BoundsTree
open scoped List

variable {U : Type} [Add U] [LinearOrder U] {kept : Bounds U → Prop} {nodes : List (Node U)} {part : Part U}

inductive Leads (nodes : List (Node U)) : Nat → List Nat → Nat → Prop
  | here (i : Nat) : Leads nodes i [] i
  | child {i pos childIdx j maxOrder : Nat} {bounds : Bounds U} {children path : List Nat}
      (stored : nodes[i]? = some ⟨bounds, maxOrder, .internal children⟩) (at_ : children[pos]? = some childIdx)
      (rest : Leads nodes childIdx path j) : Leads nodes i (pos :: path) j

/-! ## Paths in a subtree -/

theorem Leads.subtree {i j : Nat} {path : List Nat} (leads : Leads nodes i path j) (subtree : Subtree kept nodes part)
    (root : part.index = i) : ∃ part', Subtree kept nodes part' ∧ part'.index = j ∧ part'.indices ⊆ part.indices ∧
    part'.leaves ⊆ part.leaves ∧ part'.bounds.Within part.bounds := by
  induction leads generalizing part with
  | here i => exact ⟨part, subtree, root, List.Subset.refl _, List.Subset.refl _, .refl _⟩
  | child stored at_ rest ih =>
    cases subtree with
    | leaf isKept stored' =>
      subst root
      cases stored.symm.trans stored'
    | @internal index bounds maxOrder parts isKept stored' below gathers =>
      subst root
      cases stored.symm.trans stored'
      rw [List.getElem?_map, Option.map_eq_some_iff] at at_
      obtain ⟨child, found, rfl⟩ := at_
      have member := List.mem_of_getElem? found
      obtain ⟨part', subtree', target, indices, leaves, within⟩ := ih (below child member) rfl
      refine ⟨part', subtree', target, ?_, ?_, within.trans (gathers.within child member)⟩
      · intro k here
        exact List.mem_cons_of_mem _ (List.mem_flatMap.mpr ⟨child, member, indices here⟩)
      · intro leaf here
        exact List.mem_flatMap.mpr ⟨child, member, leaves here⟩

theorem Leads.mem_indices {j : Nat} {path : List Nat} (leads : Leads nodes part.index path j)
    (subtree : Subtree kept nodes part) : j ∈ part.indices := by
  obtain ⟨part', subtree', rfl, indices, -, -⟩ := leads.subtree subtree rfl
  exact indices subtree'.index_mem

theorem Subtree.leads (subtree : Subtree kept nodes part) : ∀ j ∈ part.indices, ∃ path, Leads nodes part.index path j := by
  induction subtree with
  | leaf isKept stored =>
    intro j member
    rw [List.mem_singleton.mp member]
    exact ⟨[], .here _⟩
  | internal isKept stored below gathers ih =>
    intro j member
    rcases List.mem_cons.mp member with rfl | inside
    · exact ⟨[], .here _⟩
    · obtain ⟨child, childMem, here⟩ := List.mem_flatMap.mp inside
      obtain ⟨path, leads⟩ := ih child childMem j here
      obtain ⟨pos, found⟩ := List.getElem?_of_mem childMem
      refine ⟨pos :: path, .child stored ?_ leads⟩
      rw [List.getElem?_map, found]
      rfl

theorem Subtree.leads_leaf (subtree : Subtree kept nodes part) : ∀ leaf ∈ part.leaves, ∃ path j,
    Leads nodes part.index path j ∧ nodes[j]? = some ⟨leaf.1, leaf.2, .leaf leaf.2⟩ := by
  induction subtree with
  | leaf isKept stored =>
    intro leaf member
    rw [List.mem_singleton.mp member]
    exact ⟨[], _, .here _, stored⟩
  | internal isKept stored below gathers ih =>
    intro leaf member
    obtain ⟨child, childMem, here⟩ := List.mem_flatMap.mp member
    obtain ⟨path, j, leads, found⟩ := ih child childMem leaf here
    obtain ⟨pos, at_⟩ := List.getElem?_of_mem childMem
    refine ⟨pos :: path, j, .child stored ?_ leads, found⟩
    rw [List.getElem?_map, at_]
    rfl

omit [Add U] [LinearOrder U] in
theorem eq_of_common_index {parts : List (Part U)} (nodup : (parts.flatMap Part.indices).Nodup) {pos pos' i : Nat}
    {child child' : Part U} (found : parts[pos]? = some child) (found' : parts[pos']? = some child')
    (inside : i ∈ child.indices) (inside' : i ∈ child'.indices) : pos = pos' := by
  obtain ⟨-, apart⟩ := List.nodup_flatMap.mp nodup
  obtain ⟨low, rfl⟩ := List.getElem?_eq_some_iff.mp found
  obtain ⟨low', rfl⟩ := List.getElem?_eq_some_iff.mp found'
  rw [List.pairwise_iff_getElem] at apart
  rcases Nat.lt_trichotomy pos pos' with before | same | after
  · exact (apart pos pos' low low' before inside inside').elim
  · exact same
  · exact (apart pos' pos low' low after inside' inside).elim

theorem Subtree.path_unique (subtree : Subtree kept nodes part) (nodup : part.indices.Nodup) {j : Nat}
    {path path' : List Nat} (leads : Leads nodes part.index path j) (leads' : Leads nodes part.index path' j) :
    path = path' := by
  induction subtree generalizing path path' with
  | leaf isKept stored =>
    cases leads with
    | here =>
      cases leads' with
      | here => rfl
      | child stored' at_ rest => cases stored.symm.trans stored'
    | child stored' at_ rest => cases stored.symm.trans stored'
  | @internal index bounds maxOrder parts isKept stored below gathers ih =>
    obtain ⟨alone, nodup⟩ := List.nodup_cons.mp nodup
    have inside : ∀ {pos childIdx : Nat} {path : List Nat},
        (parts.map Part.index)[pos]? = some childIdx → Leads nodes childIdx path j →
        ∃ child, parts[pos]? = some child ∧ child.index = childIdx ∧ j ∈ child.indices := by
      intro pos childIdx path at_ leads
      rw [List.getElem?_map, Option.map_eq_some_iff] at at_
      obtain ⟨child, found, rfl⟩ := at_
      exact ⟨child, found, rfl, leads.mem_indices (below child (List.mem_of_getElem? found))⟩
    have other : ∀ {pos childIdx : Nat} {path : List Nat},
        (parts.map Part.index)[pos]? = some childIdx → Leads nodes childIdx path j → j ≠ index := by
      rintro pos childIdx path at_ below rfl
      obtain ⟨child, found, -, here⟩ := inside at_ below
      exact alone (List.mem_flatMap.mpr ⟨child, List.mem_of_getElem? found, here⟩)
    cases leads with
    | here =>
      cases leads' with
      | here => rfl
      | child stored' at_ rest =>
        cases stored.symm.trans stored'
        exact absurd rfl (other at_ rest)
    | child stored' at_ rest =>
      cases stored.symm.trans stored'
      cases leads' with
      | here => exact absurd rfl (other at_ rest)
      | child stored' at_' rest' =>
        cases stored.symm.trans stored'
        obtain ⟨child, found, rfl, here⟩ := inside at_ rest
        obtain ⟨child', found', rfl, here'⟩ := inside at_' rest'
        obtain rfl := eq_of_common_index nodup found found' here here'
        cases found.symm.trans found'
        have member := List.mem_of_getElem? found
        have distinct := (List.nodup_flatMap.mp nodup).1 child member
        rw [ih child member distinct rest rest']

theorem Subtree.attained (subtree : Subtree kept nodes part) : ∃ leaf ∈ part.leaves, leaf.2 = part.maxOrder := by
  induction subtree with
  | leaf isKept stored => exact ⟨_, List.mem_singleton_self _, rfl⟩
  | internal isKept stored below gathers ih =>
    obtain ⟨child, isLast, top⟩ := gathers.last
    have member := List.mem_of_getLast? isLast
    obtain ⟨leaf, here, same⟩ := ih child member
    exact ⟨leaf, List.mem_flatMap.mpr ⟨child, member, here⟩, same.trans top⟩

/-! ## The tree -/

structure ShapedNode (nodes : List (Node U)) (i : Nat) (bounds : Bounds U) (maxOrder : Nat) (children : List Nat) :
    Prop where
  several : 2 ≤ children.length
  fits : children.length ≤ maxChildren
  within : ∀ path j node, Leads nodes i path j → nodes[j]? = some node → node.bounds.Within bounds
  le : ∀ path j bounds' order, Leads nodes i path j → nodes[j]? = some ⟨bounds', order, .leaf order⟩ → order ≤ maxOrder
  attained : ∃ path j bounds', Leads nodes i path j ∧ nodes[j]? = some ⟨bounds', maxOrder, .leaf maxOrder⟩
  last : ∃ last node, children.getLast? = some last ∧ nodes[last]? = some node ∧ node.maxOrder = maxOrder ∧
    ∀ child ∈ children, ∃ sibling, nodes[child]? = some sibling ∧ sibling.maxOrder ≤ node.maxOrder

/-- The leaves, each with its index, are among the nodes of the arena, each of which one path leads to. -/
structure Shaped (tree : BoundsTree U) (leaves : List (Nat × Bounds U × Nat)) : Prop where
  stored : ∀ leaf ∈ leaves, tree.nodes[leaf.1]? = some ⟨leaf.2.1, leaf.2.2, .leaf leaf.2.2⟩
  once : ∀ i < tree.nodes.length, ∃ root, tree.root = some root ∧ ∃! path, Leads tree.nodes root path i
  internal : ∀ i bounds maxOrder children, tree.nodes[i]? = some ⟨bounds, maxOrder, .internal children⟩ →
    ShapedNode tree.nodes i bounds maxOrder children

theorem Subtree.shapedNode {i maxOrder : Nat} {bounds : Bounds U} {children : List Nat}
    (subtree : Subtree kept nodes part) (index : part.index = i)
    (stored : nodes[i]? = some ⟨bounds, maxOrder, .internal children⟩) :
    ShapedNode nodes i bounds maxOrder children := by
  subst index
  obtain ⟨top, topMem, same⟩ := subtree.attained
  obtain ⟨path, j, leads, found⟩ := subtree.leads_leaf top topMem
  obtain ⟨kind, stored'⟩ := subtree.stored
  cases stored.symm.trans stored'
  have reached : ∀ {path j node}, Leads nodes part.index path j → nodes[j]? = some node →
      node.bounds.Within part.bounds ∧ node.maxOrder ≤ part.maxOrder := by
    intro path j node leads at_
    obtain ⟨part', subtree', rfl, -, leaves, within⟩ := leads.subtree subtree rfl
    obtain ⟨kind, stored''⟩ := subtree'.stored
    cases at_.symm.trans stored''
    obtain ⟨leaf, leafMem, order⟩ := subtree'.attained
    have le := (subtree.leaf_le leaf (leaves leafMem)).2
    rw [order] at le
    exact ⟨within, le⟩
  cases subtree with
  | leaf isKept leafStored => cases stored.symm.trans leafStored
  | @internal index bounds maxOrder parts isKept internalStored below gathers =>
    cases stored.symm.trans internalStored
    refine ⟨?_, ?_, ?_, ?_, ⟨path, j, top.1, leads, ?_⟩, ?_⟩
    · rw [List.length_map]
      exact gathers.several
    · rw [List.length_map]
      exact gathers.fits
    · exact fun path j node leads at_ => (reached leads at_).1
    · exact fun path j bounds' order leads at_ => (reached leads at_).2
    · rw [found, same]
    · obtain ⟨last, isLast, lastMax⟩ := gathers.last
      obtain ⟨kind, lastStored⟩ := (below last (List.mem_of_getLast? isLast)).stored
      refine ⟨last.index, _, ?_, lastStored, lastMax, fun child member => ?_⟩
      · rw [List.getLast?_map, isLast]
        rfl
      · obtain ⟨part, partMem, rfl⟩ := List.mem_map.mp member
        obtain ⟨kind, partStored⟩ := (below part partMem).stored
        exact ⟨_, partStored, (gathers.le part partMem).trans lastMax.ge⟩

inductive Filled (kept : Bounds U → Prop) : BoundsTree U → List (Nat × Bounds U × Nat) → Prop
  | empty : Filled kept {} []
  | rooted {nodes : List (Node U)} {part : Part U} {maxLeaf : Option Nat} {leaves : List (Nat × Bounds U × Nat)}
      (subtree : Subtree kept nodes part) (nodup : part.indices.Nodup) (all : ∀ i < nodes.length, i ∈ part.indices)
      (stored : ∀ leaf ∈ leaves, nodes[leaf.1]? = some ⟨leaf.2.1, leaf.2.2, .leaf leaf.2.2⟩) :
      Filled kept ⟨nodes, some part.index, maxLeaf⟩ leaves

theorem Filled.shaped {tree : BoundsTree U} {leaves : List (Nat × Bounds U × Nat)} (filled : Filled kept tree leaves) :
    Shaped tree leaves := by
  cases filled with
  | empty =>
    refine ⟨by simp, fun i inside => absurd inside (Nat.not_lt_zero i), fun i bounds maxOrder children at_ => ?_⟩
    cases at_
  | rooted subtree nodup all stored =>
    refine ⟨stored, fun i inside => ?_, fun i bounds maxOrder children at_ => ?_⟩
    · obtain ⟨path, leads⟩ := subtree.leads i (all i inside)
      exact ⟨_, rfl, path, leads, fun path' leads' => subtree.path_unique nodup leads' leads⟩
    · obtain ⟨path, leads⟩ := subtree.leads i (all i (List.getElem?_eq_some_iff.mp at_).1)
      obtain ⟨part', subtree', index, -, -, -⟩ := leads.subtree subtree rfl
      exact subtree'.shapedNode index at_

variable [Sub U]

/-- The trees after sequences of calls, with the leaves inserted since the last `clear`. -/
inductive Reached : BoundsTree U → List (Nat × Bounds U × Nat) → Prop
  | new : Reached {} []
  | insert {tree tree' : BoundsTree U} {leaves : List (Nat × Bounds U × Nat)} {order : Nat} (bounds : Bounds U)
      (reached : Reached tree leaves) (inserted : tree.insert bounds = .ok (order, tree')) :
      Reached tree' (leaves ++ [(tree.nodes.length, bounds, order)])
  | clear {tree : BoundsTree U} {leaves : List (Nat × Bounds U × Nat)} (reached : Reached tree leaves) :
      Reached tree.clear []

theorem Filled.insertLeaf (joins : Bounds.Joins kept) {tree : BoundsTree U} {leaves : List (Nat × Bounds U × Nat)}
    (filled : Filled kept tree leaves) (leaf : Bounds U × Nat) (leafKept : kept leaf.1) : ∃ tree',
    tree.insertLeaf leaf.1 leaf.2 = .ok (tree.nodes.length, tree') ∧ ∀ maxLeaf,
    Filled kept { tree' with maxLeaf := maxLeaf } (leaves ++ [(tree.nodes.length, leaf)]) := by
  cases filled with
  | empty =>
    refine ⟨_, rfl, fun maxLeaf => ?_⟩
    have alone : Subtree kept [⟨leaf.1, leaf.2, .leaf leaf.2⟩] ⟨0, leaf.1, leaf.2, [0], [leaf]⟩ := .leaf leafKept rfl
    refine .rooted alone (List.nodup_singleton 0) ?_ ?_
    · intro i inside
      rw [List.length_singleton, Nat.lt_one_iff] at inside
      rw [inside]
      exact List.mem_singleton_self 0
    · intro other member
      rw [List.mem_singleton.mp member]
      rfl
  | @rooted nodes part maxLeaf leaves subtree nodup all stored =>
    obtain ⟨nodes', part', inserted, grown⟩ := subtree.insertLeaf joins nodup maxLeaf leafKept
    obtain ⟨newStored, kept⟩ := grown.leaf_stored
    refine ⟨_, inserted, fun maxLeaf => .rooted grown.subtree (grown.nodup nodup subtree.lt_length) ?_ ?_⟩
    · intro i inside
      obtain ⟨fresh, -, -, indices⟩ := grown.indices
      rcases Nat.lt_trichotomy i nodes.length with old | rfl | new
      · exact indices.mem_iff.mpr (List.mem_append_right _ (all i old))
      · exact grown.covers _ (.inl rfl)
      · apply grown.covers i
        rw [List.length_append, List.length_singleton]
        exact .inr ⟨new, inside⟩
    · intro other member
      rcases List.mem_append.mp member with old | here
      · rw [kept _ _ _ (stored other old)]
        exact stored other old
      · rw [List.mem_singleton.mp here]
        exact newStored

theorem insert_eq_ok {tree tree' : BoundsTree U} {bounds : Bounds U} {order : Nat}
    (inserted : tree.insert bounds = .ok (order, tree')) : ∃ newLeafIdx placed maxLeaf,
    tree.insertLeaf bounds order = .ok (newLeafIdx, placed) ∧ tree' = { placed with maxLeaf := maxLeaf } := by
  rw [BoundsTree.insert, bind_eq_ok] at inserted
  obtain ⟨maxIntersecting, -, inserted⟩ := inserted
  obtain ⟨ordering, -, inserted⟩ := bind_eq_ok.mp inserted
  obtain ⟨⟨newLeafIdx, placed⟩, placedEq, inserted⟩ := bind_eq_ok.mp inserted
  dsimp only at inserted
  cases maxLeaf : placed.maxLeaf with
  | none =>
    rw [maxLeaf] at inserted
    cases inserted
    exact ⟨newLeafIdx, placed, _, placedEq, rfl⟩
  | some oldIdx =>
    rw [maxLeaf] at inserted
    obtain ⟨old, -, inserted⟩ := bind_eq_ok.mp inserted
    cases inserted
    exact ⟨newLeafIdx, placed, _, placedEq, rfl⟩

theorem Reached.filled (joins : Bounds.Joins kept) {tree : BoundsTree U} {leaves : List (Nat × Bounds U × Nat)}
    (reached : Reached tree leaves) (leavesKept : ∀ leaf ∈ leaves, kept leaf.2.1) : Filled kept tree leaves := by
  induction reached with
  | new => exact .empty
  | @insert tree tree' leaves order bounds reached inserted ih =>
    obtain ⟨newLeafIdx, placed, maxLeaf, placedEq, rfl⟩ := insert_eq_ok inserted
    have leafKept : kept bounds := leavesKept (tree.nodes.length, bounds, order) (by simp)
    have before := ih fun leaf member => leavesKept leaf (List.mem_append_left _ member)
    obtain ⟨placed', placedEq', filled⟩ := before.insertLeaf joins (bounds, order) leafKept
    cases placedEq.symm.trans placedEq'
    exact filled maxLeaf
  | clear reached ih => exact .empty

/-- While the sums give the edges of the leaves back, one path leads to each leaf, and every internal node is as the
search needs it. -/
theorem boundsTree_shaped {tree : BoundsTree U} {leaves : List (Nat × Bounds U × Nat)}
    (reached : Reached tree leaves) (recovers : Bounds.Recovers (leaves.map fun leaf => leaf.2.1)) :
    Shaped tree leaves :=
  (reached.filled recovers.joins fun _ member => Bounds.spanned_leaf (List.mem_map_of_mem member)).shaped

def BoundsTree.after (tree : BoundsTree U) (bounds : Bounds U) : BoundsTree U :=
  ((tree.insert bounds).toOption.map Prod.snd).getD tree

theorem insert_after {tree : BoundsTree U} {bounds : Bounds U} (order : Nat)
    (isOrder : (tree.insert bounds).toOption.map Prod.fst = some order) :
    tree.insert bounds = .ok (order, tree.after bounds) := by
  rw [BoundsTree.after]
  cases inserted : tree.insert bounds with
  | error panic =>
    rw [inserted] at isOrder
    cases isOrder
  | ok result =>
    rw [inserted] at isOrder
    cases isOrder
    rfl

def single (left width : ℚ) : Bounds Binary32 where
  origin := ⟨.of left, .of 0⟩
  size := ⟨.of width, .of 1⟩

/-- Two of three bounds after a clear. -/
theorem boundsTree_shaped_two : ∃ (tree : BoundsTree Binary32) (leaves : List (Nat × Bounds Binary32 × Nat)),
    leaves = [(0, single 0 (1 / 10), 1), (1, single (1 / 20) 3, 2)] ∧ Reached tree leaves ∧ Shaped tree leaves := by
  have first := Reached.new.insert (single 0 3) (insert_after 1 (by decide +kernel))
  have second := first.clear.insert (single 0 (1 / 10)) (insert_after 1 (by decide +kernel))
  have third := second.insert (single (1 / 20) 3) (insert_after 2 (by decide +kernel))
  refine ⟨_, _, ?_, third, boundsTree_shaped third ?_⟩
  · decide +kernel
  · constructor <;> decide +kernel

/-- The right edge of the parent is rounded once more than that of its leaf, and lies in front of it. -/
theorem boundsTree_narrows : ∃ (tree : BoundsTree Binary32) (leaves : List (Nat × Bounds Binary32 × Nat)),
    leaves = [(0, single (29 / 10) (1 / 5), 1), (1, single (16 / 5) (42 / 5), 1)] ∧ Reached tree leaves ∧
    ¬ Shaped tree leaves := by
  have first := Reached.new.insert (single (29 / 10) (1 / 5)) (insert_after 1 (by decide +kernel))
  have second := first.insert (single (16 / 5) (42 / 5)) (insert_after 1 (by decide +kernel))
  refine ⟨_, _, by decide +kernel, second, fun shaped => ?_⟩
  have parent : ((({} : BoundsTree Binary32).after (single (29 / 10) (1 / 5))).after
      (single (16 / 5) (42 / 5))).nodes[2]? = some
        ⟨(single (29 / 10) (1 / 5)).union (single (16 / 5) (42 / 5)), 1, .internal [1, 0]⟩ := by decide +kernel
  have leaf := shaped.stored (1, single (16 / 5) (42 / 5), 1) (by decide +kernel)
  have within := (shaped.internal 2 _ _ _ parent).within [0] 1 _ (.child parent rfl (.here _)) leaf
  exact absurd within.right (by decide +kernel)

end Pinrail.Geometry

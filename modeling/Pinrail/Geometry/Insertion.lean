import Pinrail.Geometry.Subtree

/-!
# Inserting into a bounds tree

The descent to a node, the change there and the updates on the way back keep every subtree on the
path sound, with one leaf more. With the search this makes `BoundsTree` the scan over all the bounds
inserted since the last `clear`.
-/

namespace Pinrail.Geometry

open Lib BoundsTree
open scoped List

variable {U : Type} [Add U] [Sub U] [LinearOrder U] {kept : Bounds U → Prop} {nodes nodes' : List (Node U)}

/-- `part` with one leaf more is `part'`, which has all the new nodes. The other nodes and all the leaves stay as
they were. -/
structure Grown (kept : Bounds U → Prop) (nodes nodes' : List (Node U)) (newIdx : Nat) (leaf : Bounds U × Nat)
    (part part' : Part U) : Prop where
  subtree : Subtree kept nodes' part'
  leaves : part'.leaves.Perm (leaf :: part.leaves)
  indices : ∃ fresh : List Nat, fresh.Nodup ∧ (∀ i ∈ fresh, newIdx ≤ i) ∧ part'.indices.Perm (fresh ++ part.indices)
  within : part'.bounds.Within (part.bounds.union leaf.1)
  maxOrder : part'.maxOrder = max part.maxOrder leaf.2
  frame : ∀ i, i < nodes.length → (i ∈ part.indices → ∃ bounds order, nodes[i]? = some ⟨bounds, order, .leaf order⟩) →
    nodes'[i]? = nodes[i]?
  covers : ∀ i, i = newIdx ∨ nodes.length ≤ i ∧ i < nodes'.length → i ∈ part'.indices

/-! ## What a node records after a change -/

section Gathers

variable {bounds : Bounds U} {maxOrder : Nat} {left right parts ys : List (Part U)}
  {old new : Part U} {leaf : Bounds U × Nat}

theorem Gathers.replace (joins : Bounds.Joins kept) (isKept : kept bounds) (oldKept : kept old.bounds)
    (leafKept : kept leaf.1) (gathers : Gathers bounds maxOrder (left ++ old :: right))
    (within : new.bounds.Within (old.bounds.union leaf.1))
    (higher : new.maxOrder = max old.maxOrder leaf.2) (perm : ys.Perm (left ++ new :: right))
    (moved : maxOrder < leaf.2 → ys.getLast? = some new)
    (stays : ¬ maxOrder < leaf.2 → ys = left ++ new :: right) :
    Gathers (bounds.union leaf.1) (max maxOrder leaf.2) ys where
  several := by
    rw [perm.length_eq]
    simpa using gathers.several
  fits := by
    rw [perm.length_eq]
    simpa using gathers.fits
  within := by
    intro part mem
    rcases List.mem_append.mp (perm.mem_iff.mp mem) with mem | mem
    · exact (gathers.within part (by simp [mem])).trans (joins.left isKept leafKept)
    · rcases List.mem_cons.mp mem with rfl | mem
      · exact within.trans (joins.mono oldKept isKept leafKept (gathers.within old (by simp)))
      · exact (gathers.within part (by simp [mem])).trans (joins.left isKept leafKept)
  le := by
    intro part mem
    rcases List.mem_append.mp (perm.mem_iff.mp mem) with mem | mem
    · exact (gathers.le part (by simp [mem])).trans (Nat.le_max_left _ _)
    · rcases List.mem_cons.mp mem with rfl | mem
      · have := gathers.le old (by simp)
        omega
      · exact (gathers.le part (by simp [mem])).trans (Nat.le_max_left _ _)
  last := by
    have oldLe := gathers.le old (by simp)
    rcases Nat.lt_or_ge maxOrder leaf.2 with above | above
    · refine ⟨new, moved above, ?_⟩
      rw [higher]
      omega
    · obtain ⟨part, isLast, partMax⟩ := gathers.last
      rw [stays (Nat.not_lt.mpr above)]
      cases right with
      | nil =>
        rw [List.getLast?_concat] at isLast ⊢
        cases isLast
        exact ⟨new, rfl, by omega⟩
      | cons next right =>
        rw [List.getLast?_append_cons, List.getLast?_cons_cons] at isLast ⊢
        exact ⟨part, isLast, by omega⟩

theorem Gathers.add (joins : Bounds.Joins kept) (isKept : kept bounds) (leafKept : kept leaf.1)
    (gathers : Gathers bounds maxOrder parts) (room : parts.length < maxChildren)
    (newBounds : new.bounds = leaf.1) (newMax : new.maxOrder = leaf.2)
    (perm : ys.Perm (parts ++ [new])) (low : leaf.2 ≤ maxOrder → ys.getLast? = parts.getLast?)
    (high : ¬ leaf.2 ≤ maxOrder → ys = parts ++ [new]) :
    Gathers (bounds.union leaf.1) (max maxOrder leaf.2) ys where
  several := by
    have := gathers.several
    rw [perm.length_eq, List.length_append]
    omega
  fits := by
    rw [perm.length_eq, List.length_append]
    exact room
  within := by
    intro part mem
    rcases List.mem_append.mp (perm.mem_iff.mp mem) with mem | mem
    · exact (gathers.within part mem).trans (joins.left isKept leafKept)
    · rw [List.mem_singleton.mp mem, newBounds]
      exact joins.right isKept leafKept
  le := by
    intro part mem
    rcases List.mem_append.mp (perm.mem_iff.mp mem) with mem | mem
    · exact (gathers.le part mem).trans (Nat.le_max_left _ _)
    · rw [List.mem_singleton.mp mem, newMax]
      exact Nat.le_max_right _ _
  last := by
    rcases Nat.lt_or_ge maxOrder leaf.2 with above | above
    · refine ⟨new, ?_, by omega⟩
      rw [high (by omega), List.getLast?_concat]
    · obtain ⟨part, isLast, partMax⟩ := gathers.last
      exact ⟨part, (low above).trans isLast, by omega⟩

end Gathers

/-! ## Putting a changed node back -/

omit [Sub U] in
theorem Subtree.rebuild {index : Nat} {bounds : Bounds U} {maxOrder : Nat} {parts : List (Part U)} (isKept : kept bounds)
    (low : index < nodes.length) (below : ∀ part ∈ parts, Subtree kept nodes part)
    (apart : ∀ part ∈ parts, index ∉ part.indices) (gathers : Gathers bounds maxOrder parts) :
    Subtree kept (nodes.set index ⟨bounds, maxOrder, .internal (parts.map Part.index)⟩)
      ⟨index, bounds, maxOrder, index :: parts.flatMap Part.indices, parts.flatMap Part.leaves⟩ := by
  refine .internal isKept (List.getElem?_set_self low) ?_ gathers
  intro part mem
  refine (below part mem).frame ?_
  intro i here
  rw [List.getElem?_set_ne]
  rintro rfl
  exact apart part mem here

theorem perm_flatMap_replace {α β : Type} {f : α → List β} {left right ys : List α} {old new : α} {extra : List β}
    (perm : ys.Perm (left ++ new :: right)) (grows : (f new).Perm (extra ++ f old)) :
    (ys.flatMap f).Perm (extra ++ (left ++ old :: right).flatMap f) := by
  calc ys.flatMap f
    _ ~ (left ++ new :: right).flatMap f := perm.flatMap_right f
    _ = left.flatMap f ++ (f new ++ right.flatMap f) := by simp
    _ ~ left.flatMap f ++ (extra ++ f old ++ right.flatMap f) := (grows.append_right _).append_left _
    _ = left.flatMap f ++ (extra ++ (f old ++ right.flatMap f)) := by simp
    _ ~ extra ++ (left.flatMap f ++ (f old ++ right.flatMap f)) := List.perm_append_comm_assoc _ _ _
    _ = extra ++ (left ++ old :: right).flatMap f := by simp

section Climb

variable {index newIdx : Nat} {bounds : Bounds U} {maxOrder : Nat} {left right ys : List (Part U)}
  {child child' : Part U} {leaf : Bounds U × Nat}

theorem Grown.climb (joins : Bounds.Joins kept) (isKept : kept bounds) (leafKept : kept leaf.1)
    (stored : nodes[index]? = some ⟨bounds, maxOrder, .internal ((left ++ child :: right).map Part.index)⟩)
    (below : ∀ part ∈ left ++ child :: right, Subtree kept nodes part)
    (gathers : Gathers bounds maxOrder (left ++ child :: right))
    (nodup : (index :: (left ++ child :: right).flatMap Part.indices).Nodup)
    (before : ∀ i ∈ index :: (left ++ child :: right).flatMap Part.indices, i < newIdx)
    (grown : Grown kept nodes nodes' newIdx leaf child child')
    (perm : ys.Perm (left ++ child' :: right))
    (moved : maxOrder < leaf.2 → ys.getLast? = some child')
    (stays : ¬ maxOrder < leaf.2 → ys = left ++ child' :: right) :
    Grown kept nodes (nodes'.set index ⟨bounds.union leaf.1, max maxOrder leaf.2, .internal (ys.map Part.index)⟩)
      newIdx leaf
      ⟨index, bounds, maxOrder, index :: (left ++ child :: right).flatMap Part.indices,
        (left ++ child :: right).flatMap Part.leaves⟩
      ⟨index, bounds.union leaf.1, max maxOrder leaf.2, index :: ys.flatMap Part.indices, ys.flatMap Part.leaves⟩ := by
  obtain ⟨fresh, freshNodup, freshAbove, indices⟩ := grown.indices
  obtain ⟨alone, nodup⟩ := List.nodup_cons.mp nodup
  have low := (List.getElem?_eq_some_iff.mp stored).1
  have inside : ∀ part ∈ left ++ child :: right, ∀ i ∈ part.indices,
      i ∈ (left ++ child :: right).flatMap Part.indices :=
    fun part mem i here => List.mem_flatMap.mpr ⟨part, mem, here⟩
  have childMem : child ∈ left ++ child :: right := by simp
  -- The nodes outside the child are as they were.
  have same : ∀ i, i < nodes.length → i ∉ child.indices → nodes'[i]? = nodes[i]? :=
    fun i low other => grown.frame i low fun mem => absurd mem other
  have here : nodes'[index]? = nodes[index]? := same index low fun mem => alone (inside child childMem index mem)
  have low' : index < nodes'.length := (List.getElem?_eq_some_iff.mp (here.trans stored)).1
  have sibling : ∀ part ∈ left ++ right, Subtree kept nodes' part ∧ index ∉ part.indices := by
    intro part mem
    have mem' : part ∈ left ++ child :: right := by
      simp only [List.mem_append, List.mem_cons] at mem ⊢
      tauto
    refine ⟨(below part mem').frame fun i at_ => ?_, fun at_ => alone (inside part mem' index at_)⟩
    apply same i ((below part mem').lt_length i at_)
    intro inChild
    rw [List.flatMap_append, List.flatMap_cons, List.nodup_append] at nodup
    obtain ⟨-, nodup, before⟩ := nodup
    obtain ⟨-, -, after⟩ := List.nodup_append.mp nodup
    rcases List.mem_append.mp mem with mem | mem
    · exact before i (List.mem_flatMap.mpr ⟨part, mem, at_⟩) i (by simp [inChild]) rfl
    · exact after i inChild i (List.mem_flatMap.mpr ⟨part, mem, at_⟩) rfl
  have found : ∀ part ∈ ys, Subtree kept nodes' part ∧ index ∉ part.indices := by
    intro part mem
    have cases_ : part = child' ∨ part ∈ left ++ right := by
      have := perm.mem_iff.mp mem
      simp only [List.mem_append, List.mem_cons] at this ⊢
      tauto
    rcases cases_ with rfl | mem
    · refine ⟨grown.subtree, fun at_ => ?_⟩
      rcases List.mem_append.mp (indices.mem_iff.mp at_) with isFresh | old
      · exact absurd (freshAbove index isFresh) (Nat.not_le.mpr (before index (by simp)))
      · exact alone (inside child childMem index old)
    · exact sibling part mem
  refine ⟨.rebuild (joins.union isKept leafKept) low' (fun part mem => (found part mem).1)
    (fun part mem => (found part mem).2)
    (gathers.replace joins isKept (below child childMem).isKept leafKept grown.within grown.maxOrder perm moved stays), ?_, ?_, .refl _, rfl, ?_, ?_⟩
  · have grows : child'.leaves ~ [leaf] ++ child.leaves := grown.leaves
    exact perm_flatMap_replace perm grows
  · refine ⟨fresh, freshNodup, freshAbove, ?_⟩
    exact ((perm_flatMap_replace perm indices).cons index).trans List.perm_middle.symm
  · intro i low isLeaf
    have other : i ≠ index := by
      rintro rfl
      obtain ⟨_, _, atLeaf⟩ := isLeaf (by simp)
      cases atLeaf.symm.trans stored
    rw [List.getElem?_set_ne other.symm]
    exact grown.frame i low fun mem => isLeaf (List.mem_cons_of_mem _ (inside child childMem i mem))
  · intro i new
    rw [List.length_set] at new
    have childIn : child' ∈ ys := perm.mem_iff.mpr (by simp)
    exact List.mem_cons_of_mem _ (List.mem_flatMap.mpr ⟨child', childIn, grown.covers i new⟩)

end Climb

/-! ## The steps of an insertion -/

section Steps

variable {bounds : Bounds U} {order newIdx : Nat} {parts : List (Part U)}

theorem foldlM_betterChild {children : List Nat} (entries : List (Nat × Nat)) (best : Best U)
    (listed : ∀ entry ∈ entries, children[entry.2]? = some entry.1) (low : ∀ i ∈ children, i < nodes.length)
    (isChild : children[best.childPos]? = some best.childIdx) : ∃ best',
    entries.foldlM (betterChild nodes bounds) best = .ok best' ∧ children[best'.childPos]? = some best'.childIdx := by
  induction entries generalizing best with
  | nil => exact ⟨best, rfl, isChild⟩
  | cons entry entries ih =>
    have at_ := listed entry (by simp)
    have read := index_of_lt (low entry.1 (List.mem_of_getElem? at_))
    have rest := fun other mem => listed other (List.mem_cons_of_mem entry mem)
    rw [List.foldlM_cons, betterChild, read]
    simp only [ok_bind]
    split_ifs with cheaper
    · exact ih ⟨entry.1, entry.2, _⟩ rest at_
    · exact ih best rest isChild

theorem bestChild_spec (bounds : Bounds U) (below : ∀ part ∈ parts, Subtree kept nodes part)
    (several : 2 ≤ parts.length) : ∃ best left child right, bestChild nodes bounds (parts.map Part.index) = .ok best ∧
    parts = left ++ child :: right ∧ best.childIdx = child.index ∧ best.childPos = left.length := by
  have low : ∀ i ∈ parts.map Part.index, i < nodes.length := by
    intro i mem
    obtain ⟨part, partMem, rfl⟩ := List.mem_map.mp mem
    exact (below part partMem).lt_length _ (below part partMem).index_mem
  have nonempty : 0 < (parts.map Part.index).length := by
    rw [List.length_map]
    omega
  have first := index_of_lt nonempty
  have firstNode := index_of_lt (low _ (List.getElem_mem nonempty))
  obtain ⟨best, found, isChild⟩ : ∃ best, bestChild nodes bounds (parts.map Part.index) = .ok best ∧
      (parts.map Part.index)[best.childPos]? = some best.childIdx := by
    rw [bestChild, first, ok_bind, firstNode, ok_bind]
    exact foldlM_betterChild _ _ (fun entry mem => List.mem_zipIdx_iff_getElem?.mp (List.mem_of_mem_drop mem)) low
      (List.getElem?_eq_getElem nonempty)
  rw [List.getElem?_map, Option.map_eq_some_iff] at isChild
  obtain ⟨child, at_, isIndex⟩ := isChild
  obtain ⟨posLow, rfl⟩ := List.getElem?_eq_some_iff.mp at_
  refine ⟨best, parts.take best.childPos, _, parts.drop (best.childPos + 1), found, ?_, isIndex.symm, ?_⟩
  · rw [List.getElem_cons_drop, List.take_append_drop]
  · rw [List.length_take]
    omega

theorem addLeaf_spec (nodes : List (Node U)) (currentIdx : Nat) (current : Node U)
    (bounds : Bounds U) (order : Nat) {last : Part U} (new : Part U)
    (room : parts.length < maxChildren) (several : 2 ≤ parts.length)
    (isLast : parts.getLast? = some last) :
    ∃ ys : List (Part U), addLeaf nodes currentIdx current (parts.map Part.index) bounds order new.index =
        .ok (nodes.set currentIdx ⟨current.bounds.union bounds, max current.maxOrder order,
            .internal (ys.map Part.index)⟩) ∧
      ys ~ parts ++ [new] ∧ (order ≤ current.maxOrder → ys.getLast? = parts.getLast?) ∧
      (¬ order ≤ current.maxOrder → ys = parts ++ [new]) := by
  have pushed : push maxChildren (parts.map Part.index) new.index = .ok ((parts ++ [new]).map Part.index) := by
    rw [push_of_lt (by rwa [List.length_map])]
    simp
  have before : (parts ++ [new])[parts.length - 1]? = some last := by
    rw [List.getElem?_append_left (by omega), ← List.getLast?_eq_getElem?, isLast]
  have length : ((parts ++ [new]).map Part.index).length = parts.length + 1 := by simp
  simp only [addLeaf, pushed, ok_bind, length]
  split_ifs with low
  · obtain ⟨ys, swapped, perm, ends⟩ := swap_last Part.index before
    rw [List.length_append, List.length_singleton, Nat.add_sub_cancel] at swapped
    simp only [checkedSub_of_le (Nat.le_add_left 1 _), checkedSub_of_le (show 1 ≤ parts.length by omega),
      ok_bind, Nat.add_sub_cancel, swapped]
    exact ⟨ys, rfl, perm, fun _ => ends.trans isLast.symm, fun high => absurd low high⟩
  · exact ⟨parts ++ [new], rfl, .refl _, fun high => absurd high low, fun _ => rfl⟩

theorem splitLeaf_spec (currentIdx : Nat) (current sibling : Node U) (bounds : Bounds U)
    (order newIdx : Nat) {best : Best U} {left : List (Part U)} (right : List (Part U))
    {child new : Part U} (siblingLe : sibling.maxOrder ≤ current.maxOrder)
    (isPos : best.childPos = left.length) (isIndex : best.childIdx = child.index)
    (newIndex : new.index = nodes.length) :
    ∃ ys : List (Part U), splitLeaf nodes currentIdx current ((left ++ child :: right).map Part.index) best sibling
          bounds order newIdx =
        .ok ((nodes ++ [Node.mk (sibling.bounds.union bounds) (max sibling.maxOrder order)
            (.internal (maxEnd order sibling.maxOrder newIdx child.index))]).set currentIdx
          { current with kind := .internal (ys.map Part.index) }) ∧
      ys ~ left ++ new :: right ∧ (current.maxOrder < order → ys.getLast? = some new) ∧
      (¬ current.maxOrder < order → ys = left ++ new :: right) := by
  have replaced : ((left ++ child :: right).map Part.index).set best.childPos nodes.length =
      (left ++ new :: right).map Part.index := by
    rw [isPos, ← newIndex]
    simp
  have length : ((left ++ new :: right).map Part.index).length = (left ++ new :: right).length := by
    simp
  have here : (left ++ new :: right)[left.length]? = some new := by simp
  simp only [splitLeaf, replaced, isIndex, length]
  split_ifs with high
  · obtain ⟨ys, swapped, perm, ends⟩ := swap_last Part.index here
    simp only [checkedSub_of_le (show 1 ≤ (left ++ new :: right).length by simp; omega), ok_bind, isPos, swapped]
    exact ⟨ys, rfl, perm, fun _ => ends, fun stays => by omega⟩
  · refine ⟨left ++ new :: right, rfl, .refl _, fun above => ?_, fun _ => rfl⟩
    omega

omit [Add U] [Sub U] [LinearOrder U] in
theorem moveToEnd_spec {left : List (Part U)} {child : Part U} (first : child.index ∉ left.map Part.index)
    (right : List (Part U)) : ∃ ys : List (Part U),
    moveToEnd ((left ++ child :: right).map Part.index) child.index = .ok (ys.map Part.index) ∧ ys ~ left ++ child ::
    right ∧ ys.getLast? = some child := by
  have pos : ((left ++ child :: right).map Part.index).findIdx? (· == child.index) = some left.length := by
    have absent : (left.map Part.index).findIdx? (· == child.index) = none := by
      rw [List.findIdx?_eq_none_iff]
      intro i mem
      rw [beq_eq_false_iff_ne]
      rintro rfl
      exact first mem
    rw [List.map_append, List.findIdx?_append, absent]
    simp [List.findIdx?_cons]
  have here : (left ++ child :: right)[left.length]? = some child := by simp
  have length : ((left ++ child :: right).map Part.index).length = (left ++ child :: right).length := by simp
  simp only [moveToEnd, pos, length,
    checkedSub_of_le (show 1 ≤ (left ++ child :: right).length by simp; omega), ok_bind]
  split_ifs with other
  · obtain ⟨ys, swapped, perm, ends⟩ := swap_last Part.index here
    exact ⟨ys, swapped, perm, ends⟩
  · have none : right = [] := by
      rw [List.length_append, List.length_cons] at other
      rw [← List.length_eq_zero_iff]
      omega
    subst none
    exact ⟨left ++ [child], rfl, .refl _, List.getLast?_concat⟩

theorem propagateStep_none {nodeIdx : Nat} {node : Node U} (stored : nodes[nodeIdx]? = some node) :
    propagateStep bounds order (nodes, none) nodeIdx =
      .ok (nodes.set nodeIdx ⟨node.bounds.union bounds, max node.maxOrder order, node.kind⟩, some nodeIdx) := by
  simp only [propagateStep, index_of_getElem? stored, ok_bind]
  split_ifs with low
  · rw [Nat.max_eq_right low.le]
    rfl
  · rw [Nat.max_eq_left (Nat.le_of_not_lt low)]
    rfl

theorem propagateStep_some (bounds : Bounds U) (order : Nat) {nodeIdx : Nat} {node : Node U} {left right : List (Part U)}
    {child : Part U} (stored : nodes[nodeIdx]? = some node)
    (isInternal : node.kind = .internal ((left ++ child :: right).map Part.index))
    (first : child.index ∉ left.map Part.index) :
    ∃ ys : List (Part U), propagateStep bounds order (nodes, some child.index) nodeIdx =
        .ok (nodes.set nodeIdx ⟨node.bounds.union bounds, max node.maxOrder order,
          .internal (ys.map Part.index)⟩, some nodeIdx) ∧
      ys ~ left ++ child :: right ∧ (node.maxOrder < order → ys.getLast? = some child) ∧
      (¬ node.maxOrder < order → ys = left ++ child :: right) := by
  simp only [propagateStep, index_of_getElem? stored, ok_bind, isInternal]
  split_ifs with low
  · obtain ⟨ys, moved, perm, ends⟩ := moveToEnd_spec first right
    rw [Nat.max_eq_right low.le]
    simp only [moved, ok_bind]
    exact ⟨ys, rfl, perm, fun _ => ends, fun high => absurd low high⟩
  · rw [Nat.max_eq_left (Nat.le_of_not_lt low)]
    refine ⟨left ++ child :: right, ?_, .refl _, fun high => absurd high low, fun _ => rfl⟩
    rw [← isInternal]
    rfl

end Steps

/-! ## Where the leaf goes -/

section Place

variable {newIdx : Nat} {leaf : Bounds U × Nat}

theorem Grown.pair (joins : Bounds.Joins kept) {siblingIdx siblingOrder : Nat} {siblingBounds : Bounds U}
    (siblingKept : kept siblingBounds) (leafKept : kept leaf.1)
    (sibling : nodes[siblingIdx]? = some ⟨siblingBounds, siblingOrder, .leaf siblingOrder⟩)
    (new : nodes[newIdx]? = some ⟨leaf.1, leaf.2, .leaf leaf.2⟩) :
    ∃ part', part'.index = nodes.length ∧ Grown kept nodes
      (nodes ++ [Node.mk (siblingBounds.union leaf.1) (max siblingOrder leaf.2)
        (.internal (maxEnd leaf.2 siblingOrder newIdx siblingIdx))])
      newIdx leaf ⟨siblingIdx, siblingBounds, siblingOrder, [siblingIdx], [(siblingBounds, siblingOrder)]⟩ part' := by
  let old : Part U :=
    ⟨siblingIdx, siblingBounds, siblingOrder, [siblingIdx], [(siblingBounds, siblingOrder)]⟩
  let added : Part U := ⟨newIdx, leaf.1, leaf.2, [newIdx], [leaf]⟩
  let parts := if leaf.2 > siblingOrder then [old, added] else [added, old]
  have perm : parts ~ [added, old] := by
    simp only [parts]
    split_ifs
    · exact .swap _ _ _
    · exact .refl _
  have children : maxEnd leaf.2 siblingOrder newIdx siblingIdx = parts.map Part.index := by
    simp only [maxEnd, parts]
    split_ifs <;> rfl
  have ends : ∃ part, parts.getLast? = some part ∧ part.maxOrder = max siblingOrder leaf.2 := by
    simp only [parts]
    split_ifs with high
    · exact ⟨added, rfl, (Nat.max_eq_right (Nat.le_of_lt high)).symm⟩
    · exact ⟨old, rfl, (Nat.max_eq_left (Nat.le_of_not_lt high)).symm⟩
  have mem : ∀ part ∈ parts, part = added ∨ part = old := by
    intro part here
    simpa using perm.mem_iff.mp here
  have newLow := (List.getElem?_eq_some_iff.mp new).1
  have siblingLow := (List.getElem?_eq_some_iff.mp sibling).1
  have gathers : Gathers (siblingBounds.union leaf.1) (max siblingOrder leaf.2) parts := by
    refine ⟨perm.length_eq.ge, ?_, ?_, ?_, ends⟩
    · rw [perm.length_eq]
      show 2 ≤ 12
      omega
    · intro part here
      rcases mem part here with rfl | rfl
      · exact joins.right siblingKept leafKept
      · exact joins.left siblingKept leafKept
    · intro part here
      rcases mem part here with rfl | rfl
      · exact Nat.le_max_right _ _
      · exact Nat.le_max_left _ _
  refine ⟨⟨nodes.length, _, _, nodes.length :: parts.flatMap Part.indices,
    parts.flatMap Part.leaves⟩, rfl, .internal (joins.union siblingKept leafKept) ?_ ?_ gathers, ?_, ?_, .refl _, rfl, ?_, ?_⟩
  · rw [children]
    exact List.getElem?_concat_length
  · intro part here
    rcases mem part here with rfl | rfl
    · exact .leaf leafKept ((List.getElem?_append_left newLow).trans new)
    · exact .leaf siblingKept ((List.getElem?_append_left siblingLow).trans sibling)
  · exact perm.flatMap_right _
  · refine ⟨[nodes.length, newIdx], ?_, ?_, (perm.flatMap_right _).cons _⟩
    · simp only [List.nodup_cons, List.mem_singleton, List.not_mem_nil, not_false_eq_true,
        List.nodup_nil, and_self, and_true]
      omega
    · intro i here
      simp only [List.mem_cons, List.not_mem_nil, or_false] at here
      omega
  · intro i low _
    exact List.getElem?_append_left low
  · intro i fresh
    rw [List.length_append, List.length_singleton] at fresh
    rcases fresh with rfl | top
    · have addedIn : added ∈ parts := perm.mem_iff.mpr (by simp)
      exact List.mem_cons_of_mem _ (List.mem_flatMap.mpr ⟨added, addedIn, List.mem_singleton_self _⟩)
    · obtain rfl : i = nodes.length := by omega
      exact List.mem_cons_self

theorem Grown.add (joins : Bounds.Joins kept) {index : Nat} {bounds : Bounds U} {maxOrder : Nat}
    {parts ys : List (Part U)} (isKept : kept bounds) (leafKept : kept leaf.1)
    (new : nodes[newIdx]? = some ⟨leaf.1, leaf.2, .leaf leaf.2⟩)
    (stored : nodes[index]? = some ⟨bounds, maxOrder, .internal (parts.map Part.index)⟩)
    (below : ∀ part ∈ parts, Subtree kept nodes part) (gathers : Gathers bounds maxOrder parts)
    (nodup : (index :: parts.flatMap Part.indices).Nodup)
    (before : ∀ i ∈ index :: parts.flatMap Part.indices, i < newIdx)
    (room : parts.length < maxChildren)
    (perm : ys ~ parts ++ [⟨newIdx, leaf.1, leaf.2, [newIdx], [leaf]⟩])
    (low : leaf.2 ≤ maxOrder → ys.getLast? = parts.getLast?)
    (high : ¬ leaf.2 ≤ maxOrder → ys = parts ++ [⟨newIdx, leaf.1, leaf.2, [newIdx], [leaf]⟩]) :
    Grown kept nodes (nodes.set index ⟨(bounds.union leaf.1).union leaf.1, max maxOrder leaf.2,
        .internal (ys.map Part.index)⟩)
      newIdx leaf
      ⟨index, bounds, maxOrder, index :: parts.flatMap Part.indices, parts.flatMap Part.leaves⟩
      ⟨index, (bounds.union leaf.1).union leaf.1, max maxOrder leaf.2,
        index :: ys.flatMap Part.indices, ys.flatMap Part.leaves⟩ := by
  have atLow := (List.getElem?_eq_some_iff.mp stored).1
  have alone := (List.nodup_cons.mp nodup).1
  have found : ∀ part ∈ ys, Subtree kept nodes part ∧ index ∉ part.indices := by
    intro part mem
    rcases List.mem_append.mp (perm.mem_iff.mp mem) with mem | mem
    · exact ⟨below part mem, fun here => alone (List.mem_flatMap.mpr ⟨part, mem, here⟩)⟩
    · rw [List.mem_singleton.mp mem]
      refine ⟨.leaf leafKept new, fun here => ?_⟩
      have := before index (by simp)
      rw [List.mem_singleton.mp here] at this
      exact Nat.lt_irrefl _ this
  have grownKept := joins.union isKept leafKept
  have added : Gathers (bounds.union leaf.1) (max maxOrder leaf.2) ys :=
    gathers.add joins isKept leafKept room rfl rfl perm low high
  have wider : Gathers ((bounds.union leaf.1).union leaf.1) (max maxOrder leaf.2) ys :=
    { added with within := fun part mem =>
        (added.within part mem).trans (joins.left grownKept leafKept) }
  refine ⟨.rebuild (joins.union grownKept leafKept) atLow (fun part mem => (found part mem).1) (fun part mem => (found part mem).2)
    wider, ?_, ⟨[newIdx], ?_, ?_, ?_⟩, ?_, rfl, ?_, ?_⟩
  · exact (perm.flatMap_right _).trans (by simp)
  · simp
  · simp
  · have more : ys.flatMap Part.indices ~ newIdx :: parts.flatMap Part.indices := (perm.flatMap_right _).trans (by simp)
    exact (more.cons index).trans (.swap _ _ _)
  · exact joins.least grownKept leafKept (.refl _) (joins.right isKept leafKept)
  · intro i low isLeaf
    rw [List.getElem?_set_ne]
    rintro rfl
    obtain ⟨_, _, atLeaf⟩ := isLeaf (by simp)
    cases atLeaf.symm.trans stored
  · intro i fresh
    rw [List.length_set] at fresh
    obtain rfl : i = newIdx := by omega
    have addedIn : _ ∈ ys := perm.mem_iff.mpr (List.mem_append_right _ (List.mem_singleton_self _))
    exact List.mem_cons_of_mem _ (List.mem_flatMap.mpr ⟨_, addedIn, List.mem_singleton_self _⟩)

end Place

/-! ## Down and up again -/

/-- The descent from `part` and the updates on the way back to it. -/
def Inserts (kept : Bounds U → Prop) (nodes : List (Node U)) (newIdx : Nat) (leaf : Bounds U × Nat) (fuel : Nat)
    (part : Part U) : Prop :=
  ∃ below tail above part', (∀ path, descendFor leaf.1 leaf.2 newIdx nodes fuel path part.index =
      .ok (below, path ++ tail)) ∧
    tail.reverse.foldlM (propagateStep leaf.1 leaf.2) (below, none) = .ok (above, some part.index) ∧
    part'.index = part.index ∧ Grown kept nodes above newIdx leaf part part'

section Descend

variable {newIdx : Nat} {leaf : Bounds U × Nat} {index : Nat} {bounds : Bounds U} {maxOrder : Nat}
  {left right : List (Part U)} {child : Part U} {best : Best U}
  (joins : Bounds.Joins kept) (isKept : kept bounds) (leafKept : kept leaf.1)
  (new : nodes[newIdx]? = some ⟨leaf.1, leaf.2, .leaf leaf.2⟩)
  (stored : nodes[index]? = some ⟨bounds, maxOrder, .internal ((left ++ child :: right).map Part.index)⟩)
  (below : ∀ part ∈ left ++ child :: right, Subtree kept nodes part)
  (gathers : Gathers bounds maxOrder (left ++ child :: right))
  (nodup : (index :: (left ++ child :: right).flatMap Part.indices).Nodup)
  (before : ∀ i ∈ index :: (left ++ child :: right).flatMap Part.indices, i < newIdx)
  (chosen : bestChild nodes leaf.1 ((left ++ child :: right).map Part.index) = .ok best)
  (isIndex : best.childIdx = child.index) (isPos : best.childPos = left.length)

include joins isKept leafKept new stored below gathers nodup before chosen isIndex in
theorem inserts_add {siblingBounds : Bounds U} {siblingOrder : Nat}
    (isLeaf : nodes[child.index]? = some ⟨siblingBounds, siblingOrder, .leaf siblingOrder⟩)
    (room : (left ++ child :: right).length < maxChildren) (fuel : Nat) :
    Inserts kept nodes newIdx leaf (fuel + 1) ⟨index, bounds, maxOrder,
      index :: (left ++ child :: right).flatMap Part.indices,
      (left ++ child :: right).flatMap Part.leaves⟩ := by
  obtain ⟨last, isLast, -⟩ := gathers.last
  obtain ⟨ys, added, perm, low, high⟩ := addLeaf_spec nodes index
    ⟨bounds, maxOrder, .internal ((left ++ child :: right).map Part.index)⟩ leaf.1 leaf.2
    ⟨newIdx, leaf.1, leaf.2, [newIdx], [leaf]⟩ room gathers.several isLast
  have atLow := (List.getElem?_eq_some_iff.mp stored).1
  have grown := Grown.add joins isKept leafKept new stored below gathers nodup before room perm low high
  have descended : ∀ path, descendFor leaf.1 leaf.2 newIdx nodes (fuel + 1) path index =
      .ok (nodes.set index ⟨bounds.union leaf.1, max maxOrder leaf.2,
        .internal (ys.map Part.index)⟩, path ++ [index]) := by
    intro path
    have fits : ((left ++ child :: right).map Part.index).length < maxChildren := by
      rwa [List.length_map]
    simp only [descendFor, index_of_getElem? stored, ok_bind, chosen, isIndex,
      index_of_getElem? isLeaf, if_pos fits, added]
    rfl
  refine ⟨_, [index], _, _, descended, ?_, ?_, grown⟩
  · rw [List.reverse_singleton, List.foldlM_cons,
      propagateStep_none (List.getElem?_set_self atLow), ok_bind, List.foldlM_nil, List.set_set]
    simp only [Nat.max_assoc, Nat.max_self]
    rfl
  · rfl

include joins isKept leafKept new stored below gathers nodup before chosen isIndex isPos in
theorem inserts_split {siblingBounds : Bounds U} {siblingOrder : Nat}
    (isLeaf : nodes[child.index]? = some ⟨siblingBounds, siblingOrder, .leaf siblingOrder⟩)
    (alone : child = ⟨child.index, siblingBounds, siblingOrder, [child.index], [(siblingBounds, siblingOrder)]⟩)
    (full : ¬ (left ++ child :: right).length < maxChildren) (fuel : Nat) :
    Inserts kept nodes newIdx leaf (fuel + 1) ⟨index, bounds, maxOrder,
      index :: (left ++ child :: right).flatMap Part.indices,
      (left ++ child :: right).flatMap Part.leaves⟩ := by
  have siblingKept : kept siblingBounds := by
    have childKept := (below child (by simp)).isKept
    rwa [alone] at childKept
  obtain ⟨pair, pairIndex, paired⟩ := Grown.pair joins siblingKept leafKept isLeaf new
  rw [← alone] at paired
  have siblingLe : siblingOrder ≤ maxOrder := by
    have le := gathers.le child (by simp)
    rwa [alone] at le
  obtain ⟨ys, split, perm, moved, stays⟩ := splitLeaf_spec index
    ⟨bounds, maxOrder, .internal ((left ++ child :: right).map Part.index)⟩
    ⟨siblingBounds, siblingOrder, .leaf siblingOrder⟩ leaf.1 leaf.2 newIdx right siblingLe isPos
    isIndex pairIndex
  have atLow := (List.getElem?_eq_some_iff.mp stored).1
  have grown := paired.climb joins isKept leafKept stored below gathers nodup before perm moved stays
  have descended : ∀ path, descendFor leaf.1 leaf.2 newIdx nodes (fuel + 1) path index =
      .ok ((nodes ++ [Node.mk (siblingBounds.union leaf.1) (max siblingOrder leaf.2)
        (.internal (maxEnd leaf.2 siblingOrder newIdx child.index))]).set index
          ⟨bounds, maxOrder, .internal (ys.map Part.index)⟩, path ++ [index]) := by
    intro path
    have none : ¬ ((left ++ child :: right).map Part.index).length < maxChildren := by
      rwa [List.length_map]
    simp only [descendFor, index_of_getElem? stored, ok_bind, chosen, isIndex, index_of_getElem? isLeaf, if_neg none]
    rw [split]
    rfl
  refine ⟨_, [index], _, _, descended, ?_, ?_, grown⟩
  · rw [List.reverse_singleton, List.foldlM_cons,
      propagateStep_none (List.getElem?_set_self (by rw [List.length_append]; omega)), ok_bind,
      List.foldlM_nil, List.set_set]
    rfl
  · rfl

include joins isKept leafKept stored below gathers nodup before chosen isIndex in
theorem inserts_below {childBounds : Bounds U} {childMax : Nat} {children : List Nat}
    (isInternal : nodes[child.index]? = some ⟨childBounds, childMax, .internal children⟩)
    {fuel : Nat} (inserts : Inserts kept nodes newIdx leaf fuel child) :
    Inserts kept nodes newIdx leaf (fuel + 1) ⟨index, bounds, maxOrder,
      index :: (left ++ child :: right).flatMap Part.indices,
      (left ++ child :: right).flatMap Part.leaves⟩ := by
  obtain ⟨nodesBelow, tail, nodesAbove, child', descended, climbed, sameIndex, grown⟩ := inserts
  have childMem : child ∈ left ++ child :: right := by simp
  have outside : index ∉ child.indices := by
    intro mem
    exact (List.nodup_cons.mp nodup).1 (List.mem_flatMap.mpr ⟨child, childMem, mem⟩)
  have here : nodesAbove[index]? = nodes[index]? :=
    grown.frame index (List.getElem?_eq_some_iff.mp stored).1 fun mem => absurd mem outside
  have first : child'.index ∉ left.map Part.index := by
    rw [sameIndex, List.mem_map]
    rintro ⟨part, mem, same⟩
    have partIn := (below part (by simp [mem])).index_mem
    have childIn := (below child childMem).index_mem
    rw [List.flatMap_append, List.flatMap_cons] at nodup
    have apart := (List.nodup_append.mp (List.nodup_cons.mp nodup).2).2.2
    exact apart _ (List.mem_flatMap.mpr ⟨part, mem, partIn⟩) _ (by simp [childIn]) same
  have sameChildren : (left ++ child :: right).map Part.index = (left ++ child' :: right).map Part.index := by
    simp [sameIndex]
  obtain ⟨ys, stepped, perm, moved, stays⟩ := propagateStep_some leaf.1 leaf.2
    (here.trans stored) (congrArg NodeKind.internal sameChildren) first
  refine ⟨nodesBelow, index :: tail, _, _, fun path => ?_, ?_, ?_,
    grown.climb joins isKept leafKept stored below gathers nodup before perm moved stays⟩
  · simp only [descendFor, index_of_getElem? stored, ok_bind, chosen, isIndex,
      index_of_getElem? isInternal, descended, List.append_assoc, List.singleton_append]
  · rw [List.reverse_cons, List.foldlM_append, climbed, ok_bind, List.foldlM_cons, ← sameIndex, stepped, ok_bind]
    rfl
  · rfl

end Descend

theorem Subtree.inserts (joins : Bounds.Joins kept) {newIdx : Nat} {leaf : Bounds U × Nat} {part : Part U}
    (leafKept : kept leaf.1) (subtree : Subtree kept nodes part)
    (new : nodes[newIdx]? = some ⟨leaf.1, leaf.2, .leaf leaf.2⟩)
    (isInternal : ∃ bounds maxOrder children, nodes[part.index]? = some ⟨bounds, maxOrder, .internal children⟩)
    (nodup : part.indices.Nodup) (before : ∀ i ∈ part.indices, i < newIdx) (fuel : Nat)
    (enough : part.indices.length ≤ fuel) : Inserts kept nodes newIdx leaf fuel part := by
  induction subtree generalizing fuel with
  | leaf isKept stored =>
    obtain ⟨_, _, _, at_⟩ := isInternal
    cases at_.symm.trans stored
  | @internal index bounds maxOrder parts isKept stored below gathers ih =>
    obtain ⟨best, left, child, right, chosen, rfl, isIndex, isPos⟩ := bestChild_spec leaf.1 below gathers.several
    have childMem : child ∈ left ++ child :: right := by simp
    have inside : ∀ i ∈ child.indices, i ∈ (left ++ child :: right).flatMap Part.indices :=
      fun i mem => List.mem_flatMap.mpr ⟨child, childMem, mem⟩
    rw [List.length_cons] at enough
    obtain ⟨fuel, rfl⟩ := Nat.exists_eq_succ_of_ne_zero (show fuel ≠ 0 by omega)
    obtain ⟨kind, at_⟩ := (below child childMem).stored
    cases kind with
    | leaf siblingOrder =>
      obtain ⟨sameOrder, alone⟩ := (below child childMem).eq_leaf at_
      rw [sameOrder] at at_
      rcases Nat.lt_or_ge (left ++ child :: right).length maxChildren with room | full
      · exact inserts_add joins isKept leafKept new stored below gathers nodup before chosen isIndex at_ room fuel
      · exact inserts_split joins isKept leafKept new stored below gathers nodup before chosen isIndex isPos at_ alone
          (Nat.not_lt.mpr full) fuel
    | internal children =>
      have nodupChild : child.indices.Nodup := by
        rw [List.flatMap_append, List.flatMap_cons] at nodup
        have fromChild := (List.nodup_append.mp (List.nodup_cons.mp nodup).2).2.1
        exact (List.nodup_append.mp fromChild).1
      have shorter : child.indices.length ≤ ((left ++ child :: right).flatMap Part.indices).length := by
        simp
        omega
      exact inserts_below joins isKept leafKept stored below gathers nodup before chosen isIndex at_
        (ih child childMem ⟨_, _, _, at_⟩ nodupChild
          (fun i mem => before i (List.mem_cons_of_mem _ (inside i mem))) fuel (by omega))

end Pinrail.Geometry

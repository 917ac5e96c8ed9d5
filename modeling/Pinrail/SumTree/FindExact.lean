import Pinrail.SumTree.FindWithPrev

/-!
# Finding an item that ends at a target

`find_exact` goes down to one leaf by the bias and looks for an exact end in that leaf only. With
`Bias::Left` that is the leaf of the first such end. With `Bias::Right` it is the first leaf that ends
beyond the target, and exact ends in earlier leaves are missed.
-/

namespace Pinrail
open Lib SumTree Cursor

variable {T S D : Type}

/-! ## Leaves -/

namespace SumTree

mutual

def leaves : SumTree T S → List (List T)
  | .internal _ _ _ childTrees => leavesOf childTrees
  | .leaf _ items _ => [items]

def leavesOf : List (SumTree T S) → List (List T)
  | [] => []
  | tree :: trees => leaves tree ++ leavesOf trees

end

end SumTree

namespace SumTree

theorem flatten_leavesOf (trees : List (SumTree T S)) (each : ∀ tree ∈ trees, tree.leaves.flatten = tree.toList) :
    (leavesOf trees).flatten = toLists trees := by
  induction trees with
  | nil => rfl
  | cons tree trees ih =>
    rw [leavesOf, List.flatten_append, each tree (by simp), toLists_cons, ih fun t mem => each t (by simp [mem])]

theorem leavesOf_append (left right : List (SumTree T S)) :
    leavesOf (left ++ right) = leavesOf left ++ leavesOf right := by
  induction left with
  | nil => rfl
  | cons tree left ih => rw [List.cons_append, leavesOf, ih, leavesOf, List.append_assoc]

theorem mem_leavesOf {trees : List (SumTree T S)} {leaf : List T} :
    leaf ∈ leavesOf trees ↔ ∃ tree ∈ trees, leaf ∈ tree.leaves := by
  induction trees with
  | nil => simp [leavesOf]
  | cons tree trees ih => simp [leavesOf, ih]

variable [Summary S] [Item T S]

theorem Balanced.flatten_leaves {h : Nat} {tree : SumTree T S} (balanced : Balanced h tree) :
    tree.leaves.flatten = tree.toList := by
  induction balanced with
  | leaf nonempty fits => simp [leaves]
  | internal nonempty fits below ih =>
    rw [leaves, toList_internal]
    exact flatten_leavesOf _ ih

theorem Balanced.leaf_ne_nil {h : Nat} {tree : SumTree T S} (balanced : Balanced h tree) :
    ∀ leaf ∈ tree.leaves, leaf ≠ [] := by
  induction balanced with
  | leaf nonempty fits => simpa [leaves] using nonempty
  | internal nonempty fits below ih =>
    intro leaf mem
    obtain ⟨tree, member, leafMem⟩ := mem_leavesOf.mp mem
    exact ih tree member leaf leafMem

end SumTree

variable [Summary S] [Item T S] [Dimension S D] {target : SeekTarget D} {bias : Bias}

/-! ## The leaf that a descent reaches -/

def leafAt (target : SeekTarget D) (bias : Bias) : D → List (List T) → Option (D × List T)
  | _, [] => none
  | d, items :: rest =>
    let leafEnd := items.foldl (fun d item => Dimension.addSummary d (Item.summary item : S)) d
    if target.passes bias leafEnd then leafAt target bias leafEnd rest else some (d, items)

def ending (target : SeekTarget D) : D → List T → Option T
  | _, [] => none
  | d, item :: items =>
    let itemEnd := Dimension.addSummary d (Item.summary item : S)
    if target.cmp itemEnd = .eq then some item else ending target itemEnd items

namespace Cursor

omit [Summary S] in
theorem measure_foldl (before items : List T) :
    items.foldl (fun d item => Dimension.addSummary d (Item.summary item : S))
    (measure before : D) = measure (before ++ items) := by
  rw [measure, measure, List.foldl_append]

omit [Summary S] in
theorem leafAt_append {items : List T} (mono : Monotone target bias items) (before : List T)
    (stretch rest : List (List T)) (within : before ++ stretch.flatten <+: items)
    (pass : stretch ≠ [] → target.passes bias (measure (before ++ stretch.flatten)) = true) :
    leafAt target bias (measure before : D)
    (stretch ++ rest) = leafAt target bias (measure (before ++ stretch.flatten)) rest := by
  induction stretch generalizing before with
  | nil => simp
  | cons leaf stretch ih =>
    have regroup : before ++ (leaf :: stretch).flatten = (before ++ leaf) ++ stretch.flatten := by
      simp
    rw [regroup] at within pass ⊢
    have first := mono _ _ within (pass (by simp))
    rw [List.cons_append, leafAt, measure_foldl, if_pos first]
    exact ih (before ++ leaf) within fun _ => pass (by simp)

omit [Summary S] in
theorem leafAt_append_of_some {d : D} {stretch : List (List T)} {found : D × List T} (rest : List (List T))
    (stops : leafAt target bias d stretch = some found) : leafAt target bias d (stretch ++ rest) = some found := by
  induction stretch generalizing d with
  | nil => cases stops
  | cons leaf stretch ih =>
    rw [List.cons_append]
    simp only [leafAt] at stops ⊢
    split_ifs at stops ⊢
    · exact ih stops
    · exact stops

omit [Summary S] in
theorem leafAt_eq_some {before : List T} {leaves : List (List T)} {d : D} {leaf : List T}
    (stops : leafAt target bias (measure before : D) leaves = some (d, leaf)) : ∃ front back, leaves = front ++ leaf ::
    back ∧ d = measure (before ++ front.flatten) ∧
    (front ≠ [] → target.passes bias (measure (before ++ front.flatten)) = true) ∧
    target.passes bias (measure (before ++ front.flatten ++ leaf)) = false := by
  induction leaves generalizing before with
  | nil => cases stops
  | cons first leaves ih =>
    simp only [leafAt, measure_foldl] at stops
    split_ifs at stops with pass
    · obtain ⟨front, back, rfl, rfl, passes, stays⟩ := ih stops
      refine ⟨first :: front, back, rfl, by simp, fun _ => ?_, by simpa using stays⟩
      cases front with
      | nil => simpa using pass
      | cons next front => simpa using passes (by simp)
    · cases stops
      exact ⟨[], leaves, rfl, by simp, by simp, by simpa using pass⟩

variable [LawfulSummary S] [LawfulDimension S D]

/-- What a descent below a node with the leaves `leaves` finds, behind the items `before`: it looks
through one leaf. -/
def Descends (exact : Bool) (target : SeekTarget D) (bias : Bias) (before : List T)
    (leaves : List (List T)) (found : Option (T × D) × D) : Prop :=
  ∃ d leaf, leafAt target bias (measure before : D) leaves = some (d, leaf) ∧
    found = findItem exact target bias (leaf.map fun item => (item, (Item.summary item : S))) d

theorem findChild_descends {exact : Bool} {items : List T} (mono : Monotone target bias items)
    {h : Nat} (trees : List (SumTree T S)) (balanced : ∀ tree ∈ trees, Balanced h tree)
    (below : ∀ tree ∈ trees, ∀ before : List T, before ++ tree.toList <+: items →
      target.passes bias (measure (before ++ tree.toList)) = false →
      Descends exact target bias before tree.leaves (findIterate exact target bias tree (measure before)))
    (before : List T) (nonempty : trees ≠ []) (within : before ++ toLists trees <+: items)
    (inside : target.passes bias (measure (before ++ toLists trees)) = false) :
    Descends exact target bias before (leavesOf trees)
      (findChild exact target bias trees (trees.map summary) (measure before)) := by
  induction trees generalizing before with
  | nil => exact absurd rfl nonempty
  | cons tree trees ih =>
    have treeBalanced := balanced tree (by simp)
    rw [toLists_cons] at within inside
    have first : before ++ tree.toList <+: items := (List.prefix_append _ (toLists trees)).trans (by simpa using within)
    simp only [List.map_cons, findChild, inChild_eq, measure_tree before treeBalanced, leavesOf]
    cases pass : target.passes bias (measure (before ++ tree.toList)) with
    | false =>
      obtain ⟨d, leaf, stops, eq⟩ := below tree (by simp) before first pass
      exact ⟨d, leaf, leafAt_append_of_some _ stops, eq⟩
    | true =>
      cases trees with
      | nil =>
        rw [toLists_nil, List.append_nil, pass] at inside
        cases inside
      | cons next trees =>
        obtain ⟨d, leaf, stops, eq⟩ :=
          ih (fun t mem => balanced t (by simp [mem])) (fun t mem => below t (by simp [mem]))
            (before ++ tree.toList) (by simp) (by simpa using within) (by simpa using inside)
        refine ⟨d, leaf, ?_, eq⟩
        rw [← treeBalanced.flatten_leaves] at stops pass first
        rw [leafAt_append mono before _ _ first fun _ => pass, stops]

theorem findIterate_descends {exact : Bool} {items : List T} (mono : Monotone target bias items) {h : Nat}
    {tree : SumTree T S} (balanced : Balanced h tree) (before : List T) (within : before ++ tree.toList <+: items)
    (inside : target.passes bias (measure (before ++ tree.toList)) = false) :
    Descends exact target bias before tree.leaves (findIterate exact target bias tree (measure before)) := by
  induction balanced generalizing before with
  | @leaf xs nonempty fits =>
    refine ⟨measure before, xs, ?_, ?_⟩
    · rw [leaves, leafAt, measure_foldl]
      simp only [toList_leaf] at inside
      rw [inside]
      rfl
    · rw [findIterate, zip_map_self]
  | internal nonempty fits below ih =>
    rw [findIterate, leaves]
    exact findChild_descends mono _ below (fun tree mem => ih tree mem) before nonempty within inside

/-! ## Exact ends -/

omit [Summary S] [LawfulSummary S] [LawfulDimension S D] in
theorem ending_append (before left right : List T) : ending target (measure before : D)
    (left ++ right) = (ending target (measure before) left).or (ending target (measure (before ++ left)) right) := by
  induction left generalizing before with
  | nil => simp [ending]
  | cons item left ih =>
    simp only [List.cons_append, ending, measure_concat]
    split_ifs
    · rfl
    · rw [ih (before ++ [item])]
      simp

omit [Summary S] [LawfulSummary S] [LawfulDimension S D] in
theorem ending_eq_none {before items : List T} : ending target (measure before : D) items = none ↔ ∀ stretch,
    stretch ≠ [] → stretch <+: items → target.cmp (measure (before ++ stretch)) ≠ .eq := by
  induction items generalizing before with
  | nil =>
    simp only [ending, true_iff, List.prefix_nil]
    exact fun stretch nonempty empty => absurd empty nonempty
  | cons item items ih =>
    simp only [ending, measure_concat]
    constructor
    · intro none stretch nonempty within
      obtain ⟨rest, rfl⟩ : ∃ rest, stretch = item :: rest := by
        obtain ⟨first, rest, rfl⟩ := List.exists_cons_of_ne_nil nonempty
        obtain rfl := (List.cons_prefix_cons.mp within).1
        exact ⟨rest, rfl⟩
      split_ifs at none with same
      cases rest with
      | nil => exact same
      | cons next rest =>
        have apart := ih.mp none (next :: rest) (by simp) (List.cons_prefix_cons.mp within).2
        simpa using apart
    · intro apart
      rw [if_neg (apart [item] (by simp) (by simp)), ih]
      intro stretch nonempty within
      have longer := apart (item :: stretch) (by simp) (List.cons_prefix_cons.mpr ⟨rfl, within⟩)
      simpa using longer

omit [Summary S] [LawfulSummary S] [LawfulDimension S D] in
theorem ending_passed {items : List T} (mono : Monotone target .left items) {before stretch : List T}
    (within : before ++ stretch <+: items)
    (pass : stretch ≠ [] → target.passes .left (measure (before ++ stretch)) = true) :
    ending target (measure before : D) stretch = none := by
  refine ending_eq_none.mpr fun front nonempty ⟨back, split⟩ same => ?_
  rw [← split, ← List.append_assoc] at within pass
  have passes := mono (before ++ front) back within (pass (by simp [nonempty]))
  rw [SeekTarget.passes, same] at passes
  cases passes

omit [Summary S] [LawfulSummary S] [LawfulDimension S D] in
theorem ending_beyond {before rest : List T} (mono : Monotone target .right (before ++ rest))
    (beyond : target.passes .right (measure before : D) = false) : ending target (measure before : D) rest = none := by
  refine ending_eq_none.mpr fun front _ within same => ?_
  have pass : target.passes .right (measure (before ++ front) : D) = true := by
    rw [SeekTarget.passes, same]
    rfl
  rw [mono before front ((List.prefix_append_right_inj before).mpr within) pass] at beyond
  cases beyond

omit [Summary S] [LawfulSummary S] [LawfulDimension S D] in
theorem findItem_exact (items : List T) (d : D) :
    (findItem true target bias (items.map fun item => (item, (Item.summary item : S))) d).1.map
      Prod.fst = ending target d items := by
  induction items generalizing d with
  | nil => rfl
  | cons item items ih =>
    simp only [List.map_cons, findItem, if_true, ending, beq_iff_eq]
    split_ifs
    · rfl
    · exact ih _

omit [Summary S] [Item T S] [LawfulSummary S] [LawfulDimension S D] in
theorem findExact_item (tree : SumTree T S) : (tree.findExact target bias).2.2 =
      if target.passes bias (Dimension.addSummary (Dimension.zero S : D) tree.summary) then none
      else (findIterate true target bias tree (Dimension.zero S)).1.map Prod.fst := by
  rw [findExact, findWith]
  split_ifs
  · rfl
  · rcases findIterate true target bias tree (Dimension.zero S : D) with ⟨_ | ⟨item, itemEnd⟩, position⟩
    · rfl
    · rfl

/-- The first leaf that ends beyond the target has the first of all items that end at it. -/
def SharesLeaf (target : SeekTarget D) (tree : SumTree T S) : Prop :=
  ∃ d leaf, leafAt target .right (Dimension.zero S : D) tree.leaves = some (d, leaf) ∧
    ending target d leaf = ending target (Dimension.zero S) tree.toList

variable {tree : SumTree T S}

theorem findExact_descends {h : Nat} (balanced : Balanced h tree) (mono : Monotone target bias tree.toList) :
    (target.passes bias (measure tree.toList : D) = true ∧ (tree.findExact target bias).2.2 = none) ∨ ∃ front leaf back,
    tree.leaves = front ++ leaf :: back ∧ tree.toList = front.flatten ++ (leaf ++ back.flatten) ∧
    leafAt target bias (Dimension.zero S : D) tree.leaves = some (measure front.flatten, leaf) ∧
    (front ≠ [] → target.passes bias (measure front.flatten : D) = true) ∧
    target.passes bias (measure (front.flatten ++ leaf) : D) = false ∧
    (tree.findExact target bias).2.2 = ending target (measure front.flatten : D) leaf := by
  have treeEnd : Dimension.addSummary (Dimension.zero S : D) tree.summary =
      measure ([] ++ tree.toList) := measure_tree [] balanced
  rw [findExact_item, treeEnd, List.nil_append]
  split_ifs with pass
  · exact .inl ⟨pass, rfl⟩
  · have descends : Descends true target bias [] tree.leaves
        (findIterate true target bias tree (measure ([] : List T))) :=
      findIterate_descends mono balanced [] List.prefix_rfl (by simpa using pass)
    obtain ⟨d, leaf, stops, eq⟩ := descends
    obtain ⟨front, back, split, rfl, passes, stays⟩ := leafAt_eq_some stops
    have start : (Dimension.zero S : D) = measure ([] : List T) := rfl
    rw [List.nil_append] at stops eq passes stays
    refine .inr ⟨front, leaf, back, split, ?_, stops, passes, stays, ?_⟩
    · rw [← balanced.flatten_leaves, split, List.flatten_append, List.flatten_cons]
    · rw [start, eq, findItem_exact]

theorem findExact_left {h : Nat} (balanced : Balanced h tree) (mono : ∀ bias, Monotone target bias tree.toList) :
    (tree.findExact target .left).2.2 = ending target (Dimension.zero S : D) tree.toList := by
  have start : (Dimension.zero S : D) = measure ([] : List T) := rfl
  rcases findExact_descends balanced (mono .left) with
    ⟨pass, eq⟩ | ⟨front, leaf, back, split, items, -, passes, stays, eq⟩
  · rw [eq, start, ending_passed (mono .left) List.prefix_rfl fun _ => pass]
  · have nonempty : leaf ≠ [] := balanced.leaf_ne_nil leaf (by simp [split])
    have frontNone : ending target (measure ([] : List T) : D) front.flatten = none := by
      refine ending_passed (mono .left) (by simp [items]) fun some => passes ?_
      rintro rfl
      exact some rfl
    rw [eq, start, items, ending_append, frontNone, Option.none_or, List.nil_append, ending_append]
    cases found : ending target (measure front.flatten : D) leaf with
    | some item => rfl
    | none =>
      -- The leaf does not end at the target and is not passed, so it ends beyond it.
      have apart := ending_eq_none.mp found leaf nonempty List.prefix_rfl
      have beyond : target.passes .right (measure (front.flatten ++ leaf) : D) = false := by
        rw [SeekTarget.passes] at stays ⊢
        cases order : target.cmp (measure (front.flatten ++ leaf) : D) with
        | lt => rfl
        | eq => exact absurd order apart
        | gt => rw [order] at stays; cases stays
      have ordered := mono .right
      rw [items, ← List.append_assoc] at ordered
      rw [ending_beyond ordered beyond]
      rfl

theorem findExact_right {h : Nat} (balanced : Balanced h tree) (mono : Monotone target .right tree.toList) :
    (tree.findExact target .right).2.2 = ending target (Dimension.zero S : D) tree.toList ↔
    ending target (Dimension.zero S : D) tree.toList = none ∨ SharesLeaf target tree := by
  have start : (Dimension.zero S : D) = measure ([] : List T) := rfl
  rcases findExact_descends balanced mono with
    ⟨pass, eq⟩ | ⟨front, leaf, back, split, items, stops, -, -, eq⟩
  · rw [eq]
    refine ⟨fun same => .inl same.symm, fun either => either.elim Eq.symm ?_⟩
    rintro ⟨d, leaf, stops, -⟩
    rw [← balanced.flatten_leaves] at mono pass
    have through := leafAt_append mono [] tree.leaves [] List.prefix_rfl fun _ => pass
    rw [List.append_nil, ← start, stops] at through
    cases through
  · rw [eq]
    constructor
    · exact fun same => .inr ⟨_, leaf, stops, same⟩
    · rintro (none | ⟨d, other, stops', same⟩)
      · have parts := none
        rw [start, items, ending_append, ending_append, List.nil_append] at parts
        rw [none]
        exact (Option.or_eq_none_iff.mp (Option.or_eq_none_iff.mp parts).2).1
      · rw [stops] at stops'
        cases stops'
        exact same

end Cursor

/-- `find_exact` returns the first item that ends at the target exactly when it looks for it on the
left, or there is none, or that item is in the first leaf that ends beyond the target. -/
theorem findExact_iff {tree : SumTree T S} [LawfulSummary S] [LawfulDimension S D] (wellFormed : WellFormed tree)
    (target : SeekTarget D) (bias : Bias) (mono : ∀ bias, Monotone target bias tree.toList) :
    (tree.findExact target bias).2.2 = ending target (Dimension.zero S : D) tree.toList ↔ bias = .left ∨
    ending target (Dimension.zero S : D) tree.toList = none ∨ SharesLeaf target tree := by
  rcases wellFormed with rfl | ⟨h, balanced⟩
  · refine ⟨fun _ => .inr (.inl rfl), fun _ => ?_⟩
    rw [findExact_item]
    split_ifs
    · rfl
    · rfl
  · cases bias with
    | left => exact ⟨fun _ => .inl rfl, fun _ => findExact_left balanced mono⟩
    | right =>
      rw [findExact_right balanced (mono .right)]
      exact ⟨.inr, fun either => either.resolve_left (by simp)⟩

def oneLeaf : SumTree Nat IntegersSummary :=
  .leaf ⟨2, 3, true, 2⟩ [1, 2] [⟨1, 1, false, 1⟩, ⟨1, 2, true, 2⟩]

def twoLeaves : SumTree Nat IntegersSummary :=
  .internal 1 ⟨2, 3, true, 2⟩ [⟨1, 1, false, 1⟩, ⟨1, 2, true, 2⟩] [single, .leaf ⟨1, 2, true, 2⟩ [2] [⟨1, 2, true, 2⟩]]

theorem oneLeaf_wellFormed : WellFormed oneLeaf := .inr ⟨0, balanced_leaf [1, 2] (by simp) (by decide)⟩

theorem twoLeaves_wellFormed : WellFormed twoLeaves := by
  have second : Balanced 0 (.leaf ⟨1, 2, true, 2⟩ [2] [⟨1, 2, true, 2⟩] :
      SumTree Nat IntegersSummary) := balanced_leaf [2] (by simp) (by decide)
  have both : ∀ tree ∈ [single, .leaf ⟨1, 2, true, 2⟩ [2] [⟨1, 2, true, 2⟩]], Balanced 0 tree := by
    intro tree mem
    rcases List.mem_pair.mp mem with rfl | rfl
    · exact tower_balanced 1 0
    · exact second
  exact .inr ⟨1, balanced_internal (by simp) (by decide) both⟩

theorem findExact_iff_oneLeaf : (oneLeaf.findExact (.ofOrd (⟨1⟩ : Count)) .right).2.2 = ending (.ofOrd (⟨1⟩ : Count))
    (Dimension.zero IntegersSummary) oneLeaf.toList ↔ Bias.right = .left ∨ ending (.ofOrd (⟨1⟩ : Count))
    (Dimension.zero IntegersSummary) oneLeaf.toList = none ∨ SharesLeaf (.ofOrd (⟨1⟩ : Count)) oneLeaf :=
  findExact_iff oneLeaf_wellFormed (.ofOrd ⟨1⟩) .right fun _ => monotone_count _ _ _

/-- The first item ends at the target 1 in both trees, and is found in one of them. -/
theorem findExact_twoLeaves : WellFormed oneLeaf ∧ WellFormed twoLeaves ∧ oneLeaf.toList = twoLeaves.toList ∧
    (∀ bias, Monotone (.ofOrd (⟨1⟩ : Count)) bias twoLeaves.toList) ∧ ending (.ofOrd (⟨1⟩ : Count))
    (Dimension.zero IntegersSummary) twoLeaves.toList = some 1 ∧
    (oneLeaf.findExact (.ofOrd (⟨1⟩ : Count)) .right).2.2 = some 1 ∧
    (twoLeaves.findExact (.ofOrd (⟨1⟩ : Count)) .right).2.2 = none :=
  ⟨oneLeaf_wellFormed, twoLeaves_wellFormed, rfl, fun _ => monotone_count _ _ _, rfl, rfl, rfl⟩

end Pinrail

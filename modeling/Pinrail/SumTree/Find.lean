import Pinrail.SumTree.Seek

/-!
# Finding an item

`find` and `find_exact` go down from the root without a cursor. `find` stops at the item that a
fresh cursor rests on after a seek; `find_exact` asks for an item that ends at the target.
-/

namespace Pinrail
open Lib SumTree Cursor

variable {T S D : Type} [Summary S] [Item T S] [Dimension S D]

namespace SumTree

/-- Whether a node that ends at `childEnd` holds the target. -/
def inChild (target : SeekTarget D) (bias : Bias) (childEnd : D) : Bool :=
  target.cmp childEnd == .lt || (target.cmp childEnd == .eq && bias == .left)

/-- The loop over the items of a leaf: what is found and where it ends, and the position that the
loop leaves behind. -/
def findItem (exact : Bool) (target : SeekTarget D) (bias : Bias) :
    List (T × S) → D → Option (T × D) × D
  | [], position => (none, position)
  | (item, itemSummary) :: rest, position =>
    let childEnd := Dimension.addSummary position itemSummary
    let entryFound :=
      if exact then target.cmp childEnd == .eq else inChild target bias childEnd
    if entryFound then (some (item, childEnd), position)
    else findItem exact target bias rest childEnd

mutual

def findIterate (exact : Bool) (target : SeekTarget D) (bias : Bias) :
    SumTree T S → D → Option (T × D) × D
  | .internal _ _ childSummaries childTrees, position =>
    findChild exact target bias childTrees childSummaries position
  | .leaf _ items itemSummaries, position =>
    findItem exact target bias (items.zip itemSummaries) position

def findChild (exact : Bool) (target : SeekTarget D) (bias : Bias) :
    List (SumTree T S) → List S → D → Option (T × D) × D
  | childTree :: childTrees, childSummary :: childSummaries, position =>
    let childEnd := Dimension.addSummary position childSummary
    if inChild target bias childEnd then findIterate exact target bias childTree position
    else findChild exact target bias childTrees childSummaries childEnd
  | _, _, position => (none, position)

end

/-- `find_exact` and `find` but for the flag: the positions before and after the item. -/
def findWith (exact : Bool) (self : SumTree T S) (target : SeekTarget D) (bias : Bias) :
    D × D × Option T :=
  let treeEnd := Dimension.addSummary (Dimension.zero S) self.summary
  if target.passes bias treeEnd then (treeEnd, treeEnd, none)
  else
    match findIterate exact target bias self (Dimension.zero S) with
    | (some (item, itemEnd), position) => (position, itemEnd, some item)
    | (none, position) => (position, position, none)

def findExact (self : SumTree T S) (target : SeekTarget D) (bias : Bias) : D × D × Option T :=
  findWith true self target bias

def find (self : SumTree T S) (target : SeekTarget D) (bias : Bias) : D × D × Option T :=
  findWith false self target bias

end SumTree

namespace Cursor

theorem inChild_eq (target : SeekTarget D) (bias : Bias) (childEnd : D) :
    inChild target bias childEnd = !target.passes bias childEnd := by
  unfold inChild SeekTarget.passes
  cases target.cmp childEnd <;> cases bias <;> rfl

variable {target : SeekTarget D} {bias : Bias}

omit [Summary S] in
theorem passed_append_of_not (d : D) (stretch rest : List T) (nonempty : stretch ≠ [])
    (stays : target.passes bias (stretch.foldl (fun d item =>
      Dimension.addSummary d (Item.summary item : S)) d) = false) :
    passed target bias d (stretch ++ rest) = passed target bias d stretch := by
  induction stretch generalizing d with
  | nil => exact absurd rfl nonempty
  | cons item stretch ih =>
    rw [List.foldl_cons] at stays
    simp only [List.cons_append, passed]
    split_ifs with pass
    · cases stretch with
      | nil =>
        rw [List.foldl_nil, pass] at stays
        cases stays
      | cons next stretch => rw [ih _ (by simp) stays]
    · rfl

/-- What a search below a node with the items `items` finds, behind the items `before`: the first
item that the scan does not pass. -/
def Finds (target : SeekTarget D) (bias : Bias) (before items : List T)
    (found : Option (T × D) × D) : Prop :=
  ∃ left item right, items = left ++ item :: right ∧ passed target bias (measure before : D) items = left ∧
    found = (some (item, measure (before ++ left ++ [item])), measure (before ++ left))

omit [Summary S] in
theorem findItem_spec (before items : List T) (nonempty : items ≠ [])
    (inside : target.passes bias (measure (before ++ items)) = false) :
    Finds target bias before items (findItem false target bias
      (items.map fun item => (item, (Item.summary item : S))) (measure before)) := by
  induction items generalizing before with
  | nil => exact absurd rfl nonempty
  | cons item items ih =>
    simp only [List.map_cons, findItem, inChild_eq, measure_concat]
    cases pass : target.passes bias (measure (before ++ [item])) with
    | false =>
      refine ⟨[], item, items, rfl, ?_, by simp⟩
      rw [passed, measure_concat, pass]
      rfl
    | true =>
      cases items with
      | nil =>
        rw [pass] at inside
        cases inside
      | cons next items =>
        obtain ⟨left, found, right, split, scanned, eq⟩ := ih (before ++ [item]) (by simp) (by simpa using inside)
        refine ⟨item :: left, found, right, by rw [split]; rfl, ?_, ?_⟩
        · rw [passed, measure_concat, pass, if_pos rfl, scanned]
        · simpa using eq

variable [LawfulSummary S] [LawfulDimension S D]

theorem findChild_spec {items : List T} (mono : Monotone target bias items) {h : Nat}
    (trees : List (SumTree T S)) (balanced : ∀ tree ∈ trees, Balanced h tree)
    (below : ∀ tree ∈ trees, ∀ before : List T, before ++ tree.toList <+: items →
      target.passes bias (measure (before ++ tree.toList)) = false →
      Finds target bias before tree.toList (findIterate false target bias tree (measure before)))
    (before : List T) (nonempty : trees ≠ []) (within : before ++ toLists trees <+: items)
    (inside : target.passes bias (measure (before ++ toLists trees)) = false) :
    Finds target bias before (toLists trees)
      (findChild false target bias trees (trees.map summary) (measure before)) := by
  induction trees generalizing before with
  | nil => exact absurd rfl nonempty
  | cons tree trees ih =>
    have treeBalanced := balanced tree (by simp)
    rw [toLists_cons] at within inside ⊢
    have first : before ++ tree.toList <+: items := (List.prefix_append _ (toLists trees)).trans (by simpa using within)
    simp only [List.map_cons, findChild, inChild_eq, measure_tree before treeBalanced]
    cases pass : target.passes bias (measure (before ++ tree.toList)) with
    | false =>
      obtain ⟨left, item, right, split, scanned, eq⟩ := below tree (by simp) before first pass
      refine ⟨left, item, right ++ toLists trees, by rw [split]; simp, ?_, by simpa using eq⟩
      rw [passed_append_of_not _ _ _ treeBalanced.toList_ne_nil, scanned]
      rw [← pass, measure, measure, List.foldl_append]
    | true =>
      cases trees with
      | nil =>
        rw [toLists_nil, List.append_nil, pass] at inside
        cases inside
      | cons next trees =>
        obtain ⟨left, item, right, split, scanned, eq⟩ :=
          ih (fun t mem => balanced t (by simp [mem])) (fun t mem => below t (by simp [mem]))
            (before ++ tree.toList) (by simp) (by simpa using within) (by simpa using inside)
        refine ⟨tree.toList ++ left, item, right, by rw [split]; simp, ?_, by simpa using eq⟩
        rw [passed_append mono before tree.toList _ first fun _ => pass, scanned]

theorem findIterate_spec {items : List T} (mono : Monotone target bias items) {h : Nat} {tree : SumTree T S}
    (balanced : Balanced h tree) (before : List T) (within : before ++ tree.toList <+: items)
    (inside : target.passes bias (measure (before ++ tree.toList)) = false) :
    Finds target bias before tree.toList (findIterate false target bias tree (measure before)) := by
  induction balanced generalizing before with
  | leaf nonempty fits =>
    rw [findIterate, zip_map_self]
    exact findItem_spec before _ nonempty inside
  | internal nonempty fits below ih =>
    rw [findIterate]
    exact findChild_spec mono _ below (fun tree mem => ih tree mem) before nonempty within inside

theorem find_eq {tree : SumTree T S} (wellFormed : WellFormed tree) (mono : Monotone target bias tree.toList) :
    (Dimension.addSummary (Dimension.zero S : D) (Summary.zero : S) = Dimension.zero S →
      (tree.find target bias).1 = measure (passed target bias (Dimension.zero S : D) tree.toList)) ∧
      (tree.find target bias).2.2 = (tree.toList.drop
        (passed target bias (Dimension.zero S : D) tree.toList).length).head? := by
  have zero : (Dimension.zero S : D) = measure ([] : List T) := rfl
  rcases wellFormed with rfl | ⟨h, balanced⟩
  · rw [SumTree.find, findWith]
    split_ifs
    · exact ⟨id, rfl⟩
    · exact ⟨fun _ => rfl, rfl⟩
  · have treeEnd : Dimension.addSummary (Dimension.zero S : D) tree.summary =
        measure ([] ++ tree.toList) := measure_tree [] balanced
    rw [SumTree.find, findWith]
    simp only [treeEnd]
    split_ifs with pass
    · have all := passed_append mono [] tree.toList [] List.prefix_rfl fun _ => pass
      rw [List.append_nil, passed, List.append_nil] at all
      rw [zero, all, List.drop_length]
      exact ⟨fun _ => rfl, rfl⟩
    · obtain ⟨left, item, right, split, scanned, eq⟩ :=
        findIterate_spec mono balanced [] List.prefix_rfl (by simpa using pass)
      rw [zero, eq, scanned, split, List.drop_left]
      exact ⟨fun _ => rfl, rfl⟩

theorem find_item {tree : SumTree T S} (wellFormed : WellFormed tree) (mono : Monotone target bias tree.toList) :
    (tree.find target bias).2.2 = (tree.toList.drop
      (passed target bias (Dimension.zero S : D) tree.toList).length).head? :=
  (find_eq wellFormed mono).2

end Cursor
end Pinrail

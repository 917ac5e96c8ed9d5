import Pinrail.SumTree.Basic

/-!
# Appending trees

`push`, `append` and the functions they are made of. A node that is modified in place through
`Arc::make_mut` is returned next to the result of the function.
-/

namespace Pinrail.SumTree
open Lib Summary

variable {T S : Type} [Summary S]

/-- The end of the internal case of `push_tree_recursive`: the new entries are added, and a node
that overflows is split in the middle. -/
def growInternal (height : Nat) (summary : S) (childSummaries : List S)
    (childTrees : List (SumTree T S)) (summariesToAppend : List S)
    (treesToAppend : List (SumTree T S)) :
    Except Panic (SumTree T S × Option (SumTree T S)) := do
  let childCount := childTrees.length + treesToAppend.length
  if childCount > nodeCapacity then
    let midpoint := (childCount + childCount % 2) / 2
    let allSummaries := childSummaries ++ summariesToAppend
    let leftSummaries ← collect nodeCapacity (allSummaries.take midpoint)
    let rightSummaries ← collect nodeCapacity (allSummaries.drop midpoint)
    let allTrees := childTrees ++ treesToAppend
    let leftTrees ← collect nodeCapacity (allTrees.take midpoint)
    let rightTrees ← collect nodeCapacity (allTrees.drop midpoint)
    return (.internal height (sum leftSummaries) leftSummaries leftTrees,
      some (.internal height (sum rightSummaries) rightSummaries rightTrees))
  else
    let childSummaries ← collect nodeCapacity (childSummaries ++ summariesToAppend)
    let childTrees ← collect nodeCapacity (childTrees ++ treesToAppend)
    return (.internal height summary childSummaries childTrees, none)

/-- The leaf case of `push_tree_recursive`. -/
def growLeaf (summary : S) (items : List T) (itemSummaries : List S) (other : SumTree T S) :
    Except Panic (SumTree T S × Option (SumTree T S)) := do
  let otherItems ← other.items
  let childCount := items.length + otherItems.length
  if childCount > nodeCapacity then
    let midpoint := (childCount + childCount % 2) / 2
    let allItems := items ++ otherItems
    let leftItems ← collect nodeCapacity (allItems.take midpoint)
    let rightItems ← collect nodeCapacity (allItems.drop midpoint)
    let allSummaries := itemSummaries ++ other.childSummaries
    let leftSummaries ← collect nodeCapacity (allSummaries.take midpoint)
    let rightSummaries ← collect nodeCapacity (allSummaries.drop midpoint)
    return (.leaf (sum leftSummaries) leftItems leftSummaries,
      some (.leaf (sum rightSummaries) rightItems rightSummaries))
  else
    let items ← collect nodeCapacity (items ++ otherItems)
    let itemSummaries ← collect nodeCapacity (itemSummaries ++ other.childSummaries)
    return (.leaf (addSummary summary other.summary) items itemSummaries, none)

mutual

/-- Appends `other`, which is not taller, in place; a split-off right sibling is returned. -/
def pushTreeRecursive :
    SumTree T S → SumTree T S → Except Panic (SumTree T S × Option (SumTree T S))
  | .internal height summary childSummaries childTrees, other => do
    let summary := addSummary summary other.summary
    let heightDelta ← checkedSub height other.height
    if heightDelta = 0 then
      let summariesToAppend ← collect nodeCapacity other.childSummaries
      let treesToAppend ← collect nodeCapacity (← other.childTrees)
      growInternal height summary childSummaries childTrees summariesToAppend treesToAppend
    else if heightDelta = 1 ∧ other.isUnderflowing = false then
      let summariesToAppend ← push nodeCapacity [] other.summary
      let treesToAppend ← push nodeCapacity [] other
      growInternal height summary childSummaries childTrees summariesToAppend treesToAppend
    else
      let (childTrees, treeToAppend) ← pushTreeIntoLast childTrees other
      let lastChild ← unwrap childTrees.getLast?
      let childSummaries ← setLast childSummaries lastChild.summary
      match treeToAppend with
      | some splitTree =>
        let summariesToAppend ← push nodeCapacity [] splitTree.summary
        let treesToAppend ← push nodeCapacity [] splitTree
        growInternal height summary childSummaries childTrees summariesToAppend treesToAppend
      | none => growInternal height summary childSummaries childTrees [] []
  | .leaf summary items itemSummaries, other => growLeaf summary items itemSummaries other

/-- `child_trees.last_mut().unwrap().push_tree_recursive(other)`. -/
def pushTreeIntoLast :
    List (SumTree T S) → SumTree T S → Except Panic (List (SumTree T S) × Option (SumTree T S))
  | [], _ => .error .unwrapNone
  | [last], other => do
    let (last, treeToAppend) ← pushTreeRecursive last other
    return ([last], treeToAppend)
  | tree :: trees, other => do
    let (trees, treeToAppend) ← pushTreeIntoLast trees other
    return (tree :: trees, treeToAppend)

end

/-- Merges `small` into the front of `large`; the first half is returned when they do not fit. -/
def mergeIntoRight (small large : SumTree T S) :
    Except Panic (SumTree T S × Option (SumTree T S)) := do
  assert (small.height = large.height)
  match small, large with
  | .internal _ smallSummary smallChildSummaries smallChildTrees, .internal height summary childSummaries childTrees =>
      let totalChildCount := childTrees.length + smallChildTrees.length
      if totalChildCount ≤ nodeCapacity then
        let allTrees ← collect nodeCapacity (smallChildTrees ++ childTrees)
        let allSummaries ← collect nodeCapacity (smallChildSummaries ++ childSummaries)
        return (.internal height (addSummary smallSummary summary) allSummaries allTrees, none)
      else
        let midpoint := (totalChildCount + 1) / 2
        let allTrees := smallChildTrees ++ childTrees
        let leftTrees ← collect nodeCapacity (allTrees.take midpoint)
        let rightTrees ← collect nodeCapacity (allTrees.drop midpoint)
        let allSummaries := smallChildSummaries ++ childSummaries
        let leftSummaries ← collect nodeCapacity (allSummaries.take midpoint)
        let rightSummaries ← collect nodeCapacity (allSummaries.drop midpoint)
        return (.internal height (sum rightSummaries) rightSummaries rightTrees,
          some (.internal height (sum leftSummaries) leftSummaries leftTrees))
  | .leaf smallSummary smallItems smallItemSummaries, .leaf summary items itemSummaries =>
    let totalChildCount := smallItems.length + items.length
    if totalChildCount ≤ nodeCapacity then
      let allItems ← collect nodeCapacity (smallItems ++ items)
      let allSummaries ← collect nodeCapacity (smallItemSummaries ++ itemSummaries)
      return (.leaf (addSummary smallSummary summary) allItems allSummaries, none)
    else
      let midpoint := (totalChildCount + 1) / 2
      let allItems := smallItems ++ items
      let leftItems ← collect nodeCapacity (allItems.take midpoint)
      let rightItems ← collect nodeCapacity (allItems.drop midpoint)
      let allSummaries := smallItemSummaries ++ itemSummaries
      let leftSummaries ← collect nodeCapacity (allSummaries.take midpoint)
      let rightSummaries ← collect nodeCapacity (allSummaries.drop midpoint)
      return (.leaf (sum rightSummaries) rightItems rightSummaries,
        some (.leaf (sum leftSummaries) leftItems leftSummaries))
  | _, _ => throw .unreachable

/-- Puts `tree` in front of the children of an internal node, whose first half is split off when it
is full. -/
def prependChild (height : Nat) (summary : S) (childSummaries : List S)
    (childTrees : List (SumTree T S)) (tree : SumTree T S) :
    Except Panic (SumTree T S × Option (SumTree T S)) := do
  if childTrees.length < nodeCapacity then
    let childSummaries ← insertFront nodeCapacity tree.summary childSummaries
    let childTrees ← insertFront nodeCapacity tree childTrees
    return (.internal height summary childSummaries childTrees, none)
  else
    let (drainedSummaries, childSummaries) ← drainFront treeBase childSummaries
    let newChildSummaries ← collect nodeCapacity (tree.summary :: drainedSummaries)
    let (drainedTrees, childTrees) ← drainFront treeBase childTrees
    let newChildTrees ← collect nodeCapacity (tree :: drainedTrees)
    return (.internal height (sum childSummaries) childSummaries childTrees,
      some (.internal height (sum newChildSummaries) newChildSummaries newChildTrees))

/-- Appends the `large` tree to a `small` tree in place of `large`; what does not fit is returned
and goes in front of it. -/
def appendLarge (small : SumTree T S) :
    SumTree T S → Except Panic (SumTree T S × Option (SumTree T S)) := fun large =>
  if small.height = large.height then
    if small.isUnderflowing = false then .ok (large, some small) else mergeIntoRight small large
  else do
    assert (small.height < large.height)
    match large with
    | .leaf .. => throw .unreachable
    | .internal height summary childSummaries childTrees =>
      let summary := addSummary small.summary summary
      match childTrees with
      | [] => throw .unwrapNone
      | first :: rest =>
        let (first, res) ← appendLarge small first
        let childSummaries ← setFirst childSummaries first.summary
        match res with
        | some tree => prependChild height summary childSummaries (first :: rest) tree
        | none => return (.internal height summary childSummaries (first :: rest), none)
termination_by structural large => large

def fromChildTrees (left right : SumTree T S) : Except Panic (SumTree T S) := do
  let height ← checkedAdd 8 left.height 1
  let childSummaries ← push nodeCapacity [] left.summary
  let childSummaries ← push nodeCapacity childSummaries right.summary
  let childTrees ← push nodeCapacity [] left
  let childTrees ← push nodeCapacity childTrees right
  return .internal height (sum childSummaries) childSummaries childTrees

def append (self other : SumTree T S) : Except Panic (SumTree T S) := do
  if self.isEmpty then
    return other
  -- The items of `other` are looked at only when it is a leaf.
  else if !other.isLeaf || !other.isEmpty then
    if self.height < other.height then
      match ← appendLarge self other with
      | (other, some tree) => fromChildTrees tree other
      | (other, none) => return other
    else
      match ← pushTreeRecursive self other with
      | (self, some splitTree) => fromChildTrees self splitTree
      | (self, none) => return self
  else
    return self

/-- `SumTree::push`. -/
def pushItem [Item T S] (self : SumTree T S) (item : T) : Except Panic (SumTree T S) :=
  append self (.leaf (Item.summary item) [item] [Item.summary item])

def fromItem [Item T S] (item : T) : Except Panic (SumTree T S) := pushItem new item

theorem push_nil {α : Type} (x : α) : push nodeCapacity [] x = .ok [x] := rfl

/-! ## What a node splits into -/

variable [Item T S]

/-- Subtrees of height `h` that hold `xs` between them. -/
def Pieces (h : Nat) (xs : List T) (trees : List (SumTree T S)) : Prop :=
  (∀ tree ∈ trees, Balanced h tree) ∧ toLists trees = xs

theorem pieces_single {h : Nat} {tree : SumTree T S} (balanced : Balanced h tree) : Pieces h tree.toList [tree] :=
  ⟨fun _ member => by rwa [List.mem_singleton.mp member], by simp⟩

variable [LawfulSummary S]

theorem sum_summary_append (left right : List T) (nonempty : right ≠ []) : sum ((left ++ right).map Item.summary) =
      addSummary (sum (left.map Item.summary)) (sum (right.map Item.summary)) := by
  rw [List.map_append]
  exact sum_append _ _ (by simpa using nonempty)

theorem pieces_internal {h : Nat} {trees : List (SumTree T S)}
    (below : ∀ tree ∈ trees, Balanced h tree) (cut : Nat) (first : 0 < cut)
    (second : cut < trees.length) (fitsLeft : cut ≤ nodeCapacity)
    (fitsRight : trees.length - cut ≤ nodeCapacity) :
    Pieces (h + 1) (toLists trees)
      [.internal (h + 1) (sum ((trees.map summary).take cut)) ((trees.map summary).take cut) (trees.take cut),
       .internal (h + 1) (sum ((trees.map summary).drop cut)) ((trees.map summary).drop cut)
        (trees.drop cut)] := by
  rw [← List.map_take, ← List.map_drop]
  refine ⟨?_, ?_⟩
  · intro tree member
    rcases List.mem_cons.mp member with rfl | member
    · refine balanced_internal ?_ (by simp; omega) fun tree mem =>
        below tree (List.mem_of_mem_take mem)
      exact List.ne_nil_of_length_pos (by simp; omega)
    · obtain rfl := List.mem_singleton.mp member
      refine balanced_internal ?_ (by simp; omega) fun tree mem =>
        below tree (List.mem_of_mem_drop mem)
      exact List.ne_nil_of_length_pos (by simp; omega)
  · simp [← toLists_append]

omit [LawfulSummary S] in
theorem pieces_leaf {items : List T} (cut : Nat) (first : 0 < cut) (second : cut < items.length)
    (fitsLeft : cut ≤ nodeCapacity) (fitsRight : items.length - cut ≤ nodeCapacity) :
    Pieces 0 items [.leaf (sum ((items.map Item.summary).take cut)) (items.take cut)
        ((items.map Item.summary).take cut),
       .leaf (sum ((items.map Item.summary).drop cut)) (items.drop cut)
        ((items.map (Item.summary : T → S)).drop cut)] := by
  rw [← List.map_take, ← List.map_drop]
  refine ⟨?_, by simp⟩
  intro tree member
  rcases List.mem_cons.mp member with rfl | member
  · exact .leaf (List.ne_nil_of_length_pos (by simp; omega)) (by simp; omega)
  · obtain rfl := List.mem_singleton.mp member
    exact .leaf (List.ne_nil_of_length_pos (by simp; omega)) (by simp; omega)

theorem growInternal_spec {h : Nat} {trees more : List (SumTree T S)} (nonempty : trees ≠ [])
    (fits : trees.length ≤ nodeCapacity) (moreFits : more.length ≤ nodeCapacity)
    (below : ∀ tree ∈ trees ++ more, Balanced h tree) : ∃ self split, growInternal (h + 1)
    (sum ((toLists (trees ++ more)).map Item.summary))
    (trees.map summary) trees (more.map summary) more = .ok (self, split) ∧ Pieces (h + 1) (toLists (trees ++ more))
    (self :: split.toList) := by
  have positive := List.length_pos_iff.mpr nonempty
  by_cases overflow : trees.length + more.length > nodeCapacity
  · refine ⟨_, some _, ?_, pieces_internal below ((trees.length + more.length + (trees.length + more.length) % 2) / 2)
      (by omega) (by rw [List.length_append]; omega) (by omega)
      (by rw [List.length_append]; omega)⟩
    simp only [growInternal, if_pos overflow, ← List.map_append]
    rw [collect_of_le (by simp; omega), ok_bind, collect_of_le (by simp; omega), ok_bind,
      collect_of_le (by simp; omega), ok_bind, collect_of_le (by simp; omega), ok_bind]
    rfl
  · refine ⟨_, none, ?_, pieces_single (.internal (by simp [nonempty]) (by simp; omega) below)⟩
    simp only [growInternal, if_neg overflow, ← List.map_append]
    rw [collect_of_le (by simp; omega), ok_bind, collect_of_le (by simp; omega), ok_bind]
    rfl

theorem growLeaf_spec {items : List T} {other : SumTree T S} (nonempty : items ≠ [])
    (fits : items.length ≤ nodeCapacity) (balanced : Balanced 0 other) : ∃ self split,
    growLeaf (sum (items.map Item.summary)) items (items.map Item.summary) other = .ok (self, split) ∧
    Pieces 0 (items ++ other.toList) (self :: split.toList) := by
  have positive := List.length_pos_iff.mpr nonempty
  cases balanced with
  | @leaf otherItems otherNonempty otherFits =>
    by_cases overflow : items.length + otherItems.length > nodeCapacity
    · refine ⟨_, some _, ?_, pieces_leaf
        ((items.length + otherItems.length + (items.length + otherItems.length) % 2) / 2)
        (by omega) (by simp; omega) (by omega) (by simp; omega)⟩
      simp only [growLeaf, SumTree.items, ok_bind, if_pos overflow, childSummaries, ← List.map_append]
      rw [collect_of_le (by simp; omega), ok_bind, collect_of_le (by simp; omega), ok_bind,
        collect_of_le (by simp; omega), ok_bind, collect_of_le (by simp; omega), ok_bind]
      rfl
    · refine ⟨_, none, ?_, pieces_single (balanced_leaf (items ++ otherItems) (by simp [nonempty]) (by simp; omega))⟩
      simp only [growLeaf, SumTree.items, ok_bind, if_neg overflow, childSummaries, summary, ← List.map_append]
      rw [collect_of_le (by simp; omega), ok_bind, collect_of_le (by simp; omega), ok_bind,
        ← sum_summary_append _ _ otherNonempty]
      rfl

omit [Item T S] [LawfulSummary S] in
theorem pushTreeIntoLast_concat (init : List (SumTree T S)) (last other : SumTree T S) :
    pushTreeIntoLast (init ++ [last]) other = do
      let (last, treeToAppend) ← pushTreeRecursive last other
      return (init ++ [last], treeToAppend) := by
  induction init with
  | nil => simp [pushTreeIntoLast]
  | cons tree init ih =>
    have step : pushTreeIntoLast (tree :: (init ++ [last])) other = do
        let (trees, treeToAppend) ← pushTreeIntoLast (init ++ [last]) other
        return (tree :: trees, treeToAppend) := by
      cases h : init ++ [last] with
      | nil => simp at h
      | cons next rest => rfl
    rw [List.cons_append, step, ih]
    cases pushTreeRecursive last other with
    | error e => rfl
    | ok result => rfl

theorem pushTreeRecursive_spec {hs ho : Nat} {self other : SumTree T S} (balanced : Balanced hs self)
    (otherBalanced : Balanced ho other) (le : ho ≤ hs) : ∃ self' split,
    pushTreeRecursive self other = .ok (self', split) ∧ Pieces hs (self.toList ++ other.toList)
    (self' :: split.toList) := by
  have otherHeight := otherBalanced.height_eq
  have otherItems := otherBalanced.toList_ne_nil
  induction balanced with
  | leaf nonempty fits =>
    obtain rfl : ho = 0 := by omega
    exact growLeaf_spec nonempty fits otherBalanced
  | @internal h trees nonempty fits below ih =>
    -- The cached summary already accounts for `other`, wherever its children end up.
    have cached : addSummary (sum ((toLists trees).map Item.summary)) other.summary =
        sum ((toLists trees ++ other.toList).map Item.summary) := by
      rw [sum_summary_append _ _ otherItems, otherBalanced.summary_eq]
    simp only [pushTreeRecursive, otherHeight, cached]
    rw [checkedSub_of_le (by omega), ok_bind]
    by_cases same : ho = h + 1
    · subst same
      cases otherBalanced with
      | @internal _ more moreNonempty moreFits moreBelow =>
        simp only [Nat.sub_self, childSummaries, childTrees, ok_bind, if_true]
        rw [collect_of_le (by simpa using moreFits), ok_bind, collect_of_le moreFits, ok_bind]
        simp only [toList_internal, ← toLists_append]
        exact growInternal_spec nonempty fits moreFits fun tree mem =>
          (List.mem_append.mp mem).elim (below tree) (moreBelow tree)
    · rw [if_neg (by omega)]
      split_ifs with sibling
      · obtain rfl : ho = h := by omega
        have one : [other].length ≤ nodeCapacity := by simp [nodeCapacity, treeBase]
        simp only [push_nil, ok_bind]
        have grown := growInternal_spec nonempty fits one fun tree mem =>
          (List.mem_append.mp mem).elim (below tree) fun mem => by
            rwa [List.mem_singleton.mp mem]
        simpa using grown
      · obtain ⟨init, last, rfl⟩ := (List.eq_nil_or_concat' trees).resolve_left nonempty
        obtain ⟨last', split, pushed, pieces, held⟩ := ih last (by simp) (by omega)
        have below' : ∀ tree ∈ (init ++ [last']) ++ split.toList, Balanced h tree := by
          intro tree mem
          simp only [List.append_assoc, List.mem_append, List.singleton_append] at mem
          exact mem.elim (fun mem => below tree (by simp [mem])) (pieces tree)
        have moved : toLists ((init ++ [last']) ++ split.toList) = toLists (init ++ [last]) ++ other.toList := by
          simp only [toLists_append, toLists_cons, toLists_nil, List.append_nil, List.append_assoc] at held ⊢
          rw [held]
        have fits' : (init ++ [last']).length ≤ nodeCapacity := by simpa using fits
        have one : split.toList.length ≤ nodeCapacity := by
          cases split <;> simp [nodeCapacity, treeBase]
        have grown := growInternal_spec (by simp) fits' one below'
        have pushedLast : pushTreeIntoLast (init ++ [last]) other = .ok (init ++ [last'], split) := by
          rw [pushTreeIntoLast_concat, pushed]
          rfl
        rw [pushedLast, ok_bind]
        simp only [List.getLast?_concat, unwrap_some, ok_bind]
        rw [setLast_map_concat, ok_bind]
        rw [moved] at grown
        cases split with
        | none => exact grown
        | some splitTree =>
          simp only [push_nil, ok_bind]
          exact grown

/-! ## Appending a taller tree -/

theorem mergeIntoRight_spec {h : Nat} {small large : SumTree T S} (smallBalanced : Balanced h small)
    (largeBalanced : Balanced h large) : ∃ large' res, mergeIntoRight small large = .ok (large', res) ∧
    Pieces h (small.toList ++ large.toList) (res.toList ++ [large']) := by
  have heights : small.height = large.height := by
    rw [smallBalanced.height_eq, largeBalanced.height_eq]
  simp only [mergeIntoRight, assert_of heights, ok_bind]
  cases smallBalanced with
  | @leaf smallItems smallNonempty smallFits =>
    cases largeBalanced with
    | @leaf items nonempty fits =>
      have positive := List.length_pos_iff.mpr smallNonempty
      by_cases fit : smallItems.length + items.length ≤ nodeCapacity
      · refine ⟨_, none, ?_, pieces_single
          (balanced_leaf (smallItems ++ items) (by simp [smallNonempty]) (by simpa using fit))⟩
        simp only [if_pos fit, ← List.map_append]
        rw [collect_of_le (by simpa using fit), ok_bind, collect_of_le (by simpa using fit),
          ok_bind, ← sum_summary_append _ _ nonempty]
        rfl
      · refine ⟨_, some _, ?_, pieces_leaf ((smallItems.length + items.length + 1) / 2)
          (by omega) (by simp; omega) (by omega) (by simp; omega)⟩
        simp only [if_neg fit, ← List.map_append]
        rw [collect_of_le (by simp; omega), ok_bind, collect_of_le (by simp; omega), ok_bind,
          collect_of_le (by simp; omega), ok_bind, collect_of_le (by simp; omega), ok_bind]
        rfl
  | @internal h smallTrees smallNonempty smallFits smallBelow =>
    cases largeBalanced with
    | @internal _ trees nonempty fits below =>
      have positive := List.length_pos_iff.mpr smallNonempty
      have below' : ∀ tree ∈ smallTrees ++ trees, Balanced h tree := fun tree mem =>
        (List.mem_append.mp mem).elim (smallBelow tree) (below tree)
      have held : toLists trees ≠ [] := by
        obtain ⟨first, rest, rfl⟩ := List.exists_cons_of_ne_nil nonempty
        simp [(below first (by simp)).toList_ne_nil]
      simp only [toList_internal, ← toLists_append]
      by_cases fit : trees.length + smallTrees.length ≤ nodeCapacity
      · refine ⟨_, none, ?_, pieces_single (.internal (by simp [smallNonempty]) (by simp; omega) below')⟩
        simp only [if_pos fit, ← List.map_append]
        rw [collect_of_le (by simp; omega), ok_bind, collect_of_le (by simp; omega),
          ok_bind, ← sum_summary_append _ _ held, ← toLists_append]
        rfl
      · refine ⟨_, some _, ?_, pieces_internal below'
          ((trees.length + smallTrees.length + 1) / 2) (by omega) (by simp; omega)
          (by omega) (by simp; omega)⟩
        simp only [if_neg fit, ← List.map_append]
        rw [collect_of_le (by simp; omega), ok_bind, collect_of_le (by simp; omega), ok_bind,
          collect_of_le (by simp; omega), ok_bind, collect_of_le (by simp; omega), ok_bind]
        rfl

theorem prependChild_spec {h : Nat} {trees : List (SumTree T S)} {tree : SumTree T S}
    (fits : trees.length ≤ nodeCapacity) (below : ∀ t ∈ tree :: trees, Balanced h t) : ∃ large' res,
    prependChild (h + 1) (sum ((toLists (tree :: trees)).map Item.summary))
    (trees.map summary) trees tree = .ok (large', res) ∧ Pieces (h + 1) (toLists (tree :: trees))
    (res.toList ++ [large']) := by
  by_cases room : trees.length < nodeCapacity
  · refine ⟨_, none, ?_, pieces_single (.internal (by simp) (by simp; omega) below)⟩
    simp only [prependChild, if_pos room]
    rw [insertFront_of_lt (by simpa using room), ok_bind, insertFront_of_lt room, ok_bind]
    rfl
  · have full : trees.length = 2 * treeBase := by
      simp only [nodeCapacity] at fits room
      omega
    have base : treeBase = 6 := rfl
    refine ⟨_, some _, ?_, pieces_internal below (treeBase + 1) (by omega)
      (by rw [List.length_cons]; omega) (by rw [nodeCapacity]; omega)
      (by rw [List.length_cons, nodeCapacity]; omega)⟩
    simp only [prependChild, if_neg room]
    rw [drainFront_of_le (by simp; omega), ok_bind, collect_of_le (by simp [nodeCapacity]; omega),
      ok_bind, drainFront_of_le (by omega), ok_bind, collect_of_le (by simp [nodeCapacity]; omega),
      ok_bind]
    rfl

theorem appendLarge_same {h : Nat} {small large : SumTree T S} (smallBalanced : Balanced h small)
    (balanced : Balanced h large) : ∃ large' res, appendLarge small large = .ok (large', res) ∧
    Pieces h (small.toList ++ large.toList) (res.toList ++ [large']) := by
  rw [appendLarge.eq_def, if_pos (by rw [smallBalanced.height_eq, balanced.height_eq])]
  split_ifs with underflowing
  · refine ⟨large, some small, rfl, ?_, by simp⟩
    intro tree member
    rcases List.mem_cons.mp member with rfl | member
    · exact smallBalanced
    · obtain rfl := List.mem_singleton.mp member
      exact balanced
  · exact mergeIntoRight_spec smallBalanced balanced

theorem appendLarge_spec {hs hl : Nat} {small large : SumTree T S} (smallBalanced : Balanced hs small)
    (balanced : Balanced hl large) (le : hs ≤ hl) : ∃ large' res, appendLarge small large = .ok (large', res) ∧
    Pieces hl (small.toList ++ large.toList) (res.toList ++ [large']) := by
  have smallHeight := smallBalanced.height_eq
  induction balanced with
  | leaf nonempty fits =>
    obtain rfl : hs = 0 := by omega
    exact appendLarge_same smallBalanced (.leaf nonempty fits)
  | @internal h trees nonempty fits below ih =>
    by_cases same : hs = h + 1
    · subst same
      exact appendLarge_same smallBalanced (.internal nonempty fits below)
    · obtain ⟨first, rest, rfl⟩ := List.exists_cons_of_ne_nil nonempty
      obtain ⟨first', res, appended, pieces, held⟩ := ih first (by simp) (by omega)
      have held' : toLists (res.toList ++ first' :: rest) = small.toList ++ toLists (first :: rest) := by
        have regroup : res.toList ++ first' :: rest = (res.toList ++ [first']) ++ rest := by simp
        rw [regroup, toLists_append, held, toLists_cons, List.append_assoc]
      have below' : ∀ tree ∈ res.toList ++ first' :: rest, Balanced h tree := by
        intro tree mem
        simp only [List.mem_append, List.mem_cons] at mem
        rcases mem with mem | rfl | mem
        · exact pieces tree (by simp [mem])
        · exact pieces tree (by simp)
        · exact below tree (by simp [mem])
      have cached : addSummary small.summary (sum ((toLists (first :: rest)).map Item.summary)) =
          sum ((toLists (res.toList ++ first' :: rest)).map Item.summary) := by
        rw [held', sum_summary_append, smallBalanced.summary_eq]
        simp [(below first (by simp)).toList_ne_nil]
      rw [appendLarge.eq_def]
      simp only [smallHeight, height_internal, if_neg same, assert_of (show hs < h + 1 by omega), ok_bind,
        appended, List.map_cons, setFirst, cached, toList_internal, ← held']
      cases res with
      | none =>
        exact ⟨_, none, rfl, pieces_single (.internal (by simp) (by simpa using fits) below')⟩
      | some tree => exact prependChild_spec (by simpa using fits) below'

/-! ## `append` -/

theorem fromChildTrees_spec {h : Nat} {left right : SumTree T S} (leftBalanced : Balanced h left)
    (rightBalanced : Balanced h right) :
    (h < 255 ∧ ∃ tree, fromChildTrees left right = .ok tree ∧ Balanced (h + 1) tree ∧
      tree.toList = left.toList ++ right.toList) ∨
    (255 ≤ h ∧ fromChildTrees left right = .error .addOverflow) := by
  have leftHeight := leftBalanced.height_eq
  by_cases room : h < 255
  · refine .inl ⟨room, .internal (h + 1) (sum ([left, right].map summary)) ([left, right].map summary)
      [left, right], ?_, balanced_internal (by simp) (by simp [nodeCapacity, treeBase]) ?_, by simp⟩
    · simp only [fromChildTrees, leftHeight]
      rw [checkedAdd_of_lt (by omega), ok_bind]
      simp [push, nodeCapacity, treeBase, ok_bind, pure, Except.pure]
    · intro tree mem
      rcases List.mem_cons.mp mem with rfl | mem
      · exact leftBalanced
      · rwa [List.mem_singleton.mp mem]
  · refine .inr ⟨by omega, ?_⟩
    simp only [fromChildTrees, leftHeight, checkedAdd]
    rw [if_neg (by omega), error_bind]

theorem append_balanced {ha hb : Nat} {a b : SumTree T S} (aBalanced : Balanced ha a) (bBalanced : Balanced hb b) :
    (∃ h tree, append a b = .ok tree ∧ Balanced h tree ∧ tree.toList = a.toList ++ b.toList ∧ h ≤ max ha hb + 1) ∨
    (append a b = .error .addOverflow ∧ 255 ≤ max ha hb) := by
  have present : (!b.isLeaf || !b.isEmpty) = true := by simp [bBalanced.isEmpty_eq]
  simp only [append, aBalanced.isEmpty_eq, present, aBalanced.height_eq, bBalanced.height_eq]
  rw [if_neg (by simp), if_pos trivial]
  split_ifs with taller
  · obtain ⟨large, res, appended, pieces, held⟩ := appendLarge_spec aBalanced bBalanced (Nat.le_of_lt taller)
    rw [appended, ok_bind]
    cases res with
    | none =>
      exact .inl ⟨hb, large, rfl, pieces large (by simp), by simpa using held, by omega⟩
    | some tree =>
      rcases fromChildTrees_spec (pieces tree (by simp)) (pieces large (by simp)) with
        ⟨_, joined, eq, balanced, items⟩ | ⟨overflow, eq⟩
      · exact .inl ⟨hb + 1, joined, eq, balanced, by simpa [items] using held, by omega⟩
      · exact .inr ⟨eq, by omega⟩
  · obtain ⟨self, split, pushed, pieces, held⟩ := pushTreeRecursive_spec aBalanced bBalanced (by omega)
    rw [pushed, ok_bind]
    cases split with
    | none =>
      exact .inl ⟨ha, self, rfl, pieces self (by simp), by simpa using held, by omega⟩
    | some splitTree =>
      rcases fromChildTrees_spec (pieces self (by simp)) (pieces splitTree (by simp)) with
        ⟨_, joined, eq, balanced, items⟩ | ⟨overflow, eq⟩
      · exact .inl ⟨ha + 1, joined, eq, balanced, by simpa [items] using held, by omega⟩
      · exact .inr ⟨eq, by omega⟩

theorem append_wellFormed {a b : SumTree T S} (aWellFormed : WellFormed a) (bWellFormed : WellFormed b) :
    (∃ tree, append a b = .ok tree ∧ WellFormed tree ∧ tree.toList = a.toList ++ b.toList ∧
      tree.height ≤ max a.height b.height + 1) ∨
    (append a b = .error .addOverflow ∧ 255 ≤ max a.height b.height) := by
  rcases aWellFormed with rfl | ⟨ha, aBalanced⟩
  · exact .inl ⟨b, rfl, bWellFormed, rfl, by simp [new, height]⟩
  · rcases bWellFormed with rfl | ⟨hb, bBalanced⟩
    · refine .inl ⟨a, ?_, .inr ⟨ha, aBalanced⟩, by simp, by omega⟩
      simp only [append, aBalanced.isEmpty_eq]
      rfl
    · rw [aBalanced.height_eq, bBalanced.height_eq]
      refine (append_balanced aBalanced bBalanced).imp_left ?_
      rintro ⟨h, tree, eq, balanced, held, le⟩
      exact ⟨tree, eq, .inr ⟨h, balanced⟩, held, by rw [balanced.height_eq]; omega⟩

theorem balanced_single (item : T) :
    Balanced 0 (.leaf (Item.summary item) [item] [Item.summary item] : SumTree T S) := by
  have leaf : Balanced 0 (.leaf (sum ([item].map Item.summary)) [item] ([item].map (Item.summary : T → S))) :=
    balanced_leaf [item] (by simp) (by simp [nodeCapacity, treeBase])
  rwa [List.map_singleton, sum_singleton] at leaf

end Pinrail.SumTree

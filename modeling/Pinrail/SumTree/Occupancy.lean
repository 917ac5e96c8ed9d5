import Pinrail.SumTree.Stocked

/-!
# Trees that are built without bulk loading

A tree that is only built by pushes, appends, slices and the operations made of them has
`TREE_BASE` entries in every node below the root, and an internal root has two children at least.
-/

namespace Pinrail
open Lib SumTree Cursor

variable {T S : Type} [Summary S]

namespace SumTree

def Branching (tree : SumTree T S) : Prop := tree.isLeaf = false → 2 ≤ tree.children.length

omit [Summary S] in
theorem Branching.leaf (s : S) (items : List T) (ss : List S) : Branching (.leaf s items ss) := by
  intro internal
  cases internal

omit [Summary S] in
theorem Branching.internal {h : Nat} {s : S} {ss : List S} {trees : List (SumTree T S)}
    (enough : 2 ≤ trees.length) : Branching (.internal h s ss trees) := fun _ => enough

omit [Summary S] in
theorem Stocked.branching {tree : SumTree T S} (stocked : Stocked tree) : Branching tree := by
  cases stocked with
  | leaf enough => exact .leaf _ _ _
  | internal enough below => exact .internal (Nat.le_trans (by decide) enough)

/-! ## Appends -/

theorem growInternal_branching {h : Nat} {s : S} {ss more : List S} {trees new : List (SumTree T S)}
    {self : SumTree T S} (enough : 2 ≤ trees.length)
    (grown : growInternal h s ss trees more new = .ok (self, none)) : Branching self := by
  unfold growInternal at grown
  simp only at grown
  split_ifs at grown with overflow
  · obtain ⟨leftSummaries, -, grown⟩ := bind_eq_ok.mp grown
    obtain ⟨rightSummaries, -, grown⟩ := bind_eq_ok.mp grown
    obtain ⟨leftTrees, -, grown⟩ := bind_eq_ok.mp grown
    obtain ⟨rightTrees, -, grown⟩ := bind_eq_ok.mp grown
    cases grown
  · obtain ⟨summaries, -, grown⟩ := bind_eq_ok.mp grown
    obtain ⟨allTrees, collected, grown⟩ := bind_eq_ok.mp grown
    cases grown
    rw [eq_of_collect collected]
    refine .internal ?_
    rw [List.length_append]
    omega

theorem growLeaf_branching {s : S} {items : List T} {ss : List S} {other self : SumTree T S}
    {split : Option (SumTree T S)} (grown : growLeaf s items ss other = .ok (self, split)) : Branching self := by
  unfold growLeaf at grown
  obtain ⟨otherItems, -, grown⟩ := bind_eq_ok.mp grown
  simp only at grown
  split_ifs at grown with overflow
  · obtain ⟨leftItems, -, grown⟩ := bind_eq_ok.mp grown
    obtain ⟨rightItems, -, grown⟩ := bind_eq_ok.mp grown
    obtain ⟨leftSummaries, -, grown⟩ := bind_eq_ok.mp grown
    obtain ⟨rightSummaries, -, grown⟩ := bind_eq_ok.mp grown
    cases grown
    exact .leaf _ _ _
  · obtain ⟨allItems, -, grown⟩ := bind_eq_ok.mp grown
    obtain ⟨summaries, -, grown⟩ := bind_eq_ok.mp grown
    cases grown
    exact .leaf _ _ _

theorem prependChild_branching {h : Nat} {s : S} {ss : List S} {trees : List (SumTree T S)} {tree node : SumTree T S}
    (nonempty : trees ≠ []) (prepended : prependChild h s ss trees tree = .ok (node, none)) : Branching node := by
  unfold prependChild at prepended
  split_ifs at prepended with room
  · obtain ⟨summaries, -, prepended⟩ := bind_eq_ok.mp prepended
    obtain ⟨allTrees, inserted, prepended⟩ := bind_eq_ok.mp prepended
    cases prepended
    rw [eq_of_insertFront inserted]
    exact .internal (Nat.succ_le_succ (List.length_pos_iff.mpr nonempty))
  · obtain ⟨⟨drainedSummaries, summaries⟩, -, prepended⟩ := bind_eq_ok.mp prepended
    obtain ⟨newSummaries, -, prepended⟩ := bind_eq_ok.mp prepended
    obtain ⟨⟨drained, rest⟩, -, prepended⟩ := bind_eq_ok.mp prepended
    obtain ⟨newTrees, -, prepended⟩ := bind_eq_ok.mp prepended
    cases prepended

theorem fromChildTrees_branching {left right tree : SumTree T S}
    (joined : fromChildTrees left right = .ok tree) : Branching tree := by
  obtain ⟨height, -, joined⟩ := bind_eq_ok.mp joined
  obtain ⟨summaries, -, joined⟩ := bind_eq_ok.mp joined
  obtain ⟨allSummaries, -, joined⟩ := bind_eq_ok.mp joined
  obtain ⟨one, oneEq, joined⟩ := bind_eq_ok.mp joined
  obtain ⟨two, twoEq, joined⟩ := bind_eq_ok.mp joined
  cases joined
  rw [eq_of_push twoEq, eq_of_push oneEq]
  exact .internal (Nat.le_refl 2)

theorem appendLarge_branching {small large node : SumTree T S} (lower : small.height < large.height)
    (branching : Branching large) (appended : appendLarge small large = .ok (node, none)) : Branching node := by
  cases large with
  | leaf s items ss => exact absurd lower (Nat.not_lt_zero _)
  | internal h s ss trees =>
    have enough : 2 ≤ trees.length := branching rfl
    have level : small.height ≠ h := Nat.ne_of_lt lower
    have nonempty : trees ≠ [] := List.ne_nil_of_length_pos (Nat.lt_of_lt_of_le Nat.two_pos enough)
    obtain ⟨first, rest, rfl⟩ := List.exists_cons_of_ne_nil nonempty
    rw [appendLarge, if_neg (by simpa using level)] at appended
    obtain ⟨-, -, appended⟩ := bind_eq_ok.mp appended
    obtain ⟨⟨first', res⟩, -, appended⟩ := bind_eq_ok.mp appended
    obtain ⟨summaries, -, appended⟩ := bind_eq_ok.mp appended
    cases res with
    | some tree => exact prependChild_branching (List.cons_ne_nil _ _) appended
    | none =>
      cases appended
      exact .internal enough

theorem pushTreeRecursive_branching {self other node : SumTree T S} (branching : Branching self)
    (pushed : pushTreeRecursive self other = .ok (node, none)) : Branching node := by
  cases self with
  | leaf s items ss =>
    rw [pushTreeRecursive] at pushed
    exact growLeaf_branching pushed
  | internal h s ss trees =>
    have enough : 2 ≤ trees.length := branching rfl
    rw [pushTreeRecursive] at pushed
    obtain ⟨delta, -, pushed⟩ := bind_eq_ok.mp pushed
    split_ifs at pushed with level sibling
    · obtain ⟨summaries, -, pushed⟩ := bind_eq_ok.mp pushed
      obtain ⟨otherTrees, -, pushed⟩ := bind_eq_ok.mp pushed
      obtain ⟨treesToAppend, -, pushed⟩ := bind_eq_ok.mp pushed
      exact growInternal_branching enough pushed
    · simp only [push_nil, ok_bind] at pushed
      exact growInternal_branching enough pushed
    · obtain ⟨⟨trees', res⟩, pushedLast, pushed⟩ := bind_eq_ok.mp pushed
      obtain ⟨lastChild, -, pushed⟩ := bind_eq_ok.mp pushed
      obtain ⟨summaries, -, pushed⟩ := bind_eq_ok.mp pushed
      have nonempty : trees ≠ [] := List.ne_nil_of_length_pos (Nat.lt_of_lt_of_le Nat.two_pos enough)
      obtain ⟨init, last, rfl⟩ := (List.eq_nil_or_concat' trees).resolve_left nonempty
      rw [pushTreeIntoLast_concat] at pushedLast
      obtain ⟨⟨last', res'⟩, -, pushedLast⟩ := bind_eq_ok.mp pushedLast
      cases pushedLast
      have kept : 2 ≤ (init ++ [last']).length := by simpa using enough
      cases res with
      | none => exact growInternal_branching kept pushed
      | some right =>
        simp only [push_nil, ok_bind] at pushed
        exact growInternal_branching kept pushed

theorem append_branching {a b tree : SumTree T S} (aBranching : Branching a)
    (bBranching : Branching b) (appended : append a b = .ok tree) : Branching tree := by
  unfold append at appended
  split_ifs at appended with empty present lower
  · cases appended
    exact bBranching
  · obtain ⟨⟨node, split⟩, pushed, appended⟩ := bind_eq_ok.mp appended
    cases split with
    | none =>
      cases appended
      exact appendLarge_branching lower bBranching pushed
    | some left => exact fromChildTrees_branching appended
  · obtain ⟨⟨node, split⟩, pushed, appended⟩ := bind_eq_ok.mp appended
    cases split with
    | none =>
      cases appended
      exact pushTreeRecursive_branching aBranching pushed
    | some right => exact fromChildTrees_branching appended
  · cases appended
    exact aBranching

/-! ## Updates of the ends -/

structure Alike (tree tree' : SumTree T S) : Prop where
  stocked : Stocked tree → Stocked tree'
  rooted : Rooted tree → Rooted tree'
  branching : Branching tree → Branching tree'

omit [Summary S] in
theorem Alike.leaf {s s' : S} {ss ss' : List S} {items items' : List T}
    (same : items'.length = items.length) : Alike (.leaf s items ss) (.leaf s' items' ss') where
  stocked := by
    rintro ⟨enough⟩
    exact .leaf (same ▸ enough)
  rooted _ := by simp [Rooted, children]
  branching _ := .leaf _ _ _

omit [Summary S] in
theorem Alike.internal {h : Nat} {s s' : S} {ss ss' : List S} (left right : List (SumTree T S))
    {tree tree' : SumTree T S} (alike : Alike tree tree') :
    Alike (.internal h s ss (left ++ tree :: right)) (.internal h s' ss' (left ++ tree' :: right)) := by
  have same : (left ++ tree' :: right).length = (left ++ tree :: right).length := by simp
  have kept : (∀ child ∈ left ++ tree :: right, Stocked child) → ∀ child ∈ left ++ tree' :: right, Stocked child := by
    intro below child mem
    rcases List.mem_append.mp mem with mem | mem
    · exact below child (by simp [mem])
    · rcases List.mem_cons.mp mem with rfl | mem
      · exact alike.stocked (below tree (by simp))
      · exact below child (by simp [mem])
  refine ⟨?_, kept, fun branching => .internal (same ▸ branching rfl)⟩
  intro stocked
  cases stocked with
  | internal enough below => exact .internal (same ▸ enough) (kept below)

variable [Item T S]

theorem updateFirstRecursive_alike (f : T → T) {h : Nat} {tree tree' : SumTree T S} {sum : Option S}
    (balanced : Balanced h tree) (updated : updateFirstRecursive f tree = .ok (tree', sum)) : Alike tree tree' := by
  induction balanced generalizing tree' sum with
  | leaf nonempty fits =>
    obtain ⟨item, rest, rfl⟩ := List.exists_cons_of_ne_nil nonempty
    cases updated
    exact .leaf rfl
  | internal nonempty fits below ih =>
    obtain ⟨first, rest, rfl⟩ := List.exists_cons_of_ne_nil nonempty
    rw [updateFirstRecursive] at updated
    obtain ⟨-, -, updated⟩ := bind_eq_ok.mp updated
    obtain ⟨⟨first', sum'⟩, firstEq, updated⟩ := bind_eq_ok.mp updated
    obtain ⟨summary, -, updated⟩ := bind_eq_ok.mp updated
    obtain ⟨summaries, -, updated⟩ := bind_eq_ok.mp updated
    cases updated
    exact Alike.internal [] rest (ih first (by simp) firstEq)

theorem updateLastRecursive_alike (f : T → T) {h : Nat} {tree tree' : SumTree T S} {sum : Option S}
    (balanced : Balanced h tree) (updated : updateLastRecursive f tree = .ok (tree', sum)) : Alike tree tree' := by
  induction balanced generalizing tree' sum with
  | leaf nonempty fits =>
    obtain ⟨init, item, rfl⟩ := (List.eq_nil_or_concat' _).resolve_left nonempty
    simp only [updateLastRecursive, List.map_append, List.map_cons, List.map_nil,
      List.getLast?_concat, List.dropLast_concat] at updated
    cases updated
    exact .leaf (by simp)
  | internal nonempty fits below ih =>
    obtain ⟨init, last, rfl⟩ := (List.eq_nil_or_concat' _).resolve_left nonempty
    rw [updateLastRecursive, updateLastOfLast_concat] at updated
    obtain ⟨-, -, updated⟩ := bind_eq_ok.mp updated
    obtain ⟨⟨trees', sum'⟩, treesEq, updated⟩ := bind_eq_ok.mp updated
    obtain ⟨⟨last', sum''⟩, lastEq, treesEq⟩ := bind_eq_ok.mp treesEq
    cases treesEq
    obtain ⟨summary, -, updated⟩ := bind_eq_ok.mp updated
    obtain ⟨summaries, -, updated⟩ := bind_eq_ok.mp updated
    cases updated
    exact Alike.internal init [] (ih last (by simp) lastEq)

/-! ## Occupied trees -/

structure Occupied (tree : SumTree T S) : Prop where
  sturdy : Sturdy tree
  branching : Branching tree

omit [Item T S] in
theorem hereditary_occupied [Item T S] : Hereditary (Occupied : SumTree T S → Prop) where
  child occupied member := ⟨hereditary_sturdy.child occupied.sturdy member, (occupied.sturdy.rooted _ member).branching⟩
  itemSummaries_eq occupied := hereditary_sturdy.itemSummaries_eq occupied.sturdy

theorem appendClosed_occupied [LawfulSummary S] : AppendClosed (Occupied : SumTree T S → Prop) where
  wellFormed occupied := occupied.sturdy.wellFormed
  leaf wellFormed := ⟨appendClosed_sturdy.leaf wellFormed, .leaf _ _ _⟩
  append aOccupied bOccupied appended := ⟨appendClosed_sturdy.append aOccupied.sturdy bOccupied.sturdy appended,
      append_branching aOccupied.branching bOccupied.branching appended⟩

theorem Occupied.alike {tree tree' : SumTree T S} (occupied : Occupied tree)
    (wellFormed : WellFormed tree') (alike : Alike tree tree') : Occupied tree' :=
  ⟨⟨wellFormed, alike.rooted occupied.sturdy.rooted⟩, alike.branching occupied.branching⟩

theorem Occupied.updateFirst [LawfulSummary S] {tree tree' : SumTree T S} {f : T → T}
    (occupied : Occupied tree) (updated : tree.updateFirst f = .ok tree') : Occupied tree' := by
  obtain ⟨other, same, wellFormed⟩ := updateFirst_wellFormed f occupied.sturdy.wellFormed
  cases same.symm.trans updated
  obtain ⟨⟨node, sum⟩, recursive, updated⟩ := bind_eq_ok.mp updated
  cases updated
  rcases occupied.sturdy.wellFormed with rfl | ⟨h, balanced⟩
  · cases recursive
    exact occupied
  · exact occupied.alike wellFormed (updateFirstRecursive_alike f balanced recursive)

theorem Occupied.updateLast [LawfulSummary S] {tree tree' : SumTree T S} {f : T → T}
    (occupied : Occupied tree) (updated : tree.updateLast f = .ok tree') : Occupied tree' := by
  obtain ⟨other, same, wellFormed⟩ := updateLast_wellFormed f occupied.sturdy.wellFormed
  cases same.symm.trans updated
  obtain ⟨⟨node, sum⟩, recursive, updated⟩ := bind_eq_ok.mp updated
  cases updated
  rcases occupied.sturdy.wellFormed with rfl | ⟨h, balanced⟩
  · cases recursive
    exact occupied
  · exact occupied.alike wellFormed (updateLastRecursive_alike f balanced recursive)

theorem Occupied.two_mul_pow_le_length {tree : SumTree T S} (occupied : Occupied tree)
    (internal : 1 ≤ tree.height) : 2 * treeBase ^ tree.height ≤ tree.toList.length := by
  rcases occupied.sturdy.wellFormed with rfl | ⟨h, balanced⟩
  · cases internal
  · have rooted := occupied.sturdy.rooted
    have branching := occupied.branching
    cases balanced with
    | leaf nonempty fits => cases internal
    | @internal h trees nonempty fits below =>
      have enough : 2 ≤ trees.length := branching rfl
      obtain ⟨first, rest, rfl⟩ := List.exists_cons_of_ne_nil nonempty
      obtain ⟨second, rest, rfl⟩ := List.exists_cons_of_ne_nil
        (List.ne_nil_of_length_pos (Nat.le_of_succ_le_succ enough))
      have left := (rooted first (by simp)).pow_le_length (below first (by simp))
      have right := (rooted second (by simp)).pow_le_length (below second (by simp))
      rw [height_internal, toList_internal, toLists_cons, toLists_cons, List.length_append, List.length_append]
      omega

theorem Occupied.shallow {tree : SumTree T S} (occupied : Occupied tree)
    (few : tree.toList.length < 2 * treeBase ^ stackCapacity) : Shallow tree := by
  by_contra high
  rw [Shallow, Nat.not_lt] at high
  have many := occupied.two_mul_pow_le_length (Nat.le_trans (by decide) high)
  have more : treeBase ^ stackCapacity ≤ treeBase ^ tree.height := Nat.pow_le_pow_right (by decide) high
  omega

/-! ## Runs -/

/-- The trees that are built without `from_iter`, `extend` and `edit`. -/
inductive Grown : SumTree T S → Prop where
  | new : Grown new
  | push {self tree : SumTree T S} (grown : Grown self) (item : T) (built : self.pushItem item = .ok tree) : Grown tree
  | append {self other tree : SumTree T S} (grown : Grown self) (otherGrown : Grown other)
      (built : self.append other = .ok tree) : Grown tree
  | slice {self tree : SumTree T S} (grown : Grown self) {D : Type} [Dimension S D]
      {cursor next : Cursor T S D} (reached : cursor.Reached self) (target : SeekTarget D)
      (bias : Bias) (built : cursor.slice target bias = .ok (tree, next)) : Grown tree
  | suffix {self tree : SumTree T S} (grown : Grown self) {D : Type} [Dimension S D]
      {cursor next : Cursor T S D} (reached : cursor.Reached self)
      (built : cursor.suffix = .ok (tree, next)) : Grown tree
  | insertOrReplace {self tree : SumTree T S} (grown : Grown self) {K : Type} [Dimension S K]
      [KeyedItem T K] [Ord K] [DecidableEq K] {item : T} {replaced : Option T}
      (built : self.insertOrReplace item = .ok (replaced, tree)) : Grown tree
  | remove {self tree : SumTree T S} (grown : Grown self) {K : Type} [Dimension S K]
      [KeyedItem T K] [Ord K] [DecidableEq K] {key : K} {removed : Option T}
      (built : self.remove key = .ok (removed, tree)) : Grown tree
  | updateFirst {self tree : SumTree T S} (grown : Grown self) (f : T → T)
      (built : self.updateFirst f = .ok tree) : Grown tree
  | updateLast {self tree : SumTree T S} (grown : Grown self) (f : T → T)
      (built : self.updateLast f = .ok tree) : Grown tree

end SumTree

namespace Cursor

variable [Item T S] [LawfulSummary S] {D : Type} [Dimension S D] {P : SumTree T S → Prop}
  {root : SumTree T S}

omit [Summary S] [LawfulSummary S] in
theorem keepsOn_ignore : KeepsOn P (ignore : SeekAggregate T S PUnit) fun _ => True :=
  ⟨fun _ _ => trivial, fun _ _ _ _ => trivial, fun _ _ _ _ _ => trivial, fun _ _ _ _ _ _ _ => trivial⟩

omit [Summary S] [LawfulSummary S] in
theorem keepsOn_collectSummary {Output : Type} [Dimension S Output] :
    KeepsOn P (collectSummary : SeekAggregate T S Output) fun _ => True :=
  ⟨fun _ _ => trivial, fun _ _ _ _ => trivial, fun _ _ _ _ _ => trivial, fun _ _ _ _ _ _ _ => trivial⟩

theorem Reached.within (hereditary : Hereditary P) (closed : AppendClosed P) (holds : P root)
    {self : Cursor T S D} (reached : Reached root self) : Within P root self := by
  induction reached with
  | new => exact within_new root
  | reset reached ih => exact ⟨ih.1, by simp [Cursor.reset]⟩
  | searchForward reached filterNode moved ih =>
    exact searchForward_within hereditary _ holds ih moved
  | searchBackward reached filterNode moved ih =>
    exact searchBackward_within hereditary _ holds ih moved
  | seek reached target bias moved ih =>
    obtain ⟨⟨found, stopped, _⟩, sought, moved⟩ := bind_eq_ok.mp moved
    cases moved
    have fresh : Within P root (Cursor.reset _) := ⟨ih.1, by simp [Cursor.reset]⟩
    exact (seekInternal_within hereditary keepsOn_ignore target bias holds fresh trivial sought).1
  | seekForward reached target bias moved ih =>
    obtain ⟨⟨found, stopped, _⟩, sought, moved⟩ := bind_eq_ok.mp moved
    cases moved
    exact (seekInternal_within hereditary keepsOn_ignore target bias holds ih trivial sought).1
  | slice reached target bias moved ih =>
    exact (slice_within hereditary closed target bias holds ih moved).1
  | summaryTo reached target bias moved ih =>
    obtain ⟨⟨found, stopped, _⟩, sought, moved⟩ := bind_eq_ok.mp moved
    cases moved
    exact (seekInternal_within hereditary keepsOn_collectSummary target bias holds ih trivial sought).1

end Cursor

namespace SumTree

theorem Grown.occupied [Item T S] [LawfulSummary S] {tree : SumTree T S} (grown : Grown tree) : Occupied tree := by
  induction grown with
  | new => exact appendClosed_occupied.new
  | push grown item built ih =>
    exact appendClosed_occupied.append ih (appendClosed_occupied.single item) built
  | append grown otherGrown built ih otherIh => exact appendClosed_occupied.append ih otherIh built
  | slice grown reached target bias built ih =>
    exact (slice_within hereditary_occupied appendClosed_occupied target bias ih
      (reached.within hereditary_occupied appendClosed_occupied ih) built).2
  | suffix grown reached built ih =>
    exact (slice_within hereditary_occupied appendClosed_occupied .atEnd .right ih
      (reached.within hereditary_occupied appendClosed_occupied ih) built).2
  | insertOrReplace grown built ih =>
    exact insertOrReplace_within hereditary_occupied appendClosed_occupied ih built
  | remove grown built ih =>
    exact remove_within hereditary_occupied appendClosed_occupied ih built
  | updateFirst grown f built ih => exact ih.updateFirst built
  | updateLast grown f built ih => exact ih.updateLast built

end SumTree
end Pinrail

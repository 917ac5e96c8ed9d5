import Pinrail.SumTree.Keyed

/-!
# How few items a high tree can hold

Appends, and therefore slices, keep at least `TREE_BASE` entries in every node below the root. A
tree that only such operations built is of a height logarithmic in its items, and up to
`TREE_BASE ^ 16` items the cursors can walk it.
-/

namespace Pinrail
open Lib SumTree Cursor

variable {T S : Type} [Summary S]

namespace SumTree

/-- Every node has at least `TREE_BASE` entries. -/
inductive Stocked : SumTree T S → Prop where
  | leaf {s : S} {items : List T} {ss : List S} (enough : treeBase ≤ items.length) : Stocked (.leaf s items ss)
  | internal {h : Nat} {s : S} {ss : List S} {trees : List (SumTree T S)}
      (enough : treeBase ≤ trees.length) (below : ∀ tree ∈ trees, Stocked tree) :
      Stocked (.internal h s ss trees)

/-- Every node below the root has at least `TREE_BASE` entries. -/
def Rooted (tree : SumTree T S) : Prop := ∀ child ∈ tree.children, Stocked child

omit [Summary S] in
theorem Stocked.rooted {tree : SumTree T S} (stocked : Stocked tree) : Rooted tree := by
  cases stocked with
  | leaf enough => simp [Rooted, children]
  | internal enough below => exact below

omit [Summary S] in
theorem Rooted.stocked {tree : SumTree T S} (rooted : Rooted tree)
    (enough : tree.isUnderflowing = false) : Stocked tree := by
  cases tree with
  | leaf s items ss => exact .leaf (by simpa [isUnderflowing] using enough)
  | internal h s ss trees => exact .internal (by simpa [isUnderflowing] using enough) rooted

/-- A node after an append, with the part that was split off: only a node that had too few entries
before may have too few now. -/
structure Settled (full : Prop) (node : SumTree T S) (split : Option (SumTree T S)) : Prop where
  rooted : Rooted node
  split : ∀ tree ∈ split, Stocked node ∧ Stocked tree
  kept : full → Stocked node

omit [Summary S] in
theorem Settled.mono {full full' : Prop} {self : SumTree T S} {split : Option (SumTree T S)}
    (implies : full' → full) (settled : Settled full self split) : Settled full' self split :=
  ⟨settled.rooted, settled.split, fun known => settled.kept (implies known)⟩

omit [Summary S] in
theorem Settled.internal {h : Nat} {s : S} {ss : List S} {trees : List (SumTree T S)}
    (below : ∀ tree ∈ trees, Stocked tree) : Settled (treeBase ≤ trees.length) (.internal h s ss trees) none :=
  ⟨below, by simp, fun enough => .internal enough below⟩

omit [Summary S] in
theorem Settled.cut {h : Nat} {s s' : S} {ss ss' : List S} {trees : List (SumTree T S)} (cut : Nat)
    (below : ∀ tree ∈ trees, Stocked tree) (first : treeBase ≤ cut) (second : treeBase + cut ≤ trees.length)
    (full : Prop) : Settled full (.internal h s ss (trees.take cut)) (some (.internal h s' ss' (trees.drop cut))) ∧
    Settled full (.internal h s' ss' (trees.drop cut)) (some (.internal h s ss (trees.take cut))) := by
  have left : Stocked (.internal h s ss (trees.take cut)) :=
    .internal (by rw [List.length_take]; omega) fun tree mem => below tree (List.mem_of_mem_take mem)
  have right : Stocked (.internal h s' ss' (trees.drop cut)) :=
    .internal (by rw [List.length_drop]; omega) fun tree mem => below tree (List.mem_of_mem_drop mem)
  exact ⟨⟨left.rooted, by simp [left, right], fun _ => left⟩, ⟨right.rooted, by simp [left, right], fun _ => right⟩⟩

omit [Summary S] in
theorem Settled.leaf {s : S} {ss : List S} {items : List T} :
    Settled (treeBase ≤ items.length) (.leaf s items ss) none :=
  ⟨by simp [Rooted, children], by simp, fun enough => .leaf enough⟩

omit [Summary S] in
theorem Settled.cutLeaf {s s' : S} {ss ss' : List S} {items : List T} (cut : Nat)
    (first : treeBase ≤ cut) (second : treeBase + cut ≤ items.length) (full : Prop) :
    Settled full (.leaf s (items.take cut) ss) (some (.leaf s' (items.drop cut) ss')) ∧
    Settled full (.leaf s' (items.drop cut) ss') (some (.leaf s (items.take cut) ss)) := by
  have left : Stocked (.leaf s (items.take cut) ss) := .leaf (by rw [List.length_take]; omega)
  have right : Stocked (.leaf s' (items.drop cut) ss') := .leaf (by rw [List.length_drop]; omega)
  exact ⟨⟨left.rooted, by simp [left, right], fun _ => left⟩, ⟨right.rooted, by simp [left, right], fun _ => right⟩⟩

/-! ## Appending on the right -/

theorem growInternal_settled {h : Nat} {s : S} {ss more : List S} {trees new : List (SumTree T S)} {self : SumTree T S}
    {split : Option (SumTree T S)} (below : ∀ tree ∈ trees ++ new, Stocked tree)
    (grown : growInternal h s ss trees more new = .ok (self, split)) :
    Settled (treeBase ≤ trees.length) self split := by
  unfold growInternal at grown
  simp only at grown
  split_ifs at grown with overflow
  · obtain ⟨leftSummaries, -, grown⟩ := bind_eq_ok.mp grown
    obtain ⟨rightSummaries, -, grown⟩ := bind_eq_ok.mp grown
    obtain ⟨leftTrees, leftEq, grown⟩ := bind_eq_ok.mp grown
    obtain ⟨rightTrees, rightEq, grown⟩ := bind_eq_ok.mp grown
    cases grown
    rw [eq_of_collect leftEq, eq_of_collect rightEq]
    simp only [nodeCapacity, treeBase] at overflow
    exact (Settled.cut _ below (by simp only [treeBase]; omega)
      (by simp only [treeBase, List.length_append]; omega) _).1
  · obtain ⟨summaries, -, grown⟩ := bind_eq_ok.mp grown
    obtain ⟨allTrees, collected, grown⟩ := bind_eq_ok.mp grown
    cases grown
    rw [eq_of_collect collected]
    refine (Settled.internal below).mono fun enough => ?_
    rw [List.length_append]
    omega

theorem growLeaf_settled {s : S} {items : List T} {ss : List S} {other self : SumTree T S}
    {split : Option (SumTree T S)} (grown : growLeaf s items ss other = .ok (self, split)) :
    Settled (treeBase ≤ items.length) self split := by
  unfold growLeaf at grown
  obtain ⟨otherItems, -, grown⟩ := bind_eq_ok.mp grown
  simp only at grown
  split_ifs at grown with overflow
  · obtain ⟨leftItems, leftEq, grown⟩ := bind_eq_ok.mp grown
    obtain ⟨rightItems, rightEq, grown⟩ := bind_eq_ok.mp grown
    obtain ⟨leftSummaries, -, grown⟩ := bind_eq_ok.mp grown
    obtain ⟨rightSummaries, -, grown⟩ := bind_eq_ok.mp grown
    cases grown
    rw [eq_of_collect leftEq, eq_of_collect rightEq]
    simp only [nodeCapacity, treeBase] at overflow
    exact (Settled.cutLeaf _ (by simp only [treeBase]; omega) (by simp only [treeBase, List.length_append]; omega) _).1
  · obtain ⟨allItems, collected, grown⟩ := bind_eq_ok.mp grown
    obtain ⟨summaries, -, grown⟩ := bind_eq_ok.mp grown
    cases grown
    rw [eq_of_collect collected]
    refine Settled.leaf.mono fun enough => ?_
    rw [List.length_append]
    omega

variable [Item T S]

theorem pushTreeRecursive_settled {h : Nat} {self other self' : SumTree T S} {split : Option (SumTree T S)}
    (balanced : Balanced h self) (rooted : Rooted self) (otherRooted : Rooted other)
    (pushed : pushTreeRecursive self other = .ok (self', split)) : Settled (Stocked self) self' split := by
  induction balanced generalizing self' split with
  | leaf nonempty fits =>
    rw [pushTreeRecursive] at pushed
    refine (growLeaf_settled pushed).mono fun stocked => ?_
    cases stocked with
    | leaf enough => exact enough
  | @internal h trees nonempty fits below ih =>
    obtain ⟨init, last, rfl⟩ := (List.eq_nil_or_concat' trees).resolve_left nonempty
    have lastStocked : Stocked last := rooted last (by simp)
    have count : Stocked (.internal (h + 1) (Summary.sum ((toLists (init ++ [last])).map Item.summary))
        ((init ++ [last]).map SumTree.summary) (init ++ [last])) →
        treeBase ≤ (init ++ [last]).length := by
      intro stocked
      cases stocked with
      | internal enough below => exact enough
    rw [pushTreeRecursive] at pushed
    obtain ⟨delta, -, pushed⟩ := bind_eq_ok.mp pushed
    split_ifs at pushed with level sibling
    · -- The children of both nodes are put together.
      obtain ⟨summaries, -, pushed⟩ := bind_eq_ok.mp pushed
      obtain ⟨otherTrees, otherTreesEq, pushed⟩ := bind_eq_ok.mp pushed
      obtain ⟨treesToAppend, collected, pushed⟩ := bind_eq_ok.mp pushed
      refine (growInternal_settled (fun tree mem => ?_) pushed).mono count
      rw [eq_of_collect collected] at mem
      rcases List.mem_append.mp mem with mem | mem
      · exact rooted tree mem
      · cases other with
        | leaf => cases otherTreesEq
        | internal =>
          cases otherTreesEq
          exact otherRooted tree mem
    · simp only [push_nil, ok_bind] at pushed
      refine (growInternal_settled (fun tree mem => ?_) pushed).mono count
      rcases List.mem_append.mp mem with mem | mem
      · exact rooted tree mem
      · rw [List.mem_singleton.mp mem]
        exact otherRooted.stocked sibling.2
    · obtain ⟨⟨trees', res⟩, pushedLast, pushed⟩ := bind_eq_ok.mp pushed
      obtain ⟨lastChild, -, pushed⟩ := bind_eq_ok.mp pushed
      obtain ⟨summaries, -, pushed⟩ := bind_eq_ok.mp pushed
      rw [pushTreeIntoLast_concat] at pushedLast
      obtain ⟨⟨last', res'⟩, lastEq, pushedLast⟩ := bind_eq_ok.mp pushedLast
      cases pushedLast
      have settled := ih last (by simp) lastStocked.rooted lastEq
      have stocked : ∀ tree ∈ init ++ [last'], Stocked tree := by
        intro tree mem
        rcases List.mem_append.mp mem with mem | mem
        · exact rooted tree (by simp [mem])
        · rw [List.mem_singleton.mp mem]
          exact settled.kept lastStocked
      have same : (init ++ [last']).length = (init ++ [last]).length := by simp
      cases res with
      | none =>
        refine (growInternal_settled (by simpa using stocked) pushed).mono ?_
        rw [same]
        exact count
      | some right =>
        simp only [push_nil, ok_bind] at pushed
        refine (growInternal_settled (fun tree mem => ?_) pushed).mono ?_
        · rcases List.mem_append.mp mem with mem | mem
          · exact stocked tree mem
          · rw [List.mem_singleton.mp mem]
            exact (settled.split right rfl).2
        · rw [same]
          exact count

/-! ## Appending on the left -/

omit [Item T S] in
theorem mergeIntoRight_settled {small large node : SumTree T S} {split : Option (SumTree T S)}
    (smallRooted : Rooted small) (stocked : Stocked large)
    (merged : mergeIntoRight small large = .ok (node, split)) : Settled True node split := by
  unfold mergeIntoRight at merged
  obtain ⟨-, -, merged⟩ := bind_eq_ok.mp merged
  cases stocked with
  | leaf enough =>
    cases small with
    | internal h s ss trees => cases merged
    | leaf s items ss =>
      simp only at merged
      split_ifs at merged with fits
      · obtain ⟨allItems, collected, merged⟩ := bind_eq_ok.mp merged
        obtain ⟨summaries, -, merged⟩ := bind_eq_ok.mp merged
        cases merged
        rw [eq_of_collect collected]
        refine Settled.leaf.mono fun _ => ?_
        rw [List.length_append]
        omega
      · obtain ⟨leftItems, leftEq, merged⟩ := bind_eq_ok.mp merged
        obtain ⟨rightItems, rightEq, merged⟩ := bind_eq_ok.mp merged
        obtain ⟨leftSummaries, -, merged⟩ := bind_eq_ok.mp merged
        obtain ⟨rightSummaries, -, merged⟩ := bind_eq_ok.mp merged
        cases merged
        rw [eq_of_collect leftEq, eq_of_collect rightEq]
        simp only [nodeCapacity, treeBase] at fits
        exact (Settled.cutLeaf _ (by simp only [treeBase]; omega)
          (by simp only [treeBase, List.length_append]; omega) _).2
  | @internal height summary childSummaries childTrees enough below =>
    cases small with
    | leaf s items ss => cases merged
    | internal h s ss trees =>
      have all : ∀ tree ∈ trees ++ childTrees, Stocked tree := by
        intro tree mem
        rcases List.mem_append.mp mem with mem | mem
        · exact smallRooted tree mem
        · exact below tree mem
      simp only at merged
      split_ifs at merged with fits
      · obtain ⟨allTrees, collected, merged⟩ := bind_eq_ok.mp merged
        obtain ⟨summaries, -, merged⟩ := bind_eq_ok.mp merged
        cases merged
        rw [eq_of_collect collected]
        refine (Settled.internal all).mono fun _ => ?_
        rw [List.length_append]
        omega
      · obtain ⟨leftTrees, leftEq, merged⟩ := bind_eq_ok.mp merged
        obtain ⟨rightTrees, rightEq, merged⟩ := bind_eq_ok.mp merged
        obtain ⟨leftSummaries, -, merged⟩ := bind_eq_ok.mp merged
        obtain ⟨rightSummaries, -, merged⟩ := bind_eq_ok.mp merged
        cases merged
        rw [eq_of_collect leftEq, eq_of_collect rightEq]
        simp only [nodeCapacity, treeBase] at fits
        exact (Settled.cut _ all (by simp only [treeBase]; omega)
          (by simp only [treeBase, List.length_append]; omega) _).2

omit [Item T S] in
theorem prependChild_settled {h : Nat} {s : S} {ss : List S} {trees : List (SumTree T S)} {tree node : SumTree T S}
    {split : Option (SumTree T S)} (below : ∀ child ∈ trees, Stocked child) (stocked : Stocked tree)
    (prepended : prependChild h s ss trees tree = .ok (node, split)) :
    Settled (treeBase ≤ trees.length) node split := by
  unfold prependChild at prepended
  split_ifs at prepended with room
  · obtain ⟨summaries, -, prepended⟩ := bind_eq_ok.mp prepended
    obtain ⟨allTrees, inserted, prepended⟩ := bind_eq_ok.mp prepended
    cases prepended
    rw [eq_of_insertFront inserted]
    refine (Settled.internal (by simpa using ⟨stocked, below⟩)).mono fun enough => ?_
    rw [List.length_cons]
    omega
  · obtain ⟨⟨drainedSummaries, summaries⟩, -, prepended⟩ := bind_eq_ok.mp prepended
    obtain ⟨newSummaries, -, prepended⟩ := bind_eq_ok.mp prepended
    obtain ⟨⟨drained, rest⟩, drainedEq, prepended⟩ := bind_eq_ok.mp prepended
    obtain ⟨newTrees, collected, prepended⟩ := bind_eq_ok.mp prepended
    cases prepended
    obtain ⟨rfl, rfl⟩ := eq_of_drainFront drainedEq
    rw [eq_of_collect collected]
    simp only [nodeCapacity, treeBase] at room
    -- The new child and the six drained ones are the first seven of all children.
    have all : ∀ child ∈ tree :: trees, Stocked child := by simpa using ⟨stocked, below⟩
    have cut : Settled (treeBase ≤ trees.length)
        (.internal h (Summary.sum summaries) summaries ((tree :: trees).drop (treeBase + 1)))
        (some (.internal h (Summary.sum newSummaries) newSummaries ((tree :: trees).take (treeBase + 1)))) :=
      (Settled.cut _ all (Nat.le_succ _) (by simp only [treeBase, List.length_cons]; omega) _).2
    simpa using cut

omit [Item T S] in
theorem appendLarge_same_settled {small large node : SumTree T S} {split : Option (SumTree T S)}
    (level : small.height = large.height) (smallRooted : Rooted small) (stocked : Stocked large)
    (appended : appendLarge small large = .ok (node, split)) : Settled (Stocked large) node split := by
  have merged : (if small.isUnderflowing = false then .ok (large, some small)
      else mergeIntoRight small large) = .ok (node, split) := by
    cases large <;> simpa only [appendLarge, if_pos level] using appended
  split_ifs at merged with full
  · cases merged
    exact ⟨stocked.rooted, by simpa using ⟨stocked, smallRooted.stocked full⟩, fun _ => stocked⟩
  · exact (mergeIntoRight_settled smallRooted stocked merged).mono fun _ => trivial

theorem appendLarge_settled {h : Nat} {small large node : SumTree T S} {split : Option (SumTree T S)}
    (balanced : Balanced h large) (smallRooted : Rooted small) (rooted : Rooted large)
    (placed : small.height < large.height ∨ Stocked large) (appended : appendLarge small large = .ok (node, split)) :
    Settled (Stocked large) node split := by
  induction balanced generalizing node split with
  | leaf nonempty fits =>
    by_cases level : small.height = 0
    · refine appendLarge_same_settled level smallRooted (placed.resolve_left ?_) appended
      rw [level]
      exact Nat.lt_irrefl _
    · rw [appendLarge, if_neg (by simpa [height] using level)] at appended
      obtain ⟨-, -, appended⟩ := bind_eq_ok.mp appended
      cases appended
  | @internal h trees nonempty fits below ih =>
    by_cases level : small.height = h + 1
    · refine appendLarge_same_settled level smallRooted (placed.resolve_left ?_) appended
      rw [level]
      exact Nat.lt_irrefl _
    · obtain ⟨first, rest, rfl⟩ := List.exists_cons_of_ne_nil nonempty
      have firstStocked : Stocked first := rooted first (by simp)
      rw [appendLarge, if_neg (by simpa using level)] at appended
      obtain ⟨-, -, appended⟩ := bind_eq_ok.mp appended
      obtain ⟨⟨first', res⟩, firstEq, appended⟩ := bind_eq_ok.mp appended
      obtain ⟨summaries, -, appended⟩ := bind_eq_ok.mp appended
      have settled := ih first (by simp) firstStocked.rooted (.inr firstStocked) firstEq
      have stocked : ∀ tree ∈ first' :: rest, Stocked tree := by
        intro tree mem
        rcases List.mem_cons.mp mem with rfl | mem
        · exact settled.kept firstStocked
        · exact rooted tree (by simp [mem])
      have count : Stocked (.internal (h + 1) (Summary.sum ((toLists (first :: rest)).map Item.summary))
          ((first :: rest).map SumTree.summary) (first :: rest)) →
          treeBase ≤ (first' :: rest).length := by
        intro known
        cases known with
        | internal enough below => exact enough
      cases res with
      | some tree =>
        exact (prependChild_settled stocked (settled.split tree rfl).2 appended).mono count
      | none =>
        cases appended
        exact (Settled.internal stocked).mono count

omit [Item T S] in
theorem fromChildTrees_rooted {left right tree : SumTree T S} (leftStocked : Stocked left)
    (rightStocked : Stocked right) (joined : fromChildTrees left right = .ok tree) : Rooted tree := by
  obtain ⟨height, -, joined⟩ := bind_eq_ok.mp joined
  obtain ⟨summaries, -, joined⟩ := bind_eq_ok.mp joined
  obtain ⟨allSummaries, -, joined⟩ := bind_eq_ok.mp joined
  obtain ⟨one, oneEq, joined⟩ := bind_eq_ok.mp joined
  obtain ⟨two, twoEq, joined⟩ := bind_eq_ok.mp joined
  cases joined
  rw [eq_of_push twoEq, eq_of_push oneEq]
  simpa [Rooted] using ⟨leftStocked, rightStocked⟩

theorem append_rooted {a b tree : SumTree T S} (aWellFormed : WellFormed a) (bWellFormed : WellFormed b)
    (aRooted : Rooted a) (bRooted : Rooted b) (appended : append a b = .ok tree) : Rooted tree := by
  unfold append at appended
  split_ifs at appended with empty present lower
  · cases appended
    exact bRooted
  · obtain ⟨h, bBalanced⟩ : ∃ h, Balanced h b := by
      refine bWellFormed.resolve_left ?_
      rintro rfl
      cases present
    obtain ⟨⟨node, split⟩, pushed, appended⟩ := bind_eq_ok.mp appended
    have settled := appendLarge_settled bBalanced aRooted bRooted (.inl lower) pushed
    cases split with
    | none =>
      cases appended
      exact settled.rooted
    | some left =>
      obtain ⟨nodeStocked, leftStocked⟩ := settled.split left rfl
      exact fromChildTrees_rooted leftStocked nodeStocked appended
  · obtain ⟨h, aBalanced⟩ : ∃ h, Balanced h a := by
      refine aWellFormed.resolve_left ?_
      rintro rfl
      exact empty rfl
    obtain ⟨⟨node, split⟩, pushed, appended⟩ := bind_eq_ok.mp appended
    have settled := pushTreeRecursive_settled aBalanced aRooted bRooted pushed
    cases split with
    | none =>
      cases appended
      exact settled.rooted
    | some right =>
      obtain ⟨nodeStocked, rightStocked⟩ := settled.split right rfl
      exact fromChildTrees_rooted nodeStocked rightStocked appended
  · cases appended
    exact aRooted

/-! ## Items and height -/

theorem Stocked.pow_le_length {h : Nat} {tree : SumTree T S} (balanced : Balanced h tree)
    (stocked : Stocked tree) : treeBase ^ (h + 1) ≤ tree.toList.length := by
  induction balanced with
  | leaf nonempty fits =>
    cases stocked with
    | leaf enough => simpa using enough
  | @internal h trees nonempty fits below ih =>
    cases stocked with
    | internal enough stocked =>
      have each : ∀ n ∈ trees.map fun tree => tree.toList.length, treeBase ^ (h + 1) ≤ n := by
        intro n mem
        obtain ⟨tree, member, rfl⟩ := List.mem_map.mp mem
        exact ih tree member (stocked tree member)
      have total := List.card_nsmul_le_sum _ _ each
      rw [List.length_map] at total
      rw [toList_internal, toLists_eq_flatten, List.length_flatten, List.map_map, Nat.pow_succ']
      exact (Nat.mul_le_mul_right _ enough).trans total

structure Sturdy (tree : SumTree T S) : Prop where
  wellFormed : WellFormed tree
  rooted : Rooted tree

theorem Sturdy.new : Sturdy (new : SumTree T S) := ⟨.inl rfl, by simp [Rooted, SumTree.new, children]⟩

theorem Sturdy.pow_le_length {h : Nat} {tree : SumTree T S} (sturdy : Sturdy tree)
    (height : tree.height = h + 1) : treeBase ^ (h + 1) ≤ tree.toList.length := by
  rcases sturdy.wellFormed with rfl | ⟨h', balanced⟩
  · cases height
  · have rooted := sturdy.rooted
    cases balanced with
    | leaf nonempty fits => cases height
    | @internal h' trees nonempty fits below =>
      obtain rfl : h' = h := by simpa using height
      obtain ⟨first, rest, rfl⟩ := List.exists_cons_of_ne_nil nonempty
      have firstBalanced := below first (by simp)
      have enough := (rooted first (by simp)).pow_le_length firstBalanced
      rw [toList_internal, toLists_cons, List.length_append]
      omega

theorem Sturdy.shallow {tree : SumTree T S} (sturdy : Sturdy tree)
    (few : tree.toList.length < treeBase ^ stackCapacity) : Shallow tree := by
  by_contra high
  rw [Shallow, Nat.not_lt] at high
  obtain ⟨h, height⟩ : ∃ h, tree.height = h + 1 := ⟨tree.height - 1, by
    simp only [stackCapacity] at high
    omega⟩
  have many : treeBase ^ stackCapacity ≤ treeBase ^ (h + 1) := Nat.pow_le_pow_right (by decide) (height ▸ high)
  exact absurd (many.trans (sturdy.pow_le_length height)) (Nat.not_le.mpr few)

end SumTree

/-! ## Slices and insertions -/

namespace Cursor

variable [Item T S] {D : Type} [Dimension S D] {root : SumTree T S}

structure AppendClosed (P : SumTree T S → Prop) : Prop where
  wellFormed : ∀ {tree : SumTree T S}, P tree → WellFormed tree
  leaf : ∀ {s : S} {items : List T} {ss : List S}, WellFormed (.leaf s items ss) → P (.leaf s items ss)
  append : ∀ {a b tree : SumTree T S}, P a → P b → a.append b = .ok tree → P tree

variable {P : SumTree T S → Prop}

theorem AppendClosed.single [LawfulSummary S] (closed : AppendClosed P) (item : T) :
    P (.leaf (Item.summary item) [item] [Item.summary item]) :=
  closed.leaf (.inr ⟨0, balanced_single item⟩)

theorem AppendClosed.new (closed : AppendClosed P) : P SumTree.new := closed.leaf (.inl rfl)

omit [Summary S] [Item T S] in
theorem within_new (root : SumTree T S) : Within P root (new root : Cursor T S D) := ⟨rfl, by simp [Cursor.new]⟩

theorem keepsOn_collectSlice [LawfulSummary S] (closed : AppendClosed P) :
    KeepsOn P (collectSlice : SeekAggregate T S _) fun a => SliceSound a ∧ P a.tree where
  beginLeaf _ sound := sound
  endLeaf a a' sound ended := by
    refine ⟨keeps_collectSlice.endLeaf a a' sound.1 ended, ?_⟩
    obtain ⟨tree, appended, ended⟩ := bind_eq_ok.mp ended
    cases ended
    exact closed.append sound.2 (closed.leaf sound.1.leaf) appended
  pushItem a a' item sound pushed := by
    refine ⟨keeps_collectSlice.pushItem a a' item sound.1 pushed, ?_⟩
    obtain ⟨items, -, pushed⟩ := bind_eq_ok.mp pushed
    obtain ⟨summaries, -, pushed⟩ := bind_eq_ok.mp pushed
    cases pushed
    exact sound.2
  pushTree a a' tree summary sound holds pushed := by
    refine ⟨keeps_collectSlice.pushTree a a' tree summary sound.1 (closed.wellFormed holds) pushed, ?_⟩
    obtain ⟨appendedTree, appended, pushed⟩ := bind_eq_ok.mp pushed
    cases pushed
    exact closed.append sound.2 holds appended

theorem slice_within [LawfulSummary S] (hereditary : Hereditary P) (closed : AppendClosed P) (target : SeekTarget D)
    (bias : Bias) {self next : Cursor T S D} {tree : SumTree T S} (holds : P root) (within : Within P root self)
    (sliced : self.slice target bias = .ok (tree, next)) : Within P root next ∧ P tree := by
  obtain ⟨⟨found, stopped, a⟩, sought, sliced⟩ := bind_eq_ok.mp sliced
  cases sliced
  have both := seekInternal_within hereditary (keepsOn_collectSlice closed) target bias holds within
    ⟨.empty, closed.new⟩ sought
  exact ⟨both.1, both.2.2⟩

end Cursor

namespace SumTree

variable [Item T S] {K : Type} [Dimension S K] [KeyedItem T K] [DecidableEq K]
  {P : SumTree T S → Prop} {tree tree' : SumTree T S} {item : T} {replaced : Option T}

omit [Summary S] in
theorem takeKey_within (hereditary : Hereditary P) {cursor moved : Cursor T S K} {k : K}
    {entry taken : Option T} (holds : P tree) (within : Within P tree cursor)
    (took : takeKey cursor k entry = .ok (taken, moved)) : Within P tree moved := by
  cases entry with
  | none =>
    cases took
    exact within
  | some item =>
    simp only [takeKey] at took
    split_ifs at took
    · obtain ⟨next, stepped, took⟩ := bind_eq_ok.mp took
      cases took
      exact searchForward_within hereditary _ holds within stepped
    · cases took
      exact within

variable [LawfulSummary S] [Ord K]

theorem insertOrReplace_within (hereditary : Hereditary P) (closed : AppendClosed P) (holds : P tree)
    (inserted : insertOrReplace tree item = .ok (replaced, tree')) : P tree' := by
  obtain ⟨⟨front, cursor⟩, sliced, inserted⟩ := bind_eq_ok.mp inserted
  obtain ⟨entry, -, inserted⟩ := bind_eq_ok.mp inserted
  obtain ⟨⟨taken, moved⟩, took, inserted⟩ := bind_eq_ok.mp inserted
  obtain ⟨pushed, pushedEq, inserted⟩ := bind_eq_ok.mp inserted
  obtain ⟨⟨rest, last⟩, suffixed, inserted⟩ := bind_eq_ok.mp inserted
  obtain ⟨whole, appended, inserted⟩ := bind_eq_ok.mp inserted
  cases inserted
  obtain ⟨within, frontHolds⟩ := slice_within hereditary closed _ _ holds (within_new tree) sliced
  have restHolds := (slice_within hereditary closed _ _ holds (takeKey_within hereditary holds within took) suffixed).2
  exact closed.append (closed.append frontHolds (closed.single item) pushedEq) restHolds appended

theorem remove_within (hereditary : Hereditary P) (closed : AppendClosed P) (holds : P tree) {k : K}
    (removed : remove tree k = .ok (replaced, tree')) : P tree' := by
  obtain ⟨⟨front, cursor⟩, sliced, removed⟩ := bind_eq_ok.mp removed
  obtain ⟨entry, -, removed⟩ := bind_eq_ok.mp removed
  obtain ⟨⟨taken, moved⟩, took, removed⟩ := bind_eq_ok.mp removed
  obtain ⟨⟨rest, last⟩, suffixed, removed⟩ := bind_eq_ok.mp removed
  obtain ⟨whole, appended, removed⟩ := bind_eq_ok.mp removed
  cases removed
  obtain ⟨within, frontHolds⟩ := slice_within hereditary closed _ _ holds (within_new tree) sliced
  have restHolds := (slice_within hereditary closed _ _ holds (takeKey_within hereditary holds within took) suffixed).2
  exact closed.append frontHolds restHolds appended

/-! ## Sturdy trees -/

omit [LawfulSummary S] in
theorem hereditary_sturdy : Hereditary (Sturdy : SumTree T S → Prop) where
  child sturdy member := ⟨sturdy.wellFormed.child member, (sturdy.rooted _ member).rooted⟩
  itemSummaries_eq sturdy := sturdy.wellFormed.itemSummaries_eq

theorem appendClosed_sturdy : AppendClosed (Sturdy : SumTree T S → Prop) where
  wellFormed sturdy := sturdy.wellFormed
  leaf wellFormed := ⟨wellFormed, by simp [Rooted, children]⟩
  append aSturdy bSturdy appended := ⟨append_sound aSturdy.wellFormed bSturdy.wellFormed appended,
      append_rooted aSturdy.wellFormed bSturdy.wellFormed aSturdy.rooted bSturdy.rooted appended⟩

theorem insertOrReplace_sturdy (sturdy : Sturdy tree)
    (inserted : insertOrReplace tree item = .ok (replaced, tree')) : Sturdy tree' :=
  insertOrReplace_within hereditary_sturdy appendClosed_sturdy sturdy inserted

end SumTree
end Pinrail

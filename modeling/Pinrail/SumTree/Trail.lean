import Pinrail.SumTree.Termination

/-!
# Where a cursor is

The stack of a cursor leads from the root down to a node. A trail says which node that is and
which items lie before and after it; the positions that the stack holds are sums of the items
before them.
-/

namespace Pinrail
open Lib SumTree

variable {T S : Type} [Summary S] [Item T S]

/-! ## Measuring items -/

/-- The sum of `items` in a dimension, one item at a time. -/
def measure {D : Type} [Dimension S D] (items : List T) : D :=
  items.foldl (fun d item => Dimension.addSummary d (Item.summary item : S)) (Dimension.zero S)

namespace Cursor
variable {D : Type} [Dimension S D]

omit [Summary S] in
theorem measure_concat (items : List T) (item : T) :
    Dimension.addSummary (measure items : D) (Item.summary item) = measure (items ++ [item]) := by
  rw [measure, measure, List.foldl_append]
  rfl

theorem addSummary_sum [LawfulSummary S] [LawfulDimension S D] (d : D) (summaries : List S)
    (nonempty : summaries ≠ []) :
    Dimension.addSummary d (Summary.sum summaries) = summaries.foldl Dimension.addSummary d := by
  obtain ⟨first, rest, rfl⟩ := List.exists_cons_of_ne_nil nonempty
  rw [Summary.sum_cons, List.foldl_cons]
  clear nonempty
  induction rest generalizing first d with
  | nil => rfl
  | cons second rest ih =>
    rw [List.foldl_cons, List.foldl_cons, ih, LawfulDimension.add_add]

theorem measure_tree [LawfulSummary S] [LawfulDimension S D] (items : List T) {h : Nat}
    {tree : SumTree T S} (balanced : Balanced h tree) :
    Dimension.addSummary (measure items : D) tree.summary = measure (items ++ tree.toList) := by
  rw [balanced.summary_eq, addSummary_sum _ _ (by simpa using balanced.toList_ne_nil), measure,
    measure, List.foldl_append, List.foldl_map]

theorem measure_trees [LawfulSummary S] [LawfulDimension S D] (items : List T) {h : Nat}
    {trees : List (SumTree T S)} (balanced : ∀ tree ∈ trees, Balanced h tree) :
    (trees.map SumTree.summary).foldl Dimension.addSummary (measure items : D) = measure (items ++ toLists trees) := by
  induction trees generalizing items with
  | nil => simp
  | cons tree trees ih =>
    rw [List.map_cons, List.foldl_cons, measure_tree items (balanced tree (by simp)),
      ih _ fun tree mem => balanced tree (by simp [mem])]
    simp

omit [Summary S] in
theorem measure_items (before items : List T) :
    (items.map Item.summary).foldl Dimension.addSummary (measure before : D) = measure (before ++ items) := by
  rw [measure, measure, List.foldl_append, List.foldl_map]

/-! ## Trails -/

/-- `Trail root stack h tree before after`: the entries of `stack` lead from `root` down to `tree`,
of height `h`, with the items `before` in front of it and `after` behind it. -/
inductive Trail (root : SumTree T S) :
    List (StackEntry T S D) → Nat → SumTree T S → List T → List T → Prop where
  | root {h : Nat} (balanced : Balanced h root) : Trail root [] h root [] []
  | child {stack : List (StackEntry T S D)} {h : Nat} {s : S} {ss : List S}
      {left right : List (SumTree T S)} {tree : SumTree T S} {before after : List T}
      (parent : Trail root stack (h + 1) (.internal (h + 1) s ss (left ++ tree :: right)) before after) :
      Trail root (⟨.internal (h + 1) s ss (left ++ tree :: right), left.length,
          measure (before ++ toLists left)⟩ :: stack)
        h tree (before ++ toLists left) (toLists right ++ after)

namespace Trail
variable {root tree : SumTree T S} {stack : List (StackEntry T S D)} {h : Nat}
  {before after : List T}

theorem balanced (trail : Trail root stack h tree before after) : Balanced h tree := by
  induction trail with
  | root balanced => exact balanced
  | child parent ih =>
    cases ih with
    | internal nonempty fits below => exact below _ (by simp)

theorem held (trail : Trail root stack h tree before after) : root.toList = before ++ tree.toList ++ after := by
  induction trail with
  | root balanced => simp
  | child parent ih => simp [ih]

theorem depth (trail : Trail root stack h tree before after) : stack.length + h = root.height := by
  induction trail with
  | root balanced => simp [balanced.height_eq]
  | child parent ih =>
    rw [List.length_cons]
    omega

theorem startOfTop_eq (trail : Trail root stack h tree before after) : startOfTop stack = measure before := by
  cases trail with
  | root balanced => rfl
  | child parent => rfl

end Trail

/-! ## Resting cursors -/

def beforeStart (root : SumTree T S) : Cursor T S D := ⟨root, [], Dimension.zero S, true, false⟩

/-- The cursor rests between the items `before` and `after` of `root`. -/
inductive Rests (root : SumTree T S) : Cursor T S D → List T → List T → Prop where
  | item {stack : List (StackEntry T S D)} {s : S} {ss : List S} {left right : List T} {item : T}
      {before after : List T}
      (trail : Trail root stack 0 (.leaf s (left ++ item :: right) ss) before after) (p : D) :
      Rests root ⟨root, ⟨.leaf s (left ++ item :: right) ss, left.length, p⟩ :: stack,
          measure (before ++ left), true, false⟩
        (before ++ left) (item :: right ++ after)
  | atEnd : Rests root ⟨root, [], measure root.toList, true, true⟩ root.toList []

namespace Rests
variable {root : SumTree T S} {self : Cursor T S D} {before after : List T}

theorem tree_eq (rests : Rests root self before after) : self.tree = root := by
  cases rests <;> rfl

theorem didSeek_eq (rests : Rests root self before after) : self.didSeek = true := by
  cases rests <;> rfl

theorem position_eq (rests : Rests root self before after) : self.position = measure before := by
  cases rests <;> rfl

theorem held (rests : Rests root self before after) : root.toList = before ++ after := by
  cases rests with
  | item trail p => simpa using trail.held
  | atEnd => simp

end Rests

end Cursor
end Pinrail

/-! ## Reading a resting cursor

The current item, its neighbours and the positions around it are those of the item sequence.
-/

namespace Pinrail.Cursor
open Lib SumTree

variable {T S D : Type} [Summary S] [Item T S] [Dimension S D]
variable {root tree : SumTree T S} {self : Cursor T S D} {stack : List (StackEntry T S D)} {h : Nat}
  {before after : List T}

/-! ## Neighbouring leaves -/

theorem nextLeaf_spec (trail : Trail root stack h tree before after) : (nextLeaf stack = .ok none ∧ after = []) ∨
    ∃ leaf xs, nextLeaf stack = .ok (some leaf) ∧ leaf.items = .ok xs ∧ xs ≠ [] ∧ ∃ rest, after = xs ++ rest := by
  induction trail with
  | root balanced => exact .inl ⟨rfl, rfl⟩
  | @child stack h s ss left right tree before after parent ih =>
    simp only [nextLeaf, childTrees, ok_bind, List.length_append, List.length_cons]
    rw [checkedSub_of_le (by omega), ok_bind]
    cases right with
    | nil =>
      rw [if_neg (by simp)]
      simpa using ih
    | cons next right =>
      have nextBalanced : Balanced h next := by
        cases parent.balanced with
        | internal nonempty fits below => exact below next (by simp)
      obtain ⟨leaf, xs, found, held, nonempty, rest, split⟩ := leftmostLeaf_spec nextBalanced
      have indexed : index (left ++ tree :: next :: right) (left.length + 1) = .ok next := index_of_getElem? (by simp)
      rw [if_pos (by simp), indexed, ok_bind, found, ok_bind]
      exact .inr ⟨leaf, xs, rfl, held, nonempty, rest ++ toLists right ++ after, by simp [split]⟩

theorem prevLeaf_spec (trail : Trail root stack h tree before after) : (prevLeaf stack = .ok none ∧ before = []) ∨
    ∃ leaf xs, prevLeaf stack = .ok (some leaf) ∧ leaf.items = .ok xs ∧ xs ≠ [] ∧ ∃ rest, before = rest ++ xs := by
  induction trail with
  | root balanced => exact .inl ⟨rfl, rfl⟩
  | @child stack h s ss left right tree before after parent ih =>
    simp only [prevLeaf, childTrees, ok_bind]
    rcases List.eq_nil_or_concat' left with rfl | ⟨left, last, rfl⟩
    · rw [if_neg (by simp)]
      simpa using ih
    · have lastBalanced : Balanced h last := by
        cases parent.balanced with
        | internal nonempty fits below => exact below last (by simp)
      obtain ⟨leaf, xs, found, held, nonempty, rest, split⟩ := rightmostLeaf_spec lastBalanced
      have indexed : index (left ++ [last] ++ tree :: right) ((left ++ [last]).length - 1) =
          .ok last := index_of_getElem? (by simp)
      rw [if_pos (by simp), indexed, ok_bind, found, ok_bind]
      exact .inr ⟨leaf, xs, rfl, held, nonempty, before ++ toLists left ++ rest, by simp [split]⟩

/-! ## At a resting cursor -/

omit [Summary S] [Item T S] [Dimension S D] in
theorem assertDidSeek_eq (seeked : self.didSeek = true) : self.assertDidSeek = .ok ⟨⟩ := assert_of seeked

namespace Rests

theorem item_eq (rests : Rests root self before after) : self.item = .ok after.head? := by
  cases rests with
  | @item stack s ss left right item before after trail p =>
    rw [Cursor.item, assertDidSeek_eq rfl, ok_bind]
    simp only [index_append, ok_bind]
    rw [if_neg (by simp)]
    rfl
  | atEnd => rfl

theorem itemSummary_eq (rests : Rests root self before after) :
    self.itemSummary = .ok (after.head?.map Item.summary) := by
  cases rests with
  | @item stack s ss left right item before after trail p =>
    cases trail.balanced with
    | leaf nonempty fits =>
      have indexed : index ((left ++ item :: right).map Item.summary) left.length =
          .ok (Item.summary item) := index_of_getElem? (by simp)
      rw [Cursor.itemSummary, assertDidSeek_eq rfl, ok_bind]
      simp only [indexed, ok_bind]
      rw [if_neg (by simp)]
      rfl
  | atEnd => rfl

theorem endPosition_eq (rests : Rests root self before after) :
    self.endPosition = .ok (measure (before ++ after.take 1)) := by
  rw [endPosition, rests.itemSummary_eq, ok_bind]
  cases after with
  | nil => simp [start, rests.position_eq, pure, Except.pure]
  | cons item after =>
    simp [start, rests.position_eq, measure_concat, pure, Except.pure]

theorem nextItem_eq (rests : Rests root self before after) : self.nextItem = .ok after[1]? := by
  cases rests with
  | @item stack s ss left right item before after trail p =>
    rw [Cursor.nextItem, assertDidSeek_eq rfl, ok_bind]
    simp only [items_leaf, ok_bind, List.length_append, List.length_cons]
    rw [checkedSub_of_le (by omega), ok_bind]
    cases right with
    | nil =>
      rw [if_pos (by simp)]
      rcases nextLeaf_spec trail with ⟨none, empty⟩ | ⟨leaf, xs, found, held, some, rest, split⟩
      · rw [none, empty]
        rfl
      · obtain ⟨x, xs, rfl⟩ := List.exists_cons_of_ne_nil some
        rw [found, ok_bind, split]
        simp [held, ok_bind, unwrap, pure, Except.pure]
    | cons next right =>
      have indexed : index (left ++ item :: next :: right) (left.length + 1) = .ok next := index_of_getElem? (by simp)
      rw [if_neg (by simp), indexed, ok_bind]
      rfl
  | atEnd => rfl

theorem prevItem_eq (wellFormed : WellFormed root) (rests : Rests root self before after) :
    self.prevItem = .ok before.getLast? := by
  cases rests with
  | @item stack s ss left right item before after trail p =>
    rw [Cursor.prevItem, assertDidSeek_eq rfl, ok_bind]
    simp only [items_leaf, ok_bind]
    rcases List.eq_nil_or_concat' left with rfl | ⟨left, last, rfl⟩
    · rw [if_pos (by simp), List.append_nil]
      rcases prevLeaf_spec trail with ⟨none, empty⟩ | ⟨leaf, xs, found, held, some, rest, split⟩
      · rw [none, empty]
        rfl
      · obtain ⟨init, x, rfl⟩ := (List.eq_nil_or_concat' xs).resolve_left some
        rw [found, ok_bind, split]
        simp [held, ok_bind, unwrap, pure, Except.pure]
    · have indexed : index (left ++ [last] ++ item :: right) ((left ++ [last]).length - 1) =
          .ok last := index_of_getElem? (by simp)
      rw [if_neg (by simp), indexed, ok_bind, ← List.append_assoc, List.getLast?_concat]
      rfl
  | atEnd => exact last_spec wellFormed

theorem restsOnLeaf_eq (rests : Rests root self before after) : self.restsOnLeaf = true := by
  cases rests <;> rfl

end Rests

end Pinrail.Cursor

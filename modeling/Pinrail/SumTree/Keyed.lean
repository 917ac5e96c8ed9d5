import Mathlib.Algebra.Order.BigOperators.Group.List
import Pinrail.Lib.KeyedList
import Pinrail.SumTree.Build
import Pinrail.SumTree.Find
import Pinrail.SumTree.Integers
import Pinrail.SumTree.Iter

/-!
# Trees ordered by a key

`insert_or_replace`, `remove` and `edit` of `sum_tree.rs`. The key of an item is the dimension that
cursors are moved by, so a seek finds an item only as long as the keys ascend along the tree.
-/

namespace Pinrail
open Lib SumTree Cursor

class KeyedItem (T : Type) (K : outParam Type) where
  key : T → K

/-- The position of a cursor is the key of the last item behind it, and no key is below zero. -/
class LawfulKeyedItem (T S K : Type) [Item T S] [Dimension S K] [LinearOrder K] [KeyedItem T K] :
    Prop where
  addSummary_eq : ∀ (d : K) (item : T), Dimension.addSummary d (Item.summary item : S) = KeyedItem.key item
  zero_le : ∀ k : K, Dimension.zero S ≤ k

inductive Edit (T K : Type) where
  | insert (item : T)
  | remove (key : K)

namespace Edit
variable {T K : Type} [KeyedItem T K]

def key : Edit T K → K
  | .insert item => KeyedItem.key item
  | .remove key => key

def inserted : Edit T K → Option T
  | .insert item => some item
  | .remove _ => none

theorem key_of_inserted (edit : Edit T K) : ∀ item ∈ edit.inserted, KeyedItem.key item = edit.key := by
  cases edit with
  | insert item => simp [inserted, key]
  | remove key => simp [inserted]

end Edit

/-- What `sort_unstable_by_key` does: items with one key may end up in any order. -/
structure SortsByKey {T K : Type} [LinearOrder K] [KeyedItem T K]
    (sort : List (Edit T K) → List (Edit T K)) : Prop where
  perm : ∀ edits, (sort edits).Perm edits
  ordered : ∀ edits, (sort edits).Pairwise fun e f => e.key ≤ f.key

variable {T S K : Type} [Summary S] [Item T S] [Dimension S K] [KeyedItem T K]

namespace SumTree

section

/- The order of keys need not tell apart what their equality does. -/
variable [Ord K] [DecidableEq K]

/-- Takes the item under the cursor when it has the key `k`, and moves past it. -/
def takeKey (cursor : Cursor T S K) (k : K) : Option T → Except Panic (Option T × Cursor T S K)
  | some item => if KeyedItem.key item = k then do return (some item, ← cursor.next)
      else .ok (none, cursor)
  | none => .ok (none, cursor)

def insertOrReplace (self : SumTree T S) (item : T) : Except Panic (Option T × SumTree T S) := do
  let (newTree, cursor) ← (Cursor.new self : Cursor T S K).slice (.ofOrd (KeyedItem.key item)) .left
  let (replaced, cursor) ← takeKey cursor (KeyedItem.key item) (← cursor.item)
  let newTree ← newTree.pushItem item
  let (rest, _) ← cursor.suffix
  return (replaced, ← newTree.append rest)

def remove (self : SumTree T S) (key : K) : Except Panic (Option T × SumTree T S) := do
  let (newTree, cursor) ← (Cursor.new self : Cursor T S K).slice (.ofOrd key) .left
  let (removed, cursor) ← takeKey cursor key (← cursor.item)
  let (rest, _) ← cursor.suffix
  return (removed, ← newTree.append rest)

end

variable [LinearOrder K]

structure EditState (T S K : Type) where
  cursor : Cursor T S K
  newTree : SumTree T S
  bufferedItems : List T
  removed : List T

/-- Moves the items below the key of the next edit into the new tree, and returns the item that the
cursor is then at. -/
def copyBelow (state : EditState T S K) (newKey : K) :
    Except Panic (Option T × EditState T S K) := do
  let oldItem ← state.cursor.item
  if oldItem.any fun oldItem => KeyedItem.key oldItem < newKey then
    let newTree ← state.newTree.extend state.bufferedItems
    let (slice, cursor) ← state.cursor.slice (.ofOrd newKey) .left
    let newTree ← newTree.append slice
    return (← cursor.item, ⟨cursor, newTree, [], state.removed⟩)
  else
    return (oldItem, state)

/-- One round of `for edit in edits`. -/
def editStep (state : EditState T S K) (edit : Edit T K) : Except Panic (EditState T S K) := do
  let (oldItem, state) ← copyBelow state edit.key
  let (taken, cursor) ← takeKey state.cursor edit.key oldItem
  return ⟨cursor, state.newTree, state.bufferedItems ++ edit.inserted.toList, state.removed ++ taken.toList⟩

def edit (sort : List (Edit T K) → List (Edit T K)) (self : SumTree T S) (edits : List (Edit T K)) :
    Except Panic (List T × SumTree T S) := do
  if edits.isEmpty then
    return ([], self)
  else
    let (_, cursor) ← (Cursor.new self : Cursor T S K).seek (.ofOrd (Dimension.zero S)) .left
    let state ← (sort edits).foldlM editStep ⟨cursor, .new, [], []⟩
    let newTree ← state.newTree.extend state.bufferedItems
    let (rest, _) ← state.cursor.suffix
    return (state.removed, ← newTree.append rest)

/-- `SumTree::get`. -/
def get (self : SumTree T S) (key : K) : Option T := (self.findExact (.ofOrd key) .left).2.2

end SumTree

/-! ## Keys as positions -/

variable [LinearOrder K]

namespace Cursor

variable [LawfulKeyedItem T S K]

abbrev keyOf : T → K := KeyedItem.key

omit [Summary S] in
theorem measure_key (items : List T) (item : T) : (measure (items ++ [item]) : K) = keyOf item := by
  rw [← measure_concat]
  exact LawfulKeyedItem.addSummary_eq _ _

omit [Summary S] [Item T S] [Dimension S K] [KeyedItem T K] [LawfulKeyedItem T S K] in
theorem passes_ofOrd (k d : K) (bias : Bias) : (SeekTarget.ofOrd k).passes bias d =
      match bias with
      | .left => decide (d < k)
      | .right => decide (d ≤ k) := by
  rw [SeekTarget.passes, SeekTarget.ofOrd]
  rcases lt_trichotomy k d with less | rfl | greater
  · cases bias <;> simp [compare_lt_iff_lt.mpr less, less.le, less]
  · cases bias <;> simp
  · cases bias <;> simp [compare_gt_iff_gt.mpr greater, greater, greater.le]

omit [Summary S] in
theorem measure_append_le {before items : List T} {k : K} (le : measure before ≤ k)
    (low : ∀ item ∈ items, keyOf item ≤ k) : measure (before ++ items) ≤ k := by
  rcases List.eq_nil_or_concat' items with rfl | ⟨init, last, rfl⟩
  · rwa [List.append_nil]
  · rw [← List.append_assoc, measure_key]
    exact low last (by simp)

omit [Summary S] in
theorem measure_le {items : List T} {k : K} (low : ∀ item ∈ items, keyOf item ≤ k) : measure items ≤ k := by
  have nothing : measure ([] : List T) ≤ k := LawfulKeyedItem.zero_le T k
  exact measure_append_le nothing low

omit [Summary S] in
theorem monotone_key {items : List T} (ascending : Ascending keyOf items) (k : K) (bias : Bias) :
    Monotone (SeekTarget.ofOrd k) bias items := by
  intro before between within pass
  have le : (measure before : K) ≤ measure (before ++ between) := by
    rcases List.eq_nil_or_concat' between with rfl | ⟨init, last, rfl⟩
    · rw [List.append_nil]
    · rw [← List.append_assoc, measure_key]
      refine measure_le fun item mem => ?_
      have ordered := ascending.sublist within.sublist
      rw [← List.append_assoc] at ordered
      exact ((List.pairwise_append.mp ordered).2.2 item (by simp [mem]) last (by simp)).le
  rw [passes_ofOrd] at pass ⊢
  cases bias with
  | left => simpa using le.trans_lt (by simpa using pass)
  | right => simpa using le.trans (by simpa using pass)

omit [Summary S] [LinearOrder K] in
theorem passed_eq_takeWhile [LinearOrder K] [LawfulKeyedItem T S K] (k : K) (bias : Bias) (d : K) (items : List T) :
    passed (SeekTarget.ofOrd k) bias d items =
      items.takeWhile fun item => (SeekTarget.ofOrd k).passes bias (keyOf item) := by
  induction items generalizing d with
  | nil => rfl
  | cons item items ih =>
    rw [passed, LawfulKeyedItem.addSummary_eq, ih, List.takeWhile_cons]

omit [Summary S] in
theorem passed_left {items : List T} (ascending : Ascending keyOf items) (k d : K) :
    passed (SeekTarget.ofOrd k) .left d items = below keyOf k items := by
  rw [passed_eq_takeWhile, ← ascending.takeWhile_lt]
  congr
  funext item
  rw [passes_ofOrd]

omit [Summary S] [Item T S] [Dimension S K] [LawfulKeyedItem T S K] in
theorem drop_below {items : List T} (ascending : Ascending keyOf items) (k : K) :
    items.drop (below keyOf k items).length = (entryAt keyOf k items).toList ++ above keyOf k items := by
  nth_rewrite 2 [ascending.cut k]
  rw [List.drop_left]

omit [Summary S] [Item T S] [Dimension S K] [KeyedItem T K] [LawfulKeyedItem T S K] in
theorem isGE_ofOrd {k d : K} (le : d ≤ k) : ((SeekTarget.ofOrd k).cmp d).isGE = true := by
  change (compare k d).isGE = true
  rcases le.lt_or_eq with less | rfl
  · rw [compare_gt_iff_gt.mpr less]
    rfl
  · simp

/-! ## Moving by key -/

variable [LawfulSummary S] [LawfulDimension S K] {root : SumTree T S} {self : Cursor T S K}
  {before after : List T}

theorem slice_new_key (wellFormed : WellFormed root) (shallow : Shallow root) (ascending : Ascending keyOf root.toList)
    (k : K) : ∃ slice moved, (new root : Cursor T S K).slice (.ofOrd k) .left = .ok (slice, moved) ∧ WellFormed slice ∧
    slice.height ≤ 19 ∧ slice.toList = below keyOf k root.toList ∧ Rests root moved (below keyOf k root.toList)
    ((entryAt keyOf k root.toList).toList ++ above keyOf k root.toList) := by
  have sliced := slice_new wellFormed shallow (monotone_key ascending k .left)
    (isGE_ofOrd (LawfulKeyedItem.zero_le T k))
  rwa [passed_left ascending, drop_below ascending] at sliced

theorem Rests.slice_key (shallow : Shallow root) (ascending : Ascending keyOf root.toList) {k : K}
    (ahead : measure before ≤ k) (rests : Rests root self before after) : ∃ slice moved,
    self.slice (.ofOrd k) .left = .ok (slice, moved) ∧ WellFormed slice ∧ slice.height ≤ 19 ∧
    slice.toList = below keyOf k after ∧ Rests root moved (before ++ below keyOf k after)
    ((entryAt keyOf k after).toList ++ above keyOf k after) := by
  have ordered : Ascending keyOf after := by
    rw [rests.held] at ascending
    exact (List.pairwise_append.mp ascending).2.1
  have sliced := rests.slice shallow (monotone_key ascending k .left) (isGE_ofOrd ahead)
  rwa [passed_left ordered, drop_below ordered] at sliced

omit [LawfulKeyedItem T S K] in
theorem takeKey_spec (shallow : Shallow root) {k : K} {entry : Option T} {rest : List T}
    (placed : ∀ item ∈ entry, keyOf item = k) (high : ∀ item ∈ rest, k < keyOf item)
    (rests : Rests root self before (entry.toList ++ rest)) : ∃ moved,
    takeKey self k (entry.toList ++ rest).head? = .ok (entry, moved) ∧
    Rests root moved (before ++ entry.toList) rest := by
  cases entry with
  | some item =>
    obtain ⟨moved, stepped, rests'⟩ := rests.next shallow
    refine ⟨moved, ?_, rests'⟩
    simp only [Option.toList_some, List.singleton_append, List.head?_cons, takeKey]
    rw [if_pos (placed item rfl), stepped]
    rfl
  | none =>
    refine ⟨self, ?_, by simpa using rests⟩
    cases rest with
    | nil => rfl
    | cons item rest =>
      simp only [Option.toList_none, List.nil_append, List.head?_cons, takeKey]
      rw [if_neg (high item (by simp)).ne']

end Cursor

/-! ## Single items -/

namespace SumTree

variable [LawfulSummary S]

omit [Dimension S K] [LinearOrder K] [KeyedItem T K] in
theorem append_below {a b : SumTree T S} (aWellFormed : WellFormed a) (bWellFormed : WellFormed b)
    (aLow : a.height < 255) (bLow : b.height < 255) : ∃ tree, a.append b = .ok tree ∧ WellFormed tree ∧
    tree.toList = a.toList ++ b.toList ∧ tree.height ≤ max a.height b.height + 1 := by
  rcases append_wellFormed aWellFormed bWellFormed with appended | ⟨-, overflow⟩
  · exact appended
  · omega

omit [Dimension S K] [LinearOrder K] [KeyedItem T K] in
theorem pushItem_below {tree : SumTree T S} (wellFormed : WellFormed tree) (low : tree.height < 255) (item : T) :
    ∃ pushed, tree.pushItem item = .ok pushed ∧ WellFormed pushed ∧ pushed.toList = tree.toList ++ [item] ∧
    pushed.height ≤ tree.height + 1 := by
  have single := append_below wellFormed (.inr ⟨0, balanced_single item⟩) low (by rw [height]; decide)
  rwa [height, Nat.max_zero] at single

variable [LawfulDimension S K] [LawfulKeyedItem T S K] {tree : SumTree T S}
  (wellFormed : WellFormed tree) (shallow : Shallow tree)
  (ascending : Ascending keyOf tree.toList)
include wellFormed shallow ascending

theorem insertOrReplace_spec (item : T) : ∃ tree',
    insertOrReplace tree item = .ok (entryAt keyOf (keyOf item) tree.toList, tree') ∧ WellFormed tree' ∧
    tree'.toList = replaceAt keyOf (keyOf item) (some item) tree.toList := by
  obtain ⟨slice, moved, sliced, sliceWellFormed, sliceLow, held, rests⟩ :=
    slice_new_key wellFormed shallow ascending (keyOf item)
  obtain ⟨taken, took, rests'⟩ := takeKey_spec shallow (fun _ => entryAt_eq_some) (fun _ => lt_of_mem_above) rests
  obtain ⟨pushed, pushedEq, pushedWellFormed, pushedItems, pushedLow⟩ := pushItem_below sliceWellFormed (by omega) item
  obtain ⟨rest, last, suffixEq, restWellFormed, restLow, restItems⟩ := rests'.suffix shallow
  obtain ⟨tree', appended, wellFormed', items, -⟩ := append_below pushedWellFormed restWellFormed (by omega) (by omega)
  refine ⟨tree', ?_, wellFormed', ?_⟩
  · simp only [insertOrReplace, sliced, ok_bind, rests.item_eq, took, pushedEq, suffixEq, appended]
    rfl
  · rw [items, pushedItems, held, restItems, replaceAt]
    simp

end SumTree

/-! ## Many edits -/

namespace SumTree

/-- How many appends an edit is allowed here; a list of edits has fewer than `2 ^ 64` entries. -/
def appendBudget : Nat := 2 ^ 66

omit [Dimension S K] [LinearOrder K] [KeyedItem T K] in
theorem balanced_length_le {h : Nat} {tree : SumTree T S} (balanced : Balanced h tree) :
    tree.toList.length ≤ nodeCapacity ^ (h + 1) := by
  induction balanced with
  | leaf nonempty fits => simpa using fits
  | @internal h trees nonempty fits below ih =>
    have each : ∀ n ∈ trees.map fun tree => tree.toList.length, n ≤ nodeCapacity ^ (h + 1) := by
      intro n mem
      obtain ⟨tree, member, rfl⟩ := List.mem_map.mp mem
      exact ih tree member
    have total := List.sum_le_card_nsmul _ _ each
    rw [toList_internal, toLists_eq_flatten, List.length_flatten, List.map_map, Nat.pow_succ']
    rw [List.length_map] at total
    exact total.trans (Nat.mul_le_mul_right _ fits)

omit [Dimension S K] [LinearOrder K] [KeyedItem T K] in
theorem length_lt_of_shallow {tree : SumTree T S} (wellFormed : WellFormed tree)
    (shallow : Shallow tree) : tree.toList.length < 2 ^ 64 := by
  rcases wellFormed with rfl | ⟨h, balanced⟩
  · exact Nat.two_pow_pos 64
  · have most : nodeCapacity ^ (h + 1) ≤ nodeCapacity ^ 16 := by
      refine Nat.pow_le_pow_right (by decide) ?_
      rw [← balanced.height_eq]
      exact shallow
    exact ((balanced_length_le balanced).trans most).trans_lt (by decide)

variable [LawfulSummary S]

omit [Dimension S K] [LinearOrder K] [KeyedItem T K] in
theorem append_within {base n : Nat} {a b : SumTree T S} (low : Low base n a) (bWellFormed : WellFormed b)
    (bLow : b.height ≤ base) (few : n ≤ appendBudget) (room : base ≤ 200) : ∃ tree, a.append b = .ok tree ∧
    tree.toList = a.toList ++ b.toList ∧ Low base (n + 1) tree := by
  refine append_low (k := 24) low bWellFormed bLow ?_ (by omega)
  calc 6 * (n + 13) ≤ 6 * (2 ^ 66 + 13) := by
        rw [appendBudget] at few
        omega
    _ < 5 * 7 ^ 24 := by decide

omit [Dimension S K] [LinearOrder K] [KeyedItem T K] in
theorem fromIter_low (items : List T) (fits : items.length < 2 ^ 64) :
    ∃ tree : SumTree T S, fromIter items = .ok tree ∧ WellFormed tree ∧ tree.toList = items ∧ tree.height ≤ 18 := by
  have few : items.length < nodeCapacity ^ 255 := fits.trans (by decide)
  obtain ⟨tree, built, wellFormed, held, low⟩ := (fromIter_spec (S := S) items).returns few
  refine ⟨tree, built, wellFormed, held, ?_⟩
  by_contra high
  obtain ⟨k, tall⟩ : ∃ k, tree.height = k + 1 := ⟨tree.height - 1, by omega⟩
  have many : nodeCapacity ^ 18 ≤ nodeCapacity ^ k := Nat.pow_le_pow_right (by decide) (by omega)
  have most := low k tall
  have enough : 2 ^ 64 < nodeCapacity ^ 18 := by decide
  omega

omit [Dimension S K] [LinearOrder K] [KeyedItem T K] in
theorem extend_low {n : Nat} {tree : SumTree T S} (low : Low 19 n tree) (items : List T) (fits : items.length < 2 ^ 64)
    (few : n ≤ appendBudget) : ∃ extended, tree.extend items = .ok extended ∧ extended.toList = tree.toList ++ items ∧
    Low 19 (n + 1) extended := by
  obtain ⟨more, built, wellFormed, held, height⟩ := fromIter_low (S := S) items fits
  obtain ⟨extended, appended, both, low'⟩ := append_within low wellFormed (by omega) few (by decide)
  refine ⟨extended, ?_, by rw [both, held], low'⟩
  rw [extend, built, ok_bind, appended]

variable [LawfulDimension S K] [LawfulKeyedItem T S K] {tree : SumTree T S}
  (shallow : Shallow tree) (ascending : Ascending keyOf tree.toList)
  {state : EditState T S K} {before after : List T} {n : Nat}
  (rests : Rests tree state.cursor before after) (low : Low 19 n state.newTree)
  (buffered : state.bufferedItems.length < 2 ^ 64)
include shallow ascending rests low buffered

theorem copyBelow_spec {k : K} (ahead : measure before ≤ k) (few : n + 1 ≤ appendBudget) : ∃ state',
    copyBelow state k = .ok (((entryAt keyOf k after).toList ++ above keyOf k after).head?, state') ∧
    Rests tree state'.cursor (before ++ below keyOf k after) ((entryAt keyOf k after).toList ++ above keyOf k after) ∧
    Low 19 (n + 2) state'.newTree ∧
    state'.newTree.toList ++ state'.bufferedItems = state.newTree.toList ++ state.bufferedItems ++ below keyOf k after ∧
    state'.bufferedItems.length ≤ state.bufferedItems.length ∧ state'.removed = state.removed := by
  have ordered : Ascending keyOf after := by
    rw [rests.held] at ascending
    exact (List.pairwise_append.mp ascending).2.1
  cases lower : after.head?.any fun item => keyOf item < k with
  | true =>
    obtain ⟨extended, extendedEq, extendedItems, extendedLow⟩ := extend_low low state.bufferedItems buffered (by omega)
    obtain ⟨slice, moved, sliced, sliceWellFormed, sliceLow, held, rests'⟩ := rests.slice_key shallow ascending ahead
    obtain ⟨newTree, appended, items, newLow⟩ := append_within extendedLow sliceWellFormed sliceLow few (by decide)
    refine ⟨⟨moved, newTree, [], state.removed⟩, ?_, rests', newLow, ?_, by simp, rfl⟩
    · simp only [copyBelow, rests.item_eq, ok_bind, lower, if_true, extendedEq, sliced, appended, rests'.item_eq]
      rfl
    · rw [items, extendedItems, held]
      simp
  | false =>
    -- The scan stops at once, so nothing is below the key.
    have none : below keyOf k after = [] := by
      rw [← ordered.takeWhile_lt]
      cases after with
      | nil => rfl
      | cons item after =>
        rw [List.takeWhile_cons_of_neg]
        simpa using lower
    have all : after = (entryAt keyOf k after).toList ++ above keyOf k after := by
      have cut := ordered.cut k
      rwa [none, List.nil_append] at cut
    refine ⟨state, ?_, ?_, low.mono (by omega), by simp [none], Nat.le_refl _, rfl⟩
    · simp only [copyBelow, rests.item_eq, ok_bind, lower]
      rw [← all]
      rfl
    · rwa [none, List.append_nil, ← all]

theorem editStep_spec (edit : Edit T K) (ahead : measure before ≤ edit.key) (few : n + 1 ≤ appendBudget) :
    ∃ state' before', editStep state edit = .ok state' ∧ Rests tree state'.cursor before' (above keyOf edit.key after) ∧
      measure before' ≤ edit.key ∧ Low 19 (n + 2) state'.newTree ∧
      state'.newTree.toList ++ state'.bufferedItems = state.newTree.toList ++
        state.bufferedItems ++ (below keyOf edit.key after ++ edit.inserted.toList) ∧
      state'.bufferedItems.length ≤ state.bufferedItems.length + 1 ∧
      state'.removed = state.removed ++ (entryAt keyOf edit.key after).toList := by
  obtain ⟨copied, copiedEq, rests', low', items, count, removed⟩ :=
    copyBelow_spec shallow ascending rests low buffered ahead few
  obtain ⟨taken, took, rests''⟩ := takeKey_spec shallow (fun _ => entryAt_eq_some) (fun _ => lt_of_mem_above) rests'
  refine ⟨⟨taken, copied.newTree, copied.bufferedItems ++ edit.inserted.toList,
    copied.removed ++ (entryAt keyOf edit.key after).toList⟩, _, ?_, rests'', ?_, low', ?_, ?_,
    by rw [removed]⟩
  · simp only [editStep, copiedEq, ok_bind, took]
    rfl
  · rw [List.append_assoc]
    refine measure_append_le ahead fun item mem => ?_
    rcases List.mem_append.mp mem with mem | mem
    · exact (lt_of_mem_below mem).le
    · exact (entryAt_eq_some (by simpa using mem)).le
  · simp only
    rw [← List.append_assoc, items]
    simp
  · have one : edit.inserted.toList.length ≤ 1 := by
      cases edit <;> simp [Edit.inserted]
    rw [List.length_append]
    omega

theorem editLoop_spec (edits : List (Edit T K)) (ordered : edits.Pairwise fun e f => e.key ≤ f.key)
    (ahead : ∀ edit ∈ edits, measure before ≤ edit.key)
    (few : n + 2 * edits.length ≤ appendBudget)
    (fits : state.bufferedItems.length + edits.length < 2 ^ 64) :
    ∃ state' before' after', edits.foldlM editStep state = .ok state' ∧ Rests tree state'.cursor before' after' ∧
      Low 19 (n + 2 * edits.length) state'.newTree ∧ state'.bufferedItems.length < 2 ^ 64 ∧
      state'.newTree.toList ++ state'.bufferedItems ++ after' = state.newTree.toList ++
        state.bufferedItems ++ mergeEdits keyOf Edit.key Edit.inserted edits after ∧
      state'.removed = state.removed ++ takenEdits keyOf Edit.key edits after := by
  induction edits generalizing state before after n with
  | nil => exact ⟨state, before, after, rfl, rests, low, buffered, rfl, by simp [takenEdits]⟩
  | cons edit edits ih =>
    obtain ⟨first, rest⟩ := List.pairwise_cons.mp ordered
    rw [List.length_cons] at few fits
    obtain ⟨state', before', stepped, rests', behind, low', items, count, removed⟩ :=
      editStep_spec shallow ascending rests low buffered edit (ahead edit (by simp)) (by omega)
    obtain ⟨last, before'', after'', ran, rests'', low'', buffered'', items'', removed''⟩ :=
      ih rests' low' (by omega) rest (fun e mem => behind.trans (first e mem)) (by omega) (by omega)
    refine ⟨last, before'', after'', ?_, rests'', ?_, buffered'', ?_, ?_⟩
    · rw [List.foldlM_cons, stepped, ok_bind, ran]
    · rwa [List.length_cons, show n + 2 * (edits.length + 1) = n + 2 + 2 * edits.length by omega]
    · rw [items'', items, mergeEdits]
      simp
    · rw [removed'', removed, takenEdits, List.append_assoc]

omit rests low buffered in
theorem edit_spec {sort : List (Edit T K) → List (Edit T K)} (sorts : SortsByKey sort) (wellFormed : WellFormed tree)
    (edits : List (Edit T K)) (fits : edits.length < 2 ^ 64) : ∃ removed tree',
    edit sort tree edits = .ok (removed, tree') ∧ WellFormed tree' ∧
    tree'.toList = mergeEdits keyOf Edit.key Edit.inserted (sort edits) tree.toList ∧
    removed = takenEdits keyOf Edit.key (sort edits) tree.toList := by
  cases edits with
  | nil =>
    have empty : sort [] = [] := (sorts.perm []).eq_nil
    refine ⟨[], tree, rfl, wellFormed, ?_, ?_⟩
    · rw [empty]
      rfl
    · rw [empty]
      rfl
  | cons first rest =>
    have length := (sorts.perm (first :: rest)).length_eq
    have zero : ∀ k : K, Dimension.zero S ≤ k := LawfulKeyedItem.zero_le T
    obtain ⟨found, cursor, sought, rests⟩ := seek_new wellFormed shallow
      (monotone_key ascending (Dimension.zero S) .left) (isGE_ofOrd (zero _))
    have nothing : below keyOf (Dimension.zero S : K) tree.toList = [] := below_eq_nil fun item _ => zero _
    rw [passed_left ascending, nothing, List.length_nil, List.drop_zero] at rests
    have start : Rests tree (EditState.mk cursor .new [] [] : EditState T S K).cursor [] tree.toList := rests
    obtain ⟨state, before, after, ran, rests', low, buffered, items, removed⟩ :=
      editLoop_spec shallow ascending start Low.new (Nat.two_pow_pos 64)
        (sort (first :: rest)) (sorts.ordered _) (fun edit _ => zero _)
        (by rw [appendBudget, length]; omega) (by rw [length]; simpa using fits)
    obtain ⟨extended, extendedEq, extendedItems, extendedLow⟩ :=
      extend_low low state.bufferedItems buffered (by rw [appendBudget, length]; omega)
    obtain ⟨suffix, last, suffixEq, suffixWellFormed, suffixLow, suffixItems⟩ := rests'.suffix shallow
    obtain ⟨tree', appended, appendedItems, low'⟩ := append_within extendedLow suffixWellFormed
      suffixLow (by rw [appendBudget, length]; omega) (by decide)
    refine ⟨state.removed, tree', ?_, low'.wellFormed, ?_, removed⟩
    · simp only [edit, List.isEmpty_cons, sought, ok_bind, ran, extendedEq, suffixEq, appended]
      rfl
    · rw [appendedItems, extendedItems, suffixItems, items]
      rfl

omit rests low buffered in
/-- Edits of different keys, in any order: the items that are left and the inserted ones in ascending
order, and the replaced and removed ones. -/
theorem edit_merges {sort : List (Edit T K) → List (Edit T K)} (sorts : SortsByKey sort)
    (wellFormed : WellFormed tree) (edits : List (Edit T K))
    (distinct : (edits.map Edit.key).Nodup) (fits : edits.length < 2 ^ 64) :
    ∃ removed tree', edit sort tree edits = .ok (removed, tree') ∧ WellFormed tree' ∧ Ascending keyOf tree'.toList ∧
      (∀ item, item ∈ tree'.toList ↔ Edit.insert item ∈ edits ∨
        (item ∈ tree.toList ∧ ∀ edit ∈ edits, edit.key ≠ keyOf item)) ∧
      removed = tree.toList.filter fun item => keyOf item ∈ edits.map Edit.key := by
  obtain ⟨removed, tree', edited, wellFormed', items, taken⟩ := edit_spec shallow ascending sorts wellFormed edits fits
  have perm := sorts.perm edits
  have merged : mergeEdits keyOf Edit.key Edit.inserted (sort edits) tree.toList =
      applyEdits keyOf Edit.key Edit.inserted edits tree.toList :=
    mergeEdits_sorted Edit.key_of_inserted perm (sorts.ordered edits) distinct tree.toList
  refine ⟨removed, tree', edited, wellFormed', ?_, fun item => ?_, ?_⟩
  · rw [items, merged]
    exact ascending.applyEdits Edit.key_of_inserted edits
  · rw [items, merged, mem_applyEdits Edit.key_of_inserted distinct]
    refine or_congr_left ⟨?_, fun mem => ⟨_, mem, rfl⟩⟩
    rintro ⟨edit, mem, inserted⟩
    cases edit with
    | insert other =>
      cases inserted
      exact mem
    | remove k => cases inserted
  · rw [taken, ascending.takenEdits_eq (sorts.ordered edits)]
    refine List.filter_congr fun item _ => decide_eq_decide.mpr ?_
    exact (perm.map Edit.key).mem_iff

end SumTree

structure Label where
  value : Nat
deriving DecidableEq

instance : Summary Label where
  zero := ⟨0⟩
  addSummary _ summary := summary

instance : LawfulSummary Label where
  assoc _ _ _ := rfl
  zero_add _ := rfl

instance : Item Label Label where
  summary label := label

instance : Dimension Label Nat where
  zero := 0
  addSummary _ summary := summary.value

instance : LawfulDimension Label Nat where
  add_add _ _ _ := rfl

instance : KeyedItem Label Nat where
  key label := label.value

instance : LawfulKeyedItem Label Label Nat where
  addSummary_eq _ _ := rfl
  zero_le := Nat.zero_le

def sortLabels (edits : List (Edit Label Nat)) : List (Edit Label Nat) :=
  edits.mergeSort fun e f => e.key ≤ f.key

theorem sortsByKey_sortLabels : SortsByKey sortLabels where
  perm edits := edits.mergeSort_perm _
  ordered edits := by
    have sorted : (sortLabels edits).Pairwise fun e f => decide (e.key ≤ f.key) :=
      List.pairwise_mergeSort (fun a b c => by simpa using Nat.le_trans)
        (fun a b => by simpa using Nat.le_total _ _) edits
    simpa using sorted

namespace SumTree

def oneLabel : SumTree Label Label := tower ⟨5⟩ 0

theorem oneLabel_ascending : Ascending keyOf oneLabel.toList := List.pairwise_singleton _ _

def labelEdits : List (Edit Label Nat) := [.insert ⟨7⟩, .remove 5]

theorem edit_merges_labels : ∃ removed tree', edit sortLabels oneLabel labelEdits = .ok (removed, tree') ∧
      WellFormed tree' ∧ Ascending keyOf tree'.toList ∧
      (∀ item, item ∈ tree'.toList ↔ Edit.insert item ∈ labelEdits ∨
        (item ∈ oneLabel.toList ∧ ∀ edit ∈ labelEdits, edit.key ≠ keyOf item)) ∧
      removed = oneLabel.toList.filter fun item => keyOf item ∈ labelEdits.map Edit.key :=
  edit_merges (by decide) oneLabel_ascending sortsByKey_sortLabels
    (tower_wellFormed (⟨5⟩ : Label) 0) labelEdits (by decide) (by decide)

/-- A tree of height 16 needs a seventeenth stack entry. -/
theorem edit_tooTall : WellFormed (tower ⟨5⟩ 16 : SumTree Label Label) ∧
    Ascending keyOf (tower ⟨5⟩ 16 : SumTree Label Label).toList ∧ SortsByKey sortLabels ∧
    edit sortLabels (tower ⟨5⟩ 16 : SumTree Label Label) [.remove 5] = .error .capacity :=
  ⟨tower_wellFormed (⟨5⟩ : Label) 16, oneLabel_ascending, sortsByKey_sortLabels, rfl⟩

end SumTree

end Pinrail

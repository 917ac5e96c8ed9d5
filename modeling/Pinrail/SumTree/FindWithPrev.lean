import Pinrail.SumTree.Find
import Pinrail.SumTree.Integers
import Pinrail.SumTree.Slice

/-!
# Finding an item and the one in front of it

`find_with_prev` goes down like `find` and remembers the last item that it moved past. Both return
what a fresh cursor shows after a seek, as long as the cursor's stack can hold a path of the tree.
-/

namespace Pinrail
open Lib SumTree Cursor

variable {T S D : Type} [Summary S] [Item T S] [Dimension S D]

namespace SumTree

def findItemWithPrev (exact : Bool) (target : SeekTarget D) (bias : Bias) :
    List (T × S) → Option T → D → Option (Option T × T × D) × D
  | [], _, position => (none, position)
  | (item, itemSummary) :: rest, prev, position =>
    let childEnd := Dimension.addSummary position itemSummary
    let entryFound :=
      if exact then target.cmp childEnd == .eq else inChild target bias childEnd
    if entryFound then (some (prev, item, childEnd), position)
    else findItemWithPrev exact target bias rest (some item) childEnd

mutual

def findWithPrevIterate (exact : Bool) (target : SeekTarget D) (bias : Bias) :
    SumTree T S → Option T → D → Except Panic (Option (Option T × T × D) × D)
  | .internal _ _ childSummaries childTrees, prev, position =>
    findChildWithPrev exact target bias childTrees childSummaries prev position
  | .leaf _ items itemSummaries, prev, position =>
    .ok (findItemWithPrev exact target bias (items.zip itemSummaries) prev position)

def findChildWithPrev (exact : Bool) (target : SeekTarget D) (bias : Bias) :
    List (SumTree T S) → List S → Option T → D → Except Panic (Option (Option T × T × D) × D)
  | childTree :: childTrees, childSummary :: childSummaries, prev, position =>
    let childEnd := Dimension.addSummary position childSummary
    if inChild target bias childEnd then
      findWithPrevIterate exact target bias childTree prev position
    else do
      let prev ← childTree.last
      findChildWithPrev exact target bias childTrees childSummaries prev childEnd
  | _, _, _, position => .ok (none, position)

end

def findWithPrev (self : SumTree T S) (target : SeekTarget D) (bias : Bias) :
    Except Panic (D × D × Option (Option T × T)) :=
  let treeEnd := Dimension.addSummary (Dimension.zero S) self.summary
  if target.passes bias treeEnd then .ok (treeEnd, treeEnd, none)
  else do
    match ← findWithPrevIterate false target bias self none (Dimension.zero S) with
    | (some (prev, item, itemEnd), position) => return (position, itemEnd, some (prev, item))
    | (none, position) => return (position, position, none)

end SumTree

namespace Cursor

variable {target : SeekTarget D} {bias : Bias}

/-! ## What `find` returns -/

/-- What a cursor between `before` and `after` shows: its start, its end and its item. -/
def shown (before after : List T) : D × D × Option T :=
  (measure before, measure (before ++ after.take 1), after.head?)

/-- What `shown` is after a scan of `items` from their start. -/
def sought (target : SeekTarget D) (bias : Bias) (items : List T) : D × D × Option T :=
  shown (passed target bias (Dimension.zero S : D) items)
    (items.drop (passed target bias (Dimension.zero S : D) items).length)

omit [Summary S] in
theorem sought_all {items : List T} (all : passed target bias (Dimension.zero S : D) items = items) :
    sought target bias items = ((measure items : D), measure items, none) := by
  rw [sought, all, List.drop_length, shown, List.take_nil, List.append_nil]
  rfl

omit [Summary S] in
theorem sought_split {items left right : List T} {item : T} (split : items = left ++ item :: right)
    (scanned : passed target bias (Dimension.zero S : D) items = left) :
    sought target bias items = ((measure left : D), measure (left ++ [item]), some item) := by
  rw [sought, scanned, split, List.drop_left]
  rfl

variable [LawfulSummary S] [LawfulDimension S D]

theorem passed_whole {h : Nat} {tree : SumTree T S} (balanced : Balanced h tree)
    (mono : Monotone target bias tree.toList)
    (pass : target.passes bias (Dimension.addSummary (Dimension.zero S : D) tree.summary) = true) :
    passed target bias (Dimension.zero S : D) tree.toList = tree.toList ∧
    Dimension.addSummary (Dimension.zero S : D) tree.summary = measure tree.toList := by
  have treeEnd : Dimension.addSummary (Dimension.zero S : D) tree.summary =
      measure ([] ++ tree.toList) := measure_tree [] balanced
  rw [treeEnd] at pass
  have all := passed_append mono [] tree.toList [] List.prefix_rfl fun _ => pass
  rw [List.append_nil, passed, List.append_nil] at all
  exact ⟨all, treeEnd⟩

theorem not_passes_whole {h : Nat} {tree : SumTree T S} (balanced : Balanced h tree)
    (stays : ¬ target.passes bias (Dimension.addSummary (Dimension.zero S : D) tree.summary) = true) :
    target.passes bias (measure ([] ++ tree.toList) : D) = false := by
  rw [← measure_tree [] balanced]
  exact Bool.eq_false_of_not_eq_true stays

theorem find_shown {tree : SumTree T S} (wellFormed : WellFormed tree) (mono : Monotone target bias tree.toList)
    (zero : tree.isEmpty = true → Dimension.addSummary (Dimension.zero S : D) (Summary.zero : S) = Dimension.zero S) :
    tree.find target bias = sought target bias tree.toList := by
  rcases wellFormed with rfl | ⟨h, balanced⟩
  · have none : sought target bias ([] : List T) = ((Dimension.zero S : D), Dimension.zero S, none) := sought_all rfl
    have start : Dimension.addSummary (Dimension.zero S : D) (Summary.zero : S) = Dimension.zero S := zero rfl
    rw [toList_new, none, SumTree.find, findWith]
    change (if _ then (_, _, _) else _) = _
    simp only [SumTree.new, summary, start]
    split_ifs
    · rfl
    · rfl
  · rw [SumTree.find, findWith]
    split_ifs with pass
    · obtain ⟨all, treeEnd⟩ := passed_whole balanced mono pass
      rw [sought_all all, treeEnd]
    · obtain ⟨left, item, right, split, scanned, eq⟩ :=
        findIterate_spec mono balanced [] List.prefix_rfl (not_passes_whole balanced pass)
      have found := sought_split split scanned
      have start : (Dimension.zero S : D) = measure ([] : List T) := rfl
      rw [found, start, eq]
      rfl

/-! ## What `find_with_prev` returns -/

/-- What a search below a node finds when it knows the item in front of the node: the first item
that the scan does not pass, and the one in front of that. -/
def FindsWithPrev (target : SeekTarget D) (bias : Bias) (before items : List T)
    (found : Except Panic (Option (Option T × T × D) × D)) : Prop :=
  ∃ left item right, items = left ++ item :: right ∧ passed target bias (measure before : D) items = left ∧
    found = .ok (some ((before ++ left).getLast?, item, measure (before ++ left ++ [item])), measure (before ++ left))

omit [Summary S] [LawfulSummary S] [LawfulDimension S D] in
theorem findItemWithPrev_spec (before items : List T) (nonempty : items ≠ [])
    (inside : target.passes bias (measure (before ++ items)) = false) :
    FindsWithPrev target bias before items (.ok (findItemWithPrev false target bias
      (items.map fun item => (item, (Item.summary item : S))) before.getLast? (measure before))) := by
  induction items generalizing before with
  | nil => exact absurd rfl nonempty
  | cons item items ih =>
    simp only [List.map_cons, findItemWithPrev, inChild_eq, measure_concat]
    cases pass : target.passes bias (measure (before ++ [item])) with
    | false =>
      refine ⟨[], item, items, rfl, ?_, by simp⟩
      rw [passed, measure_concat, pass]
      rfl
    | true =>
      cases items with
      | nil =>
        rw [pass] at inside
        cases inside
      | cons next items =>
        obtain ⟨left, found, right, split, scanned, eq⟩ := ih (before ++ [item]) (by simp) (by simpa using inside)
        rw [List.getLast?_concat] at eq
        refine ⟨item :: left, found, right, by rw [split]; rfl, ?_, ?_⟩
        · rw [passed, measure_concat, pass, if_pos rfl, scanned]
        · simpa using eq

theorem findChildWithPrev_spec {items : List T} (mono : Monotone target bias items) {h : Nat}
    (trees : List (SumTree T S)) (balanced : ∀ tree ∈ trees, Balanced h tree)
    (below : ∀ tree ∈ trees, ∀ before : List T, before ++ tree.toList <+: items →
      target.passes bias (measure (before ++ tree.toList)) = false →
      FindsWithPrev target bias before tree.toList
        (findWithPrevIterate false target bias tree before.getLast? (measure before)))
    (before : List T) (nonempty : trees ≠ []) (within : before ++ toLists trees <+: items)
    (inside : target.passes bias (measure (before ++ toLists trees)) = false) :
    FindsWithPrev target bias before (toLists trees)
      (findChildWithPrev false target bias trees (trees.map summary) before.getLast? (measure before)) := by
  induction trees generalizing before with
  | nil => exact absurd rfl nonempty
  | cons tree trees ih =>
    have treeBalanced := balanced tree (by simp)
    rw [toLists_cons] at within inside ⊢
    have first : before ++ tree.toList <+: items := (List.prefix_append _ (toLists trees)).trans (by simpa using within)
    simp only [List.map_cons, findChildWithPrev, inChild_eq, measure_tree before treeBalanced]
    cases pass : target.passes bias (measure (before ++ tree.toList)) with
    | false =>
      obtain ⟨left, item, right, split, scanned, eq⟩ := below tree (by simp) before first pass
      refine ⟨left, item, right ++ toLists trees, by rw [split]; simp, ?_, by simpa using eq⟩
      rw [passed_append_of_not _ _ _ treeBalanced.toList_ne_nil, scanned]
      rw [← pass, measure, measure, List.foldl_append]
    | true =>
      cases trees with
      | nil =>
        rw [toLists_nil, List.append_nil, pass] at inside
        cases inside
      | cons next trees =>
        -- The last item of the child is now the one in front of the rest.
        have remembered : tree.last = .ok (before ++ tree.toList).getLast? := by
          rw [last_spec (.inr ⟨h, treeBalanced⟩), List.getLast?_append_of_ne_nil _ treeBalanced.toList_ne_nil]
        obtain ⟨left, item, right, split, scanned, eq⟩ :=
          ih (fun t mem => balanced t (by simp [mem])) (fun t mem => below t (by simp [mem]))
            (before ++ tree.toList) (by simp) (by simpa using within) (by simpa using inside)
        refine ⟨tree.toList ++ left, item, right, by rw [split]; simp, ?_, ?_⟩
        · rw [passed_append mono before tree.toList _ first fun _ => pass, scanned]
        · rw [Bool.not_true, if_neg (by simp), remembered, ok_bind, eq]
          simp

theorem findWithPrevIterate_spec {items : List T} (mono : Monotone target bias items) {h : Nat}
    {tree : SumTree T S} (balanced : Balanced h tree) (before : List T)
    (within : before ++ tree.toList <+: items)
    (inside : target.passes bias (measure (before ++ tree.toList)) = false) :
    FindsWithPrev target bias before tree.toList
      (findWithPrevIterate false target bias tree before.getLast? (measure before)) := by
  induction balanced generalizing before with
  | leaf nonempty fits =>
    rw [findWithPrevIterate, zip_map_self]
    exact findItemWithPrev_spec before _ nonempty inside
  | internal nonempty fits below ih =>
    rw [findWithPrevIterate]
    exact findChildWithPrev_spec mono _ below (fun tree mem => ih tree mem) before nonempty within inside

theorem findWithPrev_eq {tree : SumTree T S} (wellFormed : WellFormed tree) (mono : Monotone target bias tree.toList) :
    tree.findWithPrev target bias = .ok ((tree.find target bias).1, (tree.find target bias).2.1,
      (tree.find target bias).2.2.map fun item =>
        ((passed target bias (Dimension.zero S : D) tree.toList).getLast?, item)) := by
  rw [SumTree.find, findWith, findWithPrev]
  split_ifs with pass
  · rfl
  · rcases wellFormed with rfl | ⟨h, balanced⟩
    · rfl
    · have inside := not_passes_whole balanced pass
      obtain ⟨left, item, right, split, scanned, eq⟩ := findIterate_spec mono balanced [] List.prefix_rfl inside
      obtain ⟨left', item', right', split', scanned', eq'⟩ :=
        findWithPrevIterate_spec mono balanced [] List.prefix_rfl inside
      obtain rfl : left = left' := scanned.symm.trans scanned'
      obtain ⟨rfl, rfl⟩ : item = item' ∧ right = right' := by
        simpa using split.symm.trans split'
      have start : (Dimension.zero S : D) = measure ([] : List T) := rfl
      have nothing : (none : Option T) = ([] : List T).getLast? := rfl
      rw [start, nothing, eq, eq', scanned, ok_bind]
      rfl

/-! ## Agreement with a cursor -/

/-- `find` and `find_with_prev` return what a fresh cursor shows after a seek to the target. -/
theorem find_agrees_with_seek {tree : SumTree T S} (wellFormed : WellFormed tree)
    (shallow : Shallow tree) (mono : Monotone target bias tree.toList)
    (forward : (target.cmp (Dimension.zero S)).isGE = true)
    (zero : tree.isEmpty = true → Dimension.addSummary (Dimension.zero S : D) (Summary.zero : S) = Dimension.zero S) :
    ∃ found moved itemEnd item prev, (Cursor.new tree : Cursor T S D).seek target bias = .ok (found, moved) ∧
      moved.endPosition = .ok itemEnd ∧ moved.item = .ok item ∧ moved.prevItem = .ok prev ∧
      tree.find target bias = (moved.start, itemEnd, item) ∧
      tree.findWithPrev target bias = .ok (moved.start, itemEnd, item.map fun item => (prev, item)) := by
  obtain ⟨found, moved, sought', rests⟩ := seek_new wellFormed shallow mono forward
  have start : moved.start = measure (passed target bias (Dimension.zero S : D) tree.toList) := rests.position_eq
  have finds : tree.find target bias = sought target bias tree.toList := find_shown wellFormed mono zero
  refine ⟨found, moved, _, _, _, sought', rests.endPosition_eq, rests.item_eq, rests.prevItem_eq wellFormed, ?_, ?_⟩
  · rw [finds, start]
    rfl
  · rw [findWithPrev_eq wellFormed mono, finds, start]
    rfl

end Cursor

theorem find_agrees_with_seek_thirteen : ∃ found moved,
    (Cursor.new thirteen : Cursor Nat IntegersSummary Count).seek (.ofOrd ⟨9⟩) .right = .ok (found, moved) ∧
    moved.start = ⟨9⟩ ∧ moved.endPosition = .ok ⟨10⟩ ∧ moved.item = .ok (some 10) ∧ moved.prevItem = .ok (some 9) ∧
    thirteen.find (.ofOrd (⟨9⟩ : Count)) .right = (⟨9⟩, ⟨10⟩, some 10) ∧
    thirteen.findWithPrev (.ofOrd (⟨9⟩ : Count)) .right = .ok (⟨9⟩, ⟨10⟩, some (some 9, 10)) := by
  have found : thirteen.find (.ofOrd (⟨9⟩ : Count)) .right = (⟨9⟩, ⟨10⟩, some 10) := rfl
  have foundPrev : thirteen.findWithPrev (.ofOrd (⟨9⟩ : Count)) .right = .ok (⟨9⟩, ⟨10⟩, some (some 9, 10)) := rfl
  obtain ⟨_, moved, itemEnd, item, prev, sought, ended, shown, before, finds, findsPrev⟩ :=
    find_agrees_with_seek thirteen_wellFormed (by decide) (monotone_count ⟨9⟩ .right _) rfl
      (fun empty => by cases empty)
  obtain ⟨start, rfl, rfl⟩ : moved.start = ⟨9⟩ ∧ itemEnd = ⟨10⟩ ∧ item = some 10 := by
    simpa using finds.symm.trans found
  obtain rfl : prev = some 9 := by simpa [start] using findsPrev.symm.trans foundPrev
  exact ⟨_, moved, sought, start, ended, shown, before, found, foundPrev⟩

/-! ## Where they do not agree -/

structure Tally where
  value : Option Nat
deriving DecidableEq

instance : Dimension IntegersSummary Tally where
  zero := ⟨none⟩
  addSummary d s := ⟨some (d.value.getD 0 + s.sum)⟩

instance : LawfulDimension IntegersSummary Tally where
  add_add d a b := by
    simp [Dimension.addSummary, Summary.addSummary, Nat.add_assoc]

/-- A tree of height 16 needs a seventeenth stack entry, and in the empty tree `find` starts from
the summary of the tree. -/
theorem find_tooTall_or_empty : (WellFormed (tower 1 16) ∧ Monotone (.ofOrd (⟨0⟩ : Count)) .right (tower 1 16).toList ∧
      (tower 1 16).find (.ofOrd (⟨0⟩ : Count)) .right = (⟨0⟩, ⟨1⟩, some 1) ∧
      (Cursor.new (tower 1 16) : Cursor Nat IntegersSummary Count).seek (.ofOrd ⟨0⟩) .right = .error .capacity) ∧
    ((new : SumTree Nat IntegersSummary).find (.atEnd : SeekTarget Tally) .right).1 = ⟨some 0⟩ ∧
    ∃ moved, (Cursor.new .new : Cursor Nat IntegersSummary Tally).seek .atEnd .right =
      .ok (false, moved) ∧ moved.start = ⟨none⟩ :=
  ⟨⟨tower_wellFormed 1 16, monotone_count _ _ _, rfl, rfl⟩, rfl, _, rfl, rfl⟩

end Pinrail

import Pinrail.SumTree.Build
import Pinrail.SumTree.Hereditary
import Pinrail.SumTree.Integers

/-!
# Reachable trees

Every tree that the constructors, the updates and the slices of any cursor can produce is
well-formed. Nothing is asked of the dimension of a cursor or of its targets here: whatever the
positions are, a slice is made of subtrees of the tree and of items of one leaf at a time.
-/

namespace Pinrail
open Lib SumTree

variable {T S : Type} [Summary S] [Item T S]

namespace SumTree

theorem WellFormed.child {h : Nat} {s : S} {ss : List S} {trees : List (SumTree T S)}
    (wellFormed : WellFormed (.internal h s ss trees)) {tree : SumTree T S} (mem : tree ∈ trees) : WellFormed tree := by
  rcases wellFormed with empty | ⟨_, balanced⟩
  · cases empty
  · cases balanced with
    | internal nonempty fits below => exact .inr ⟨_, below tree mem⟩

theorem WellFormed.itemSummaries_eq {s : S} {xs : List T} {ss : List S}
    (wellFormed : WellFormed (.leaf s xs ss)) : ss = xs.map Item.summary := by
  rcases wellFormed with empty | ⟨_, balanced⟩
  · cases empty
    rfl
  · cases balanced with
    | leaf nonempty fits => rfl

end SumTree

namespace Cursor
variable {D : Type} [Dimension S D]

/-- The cursor looks at `root` and its stack holds well-formed trees only. -/
def Sound (root : SumTree T S) (self : Cursor T S D) : Prop :=
  self.tree = root ∧ ∀ entry ∈ self.stack, WellFormed entry.tree

variable {root : SumTree T S}

theorem hereditary_wellFormed : Hereditary (WellFormed : SumTree T S → Prop) :=
  ⟨fun wellFormed => wellFormed.child, fun wellFormed => wellFormed.itemSummaries_eq⟩

theorem searchForward_sound (filterNode : S → Bool) {self next : Cursor T S D} (wellFormed : WellFormed root)
    (sound : Sound root self) (searched : self.searchForward filterNode = .ok next) : Sound root next :=
  searchForward_within hereditary_wellFormed filterNode wellFormed sound searched

theorem searchBackward_sound (filterNode : S → Bool) {self next : Cursor T S D} (wellFormed : WellFormed root)
    (sound : Sound root self) (searched : self.searchBackward filterNode = .ok next) : Sound root next :=
  searchBackward_within hereditary_wellFormed filterNode wellFormed sound searched

/-! ## Seeks -/

variable {A : Type}

/-- An aggregate keeps `ok` when it is fed from well-formed trees. -/
structure Keeps (aggregate : SeekAggregate T S A) (ok : A → Prop) : Prop where
  beginLeaf : ∀ a, ok a → ok (aggregate.beginLeaf a)
  endLeaf : ∀ a a', ok a → aggregate.endLeaf a = .ok a' → ok a'
  pushItem : ∀ a a' item, ok a → aggregate.pushItem a item (Item.summary item) = .ok a' → ok a'
  pushTree : ∀ a a' tree summary, ok a → WellFormed tree → aggregate.pushTree a tree summary = .ok a' → ok a'

variable {aggregate : SeekAggregate T S A} {ok : A → Prop}

theorem seekInternal_sound (keeps : Keeps aggregate ok) (target : SeekTarget D) (bias : Bias) {self next : Cursor T S D}
    {found : Bool} {a a' : A} (wellFormed : WellFormed root) (sound : Sound root self) (held : ok a)
    (sought : self.seekInternal target bias aggregate a = .ok (found, next, a')) : Sound root next ∧ ok a' := by
  have keepsOn : KeepsOn WellFormed aggregate ok := ⟨keeps.beginLeaf, keeps.endLeaf, keeps.pushItem, keeps.pushTree⟩
  exact seekInternal_within hereditary_wellFormed keepsOn target bias wellFormed sound held sought

omit [Dimension S D] in
theorem keeps_ignore : Keeps (ignore : SeekAggregate T S PUnit) fun _ => True :=
  ⟨fun _ _ => trivial, fun _ _ _ _ => trivial, fun _ _ _ _ _ => trivial, fun _ _ _ _ _ _ _ => trivial⟩

theorem keeps_collectSummary {Output : Type} [Dimension S Output] :
    Keeps (collectSummary : SeekAggregate T S Output) fun _ => True :=
  ⟨fun _ _ => trivial, fun _ _ _ _ => trivial, fun _ _ _ _ _ => trivial, fun _ _ _ _ _ _ _ => trivial⟩

structure SliceSound (a : SliceSeekAggregate T S) : Prop where
  tree : WellFormed a.tree
  fits : a.leafItems.length ≤ nodeCapacity
  summaries : a.leafItemSummaries = a.leafItems.map Item.summary
  summary : a.leafSummary = Summary.sum (a.leafItems.map Item.summary)

theorem SliceSound.empty : SliceSound (.empty : SliceSeekAggregate T S) := ⟨.inl rfl, Nat.zero_le _, rfl, rfl⟩

theorem SliceSound.leaf {a : SliceSeekAggregate T S} (sound : SliceSound a) :
    WellFormed (.leaf a.leafSummary a.leafItems a.leafItemSummaries) := by
  rw [sound.summaries, sound.summary]
  rcases Decidable.em (a.leafItems = []) with empty | nonempty
  · rw [empty]
    exact .inl rfl
  · exact .inr ⟨0, .leaf nonempty sound.fits⟩

variable [LawfulSummary S]

theorem append_sound {a b tree : SumTree T S} (aWellFormed : WellFormed a)
    (bWellFormed : WellFormed b) (appended : a.append b = .ok tree) : WellFormed tree := by
  rcases append_wellFormed aWellFormed bWellFormed with ⟨tree', eq, wellFormed, -⟩ | ⟨eq, -⟩
  · rw [eq] at appended
    cases appended
    exact wellFormed
  · rw [eq] at appended
    cases appended

theorem keeps_collectSlice : Keeps (collectSlice : SeekAggregate T S _) SliceSound where
  beginLeaf _ sound := sound
  endLeaf a a' sound ended := by
    obtain ⟨tree, appended, ended⟩ := bind_eq_ok.mp ended
    cases ended
    exact ⟨append_sound sound.tree sound.leaf appended, Nat.zero_le _, rfl, rfl⟩
  pushItem a a' item sound pushed := by
    obtain ⟨items, itemsEq, pushed⟩ := bind_eq_ok.mp pushed
    obtain ⟨summaries, summariesEq, pushed⟩ := bind_eq_ok.mp pushed
    cases pushed
    unfold push at itemsEq summariesEq
    split_ifs at itemsEq summariesEq with fits
    cases itemsEq
    cases summariesEq
    refine ⟨sound.tree, by simpa using Nat.succ_le_of_lt fits, by simp [sound.summaries], ?_⟩
    simp [sound.summary, Summary.sum]
  pushTree a a' tree summary sound wellFormed pushed := by
    obtain ⟨appendedTree, appended, pushed⟩ := bind_eq_ok.mp pushed
    cases pushed
    exact ⟨append_sound sound.tree wellFormed appended, sound.fits, sound.summaries, sound.summary⟩

/-! ## Runs -/

/-- The cursors over `root` that a sequence of operations leads to. -/
inductive Reached (root : SumTree T S) : Cursor T S D → Prop where
  | new : Reached root (Cursor.new root)
  | reset {self : Cursor T S D} (reached : Reached root self) : Reached root self.reset
  | searchForward {self next : Cursor T S D} (reached : Reached root self)
      (filterNode : S → Bool) (moved : self.searchForward filterNode = .ok next) : Reached root next
  | searchBackward {self next : Cursor T S D} (reached : Reached root self)
      (filterNode : S → Bool) (moved : self.searchBackward filterNode = .ok next) :
      Reached root next
  | seek {self next : Cursor T S D} (reached : Reached root self) (target : SeekTarget D)
      (bias : Bias) {found : Bool} (moved : self.seek target bias = .ok (found, next)) :
      Reached root next
  | seekForward {self next : Cursor T S D} (reached : Reached root self) (target : SeekTarget D)
      (bias : Bias) {found : Bool} (moved : self.seekForward target bias = .ok (found, next)) :
      Reached root next
  | slice {self next : Cursor T S D} (reached : Reached root self) (target : SeekTarget D)
      (bias : Bias) {tree : SumTree T S} (moved : self.slice target bias = .ok (tree, next)) :
      Reached root next
  | summaryTo {self next : Cursor T S D} (reached : Reached root self) (target : SeekTarget D)
      (bias : Bias) {Output : Type} [Dimension S Output] {output : Output}
      (moved : self.summaryTo Output target bias = .ok (output, next)) : Reached root next

theorem slice_sound (target : SeekTarget D) (bias : Bias) {self next : Cursor T S D} {tree : SumTree T S}
    (wellFormed : WellFormed root) (sound : Sound root self) (sliced : self.slice target bias = .ok (tree, next)) :
    Sound root next ∧ WellFormed tree := by
  obtain ⟨⟨found, stopped, a⟩, sought, sliced⟩ := bind_eq_ok.mp sliced
  cases sliced
  have both := seekInternal_sound keeps_collectSlice target bias wellFormed sound .empty sought
  exact ⟨both.1, both.2.tree⟩

theorem Reached.sound (wellFormed : WellFormed root) {self : Cursor T S D}
    (reached : Reached root self) : Sound root self := by
  induction reached with
  | new => exact ⟨rfl, by simp [Cursor.new]⟩
  | reset reached ih => exact ⟨ih.1, by simp [Cursor.reset]⟩
  | searchForward reached filterNode moved ih => exact searchForward_sound _ wellFormed ih moved
  | searchBackward reached filterNode moved ih => exact searchBackward_sound _ wellFormed ih moved
  | seek reached target bias moved ih =>
    obtain ⟨⟨found, stopped, _⟩, sought, moved⟩ := bind_eq_ok.mp moved
    cases moved
    have fresh : Sound root (Cursor.reset _) := ⟨ih.1, by simp [Cursor.reset]⟩
    exact (seekInternal_sound keeps_ignore target bias wellFormed fresh trivial sought).1
  | seekForward reached target bias moved ih =>
    obtain ⟨⟨found, stopped, _⟩, sought, moved⟩ := bind_eq_ok.mp moved
    cases moved
    exact (seekInternal_sound keeps_ignore target bias wellFormed ih trivial sought).1
  | slice reached target bias moved ih => exact (slice_sound target bias wellFormed ih moved).1
  | summaryTo reached target bias moved ih =>
    obtain ⟨⟨found, stopped, _⟩, sought, moved⟩ := bind_eq_ok.mp moved
    cases moved
    exact (seekInternal_sound keeps_collectSummary target bias wellFormed ih trivial sought).1

end Cursor

namespace SumTree

/-- The trees that a sequence of operations builds. A slice is taken at any cursor over a tree
built before, in any dimension. -/
inductive Reachable : SumTree T S → Prop where
  | new : Reachable new
  | fromItem (item : T) {tree : SumTree T S} (built : fromItem item = .ok tree) : Reachable tree
  | fromIter (items : List T) {tree : SumTree T S} (built : fromIter items = .ok tree) : Reachable tree
  | fromParIter (items : List T) {tree : SumTree T S} (built : fromParIter items = .ok tree) : Reachable tree
  | push {self tree : SumTree T S} (reachable : Reachable self) (item : T)
      (built : self.pushItem item = .ok tree) : Reachable tree
  | append {self other tree : SumTree T S} (reachable : Reachable self)
      (otherReachable : Reachable other) (built : self.append other = .ok tree) : Reachable tree
  | extend {self tree : SumTree T S} (reachable : Reachable self) (items : List T)
      (built : self.extend items = .ok tree) : Reachable tree
  | updateFirst {self tree : SumTree T S} (reachable : Reachable self) (f : T → T)
      (built : self.updateFirst f = .ok tree) : Reachable tree
  | updateLast {self tree : SumTree T S} (reachable : Reachable self) (f : T → T)
      (built : self.updateLast f = .ok tree) : Reachable tree
  | slice {self tree : SumTree T S} (reachable : Reachable self) {D : Type} [Dimension S D]
      {cursor next : Cursor T S D} (reached : cursor.Reached self) (target : SeekTarget D)
      (bias : Bias) (built : cursor.slice target bias = .ok (tree, next)) : Reachable tree
  | suffix {self tree : SumTree T S} (reachable : Reachable self) {D : Type} [Dimension S D]
      {cursor next : Cursor T S D} (reached : cursor.Reached self)
      (built : cursor.suffix = .ok (tree, next)) : Reachable tree

variable [LawfulSummary S]

theorem pushItem_sound {self tree : SumTree T S} {item : T} (wellFormed : WellFormed self)
    (pushed : self.pushItem item = .ok tree) : WellFormed tree :=
  Cursor.append_sound wellFormed (.inr ⟨0, balanced_single item⟩) pushed

theorem Reachable.wellFormed {tree : SumTree T S} (reachable : Reachable tree) : WellFormed tree := by
  induction reachable with
  | new => exact .inl rfl
  | fromItem item built => exact pushItem_sound (.inl rfl) built
  | fromIter items built =>
    have spec := fromIter_spec (S := S) items
    rw [built] at spec
    exact spec.1
  | fromParIter items built =>
    have spec := fromParIter_spec (S := S) items
    rw [built] at spec
    exact spec.1
  | push reachable item built ih => exact pushItem_sound ih built
  | append reachable otherReachable built ih otherIh => exact Cursor.append_sound ih otherIh built
  | extend reachable items built ih =>
    obtain ⟨more, moreBuilt, built⟩ := bind_eq_ok.mp built
    have spec := fromIter_spec (S := S) items
    rw [moreBuilt] at spec
    exact Cursor.append_sound ih spec.1 built
  | updateFirst reachable f built ih =>
    obtain ⟨tree', updated, wellFormed⟩ := updateFirst_wellFormed f ih
    rw [updated] at built
    cases built
    exact wellFormed
  | updateLast reachable f built ih =>
    obtain ⟨tree', updated, wellFormed⟩ := updateLast_wellFormed f ih
    rw [updated] at built
    cases built
    exact wellFormed
  | slice reachable reached target bias built ih =>
    exact (Cursor.slice_sound target bias ih (reached.sound ih) built).2
  | suffix reachable reached built ih =>
    exact (Cursor.slice_sound .atEnd .right ih (reached.sound ih) built).2

/-- Every reachable tree is well-formed, and appending two of them concatenates their items. The one
panic that is left is the height leaving its byte. -/
theorem reachable_append_exact {a b : SumTree T S} (left : Reachable a) (right : Reachable b) :
    WellFormed a ∧ WellFormed b ∧
    ((∃ tree, a.append b = .ok tree ∧ Reachable tree ∧ WellFormed tree ∧ tree.toList = a.toList ++ b.toList) ∨
      (a.append b = .error .addOverflow ∧ 255 ≤ max a.height b.height)) := by
  refine ⟨left.wellFormed, right.wellFormed, ?_⟩
  refine (append_wellFormed left.wellFormed right.wellFormed).imp_left ?_
  rintro ⟨tree, appended, wellFormed, items, -⟩
  exact ⟨tree, appended, .append left right appended, wellFormed, items⟩

/-- What `from_iter` makes of thirteen items. -/
def bulkLoaded : SumTree Nat IntegersSummary :=
  ofLeaves [[1, 2, 3, 4, 5, 6, 7, 8, 9, 10, 11, 12], [13]]

theorem reachable_append_exact_bulkLoaded : ∃ tree, bulkLoaded.append bulkLoaded = .ok tree ∧ Reachable tree ∧
    WellFormed tree ∧ tree.toList = List.range' 1 13 ++ List.range' 1 13 := by
  have built : fromIter [1, 2, 3, 4, 5, 6, 7, 8, 9, 10, 11, 12, 13] = .ok bulkLoaded := rfl
  have reachable : Reachable bulkLoaded := .fromIter _ built
  obtain ⟨-, -, appended | ⟨-, tall⟩⟩ := reachable_append_exact reachable reachable
  · exact appended
  · exact absurd tall (by decide)

end SumTree
end Pinrail

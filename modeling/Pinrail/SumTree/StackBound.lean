import Pinrail.SumTree.Iter
import Pinrail.SumTree.Occupancy

/-!
# How deep the stack of a cursor gets

Every entry of a stack lies one level below the entry under it, whatever the dimension of the cursor
and its targets are. On a tree of at most 15 levels no push finds the stack full.
-/

namespace Pinrail
open Lib SumTree

variable {T S : Type} [Summary S] [Item T S]

/-! ## Operations that are no pushes -/

def Roomy (e : Panic) : Prop := e ≠ .capacity

theorem index_roomy {α : Type} (xs : List α) (i : Nat) : EndSpec (· ∈ xs) Roomy (index xs i) := by
  cases found : index xs i with
  | error e =>
    unfold index at found
    split at found
    · cases found
    · cases found
      exact (nofun : Panic.indexOutOfBounds ≠ .capacity)
  | ok a => exact mem_of_index found

theorem sliceFrom_roomy {α : Type} (xs : List α) (i : Nat) : EndSpec (· = xs.drop i) Roomy (sliceFrom xs i) := by
  unfold sliceFrom
  split_ifs
  · exact rfl
  · exact (nofun : Panic.indexOutOfBounds ≠ .capacity)

theorem sliceTo_roomy {α : Type} (xs : List α) (i : Nat) : EndSpec (fun _ => True) Roomy (sliceTo xs i) := by
  unfold sliceTo
  split_ifs
  · trivial
  · exact (nofun : Panic.indexOutOfBounds ≠ .capacity)

theorem checkedSub_roomy (m n : Nat) : EndSpec (fun _ => True) Roomy (checkedSub m n) := by
  unfold checkedSub
  split_ifs
  · trivial
  · exact (nofun : Panic.subOverflow ≠ .capacity)

theorem assert_roomy (p : Prop) [Decidable p] : EndSpec (fun _ => True) Roomy (assert p) := by
  unfold assert
  split_ifs
  · trivial
  · exact (nofun : Panic.assertion ≠ .capacity)

namespace Cursor
variable {D : Type} {root : SumTree T S}

/-! ## Stacks -/

def Leads (root : SumTree T S) : List (StackEntry T S D) → Prop
  | [] => True
  | entry :: rest => WellFormed entry.tree ∧ rest.length + entry.tree.height ≤ root.height ∧ Leads root rest

theorem Leads.length_le {stack : List (StackEntry T S D)} (leads : Leads root stack) :
    stack.length ≤ root.height + 1 := by
  cases stack with
  | nil => exact Nat.zero_le _
  | cons entry rest =>
    have bound := leads.2.1
    rw [List.length_cons]
    omega

theorem insertFront_root (wellFormed : WellFormed root) (i : Nat) (p : D) :
    EndSpec (Leads root) Roomy (insertFront stackCapacity ⟨root, i, p⟩ []) := by
  have room : ([] : List (StackEntry T S D)).length < stackCapacity := Nat.zero_lt_succ 15
  rw [insertFront_of_lt room]
  exact ⟨wellFormed, by simp, trivial⟩

theorem insertFront_child (shallow : Shallow root) {h : Nat} {s : S} {ss : List S} {trees : List (SumTree T S)}
    {tree : SumTree T S} {i i' j : Nat} {p p' q : D} {rest : List (StackEntry T S D)}
    (leads : Leads root (⟨.internal h s ss trees, i, p⟩ :: rest)) (member : tree ∈ trees) :
    EndSpec (Leads root) Roomy (insertFront stackCapacity ⟨tree, j, q⟩ (⟨.internal h s ss trees, i', p'⟩ :: rest)) := by
  obtain ⟨wellFormed, bound, below⟩ := leads
  have level : tree.height + 1 = h := by
    rcases wellFormed with empty | ⟨_, balanced⟩
    · cases empty
    · cases balanced with
      | internal nonempty fits each => rw [(each tree member).height_eq]
  rw [Shallow] at shallow
  rw [height_internal] at bound
  have room : (⟨.internal h s ss trees, i', p'⟩ :: rest).length < stackCapacity := by
    rw [List.length_cons]
    omega
  rw [insertFront_of_lt room]
  refine ⟨wellFormed.child member, ?_, wellFormed, bound, below⟩
  simp only [List.length_cons]
  omega

variable [Dimension S D]

/-- The cursor looks at `root`, its stack leads down from it, and a cursor that has not moved or is at
the end has none. -/
structure Tracks (root : SumTree T S) (cursor : Cursor T S D) : Prop where
  tree : cursor.tree = root
  leads : Leads root cursor.stack
  flags : cursor.stack ≠ [] → cursor.didSeek = true ∧ cursor.atEnd = false

/-- The same inside of a loop, where `at_end` is not yet up to date. -/
def Tracking (root : SumTree T S) (cursor : Cursor T S D) : Prop :=
  cursor.tree = root ∧ cursor.didSeek = true ∧ Leads root cursor.stack

theorem Tracks.new (root : SumTree T S) : Tracks root (new root : Cursor T S D) :=
  ⟨rfl, trivial, fun some => absurd rfl some⟩

theorem Tracks.reset {self : Cursor T S D} (tracks : Tracks root self) : Tracks root self.reset :=
  ⟨tracks.tree, trivial, fun some => absurd rfl some⟩

/-! ## Searches -/

theorem searchForwardStep_tracks (shallow : Shallow root) (filterNode : S → Bool)
    {self : Cursor T S D} {descend : Bool} (tracks : Tracks root self) :
    EndSpec (Sum.elim (fun next => Tracks root next.1) (Tracks root)) Roomy
      (searchForwardStep filterNode (self, descend)) := by
  obtain ⟨tree, stack, position, didSeek, atEnd⟩ := self
  obtain ⟨rfl, leads, flags⟩ := tracks
  rcases stack with _ | ⟨⟨node, i, p⟩, rest⟩
  · exact ⟨rfl, trivial, fun some => absurd rfl some⟩
  · obtain ⟨rfl, rfl⟩ := flags (List.cons_ne_nil _ _)
    cases node with
    | internal h s ss trees =>
      simp only [searchForwardStep]
      split
      · rename_i subtree found
        exact (insertFront_child shallow leads (List.mem_of_getElem? found)).bind
          fun pushed leads => ⟨rfl, leads, fun _ => ⟨rfl, rfl⟩⟩
      · exact ⟨rfl, leads.2.2, fun _ => ⟨rfl, rfl⟩⟩
    | leaf s xs ss =>
      have left : EndSpec (fun _ => True) Roomy (leaveItem ss descend i p position) := by
        unfold leaveItem
        split_ifs
        · trivial
        · exact (index_roomy _ _).bind fun _ _ => trivial
      refine left.bind fun moved _ => ?_
      simp only
      split_ifs
      · exact ⟨rfl, leads, fun _ => ⟨rfl, rfl⟩⟩
      · exact ⟨rfl, leads.2.2, fun _ => ⟨rfl, rfl⟩⟩

theorem enterForward_tracks (wellFormed : WellFormed root) {self : Cursor T S D} (tracks : Tracks root self) :
    EndSpec (fun next => Tracks root next.1) Roomy self.enterForward := by
  obtain ⟨tree, stack, position, didSeek, atEnd⟩ := self
  obtain ⟨rfl, leads, flags⟩ := tracks
  unfold enterForward
  rcases stack with _ | ⟨entry, rest⟩
  · cases atEnd with
    | true => exact ⟨rfl, trivial, fun some => absurd rfl some⟩
    | false =>
      exact (insertFront_root wellFormed _ _).bind fun pushed leads => ⟨rfl, leads, fun _ => ⟨rfl, rfl⟩⟩
  · exact ⟨rfl, leads, flags⟩

theorem searchForward_tracks (wellFormed : WellFormed root) (shallow : Shallow root) (filterNode : S → Bool)
    {self : Cursor T S D} (tracks : Tracks root self) : EndSpec (Tracks root) Roomy (self.searchForward filterNode) :=
  (enterForward_tracks wellFormed tracks).bind fun start tracks =>
    loop_rule (fun s => Tracks root s.1) (Tracks root) Roomy
      (fun s tracks => .of_endSpec (searchForwardStep_tracks shallow filterNode tracks)
        (searchForwardStep_decreases filterNode s)) start tracks

theorem visitBackward_tracks (shallow : Shallow root) (filterNode : S → Bool) {tree : SumTree T S}
    {i : Nat} {p : D} {rest : List (StackEntry T S D)} (leads : Leads root (⟨tree, i, p⟩ :: rest)) :
    EndSpec (Sum.elim (fun next => Tracks root next.1) (Tracks root)) Roomy
      (visitBackward filterNode root tree i rest true false) := by
  have kept : ∀ position : D, Tracks root (⟨root, ⟨tree, i, position⟩ :: rest, position, true, false⟩ : Cursor T S D) :=
    fun position => ⟨rfl, leads, fun _ => ⟨rfl, rfl⟩⟩
  refine (sliceTo_roomy _ _).bind fun before _ => ?_
  refine (index_roomy _ _).bind fun summary _ => ?_
  cases tree with
  | internal h s ss trees =>
    simp only
    split_ifs
    · refine (index_roomy _ _).bind fun child member => ?_
      refine (checkedSub_roomy _ _).bind fun last _ => ?_
      exact (insertFront_child shallow leads member).bind fun pushed leads => ⟨rfl, leads, fun _ => ⟨rfl, rfl⟩⟩
    · exact kept _
  | leaf s xs ss =>
    simp only
    split_ifs
    · exact kept _
    · exact kept _

theorem searchBackwardStep_tracks (shallow : Shallow root) (filterNode : S → Bool)
    {self : Cursor T S D} {descending : Bool} (tracks : Tracks root self) :
    EndSpec (Sum.elim (fun next => Tracks root next.1) (Tracks root)) Roomy
      (searchBackwardStep filterNode (self, descending)) := by
  obtain ⟨tree, stack, position, didSeek, atEnd⟩ := self
  obtain ⟨rfl, leads, flags⟩ := tracks
  rcases stack with _ | ⟨⟨node, i, p⟩, rest⟩
  · exact ⟨rfl, trivial, fun some => absurd rfl some⟩
  · obtain ⟨rfl, rfl⟩ := flags (List.cons_ne_nil _ _)
    cases descending with
    | true => exact visitBackward_tracks shallow filterNode leads
    | false =>
      cases i with
      | zero => exact ⟨rfl, leads.2.2, fun _ => ⟨rfl, rfl⟩⟩
      | succ i => exact visitBackward_tracks (p := p) shallow filterNode leads

theorem enterBackward_tracks (wellFormed : WellFormed root) {self : Cursor T S D}
    (tracks : Tracks root self) : EndSpec (Tracks root) Roomy self.enterBackward := by
  obtain ⟨tree, stack, position, didSeek, atEnd⟩ := self
  obtain ⟨rfl, leads, flags⟩ := tracks
  unfold enterBackward
  rcases stack with _ | ⟨entry, rest⟩
  · simp only
    split_ifs
    · exact ⟨rfl, trivial, fun some => absurd rfl some⟩
    · exact (insertFront_root wellFormed _ _).bind fun pushed leads => ⟨rfl, leads, fun _ => ⟨rfl, rfl⟩⟩
    · exact ⟨rfl, trivial, fun some => absurd rfl some⟩
  · obtain ⟨rfl, rfl⟩ := flags (List.cons_ne_nil _ _)
    exact ⟨rfl, leads, flags⟩

theorem searchBackward_tracks (wellFormed : WellFormed root) (shallow : Shallow root) (filterNode : S → Bool)
    {self : Cursor T S D} (tracks : Tracks root self) : EndSpec (Tracks root) Roomy (self.searchBackward filterNode) :=
  (enterBackward_tracks wellFormed tracks).bind fun start tracks =>
    loop_rule (fun s => Tracks root s.1) (Tracks root) Roomy
      (fun s tracks => .of_endSpec (searchBackwardStep_tracks shallow filterNode tracks)
        (searchBackwardStep_decreases filterNode s)) (start, false) tracks

/-! ## Seeks -/

variable {A : Type}

/-- An aggregate that has room for `n` more items of a leaf never finds a vector full. -/
structure Feeds (aggregate : SeekAggregate T S A) (room : Nat → A → Prop) : Prop where
  beginLeaf : ∀ {n : Nat} {a : A}, room n a → room n (aggregate.beginLeaf a)
  endLeaf : ∀ {n : Nat} {a : A}, room n a →
    EndSpec (room nodeCapacity) Roomy (aggregate.endLeaf a)
  pushItem : ∀ {n : Nat} {a : A} (item : T), room (n + 1) a →
    EndSpec (room n) Roomy (aggregate.pushItem a item (Item.summary item))
  pushTree : ∀ {n : Nat} {a : A} (tree : SumTree T S) (summary : S), room n a → WellFormed tree →
    EndSpec (room n) Roomy (aggregate.pushTree a tree summary)

theorem feeds_ignore : Feeds (ignore : SeekAggregate T S PUnit) fun _ _ => True where
  beginLeaf _ := trivial
  endLeaf _ := trivial
  pushItem _ _ := trivial
  pushTree _ _ _ _ := trivial

theorem feeds_collectSummary {Output : Type} [Dimension S Output] :
    Feeds (collectSummary : SeekAggregate T S Output) fun _ _ => True where
  beginLeaf _ := trivial
  endLeaf _ := trivial
  pushItem _ _ := trivial
  pushTree _ _ _ _ := trivial

theorem append_roomy [LawfulSummary S] {a b : SumTree T S} (aWellFormed : WellFormed a)
    (bWellFormed : WellFormed b) : EndSpec WellFormed Roomy (a.append b) := by
  rcases append_wellFormed aWellFormed bWellFormed with ⟨tree, eq, wellFormed, -⟩ | ⟨eq, -⟩
  · rw [eq]
    exact wellFormed
  · rw [eq]
    exact (nofun : Panic.addOverflow ≠ .capacity)

theorem push_roomy {α : Type} {xs : List α} (room : xs.length < nodeCapacity) (x : α) :
    push nodeCapacity xs x = .ok (xs ++ [x]) := if_pos room

theorem feeds_collectSlice [LawfulSummary S] : Feeds (collectSlice : SeekAggregate T S _)
      fun n a => SliceSound a ∧ a.leafItems.length + n ≤ nodeCapacity where
  beginLeaf room := room
  endLeaf room := (append_roomy room.1.tree room.1.leaf).bind fun tree wellFormed =>
    ⟨⟨wellFormed, Nat.zero_le _, rfl, rfl⟩, by simp⟩
  pushItem {n a} item room := by
    obtain ⟨sound, fits⟩ := room
    have more : a.leafItems.length < nodeCapacity := by omega
    have moreSummaries : a.leafItemSummaries.length < nodeCapacity := by
      rw [sound.summaries, List.length_map]
      exact more
    have pushed : collectSlice.pushItem a item (Item.summary item) =
        .ok ⟨a.tree, a.leafItems ++ [item], a.leafItemSummaries ++ [Item.summary item],
          Summary.addSummary a.leafSummary (Item.summary item)⟩ := by
      simp only [collectSlice, push_roomy more, push_roomy moreSummaries, ok_bind]
      rfl
    rw [pushed]
    refine ⟨keeps_collectSlice.pushItem _ _ item sound pushed, ?_⟩
    rw [List.length_append, List.length_singleton]
    omega
  pushTree tree summary room wellFormed := (append_roomy room.1.tree wellFormed).bind fun tree wellFormed =>
      ⟨⟨wellFormed, room.1.fits, room.1.summaries, room.1.summary⟩, room.2⟩

variable {aggregate : SeekAggregate T S A} {room : Nat → A → Prop}

theorem seekChildren_roomy (feeds : Feeds aggregate room) (target : SeekTarget D) (bias : Bias)
    (children : List (SumTree T S × S)) (i : Nat) (p position : D) {n : Nat} {a : A} (held : room n a)
    (each : ∀ entry ∈ children, WellFormed entry.1) :
    EndSpec (fun result => (∀ tree ∈ result.1, tree ∈ children.map Prod.fst) ∧ room n result.2.2.2.2) Roomy
      (seekChildren target bias aggregate children i p position a) := by
  induction children generalizing i p position a with
  | nil => exact ⟨by simp, held⟩
  | cons entry children ih =>
    simp only [List.mem_cons, forall_eq_or_imp] at each
    simp only [seekChildren]
    split_ifs
    · refine (feeds.pushTree _ _ held each.1).bind fun a held => ?_
      exact (ih _ _ _ held each.2).mono fun result found =>
        ⟨fun tree mem => List.mem_cons_of_mem _ (found.1 tree mem), found.2⟩
    · exact ⟨by simp, held⟩

theorem seekItems_roomy (feeds : Feeds aggregate room) (target : SeekTarget D) (bias : Bias)
    (items : List (T × S)) (i : Nat) (position : D) {n : Nat} {a : A} (held : room n a)
    (fits : items.length ≤ n) (summarized : ∀ entry ∈ items, entry.2 = Item.summary entry.1) :
    EndSpec (fun result => ∃ m, room m result.2.2.2) Roomy (seekItems target bias aggregate items i position a) := by
  induction items generalizing i position n a with
  | nil => exact ⟨n, held⟩
  | cons entry items ih =>
    simp only [List.mem_cons, forall_eq_or_imp] at summarized
    simp only [seekItems]
    split_ifs
    · obtain ⟨m, rfl⟩ := Nat.exists_eq_add_of_le' (Nat.le_trans (Nat.succ_le_succ (Nat.zero_le _)) fits)
      rw [summarized.1]
      exact (feeds.pushItem _ held).bind fun a held =>
        ih _ _ held (Nat.le_of_succ_le_succ fits) summarized.2
    · exact ⟨n, held⟩

theorem seekStep_tracking (shallow : Shallow root) (feeds : Feeds aggregate room)
    (target : SeekTarget D) (bias : Bias) {self : Cursor T S D} {ascending : Bool} {a : A}
    (tracking : Tracking root self) (held : room nodeCapacity a) :
    EndSpec (Sum.elim (fun next => Tracking root next.1 ∧ room nodeCapacity next.2.2)
        (fun result => Tracking root result.1)) Roomy
      (seekStep target bias aggregate (self, ascending, a)) := by
  obtain ⟨tree, stack, position, didSeek, atEnd⟩ := self
  obtain ⟨rfl, rfl, leads⟩ := tracking
  rcases stack with _ | ⟨⟨node, i, p⟩, rest⟩
  · exact ⟨rfl, rfl, trivial⟩
  · obtain ⟨wellFormed, bound, below⟩ := leads
    cases node with
    | internal h s ss trees =>
      simp only [seekStep]
      refine (sliceFrom_roomy _ _).bind fun remaining sliced => ?_
      refine (sliceFrom_roomy _ _).bind fun summaries _ => ?_
      have within : ∀ entry ∈ remaining.zip summaries, entry.1 ∈ trees := fun entry mem =>
        List.mem_of_mem_drop (sliced ▸ (List.of_mem_zip mem).1)
      refine (seekChildren_roomy feeds target bias _ _ _ _ held
        fun entry mem => wellFormed.child (within entry mem)).bind fun found result => ?_
      obtain ⟨child, i', p', position', a'⟩ := found
      cases child with
      | none => exact ⟨⟨rfl, rfl, below⟩, result.2⟩
      | some child =>
        obtain ⟨entry, mem, same⟩ := List.mem_map.mp (result.1 child rfl)
        exact (insertFront_child (p := p) shallow ⟨wellFormed, bound, below⟩
          (same ▸ within entry mem)).bind fun pushed leads => ⟨⟨rfl, rfl, leads⟩, result.2⟩
    | leaf s xs ss =>
      obtain rfl := wellFormed.itemSummaries_eq
      simp only [seekStep]
      refine (sliceFrom_roomy _ _).bind fun remaining sliced => ?_
      refine (sliceFrom_roomy _ _).bind fun summaries slicedSummaries => ?_
      subst sliced slicedSummaries
      rw [← List.map_drop, zip_map_self]
      have fits : ((xs.drop i).map fun x => (x, Item.summary x)).length ≤ nodeCapacity := by
        rw [List.length_map, List.length_drop]
        rcases wellFormed with empty | ⟨_, balanced⟩
        · cases empty
          exact Nat.le_trans (Nat.sub_le _ _) (Nat.zero_le _)
        · exact Nat.le_trans (Nat.sub_le _ _) balanced.items_fit
      refine (seekItems_roomy feeds target bias _ _ _ (feeds.beginLeaf held) fits ?_).bind fun found result => ?_
      · intro entry mem
        obtain ⟨x, -, rfl⟩ := List.mem_map.mp mem
        rfl
      · obtain ⟨stopped, i', position', a'⟩ := found
        obtain ⟨n, held'⟩ := result
        refine (feeds.endLeaf held').bind fun a'' held'' => ?_
        cases stopped with
        | true => exact ⟨rfl, rfl, wellFormed, bound, below⟩
        | false => exact ⟨⟨rfl, rfl, below⟩, held''⟩

theorem enterSeek_tracking (wellFormed : WellFormed root) {self : Cursor T S D}
    (tracks : Tracks root self) : EndSpec (Tracking root) Roomy self.enterSeek := by
  obtain ⟨tree, stack, position, didSeek, atEnd⟩ := self
  obtain ⟨rfl, leads, flags⟩ := tracks
  unfold enterSeek
  cases didSeek with
  | true => exact ⟨rfl, rfl, leads⟩
  | false =>
    rcases stack with _ | ⟨entry, rest⟩
    · exact (insertFront_root wellFormed _ _).bind fun pushed leads => ⟨rfl, rfl, leads⟩
    · cases (flags (List.cons_ne_nil _ _)).1

omit [Summary S] [Item T S] in
theorem foundAt_roomy (self : Cursor T S D) (bias : Bias) : EndSpec (fun _ => True) Roomy (self.foundAt bias) := by
  have read : EndSpec (fun _ => True) Roomy self.itemSummary := by
    refine (assert_roomy _).bind fun _ _ => ?_
    obtain ⟨tree, stack, position, didSeek, atEnd⟩ := self
    rcases stack with _ | ⟨⟨node, i, p⟩, rest⟩
    · trivial
    · cases node with
      | internal h s ss trees => exact (nofun : Panic.unreachable ≠ .capacity)
      | leaf s xs ss =>
        simp only
        split_ifs
        · trivial
        · exact (index_roomy _ _).bind fun _ _ => trivial
  unfold foundAt
  split_ifs
  · refine read.bind fun summary _ => ?_
    cases summary <;> trivial
  · trivial

theorem seekInternal_tracks (wellFormed : WellFormed root) (shallow : Shallow root)
    (feeds : Feeds aggregate room) (target : SeekTarget D) (bias : Bias) {self : Cursor T S D} {a : A}
    (tracks : Tracks root self) (held : room nodeCapacity a) :
    EndSpec (fun result => Tracks root result.2.1) Roomy (self.seekInternal target bias aggregate a) := by
  refine (assert_roomy _).bind fun _ _ => ?_
  refine (enterSeek_tracking wellFormed tracks).bind fun start tracking => ?_
  have looped := loop_rule (fun s : Cursor T S D × Bool × A => Tracking root s.1 ∧
      room nodeCapacity s.2.2) (fun result : Cursor T S D × A => Tracking root result.1) Roomy
    (fun s inv => .of_endSpec (seekStep_tracking shallow feeds target bias inv.1 inv.2)
      (seekStep_decreases target bias aggregate s)) (start, false, a) ⟨tracking, held⟩
  refine looped.bind fun stopped tracking => ?_
  refine (assert_roomy _).bind fun _ _ => ?_
  refine (foundAt_roomy _ _).bind fun location _ => ?_
  refine ⟨tracking.1, tracking.2.2, fun some => ⟨tracking.2.1, ?_⟩⟩
  simpa using some

theorem seek_tracks (wellFormed : WellFormed root) (shallow : Shallow root) (target : SeekTarget D)
    (bias : Bias) {self : Cursor T S D} (tracks : Tracks root self) :
    EndSpec (fun result => Tracks root result.2) Roomy (self.seek target bias) :=
  (seekInternal_tracks wellFormed shallow feeds_ignore target bias tracks.reset trivial).bind fun _ tracks => tracks

theorem seekForward_tracks (wellFormed : WellFormed root) (shallow : Shallow root)
    (target : SeekTarget D) (bias : Bias) {self : Cursor T S D} (tracks : Tracks root self) :
    EndSpec (fun result => Tracks root result.2) Roomy (self.seekForward target bias) :=
  (seekInternal_tracks wellFormed shallow feeds_ignore target bias tracks trivial).bind fun _ tracks => tracks

theorem slice_tracks [LawfulSummary S] (wellFormed : WellFormed root) (shallow : Shallow root) (target : SeekTarget D)
    (bias : Bias) {self : Cursor T S D} (tracks : Tracks root self) :
    EndSpec (fun result => Tracks root result.2) Roomy (self.slice target bias) :=
  (seekInternal_tracks wellFormed shallow feeds_collectSlice target bias tracks
    ⟨.empty, Nat.le_of_eq (Nat.zero_add _)⟩).bind fun _ tracks => tracks

theorem summaryTo_tracks (Output : Type) [Dimension S Output] (wellFormed : WellFormed root) (shallow : Shallow root)
    (target : SeekTarget D) (bias : Bias) {self : Cursor T S D} (tracks : Tracks root self) :
    EndSpec (fun result => Tracks root result.2) Roomy (self.summaryTo Output target bias) :=
  (seekInternal_tracks wellFormed shallow feeds_collectSummary target bias tracks trivial).bind fun _ tracks => tracks

theorem Reached.tracks [LawfulSummary S] (wellFormed : WellFormed root) (shallow : Shallow root) {self : Cursor T S D}
    (reached : Reached root self) : Tracks root self := by
  induction reached with
  | new => exact .new root
  | reset reached ih => exact ih.reset
  | searchForward reached filterNode moved ih =>
    exact (searchForward_tracks wellFormed shallow filterNode ih).of_eq_ok moved
  | searchBackward reached filterNode moved ih =>
    exact (searchBackward_tracks wellFormed shallow filterNode ih).of_eq_ok moved
  | seek reached target bias moved ih =>
    exact (seek_tracks wellFormed shallow target bias ih).of_eq_ok moved
  | seekForward reached target bias moved ih =>
    exact (seekForward_tracks wellFormed shallow target bias ih).of_eq_ok moved
  | slice reached target bias moved ih =>
    exact (slice_tracks wellFormed shallow target bias ih).of_eq_ok moved
  | summaryTo reached target bias moved ih =>
    exact (summaryTo_tracks _ wellFormed shallow target bias ih).of_eq_ok moved

structure NeverFull (cursor : Cursor T S D) : Prop where
  length : cursor.stack.length ≤ 16
  searchForward : ∀ filterNode, cursor.searchForward filterNode ≠ .error .capacity
  searchBackward : ∀ filterNode, cursor.searchBackward filterNode ≠ .error .capacity
  seek : ∀ target bias, cursor.seek target bias ≠ .error .capacity
  seekForward : ∀ target bias, cursor.seekForward target bias ≠ .error .capacity
  slice : ∀ target bias, cursor.slice target bias ≠ .error .capacity
  suffix : cursor.suffix ≠ .error .capacity
  summaryTo : ∀ (Output : Type) [Dimension S Output] (target : SeekTarget D) (bias : Bias),
    cursor.summaryTo Output target bias ≠ .error .capacity

theorem Tracks.neverFull [LawfulSummary S] (wellFormed : WellFormed root) (shallow : Shallow root)
    {self : Cursor T S D} (tracks : Tracks root self) : NeverFull self where
  length := tracks.leads.length_le.trans (Nat.succ_le_of_lt shallow)
  searchForward filterNode :=
    (searchForward_tracks wellFormed shallow filterNode tracks).ne_error fun roomy => roomy rfl
  searchBackward filterNode :=
    (searchBackward_tracks wellFormed shallow filterNode tracks).ne_error fun roomy => roomy rfl
  seek target bias := (seek_tracks wellFormed shallow target bias tracks).ne_error fun roomy => roomy rfl
  seekForward target bias := (seekForward_tracks wellFormed shallow target bias tracks).ne_error fun roomy => roomy rfl
  slice target bias := (slice_tracks wellFormed shallow target bias tracks).ne_error fun roomy => roomy rfl
  suffix := (slice_tracks wellFormed shallow .atEnd .right tracks).ne_error fun roomy => roomy rfl
  summaryTo Output _ target bias :=
    (summaryTo_tracks Output wellFormed shallow target bias tracks).ne_error fun roomy => roomy rfl

end Cursor

/-! ## Iterators -/

namespace Iter

variable {root : SumTree T S}

/-- The iterators over `root` that calls of `next` lead to. -/
inductive Reached (root : SumTree T S) : Iter T S → Prop where
  | iter : Reached root root.iter
  | next {self moved : Iter T S} {item : Option T} (reached : Reached root self)
      (stepped : self.next = .ok (item, moved)) : Reached root moved

omit [Summary S] [Item T S] in
theorem step_decreases (state next : List (StackEntry T S PUnit) × Bool) (stepped : step state = .ok (.inl next)) :
    Cursor.workAhead next.1 next.2 < Cursor.workAhead state.1 state.2 := by
  obtain ⟨stack, descend⟩ := state
  rcases stack with _ | ⟨⟨node, i, p⟩, rest⟩
  · cases stepped
  · cases node with
    | internal h s ss trees =>
      simp only [step] at stepped
      split at stepped
      · rename_i subtree found
        obtain ⟨stack, pushed, stepped⟩ := bind_eq_ok.mp stepped
        cases stepped
        obtain rfl := Cursor.insertFront_eq pushed
        exact Cursor.workAhead_enter (Nat.le_refl _) found
      · cases stepped
        simp only [Cursor.workAhead]
        omega
    | leaf s xs ss =>
      simp only [step] at stepped
      split at stepped
      · cases stepped
      · cases stepped
        simp only [Cursor.workAhead]
        omega

theorem step_leads (shallow : Cursor.Shallow root) {stack : List (StackEntry T S PUnit)} {descend : Bool}
    (leads : Cursor.Leads root stack) :
    EndSpec (Sum.elim (fun next => Cursor.Leads root next.1)
      fun result => Cursor.Leads root result.2) Roomy (step (stack, descend)) := by
  rcases stack with _ | ⟨⟨node, i, p⟩, rest⟩
  · exact trivial
  · cases node with
    | internal h s ss trees =>
      simp only [step]
      split
      · rename_i subtree found
        exact (Cursor.insertFront_child (p := p) shallow leads
          (List.mem_of_getElem? found)).bind fun pushed leads => leads
      · exact leads.2.2
    | leaf s xs ss =>
      simp only [step]
      split
      · exact leads
      · exact leads.2.2

theorem next_leads (wellFormed : WellFormed root) (shallow : Cursor.Shallow root) {self : Iter T S}
    (same : self.tree = root) (leads : Cursor.Leads root self.stack) :
    EndSpec (fun result => result.2.tree = root ∧ Cursor.Leads root result.2.stack) Roomy self.next := by
  have entered : EndSpec (fun start => Cursor.Leads root start.1) Roomy self.enter := by
    unfold enter
    obtain ⟨tree, stack⟩ := self
    obtain rfl := same
    rcases stack with _ | ⟨entry, rest⟩
    · exact (Cursor.insertFront_root wellFormed _ _).bind fun pushed leads => leads
    · exact leads
  refine entered.bind fun start leads => ?_
  exact (loop_rule (fun s => Cursor.Leads root s.1) (fun result => Cursor.Leads root result.2)
    Roomy (fun s leads => .of_endSpec (step_leads shallow leads) (step_decreases s)) start
    leads).bind fun result leads => ⟨same, leads⟩

theorem Reached.leads (wellFormed : WellFormed root) (shallow : Cursor.Shallow root) {self : Iter T S}
    (reached : Reached root self) : self.tree = root ∧ Cursor.Leads root self.stack := by
  induction reached with
  | iter => exact ⟨rfl, trivial⟩
  | next reached stepped ih =>
    exact (next_leads wellFormed shallow ih.1 ih.2).of_eq_ok stepped

end Iter

/-! ## Trees with few items -/

/-- A tree that was built without bulk loading has many items for its height, and as long as it has
less than two times `TREE_BASE ^ 16` of them its cursors and iterators have room on their stacks. -/
theorem grown_bounds [LawfulSummary S] {tree : SumTree T S} (grown : Grown tree) : Rooted tree ∧ Branching tree ∧
    (1 ≤ tree.height → 2 * treeBase ^ tree.height ≤ tree.toList.length) ∧
    (tree.toList.length < 2 * treeBase ^ 16 →
      (∀ (D : Type) [Dimension S D] (cursor : Cursor T S D), cursor.Reached tree → cursor.NeverFull) ∧
      ∀ iter, Iter.Reached tree iter → iter.stack.length ≤ 16 ∧ iter.next ≠ .error .capacity) := by
  have occupied := grown.occupied
  have wellFormed := occupied.sturdy.wellFormed
  refine ⟨occupied.sturdy.rooted, occupied.branching, occupied.two_mul_pow_le_length, fun few => ?_⟩
  have shallow : Cursor.Shallow tree := occupied.shallow few
  refine ⟨fun D _ cursor reached => (reached.tracks wellFormed shallow).neverFull wellFormed shallow,
    fun iter reached => ?_⟩
  obtain ⟨same, leads⟩ := reached.leads wellFormed shallow
  exact ⟨leads.length_le.trans (Nat.succ_le_of_lt shallow),
    (Iter.next_leads wellFormed shallow same leads).ne_error fun roomy => roomy rfl⟩

theorem Grown.pushes [LawfulSummary S] {self tree : SumTree T S} (grown : Grown self) (items : List T)
    (built : items.foldlM pushItem self = .ok tree) : Grown tree := by
  induction items generalizing self with
  | nil =>
    cases built
    exact grown
  | cons item items ih =>
    rw [List.foldlM_cons] at built
    obtain ⟨next, pushed, rest⟩ := bind_eq_ok.mp built
    exact ih (.push grown item pushed) rest

/-- Thirteen pushes split the root. -/
theorem grown_bounds_thirteen : Rooted thirteen ∧ Branching thirteen ∧ 2 * treeBase ^ 1 ≤ thirteen.toList.length ∧
    (∀ (D : Type) [Dimension IntegersSummary D] (cursor : Cursor Nat IntegersSummary D),
      cursor.Reached thirteen → cursor.NeverFull) ∧
    ∀ iter, Iter.Reached thirteen iter → iter.stack.length ≤ 16 ∧ iter.next ≠ .error .capacity := by
  obtain ⟨rooted, branching, many, roomy⟩ := grown_bounds
    (Grown.pushes .new [1, 2, 3, 4, 5, 6, 7, 8, 9, 10, 11, 12, 13] rfl : Grown thirteen)
  obtain ⟨cursors, iters⟩ := roomy (by decide)
  exact ⟨rooted, branching, many (by decide), cursors, iters⟩

end Pinrail

import Pinrail.SumTree.Integers
import Pinrail.SumTree.Slice

/-!
# The list cursor

What a cursor is for: a position in the item sequence. The cursor of the code refines it along
every sequence of moves, except that a seek forward made after the cursor was moved back past the
first item is lost.
-/

namespace Pinrail
open Lib SumTree Cursor

variable {T S D : Type} [Summary S] [Item T S] [Dimension S D]

inductive ListCursor where
  | fresh
  | beforeStart
  | at (i : Nat)
deriving DecidableEq

inductive Move (D : Type) where
  | next
  | prev
  | seek (target : SeekTarget D) (bias : Bias)
  | seekForward (target : SeekTarget D) (bias : Bias)
  | slice (target : SeekTarget D) (bias : Bias)
  | suffix
  | summary (target : SeekTarget D) (bias : Bias)

namespace ListCursor

def index : ListCursor → Nat
  | .at i => i
  | _ => 0

/-- The first index from `i` on whose item ends at or after the target (`Bias::Left`), or after it
(`Bias::Right`). -/
def landing (xs : List T) (target : SeekTarget D) (bias : Bias) (i : Nat) : Nat :=
  ((List.range' i (xs.length - i)).find? fun j =>
    !target.passes bias (measure (xs.take (j + 1)))).getD xs.length

def next (xs : List T) : ListCursor → ListCursor
  | .at i => .at (min (i + 1) xs.length)
  | _ => .at 0

/-- One item back from index `i`. There is nothing in front of an empty list but its end. -/
def back (xs : List T) : Nat → ListCursor
  | 0 => if xs.isEmpty then .at 0 else .beforeStart
  | i + 1 => .at i

def prev (xs : List T) : ListCursor → ListCursor
  | .fresh => back xs xs.length
  | .beforeStart => .beforeStart
  | .at i => back xs i

def move (xs : List T) (self : ListCursor) : Move D → ListCursor
  | .next => self.next xs
  | .prev => self.prev xs
  | .seek target bias => .at (landing xs target bias 0)
  | .seekForward target bias => .at (landing xs target bias self.index)
  | .slice target bias => .at (landing xs target bias self.index)
  | .suffix => .at xs.length
  | .summary target bias => .at (landing xs target bias self.index)

/-- A target is not before index `i` and is compared monotonically with the ends of the items. -/
def Reaches (xs : List T) (i : Nat) (target : SeekTarget D) (bias : Bias) : Prop :=
  (target.cmp (measure (xs.take i))).isGE = true ∧ Monotone target bias xs

/-- The moves that the code makes faithfully: seeks to targets ahead, and none of the seeks that
start where the cursor is when that is in front of the first item of a list. -/
def Allowed (xs : List T) (self : ListCursor) : Move D → Prop
  | .next | .prev => True
  | .seek target bias => Reaches xs 0 target bias
  | .seekForward target bias | .slice target bias | .summary target bias =>
    self ≠ .beforeStart ∧ Reaches xs self.index target bias
  | .suffix => self ≠ .beforeStart

def AllowedRun (xs : List T) : ListCursor → List (Move D) → Prop
  | _, [] => True
  | self, m :: moves => self.Allowed xs m ∧ AllowedRun xs (self.move xs m) moves

end ListCursor

namespace Cursor

def move (Output : Type) [Dimension S Output] (self : Cursor T S D) :
    Move D → Except Panic (Cursor T S D)
  | .next => self.next
  | .prev => self.prev
  | .seek target bias => return (← self.seek target bias).2
  | .seekForward target bias => return (← self.seekForward target bias).2
  | .slice target bias => return (← self.slice target bias).2
  | .suffix => return (← self.suffix).2
  | .summary target bias => return (← self.summaryTo Output target bias).2

def run (Output : Type) [Dimension S Output] (self : Cursor T S D) (moves : List (Move D)) :
    Except Panic (Cursor T S D) :=
  moves.foldlM (move Output) self

/-- What can be read off a cursor that stands for a list cursor. Before the first move nothing but
the position can be read. -/
def Observes (xs : List T) (self : Cursor T S D) : ListCursor → Prop
  | .fresh => self.didSeek = false ∧ self.start = measure ([] : List T)
  | .beforeStart =>
    self.item = .ok none ∧ self.prevItem = .ok none ∧ self.nextItem = .ok xs[0]? ∧
    self.start = measure ([] : List T) ∧ self.endPosition = .ok self.start
  | .at i =>
    i ≤ xs.length ∧ self.item = .ok xs[i]? ∧
    self.prevItem = .ok (if i = 0 then none else xs[i - 1]?) ∧ self.nextItem = .ok xs[i + 1]? ∧
    self.start = measure (xs.take i) ∧
    self.endPosition = .ok (match xs[i]? with
      | some item => Dimension.addSummary self.start (Item.summary item : S)
      | none => self.start)

def Represents (tree : SumTree T S) (self : Cursor T S D) : ListCursor → Prop
  | .fresh => self = new tree
  | .beforeStart => tree.isEmpty = false ∧ self = beforeStart tree
  | .at i => ∃ before after, before.length = i ∧ Rests tree self before after

/-! ## The landing place of a seek -/

omit [Summary S] in
theorem landing_append (target : SeekTarget D) (bias : Bias) (before after : List T) :
    ListCursor.landing (before ++ after) target bias before.length =
      before.length + (passed target bias (measure before : D) after).length := by
  induction after generalizing before with
  | nil =>
    rw [ListCursor.landing, List.append_nil, Nat.sub_self]
    rfl
  | cons item after ih =>
    have count : (before ++ item :: after).length - before.length = after.length + 1 := by simp
    have first : (before ++ item :: after).take (before.length + 1) = before ++ [item] := List.take_length_add_append 1
    rw [ListCursor.landing, count, List.range'_succ, List.find?_cons, first, passed, measure_concat]
    cases pass : target.passes bias (measure (before ++ [item])) with
    | false => simp
    | true =>
      have rest := ih (before ++ [item])
      have left : (before ++ [item] ++ after).length - (before ++ [item]).length = after.length := by
        simp only [List.length_append]
        omega
      rw [ListCursor.landing, left, List.append_assoc, List.singleton_append,
        List.length_append, List.length_singleton] at rest
      rw [if_pos rfl, List.length_cons]
      simp only [Bool.not_true]
      rw [rest]
      omega

omit [Summary S] in
theorem passed_eq_slice (target : SeekTarget D) (bias : Bias) (before after : List T) : ((before ++ after).take
        (ListCursor.landing (before ++ after) target bias before.length)).drop before.length =
      passed target bias (measure before : D) after := by
  rw [landing_append, List.take_length_add_append, List.drop_left]
  exact (List.prefix_iff_eq_take.mp (passed_isPrefix target bias _ after)).symm

omit [Summary S] in
theorem landing_spec (xs : List T) (target : SeekTarget D) (bias : Bias) {i : Nat} (inside : i ≤ xs.length) :
    i ≤ ListCursor.landing xs target bias i ∧ ListCursor.landing xs target bias i ≤ xs.length ∧
      (∀ j, i ≤ j → j < ListCursor.landing xs target bias i → target.passes bias (measure (xs.take (j + 1))) = true) ∧
      (ListCursor.landing xs target bias i < xs.length →
        target.passes bias (measure (xs.take (ListCursor.landing xs target bias i + 1))) = false) := by
  unfold ListCursor.landing
  cases found : (List.range' i (xs.length - i)).find? fun j =>
      !target.passes bias (measure (xs.take (j + 1))) with
  | none =>
    rw [List.find?_range'_eq_none] at found
    refine ⟨inside, Nat.le_refl _, ?_, fun short => absurd short (Nat.lt_irrefl _)⟩
    intro j low high
    rw [Option.getD_none] at high
    simpa using found j low (by omega)
  | some j =>
    rw [List.find?_range'_eq_some] at found
    obtain ⟨stops, member, before⟩ := found
    rw [List.mem_range'_1] at member
    refine ⟨member.1, by rw [Option.getD_some]; omega, ?_, fun _ => by simpa using stops⟩
    intro k low high
    simpa using before k low high

/-! ## One move -/

theorem toList_isEmpty {tree : SumTree T S} (wellFormed : WellFormed tree) : tree.toList.isEmpty = tree.isEmpty := by
  rcases wellFormed with rfl | ⟨h, balanced⟩
  · rfl
  · rw [balanced.isEmpty_eq]
    simpa using balanced.toList_ne_nil

theorem seesItems_all (root : SumTree T S) : SeesItems (D := D) (fun _ => true) root := fun _ _ _ _ _ _ _ _ _ => rfl

omit [Summary S] in
theorem takeWhile_rejects_all (xs : List T) : xs.takeWhile (rejects (S := S) fun _ => true) = [] := by
  cases xs <;> rfl

omit [Summary S] in
theorem dropWhile_rejects_all (xs : List T) : xs.dropWhile (rejects (S := S) fun _ => true) = xs := by
  cases xs <;> rfl

omit [Summary S] in
theorem rdropWhile_rejects_all (xs : List T) : xs.rdropWhile (rejects (S := S) fun _ => true) = xs := by
  rw [List.rdropWhile, dropWhile_rejects_all, List.reverse_reverse]

variable {tree : SumTree T S} {self : Cursor T S D} {state : ListCursor}
variable [LawfulSummary S] [LawfulDimension S D]

theorem Represents.next (wellFormed : WellFormed tree) (shallow : Shallow tree)
    (represents : Represents tree self state) :
    ∃ moved, self.next = .ok moved ∧ Represents tree moved (state.next tree.toList) := by
  have first : ∀ didSeek, ∃ moved,
      Cursor.next (⟨tree, [], Dimension.zero S, didSeek, tree.isEmpty⟩ : Cursor T S D) = .ok moved ∧
      Represents tree moved (.at 0) := by
    intro didSeek
    obtain ⟨moved, searched, rests⟩ := searchForward_start (D := D) shallow (seesItems_all tree) wellFormed didSeek
    rw [takeWhile_rejects_all, dropWhile_rejects_all] at rests
    exact ⟨moved, searched, [], tree.toList, rfl, rests⟩
  cases state with
  | fresh =>
    subst represents
    exact first false
  | beforeStart =>
    obtain ⟨nonempty, rfl⟩ := represents
    have moved := first true
    rwa [nonempty] at moved
  | «at» i =>
    obtain ⟨before, after, rfl, rests⟩ := represents
    obtain ⟨moved, searched, rests'⟩ := rests.searchForward shallow (seesItems_all tree)
    rw [takeWhile_rejects_all, dropWhile_rejects_all, List.append_nil] at rests'
    refine ⟨moved, searched, _, _, ?_, rests'⟩
    rw [rests.held]
    simp

omit [LawfulSummary S] [LawfulDimension S D] in
theorem Landed.represents (wellFormed : WellFormed tree) {before : List T} {moved : Cursor T S D}
    (landed : Landed tree before moved) : Represents tree moved (ListCursor.back tree.toList before.length) := by
  cases landed with
  | @item moved init after item rests =>
    rw [List.length_append, List.length_singleton]
    exact ⟨init, item :: after, rfl, rests⟩
  | beforeStart nonempty =>
    simp only [List.length_nil, ListCursor.back, toList_isEmpty wellFormed, nonempty]
    exact ⟨nonempty, rfl⟩
  | empty empty rests =>
    simp only [List.length_nil, ListCursor.back, toList_isEmpty wellFormed, empty]
    exact ⟨[], [], rfl, rests⟩

theorem Represents.prev (wellFormed : WellFormed tree) (shallow : Shallow tree)
    (represents : Represents tree self state) :
    ∃ moved, self.prev = .ok moved ∧ Represents tree moved (state.prev tree.toList) := by
  cases state with
  | fresh =>
    subst represents
    obtain ⟨moved, searched, landed⟩ := searchBackward_end shallow (seesItems_all tree)
      wellFormed (Dimension.zero S : D) false tree.isEmpty rfl
    rw [rdropWhile_rejects_all] at landed
    exact ⟨moved, searched, landed.represents wellFormed⟩
  | beforeStart =>
    obtain ⟨nonempty, rfl⟩ := represents
    exact ⟨_, searchBackward_beforeStart, nonempty, rfl⟩
  | «at» i =>
    obtain ⟨before, after, rfl, rests⟩ := represents
    obtain ⟨moved, searched, landed⟩ := rests.searchBackward shallow (seesItems_all tree) wellFormed
    rw [rdropWhile_rejects_all] at landed
    exact ⟨moved, searched, landed.represents wellFormed⟩

theorem Represents.seekInternal {A : Type} {aggregate : SeekAggregate T S A} {holds : Nat → List T → A → Prop}
    (collects : Collects aggregate holds) {a : A} (held : holds feedBudget [] a) (wellFormed : WellFormed tree)
    (shallow : Shallow tree) (represents : Represents tree self state) (inside : state ≠ .beforeStart)
    {target : SeekTarget D} {bias : Bias} (reaches : ListCursor.Reaches tree.toList state.index target bias) :
    ∃ found moved a' n, self.seekInternal target bias aggregate a = .ok (found, moved, a') ∧
    holds n ((tree.toList.take (ListCursor.landing tree.toList target bias state.index)).drop state.index) a' ∧
    Represents tree moved (.at (ListCursor.landing tree.toList target bias state.index)) := by
  obtain ⟨forward, mono⟩ := reaches
  cases state with
  | fresh =>
    subst represents
    obtain ⟨moved, a', n, sought, held', rests⟩ := seekInternal_fresh collects shallow wellFormed mono forward held
    have slice := passed_eq_slice target bias [] tree.toList
    have lands := landing_append target bias [] tree.toList
    simp only [List.nil_append, List.length_nil, Nat.zero_add] at slice lands
    refine ⟨_, moved, a', n, sought, ?_, _, _, ?_, rests⟩
    · change holds n ((tree.toList.take (ListCursor.landing tree.toList target bias 0)).drop 0) a'
      rw [slice]
      exact held'
    · exact lands.symm
  | beforeStart => exact absurd rfl inside
  | «at» i =>
    obtain ⟨before, after, rfl, rests⟩ := represents
    have whole := rests.held
    rw [ListCursor.index, whole, List.take_left] at forward
    obtain ⟨moved, a', n, sought, held', rests'⟩ := rests.seekInternal collects shallow mono forward held
    refine ⟨_, moved, a', n, sought, ?_, _, _, ?_, rests'⟩
    · rw [ListCursor.index, whole, passed_eq_slice]
      exact held'
    · rw [ListCursor.index, whole, landing_append, List.length_append]

omit [Summary S] [LawfulSummary S] [LawfulDimension S D] in
theorem landing_atEnd (xs : List T) (bias : Bias) (i : Nat) :
    ListCursor.landing xs (.atEnd : SeekTarget D) bias i = xs.length := by
  rw [ListCursor.landing, List.find?_eq_none.mpr]
  · rfl
  · intro j _
    simp [SeekTarget.passes, SeekTarget.atEnd]

omit [Summary S] [LawfulSummary S] [LawfulDimension S D] in
theorem reaches_atEnd (xs : List T) (bias : Bias) (i : Nat) : ListCursor.Reaches xs i (.atEnd : SeekTarget D) bias :=
  ⟨rfl, fun _ _ _ _ => rfl⟩

omit [LawfulSummary S] [LawfulDimension S D] in
theorem Represents.tree_eq (represents : Represents tree self state) : self.tree = tree := by
  cases state with
  | fresh => rw [represents]; rfl
  | beforeStart => rw [represents.2]; rfl
  | «at» i =>
    obtain ⟨before, after, -, rests⟩ := represents
    exact rests.tree_eq

section Seeks

variable (wellFormed : WellFormed tree) (shallow : Shallow tree)
  (represents : Represents tree self state) {target : SeekTarget D} {bias : Bias}
include wellFormed shallow represents

theorem Represents.seek (reaches : ListCursor.Reaches tree.toList 0 target bias) : ∃ found moved,
    self.seek target bias = .ok (found, moved) ∧
    Represents tree moved (.at (ListCursor.landing tree.toList target bias 0)) := by
  have reset : self.reset = new tree := by
    rw [Cursor.reset, represents.tree_eq]
    rfl
  have fresh : Represents tree (new tree : Cursor T S D) .fresh := rfl
  obtain ⟨found, moved, a, n, sought, -, moved'⟩ :=
    fresh.seekInternal collects_ignore trivial wellFormed shallow (by simp) reaches
  refine ⟨found, moved, ?_, moved'⟩
  rw [Cursor.seek, reset, sought]
  rfl

variable (inside : state ≠ .beforeStart)
include inside

theorem Represents.seekForward (reaches : ListCursor.Reaches tree.toList state.index target bias) : ∃ found moved,
    self.seekForward target bias = .ok (found, moved) ∧
    Represents tree moved (.at (ListCursor.landing tree.toList target bias state.index)) := by
  obtain ⟨found, moved, a, n, sought, -, moved'⟩ :=
    represents.seekInternal collects_ignore trivial wellFormed shallow inside reaches
  exact ⟨found, moved, by rw [Cursor.seekForward, sought]; rfl, moved'⟩

theorem Represents.slice (reaches : ListCursor.Reaches tree.toList state.index target bias) : ∃ slice moved,
    self.slice target bias = .ok (slice, moved) ∧ WellFormed slice ∧
    slice.toList = (tree.toList.take (ListCursor.landing tree.toList target bias state.index)).drop state.index ∧
    Represents tree moved (.at (ListCursor.landing tree.toList target bias state.index)) := by
  obtain ⟨found, moved, a, n, sought, held, moved'⟩ :=
    represents.seekInternal collects_slice .empty wellFormed shallow inside reaches
  exact ⟨a.tree, moved, by rw [Cursor.slice, sought]; rfl, held.low.wellFormed, held.held, moved'⟩

theorem Represents.suffix : ∃ slice moved, self.suffix = .ok (slice, moved) ∧ WellFormed slice ∧
    slice.toList = tree.toList.drop state.index ∧ Represents tree moved (.at tree.toList.length) := by
  have sliced := represents.slice wellFormed shallow inside (reaches_atEnd (D := D) tree.toList .right state.index)
  rw [landing_atEnd, List.take_length] at sliced
  exact sliced

theorem Represents.summaryTo (Output : Type) [Dimension S Output] [LawfulDimension S Output]
    (reaches : ListCursor.Reaches tree.toList state.index target bias) :
    ∃ moved, self.summaryTo Output target bias = .ok (measure ((tree.toList.take
        (ListCursor.landing tree.toList target bias state.index)).drop state.index), moved) ∧
      Represents tree moved (.at (ListCursor.landing tree.toList target bias state.index)) := by
  obtain ⟨found, moved, a, n, sought, held, moved'⟩ :=
    represents.seekInternal (collects_summary (D := Output)) rfl wellFormed shallow inside reaches
  refine ⟨moved, bind_eq_ok.mpr ⟨_, sought, ?_⟩, moved'⟩
  rw [held]
  rfl

end Seeks

theorem Represents.move (Output : Type) [Dimension S Output] [LawfulDimension S Output]
    (wellFormed : WellFormed tree) (shallow : Shallow tree)
    (represents : Represents tree self state) (m : Move D) (allowed : state.Allowed tree.toList m) :
    ∃ moved, self.move Output m = .ok moved ∧ Represents tree moved (state.move tree.toList m) := by
  cases m with
  | next => exact represents.next wellFormed shallow
  | prev => exact represents.prev wellFormed shallow
  | seek target bias =>
    obtain ⟨found, moved, sought, moved'⟩ := represents.seek wellFormed shallow allowed
    exact ⟨moved, by rw [Cursor.move, sought]; rfl, moved'⟩
  | seekForward target bias =>
    obtain ⟨found, moved, sought, moved'⟩ := represents.seekForward wellFormed shallow allowed.1 allowed.2
    exact ⟨moved, by rw [Cursor.move, sought]; rfl, moved'⟩
  | slice target bias =>
    obtain ⟨slice, moved, sought, -, -, moved'⟩ := represents.slice wellFormed shallow allowed.1 allowed.2
    exact ⟨moved, by rw [Cursor.move, sought]; rfl, moved'⟩
  | suffix =>
    obtain ⟨slice, moved, sought, -, -, moved'⟩ := represents.suffix wellFormed shallow allowed
    exact ⟨moved, by rw [Cursor.move, sought]; rfl, moved'⟩
  | summary target bias =>
    obtain ⟨moved, sought, moved'⟩ := represents.summaryTo wellFormed shallow allowed.1 Output allowed.2
    exact ⟨moved, by rw [Cursor.move, sought]; rfl, moved'⟩

/-! ## Runs -/

theorem Represents.run (Output : Type) [Dimension S Output] [LawfulDimension S Output] (wellFormed : WellFormed tree)
    (shallow : Shallow tree) (moves : List (Move D)) (represents : Represents tree self state)
    (allowed : ListCursor.AllowedRun tree.toList state moves) : ∃ moved, self.run Output moves = .ok moved ∧
    Represents tree moved (moves.foldl (ListCursor.move tree.toList) state) := by
  induction moves generalizing self state with
  | nil => exact ⟨self, rfl, represents⟩
  | cons m moves ih =>
    obtain ⟨moved, first, represents'⟩ := represents.move Output wellFormed shallow m allowed.1
    obtain ⟨last, rest, represents''⟩ := ih represents' allowed.2
    refine ⟨last, ?_, represents''⟩
    rw [Cursor.run, List.foldlM_cons, first, ok_bind]
    exact rest

omit [LawfulSummary S] [LawfulDimension S D] in
theorem Represents.observes (wellFormed : WellFormed tree)
    (represents : Represents tree self state) : Observes tree.toList self state := by
  cases state with
  | fresh =>
    subst represents
    exact ⟨rfl, rfl⟩
  | beforeStart =>
    obtain ⟨-, rfl⟩ := represents
    refine ⟨rfl, rfl, ?_, rfl, rfl⟩
    rw [← List.head?_eq_getElem?]
    exact first_spec wellFormed
  | «at» i =>
    obtain ⟨before, after, rfl, rests⟩ := represents
    rw [rests.held]
    refine ⟨by simp, ?_, ?_, ?_, ?_, ?_⟩
    · rw [rests.item_eq, List.getElem?_append_right (Nat.le_refl _), Nat.sub_self, List.head?_eq_getElem?]
    · rw [rests.prevItem_eq wellFormed]
      rcases List.eq_nil_or_concat' before with rfl | ⟨init, last, rfl⟩
      · rfl
      · simp
    · rw [rests.nextItem_eq, List.getElem?_append_right (Nat.le_succ _)]
      simp
    · rw [List.take_left]
      exact rests.position_eq
    · rw [rests.endPosition_eq, List.getElem?_append_right (Nat.le_refl _), Nat.sub_self]
      cases after with
      | nil => simp [start, rests.position_eq]
      | cons item after =>
        simp only [List.getElem?_cons_zero, start, rests.position_eq, measure_concat]
        rfl

section Theorems

variable (Output : Type) [Dimension S Output] [LawfulDimension S Output]

/-- Along every allowed run the cursor reads what the list cursor reads. -/
theorem run_observes_listCursor (wellFormed : WellFormed tree) (shallow : Shallow tree) (moves : List (Move D))
    (allowed : ListCursor.AllowedRun tree.toList .fresh moves) : ∃ self,
    (new tree : Cursor T S D).run Output moves = .ok self ∧
    Observes tree.toList self (moves.foldl (ListCursor.move tree.toList) .fresh) := by
  have start : Represents tree (new tree : Cursor T S D) .fresh := rfl
  obtain ⟨self, ran, represents⟩ := start.run Output wellFormed shallow moves allowed
  exact ⟨self, ran, represents.observes wellFormed⟩

/-- From every state of an allowed run, a slice, a suffix and a summary cover the items that the
list cursor moves over, and leave the cursor where a seek forward does. -/
theorem run_slices_listCursor (wellFormed : WellFormed tree) (shallow : Shallow tree)
    (moves : List (Move D)) (allowed : ListCursor.AllowedRun tree.toList .fresh moves)
    (state : ListCursor) (reached : moves.foldl (ListCursor.move tree.toList) .fresh = state)
    (target : SeekTarget D) (bias : Bias)
    (ahead : state.Allowed tree.toList (.slice target bias)) :
    ∃ self, (new tree : Cursor T S D).run Output moves = .ok self ∧
      (∃ slice moved, self.slice target bias = .ok (slice, moved) ∧ WellFormed slice ∧ slice.toList = (tree.toList.take
          (ListCursor.landing tree.toList target bias state.index)).drop state.index ∧
        Observes tree.toList moved (.at (ListCursor.landing tree.toList target bias state.index)) ∧
        ∃ moved', self.summaryTo Output target bias = .ok (measure slice.toList, moved') ∧ Observes tree.toList moved'
            (.at (ListCursor.landing tree.toList target bias state.index))) ∧
      (∃ found moved, self.seekForward target bias = .ok (found, moved) ∧
        Observes tree.toList moved (.at (ListCursor.landing tree.toList target bias state.index))) ∧
      ∃ rest moved, self.suffix = .ok (rest, moved) ∧ WellFormed rest ∧ rest.toList = tree.toList.drop state.index ∧
        Observes tree.toList moved (.at tree.toList.length) := by
  subst reached
  have start : Represents tree (new tree : Cursor T S D) .fresh := rfl
  obtain ⟨self, ran, represents⟩ := start.run Output wellFormed shallow moves allowed
  obtain ⟨inside, reaches⟩ := ahead
  obtain ⟨slice, sliced, slicedEq, sliceWellFormed, items, afterSlice⟩ :=
    represents.slice wellFormed shallow inside reaches
  obtain ⟨summed, summedEq, afterSummary⟩ := represents.summaryTo wellFormed shallow inside Output reaches
  obtain ⟨found, sought, soughtEq, afterSeek⟩ := represents.seekForward wellFormed shallow inside reaches
  obtain ⟨rest, last, suffixEq, restWellFormed, restItems, atEnd⟩ := represents.suffix wellFormed shallow inside
  refine ⟨self, ran, ⟨slice, sliced, slicedEq, sliceWellFormed, items,
    afterSlice.observes wellFormed, summed, ?_, afterSummary.observes wellFormed⟩,
    ⟨found, sought, soughtEq, afterSeek.observes wellFormed⟩,
    rest, last, suffixEq, restWellFormed, restItems, atEnd.observes wellFormed⟩
  rw [items]
  exact summedEq

end Theorems

/-! ## Concrete runs -/

/-- Into the second leaf, back over the border of the leaves and forward to an item behind it. -/
def roundTrip : List (Move Count) :=
  [.seek (.ofOrd ⟨8⟩) .right, .prev, .prev, .seekForward (.ofOrd ⟨11⟩) .left, .next]

theorem roundTrip_allowed : ListCursor.AllowedRun thirteen.toList .fresh roundTrip :=
  ⟨⟨rfl, monotone_count _ _ _⟩, trivial, trivial, ⟨by decide, rfl, monotone_count _ _ _⟩, trivial, trivial⟩

theorem run_observes_listCursor_roundTrip : ∃ self, (new thirteen : Cursor _ _ Count).run Count roundTrip = .ok self ∧
    Observes thirteen.toList self (.at 11) :=
  run_observes_listCursor Count thirteen_wellFormed (by decide) roundTrip roundTrip_allowed

/-- A seek forward to the very position the cursor is at, after it was moved back past the first
item, ends behind the last item. -/
def lostSeek : List (Move Count) := [.next, .prev, .seekForward (.ofOrd ⟨0⟩) .right]

theorem seekForward_beforeStart_lost : ListCursor.Reaches single.toList 0 (.ofOrd (⟨0⟩ : Count)) .right ∧
    lostSeek.foldl (ListCursor.move single.toList) .fresh = .at 0 ∧ ∃ self,
    (new single : Cursor _ _ Count).run Count lostSeek = .ok self ∧ self.item = .ok none ∧
    self.prevItem = .ok (some 1) ∧ ¬ Observes single.toList self (.at 0) := by
  refine ⟨⟨rfl, monotone_count _ _ _⟩, by decide, _, rfl, rfl, rfl, ?_⟩
  rintro ⟨-, item, -⟩
  cases item

theorem run_slices_listCursor_thirteen :
    ∃ self, (new thirteen : Cursor _ _ Count).run Count [.seek (.ofOrd ⟨4⟩) .right] = .ok self ∧
      (∃ slice moved, self.slice (.ofOrd (⟨9⟩ : Count)) .right = .ok (slice, moved) ∧
        WellFormed slice ∧ slice.toList = [5, 6, 7, 8, 9]) ∧
      ∃ rest moved, self.suffix = .ok (rest, moved) ∧ WellFormed rest ∧
        rest.toList = [5, 6, 7, 8, 9, 10, 11, 12, 13] := by
  obtain ⟨self, ran, ⟨slice, moved, sliced, wellFormed, items, -⟩, -, rest, last, suffix, restWellFormed,
      restItems, -⟩ :=
    run_slices_listCursor Count thirteen_wellFormed (by decide) [Move.seek (.ofOrd ⟨4⟩) .right]
      ⟨⟨rfl, monotone_count _ _ _⟩, trivial⟩ _ rfl (.ofOrd (⟨9⟩ : Count)) .right
      ⟨by decide, rfl, monotone_count _ _ _⟩
  exact ⟨self, ran, ⟨slice, moved, sliced, wellFormed, items⟩, rest, last, suffix, restWellFormed, restItems⟩

/-- In front of the first item, the suffix of the tree is empty and a slice misses what it should
cover. -/
theorem suffix_beforeStart_empty :
    [Move.next, Move.prev (D := Count)].foldl (ListCursor.move single.toList) .fresh = .beforeStart ∧ ∃ self,
    (new single : Cursor _ _ Count).run Count [.next, .prev] = .ok self ∧
    (∃ rest moved, self.suffix = .ok (rest, moved) ∧ rest.toList = [] ∧ rest.toList ≠ single.toList) ∧ ∃ slice moved,
    self.slice (.ofOrd (⟨1⟩ : Count)) .right = .ok (slice, moved) ∧ slice.toList = [] ∧
    slice.toList ≠ (single.toList.take (ListCursor.landing single.toList (.ofOrd (⟨1⟩ : Count)) .right 0)).drop 0 :=
  ⟨by decide, _, rfl, ⟨_, _, rfl, rfl, by decide⟩, _, _, rfl, rfl, by decide⟩

end Cursor
end Pinrail

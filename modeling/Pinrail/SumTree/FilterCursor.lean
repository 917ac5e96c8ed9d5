import Pinrail.SumTree.ListCursor

/-!
# Filter cursors

A filter cursor searches with a filter on summaries and may skip whole subtrees. When the filter
accepts every node above an accepted item, it is a list cursor that stops at accepted items only.
-/

namespace Pinrail
open Lib SumTree Cursor

variable {T S D : Type} [Summary S] [Item T S] [Dimension S D]

/-! ## List cursors that skip items -/

namespace ListCursor

/-- The first index from `i` on whose item is kept, or the end. -/
def keptFrom (keep : T → Bool) (xs : List T) (i : Nat) : Nat :=
  i + ((xs.drop i).takeWhile fun x => !keep x).length

/-- How many items of the first `i` there are up to the last one that is kept. -/
def keptBelow (keep : T → Bool) (xs : List T) (i : Nat) : Nat :=
  ((xs.take i).rdropWhile fun x => !keep x).length

def nextKept (keep : T → Bool) (xs : List T) : ListCursor → ListCursor
  | .at i => .at (keptFrom keep xs (min (i + 1) xs.length))
  | _ => .at (keptFrom keep xs 0)

def prevKept (keep : T → Bool) (xs : List T) : ListCursor → ListCursor
  | .fresh => back xs (keptBelow keep xs xs.length)
  | .beforeStart => .beforeStart
  | .at i => back xs (keptBelow keep xs i)

theorem keptFrom_append (keep : T → Bool) (front rest : List T) : keptFrom keep (front ++ rest) front.length =
      front.length + (rest.takeWhile fun x => !keep x).length := by
  rw [keptFrom, List.drop_left]

theorem keptFrom_spec (keep : T → Bool) (xs : List T) {i : Nat} (inside : i ≤ xs.length) : i ≤ keptFrom keep xs i ∧
    (∀ j, i ≤ j → j < keptFrom keep xs i → ∀ x ∈ xs[j]?, keep x = false) ∧ ∀ x ∈ xs[keptFrom keep xs i]?,
    keep x = true := by
  obtain ⟨front, rest, rfl, rfl⟩ : ∃ front rest, xs = front ++ rest ∧ i = front.length :=
    ⟨xs.take i, xs.drop i, (List.take_append_drop i xs).symm, (List.length_take_of_le inside).symm⟩
  rw [keptFrom_append]
  have split := List.takeWhile_append_dropWhile (p := fun x => !keep x) (l := rest)
  refine ⟨Nat.le_add_right _ _, ?_, ?_⟩
  · intro j low high x found
    rw [List.getElem?_append_right low, ← split, List.getElem?_append_left (by omega)] at found
    simpa using List.mem_takeWhile_imp (List.mem_of_getElem? found)
  · intro x found
    rw [List.getElem?_append_right (Nat.le_add_right _ _), Nat.add_sub_cancel_left] at found
    nth_rewrite 1 [← split] at found
    rw [List.getElem?_append_right (Nat.le_refl _), Nat.sub_self, ← List.head?_eq_getElem?] at found
    have stops := List.head?_dropWhile_not (fun x => !keep x) rest
    rw [Option.mem_def.mp found] at stops
    simpa using stops

theorem keptBelow_spec (keep : T → Bool) (xs : List T) {i : Nat} (inside : i ≤ xs.length) :
    (∀ j, keptBelow keep xs i ≤ j → j < i → ∀ x ∈ xs[j]?, keep x = false) ∧ ∀ k, keptBelow keep xs i = k + 1 →
    ∀ x ∈ xs[k]?, keep x = true := by
  obtain ⟨front, rest, rfl, rfl⟩ : ∃ front rest, xs = front ++ rest ∧ i = front.length :=
    ⟨xs.take i, xs.drop i, (List.take_append_drop i xs).symm, (List.length_take_of_le inside).symm⟩
  rw [keptBelow, List.take_left]
  have split := List.rdropWhile_append_rtakeWhile (p := fun x => !keep x) (l := front)
  refine ⟨?_, ?_⟩
  · intro j low high x found
    rw [List.getElem?_append_left high, ← split, List.getElem?_append_right low] at found
    simpa using List.mem_rtakeWhile_imp (List.mem_of_getElem? found)
  · intro k last x found
    rcases List.eq_nil_or_concat' (front.rdropWhile fun x => !keep x) with none | ⟨init, y, ends⟩
    · rw [none] at last
      cases last
    · have stops := List.rdropWhile_last_not (fun x => !keep x) front (by rw [ends]; simp)
      simp only [ends, List.getLast_append_singleton] at stops
      rw [ends, List.length_append, List.length_singleton] at last
      obtain rfl : init.length = k := Nat.succ.inj last
      rw [← split, ends] at found
      obtain rfl : y = x := by simpa using found
      simpa using stops

end ListCursor

/-! ## The filter cursor -/

structure FilterCursor (T S D : Type) where
  cursor : Cursor T S D
  filterNode : S → Bool

namespace FilterCursor

def new (tree : SumTree T S) (filterNode : S → Bool) : FilterCursor T S D :=
  ⟨Cursor.new tree, filterNode⟩

def start (self : FilterCursor T S D) : D := self.cursor.start

/-- `FilterCursor::end`. -/
def endPosition (self : FilterCursor T S D) : Except Panic D := self.cursor.endPosition

def item (self : FilterCursor T S D) : Except Panic (Option T) := self.cursor.item

def itemSummary (self : FilterCursor T S D) : Except Panic (Option S) := self.cursor.itemSummary

def next (self : FilterCursor T S D) : Except Panic (FilterCursor T S D) := do
  return { self with cursor := ← self.cursor.searchForward self.filterNode }

def prev (self : FilterCursor T S D) : Except Panic (FilterCursor T S D) := do
  return { self with cursor := ← self.cursor.searchBackward self.filterNode }

inductive Call where
  | next
  | prev

def call (self : FilterCursor T S D) : Call → Except Panic (FilterCursor T S D)
  | .next => self.next
  | .prev => self.prev

def run (self : FilterCursor T S D) (calls : List Call) : Except Panic (FilterCursor T S D) :=
  calls.foldlM call self

end FilterCursor

def ListCursor.call (keep : T → Bool) (xs : List T) (self : ListCursor) :
    FilterCursor.Call → ListCursor
  | .next => self.nextKept keep xs
  | .prev => self.prevKept keep xs

namespace ListCursor

def Stops (keep : T → Bool) (xs : List T) (self : ListCursor) : Prop :=
  ∀ i, self = .at i → i ≤ xs.length ∧ ∀ x ∈ xs[i]?, keep x = true

theorem stops_keptFrom (keep : T → Bool) (xs : List T) {i : Nat} (inside : i ≤ xs.length) :
    Stops keep xs (.at (keptFrom keep xs i)) := by
  rintro _ ⟨⟩
  refine ⟨?_, (keptFrom_spec keep xs inside).2.2⟩
  have few := (List.takeWhile_prefix (l := xs.drop i) fun x => !keep x).length_le
  rw [List.length_drop] at few
  rw [keptFrom]
  omega

theorem stops_back (keep : T → Bool) (xs : List T) {i : Nat} (inside : i ≤ xs.length) :
    Stops keep xs (back xs (keptBelow keep xs i)) := by
  have few := (List.rdropWhile_prefix (fun x => !keep x) (xs.take i)).length_le
  rw [List.length_take_of_le inside] at few
  intro k reached
  cases below : keptBelow keep xs i with
  | zero =>
    rw [below, back] at reached
    split_ifs at reached with empty
    cases reached
    simp [List.isEmpty_iff.mp empty]
  | succ n =>
    have kept := (keptBelow_spec keep xs inside).2 n below
    rw [below, back] at reached
    cases reached
    rw [keptBelow] at below
    exact ⟨by omega, kept⟩

theorem Stops.call {keep : T → Bool} {xs : List T} {self : ListCursor} (stops : Stops keep xs self)
    (c : FilterCursor.Call) : Stops keep xs (self.call keep xs c) := by
  cases c with
  | next =>
    cases self with
    | fresh => exact stops_keptFrom keep xs (Nat.zero_le _)
    | beforeStart => exact stops_keptFrom keep xs (Nat.zero_le _)
    | «at» i => exact stops_keptFrom keep xs (Nat.min_le_right _ _)
  | prev =>
    cases self with
    | fresh => exact stops_back keep xs (Nat.le_refl _)
    | beforeStart => exact fun i reached => by cases reached
    | «at» i => exact stops_back keep xs (stops i rfl).1

theorem Stops.run {keep : T → Bool} {xs : List T} {self : ListCursor} (stops : Stops keep xs self)
    (calls : List FilterCursor.Call) : Stops keep xs (calls.foldl (ListCursor.call keep xs) self) := by
  induction calls generalizing self with
  | nil => exact stops
  | cons c calls ih => exact ih (stops.call c)

end ListCursor

def keeps (filterNode : S → Bool) (item : T) : Bool := filterNode (Item.summary item)

namespace Cursor
variable [LawfulSummary S] [LawfulDimension S D] {tree : SumTree T S} {filterNode : S → Bool}
  {self : Cursor T S D} {state : ListCursor}

theorem Represents.nextKept (wellFormed : WellFormed tree) (shallow : Shallow tree)
    (sees : SeesItems (D := D) filterNode tree) (represents : Represents tree self state) : ∃ moved,
    self.searchForward filterNode = .ok moved ∧
    Represents tree moved (state.nextKept (keeps filterNode) tree.toList) := by
  have first : ∀ didSeek, ∃ moved,
      searchForward (⟨tree, [], Dimension.zero S, didSeek, tree.isEmpty⟩ : Cursor T S D) filterNode = .ok moved ∧
      Represents tree moved (.at (ListCursor.keptFrom (keeps filterNode) tree.toList 0)) := by
    intro didSeek
    obtain ⟨moved, searched, rests⟩ := searchForward_start (D := D) shallow sees wellFormed didSeek
    exact ⟨moved, searched, _, _, (Nat.zero_add _).symm, rests⟩
  cases state with
  | fresh =>
    subst represents
    exact first false
  | beforeStart =>
    obtain ⟨nonempty, rfl⟩ := represents
    have moved := first true
    rwa [nonempty] at moved
  | «at» i =>
    obtain ⟨before, after, rfl, rests⟩ := represents
    obtain ⟨moved, searched, rests'⟩ := rests.searchForward shallow sees
    refine ⟨moved, searched, _, _, ?_, rests'⟩
    have split : tree.toList = (before ++ after.take 1) ++ after.drop 1 := by
      rw [List.append_assoc, List.take_append_drop, rests.held]
    have one : min (before.length + 1) tree.toList.length = (before ++ after.take 1).length := by
      rw [rests.held, List.length_append, List.length_append, List.length_take]
      omega
    rw [one, split, ListCursor.keptFrom_append]
    exact List.length_append

theorem Represents.prevKept (wellFormed : WellFormed tree) (shallow : Shallow tree)
    (sees : SeesItems (D := D) filterNode tree) (represents : Represents tree self state) : ∃ moved,
    self.searchBackward filterNode = .ok moved ∧
    Represents tree moved (state.prevKept (keeps filterNode) tree.toList) := by
  cases state with
  | fresh =>
    subst represents
    obtain ⟨moved, searched, landed⟩ := searchBackward_end shallow sees wellFormed
      (Dimension.zero S : D) false tree.isEmpty rfl
    refine ⟨moved, searched, ?_⟩
    rw [ListCursor.prevKept, ListCursor.keptBelow, List.take_length]
    exact landed.represents wellFormed
  | beforeStart =>
    obtain ⟨nonempty, rfl⟩ := represents
    exact ⟨_, searchBackward_beforeStart, nonempty, rfl⟩
  | «at» i =>
    obtain ⟨before, after, rfl, rests⟩ := represents
    obtain ⟨moved, searched, landed⟩ := rests.searchBackward shallow sees wellFormed
    refine ⟨moved, searched, ?_⟩
    rw [ListCursor.prevKept, ListCursor.keptBelow, rests.held, List.take_left, ← rests.held]
    exact landed.represents wellFormed

end Cursor

namespace FilterCursor

variable [LawfulSummary S] [LawfulDimension S D] {tree : SumTree T S} {filterNode : S → Bool}

theorem call_represents (wellFormed : WellFormed tree) (shallow : Shallow tree) {self : FilterCursor T S D}
    (sees : SeesItems (D := D) self.filterNode tree) {state : ListCursor}
    (represents : Represents tree self.cursor state) (c : Call) : ∃ moved, self.call c = .ok moved ∧
    moved.filterNode = self.filterNode ∧
    Represents tree moved.cursor (state.call (keeps self.filterNode) tree.toList c) := by
  cases c with
  | next =>
    obtain ⟨moved, searched, represents'⟩ := represents.nextKept wellFormed shallow sees
    exact ⟨⟨moved, self.filterNode⟩, bind_eq_ok.mpr ⟨_, searched, rfl⟩, rfl, represents'⟩
  | prev =>
    obtain ⟨moved, searched, represents'⟩ := represents.prevKept wellFormed shallow sees
    exact ⟨⟨moved, self.filterNode⟩, bind_eq_ok.mpr ⟨_, searched, rfl⟩, rfl, represents'⟩

theorem run_represents (wellFormed : WellFormed tree) (shallow : Shallow tree) (calls : List Call)
    {self : FilterCursor T S D} (sees : SeesItems (D := D) self.filterNode tree) {state : ListCursor}
    (represents : Represents tree self.cursor state) : ∃ moved, self.run calls = .ok moved ∧
    Represents tree moved.cursor (calls.foldl (ListCursor.call (keeps self.filterNode) tree.toList) state) := by
  induction calls generalizing self state with
  | nil => exact ⟨self, rfl, represents⟩
  | cons c calls ih =>
    obtain ⟨moved, called, same, represents'⟩ := call_represents wellFormed shallow sees represents c
    rw [← same] at sees represents'
    obtain ⟨last, rest, represents''⟩ := ih sees represents'
    rw [same] at represents''
    refine ⟨last, ?_, represents''⟩
    rw [run, List.foldlM_cons, called, ok_bind]
    exact rest

/-- Along every sequence of calls a filter cursor reads what the list cursor reads that goes from
accepted item to accepted item, in order in either direction. -/
theorem run_observes (wellFormed : WellFormed tree) (shallow : Shallow tree)
    (sees : SeesItems (D := D) filterNode tree) (calls : List Call) :
    ∃ self, (new tree filterNode : FilterCursor T S D).run calls = .ok self ∧ Observes tree.toList self.cursor
        (calls.foldl (ListCursor.call (keeps filterNode) tree.toList) .fresh) ∧
      ListCursor.Stops (keeps filterNode) tree.toList
        (calls.foldl (ListCursor.call (keeps filterNode) tree.toList) .fresh) := by
  have fresh : Represents tree (new tree filterNode : FilterCursor T S D).cursor .fresh := rfl
  obtain ⟨self, ran, represents⟩ := run_represents wellFormed shallow calls sees fresh
  refine ⟨self, ran, represents.observes wellFormed, ListCursor.Stops.run ?_ calls⟩
  exact fun i reached => by cases reached

theorem containsEven_sum (items : List Nat) (s : IntegersSummary) :
    ((items.map Item.summary).foldl Summary.addSummary s).containsEven =
      (s.containsEven || items.any fun item => (Item.summary item : IntegersSummary).containsEven) := by
  induction items generalizing s with
  | nil => simp
  | cons item items ih =>
    rw [List.map_cons, List.foldl_cons, ih, List.any_cons, ← Bool.or_assoc]
    rfl

theorem seesItems_containsEven (tree : SumTree Nat IntegersSummary) :
    SeesItems (D := Count) IntegersSummary.containsEven tree := by
  intro stack h node before after trail item mem accepted
  rw [trail.balanced.summary_eq, Summary.sum, containsEven_sum]
  exact Bool.or_eq_true_iff.mpr (.inr (List.any_eq_true.mpr ⟨item, mem, accepted⟩))

/-- The even items of two leaves, forward from the first leaf into the second one and back. -/
theorem run_observes_evens : ∃ self, (new thirteen IntegersSummary.containsEven : FilterCursor _ _ Count).run
        [.next, .next, .next, .next, .prev, .prev] = .ok self ∧
      Observes thirteen.toList self.cursor (.at 3) ∧
      self.cursor.item = .ok (some 4) ∧ self.cursor.start = ⟨3⟩ := by
  obtain ⟨self, ran, observes, -⟩ := run_observes thirteen_wellFormed (by decide)
    (seesItems_containsEven thirteen) [.next, .next, .next, .next, .prev, .prev]
  obtain ⟨-, item, -, -, start, -⟩ := id observes
  exact ⟨self, ran, observes, item, start⟩

/-- A tree of height 16 needs a seventeenth stack entry. -/
theorem run_tooTall : WellFormed (tower 1 16) ∧ SeesItems (D := Count) (fun _ => true) (tower 1 16) ∧
      (new (tower 1 16) fun _ => true : FilterCursor _ _ Count).run [.next] = .error .capacity :=
  ⟨tower_wellFormed 1 16, seesItems_all _, rfl⟩

end FilterCursor
end Pinrail

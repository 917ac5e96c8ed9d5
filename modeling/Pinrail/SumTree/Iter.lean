import Pinrail.Lib.Iterator
import Pinrail.SumTree.ListCursor
import Pinrail.SumTree.Reachable

/-!
# Iterating over a tree

`Iter` is a cursor without a position. Its loop does what the loop of `Cursor::next` does to the
stack, so it is enough to follow a cursor of the dimension `()`.
-/

namespace Pinrail
open Lib SumTree Cursor

variable {T S : Type}

/-- The dimension `()`. -/
instance : Dimension S PUnit where
  zero := ⟨⟩
  addSummary _ _ := ⟨⟩

instance [Summary S] : LawfulDimension S PUnit where
  add_add _ _ _ := rfl

structure Iter (T S : Type) where
  tree : SumTree T S
  stack : List (StackEntry T S PUnit)

def SumTree.iter (self : SumTree T S) : Iter T S := ⟨self, []⟩

namespace Iter

/-- One round of the loop of `Iter::next`. -/
def step : List (StackEntry T S PUnit) × Bool →
    Except Panic ((List (StackEntry T S PUnit) × Bool) ⊕ (Option T × List (StackEntry T S PUnit)))
  | ([], _) => .ok (.inr (none, []))
  | (⟨.internal height summary childSummaries childTrees, i, p⟩ :: rest, descend) => do
    let i := if descend then i else i + 1
    match childTrees[i]? with
    | some subtree =>
      let stack ← insertFront stackCapacity ⟨subtree, 0, ⟨⟩⟩
        (⟨.internal height summary childSummaries childTrees, i, p⟩ :: rest)
      return .inl (stack, true)
    | none => return .inl (rest, false)
  | (⟨.leaf summary items itemSummaries, i, p⟩ :: rest, descend) =>
    let i := if descend then i else i + 1
    match items[i]? with
    | some nextItem => .ok (.inr (some nextItem, ⟨.leaf summary items itemSummaries, i, p⟩ :: rest))
    | none => .ok (.inl (rest, false))

def enter (self : Iter T S) : Except Panic (List (StackEntry T S PUnit) × Bool) :=
  if self.stack.isEmpty then do
    return (← insertFront stackCapacity ⟨self.tree, 0, ⟨⟩⟩ self.stack, true)
  else .ok (self.stack, false)

def next (self : Iter T S) : Except Panic (Option T × Iter T S) := do
  let (item, stack) ← loop (fun s => workAhead s.1 s.2) step (← self.enter)
  return (item, ⟨self.tree, stack⟩)

end Iter

/-- `Iterator::next` of a cursor. -/
def Cursor.iteratorNext [Summary S] {D : Type} [Dimension S D] (self : Cursor T S D) :
    Except Panic (Option T × Cursor T S D) := do
  let self ← if self.didSeek then pure self else self.next
  match ← self.item with
  | some item => return (some item, ← self.next)
  | none => return (none, self)

/-! ## The next item of a cursor -/

variable [Summary S] [Item T S] [LawfulSummary S]

namespace Cursor

variable {D : Type} [Dimension S D] [LawfulDimension S D] {root : SumTree T S}
  {self : Cursor T S D} {before after : List T}

theorem Rests.next (shallow : Shallow root) (rests : Rests root self before after) :
    ∃ moved, self.next = .ok moved ∧ Rests root moved (before ++ after.take 1) (after.drop 1) := by
  obtain ⟨moved, searched, rests'⟩ := rests.searchForward shallow (seesItems_all root)
  rw [takeWhile_rejects_all, dropWhile_rejects_all, List.append_nil] at rests'
  exact ⟨moved, searched, rests'⟩

theorem next_new (wellFormed : WellFormed root) (shallow : Shallow root) :
    ∃ moved, (new root : Cursor T S D).next = .ok moved ∧ Rests root moved [] root.toList := by
  obtain ⟨moved, searched, rests⟩ := searchForward_start (D := D) shallow (seesItems_all root) wellFormed false
  rw [takeWhile_rejects_all, dropWhile_rejects_all] at rests
  exact ⟨moved, searched, rests⟩

omit [LawfulSummary S] [LawfulDimension S D] in
theorem Landed.item_eq (landed : Landed root before self) : self.item = .ok before.getLast? := by
  cases landed with
  | item rests =>
    rw [rests.item_eq]
    simp
  | beforeStart nonempty => rfl
  | empty empty rests => exact rests.item_eq

theorem Rests.prev_landed (wellFormed : WellFormed root) (shallow : Shallow root)
    (rests : Rests root self before after) : ∃ moved, self.prev = .ok moved ∧ Landed root before moved := by
  obtain ⟨moved, searched, landed⟩ := rests.searchBackward shallow (seesItems_all root) wellFormed
  rw [rdropWhile_rejects_all] at landed
  exact ⟨moved, searched, landed⟩

theorem Rests.prev (wellFormed : WellFormed root) (shallow : Shallow root) (rests : Rests root self before after) :
    ∃ moved, self.prev = .ok moved ∧ moved.item = .ok before.getLast? := by
  obtain ⟨moved, stepped, landed⟩ := rests.prev_landed wellFormed shallow
  exact ⟨moved, stepped, landed.item_eq⟩

theorem Rests.yields (shallow : Shallow root) (rests : Rests root self before after) :
    Yields iteratorNext self after := by
  induction after generalizing self before with
  | nil =>
    refine ⟨self, ?_⟩
    rw [iteratorNext, rests.didSeek_eq, if_pos rfl, pure_bind]
    simp only [rests.item_eq, ok_bind]
    rfl
  | cons item after ih =>
    obtain ⟨moved, stepped, rests'⟩ := rests.next shallow
    refine ⟨moved, ?_, ih rests'⟩
    rw [iteratorNext, rests.didSeek_eq, if_pos rfl, pure_bind]
    simp only [rests.item_eq, List.head?_cons, stepped, ok_bind]
    rfl

end Cursor

namespace Cursor

variable {D : Type} [Dimension S D] {root tree : SumTree T S} {self : Cursor T S D}
  {stack : List (StackEntry T S D)} {h : Nat} {before after : List T}

omit [LawfulSummary S] in
theorem Trail.sound (trail : Trail root stack h tree before after) : ∀ entry ∈ stack, WellFormed entry.tree := by
  induction trail with
  | root balanced => simp
  | child parent ih => simpa using ⟨.inr ⟨_, parent.balanced⟩, ih⟩

omit [LawfulSummary S] in
theorem Rests.sound (rests : Rests root self before after) : Sound root self := by
  cases rests with
  | item trail p => exact ⟨rfl, by simpa using ⟨.inr ⟨_, trail.balanced⟩, trail.sound⟩⟩
  | atEnd => exact ⟨rfl, by simp⟩

end Cursor

/-! ## Following a cursor -/

namespace Iter

variable {root : SumTree T S}

omit [LawfulSummary S] in
theorem step_follows {self : Cursor T S PUnit} {descend : Bool} {outcome : (Cursor T S PUnit × Bool) ⊕ Cursor T S PUnit}
    (sound : Sound root self) (seeked : self.didSeek = true)
    (stepped : searchForwardStep (fun _ => true) (self, descend) = .ok outcome) :
    outcome.elim (fun next => next.1.didSeek = true ∧ step (self.stack, descend) = .ok (.inl (next.1.stack, next.2)))
    (fun next => ∃ item, next.item = .ok item ∧ step (self.stack, descend) = .ok (.inr (item, next.stack))) := by
  obtain ⟨tree, stack, position, didSeek, atEnd⟩ := self
  obtain rfl : didSeek = true := seeked
  rcases stack with _ | ⟨⟨node, i, p⟩, rest⟩
  · cases stepped
    exact ⟨none, rfl, rfl⟩
  · have top := sound.2 _ List.mem_cons_self
    have keep : ∀ (summaries : List S) (j : Nat) (q r : PUnit),
        skipRejected (fun _ => true) summaries j q r = (j, q, r) := by
      intro summaries j q r
      cases summaries <;> rfl
    cases node with
    | internal h s ss trees =>
      simp only [searchForwardStep, keep] at stepped
      have moved : (if descend then (i, p) else (i + 1, position)).1 =
          if descend then i else i + 1 := by
        cases descend <;> rfl
      rw [moved] at stepped
      simp only [step]
      cases found : trees[if descend then i else i + 1]? with
      | none =>
        rw [found] at stepped
        cases stepped
        exact ⟨rfl, rfl⟩
      | some subtree =>
        rw [found] at stepped
        obtain ⟨stack, pushed, stepped⟩ := bind_eq_ok.mp stepped
        cases stepped
        refine ⟨rfl, ?_⟩
        simp only [pushed]
        rfl
    | leaf s xs ss =>
      obtain rfl := top.itemSummaries_eq
      simp only [searchForwardStep] at stepped
      obtain ⟨⟨j, q, r⟩, left, stepped⟩ := bind_eq_ok.mp stepped
      have moved : j = if descend then i else i + 1 := by
        cases descend with
        | true =>
          cases left
          rfl
        | false =>
          obtain ⟨summary, -, left⟩ := bind_eq_ok.mp left
          cases left
          rfl
      simp only [keep, List.length_map] at stepped
      simp only [step, ← moved]
      split_ifs at stepped with inside
      · cases stepped
        refine ⟨some xs[j], ?_, ?_⟩
        · simp only [Cursor.item, Cursor.assertDidSeek]
          rw [assert_of trivial, ok_bind, if_neg (Nat.ne_of_lt inside), index_of_lt inside]
          rfl
        · rw [List.getElem?_eq_getElem inside]
      · cases stepped
        refine ⟨rfl, ?_⟩
        rw [List.getElem?_eq_none (Nat.le_of_not_lt inside)]

omit [LawfulSummary S] in
theorem loop_follows {self moved : Cursor T S PUnit} {descend : Bool} (sound : Sound root self)
    (seeked : self.didSeek = true)
    (searched : loop (fun s => workAhead s.1.stack s.2) (searchForwardStep fun _ => true) (self, descend) = .ok moved) :
    ∃ item, moved.item = .ok item ∧
      loop (fun s => workAhead s.1 s.2) step (self.stack, descend) = .ok (item, moved.stack) := by
  unfold loop at searched ⊢
  simp only at searched ⊢
  generalize workAhead self.stack descend + 1 = fuel at searched ⊢
  induction fuel generalizing self descend with
  | zero => cases searched
  | succ fuel ih =>
    obtain ⟨outcome, stepped, searched⟩ := bind_eq_ok.mp searched
    have sound' := searchForwardStep_within hereditary_wellFormed _ sound stepped
    have follows := step_follows sound seeked stepped
    cases outcome with
    | inl next =>
      obtain ⟨seeked', same⟩ := follows
      obtain ⟨item, read, rest⟩ := ih sound' seeked' searched
      refine ⟨item, read, ?_⟩
      rw [loopFor, same, ok_bind]
      exact rest
    | inr next =>
      cases searched
      obtain ⟨item, read, same⟩ := follows
      refine ⟨item, read, ?_⟩
      rw [loopFor, same, ok_bind]
      rfl

theorem next_follows {self : Cursor T S PUnit} {before after : List T} {item : T} (shallow : Shallow root)
    (rests : Cursor.Rests root self before (item :: after)) : ∃ moved,
    next ⟨root, self.stack⟩ = .ok (after.head?, ⟨root, moved.stack⟩) ∧
    Cursor.Rests root moved (before ++ [item]) after := by
  obtain ⟨moved, searched, rests'⟩ := rests.next shallow
  have onStack : self.stack.isEmpty = false := by
    cases rests with
    | item trail p => rfl
  have entered : self.enterForward = .ok (self, false) := by
    rw [Cursor.enterForward, onStack]
    rfl
  have searched' := searched
  rw [Cursor.next, Cursor.searchForward, entered, ok_bind] at searched'
  obtain ⟨read, reads, same⟩ := loop_follows rests.sound rests.didSeek_eq searched'
  refine ⟨moved, ?_, rests'⟩
  cases reads.symm.trans rests'.item_eq
  rw [next, enter]
  simp only [onStack]
  rw [if_neg (by simp), ok_bind, same, ok_bind]
  rfl

theorem next_new (wellFormed : WellFormed root) (shallow : Shallow root) : ∃ moved : Cursor T S PUnit,
    root.iter.next = .ok (root.toList.head?, ⟨root, moved.stack⟩) ∧ Cursor.Rests root moved [] root.toList := by
  obtain ⟨moved, searched, rests⟩ := Cursor.next_new (D := PUnit) wellFormed shallow
  refine ⟨moved, ?_, rests⟩
  rcases wellFormed with rfl | ⟨h, balanced⟩
  · cases searched
    rfl
  · have entered : (Cursor.new root : Cursor T S PUnit).enterForward =
        .ok (⟨root, [⟨root, 0, ⟨⟩⟩], ⟨⟩, true, false⟩, true) := by
      rw [Cursor.new, Cursor.enterForward, balanced.isEmpty_eq]
      rfl
    rw [Cursor.next, Cursor.searchForward, entered, ok_bind] at searched
    have sound : Sound root (⟨root, [⟨root, 0, ⟨⟩⟩], ⟨⟩, true, false⟩ : Cursor T S PUnit) :=
      ⟨rfl, by simpa using .inr ⟨h, balanced⟩⟩
    obtain ⟨read, reads, same⟩ := loop_follows sound rfl searched
    cases reads.symm.trans rests.item_eq
    have begun : root.iter.enter = .ok ([⟨root, 0, ⟨⟩⟩], true) := rfl
    rw [next, begun, ok_bind, same, ok_bind]
    rfl

theorem yields_ahead {self : Cursor T S PUnit} {before after : List T} {item : T} (shallow : Shallow root)
    (rests : Cursor.Rests root self before (item :: after)) : Yields next (⟨root, self.stack⟩ : Iter T S) after := by
  induction after generalizing self before item with
  | nil =>
    obtain ⟨moved, stepped, -⟩ := next_follows shallow rests
    exact ⟨_, stepped⟩
  | cons following after ih =>
    obtain ⟨moved, stepped, rests'⟩ := next_follows shallow rests
    exact ⟨_, stepped, ih rests'⟩

omit [LawfulSummary S] in
theorem balanced_length_le_weight {h : Nat} {tree : SumTree T S} (balanced : Balanced h tree) :
    tree.toList.length ≤ tree.weight := by
  induction balanced with
  | leaf nonempty fits =>
    rw [weight, List.length_map, toList_leaf]
    omega
  | @internal h trees nonempty fits below ih =>
    have all : (toLists trees).length ≤ weights trees := by
      clear nonempty fits
      induction trees with
      | nil => simp [weights]
      | cons tree trees ihs =>
        have first := ih tree (by simp)
        have rest := ihs (fun t mem => below t (by simp [mem])) fun t mem => ih t (by simp [mem])
        rw [toLists_cons, List.length_append, weights]
        omega
    rw [weight, toList_internal]
    omega

theorem yields_toList (wellFormed : WellFormed root) (shallow : Shallow root) : Yields next root.iter root.toList := by
  obtain ⟨moved, stepped, rests⟩ := next_new wellFormed shallow
  cases items : root.toList with
  | nil =>
    rw [items] at stepped
    exact ⟨_, stepped⟩
  | cons item after =>
    rw [items] at stepped rests
    exact ⟨_, stepped, yields_ahead shallow rests⟩

omit [LawfulSummary S] in
theorem length_le_weight (wellFormed : WellFormed root) : root.toList.length ≤ root.weight := by
  rcases wellFormed with rfl | ⟨h, balanced⟩
  · exact Nat.zero_le _
  · exact balanced_length_le_weight balanced

theorem drain_toList (wellFormed : WellFormed root) (shallow : Shallow root) :
    drain next (root.weight + 1) root.iter = .ok root.toList :=
  (yields_toList wellFormed shallow).drain (Nat.lt_succ_of_le (length_le_weight wellFormed))

end Iter
end Pinrail

import Mathlib
import Pinrail.SumTree.Ends

/-!
# Cursors

The cursor of `cursor.rs`: a stack of partly traversed nodes, the position in front of the current
item, and two flags. The four loops that move it are runs of a step function; what bounds each run
is a count of the nodes that are still ahead, so no run is cut short whatever the stack holds.
-/

namespace Pinrail
open Lib SumTree

/-- The capacity of `Cursor::stack`. -/
def stackCapacity : Nat := 16

structure StackEntry (T S D : Type) where
  tree : SumTree T S
  index : Nat
  position : D

structure Cursor (T S D : Type) where
  tree : SumTree T S
  stack : List (StackEntry T S D)
  position : D
  didSeek : Bool
  atEnd : Bool

/-- `SeekTarget::cmp`: how the target compares with a location. -/
structure SeekTarget (D : Type) where
  cmp : D → Ordering

def SeekTarget.ofOrd {D : Type} [Ord D] (location : D) : SeekTarget D := ⟨compare location⟩

/-- The target `End`, which is after every location. -/
def SeekTarget.atEnd {D : Type} : SeekTarget D := ⟨fun _ => .gt⟩

/-- The condition under which a seek moves past a child that ends at `childEnd`. -/
def SeekTarget.passes {D : Type} (target : SeekTarget D) (bias : Bias) (childEnd : D) : Bool :=
  target.cmp childEnd == .gt || (target.cmp childEnd == .eq && bias == .right)

namespace SumTree
variable {T S : Type}

mutual

def weight : SumTree T S → Nat
  | .internal _ _ childSummaries childTrees => childSummaries.length + 2 + weights childTrees
  | .leaf _ _ itemSummaries => itemSummaries.length + 2

def weights : List (SumTree T S) → Nat
  | [] => 0
  | tree :: trees => weight tree + weights trees

end

end SumTree

namespace Cursor
variable {T S D : Type}

/-! ## Reading the cursor -/

section Reading

variable [Summary S] [Dimension S D]

def new (tree : SumTree T S) : Cursor T S D where
  tree := tree
  stack := []
  position := Dimension.zero S
  didSeek := false
  atEnd := tree.isEmpty

def reset (self : Cursor T S D) : Cursor T S D :=
  { self with
    didSeek := false
    atEnd := self.tree.isEmpty
    stack := []
    position := Dimension.zero S }

def start (self : Cursor T S D) : D := self.position

def assertDidSeek (self : Cursor T S D) : Except Panic PUnit := assert (self.didSeek = true)

def item (self : Cursor T S D) : Except Panic (Option T) := do
  self.assertDidSeek
  match self.stack with
  | [] => return none
  | entry :: _ =>
    match entry.tree with
    | .leaf _ items _ =>
      if entry.index = items.length then return none else return some (← index items entry.index)
    | .internal .. => throw .unreachable

def itemSummary (self : Cursor T S D) : Except Panic (Option S) := do
  self.assertDidSeek
  match self.stack with
  | [] => return none
  | entry :: _ =>
    match entry.tree with
    | .leaf _ _ itemSummaries =>
      if entry.index = itemSummaries.length then return none
      else return some (← index itemSummaries entry.index)
    | .internal .. => throw .unreachable

/-- `Cursor::end`. -/
def endPosition (self : Cursor T S D) : Except Panic D := do
  match ← self.itemSummary with
  | some itemSummary => return Dimension.addSummary self.start itemSummary
  | none => return self.start

def nextLeaf : List (StackEntry T S D) → Except Panic (Option (SumTree T S))
  | [] => .ok none
  | entry :: rest => do
    let childTrees ← entry.tree.childTrees
    if entry.index < (← checkedSub childTrees.length 1) then
      return some (← leftmostLeaf (← index childTrees (entry.index + 1)))
    else
      nextLeaf rest

def nextItem (self : Cursor T S D) : Except Panic (Option T) := do
  self.assertDidSeek
  match self.stack with
  | entry :: rest =>
    let items ← entry.tree.items
    if entry.index = (← checkedSub items.length 1) then
      match ← nextLeaf rest with
      | some sibling => return some (← unwrap (← sibling.items).head?)
      | none => return none
    else
      return some (← index items (entry.index + 1))
  | [] => if self.atEnd then return none else self.tree.first

def prevLeaf : List (StackEntry T S D) → Except Panic (Option (SumTree T S))
  | [] => .ok none
  | entry :: rest => do
    if entry.index ≠ 0 then
      let childTrees ← entry.tree.childTrees
      return some (← rightmostLeaf (← index childTrees (entry.index - 1)))
    else
      prevLeaf rest

def prevItem (self : Cursor T S D) : Except Panic (Option T) := do
  self.assertDidSeek
  match self.stack with
  | entry :: rest =>
    if entry.index = 0 then
      match ← prevLeaf rest with
      | some sibling => return some (← unwrap (← sibling.items).getLast?)
      | none => return none
    else
      return some (← index (← entry.tree.items) (entry.index - 1))
  | [] => if self.atEnd then self.tree.last else return none

end Reading

/-! ## Searching -/

section Searching

variable [Summary S] [Dimension S D]

/-- Moves over the children that the filter rejects: the index and the position of the stack entry
move together with the position of the cursor. -/
def skipRejected (filterNode : S → Bool) : List S → Nat → D → D → Nat × D × D
  | [], index, entryPosition, position => (index, entryPosition, position)
  | next :: rest, index, entryPosition, position =>
    if filterNode next then (index, entryPosition, position)
    else
      skipRejected filterNode rest (index + 1) (Dimension.addSummary entryPosition next)
        (Dimension.addSummary position next)

/-- The rounds that a forward loop has left: `descend` tells whether the child that the top entry
points to is still to be visited. -/
def workAhead : List (StackEntry T S D) → Bool → Nat
  | [], _ => 0
  | entry :: rest, descend =>
    1 + weights (entry.tree.children.drop (if descend then entry.index else entry.index + 1)) +
      workAhead rest false

def leaveItem (itemSummaries : List S) (descend : Bool) (i : Nat) (p position : D) :
    Except Panic (Nat × D × D) :=
  if descend then .ok (i, p, position)
  else do
    let itemSummary ← index itemSummaries i
    return (i + 1, Dimension.addSummary p itemSummary, Dimension.addSummary position itemSummary)

/-- One round of the loop of `search_forward`. -/
def searchForwardStep (filterNode : S → Bool) :
    Cursor T S D × Bool → Except Panic ((Cursor T S D × Bool) ⊕ Cursor T S D)
  | (⟨root, [], position, didSeek, _⟩, _) => .ok (.inr ⟨root, [], position, didSeek, true⟩)
  | (⟨root, ⟨.internal height summary childSummaries childTrees, i, p⟩ :: rest, position, didSeek,
      atEnd⟩, descend) => do
      let (i, p) := if descend then (i, p) else (i + 1, position)
      let (i, p, position) := skipRejected filterNode (childSummaries.drop i) i p position
      match childTrees[i]? with
      | some subtree =>
        let stack ← insertFront stackCapacity ⟨subtree, 0, position⟩
          (⟨.internal height summary childSummaries childTrees, i, p⟩ :: rest)
        return .inl (⟨root, stack, position, didSeek, atEnd⟩, true)
      | none => return .inl (⟨root, rest, position, didSeek, atEnd⟩, false)
  | (⟨root, ⟨.leaf summary items itemSummaries, i, p⟩ :: rest, position, didSeek, atEnd⟩,
      descend) => do
      let (i, p, position) ← leaveItem itemSummaries descend i p position
      let (i, p, position) := skipRejected filterNode (itemSummaries.drop i) i p position
      if i < itemSummaries.length then
        return .inr ⟨root, ⟨.leaf summary items itemSummaries, i, p⟩ :: rest, position, didSeek, atEnd⟩
      else
        return .inl (⟨root, rest, position, didSeek, atEnd⟩, false)

/-- What `search_forward` does before its loop, with the initial value of `descend`. -/
def enterForward (self : Cursor T S D) : Except Panic (Cursor T S D × Bool) :=
  if self.stack.isEmpty then
    if self.atEnd then .ok ({ self with didSeek := true }, false)
    else do
      let stack ← insertFront stackCapacity ⟨self.tree, 0, Dimension.zero S⟩ self.stack
      return ({ self with stack := stack, didSeek := true }, true)
  else .ok (self, false)

def searchForward (self : Cursor T S D) (filterNode : S → Bool) :
    Except Panic (Cursor T S D) := do
  loop (fun s => workAhead s.1.stack s.2) (searchForwardStep filterNode) (← self.enterForward)

def next (self : Cursor T S D) : Except Panic (Cursor T S D) := self.searchForward fun _ => true

/-- The rounds that the loop of `search_backward` has left. -/
def workBehind : List (StackEntry T S D) → Bool → Nat
  | [], _ => 0
  | entry :: rest, descending =>
    let index := if descending then entry.index + 1 else entry.index
    1 + index + weights (entry.tree.children.take index) + workBehind rest false

def startOfTop : List (StackEntry T S D) → D
  | [] => Dimension.zero S
  | parent :: _ => parent.position

/-- Moves in front of child `i` of the node on top of the stack, and into it when the filter accepts
it. -/
def visitBackward (filterNode : S → Bool) (root tree : SumTree T S) (i : Nat)
    (rest : List (StackEntry T S D)) (didSeek atEnd : Bool) :
    Except Panic ((Cursor T S D × Bool) ⊕ Cursor T S D) := do
  let position := (← sliceTo tree.childSummaries i).foldl Dimension.addSummary (startOfTop rest)
  let descending := filterNode (← index tree.childSummaries i)
  match tree with
  | .internal _ _ _ childTrees =>
    if descending then
      let child ← index childTrees i
      let last ← checkedSub child.childSummaries.length 1
      let stack ← insertFront stackCapacity ⟨child, last, Dimension.zero S⟩
        (⟨tree, i, position⟩ :: rest)
      return .inl (⟨root, stack, position, didSeek, atEnd⟩, descending)
    else
      return .inl (⟨root, ⟨tree, i, position⟩ :: rest, position, didSeek, atEnd⟩, descending)
  | .leaf .. =>
    if descending then
      return .inr ⟨root, ⟨tree, i, position⟩ :: rest, position, didSeek, atEnd⟩
    else
      return .inl (⟨root, ⟨tree, i, position⟩ :: rest, position, didSeek, atEnd⟩, descending)

/-- One round of the loop of `search_backward`. -/
def searchBackwardStep (filterNode : S → Bool) :
    Cursor T S D × Bool → Except Panic ((Cursor T S D × Bool) ⊕ Cursor T S D)
  | (⟨root, [], position, didSeek, atEnd⟩, _) => .ok (.inr ⟨root, [], position, didSeek, atEnd⟩)
  | (⟨root, ⟨tree, i, _⟩ :: rest, _, didSeek, atEnd⟩, true) =>
    visitBackward filterNode root tree i rest didSeek atEnd
  | (⟨root, ⟨tree, i, _⟩ :: rest, _, didSeek, atEnd⟩, false) =>
    match i with
    | 0 => .ok (.inl (⟨root, rest, startOfTop rest, didSeek, atEnd⟩, false))
    | i + 1 => visitBackward filterNode root tree i rest didSeek atEnd

/-- What `search_backward` does before its loop. -/
def enterBackward (self : Cursor T S D) : Except Panic (Cursor T S D) :=
  let atEnd := !self.didSeek || self.atEnd
  if atEnd then
    if self.tree.isEmpty then
      .ok { self with didSeek := true, position := Dimension.zero S, atEnd := true }
    else do
      let stack ← insertFront stackCapacity
        ⟨self.tree, self.tree.childSummaries.length,
          Dimension.addSummary (Dimension.zero S) self.tree.summary⟩ self.stack
      return { self with
        didSeek := true
        position := Dimension.zero S
        atEnd := false
        stack := stack }
  else .ok self

def searchBackward (self : Cursor T S D) (filterNode : S → Bool) :
    Except Panic (Cursor T S D) := do
  let self ← self.enterBackward
  loop (fun s => workBehind s.1.stack s.2) (searchBackwardStep filterNode) (self, false)

def prev (self : Cursor T S D) : Except Panic (Cursor T S D) := self.searchBackward fun _ => true

end Searching

/-! ## Seeking -/

/-- `SeekAggregate`: what is told about the items that a seek moves past. -/
structure SeekAggregate (T S A : Type) where
  beginLeaf : A → A
  endLeaf : A → Except Panic A
  pushItem : A → T → S → Except Panic A
  pushTree : A → SumTree T S → S → Except Panic A

section Seeking

variable [Summary S] [Dimension S D] {A : Type}

/-- The loop of `seek_internal` over the children of an internal node: the child to descend into, if
any, and the index and the position of the stack entry. -/
def seekChildren (target : SeekTarget D) (bias : Bias) (aggregate : SeekAggregate T S A) :
    List (SumTree T S × S) → Nat → D → D → A →
    Except Panic (Option (SumTree T S) × Nat × D × D × A)
  | [], index, entryPosition, position, a => .ok (none, index, entryPosition, position, a)
  | (childTree, childSummary) :: rest, index, entryPosition, position, a => do
    let childEnd := Dimension.addSummary position childSummary
    if target.passes bias childEnd then
      let a ← aggregate.pushTree a childTree childSummary
      seekChildren target bias aggregate rest (index + 1) childEnd childEnd a
    else
      return (some childTree, index, entryPosition, position, a)

/-- The loop of `seek_internal` over the items of a leaf: whether it stops in front of one. -/
def seekItems (target : SeekTarget D) (bias : Bias) (aggregate : SeekAggregate T S A) :
    List (T × S) → Nat → D → A → Except Panic (Bool × Nat × D × A)
  | [], index, position, a => .ok (false, index, position, a)
  | (item, itemSummary) :: rest, index, position, a => do
    let childEnd := Dimension.addSummary position itemSummary
    if target.passes bias childEnd then
      let a ← aggregate.pushItem a item itemSummary
      seekItems target bias aggregate rest (index + 1) childEnd a
    else
      return (true, index, position, a)

/-- One round of the loop of `seek_internal`. -/
def seekStep (target : SeekTarget D) (bias : Bias) (aggregate : SeekAggregate T S A) :
    Cursor T S D × Bool × A → Except Panic ((Cursor T S D × Bool × A) ⊕ (Cursor T S D × A))
  | (⟨root, [], position, didSeek, atEnd⟩, _, a) =>
    .ok (.inr (⟨root, [], position, didSeek, atEnd⟩, a))
  | (⟨root, ⟨.internal height summary childSummaries childTrees, i, p⟩ :: rest, position, didSeek,
      atEnd⟩, ascending, a) => do
      let (i, p) := if ascending then (i + 1, position) else (i, p)
      let trees ← sliceFrom childTrees i
      let summaries ← sliceFrom childSummaries i
      match ← seekChildren target bias aggregate (trees.zip summaries) i p position a with
      | (some childTree, i, p, position, a) =>
        let stack ← insertFront stackCapacity ⟨childTree, 0, position⟩
          (⟨.internal height summary childSummaries childTrees, i, p⟩ :: rest)
        return .inl (⟨root, stack, position, didSeek, atEnd⟩, false, a)
      | (none, _, _, position, a) =>
        return .inl (⟨root, rest, position, didSeek, atEnd⟩, true, a)
  | (⟨root, ⟨.leaf summary items itemSummaries, i, p⟩ :: rest, position, didSeek, atEnd⟩, _,
      a) => do
      let remaining ← sliceFrom items i
      let summaries ← sliceFrom itemSummaries i
      let (stopped, i, position, a) ← seekItems target bias aggregate (remaining.zip summaries) i
        position (aggregate.beginLeaf a)
      let a ← aggregate.endLeaf a
      if stopped then
        return .inr (⟨root, ⟨.leaf summary items itemSummaries, i, p⟩ :: rest, position, didSeek, atEnd⟩, a)
      else
        return .inl (⟨root, rest, position, didSeek, atEnd⟩, true, a)

def restsOnLeaf (self : Cursor T S D) : Bool :=
  match self.stack with
  | [] => true
  | entry :: _ => entry.tree.isLeaf

/-- What `seek_internal` does before its loop. -/
def enterSeek (self : Cursor T S D) : Except Panic (Cursor T S D) :=
  if self.didSeek then .ok self
  else do
    let stack ← insertFront stackCapacity ⟨self.tree, 0, Dimension.zero S⟩ self.stack
    return { self with didSeek := true, stack := stack }

def foundAt (self : Cursor T S D) (bias : Bias) : Except Panic D :=
  if bias = .left then self.endPosition else .ok self.position

def seekInternal (self : Cursor T S D) (target : SeekTarget D) (bias : Bias)
    (aggregate : SeekAggregate T S A) (a : A) : Except Panic (Bool × Cursor T S D × A) := do
  assert ((target.cmp self.position).isGE = true)
  let self ← self.enterSeek
  let (self, a) ← loop (fun s => workAhead s.1.stack (!s.2.1)) (seekStep target bias aggregate)
    (self, false, a)
  let self := { self with atEnd := self.stack.isEmpty }
  assert (self.restsOnLeaf = true)
  return (target.cmp (← self.foundAt bias) == .eq, self, a)

/-- The aggregate `()`. -/
def ignore : SeekAggregate T S PUnit where
  beginLeaf := id
  endLeaf := .ok
  pushItem a _ _ := .ok a
  pushTree a _ _ := .ok a

structure SliceSeekAggregate (T S : Type) where
  tree : SumTree T S
  leafItems : List T
  leafItemSummaries : List S
  leafSummary : S

def SliceSeekAggregate.empty : SliceSeekAggregate T S := ⟨SumTree.new, [], [], Summary.zero⟩

def collectSlice : SeekAggregate T S (SliceSeekAggregate T S) where
  beginLeaf := id
  endLeaf a := do
    let tree ← a.tree.append (.leaf a.leafSummary a.leafItems a.leafItemSummaries)
    return ⟨tree, [], [], Summary.zero⟩
  pushItem a item itemSummary := do
    let leafItems ← push nodeCapacity a.leafItems item
    let leafItemSummaries ← push nodeCapacity a.leafItemSummaries itemSummary
    return ⟨a.tree, leafItems, leafItemSummaries, Summary.addSummary a.leafSummary itemSummary⟩
  pushTree a tree _ := do
    return { a with tree := ← a.tree.append tree }

/-- `SummarySeekAggregate`. -/
def collectSummary {Output : Type} [Dimension S Output] : SeekAggregate T S Output where
  beginLeaf := id
  endLeaf := .ok
  pushItem a _ itemSummary := .ok (Dimension.addSummary a itemSummary)
  pushTree a _ summary := .ok (Dimension.addSummary a summary)

def seek (self : Cursor T S D) (target : SeekTarget D) (bias : Bias) :
    Except Panic (Bool × Cursor T S D) := do
  let (found, self, _) ← self.reset.seekInternal target bias ignore ⟨⟩
  return (found, self)

def seekForward (self : Cursor T S D) (target : SeekTarget D) (bias : Bias) :
    Except Panic (Bool × Cursor T S D) := do
  let (found, self, _) ← self.seekInternal target bias ignore ⟨⟩
  return (found, self)

def slice (self : Cursor T S D) (target : SeekTarget D) (bias : Bias) :
    Except Panic (SumTree T S × Cursor T S D) := do
  let (_, self, a) ← self.seekInternal target bias collectSlice .empty
  return (a.tree, self)

def suffix (self : Cursor T S D) : Except Panic (SumTree T S × Cursor T S D) :=
  self.slice .atEnd .right

/-- `Cursor::summary`. -/
def summaryTo (Output : Type) [Dimension S Output] (self : Cursor T S D) (target : SeekTarget D)
    (bias : Bias) : Except Panic (Output × Cursor T S D) := do
  let (_, self, a) ← self.seekInternal target bias collectSummary (Dimension.zero S : Output)
  return (a, self)

end Seeking

end Cursor
end Pinrail

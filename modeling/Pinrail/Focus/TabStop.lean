import Mathlib.Data.List.Lex
import Mathlib.Data.Prod.Lex
import Pinrail.SumTree.Stocked

/-!
# Tab stops

`TabStopMap` of `tab_stop.rs`: the focus handles of a frame in a sum tree, ordered by the path of
tab indices that leads to each of them and then by the order of insertion.
-/

namespace Pinrail
open Lib SumTree Cursor

/-- A key of a `SlotMap`: a slot and the version of its use. -/
structure FocusId where
  idx : Fin (2 ^ 32)
  version : Nat
deriving DecidableEq

structure FocusHandle where
  id : FocusId
  tabIndex : Int
  tabStop : Bool
deriving DecidableEq

inductive TabStopOperation where
  | insert (focusHandle : FocusHandle)
  | group (tabIndex : Int)
  | groupEnd
deriving DecidableEq

def TabStopOperation.focusHandle : TabStopOperation → Option FocusHandle
  | .insert focusHandle => some focusHandle
  | _ => none

structure TabStopNode where
  /-- The groups around the handle, and its own tab index last. -/
  path : List Int
  nodeInsertionIndex : Nat
  tabStop : Bool
deriving DecidableEq

namespace TabStopNode

def default : TabStopNode := ⟨[], 0, false⟩

/-- What nodes are ordered by: the path, lexicographically, and then the insertion index. -/
def rank (self : TabStopNode) : List Int ×ₗ Nat := toLex (self.path, self.nodeInsertionIndex)

/-- `tab_stop` takes no part in the order, though it does in the derived equality. -/
instance : Ord TabStopNode where
  compare self other := cmp self.rank other.rank

end TabStopNode

structure TabStopOrderNodeSummary where
  maxIndex : Nat
  maxPath : List Int
  tabStops : Nat

instance : Summary TabStopOrderNodeSummary where
  zero := ⟨0, [], 0⟩
  addSummary self summary := ⟨summary.maxIndex, summary.maxPath, self.tabStops + summary.tabStops⟩

instance : LawfulSummary TabStopOrderNodeSummary where
  assoc a b c := by simp [Summary.addSummary, Nat.add_assoc]
  zero_add a := by simp [Summary.addSummary, Summary.zero]

instance : Item TabStopNode TabStopOrderNodeSummary where
  summary self := ⟨self.nodeInsertionIndex, self.path, if self.tabStop then 1 else 0⟩

instance : KeyedItem TabStopNode TabStopNode where
  key self := self

instance : Dimension TabStopOrderNodeSummary TabStopNode where
  zero := .default
  addSummary self summary := { self with nodeInsertionIndex := summary.maxIndex, path := summary.maxPath }

instance : LawfulDimension TabStopOrderNodeSummary TabStopNode where
  add_add _ _ _ := rfl

structure TabStopMap where
  currentPath : List Int
  insertionHistory : List TabStopOperation
  byId : FocusId → Option TabStopNode
  order : SumTree TabStopNode TabStopOrderNodeSummary

namespace TabStopMap

abbrev NodeCursor := Cursor TabStopNode TabStopOrderNodeSummary TabStopNode

def default : TabStopMap := ⟨[], [], fun _ => none, .new⟩

def insert (self : TabStopMap) (focusHandle : FocusHandle) : Except Panic TabStopMap := do
  let insertionHistory := self.insertionHistory ++ [.insert focusHandle]
  let order : TabStopNode :=
    { nodeInsertionIndex := insertionHistory.length - 1
      tabStop := focusHandle.tabStop
      path := self.currentPath ++ [focusHandle.tabIndex] }
  let (_, tree) ← self.order.insertOrReplace order
  return { self with
    insertionHistory := insertionHistory
    byId := Function.update self.byId focusHandle.id (some order)
    order := tree }

def beginGroup (self : TabStopMap) (tabIndex : Int) : TabStopMap :=
  { self with
    insertionHistory := self.insertionHistory ++ [.group tabIndex]
    currentPath := self.currentPath ++ [tabIndex] }

def endGroup (self : TabStopMap) : TabStopMap :=
  { self with
    insertionHistory := self.insertionHistory ++ [.groupEnd]
    currentPath := self.currentPath.dropLast }

def clear (_ : TabStopMap) : TabStopMap := default

def perform (self : TabStopMap) : TabStopOperation → Except Panic TabStopMap
  | .insert focusHandle => self.insert focusHandle
  | .group tabIndex => .ok (self.beginGroup tabIndex)
  | .groupEnd => .ok self.endGroup

def replay (self : TabStopMap) (nodes : List TabStopOperation) : Except Panic TabStopMap :=
  nodes.foldlM perform self

def focusHandleForOrder (self : TabStopMap) (order : TabStopNode) :
    Except Panic (Option FocusHandle) := do
  let handle := (← index self.insertionHistory order.nodeInsertionIndex).focusHandle
  assert (handle.isSome = true)
  return handle

def tabNodeForFocusId (self : TabStopMap) (focusedId : FocusId) : Option TabStopNode :=
  self.byId focusedId

def skipStep (move : NodeCursor → Except Panic NodeCursor) (cursor : NodeCursor) :
    Except Panic (NodeCursor ⊕ NodeCursor) := do
  match ← cursor.item with
  | some item => if item.tabStop then return .inr cursor else return .inl (← move cursor)
  | none => return .inr cursor

/-- The first tab stop that `move` leads to from `node`. -/
def inner (move : NodeCursor → Except Panic NodeCursor) (self : TabStopMap) (node : TabStopNode) :
    Except Panic (Option TabStopNode) := do
  let (_, cursor) ← (Cursor.new self.order : NodeCursor).seek (.ofOrd node) .left
  let cursor ← loopFor (skipStep move) (self.order.weight + 1) (← move cursor)
  cursor.item

def nextInner (self : TabStopMap) (node : TabStopNode) : Except Panic (Option TabStopNode) :=
  inner Cursor.next self node

def prevInner (self : TabStopMap) (node : TabStopNode) : Except Panic (Option TabStopNode) :=
  inner Cursor.prev self node

/-- `and_then` on `focus_handle_for_order`. -/
def handleFor (self : TabStopMap) : Option TabStopNode → Except Panic (Option FocusHandle)
  | some order => self.focusHandleForOrder order
  | none => .ok none

/-- Where a walk that begins at the node `edge` comes to first. -/
def enter (self : TabStopMap) (edge : Option TabStopNode)
    (inner : TabStopNode → Except Panic (Option TabStopNode)) :
    Except Panic (Option FocusHandle) :=
  match edge with
  | none => .ok none
  | some node => do
    if node.tabStop then self.focusHandleForOrder node
    else self.handleFor (← inner node)

def travel (self : TabStopMap) (edge : Except Panic (Option TabStopNode))
    (inner : TabStopNode → Except Panic (Option TabStopNode)) (focusedId : Option FocusId) :
    Except Panic (Option FocusHandle) := do
  match focusedId.bind self.tabNodeForFocusId with
  | none => self.enter (← edge) inner
  | some node =>
    match ← inner node with
    | some item => self.focusHandleForOrder item
    | none => self.enter (← edge) inner

def next (self : TabStopMap) (focusedId : Option FocusId) : Except Panic (Option FocusHandle) :=
  self.travel self.order.first self.nextInner focusedId

def prev (self : TabStopMap) (focusedId : Option FocusId) : Except Panic (Option FocusHandle) :=
  self.travel self.order.last self.prevInner focusedId

end TabStopMap

/-! ## The order of a frame -/

/-- The nodes of the handles that a sequence of operations inserts, each with its handle; `path`
holds the open groups and `i` operations came before. -/
def placed : List Int → Nat → List TabStopOperation → List (TabStopNode × FocusHandle)
  | _, _, [] => []
  | path, i, .insert handle :: nodes =>
    (⟨path ++ [handle.tabIndex], i, handle.tabStop⟩, handle) :: placed path (i + 1) nodes
  | path, i, .group tabIndex :: nodes => placed (path ++ [tabIndex]) (i + 1) nodes
  | path, i, .groupEnd :: nodes => placed path.dropLast (i + 1) nodes

def tabOrder (nodes : List TabStopOperation) : List FocusHandle :=
  ((placed [] 0 nodes).insertionSort fun a b => a.1.rank ≤ b.1.rank).map Prod.snd

def openPath : List Int → List TabStopOperation → List Int
  | path, [] => path
  | path, .insert _ :: nodes => openPath path nodes
  | path, .group tabIndex :: nodes => openPath (path ++ [tabIndex]) nodes
  | path, .groupEnd :: nodes => openPath path.dropLast nodes

theorem placed_append (path : List Int) (i : Nat) (first rest : List TabStopOperation) :
    placed path i (first ++ rest) = placed path i first ++ placed (openPath path first) (i + first.length) rest := by
  induction first generalizing path i with
  | nil => simp [placed, openPath]
  | cons node first ih =>
    have shift : i + 1 + first.length = i + (first.length + 1) := by omega
    cases node <;> simp [placed, openPath, ih, shift]

theorem openPath_append (path : List Int) (first rest : List TabStopOperation) :
    openPath path (first ++ rest) = openPath (openPath path first) rest := by
  induction first generalizing path with
  | nil => rfl
  | cons node first ih => cases node <;> simp [openPath, ih]

theorem placed_spec {path : List Int} {i : Nat} {nodes : List TabStopOperation} {node : TabStopNode}
    {handle : FocusHandle} (member : (node, handle) ∈ placed path i nodes) : node.tabStop = handle.tabStop ∧
    i ≤ node.nodeInsertionIndex ∧ nodes[node.nodeInsertionIndex - i]? = some (.insert handle) := by
  induction nodes generalizing path i with
  | nil => cases member
  | cons operation nodes ih =>
    have later : ∀ path', (node, handle) ∈ placed path' (i + 1) nodes → node.tabStop = handle.tabStop ∧
        i ≤ node.nodeInsertionIndex ∧ (operation :: nodes)[node.nodeInsertionIndex - i]? = some (.insert handle) := by
      intro path' member'
      obtain ⟨stop, low, found⟩ := ih member'
      refine ⟨stop, by omega, ?_⟩
      rw [show node.nodeInsertionIndex - i = node.nodeInsertionIndex - (i + 1) + 1 by omega]
      exact found
    cases operation with
    | insert first =>
      rcases List.mem_cons.mp member with same | member
      · cases same
        simp
      · exact later _ member
    | group tabIndex => exact later _ member
    | groupEnd => exact later _ member

theorem handles_placed (path : List Int) (i : Nat) (nodes : List TabStopOperation) :
    (placed path i nodes).map Prod.snd = nodes.filterMap TabStopOperation.focusHandle := by
  induction nodes generalizing path i with
  | nil => rfl
  | cons node nodes ih =>
    cases node <;> simp [placed, TabStopOperation.focusHandle, List.filterMap_cons, ih]

end Pinrail

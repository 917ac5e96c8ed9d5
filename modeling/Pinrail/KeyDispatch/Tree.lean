import Mathlib.Data.List.Basic
import Mathlib.Logic.Function.Basic
import Pinrail.Keymap.Context
import Pinrail.Lib.Loop

/-!
# The dispatch tree of a frame

How `DispatchTree` of `key_dispatch.rs` is built: nodes in a flat vector with links to their parents,
and three stacks for the path to the active node. The hash maps are functions.
-/

namespace Pinrail.KeyDispatch
open Lib Keymap

structure DispatchNode (F V L : Type) where
  keyListeners : List L := []
  actionListeners : List L := []
  modifiersChangedListeners : List L := []
  context : Option KeyContext := none
  focusId : Option F := none
  viewId : Option V := none
  parent : Option Nat := none
deriving DecidableEq

structure DispatchTree (F V L : Type) where
  nodeStack : List Nat
  contextStack : List KeyContext
  viewStack : List V
  nodes : List (DispatchNode F V L)
  focusableNodeIds : F → Option Nat
  viewNodeIds : V → Option Nat

structure ReusedSubtree where
  oldRange : Nat × Nat
  newRange : Nat × Nat
  containsFocus : Bool
deriving DecidableEq

namespace DispatchTree
variable {F V L : Type}

def new : DispatchTree F V L := ⟨[], [], [], [], fun _ => none, fun _ => none⟩

def activeNodeId (self : DispatchTree F V L) : Option Nat := self.nodeStack.getLast?

/-- An assignment through `active_node`. -/
def modifyActiveNode (self : DispatchTree F V L) (f : DispatchNode F V L → DispatchNode F V L) :
    Except Panic (DispatchTree F V L) := do
  let nodeId ← unwrap self.activeNodeId
  let node ← index self.nodes nodeId
  return { self with nodes := self.nodes.set nodeId (f node) }

def pushNode (self : DispatchTree F V L) : Nat × DispatchTree F V L :=
  let parent := self.nodeStack.getLast?
  let nodeId := self.nodes.length
  (nodeId, { self with
    nodes := self.nodes ++ [{ parent := parent }]
    nodeStack := self.nodeStack ++ [nodeId] })

def popNode (self : DispatchTree F V L) : Except Panic (DispatchTree F V L) := do
  let node ← index self.nodes (← unwrap self.activeNodeId)
  return { self with
    contextStack := if node.context.isSome then self.contextStack.dropLast else self.contextStack
    viewStack := if node.viewId.isSome then self.viewStack.dropLast else self.viewStack
    nodeStack := self.nodeStack.dropLast }

def setKeyContext (self : DispatchTree F V L) (context : KeyContext) :
    Except Panic (DispatchTree F V L) := do
  let self ← self.modifyActiveNode fun node => { node with context := some context }
  return { self with contextStack := self.contextStack ++ [context] }

def setFocusId [DecidableEq F] (self : DispatchTree F V L) (focusId : F) :
    Except Panic (DispatchTree F V L) := do
  let nodeId ← unwrap self.nodeStack.getLast?
  let node ← index self.nodes nodeId
  return { self with
    nodes := self.nodes.set nodeId { node with focusId := some focusId }
    focusableNodeIds := Function.update self.focusableNodeIds focusId (some nodeId) }

def setViewId [DecidableEq V] (self : DispatchTree F V L) (viewId : V) :
    Except Panic (DispatchTree F V L) :=
  if self.viewStack.getLast? ≠ some viewId then do
    let nodeId ← unwrap self.nodeStack.getLast?
    let node ← index self.nodes nodeId
    return { self with
      nodes := self.nodes.set nodeId { node with viewId := some viewId }
      viewNodeIds := Function.update self.viewNodeIds viewId (some nodeId)
      viewStack := self.viewStack ++ [viewId] }
  else .ok self

/-! ## Jumping to a node -/

/-- One round of the first loop of `set_active_node`. -/
def popStep (nextNodeParent : Option Nat) (self : DispatchTree F V L) :
    Except Panic (DispatchTree F V L ⊕ DispatchTree F V L) :=
  if self.nodeStack.getLast? ≠ nextNodeParent ∧ self.nodeStack ≠ [] then do
    return .inl (← self.popNode)
  else return .inr self

/-- One round of the second loop: the node under the current id is put on the stacks, which grow in the
wrong direction. -/
def climbStep : DispatchTree F V L × Option Nat →
    Except Panic ((DispatchTree F V L × Option Nat) ⊕ DispatchTree F V L)
  | (self, none) => return .inr self
  | (self, some nodeId) => do
    let node ← index self.nodes nodeId
    let self := { self with
      contextStack := self.contextStack ++ node.context.toList
      viewStack := self.viewStack ++ node.viewId.toList
      nodeStack := self.nodeStack ++ [nodeId] }
    return .inl (self, node.parent)

/-- Bounds the rounds of a walk to the root when every parent comes before its children. -/
def roundsFrom : Option Nat → Nat
  | none => 0
  | some nodeId => nodeId + 1

def setActiveNode (self : DispatchTree F V L) (nodeId : Nat) : Except Panic (DispatchTree F V L) := do
  let nextNodeParent := (← index self.nodes nodeId).parent
  let self ← loop (fun tree => tree.nodeStack.length) (popStep nextNodeParent) self
  if self.nodeStack.getLast? = nextNodeParent then
    let activeNode ← index self.nodes nodeId
    return { self with
      nodeStack := self.nodeStack ++ [nodeId]
      viewStack := self.viewStack ++ activeNode.viewId.toList
      contextStack := self.contextStack ++ activeNode.context.toList }
  else
    assert (self.nodeStack.length = 0)
    let self ← loop (fun s => roundsFrom s.2) climbStep (self, some nodeId)
    return { self with
      contextStack := self.contextStack.reverse
      viewStack := self.viewStack.reverse
      nodeStack := self.nodeStack.reverse }

/-- One round of the loop of `dispatch_path`. -/
def pathStep (self : DispatchTree F V L) : List Nat × Option Nat →
    Except Panic ((List Nat × Option Nat) ⊕ List Nat)
  | (dispatchPath, none) => return .inr dispatchPath
  | (dispatchPath, some nodeId) =>
    return .inl (dispatchPath ++ [nodeId], self.nodes[nodeId]?.bind DispatchNode.parent)

def dispatchPath (self : DispatchTree F V L) (target : Nat) : Except Panic (List Nat) := do
  let dispatchPath ← loop (fun s => roundsFrom s.2) self.pathStep ([], some target)
  return dispatchPath.reverse

/-! ## Reusing a subtree -/

section Reuse
variable [DecidableEq F] [DecidableEq V]

def moveNode (self : DispatchTree F V L) (source : DispatchNode F V L) :
    Except Panic (DispatchTree F V L × DispatchNode F V L) := do
  let (_, self) := self.pushNode
  let self ← source.context.elim (.ok self) self.setKeyContext
  let self ← source.focusId.elim (.ok self) self.setFocusId
  let self ← source.viewId.elim (.ok self) self.setViewId
  let self ← self.modifyActiveNode fun target => { target with
    keyListeners := source.keyListeners
    actionListeners := source.actionListeners
    modifiersChangedListeners := source.modifiersChangedListeners }
  return (self, { source with
    keyListeners := []
    actionListeners := []
    modifiersChangedListeners := [] })

def popToParent (parent : Option Nat) :
    List Nat → DispatchTree F V L → Except Panic (List Nat × DispatchTree F V L)
  | [], self => .ok ([], self)
  | sourceAncestor :: sourceStack, self =>
    if parent = some sourceAncestor then .ok (sourceAncestor :: sourceStack, self)
    else do popToParent parent sourceStack (← self.popNode)

/-- The loop over the nodes of the source, of which the first has the given id; returns the stack of
the source that is left, whether the focus was seen, and the nodes without their listeners. -/
def reuseNodes (focus : Option F) :
    List (DispatchNode F V L) → Nat → DispatchTree F V L → List Nat → Bool →
    Except Panic (DispatchTree F V L × List Nat × Bool × List (DispatchNode F V L))
  | [], _, self, sourceStack, containsFocus => .ok (self, sourceStack, containsFocus, [])
  | sourceNode :: sourceNodes, sourceNodeId, self, sourceStack, containsFocus => do
    let (sourceStack, self) ← popToParent sourceNode.parent sourceStack self
    let containsFocus :=
      containsFocus || (sourceNode.focusId.isSome && sourceNode.focusId == focus)
    let (self, moved) ← self.moveNode sourceNode
    let (self, sourceStack, containsFocus, rest) ←
      reuseNodes focus sourceNodes (sourceNodeId + 1) self (sourceNodeId :: sourceStack) containsFocus
    return (self, sourceStack, containsFocus, moved :: rest)

def reuseSubtree (self : DispatchTree F V L) (oldRange : Nat × Nat) (source : DispatchTree F V L)
    (focus : Option F) :
    Except Panic (ReusedSubtree × DispatchTree F V L × DispatchTree F V L) := do
  let length := oldRange.2 - oldRange.1
  let newRange := (self.nodes.length, self.nodes.length + length)
  let (self, sourceStack, containsFocus, moved) ←
    reuseNodes focus ((source.nodes.drop oldRange.1).take length) oldRange.1 self [] false
  let self ← sourceStack.foldlM (fun self _ => self.popNode) self
  let source := { source with
    nodes := source.nodes.take oldRange.1 ++ moved ++ source.nodes.drop (oldRange.1 + moved.length) }
  return (⟨oldRange, newRange, containsFocus⟩, self, source)

/-! ## Truncating -/

/-- What `truncate` does to the maps for one of the nodes that go. -/
def forget (self : DispatchTree F V L) (node : DispatchNode F V L) : DispatchTree F V L :=
  { self with
    focusableNodeIds := node.focusId.elim self.focusableNodeIds fun focusId =>
        Function.update self.focusableNodeIds focusId none
    viewNodeIds := node.viewId.elim self.viewNodeIds fun viewId =>
        Function.update self.viewNodeIds viewId none }

def truncate (self : DispatchTree F V L) (i : Nat) : Except Panic (DispatchTree F V L) := do
  let removed ← sliceFrom self.nodes i
  let self := removed.foldl forget self
  return { self with nodes := self.nodes.take i }

end Reuse

end DispatchTree
end Pinrail.KeyDispatch

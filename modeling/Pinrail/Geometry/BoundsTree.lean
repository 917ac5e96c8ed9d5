import Pinrail.Geometry.Bounds
import Pinrail.Lib.Rust

/-!
# The bounds tree

`BoundsTree` of `bounds_tree.rs`: an R-tree in an arena that gives new bounds an order above all the
bounds they meet. The two stacks that the source keeps between calls are cleared before every use
and are local here.
-/

namespace Pinrail.Geometry

open Lib

variable {U : Type} [Add U] [Sub U] [LinearOrder U]

def maxChildren : Nat := 12

inductive NodeKind where
  | leaf (order : Nat)
  /-- The indices of the children, one of the highest order last. -/
  | internal (children : List Nat)
deriving DecidableEq

structure Node (U : Type) where
  bounds : Bounds U
  maxOrder : Nat
  kind : NodeKind
deriving DecidableEq

structure BoundsTree (U : Type) where
  nodes : List (Node U) := []
  root : Option Nat := none
  maxLeaf : Option Nat := none

namespace BoundsTree

/-! ## Searching -/

def searchFor (nodes : List (Node U)) (query : Bounds U) :
    Nat → List (Node U) → Nat → Except Panic Nat
  | 0, _, _ => throw .outOfFuel
  | _ + 1, [], maxFound => return maxFound
  | fuel + 1, node :: stack, maxFound =>
    if node.maxOrder ≤ maxFound then searchFor nodes query fuel stack maxFound
    else if !query.intersects node.bounds then searchFor nodes query fuel stack maxFound
    else
      match node.kind with
      | .leaf order => searchFor nodes query fuel stack (max maxFound order)
      | .internal children => do
        let children ← children.mapM fun childIdx => index nodes childIdx
        let better := children.filter fun child => child.maxOrder > maxFound
        searchFor nodes query fuel (better.reverse ++ stack) maxFound

def findMaxOrdering (self : BoundsTree U) (query : Bounds U) : Except Panic Nat :=
  match self.root with
  | none => return 0
  | some rootIdx => do
    let slowPath : Except Panic Nat := do
      let root ← index self.nodes rootIdx
      searchFor self.nodes query (self.nodes.length + 1) [root] 0
    match self.maxLeaf with
    | some maxIdx => do
      let maxNode ← index self.nodes maxIdx
      if query.intersects maxNode.bounds then return maxNode.maxOrder else slowPath
    | none => slowPath

/-! ## Inserting a leaf -/

def maxEnd (order siblingOrder newIdx siblingIdx : Nat) : List Nat :=
  if order > siblingOrder then [siblingIdx, newIdx] else [newIdx, siblingIdx]

structure Best (U : Type) where
  childIdx : Nat
  childPos : Nat
  cost : U

def costOf (bounds : Bounds U) (child : Node U) : U := (bounds.union child.bounds).halfPerimeter

def betterChild (nodes : List (Node U)) (bounds : Bounds U) (best : Best U) (entry : Nat × Nat) :
    Except Panic (Best U) := do
  let child ← index nodes entry.1
  if costOf bounds child < best.cost then return ⟨entry.1, entry.2, costOf bounds child⟩
  else return best

def bestChild (nodes : List (Node U)) (bounds : Bounds U) (children : List Nat) :
    Except Panic (Best U) := do
  let firstIdx ← index children 0
  let first ← index nodes firstIdx
  (children.zipIdx.drop 1).foldlM (betterChild nodes bounds) ⟨firstIdx, 0, costOf bounds first⟩

/-- The leaf joins the children of `current`. -/
def addLeaf (nodes : List (Node U)) (currentIdx : Nat) (current : Node U) (children : List Nat)
    (bounds : Bounds U) (order newLeafIdx : Nat) : Except Panic (List (Node U)) := do
  let pushed ← push maxChildren children newLeafIdx
  let children ←
    if order ≤ current.maxOrder then do
      let last ← checkedSub pushed.length 1
      let beforeLast ← checkedSub last 1
      swap pushed beforeLast last
    else pure pushed
  return nodes.set currentIdx ⟨current.bounds.union bounds, max current.maxOrder order, .internal children⟩

/-- The full node `current` gets a new internal node over the leaf `best` and the new leaf. -/
def splitLeaf (nodes : List (Node U)) (currentIdx : Nat) (current : Node U) (children : List Nat)
    (best : Best U) (sibling : Node U) (bounds : Bounds U) (order newLeafIdx : Nat) :
    Except Panic (List (Node U)) := do
  let newChildren := maxEnd order sibling.maxOrder newLeafIdx best.childIdx
  let newInternalIdx := nodes.length
  let newInternalMax := max sibling.maxOrder order
  let nodes := nodes ++ [⟨sibling.bounds.union bounds, newInternalMax, .internal newChildren⟩]
  let replaced := children.set best.childPos newInternalIdx
  let children ←
    if newInternalMax > current.maxOrder then do
      let last ← checkedSub replaced.length 1
      swap replaced best.childPos last
    else pure replaced
  return nodes.set currentIdx { current with kind := .internal children }

/-- The descent to the node that receives the leaf: the nodes after it, and the path to it. -/
def descendFor (bounds : Bounds U) (order newLeafIdx : Nat) (nodes : List (Node U)) :
    Nat → List Nat → Nat → Except Panic (List (Node U) × List Nat)
  | 0, _, _ => throw .outOfFuel
  | fuel + 1, path, currentIdx => do
    let current ← index nodes currentIdx
    match current.kind with
    | .leaf _ => throw .unreachable
    | .internal children =>
      let best ← bestChild nodes bounds children
      let child ← index nodes best.childIdx
      match child.kind with
      | .leaf _ =>
        let nodes ←
          if children.length < maxChildren then
            addLeaf nodes currentIdx current children bounds order newLeafIdx
          else splitLeaf nodes currentIdx current children best child bounds order newLeafIdx
        return (nodes, path ++ [currentIdx])
      | .internal _ =>
        descendFor bounds order newLeafIdx nodes fuel (path ++ [currentIdx]) best.childIdx

def moveToEnd (children : List Nat) (childIdx : Nat) : Except Panic (List Nat) :=
  match children.findIdx? (· == childIdx) with
  | none => return children
  | some pos => do
    let last ← checkedSub children.length 1
    if pos ≠ last then swap children pos last else return children

def propagateStep (bounds : Bounds U) (order : Nat) (state : List (Node U) × Option Nat)
    (nodeIdx : Nat) : Except Panic (List (Node U) × Option Nat) := do
  let node ← index state.1 nodeIdx
  let grown := { node with bounds := node.bounds.union bounds }
  let updated ←
    if node.maxOrder < order then
      match state.2, node.kind with
      | some childIdx, .internal children => do
        let children ← moveToEnd children childIdx
        pure { grown with maxOrder := order, kind := .internal children }
      | _, _ => pure { grown with maxOrder := order }
    else pure grown
  return (state.1.set nodeIdx updated, some nodeIdx)

def insertLeaf (self : BoundsTree U) (bounds : Bounds U) (order : Nat) :
    Except Panic (Nat × BoundsTree U) := do
  let newLeafIdx := self.nodes.length
  let nodes := self.nodes ++ [⟨bounds, order, .leaf order⟩]
  match self.root with
  | none => return (newLeafIdx, { self with nodes, root := some newLeafIdx })
  | some rootIdx =>
    let root ← index nodes rootIdx
    match root.kind with
    | .leaf _ =>
      let newRoot : Node U := ⟨root.bounds.union bounds, max root.maxOrder order,
        .internal (maxEnd order root.maxOrder newLeafIdx rootIdx)⟩
      return (newLeafIdx, { self with nodes := nodes ++ [newRoot], root := some nodes.length })
    | .internal _ =>
      let (nodes, path) ← descendFor bounds order newLeafIdx nodes (nodes.length + 1) [] rootIdx
      let (nodes, _) ← path.reverse.foldlM (propagateStep bounds order) (nodes, none)
      return (newLeafIdx, { self with nodes })

def insert (self : BoundsTree U) (newBounds : Bounds U) : Except Panic (Nat × BoundsTree U) := do
  let maxIntersecting ← self.findMaxOrdering newBounds
  let ordering ← checkedAdd 32 maxIntersecting 1
  let (newLeafIdx, self) ← self.insertLeaf newBounds ordering
  let maxLeaf ←
    match self.maxLeaf with
    | none => pure newLeafIdx
    | some oldIdx => do
      let old ← index self.nodes oldIdx
      pure (if old.maxOrder < ordering then newLeafIdx else oldIdx)
  return (ordering, { self with maxLeaf := some maxLeaf })

def clear (_ : BoundsTree U) : BoundsTree U := {}

end BoundsTree

end Pinrail.Geometry

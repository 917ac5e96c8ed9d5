import Pinrail.Lib.Loop

/-!
# The sum tree

The data model of `sum_tree.rs`: a B+ tree whose nodes cache summaries. A summary type is taken at
one fixed context, so that `zero(cx)` and `add_summary(_, cx)` are a constant and a binary
operation. `Arc` sharing is invisible here, and trees are plain values.
-/

namespace Pinrail
open Lib

/-- `TREE_BASE` of a build without `cfg(test)`. -/
def treeBase : Nat := 6

/-- The capacity `2 * TREE_BASE` of the vectors in a node. -/
def nodeCapacity : Nat := 2 * treeBase

class Summary (S : Type) where
  zero : S
  addSummary : S → S → S

class LawfulSummary (S : Type) [Summary S] : Prop where
  assoc : ∀ a b c : S, Summary.addSummary (Summary.addSummary a b) c = Summary.addSummary a (Summary.addSummary b c)
  zero_add : ∀ a : S, Summary.addSummary Summary.zero a = a

class Item (T : Type) (S : outParam Type) where
  summary : T → S

class Dimension (S : Type) (D : Type) where
  zero : D
  addSummary : D → S → D

class LawfulDimension (S : Type) [Summary S] (D : Type) [Dimension S D] : Prop where
  add_add : ∀ (d : D) (a b : S), Dimension.addSummary (Dimension.addSummary d a) b =
      Dimension.addSummary d (Summary.addSummary a b)

instance Summary.toDimension (S : Type) [Summary S] : Dimension S S where
  zero := Summary.zero
  addSummary := Summary.addSummary

instance (S : Type) [Summary S] [LawfulSummary S] : LawfulDimension S S where
  add_add := LawfulSummary.assoc

inductive Bias where
  | left
  | right
deriving DecidableEq

/-- `SumTree(Arc<Node>)`. -/
inductive SumTree (T S : Type) where
  | internal (height : Nat) (summary : S) (childSummaries : List S) (childTrees : List (SumTree T S))
  | leaf (summary : S) (items : List T) (itemSummaries : List S)

/-! ## Sums of summaries -/

namespace Summary
variable {S : Type} [Summary S]

def sum (summaries : List S) : S := summaries.foldl addSummary zero

variable [LawfulSummary S]

theorem sum_singleton (a : S) : sum [a] = a := LawfulSummary.zero_add a

theorem foldl_add (a b : S) (rest : List S) :
    (b :: rest).foldl addSummary a = addSummary a (rest.foldl addSummary b) := by
  induction rest generalizing b with
  | nil => rfl
  | cons c rest ih =>
    have regroup : addSummary (addSummary a b) c = addSummary a (addSummary b c) := LawfulSummary.assoc a b c
    rw [List.foldl_cons, List.foldl_cons, regroup, List.foldl_cons]
    exact ih (addSummary b c)

theorem sum_cons (a : S) (rest : List S) : sum (a :: rest) = rest.foldl addSummary a := by
  rw [sum, List.foldl_cons, LawfulSummary.zero_add]

theorem sum_append (left right : List S) (nonempty : right ≠ []) :
    sum (left ++ right) = addSummary (sum left) (sum right) := by
  obtain ⟨b, rest, rfl⟩ := List.exists_cons_of_ne_nil nonempty
  rw [sum, List.foldl_append, foldl_add, sum_cons]
  rfl

theorem sum_map_sum (parts : List (List S)) (nonempty : ∀ part ∈ parts, part ≠ []) :
    sum (parts.map sum) = sum parts.flatten := by
  induction parts with
  | nil => rfl
  | cons part parts ih =>
    have rest := ih fun p mem => nonempty p (List.mem_cons_of_mem _ mem)
    rw [List.map_cons, List.flatten_cons]
    cases parts with
    | nil => simp [sum_singleton]
    | cons next parts =>
      have nextNonempty : next ≠ [] := nonempty next (by simp)
      have tailNonempty : (next :: parts).flatten ≠ [] := by simp [nextNonempty]
      rw [sum_append _ _ tailNonempty, ← rest]
      have split := sum_append [sum part] ((next :: parts).map sum) (by simp)
      rwa [sum_singleton] at split

end Summary

/-! ## Nodes -/

namespace SumTree
variable {T S : Type}

/-- `SumTree::new`. -/
def new [Summary S] : SumTree T S := .leaf Summary.zero [] []

def isLeaf : SumTree T S → Bool
  | .leaf .. => true
  | .internal .. => false

def height : SumTree T S → Nat
  | .internal height .. => height
  | .leaf .. => 0

def summary : SumTree T S → S
  | .internal _ summary .. => summary
  | .leaf summary .. => summary

def childSummaries : SumTree T S → List S
  | .internal _ _ childSummaries _ => childSummaries
  | .leaf _ _ itemSummaries => itemSummaries

/-- `Node::child_trees`, which panics on a leaf. -/
def childTrees : SumTree T S → Except Panic (List (SumTree T S))
  | .internal _ _ _ childTrees => .ok childTrees
  | .leaf .. => .error .unreachable

/-- `Node::items`, which panics on an internal node. -/
def items : SumTree T S → Except Panic (List T)
  | .leaf _ items _ => .ok items
  | .internal .. => .error .unreachable

def children : SumTree T S → List (SumTree T S)
  | .internal _ _ _ childTrees => childTrees
  | .leaf .. => []

def isUnderflowing : SumTree T S → Bool
  | .internal _ _ _ childTrees => childTrees.length < treeBase
  | .leaf _ items _ => items.length < treeBase

def isEmpty : SumTree T S → Bool
  | .internal .. => false
  | .leaf _ items _ => items.isEmpty

@[simp] theorem height_internal (h : Nat) (s : S) (ss : List S) (trees : List (SumTree T S)) :
    (SumTree.internal h s ss trees).height = h := rfl

@[simp] theorem children_internal (h : Nat) (s : S) (ss : List S) (trees : List (SumTree T S)) :
    (SumTree.internal h s ss trees).children = trees := rfl

@[simp] theorem items_leaf (s : S) (xs : List T) (ss : List S) :
    (SumTree.leaf s xs ss).items = .ok xs := rfl

@[simp] theorem childSummaries_internal (h : Nat) (s : S) (ss : List S)
    (trees : List (SumTree T S)) : (SumTree.internal h s ss trees).childSummaries = ss := rfl

@[simp] theorem childSummaries_leaf (s : S) (xs : List T) (ss : List S) :
    (SumTree.leaf s xs ss).childSummaries = ss := rfl

/-! ## The items below a node -/

mutual

def toList : SumTree T S → List T
  | .internal _ _ _ childTrees => toLists childTrees
  | .leaf _ items _ => items

def toLists : List (SumTree T S) → List T
  | [] => []
  | tree :: trees => toList tree ++ toLists trees

end

@[simp] theorem toList_internal (h : Nat) (s : S) (ss : List S) (trees : List (SumTree T S)) :
    (SumTree.internal h s ss trees).toList = toLists trees := rfl

@[simp] theorem toList_leaf (s : S) (xs : List T) (ss : List S) :
    (SumTree.leaf s xs ss).toList = xs := rfl

@[simp] theorem toLists_nil : toLists ([] : List (SumTree T S)) = [] := rfl

@[simp] theorem toLists_cons (tree : SumTree T S) (trees : List (SumTree T S)) :
    toLists (tree :: trees) = tree.toList ++ toLists trees := rfl

@[simp] theorem toLists_append (left right : List (SumTree T S)) :
    toLists (left ++ right) = toLists left ++ toLists right := by
  induction left with
  | nil => rfl
  | cons tree left ih => simp [ih]

theorem toLists_eq_flatten (trees : List (SumTree T S)) : toLists trees = (trees.map toList).flatten := by
  induction trees with
  | nil => rfl
  | cons tree trees ih => simp [ih]

@[simp] theorem toList_new [Summary S] : (new : SumTree T S).toList = [] := rfl

/-! ## Well-formed trees -/

variable [Summary S] [Item T S]

/-- A non-empty subtree of height `h`: its leaves are all at depth `h`, its nodes hold between one
and `2 * TREE_BASE` entries, and every cached summary is what it caches. -/
inductive Balanced : Nat → SumTree T S → Prop where
  | leaf {items : List T} (nonempty : items ≠ []) (fits : items.length ≤ nodeCapacity) :
      Balanced 0 (.leaf (Summary.sum (items.map Item.summary)) items (items.map Item.summary))
  | internal {h : Nat} {trees : List (SumTree T S)} (nonempty : trees ≠ [])
      (fits : trees.length ≤ nodeCapacity) (below : ∀ tree ∈ trees, Balanced h tree) :
      Balanced (h + 1) (.internal (h + 1) (Summary.sum ((toLists trees).map Item.summary)) (trees.map summary) trees)

def WellFormed (tree : SumTree T S) : Prop := tree = new ∨ ∃ h, Balanced h tree

namespace Balanced
variable {h : Nat} {tree : SumTree T S}

theorem internal_eq {h' : Nat} {s : S} {ss : List S} {trees : List (SumTree T S)}
    (balanced : Balanced h (.internal h' s ss trees)) : trees ≠ [] ∧ ∃ k, h = k + 1 ∧ h' = k + 1 := by
  cases balanced with
  | internal nonempty fits below => exact ⟨nonempty, _, rfl, rfl⟩

theorem height_eq (balanced : Balanced h tree) : tree.height = h := by
  cases balanced <;> rfl

theorem summary_eq (balanced : Balanced h tree) : tree.summary = Summary.sum (tree.toList.map Item.summary) := by
  cases balanced <;> rfl

theorem toList_ne_nil (balanced : Balanced h tree) : tree.toList ≠ [] := by
  induction balanced with
  | leaf nonempty fits => exact nonempty
  | internal nonempty fits below ih =>
    obtain ⟨first, rest, rfl⟩ := List.exists_cons_of_ne_nil nonempty
    simp [ih first (by simp)]

theorem isEmpty_eq (balanced : Balanced h tree) : tree.isEmpty = false := by
  cases balanced with
  | leaf nonempty fits => simpa [isEmpty] using nonempty
  | internal nonempty fits below => rfl

theorem childSummaries_eq {s : S} {ss : List S} {trees : List (SumTree T S)} {h' : Nat}
    (balanced : Balanced h (.internal h' s ss trees)) : ss = trees.map summary := by
  cases balanced with
  | internal nonempty fits below => rfl

theorem child {s : S} {ss : List S} {trees : List (SumTree T S)} {h' : Nat}
    (balanced : Balanced (h + 1) (.internal h' s ss trees)) : ∀ tree ∈ trees, Balanced h tree := by
  cases balanced with
  | internal nonempty fits below => exact below

theorem childTrees_fit {s : S} {ss : List S} {trees : List (SumTree T S)} {h' : Nat}
    (balanced : Balanced h (.internal h' s ss trees)) : trees.length ≤ nodeCapacity := by
  cases balanced with
  | internal nonempty fits below => exact fits

theorem items_fit {s : S} {xs : List T} {ss : List S} (balanced : Balanced h (.leaf s xs ss)) :
    xs.length ≤ nodeCapacity := by
  cases balanced with
  | leaf nonempty fits => exact fits

theorem itemSummaries_eq {s : S} {xs : List T} {ss : List S}
    (balanced : Balanced h (.leaf s xs ss)) : ss = xs.map Item.summary := by
  cases balanced with
  | leaf nonempty fits => rfl

end Balanced

theorem balanced_leaf (items : List T) (nonempty : items ≠ []) (fits : items.length ≤ nodeCapacity) :
    Balanced 0 (.leaf (Summary.sum (items.map Item.summary)) items (items.map (Item.summary : T → S))) :=
  .leaf nonempty fits

variable [LawfulSummary S]

theorem sum_map_summary {h : Nat} {trees : List (SumTree T S)} (below : ∀ tree ∈ trees, Balanced h tree) :
    Summary.sum (trees.map summary) = Summary.sum ((toLists trees).map Item.summary) := by
  have parts : trees.map summary = (trees.map fun tree => tree.toList.map Item.summary).map Summary.sum := by
    rw [List.map_map]
    exact List.map_congr_left fun tree mem => (below tree mem).summary_eq
  rw [parts, Summary.sum_map_sum, toLists_eq_flatten, List.map_flatten, List.map_map]
  · rfl
  · intro part mem
    obtain ⟨tree, member, rfl⟩ := List.mem_map.mp mem
    simpa using (below tree member).toList_ne_nil

theorem balanced_internal {h : Nat} {trees : List (SumTree T S)} (nonempty : trees ≠ [])
    (fits : trees.length ≤ nodeCapacity) (below : ∀ tree ∈ trees, Balanced h tree) :
    Balanced (h + 1) (.internal (h + 1) (Summary.sum (trees.map summary)) (trees.map summary) trees) := by
  rw [sum_map_summary below]
  exact .internal nonempty fits below

end SumTree
end Pinrail

import Mathlib.Tactic.Ring
import Pinrail.Lib.Chunks
import Pinrail.SumTree.Append

/-!
# Building trees from sequences

`from_iter` fills leaves and then parents from the left, so the last node of every level may hold a
single entry. `from_par_iter` builds the same levels out of the chunks of a parallel iterator,
which keep the order of the items.
-/

namespace Pinrail.SumTree
open Lib Summary

variable {T S : Type} [Summary S] [Item T S]

def leafNode (chunk : List T) : Except Panic (SumTree T S) := do
  let items ← collect nodeCapacity chunk
  let itemSummaries ← collect nodeCapacity (items.map Item.summary)
  let first ← index itemSummaries 0
  return .leaf ((itemSummaries.drop 1).foldl addSummary first) items itemSummaries

/-- One round of `while iter.peek().is_some()`. -/
def leafNodesStep : List T × List (SumTree T S) →
    Except Panic ((List T × List (SumTree T S)) ⊕ List (SumTree T S))
  | ([], nodes) => .ok (.inr nodes)
  | (rest, nodes) => do
    let node ← leafNode (rest.take nodeCapacity)
    return .inl (rest.drop nodeCapacity, nodes ++ [node])

def leafNodes (items : List T) : Except Panic (List (SumTree T S)) :=
  loop (fun state => state.1.length) leafNodesStep (items, [])

/-- One round of `for child_node in nodes.drain(..)`: the finished parents and
`current_parent_node`. -/
def addChild (height : Nat) (state : List (SumTree T S) × Option (SumTree T S))
    (child : SumTree T S) : Except Panic (List (SumTree T S) × Option (SumTree T S)) := do
  match state.2.getD (.internal height zero [] []) with
  | .leaf .. => throw .unreachable
  | .internal height summary childSummaries childTrees =>
    let childSummaries ← push nodeCapacity childSummaries child.summary
    let childTrees ← push nodeCapacity childTrees child
    let parent := .internal height (addSummary summary child.summary) childSummaries childTrees
    if childTrees.length = nodeCapacity then
      return (state.1 ++ [parent], none)
    else
      return (state.1, some parent)

def parentNodes (height : Nat) (nodes : List (SumTree T S)) :
    Except Panic (List (SumTree T S)) := do
  let (parents, current) ← nodes.foldlM (addChild height) ([], none)
  return parents ++ current.toList

/-- One round of `while nodes.len() > 1`. -/
def levelStep (parents : Nat → List (SumTree T S) → Except Panic (List (SumTree T S))) :
    Nat × List (SumTree T S) →
    Except Panic ((Nat × List (SumTree T S)) ⊕ List (SumTree T S)) := fun (height, nodes) => do
  if nodes.length > 1 then
    let height ← checkedAdd 8 height 1
    let nodes ← parents height nodes
    return .inl (height, nodes)
  else
    return .inr nodes

def root (nodes : List (SumTree T S)) : Except Panic (SumTree T S) := do
  if nodes.isEmpty then
    return new
  else
    assert (nodes.length = 1)
    unwrap nodes.getLast?

def fromIter (items : List T) : Except Panic (SumTree T S) := do
  let nodes ← leafNodes items
  let nodes ← loop (fun state => state.2.length) (levelStep parentNodes) (0, nodes)
  root nodes

/-! ## The parallel builder -/

def parentNode (height : Nat) (childNodes : List (SumTree T S)) : Except Panic (SumTree T S) := do
  let childTrees ← collect nodeCapacity childNodes
  let childSummaries ← collect nodeCapacity (childTrees.map summary)
  let first ← index childSummaries 0
  return .internal height ((childSummaries.drop 1).foldl addSummary first) childSummaries childTrees

def parentChunks (height : Nat) (nodes : List (SumTree T S)) :
    Except Panic (List (SumTree T S)) :=
  (chunks nodeCapacity nodes).mapM (parentNode height)

def fromParIter (items : List T) : Except Panic (SumTree T S) := do
  let nodes ← (chunks nodeCapacity items).mapM leafNode
  let nodes ← loop (fun state => state.2.length) (levelStep parentChunks) (0, nodes)
  root nodes

def extend (self : SumTree T S) (items : List T) : Except Panic (SumTree T S) := do
  append self (← fromIter items)

/-! ## Leaves -/

variable [LawfulSummary S]

theorem foldl_tail {α : Type} (f : α → S) (xs : List α) (nonempty : xs ≠ []) : ∃ first, index (xs.map f) 0 = .ok first ∧
    ((xs.map f).drop 1).foldl addSummary first = sum (xs.map f) := by
  obtain ⟨x, rest, rfl⟩ := List.exists_cons_of_ne_nil nonempty
  exact ⟨f x, rfl, by rw [List.map_cons, sum_cons]; rfl⟩

theorem leafNode_spec (chunk : List T) (nonempty : chunk ≠ []) (fits : chunk.length ≤ nodeCapacity) :
    ∃ node : SumTree T S, leafNode chunk = .ok node ∧ Balanced 0 node ∧ node.toList = chunk := by
  obtain ⟨first, found, folded⟩ := foldl_tail (Item.summary : T → S) chunk nonempty
  refine ⟨_, ?_, balanced_leaf chunk nonempty fits, rfl⟩
  simp only [leafNode]
  rw [collect_of_le fits, ok_bind, collect_of_le (by simpa using fits), ok_bind, found, ok_bind, folded]
  rfl

theorem leafNodes_spec (items : List T) :
    ∃ nodes : List (SumTree T S), leafNodes items = .ok nodes ∧ Pieces 0 items nodes ∧ nodes.length ≤ items.length := by
  have capacity : 0 < nodeCapacity := by decide
  refine loop_returns (fun state => ∃ done, Pieces 0 done state.2 ∧ done ++ state.1 = items ∧
      state.2.length ≤ done.length)
    (fun nodes => Pieces 0 items nodes ∧ nodes.length ≤ items.length) ?_ (items, [])
    ⟨[], ⟨by simp, rfl⟩, rfl, by simp⟩
  rintro ⟨rest, nodes⟩ ⟨done, ⟨balanced, held⟩, split, count⟩
  cases rest with
  | nil =>
    rw [List.append_nil] at split
    subst split
    exact ⟨⟨balanced, held⟩, count⟩
  | cons x rest =>
    obtain ⟨node, built, nodeBalanced, nodeItems⟩ :=
      leafNode_spec (S := S) ((x :: rest).take nodeCapacity) (by simp; omega) (by rw [List.length_take]; omega)
    simp only [leafNodesStep, built, ok_bind, pure, Except.pure, StepSpec]
    refine ⟨⟨done ++ (x :: rest).take nodeCapacity, ⟨?_, ?_⟩, ?_, ?_⟩, ?_⟩
    · intro tree mem
      rcases List.mem_append.mp mem with mem | mem
      · exact balanced tree mem
      · rwa [List.mem_singleton.mp mem]
    · simp [held, nodeItems]
    · simpa using split
    · simp only [List.length_append, List.length_take, List.length_cons, List.length_nil] at count ⊢
      omega
    · simp only [List.length_drop, List.length_cons]
      omega

/-! ## Parents -/

def Lifts (h : Nat) (nodes parents : List (SumTree T S)) : Prop :=
  Pieces (h + 1) (toLists nodes) parents ∧ nodeCapacity * parents.length + 1 ≤ nodes.length + nodeCapacity

/-- `current_parent_node` while it is being filled. -/
def Partial (h : Nat) (trees : List (SumTree T S)) : Option (SumTree T S) → Prop
  | none => trees = []
  | some parent => trees ≠ [] ∧ trees.length < nodeCapacity ∧
      parent = .internal (h + 1) (sum (trees.map summary)) (trees.map summary) trees

omit [Item T S] [LawfulSummary S] in
theorem Partial.room {h : Nat} {trees : List (SumTree T S)} {current : Option (SumTree T S)}
    (filling : Partial h trees current) : trees.length < nodeCapacity := by
  cases current with
  | none =>
    obtain rfl : trees = [] := filling
    exact (by decide : 0 < nodeCapacity)
  | some parent => exact filling.2.1

omit [Item T S] [LawfulSummary S] in
theorem addChild_partial {h : Nat} {parents trees : List (SumTree T S)}
    {current : Option (SumTree T S)} (filling : Partial h trees current)
    (child : SumTree T S) :
    addChild (h + 1) (parents, current) child =
      if trees.length + 1 = nodeCapacity then
        .ok (parents ++ [.internal (h + 1) (sum ((trees ++ [child]).map summary))
          ((trees ++ [child]).map summary) (trees ++ [child])], none)
      else
        .ok (parents, some (.internal (h + 1) (sum ((trees ++ [child]).map summary))
          ((trees ++ [child]).map summary) (trees ++ [child]))) := by
  have node : current.getD (.internal (h + 1) zero [] []) =
      .internal (h + 1) (sum (trees.map summary)) (trees.map summary) trees := by
    cases current with
    | none =>
      obtain rfl : trees = [] := filling
      rfl
    | some parent => exact filling.2.2
  have room := filling.room
  have total : addSummary (sum (trees.map summary)) child.summary = sum ((trees ++ [child]).map summary) := by
    rw [List.map_append, sum, sum, List.foldl_append]
    rfl
  simp only [addChild, node]
  rw [push_of_lt (by simpa using room), ok_bind, push_of_lt room, ok_bind, total]
  simp only [List.map_append, List.map_cons, List.map_nil, List.length_append, List.length_cons, List.length_nil]
  split_ifs <;> rfl

theorem addChildren_spec {h : Nat} (nodes : List (SumTree T S))
    (balanced : ∀ node ∈ nodes, Balanced h node) (parents trees : List (SumTree T S))
    (current : Option (SumTree T S)) (filling : Partial h trees current)
    (below : ∀ tree ∈ trees, Balanced h tree) (done : ∀ parent ∈ parents, Balanced (h + 1) parent) :
    ∃ parents' current', nodes.foldlM (addChild (h + 1)) (parents, current) = .ok (parents', current') ∧
      Pieces (h + 1) (toLists parents ++ toLists trees ++ toLists nodes) (parents' ++ current'.toList) ∧
      nodeCapacity * (parents' ++ current'.toList).length + 1 ≤
        nodeCapacity * parents.length + trees.length + nodes.length + nodeCapacity := by
  induction nodes generalizing parents trees current with
  | nil =>
    refine ⟨parents, current, rfl, ?_, ?_⟩
    · cases current with
      | none =>
        obtain rfl : trees = [] := filling
        exact ⟨by simpa using done, by simp⟩
      | some parent =>
        obtain ⟨nonempty, room, rfl⟩ := filling
        refine ⟨?_, by simp⟩
        intro tree mem
        rcases List.mem_append.mp mem with mem | mem
        · exact done tree mem
        · obtain rfl := List.mem_singleton.mp mem
          exact balanced_internal nonempty (Nat.le_of_lt room) below
    · cases current with
      | none =>
        simp only [Option.toList_none, List.append_nil, nodeCapacity, treeBase]
        omega
      | some parent =>
        have := List.length_pos_iff.mpr filling.1
        simp only [Option.toList_some, List.length_append, List.length_cons, List.length_nil, Nat.mul_add, Nat.mul_one]
        omega
  | cons child nodes ih =>
    have childBalanced : Balanced h child := balanced child (by simp)
    have rest : ∀ node ∈ nodes, Balanced h node := fun node mem => balanced node (by simp [mem])
    have below' : ∀ tree ∈ trees ++ [child], Balanced h tree := by
      intro tree mem
      rcases List.mem_append.mp mem with mem | mem
      · exact below tree mem
      · rwa [List.mem_singleton.mp mem]
    rw [List.foldlM_cons, addChild_partial filling]
    split_ifs with full
    · obtain ⟨parents', current', eq, pieces, count⟩ := ih rest
        (parents ++ [.internal (h + 1) (sum ((trees ++ [child]).map summary))
          ((trees ++ [child]).map summary) (trees ++ [child])]) [] none rfl (by simp) (by
        intro parent mem
        rcases List.mem_append.mp mem with mem | mem
        · exact done parent mem
        · obtain rfl := List.mem_singleton.mp mem
          exact balanced_internal (by simp) (by simp; omega) below')
      refine ⟨parents', current', eq, by simpa using pieces, ?_⟩
      simp only [List.length_append, List.length_cons, List.length_nil, Nat.mul_add, Nat.mul_one] at count ⊢
      omega
    · have filling' : Partial h (trees ++ [child]) (some (.internal (h + 1)
          (sum ((trees ++ [child]).map summary)) ((trees ++ [child]).map summary)
          (trees ++ [child]))) := by
        refine ⟨by simp, ?_, rfl⟩
        have room := filling.room
        simp only [List.length_append, List.length_cons, List.length_nil]
        omega
      obtain ⟨parents', current', eq, pieces, count⟩ := ih rest parents _ _ filling' below' done
      refine ⟨parents', current', eq, by simpa using pieces, ?_⟩
      simp only [List.length_append, List.length_cons, List.length_nil] at count ⊢
      omega

theorem parentNodes_spec {h : Nat} {nodes : List (SumTree T S)} (balanced : ∀ node ∈ nodes, Balanced h node) :
    ∃ parents, parentNodes (h + 1) nodes = .ok parents ∧ Lifts h nodes parents := by
  obtain ⟨parents, current, eq, pieces, count⟩ := addChildren_spec nodes balanced [] [] none rfl (by simp) (by simp)
  refine ⟨parents ++ current.toList, ?_, by simpa using pieces, by simpa using count⟩
  rw [parentNodes, eq, ok_bind]
  rfl

theorem parentNode_spec {h : Nat} {chunk : List (SumTree T S)} (nonempty : chunk ≠ [])
    (fits : chunk.length ≤ nodeCapacity) (balanced : ∀ node ∈ chunk, Balanced h node) :
    ∃ node, parentNode (h + 1) chunk = .ok node ∧ Balanced (h + 1) node ∧ node.toList = toLists chunk := by
  obtain ⟨first, found, folded⟩ := foldl_tail (summary : SumTree T S → S) chunk nonempty
  refine ⟨_, ?_, balanced_internal nonempty fits balanced, rfl⟩
  simp only [parentNode]
  rw [collect_of_le fits, ok_bind, collect_of_le (by simpa using fits), ok_bind, found, ok_bind, folded]
  rfl

omit [LawfulSummary S] in
theorem mapM_nodes {α : Type} {h : Nat} (build : List α → Except Panic (SumTree T S))
    (held : List α → List T) (parts : List (List α))
    (spec : ∀ part ∈ parts, ∃ node, build part = .ok node ∧ Balanced h node ∧ node.toList = held part) :
    ∃ nodes, parts.mapM build = .ok nodes ∧ Pieces h (parts.map held).flatten nodes ∧ nodes.length = parts.length := by
  induction parts with
  | nil => exact ⟨[], rfl, ⟨by simp, rfl⟩, rfl⟩
  | cons part parts ih =>
    obtain ⟨node, built, balanced, items⟩ := spec part (by simp)
    obtain ⟨nodes, rest, ⟨pieces, restItems⟩, count⟩ := ih fun p mem => spec p (by simp [mem])
    refine ⟨node :: nodes, ?_, ⟨?_, ?_⟩, by simp [count]⟩
    · rw [List.mapM_cons, built, ok_bind, rest, ok_bind]
      rfl
    · intro tree mem
      rcases List.mem_cons.mp mem with rfl | mem
      · exact balanced
      · exact pieces tree mem
    · simp [items, restItems]

theorem parentChunks_spec {h : Nat} {nodes : List (SumTree T S)} (balanced : ∀ node ∈ nodes, Balanced h node) :
    ∃ parents, parentChunks (h + 1) nodes = .ok parents ∧ Lifts h nodes parents := by
  have capacity : 0 < nodeCapacity := by decide
  have members := chunks_flatten nodeCapacity nodes
  obtain ⟨parents, eq, pieces, count⟩ := mapM_nodes (parentNode (h + 1)) toLists
    (chunks nodeCapacity nodes) fun part mem => by
      obtain ⟨nonempty, fits⟩ := chunks_mem capacity nodes part mem
      exact parentNode_spec nonempty fits fun node inside =>
        balanced node (by rw [← members]; exact List.mem_flatten_of_mem mem inside)
  have sameItems : ((chunks nodeCapacity nodes).map toLists).flatten = toLists nodes := by
    rw [toLists_eq_flatten nodes]
    nth_rewrite 2 [← members]
    rw [List.map_flatten, List.flatten_flatten, List.map_map]
    congr 1
    exact List.map_congr_left fun part _ => toLists_eq_flatten part
  refine ⟨parents, eq, by rwa [sameItems] at pieces, ?_⟩
  rw [count]
  exact chunks_length capacity nodes

/-! ## Whole trees -/

omit [LawfulSummary S] in
theorem levels_spec {parents : Nat → List (SumTree T S) → Except Panic (List (SumTree T S))}
    (lifts : ∀ h nodes, (∀ node ∈ nodes, Balanced h node) → ∃ up, parents (h + 1) nodes = .ok up ∧ Lifts h nodes up)
    {xs : List T} {nodes : List (SumTree T S)} (pieces : Pieces 0 xs nodes) (count : nodes.length ≤ xs.length) :
    EndSpec (fun nodes => nodes.length ≤ 1 ∧ ∃ h, Pieces h xs nodes ∧ ∀ k, h = k + 1 → nodeCapacity ^ k ≤ xs.length)
    (fun e => e = .addOverflow ∧ nodeCapacity ^ 255 ≤ xs.length)
    (loop (fun state => state.2.length) (levelStep parents) (0, nodes)) := by
  refine loop_rule (fun state => Pieces state.1 xs state.2 ∧ (state.2.length - 1) * nodeCapacity ^ state.1 ≤ xs.length ∧
      ∀ k, state.1 = k + 1 → nodeCapacity ^ k ≤ xs.length)
    _ _ ?_ (0, nodes) ⟨pieces, by simp; omega, by simp⟩
  rintro ⟨h, nodes⟩ ⟨⟨balanced, held⟩, bound, low⟩
  dsimp only at balanced held bound low
  by_cases more : nodes.length > 1
  · have level : nodeCapacity ^ h ≤ xs.length := Nat.le_trans (Nat.le_mul_of_pos_left _ (by omega)) bound
    by_cases room : h + 1 < 2 ^ 8
    · obtain ⟨up, eq, upPieces, upCount⟩ := lifts h nodes balanced
      simp only [levelStep, if_pos more, checkedAdd_of_lt room, ok_bind, eq, pure, Except.pure, StepSpec]
      have shorter : nodeCapacity * (up.length - 1) ≤ nodes.length - 1 := by
        rw [Nat.mul_sub, Nat.mul_one]
        omega
      refine ⟨⟨by rwa [held] at upPieces, ?_, ?_⟩, ?_⟩
      · calc (up.length - 1) * nodeCapacity ^ (h + 1)
            = nodeCapacity * (up.length - 1) * nodeCapacity ^ h := by ring
          _ ≤ (nodes.length - 1) * nodeCapacity ^ h := Nat.mul_le_mul_right _ shorter
          _ ≤ xs.length := bound
      · intro k next
        rwa [Nat.succ.inj next] at level
      · simp only [nodeCapacity, treeBase] at shorter
        omega
    · -- A level above 255 takes more items than any list in memory.
      simp only [levelStep, if_pos more, checkedAdd, if_neg room, error_bind, StepSpec]
      refine ⟨trivial, ?_⟩
      exact Nat.le_trans (Nat.pow_le_pow_right (by decide) (by omega)) level
  · simp only [levelStep, if_neg more, pure, Except.pure, StepSpec]
    exact ⟨by omega, h, ⟨balanced, held⟩, low⟩

def Builds (xs : List T) (outcome : Except Panic (SumTree T S)) : Prop :=
  EndSpec (fun tree => WellFormed tree ∧ tree.toList = xs ∧ ∀ k, tree.height = k + 1 → nodeCapacity ^ k ≤ xs.length)
    (fun e => e = .addOverflow ∧ nodeCapacity ^ 255 ≤ xs.length) outcome

omit [LawfulSummary S] in
theorem root_spec {xs : List T} {nodes : List (SumTree T S)} {h : Nat} (few : nodes.length ≤ 1)
    (pieces : Pieces h xs nodes) (low : ∀ k, h = k + 1 → nodeCapacity ^ k ≤ xs.length) : Builds xs (root nodes) := by
  obtain ⟨balanced, held⟩ := pieces
  cases nodes with
  | nil => exact ⟨.inl rfl, by simpa using held, by simp [new, height]⟩
  | cons node rest =>
    obtain rfl : rest = [] := List.eq_nil_of_length_eq_zero (by simpa using few)
    have nodeBalanced := balanced node (by simp)
    refine ⟨.inr ⟨h, nodeBalanced⟩, by simpa using held, ?_⟩
    intro k tall
    exact low k (nodeBalanced.height_eq.symm.trans tall)

omit [LawfulSummary S] in
theorem fromLevels_spec {parents : Nat → List (SumTree T S) → Except Panic (List (SumTree T S))}
    (lifts : ∀ h nodes, (∀ node ∈ nodes, Balanced h node) → ∃ up, parents (h + 1) nodes = .ok up ∧ Lifts h nodes up)
    {xs : List T} {nodes : List (SumTree T S)} (pieces : Pieces 0 xs nodes) (count : nodes.length ≤ xs.length) :
    Builds xs (loop (fun state => state.2.length) (levelStep parents) (0, nodes) >>= root) := by
  have levels := levels_spec lifts pieces count
  cases outcome : loop (fun state => state.2.length) (levelStep parents) (0, nodes) with
  | error e =>
    rw [outcome] at levels
    exact levels
  | ok nodes =>
    rw [outcome] at levels
    obtain ⟨few, h, pieces, low⟩ := levels
    exact root_spec few pieces low

theorem fromIter_spec (xs : List T) : Builds xs (fromIter xs : Except Panic (SumTree T S)) := by
  obtain ⟨nodes, eq, pieces, count⟩ := leafNodes_spec (S := S) xs
  rw [fromIter, eq, ok_bind]
  exact fromLevels_spec (fun h nodes => parentNodes_spec) pieces count

theorem fromParIter_spec (xs : List T) : Builds xs (fromParIter xs : Except Panic (SumTree T S)) := by
  have capacity : 0 < nodeCapacity := by decide
  obtain ⟨nodes, eq, pieces, count⟩ := mapM_nodes (leafNode : List T → Except Panic (SumTree T S))
    id (chunks nodeCapacity xs) fun part mem =>
      leafNode_spec part (chunks_mem capacity xs part mem).1 (chunks_mem capacity xs part mem).2
  rw [List.map_id, chunks_flatten] at pieces
  have few := chunks_length capacity xs
  rw [fromParIter, eq, ok_bind]
  refine fromLevels_spec (fun h nodes => parentChunks_spec) pieces ?_
  rw [count]
  cases xs with
  | nil => simp [chunks, chunksFrom]
  | cons x xs =>
    simp only [nodeCapacity, treeBase, List.length_cons] at few ⊢
    omega

omit [LawfulSummary S] in
theorem Builds.returns {xs : List T} {outcome : Except Panic (SumTree T S)} (builds : Builds xs outcome)
    (fits : xs.length < nodeCapacity ^ 255) : ∃ tree, outcome = .ok tree ∧ WellFormed tree ∧ tree.toList = xs ∧ ∀ k,
    tree.height = k + 1 → nodeCapacity ^ k ≤ xs.length := by
  cases outcome with
  | error e => exact absurd builds.2 (Nat.not_le.mpr fits)
  | ok tree => exact ⟨tree, rfl, builds⟩

end Pinrail.SumTree

import Mathlib.Tactic.Common
import Pinrail.KeyDispatch.Tree

/-!
# The stacks of the dispatch tree follow a path

The node stack is at any time the path from a root to the active node, and the other two stacks show
what is set along it. Paths are determined by their ends, so that any way to a node leads to the same
stacks.
-/

namespace Pinrail.KeyDispatch
open Lib Keymap
variable {F V L : Type}

inductive Path (nodes : List (DispatchNode F V L)) : List Nat → Prop
  | nil : Path nodes []
  | child {stack : List Nat} {nodeId : Nat} {node : DispatchNode F V L} :
      Path nodes stack → nodes[nodeId]? = some node → node.parent = stack.getLast? →
      Path nodes (stack ++ [nodeId])

def along {α : Type} (field : DispatchNode F V L → Option α) (nodes : List (DispatchNode F V L))
    (path : List Nat) : List α :=
  path.filterMap fun nodeId => nodes[nodeId]?.bind field

def ParentsFirst (nodes : List (DispatchNode F V L)) : Prop :=
  ∀ (nodeId : Nat) (node : DispatchNode F V L), nodes[nodeId]? = some node →
    ∀ parent, node.parent = some parent → parent < nodeId

section Nodes
variable {nodes : List (DispatchNode F V L)} {stack other : List Nat} {nodeId : Nat}
  {node : DispatchNode F V L}

theorem Path.eq_of_getLast (first : Path nodes stack) (second : Path nodes other)
    (last : stack.getLast? = other.getLast?) : stack = other := by
  induction first generalizing other with
  | nil =>
    rw [List.getLast?_nil, eq_comm, List.getLast?_eq_none_iff] at last
    exact last.symm
  | child first found parent ih =>
    cases second with
    | nil => simp at last
    | child second found' parent' =>
      simp only [List.getLast?_concat, Option.some.injEq] at last
      subst last
      obtain rfl := Option.some_inj.mp (found.symm.trans found')
      rw [ih second (parent.symm.trans parent')]

theorem Path.lt_length (path : Path nodes stack) (mem : nodeId ∈ stack) : nodeId < nodes.length := by
  induction path with
  | nil => cases mem
  | child path found parent ih =>
    rcases List.mem_append.mp mem with mem | mem
    · exact ih mem
    · obtain rfl := List.mem_singleton.mp mem
      exact (List.getElem?_eq_some_iff.mp found).1

theorem Path.of_concat (path : Path nodes (stack ++ [nodeId])) :
    Path nodes stack ∧ ∃ node, nodes[nodeId]? = some node ∧ node.parent = stack.getLast? := by
  generalize whole : stack ++ [nodeId] = full at path
  cases path with
  | nil => simp at whole
  | child path found parent =>
    obtain ⟨rfl, last⟩ := List.append_inj' whole rfl
    obtain rfl := List.singleton_inj.mp last
    exact ⟨path, _, found, parent⟩

theorem Path.getElem?_push {pushed : DispatchNode F V L} (path : Path nodes stack)
    (mem : nodeId ∈ stack) : (nodes ++ [pushed])[nodeId]? = nodes[nodeId]? :=
  List.getElem?_append_left (path.lt_length mem)

theorem Path.ascending (parents : ParentsFirst nodes) (path : Path nodes stack) : stack.Pairwise (· < ·) := by
  induction path with
  | nil => exact .nil
  | @child stack nodeId node path found parent ih =>
    refine List.pairwise_append.mpr ⟨ih, List.pairwise_singleton _ _, ?_⟩
    intro up mem last isLast
    obtain rfl := List.mem_singleton.mp isLast
    obtain ⟨rest, top, rfl⟩ : ∃ rest top, stack = rest ++ [top] :=
      ⟨_, _, (List.dropLast_append_getLast (List.ne_nil_of_mem mem)).symm⟩
    have above : top < last := parents last node found top (by rw [parent, List.getLast?_concat])
    rcases List.mem_append.mp mem with mem | mem
    · exact lt_trans ((List.pairwise_append.mp ih).2.2 up mem top (by simp)) above
    · exact List.mem_singleton.mp mem ▸ above

theorem ParentsFirst.path_to (parents : ParentsFirst nodes) (known : nodeId < nodes.length) :
    ∃ stack, Path nodes (stack ++ [nodeId]) := by
  induction nodeId using Nat.strong_induction_on with
  | h nodeId ih =>
    have found : nodes[nodeId]? = some nodes[nodeId] := List.getElem?_eq_getElem known
    cases parent : nodes[nodeId].parent with
    | none => exact ⟨[], .child .nil found parent⟩
    | some up =>
      have before := parents nodeId _ found up parent
      obtain ⟨stack, path⟩ := ih up before (by omega)
      exact ⟨stack ++ [up], .child path found (by rw [parent, List.getLast?_concat])⟩

/-! ## What is set along a path -/

section Along
variable {α : Type} {field : DispatchNode F V L → Option α} {later : List (DispatchNode F V L)}

@[simp] theorem along_nil : along field nodes [] = [] := rfl

theorem along_append : along field nodes (stack ++ other) = along field nodes stack ++ along field nodes other :=
  List.filterMap_append

theorem along_single (found : nodes[nodeId]? = some node) : along field nodes [nodeId] = (field node).toList := by
  cases set : field node <;> simp [along, found, set]

theorem along_concat (found : nodes[nodeId]? = some node) :
    along field nodes (stack ++ [nodeId]) = along field nodes stack ++ (field node).toList := by
  rw [along_append, along_single found]

theorem along_reverse : along field nodes stack.reverse = (along field nodes stack).reverse := List.filterMap_reverse

theorem along_congr (same : ∀ nodeId ∈ stack, nodes[nodeId]?.bind field = later[nodeId]?.bind field) :
    along field nodes stack = along field later stack :=
  List.filterMap_congr same

theorem along_push {pushed : DispatchNode F V L} (path : Path nodes stack) (blank : field pushed = none) :
    along field (nodes ++ [pushed]) (stack ++ [nodes.length]) = along field nodes stack := by
  rw [along_concat List.getElem?_concat_length, blank, Option.toList_none, List.append_nil]
  exact along_congr fun nodeId mem => by rw [path.getElem?_push mem]

end Along

theorem Path.of_parents {later : List (DispatchNode F V L)} (path : Path nodes stack)
    (same : ∀ nodeId ∈ stack, nodes[nodeId]?.map DispatchNode.parent = later[nodeId]?.map DispatchNode.parent) :
    Path later stack := by
  induction path with
  | nil => exact .nil
  | @child stack nodeId node path found parent ih =>
    have here := same nodeId (by simp)
    rw [found, Option.map_some, eq_comm, Option.map_eq_some_iff] at here
    obtain ⟨node', found', parent'⟩ := here
    exact .child (ih fun up mem => same up (List.mem_append_left _ mem)) found' (parent'.trans parent)

end Nodes

namespace DispatchTree
variable {tree next : DispatchTree F V L} {nodeId : Nat} {node : DispatchNode F V L}

structure Coherent (tree : DispatchTree F V L) : Prop where
  parents : ParentsFirst tree.nodes
  path : Path tree.nodes tree.nodeStack
  contexts : tree.contextStack = along DispatchNode.context tree.nodes tree.nodeStack
  views : tree.viewStack = along DispatchNode.viewId tree.nodes tree.nodeStack

def activeNode (tree : DispatchTree F V L) : Option (DispatchNode F V L) :=
  tree.activeNodeId.bind fun nodeId => tree.nodes[nodeId]?

theorem Coherent.active (coherent : Coherent tree) (left : tree.nodeStack ≠ []) : ∃ stack nodeId node,
    tree.nodeStack = stack ++ [nodeId] ∧ tree.nodes[nodeId]? = some node ∧ tree.activeNodeId = some nodeId ∧
    tree.activeNode = some node ∧
    tree.contextStack = along DispatchNode.context tree.nodes stack ++ node.context.toList ∧
    tree.viewStack = along DispatchNode.viewId tree.nodes stack ++ node.viewId.toList := by
  obtain ⟨stack, nodeId, nodeStack⟩ : ∃ stack nodeId, tree.nodeStack = stack ++ [nodeId] :=
    ⟨_, _, (List.dropLast_append_getLast left).symm⟩
  obtain ⟨path, node, found, parent⟩ := (nodeStack ▸ coherent.path).of_concat
  have top : tree.activeNodeId = some nodeId := by
    rw [activeNodeId, nodeStack, List.getLast?_concat]
  refine ⟨stack, nodeId, node, nodeStack, found, top, ?_, ?_, ?_⟩
  · rw [activeNode, top, Option.bind_some, found]
  · rw [coherent.contexts, nodeStack, along_concat found]
  · rw [coherent.views, nodeStack, along_concat found]

theorem pop_optional {α : Type} (stack : List α) (entry : Option α) :
    (if entry.isSome then (stack ++ entry.toList).dropLast else stack ++ entry.toList) = stack := by
  cases entry <;> simp

theorem popNode_eq {stack : List Nat} {contexts : List KeyContext} {views : List V}
    (found : tree.nodes[nodeId]? = some node) (nodeStack : tree.nodeStack = stack ++ [nodeId])
    (contextStack : tree.contextStack = contexts ++ node.context.toList)
    (viewStack : tree.viewStack = views ++ node.viewId.toList) :
    tree.popNode = .ok { tree with
      nodeStack := stack, contextStack := contexts, viewStack := views } := by
  rw [popNode, activeNodeId, nodeStack, List.getLast?_concat, unwrap_some, ok_bind,
    index_of_getElem? found, ok_bind, contextStack, viewStack, pop_optional, pop_optional,
    List.dropLast_concat]
  rfl

theorem Coherent.popNode (coherent : Coherent tree) (left : tree.nodeStack ≠ []) :
    ∃ next, tree.popNode = .ok next ∧ Coherent next ∧ next.nodes = tree.nodes ∧
      next.nodeStack = tree.nodeStack.dropLast := by
  obtain ⟨stack, nodeId, node, nodeStack, found, top, active, contexts, views⟩ := coherent.active left
  obtain ⟨path, -⟩ := (nodeStack ▸ coherent.path).of_concat
  refine ⟨_, popNode_eq found nodeStack contexts views, ?_, rfl, ?_⟩
  · exact ⟨coherent.parents, path, rfl, rfl⟩
  · rw [nodeStack, List.dropLast_concat]

/-! ## Walking up -/

def Climbing (nodes : List (DispatchNode F V L)) (whole collected : List Nat) (current : Option Nat) :
    Prop :=
  ∃ above, Path nodes above ∧ above.getLast? = current ∧ whole = above ++ collected.reverse

section Climbing
variable {nodes : List (DispatchNode F V L)} {whole collected : List Nat}

theorem Climbing.start {last : Option Nat} (path : Path nodes whole) (ends : whole.getLast? = last) :
    Climbing nodes whole [] last :=
  ⟨whole, path, ends, (List.append_nil whole).symm⟩

theorem Climbing.up (climbing : Climbing nodes whole collected (some nodeId)) : ∃ node, nodes[nodeId]? = some node ∧
    Climbing nodes whole (collected ++ [nodeId]) node.parent := by
  obtain ⟨above, path, last, rfl⟩ := climbing
  obtain ⟨rest, rfl⟩ := List.getLast?_eq_some_iff.mp last
  obtain ⟨path, node, found, parent⟩ := path.of_concat
  exact ⟨node, found, rest, path, parent.symm, by simp⟩

theorem Climbing.top (climbing : Climbing nodes whole collected none) : whole = collected.reverse := by
  obtain ⟨above, path, last, rfl⟩ := climbing
  rw [List.getLast?_eq_none_iff.mp last, List.nil_append]

theorem roundsFrom_parent (parents : ParentsFirst nodes) (found : nodes[nodeId]? = some node) :
    roundsFrom node.parent < roundsFrom (some nodeId) := by
  cases parent : node.parent with
  | none => exact Nat.succ_pos nodeId
  | some up => exact Nat.succ_lt_succ (parents nodeId node found up parent)

end Climbing

theorem dispatchPath_eq {path : List Nat} (parents : ParentsFirst tree.nodes) (whole : Path tree.nodes path)
    (last : path.getLast? = some nodeId) : tree.dispatchPath nodeId = .ok path := by
  have returns : ∃ collected, loop (fun s => roundsFrom s.2) tree.pathStep ([], some nodeId) = .ok collected ∧
      path = collected.reverse := by
    refine loop_returns (fun s => Climbing tree.nodes path s.1 s.2) _ ?_ _ (.start whole last)
    rintro ⟨collected, current⟩ climbing
    cases current with
    | none => exact climbing.top
    | some current =>
      obtain ⟨node, found, climbing⟩ := climbing.up
      simp only [pathStep, found]
      exact ⟨climbing, roundsFrom_parent parents found⟩
  obtain ⟨collected, looped, reached⟩ := returns
  rw [dispatchPath, looped, ok_bind, ← reached]
  rfl

theorem climb_returns {path : List Nat} (parents : ParentsFirst tree.nodes)
    (whole : Path tree.nodes path) (last : path.getLast? = some nodeId)
    (nodeStack : tree.nodeStack = []) (contextStack : tree.contextStack = [])
    (viewStack : tree.viewStack = []) :
    ∃ next, loop (fun s => roundsFrom s.2) climbStep (tree, some nodeId) = .ok next ∧
      next.nodes = tree.nodes ∧ path = next.nodeStack.reverse ∧
      next.contextStack = along DispatchNode.context tree.nodes next.nodeStack ∧
      next.viewStack = along DispatchNode.viewId tree.nodes next.nodeStack := by
  refine loop_returns (fun s => s.1.nodes = tree.nodes ∧ Climbing tree.nodes path s.1.nodeStack s.2 ∧
      s.1.contextStack = along DispatchNode.context tree.nodes s.1.nodeStack ∧
      s.1.viewStack = along DispatchNode.viewId tree.nodes s.1.nodeStack) _ ?_
    (tree, some nodeId) ⟨rfl, ?_, ?_, ?_⟩
  · rintro ⟨here, current⟩ ⟨nodes, climbing, contexts, views⟩
    cases current with
    | none => exact ⟨nodes, climbing.top, contexts, views⟩
    | some current =>
      obtain ⟨node, found, climbing⟩ := climbing.up
      have known : index here.nodes current = .ok node := index_of_getElem? (nodes ▸ found)
      simp only [climbStep, known, ok_bind]
      refine ⟨⟨nodes, climbing, ?_, ?_⟩, roundsFrom_parent parents found⟩
      · rw [along_concat found, contexts]
      · rw [along_concat found, views]
  · rw [nodeStack]
    exact .start whole last
  · rw [contextStack, nodeStack]
    rfl
  · rw [viewStack, nodeStack]
    rfl

theorem pop_returns (parent : Option Nat) (coherent : Coherent tree) : ∃ next, loop (fun tree => tree.nodeStack.length)
    (popStep parent) tree = .ok next ∧ Coherent next ∧ next.nodes = tree.nodes ∧
    (next.nodeStack.getLast? = parent ∨ next.nodeStack = []) := by
  refine loop_returns (fun here => Coherent here ∧ here.nodes = tree.nodes) _ ?_ tree ⟨coherent, rfl⟩
  rintro here ⟨coherent, nodes⟩
  by_cases more : here.nodeStack.getLast? ≠ parent ∧ here.nodeStack ≠ []
  · obtain ⟨next, popped, coherent, same, nodeStack⟩ := coherent.popNode more.2
    rw [popStep, if_pos more, popped, ok_bind]
    refine ⟨⟨coherent, same.trans nodes⟩, ?_⟩
    show next.nodeStack.length < here.nodeStack.length
    have := List.length_pos_iff.mpr more.2
    rw [nodeStack, List.length_dropLast]
    omega
  · rw [popStep, if_neg more]
    exact ⟨coherent, nodes, by grind⟩

theorem Coherent.setActiveNode (coherent : Coherent tree) (known : nodeId < tree.nodes.length) :
    ∃ next, tree.setActiveNode nodeId = .ok next ∧ Coherent next ∧ next.nodes = tree.nodes ∧
      next.nodeStack.getLast? = some nodeId := by
  obtain ⟨stack, whole⟩ := coherent.parents.path_to known
  obtain ⟨path, node, found, parent⟩ := whole.of_concat
  obtain ⟨popped, looped, below, nodes, stopped⟩ := pop_returns node.parent coherent
  rw [DispatchTree.setActiveNode, index_of_getElem? found, ok_bind]
  dsimp only
  rw [looped, ok_bind]
  split_ifs with reached
  · -- the parent is active: one path leads to it
    have same : popped.nodeStack = stack := below.path.eq_of_getLast (nodes ▸ path) (reached.trans parent)
    rw [index_of_getElem? (nodes ▸ found), ok_bind]
    refine ⟨_, rfl, ⟨below.parents, ?_, ?_, ?_⟩, nodes, List.getLast?_concat⟩
    · exact .child below.path (nodes ▸ found) reached.symm
    · rw [below.contexts, ← along_concat (nodes ▸ found)]
    · rw [below.views, ← along_concat (nodes ▸ found)]
  · have emptied := stopped.resolve_left reached
    rw [assert_of (List.length_eq_zero_iff.mpr emptied), ok_bind]
    obtain ⟨climbed, looped, nodes', collected, contexts, views⟩ :=
      climb_returns (nodes ▸ coherent.parents) (nodes ▸ whole) List.getLast?_concat emptied
        (by rw [below.contexts, emptied, along_nil]) (by rw [below.views, emptied, along_nil])
    rw [looped, ok_bind]
    refine ⟨_, rfl, ⟨?_, ?_, ?_, ?_⟩, nodes'.trans nodes, ?_⟩
    · exact nodes' ▸ below.parents
    · rw [nodes', ← collected, nodes]
      exact whole
    · rw [nodes', along_reverse, ← contexts]
    · rw [nodes', along_reverse, ← views]
    · rw [← collected, List.getLast?_concat]

/-! ## Building -/

theorem Coherent.new : Coherent (new : DispatchTree F V L) where
  parents := by
    intro nodeId node found
    cases found
  path := .nil
  contexts := rfl
  views := rfl

theorem Coherent.pushNode (coherent : Coherent tree) : Coherent tree.pushNode.2 := by
  refine ⟨?_, ?_, ?_, ?_⟩
  · intro nodeId node found parent isParent
    simp only [DispatchTree.pushNode] at found
    by_cases known : nodeId < tree.nodes.length
    · rw [List.getElem?_append_left known] at found
      exact coherent.parents nodeId node found parent isParent
    · have short := (List.getElem?_eq_some_iff.mp found).1
      rw [List.length_append, List.length_singleton] at short
      obtain rfl : nodeId = tree.nodes.length := by omega
      obtain rfl := Option.some_inj.mp (List.getElem?_concat_length.symm.trans found)
      exact coherent.path.lt_length (List.mem_of_getLast? isParent)
  · exact .child (coherent.path.of_parents fun nodeId mem => by
        simp only [DispatchTree.pushNode]
        rw [coherent.path.getElem?_push mem])
      List.getElem?_concat_length rfl
  · exact coherent.contexts.trans (along_push coherent.path rfl).symm
  · exact coherent.views.trans (along_push coherent.path rfl).symm

theorem Coherent.assign {stack : List Nat} {assigned : DispatchNode F V L} (coherent : Coherent tree)
    (nodeStack : tree.nodeStack = stack ++ [nodeId]) (found : tree.nodes[nodeId]? = some node)
    (nodes : next.nodes = tree.nodes.set nodeId assigned) (parent : assigned.parent = node.parent)
    (sameStack : next.nodeStack = tree.nodeStack)
    (contexts : next.contextStack = along DispatchNode.context tree.nodes stack ++ assigned.context.toList)
    (views : next.viewStack = along DispatchNode.viewId tree.nodes stack ++ assigned.viewId.toList) :
    Coherent next := by
  have path := nodeStack ▸ coherent.path
  have here : next.nodes[nodeId]? = some assigned := by
    rw [nodes, List.getElem?_set_self (List.getElem?_eq_some_iff.mp found).1]
  have others : ∀ other, other ≠ nodeId → next.nodes[other]? = tree.nodes[other]? :=
    fun other differs => by rw [nodes, List.getElem?_set_ne differs.symm]
  have below : ∀ other ∈ stack, next.nodes[other]? = tree.nodes[other]? := fun other mem =>
    others other (ne_of_lt ((List.pairwise_append.mp (path.ascending coherent.parents)).2.2 other mem nodeId (by simp)))
  refine ⟨?_, ?_, ?_, ?_⟩
  · intro other known isThere up isParent
    by_cases same : other = nodeId
    · subst same
      obtain rfl := Option.some_inj.mp (here.symm.trans isThere)
      exact coherent.parents other node found up (parent ▸ isParent)
    · exact coherent.parents other known ((others other same).symm.trans isThere) up isParent
  · obtain ⟨path, node', found', parent'⟩ := path.of_concat
    obtain rfl := Option.some_inj.mp (found.symm.trans found')
    rw [sameStack, nodeStack]
    exact .child (path.of_parents fun other mem => by rw [below other mem]) here (parent.trans parent')
  · rw [contexts, sameStack, nodeStack, along_concat here, along_congr fun other mem => by rw [below other mem]]
  · rw [views, sameStack, nodeStack, along_concat here, along_congr fun other mem => by rw [below other mem]]

theorem Coherent.setKeyContext {context : KeyContext} (coherent : Coherent tree)
    (fresh : tree.activeNode.bind DispatchNode.context = none)
    (set : tree.setKeyContext context = .ok next) : Coherent next := by
  have left : tree.nodeStack ≠ [] := by
    intro empty
    rw [DispatchTree.setKeyContext, modifyActiveNode, activeNodeId, empty] at set
    cases set
  obtain ⟨stack, nodeId, node, nodeStack, found, top, active, contexts, views⟩ := coherent.active left
  rw [active, Option.bind_some] at fresh
  rw [DispatchTree.setKeyContext, modifyActiveNode, top, unwrap_some, ok_bind, index_of_getElem? found, ok_bind] at set
  cases set
  refine coherent.assign nodeStack found rfl rfl rfl ?_ views
  show tree.contextStack ++ [context] = _
  rw [contexts, fresh, Option.toList_none, List.append_nil, Option.toList_some]

theorem Coherent.setViewId [DecidableEq V] {viewId : V} (coherent : Coherent tree)
    (fresh : tree.activeNode.bind DispatchNode.viewId = none)
    (set : tree.setViewId viewId = .ok next) : Coherent next := by
  rw [DispatchTree.setViewId] at set
  split_ifs at set with differs
  · have left : tree.nodeStack ≠ [] := by
      intro empty
      rw [empty] at set
      cases set
    obtain ⟨stack, nodeId, node, nodeStack, found, top, active, contexts, views⟩ := coherent.active left
    rw [active, Option.bind_some] at fresh
    rw [activeNodeId] at top
    rw [top, unwrap_some, ok_bind, index_of_getElem? found, ok_bind] at set
    cases set
    refine coherent.assign nodeStack found rfl rfl rfl contexts ?_
    show tree.viewStack ++ [viewId] = _
    rw [views, fresh, Option.toList_none, List.append_nil, Option.toList_some]
  · cases set
    exact coherent

/-- The trees that the operations of a paint build, each of the two fields of a node being set at most
once. -/
inductive Built [DecidableEq V] : DispatchTree F V L → Prop
  | new : Built new
  | pushNode {tree : DispatchTree F V L} : Built tree → Built tree.pushNode.2
  | setActiveNode {tree next : DispatchTree F V L} {nodeId : Nat} :
      Built tree → tree.setActiveNode nodeId = .ok next → Built next
  | setKeyContext {tree next : DispatchTree F V L} {context : KeyContext} :
      Built tree → tree.activeNode.bind DispatchNode.context = none →
      tree.setKeyContext context = .ok next → Built next
  | setViewId {tree next : DispatchTree F V L} {viewId : V} :
      Built tree → tree.activeNode.bind DispatchNode.viewId = none →
      tree.setViewId viewId = .ok next → Built next
  | popNode {tree next : DispatchTree F V L} : Built tree → tree.popNode = .ok next → Built next

theorem Built.coherent [DecidableEq V] (built : Built tree) : Coherent tree := by
  induction built with
  | new => exact .new
  | pushNode built ih => exact ih.pushNode
  | @setActiveNode tree next nodeId built set ih =>
    have known : nodeId < tree.nodes.length := by
      by_contra unknown
      rw [DispatchTree.setActiveNode, index, List.getElem?_eq_none (not_lt.mp unknown)] at set
      cases set
    obtain ⟨next', set', coherent, rest⟩ := ih.setActiveNode known
    cases set.symm.trans set'
    exact coherent
  | setKeyContext built fresh set ih => exact ih.setKeyContext fresh set
  | setViewId built fresh set ih => exact ih.setViewId fresh set
  | @popNode tree next built popped ih =>
    have left : tree.nodeStack ≠ [] := by
      intro empty
      rw [DispatchTree.popNode, activeNodeId, empty] at popped
      cases popped
    obtain ⟨next', popped', coherent, rest⟩ := ih.popNode left
    cases popped.symm.trans popped'
    exact coherent

theorem setActiveNode_dispatchPath [DecidableEq V] (tree : DispatchTree F V L) (built : Built tree)
    (nodeId : Nat) (known : nodeId < tree.nodes.length) :
    ∃ next path, tree.setActiveNode nodeId = .ok next ∧ tree.dispatchPath nodeId = .ok path ∧
      next.nodes = tree.nodes ∧ next.nodeStack = path ∧
      next.contextStack = path.filterMap (fun nodeId => tree.nodes[nodeId]?.bind DispatchNode.context) ∧
      next.viewStack = path.filterMap (fun nodeId => tree.nodes[nodeId]?.bind DispatchNode.viewId) := by
  obtain ⟨next, set, coherent, nodes, last⟩ := built.coherent.setActiveNode known
  have path := nodes ▸ coherent.path
  refine ⟨next, next.nodeStack, set, dispatchPath_eq built.coherent.parents path last, nodes, rfl, ?_, ?_⟩
  · rw [coherent.contexts, nodes]
    rfl
  · rw [coherent.views, nodes]
    rfl

/-- From a sibling that shows nothing to the one that shows a view. -/
theorem setActiveNode_dispatchPath_sibling : ∃ tree next : DispatchTree Nat Nat Nat, tree.setActiveNode 1 = .ok next ∧
    tree.nodeStack = [0, 2] ∧ next.nodeStack = [0, 1] ∧ next.viewStack = [5] := by
  have built : Built (_ : DispatchTree Nat Nat Nat) := .pushNode (.popNode (.setViewId (.pushNode (.pushNode .new)) rfl
      (rfl : DispatchTree.setViewId _ 5 = .ok _)) rfl)
  obtain ⟨next, path, set, isPath, nodes, nodeStack, contexts, views⟩ :=
    setActiveNode_dispatchPath _ built 1 (by decide)
  obtain rfl : path = [0, 1] := by
    cases isPath
    rfl
  exact ⟨_, next, set, rfl, nodeStack, views⟩

end DispatchTree
end Pinrail.KeyDispatch

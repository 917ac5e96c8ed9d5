import Mathlib.Data.List.TakeWhile
import Mathlib.Tactic.IntervalCases
import Pinrail.KeyDispatch.Paths

/-!
# Reusing a subtree

A range of the last frame's nodes in preorder is copied under the active node. While it goes on, the
stacks are those of the start with the copies of the source stack on top.
-/

namespace Pinrail.KeyDispatch
open Lib Keymap
variable {F V L : Type}

structure CopyOf (original copy : DispatchNode F V L) : Prop where
  context : copy.context = original.context
  focusId : copy.focusId = original.focusId
  keyListeners : copy.keyListeners = original.keyListeners
  actionListeners : copy.actionListeners = original.actionListeners
  modifiersChangedListeners : copy.modifiersChangedListeners = original.modifiersChangedListeners

def copiedParent (start stop base : Nat) (active : Option Nat) : Option Nat → Option Nat
  | none => active
  | some up => if start ≤ up ∧ up < stop then some (up - start + base) else active

inductive Lineage (nodes : List (DispatchNode F V L)) (start stop : Nat) : Nat → Nat → Prop
  | refl (nodeId : Nat) : Lineage nodes start stop nodeId nodeId
  | up {nodeId up top : Nat} {node : DispatchNode F V L} :
      nodes[nodeId]? = some node → node.parent = some up → start ≤ up → up < stop →
      Lineage nodes start stop up top → Lineage nodes start stop nodeId top

def Preorder (nodes : List (DispatchNode F V L)) (start stop : Nat) : Prop :=
  ∀ (nodeId : Nat) (node : DispatchNode F V L), start ≤ nodeId → nodeId < stop →
    nodes[nodeId]? = some node → ∀ up, node.parent = some up → start ≤ up → up < stop →
    start < nodeId ∧ Lineage nodes start stop (nodeId - 1) up

inductive Closed (nodes : List (DispatchNode F V L)) (start stop : Nat) : List Nat → Prop
  | nil : Closed nodes start stop []
  | cons {nodeId : Nat} {stack : List Nat} :
      (∀ node up, nodes[nodeId]? = some node → node.parent = some up → start ≤ up → up < stop → up ∈ stack) →
      Closed nodes start stop stack → Closed nodes start stop (nodeId :: stack)

section Lineage
variable {nodes : List (DispatchNode F V L)} {start stop nodeId top : Nat} {stack : List Nat}

theorem Closed.lineage (closed : Closed nodes start stop stack) (mem : nodeId ∈ stack)
    (lineage : Lineage nodes start stop nodeId top) : top ∈ stack := by
  have parent : ∀ {nodeId up node}, nodeId ∈ stack → nodes[nodeId]? = some node →
      node.parent = some up → start ≤ up → up < stop → up ∈ stack := by
    clear mem lineage
    induction closed with
    | nil =>
      intro nodeId up node mem
      cases mem
    | cons parents closed ih =>
      intro nodeId up node mem found isParent low high
      rcases List.mem_cons.mp mem with rfl | mem
      · exact List.mem_cons_of_mem _ (parents node up found isParent low high)
      · exact List.mem_cons_of_mem _ (ih mem found isParent low high)
  induction lineage with
  | refl => exact mem
  | up found isParent low high lineage ih => exact ih (parent mem found isParent low high)

theorem Closed.dropWhile (closed : Closed nodes start stop stack) (p : Nat → Bool) :
    Closed nodes start stop (stack.dropWhile p) := by
  induction closed with
  | nil => exact .nil
  | @cons nodeId stack parents closed ih =>
    rw [List.dropWhile_cons]
    split_ifs
    · exact ih
    · exact .cons parents closed

end Lineage

namespace DispatchTree
variable {entry tree next : DispatchTree F V L} {node : DispatchNode F V L}

/-! ## The stacks above where they were on entry -/

structure Above (entry tree : DispatchTree F V L) (path : List Nat) : Prop where
  nodeStack : tree.nodeStack = entry.nodeStack ++ path
  contexts : tree.contextStack = entry.contextStack ++ along DispatchNode.context tree.nodes path
  views : tree.viewStack = entry.viewStack ++ along DispatchNode.viewId tree.nodes path
  known : ∀ nodeId ∈ path, nodeId < tree.nodes.length

theorem Above.refl : Above tree tree [] := by
  constructor <;> simp

theorem Above.popNode {path : List Nat} {nodeId : Nat} (above : Above entry tree (path ++ [nodeId])) :
    ∃ next, tree.popNode = .ok next ∧ Above entry next path ∧ next.nodes = tree.nodes := by
  have known := above.known nodeId (by simp)
  have found : tree.nodes[nodeId]? = some tree.nodes[nodeId] := List.getElem?_eq_getElem known
  have nodeStack := above.nodeStack
  have contexts := above.contexts
  have views := above.views
  rw [along_concat found, ← List.append_assoc] at contexts views
  rw [← List.append_assoc] at nodeStack
  refine ⟨_, popNode_eq found nodeStack contexts views, ⟨rfl, rfl, rfl, ?_⟩, rfl⟩
  exact fun other mem => above.known other (List.mem_append_left _ mem)

structure Pushed (tree next : DispatchTree F V L) (node : DispatchNode F V L) : Prop where
  nodes : next.nodes = tree.nodes ++ [node]
  nodeStack : next.nodeStack = tree.nodeStack ++ [tree.nodes.length]
  contexts : next.contextStack = tree.contextStack ++ node.context.toList
  views : next.viewStack = tree.viewStack ++ node.viewId.toList

theorem Above.pushed {path : List Nat} (above : Above entry tree path)
    (pushed : Pushed tree next node) : Above entry next (path ++ [tree.nodes.length]) := by
  have here : next.nodes[tree.nodes.length]? = some node := by
    rw [pushed.nodes]
    exact List.getElem?_concat_length
  have old : ∀ nodeId ∈ path, next.nodes[nodeId]? = tree.nodes[nodeId]? := by
    intro nodeId mem
    rw [pushed.nodes, List.getElem?_append_left (above.known nodeId mem)]
  refine ⟨?_, ?_, ?_, ?_⟩
  · rw [pushed.nodeStack, above.nodeStack, List.append_assoc]
  · rw [pushed.contexts, above.contexts, along_concat here, List.append_assoc,
      along_congr fun nodeId mem => by rw [old nodeId mem]]
  · rw [pushed.views, above.views, along_concat here, List.append_assoc,
      along_congr fun nodeId mem => by rw [old nodeId mem]]
  · intro nodeId mem
    rw [pushed.nodes, List.length_append, List.length_singleton]
    rcases List.mem_append.mp mem with mem | mem
    · exact Nat.lt_succ_of_lt (above.known nodeId mem)
    · obtain rfl := List.mem_singleton.mp mem
      exact Nat.lt_succ_self _

def copyId (start base nodeId : Nat) : Nat := nodeId - start + base

def openPath (start base : Nat) (sourceStack : List Nat) : List Nat :=
  (sourceStack.map (copyId start base)).reverse

theorem openPath_cons {start base nodeId : Nat} {sourceStack : List Nat} :
    openPath start base (nodeId :: sourceStack) = openPath start base sourceStack ++ [copyId start base nodeId] := by
  simp [openPath]

theorem popToParent_returns (start base : Nat) (parent : Option Nat) (sourceStack : List Nat)
    (above : Above entry tree (openPath start base sourceStack)) :
    ∃ next, popToParent parent sourceStack tree = .ok (sourceStack.dropWhile (parent ≠ some ·), next) ∧
      Above entry next (openPath start base (sourceStack.dropWhile (parent ≠ some ·))) ∧
      next.nodes = tree.nodes := by
  induction sourceStack generalizing tree with
  | nil => exact ⟨tree, rfl, above, rfl⟩
  | cons ancestor sourceStack ih =>
    rw [popToParent, List.dropWhile_cons]
    by_cases same : parent = some ancestor
    · rw [if_pos same, if_neg (by simp [same])]
      exact ⟨tree, rfl, above, rfl⟩
    · rw [if_neg same, if_pos (by simp [same])]
      obtain ⟨popped, eq, above, nodes⟩ := (openPath_cons ▸ above).popNode
      obtain ⟨next, eq', above, nodes'⟩ := ih above
      exact ⟨next, by rw [eq, ok_bind, eq'], above, nodes'.trans nodes⟩

theorem popAll_returns (start base : Nat) (sourceStack : List Nat)
    (above : Above entry tree (openPath start base sourceStack)) : ∃ next,
    sourceStack.foldlM (fun tree _ => tree.popNode) tree = .ok next ∧ Above entry next [] ∧
    next.nodes = tree.nodes := by
  induction sourceStack generalizing tree with
  | nil => exact ⟨tree, rfl, above, rfl⟩
  | cons ancestor sourceStack ih =>
    obtain ⟨popped, eq, above, nodes⟩ := (openPath_cons ▸ above).popNode
    obtain ⟨next, eq', above, nodes'⟩ := ih above
    exact ⟨next, by rw [List.foldlM_cons, eq, ok_bind, eq'], above, nodes'.trans nodes⟩

/-! ## Copying one node -/

theorem pushed_pushNode (tree : DispatchTree F V L) :
    Pushed tree tree.pushNode.2 { parent := tree.nodeStack.getLast? } :=
  ⟨rfl, rfl, (List.append_nil _).symm, (List.append_nil _).symm⟩

namespace Pushed

theorem top (pushed : Pushed tree next node) : next.nodeStack.getLast? = some tree.nodes.length := by
  rw [pushed.nodeStack, List.getLast?_concat]

theorem found (pushed : Pushed tree next node) : index next.nodes tree.nodes.length = .ok node := by
  rw [pushed.nodes]
  exact index_append tree.nodes node []

theorem set (pushed : Pushed tree next node) (node' : DispatchNode F V L) :
    next.nodes.set tree.nodes.length node' = tree.nodes ++ [node'] := by
  rw [pushed.nodes, List.set_append_right _ _ (le_refl _), Nat.sub_self, List.set_cons_zero]

theorem setKeyContext (pushed : Pushed tree next node) (fresh : node.context = none) (context : KeyContext) :
    ∃ after, next.setKeyContext context = .ok after ∧ Pushed tree after { node with context := some context } := by
  rw [DispatchTree.setKeyContext, modifyActiveNode, activeNodeId, pushed.top, unwrap_some, ok_bind,
    pushed.found, ok_bind]
  refine ⟨_, rfl, pushed.set _, pushed.nodeStack, ?_, pushed.views⟩
  show next.contextStack ++ [context] = _
  rw [pushed.contexts, fresh, Option.toList_none, List.append_nil, Option.toList_some]

theorem setFocusId [DecidableEq F] (pushed : Pushed tree next node) (focusId : F) :
    ∃ after, next.setFocusId focusId = .ok after ∧ Pushed tree after { node with focusId := some focusId } := by
  rw [DispatchTree.setFocusId, pushed.top, unwrap_some, ok_bind, pushed.found, ok_bind]
  exact ⟨_, rfl, pushed.set _, pushed.nodeStack, pushed.contexts, pushed.views⟩

theorem setViewId [DecidableEq V] (pushed : Pushed tree next node) (fresh : node.viewId = none) (viewId : V) :
    ∃ after shown, next.setViewId viewId = .ok after ∧ Pushed tree after { node with viewId := shown } := by
  rw [DispatchTree.setViewId]
  split_ifs with differs
  · rw [pushed.top, unwrap_some, ok_bind, pushed.found, ok_bind]
    refine ⟨_, some viewId, rfl, pushed.set _, pushed.nodeStack, pushed.contexts, ?_⟩
    show next.viewStack ++ [viewId] = _
    rw [pushed.views, fresh, Option.toList_none, List.append_nil, Option.toList_some]
  · exact ⟨next, node.viewId, rfl, pushed⟩

theorem modifyActiveNode (pushed : Pushed tree next node) {f : DispatchNode F V L → DispatchNode F V L}
    (context : (f node).context = node.context) (viewId : (f node).viewId = node.viewId) : ∃ after,
    next.modifyActiveNode f = .ok after ∧ Pushed tree after (f node) := by
  rw [DispatchTree.modifyActiveNode, activeNodeId, pushed.top, unwrap_some, ok_bind, pushed.found, ok_bind]
  refine ⟨_, rfl, pushed.set _, pushed.nodeStack, ?_, ?_⟩
  · rw [context]
    exact pushed.contexts
  · rw [viewId]
    exact pushed.views

end Pushed

variable [DecidableEq F] [DecidableEq V]

theorem moveNode_returns (tree : DispatchTree F V L) (source : DispatchNode F V L) : ∃ after moved copy,
    tree.moveNode source = .ok (after, moved) ∧ Pushed tree after copy ∧ CopyOf source copy ∧
    copy.parent = tree.nodeStack.getLast? := by
  obtain ⟨one, set₁, pushed⟩ : ∃ next,
      source.context.elim (.ok tree.pushNode.2) tree.pushNode.2.setKeyContext = .ok next ∧
        Pushed tree next { parent := tree.nodeStack.getLast?, context := source.context } := by
    cases source.context with
    | none => exact ⟨_, rfl, pushed_pushNode tree⟩
    | some context => exact (pushed_pushNode tree).setKeyContext rfl context
  obtain ⟨two, set₂, pushed⟩ : ∃ next, source.focusId.elim (.ok one) one.setFocusId = .ok next ∧
        Pushed tree next { parent := tree.nodeStack.getLast?, context := source.context,
                           focusId := source.focusId } := by
    cases source.focusId with
    | none => exact ⟨one, rfl, pushed⟩
    | some focusId => exact pushed.setFocusId focusId
  obtain ⟨three, shown, set₃, pushed⟩ : ∃ next shown, source.viewId.elim (.ok two) two.setViewId = .ok next ∧
        Pushed tree next { parent := tree.nodeStack.getLast?, context := source.context,
                           focusId := source.focusId, viewId := shown } := by
    cases source.viewId with
    | none => exact ⟨two, none, rfl, pushed⟩
    | some viewId => exact pushed.setViewId rfl viewId
  obtain ⟨after, set₄, pushed⟩ := pushed.modifyActiveNode (f := fun target => { target with
      keyListeners := source.keyListeners
      actionListeners := source.actionListeners
      modifiersChangedListeners := source.modifiersChangedListeners }) rfl rfl
  let moved : DispatchNode F V L := { source with
    keyListeners := [], actionListeners := [], modifiersChangedListeners := [] }
  refine ⟨after, moved, _, ?_, pushed, ⟨rfl, rfl, rfl, rfl, rfl⟩, rfl⟩
  rw [moveNode]
  dsimp only
  rw [set₁, ok_bind, set₂, ok_bind, set₃, ok_bind, set₄, ok_bind]
  rfl

/-! ## The walk over the range -/

structure Copied (entry : DispatchTree F V L) (nodes : List (DispatchNode F V L))
    (start stop reached : Nat) (tree : DispatchTree F V L) : Prop where
  count : tree.nodes.length = copyId start entry.nodes.length reached
  kept : ∀ nodeId, nodeId < entry.nodes.length → tree.nodes[nodeId]? = entry.nodes[nodeId]?
  copies : ∀ nodeId, start ≤ nodeId → nodeId < reached → ∃ original copy, nodes[nodeId]? = some original ∧
    tree.nodes[copyId start entry.nodes.length nodeId]? = some copy ∧ CopyOf original copy ∧
    copy.parent = copiedParent start stop entry.nodes.length entry.nodeStack.getLast? original.parent

structure Walk (nodes : List (DispatchNode F V L)) (start stop reached : Nat)
    (sourceStack : List Nat) : Prop where
  closed : Closed nodes start stop sourceStack
  inRange : ∀ nodeId ∈ sourceStack, start ≤ nodeId ∧ nodeId < reached
  last : start < reached → reached - 1 ∈ sourceStack

section Walk
omit [DecidableEq F] [DecidableEq V]
variable {nodes : List (DispatchNode F V L)} {start stop reached : Nat} {sourceStack : List Nat}

theorem head_dropWhile {up : Nat} (mem : up ∈ sourceStack) :
    (sourceStack.dropWhile (some up ≠ some ·)).head? = some up := by
  induction sourceStack with
  | nil => cases mem
  | cons nodeId sourceStack ih =>
    rw [List.dropWhile_cons]
    by_cases same : up = nodeId
    · simp [same]
    · rw [if_pos (by simpa using same)]
      exact ih ((List.mem_cons.mp mem).resolve_left same)

theorem Walk.parent (walk : Walk nodes start stop reached sourceStack)
    (preorder : Preorder nodes start stop) (low : start ≤ reached) (high : reached < stop)
    (found : nodes[reached]? = some node) :
    (∃ up, node.parent = some up ∧ start ≤ up ∧ up < stop ∧ up ∈ sourceStack ∧
      (sourceStack.dropWhile (node.parent ≠ some ·)).head? = some up) ∨
    (∀ up, node.parent = some up → ¬ (start ≤ up ∧ up < stop)) ∧ sourceStack.dropWhile (node.parent ≠ some ·) = [] := by
  by_cases inside : ∃ up, node.parent = some up ∧ start ≤ up ∧ up < stop
  · obtain ⟨up, parent, above, below⟩ := inside
    obtain ⟨later, lineage⟩ := preorder reached node low high found up parent above below
    have mem := walk.closed.lineage (walk.last later) lineage
    exact .inl ⟨up, parent, above, below, mem, by rw [parent]; exact head_dropWhile mem⟩
  · have outside : ∀ up, node.parent = some up → ¬ (start ≤ up ∧ up < stop) :=
      fun up parent range => inside ⟨up, parent, range⟩
    refine .inr ⟨outside, List.dropWhile_eq_nil_iff.mpr fun up mem => ?_⟩
    obtain ⟨above, below⟩ := walk.inRange up mem
    simpa using fun parent => outside up parent ⟨above, by omega⟩

theorem Walk.advance (walk : Walk nodes start stop reached sourceStack) (preorder : Preorder nodes start stop)
    (low : start ≤ reached) (high : reached < stop) (found : nodes[reached]? = some node) :
    Walk nodes start stop (reached + 1) (reached :: sourceStack.dropWhile (node.parent ≠ some ·)) := by
  refine ⟨.cons ?_ (walk.closed.dropWhile _), ?_, fun _ => List.mem_cons_self⟩
  · intro node' up found' parent above below
    obtain rfl := Option.some_inj.mp (found.symm.trans found')
    rcases walk.parent preorder low high found with ⟨up', parent', -, -, -, head⟩ | ⟨outside, -⟩
    · obtain rfl := Option.some_inj.mp (parent.symm.trans parent')
      exact List.mem_of_head? head
    · exact absurd ⟨above, below⟩ (outside up parent)
  · intro nodeId mem
    rcases List.mem_cons.mp mem with rfl | mem
    · exact ⟨low, Nat.lt_succ_self _⟩
    · obtain ⟨above, below⟩ := walk.inRange nodeId ((List.dropWhile_sublist _).mem mem)
      exact ⟨above, Nat.lt_succ_of_lt below⟩

theorem Walk.copiedParent_eq (walk : Walk nodes start stop reached sourceStack)
    (preorder : Preorder nodes start stop) (low : start ≤ reached) (high : reached < stop)
    (found : nodes[reached]? = some node) (base : Nat) (stack : List Nat) :
    (stack ++ openPath start base (sourceStack.dropWhile (node.parent ≠ some ·))).getLast? =
      copiedParent start stop base stack.getLast? node.parent := by
  rcases walk.parent preorder low high found with ⟨up, parent, above, below, -, head⟩ | ⟨outside, left⟩
  · rw [List.getLast?_append, openPath, List.getLast?_reverse, List.head?_map, head, parent]
    simp [copiedParent, above, below, copyId]
  · rw [left]
    cases parent : node.parent with
    | none => simp [openPath, copiedParent]
    | some up => simp [openPath, copiedParent, outside up parent]

end Walk

omit [DecidableEq F] [DecidableEq V] in
theorem Copied.advance {nodes : List (DispatchNode F V L)} {start stop reached : Nat}
    {original copy : DispatchNode F V L} (copied : Copied entry nodes start stop reached tree)
    (low : start ≤ reached) (found : nodes[reached]? = some original)
    (pushed : next.nodes = tree.nodes ++ [copy]) (isCopy : CopyOf original copy)
    (parent : copy.parent = copiedParent start stop entry.nodes.length entry.nodeStack.getLast? original.parent) :
    Copied entry nodes start stop (reached + 1) next := by
  have count := copied.count
  simp only [copyId] at count
  refine ⟨?_, ?_, ?_⟩
  · rw [pushed, List.length_append, List.length_singleton, copyId]
    omega
  · intro nodeId known
    rw [pushed, List.getElem?_append_left (by omega)]
    exact copied.kept nodeId known
  · intro nodeId above below
    rw [pushed]
    by_cases old : nodeId < reached
    · rw [List.getElem?_append_left (by simp only [copyId]; omega)]
      exact copied.copies nodeId above old
    · obtain rfl : nodeId = reached := by omega
      rw [← copied.count]
      exact ⟨original, copy, found, List.getElem?_concat_length, isCopy, parent⟩

theorem reuseNodes_returns {nodes : List (DispatchNode F V L)} {start stop reached : Nat}
    {sourceStack : List Nat} (focus : Option F) (containsFocus : Bool)
    (preorder : Preorder nodes start stop) (within : stop ≤ nodes.length)
    (low : start ≤ reached) (high : reached ≤ stop)
    (walk : Walk nodes start stop reached sourceStack)
    (above : Above entry tree (openPath start entry.nodes.length sourceStack))
    (copied : Copied entry nodes start stop reached tree) :
    ∃ next left seen moved, reuseNodes focus ((nodes.drop reached).take (stop - reached)) reached tree sourceStack
        containsFocus = .ok (next, left, seen, moved) ∧
      Above entry next (openPath start entry.nodes.length left) ∧
      Copied entry nodes start stop stop next := by
  obtain ⟨rest, length⟩ : ∃ rest, stop - reached = rest := ⟨_, rfl⟩
  induction rest generalizing reached sourceStack tree containsFocus with
  | zero =>
    obtain rfl : reached = stop := by omega
    rw [Nat.sub_self, List.take_zero]
    exact ⟨tree, sourceStack, containsFocus, [], rfl, above, copied⟩
  | succ rest ih =>
    have known : reached < nodes.length := by omega
    have found : nodes[reached]? = some nodes[reached] := List.getElem?_eq_getElem known
    obtain ⟨popped, pops, above, sameNodes⟩ :=
      popToParent_returns start entry.nodes.length nodes[reached].parent sourceStack above
    obtain ⟨after, moved, copy, moves, pushed, isCopy, parent⟩ := moveNode_returns popped nodes[reached]
    have advanced : Copied entry nodes start stop (reached + 1) after :=
      copied.advance low found (by rw [pushed.nodes, sameNodes]) isCopy (by
        rw [parent, above.nodeStack]
        exact walk.copiedParent_eq preorder low (by omega) found _ _)
    have above := above.pushed pushed
    rw [sameNodes, copied.count, ← openPath_cons] at above
    obtain ⟨next, left, seen, others, reuses, above, copied⟩ :=
      ih (containsFocus || (nodes[reached].focusId.isSome && nodes[reached].focusId == focus))
        (Nat.le_succ_of_le low) (by omega) (walk.advance preorder low (by omega) found) above
        advanced (by omega)
    refine ⟨next, left, seen, moved :: others, ?_, above, copied⟩
    rw [length, List.drop_eq_getElem_cons known, List.take_succ_cons, reuseNodes, pops, ok_bind]
    dsimp only
    rw [moves, ok_bind]
    dsimp only
    rw [show stop - (reached + 1) = rest by omega] at reuses
    rw [reuses]
    rfl

theorem reuseSubtree_copies (self source : DispatchTree F V L) (start stop : Nat) (focus : Option F)
    (ordered : start ≤ stop) (within : stop ≤ source.nodes.length)
    (preorder : Preorder source.nodes start stop) :
    ∃ reused next source', self.reuseSubtree (start, stop) source focus = .ok (reused, next, source') ∧
      next.nodeStack = self.nodeStack ∧ next.contextStack = self.contextStack ∧
      next.viewStack = self.viewStack ∧
      reused.newRange.1 = self.nodes.length ∧
      next.nodes.length = self.nodes.length + (stop - start) ∧
      (∀ nodeId, nodeId < self.nodes.length → next.nodes[nodeId]? = self.nodes[nodeId]?) ∧
      ∀ nodeId, start ≤ nodeId → nodeId < stop → ∃ original copy, source.nodes[nodeId]? = some original ∧
        next.nodes[nodeId - start + reused.newRange.1]? = some copy ∧ CopyOf original copy ∧
        copy.parent = copiedParent start stop reused.newRange.1 self.activeNodeId original.parent := by
  have begins : Copied self source.nodes start stop start self := by
    refine ⟨by simp [copyId], fun _ _ => rfl, fun nodeId above below => ?_⟩
    exact absurd above (Nat.not_le_of_lt below)
  have walk : Walk source.nodes start stop start [] :=
    ⟨.nil, fun _ mem => absurd mem List.not_mem_nil, fun later => absurd later (lt_irrefl _)⟩
  obtain ⟨walked, left, seen, moved, reuses, above, copied⟩ :=
    reuseNodes_returns focus false preorder within (le_refl _) ordered walk .refl begins
  obtain ⟨next, pops, above, nodes⟩ := popAll_returns start self.nodes.length left above
  obtain ⟨source', run⟩ : ∃ source', self.reuseSubtree (start, stop) source focus = .ok
      (⟨(start, stop), (self.nodes.length, self.nodes.length + (stop - start)), seen⟩, next, source') := by
    rw [reuseSubtree]
    dsimp only
    rw [reuses, ok_bind]
    dsimp only
    rw [pops]
    exact ⟨_, rfl⟩
  refine ⟨_, next, source', run, ?_, ?_, ?_, rfl, ?_, ?_, ?_⟩
  · rw [above.nodeStack, List.append_nil]
  · rw [above.contexts, along_nil, List.append_nil]
  · rw [above.views, along_nil, List.append_nil]
  · rw [nodes, copied.count, copyId, Nat.add_comm]
  · rw [nodes]
    exact copied.kept
  · rw [nodes]
    exact copied.copies

/-- Two siblings, the first with a child, go under a node that shows the view of the second. -/
theorem reuseSubtree_copies_siblings :
    let source := { (DispatchTree.new : DispatchTree Nat Nat Nat) with
      nodes := [{ parent := none }, { parent := some 0, focusId := some 4 },
        { parent := some 1, keyListeners := [9] }, { parent := some 0, viewId := some 5 }] }
    let self := { (DispatchTree.new : DispatchTree Nat Nat Nat) with
      nodeStack := [0], viewStack := [5], nodes := [{ parent := none, viewId := some 5 }] }
    ∃ reused next source', self.reuseSubtree (1, 4) source none = .ok (reused, next, source') ∧
      next.nodeStack = [0] ∧ next.viewStack = [5] ∧ next.nodes.length = 4 ∧
      ∃ copy, next.nodes[2]? = some copy ∧ copy.keyListeners = [9] ∧ copy.parent = some 1 := by
  intro source self
  have preorder : Preorder source.nodes 1 4 := by
    intro nodeId node low high found up parent above below
    interval_cases nodeId <;> cases found <;> cases parent
    · cases above
    · exact ⟨by decide, .refl 1⟩
    · cases above
  obtain ⟨reused, next, source', run, nodeStack, -, views, base, length, -, copies⟩ :=
    reuseSubtree_copies self source 1 4 none (by decide) (by decide) preorder
  obtain ⟨original, copy, found, copied, isCopy, parent⟩ := copies 2 (by decide) (by decide)
  cases found
  rw [base] at copied parent
  exact ⟨reused, next, source', run, nodeStack, views, length, copy, copied, isCopy.keyListeners, parent⟩

end DispatchTree
end Pinrail.KeyDispatch

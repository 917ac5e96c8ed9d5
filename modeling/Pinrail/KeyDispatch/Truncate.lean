import Mathlib.Tactic.Common
import Pinrail.KeyDispatch.Tree

/-!
# Rolling back the dispatch tree

`truncate` removes from the two maps every id that a node that goes has. This undoes what was added
since exactly when those nodes still have all the ids that were assigned since and none of the ids that
were known before.
-/

namespace Pinrail.KeyDispatch
open Lib Keymap
variable {F V L : Type}

def Held {α : Type} (field : DispatchNode F V L → Option α) (nodes : List (DispatchNode F V L))
    (id : α) : Prop :=
  ∃ node ∈ nodes, field node = some id

structure NewIds {α : Type} (held : α → Prop) (earlier later : α → Option Nat) : Prop where
  new : ∀ id, held id → earlier id = none
  others : ∀ id, ¬ held id → later id = earlier id

def forgetId {α : Type} [DecidableEq α] (field : DispatchNode F V L → Option α)
    (map : α → Option Nat) (node : DispatchNode F V L) : α → Option Nat :=
  (field node).elim map fun id => Function.update map id none

def forgetIds {α : Type} [DecidableEq α] (field : DispatchNode F V L → Option α)
    (nodes : List (DispatchNode F V L)) (map : α → Option Nat) : α → Option Nat :=
  nodes.foldl (forgetId field) map

section Maps
variable {α : Type} {field : DispatchNode F V L → Option α} {nodes : List (DispatchNode F V L)}
  {node assigned : DispatchNode F V L} {earlier later : α → Option Nat} {id other : α}
  {count nodeId : Nat}

theorem held_cons : Held field (node :: nodes) id ↔ field node = some id ∨ Held field nodes id := by
  simp only [Held, List.mem_cons, or_and_right, exists_or, exists_eq_left]

theorem held_concat : Held field (nodes ++ [node]) id ↔ Held field nodes id ∨ field node = some id := by
  simp only [Held, List.mem_append, List.mem_singleton, or_and_right, exists_or, exists_eq_left]

theorem held_iff_getElem? : Held field nodes id ↔ ∃ i : Nat, nodes[i]?.bind field = some id := by
  simp only [Held, List.mem_iff_getElem?, Option.bind_eq_some_iff]
  constructor
  · rintro ⟨node, ⟨i, found⟩, has⟩
    exact ⟨i, node, found, has⟩
  · rintro ⟨i, node, found, has⟩
    exact ⟨node, ⟨i, found⟩, has⟩

section Forget
variable [DecidableEq α]

theorem forgetId_apply :
    forgetId field later node id = if field node = some id then none else later id := by
  cases has : field node with
  | none => simp [forgetId, has]
  | some other => simp [forgetId, has, Function.update_apply, eq_comm]

theorem forgetIds_apply_none (gone : later id = none) : forgetIds field nodes later id = none := by
  induction nodes generalizing later with
  | nil => exact gone
  | cons node nodes ih => exact ih (by rw [forgetId_apply, gone, ite_self])

theorem forgetIds_free (free : ¬ Held field nodes id) : forgetIds field nodes later id = later id := by
  induction nodes generalizing later with
  | nil => rfl
  | cons node nodes ih =>
    rw [held_cons, not_or] at free
    exact (ih free.2).trans (by rw [forgetId_apply, if_neg free.1])

theorem forgetIds_held (held : Held field nodes id) : forgetIds field nodes later id = none := by
  induction nodes generalizing later with
  | nil =>
    obtain ⟨node, mem, -⟩ := held
    cases mem
  | cons node nodes ih =>
    rcases held_cons.mp held with here | held
    · show forgetIds field nodes (forgetId field later node) id = none
      exact forgetIds_apply_none (by rw [forgetId_apply, if_pos here])
    · exact ih held

theorem forgetIds_eq_iff : forgetIds field nodes later = earlier ↔ NewIds (Held field nodes) earlier later := by
  constructor
  · rintro rfl
    exact ⟨fun id => forgetIds_held, fun id free => (forgetIds_free free).symm⟩
  · intro changed
    funext id
    by_cases held : Held field nodes id
    · rw [forgetIds_held held, changed.new id held]
    · rw [forgetIds_free held, changed.others id held]

end Forget

/-! ## Assigning an id -/

/-- An id is assigned to a node that was added and has no other one, and is new; or it is the node's
own and recorded as such already. -/
def AssignsNew {α : Type} (field : DispatchNode F V L → Option α) (count : Nat)
    (earlier now : α → Option Nat) (id : α) (nodeId : Nat) (node : DispatchNode F V L) : Prop :=
  count ≤ nodeId ∧ earlier id = none ∧ (field node = none ∨ field node = some id) ∨
    field node = some id ∧ now id = some nodeId

theorem held_set (found : nodes[nodeId]? = some node)
    (free : field node = none ∨ field node = some id) (has : field assigned = some id) :
    Held field (nodes.set nodeId assigned) other ↔ Held field nodes other ∨ other = id := by
  have known := (List.getElem?_eq_some_iff.mp found).1
  simp only [held_iff_getElem?]
  constructor
  · rintro ⟨i, there⟩
    by_cases same : nodeId = i
    · subst same
      rw [List.getElem?_set_self known, Option.bind_some, has] at there
      exact .inr (Option.some_inj.mp there).symm
    · rw [List.getElem?_set_ne same] at there
      exact .inl ⟨i, there⟩
  · rintro (⟨i, there⟩ | rfl)
    · by_cases same : nodeId = i
      · subst same
        rw [found, Option.bind_some] at there
        refine ⟨nodeId, ?_⟩
        rw [List.getElem?_set_self known, Option.bind_some, has, ← there]
        rcases free with free | free
        · rw [free] at there
          cases there
        · exact free.symm
      · exact ⟨i, by rw [List.getElem?_set_ne same, there]⟩
    · exact ⟨nodeId, by rw [List.getElem?_set_self known, Option.bind_some, has]⟩

theorem held_set_same (found : nodes[nodeId]? = some node) (same : field assigned = field node) :
    Held field ((nodes.set nodeId assigned).drop count) other ↔ Held field (nodes.drop count) other := by
  have each : ∀ i : Nat, (nodes.set nodeId assigned)[i]?.bind field = nodes[i]?.bind field := by
    intro i
    by_cases here : nodeId = i
    · subst here
      rw [List.getElem?_set_self (List.getElem?_eq_some_iff.mp found).1, found, Option.bind_some,
        Option.bind_some, same]
    · rw [List.getElem?_set_ne here]
  simp only [held_iff_getElem?, List.getElem?_drop, each]

theorem take_set (found : nodes[nodeId]? = some node) (fine : count ≤ nodeId ∨ assigned = node) :
    (nodes.set nodeId assigned).take count = nodes.take count := by
  rcases fine with late | rfl
  · exact List.take_set_of_le late
  · obtain ⟨known, rfl⟩ := List.getElem?_eq_some_iff.mp found
    rw [List.set_getElem_self]

theorem NewIds.congr {held held' : α → Prop} (same : ∀ id, held' id ↔ held id)
    (changed : NewIds held earlier later) : NewIds held' earlier later := by
  obtain rfl : held' = held := funext fun id => propext (same id)
  exact changed

theorem NewIds.assign [DecidableEq α] (changed : NewIds (Held field (nodes.drop count)) earlier later)
    (found : nodes[nodeId]? = some node) (has : field assigned = some id)
    (assigns : AssignsNew field count earlier later id nodeId node) :
    NewIds (Held field ((nodes.set nodeId assigned).drop count)) earlier (Function.update later id (some nodeId)) := by
  rcases assigns with ⟨late, new, free⟩ | ⟨own, recorded⟩
  · have there : (nodes.drop count)[nodeId - count]? = some node := by
      rw [List.getElem?_drop, Nat.add_sub_cancel' late, found]
    have held : ∀ other, Held field ((nodes.set nodeId assigned).drop count) other ↔
        Held field (nodes.drop count) other ∨ other = id := by
      intro other
      rw [List.drop_set, if_neg (Nat.not_lt_of_le late), held_set there free has]
    constructor
    · intro other isHeld
      rcases (held other).mp isHeld with isHeld | rfl
      · exact changed.new other isHeld
      · exact new
    · intro other isFree
      rw [held, not_or] at isFree
      rw [Function.update_of_ne isFree.2, changed.others other isFree.1]
  · rw [← recorded, Function.update_eq_self]
    exact changed.congr fun other => held_set_same found (has.trans own.symm)

end Maps

namespace DispatchTree
variable [DecidableEq F] [DecidableEq V]
variable {earlier later next : DispatchTree F V L}

theorem foldl_forget (nodes : List (DispatchNode F V L)) (tree : DispatchTree F V L) :
    nodes.foldl forget tree = { tree with
      focusableNodeIds := forgetIds DispatchNode.focusId nodes tree.focusableNodeIds
      viewNodeIds := forgetIds DispatchNode.viewId nodes tree.viewNodeIds } := by
  induction nodes generalizing tree with
  | nil => rfl
  | cons node nodes ih => exact ih _

/-- What is left of an earlier tree in a later one, so that `truncate` gets it back. -/
structure Undoable (earlier later : DispatchTree F V L) : Prop where
  long : earlier.nodes.length ≤ later.nodes.length
  nodes : later.nodes.take earlier.nodes.length = earlier.nodes
  focusIds : NewIds (Held DispatchNode.focusId (later.nodes.drop earlier.nodes.length))
    earlier.focusableNodeIds later.focusableNodeIds
  viewIds : NewIds (Held DispatchNode.viewId (later.nodes.drop earlier.nodes.length))
    earlier.viewNodeIds later.viewNodeIds

structure SameNodes (earlier later : DispatchTree F V L) : Prop where
  nodes : later.nodes = earlier.nodes
  focusableNodeIds : later.focusableNodeIds = earlier.focusableNodeIds
  viewNodeIds : later.viewNodeIds = earlier.viewNodeIds

theorem truncate_iff : (∃ next, later.truncate earlier.nodes.length = .ok next ∧ SameNodes earlier next) ↔
    Undoable earlier later := by
  rw [truncate, sliceFrom]
  split_ifs with long
  · rw [ok_bind, foldl_forget]
    constructor
    · rintro ⟨next, eq, same⟩
      cases eq
      exact ⟨long, same.nodes, forgetIds_eq_iff.mp same.focusableNodeIds, forgetIds_eq_iff.mp same.viewNodeIds⟩
    · intro undoable
      exact ⟨_, rfl, undoable.nodes, forgetIds_eq_iff.mpr undoable.focusIds, forgetIds_eq_iff.mpr undoable.viewIds⟩
  · constructor
    · rintro ⟨next, eq, same⟩
      cases eq
    · exact fun undoable => absurd undoable.long long

/-! ## What is added -/

/-- The operations between a checkpoint and its `truncate`. -/
inductive Addition (F V : Type) where
  | pushNode
  | setFocusId (focusId : F)
  | setViewId (viewId : V)
  | popNode
deriving DecidableEq

def Addition.run : Addition F V → DispatchTree F V L → Except Panic (DispatchTree F V L)
  | .pushNode, tree => .ok tree.pushNode.2
  | .setFocusId focusId, tree => tree.setFocusId focusId
  | .setViewId viewId, tree => tree.setViewId viewId
  | .popNode, tree => tree.popNode

inductive Runs (allowed : DispatchTree F V L → Addition F V → Prop) (earlier : DispatchTree F V L) :
    DispatchTree F V L → Prop
  | refl : Runs allowed earlier earlier
  | step {tree next : DispatchTree F V L} {addition : Addition F V} :
      Runs allowed earlier tree → allowed tree addition → addition.run tree = .ok next →
      Runs allowed earlier next

/-- The assignments that `truncate` undoes. -/
def Clean (earlier tree : DispatchTree F V L) : Addition F V → Prop
  | .pushNode => True
  | .popNode => True
  | .setFocusId focusId => ∀ nodeId node, tree.activeNodeId = some nodeId → tree.nodes[nodeId]? = some node →
      AssignsNew DispatchNode.focusId earlier.nodes.length earlier.focusableNodeIds
        tree.focusableNodeIds focusId nodeId node
  | .setViewId viewId => tree.viewStack.getLast? = some viewId ∨
      ∀ nodeId node, tree.activeNodeId = some nodeId → tree.nodes[nodeId]? = some node →
        AssignsNew DispatchNode.viewId earlier.nodes.length earlier.viewNodeIds tree.viewNodeIds viewId nodeId node

/-! ## Runs -/

section Steps
omit [DecidableEq F] [DecidableEq V]

theorem Undoable.refl : Undoable earlier earlier := by
  have free : ∀ {α : Type} (field : DispatchNode F V L → Option α) id,
      ¬ Held field (earlier.nodes.drop earlier.nodes.length) id := by
    rintro α field id ⟨node, mem, -⟩
    rw [List.drop_length] at mem
    cases mem
  refine ⟨le_refl _, List.take_length, ⟨?_, fun _ _ => rfl⟩, ⟨?_, fun _ _ => rfl⟩⟩
  · exact fun id held => absurd held (free _ id)
  · exact fun id held => absurd held (free _ id)

theorem Undoable.pushNode (undoable : Undoable earlier later) : Undoable earlier later.pushNode.2 := by
  obtain ⟨long, nodes, focusIds, viewIds⟩ := undoable
  have pushed : later.pushNode.2.nodes.drop earlier.nodes.length =
      later.nodes.drop earlier.nodes.length ++ [{ parent := later.nodeStack.getLast? }] :=
    List.drop_append_of_le_length long
  refine ⟨?_, ?_, ?_, ?_⟩
  · exact long.trans (by simp [DispatchTree.pushNode])
  · exact (List.take_append_of_le_length long).trans nodes
  · rw [pushed]
    exact focusIds.congr fun id => by simp [held_concat]
  · rw [pushed]
    exact viewIds.congr fun id => by simp [held_concat]

theorem Undoable.of_same (undoable : Undoable earlier later) (same : SameNodes later next) : Undoable earlier next := by
  obtain ⟨long, nodes, focusIds, viewIds⟩ := undoable
  constructor
  · rwa [same.nodes]
  · rwa [same.nodes]
  · rwa [same.nodes, same.focusableNodeIds]
  · rwa [same.nodes, same.viewNodeIds]

theorem Undoable.popNode (undoable : Undoable earlier later) (popped : later.popNode = .ok next) :
    Undoable earlier next := by
  refine undoable.of_same ?_
  obtain ⟨nodeId, active, rest⟩ := bind_eq_ok.mp popped
  obtain ⟨node, found, rest⟩ := bind_eq_ok.mp rest
  cases rest
  exact ⟨rfl, rfl, rfl⟩

end Steps

omit [DecidableEq V] in
theorem Undoable.setFocusId {focusId : F} (undoable : Undoable earlier later)
    (clean : Clean earlier later (.setFocusId focusId)) (set : later.setFocusId focusId = .ok next) :
    Undoable earlier next := by
  obtain ⟨long, nodes, focusIds, viewIds⟩ := undoable
  obtain ⟨nodeId, active, rest⟩ := bind_eq_ok.mp set
  obtain ⟨node, found, rest⟩ := bind_eq_ok.mp rest
  cases rest
  have found := getElem?_of_index found
  have assigns := clean nodeId node (eq_some_of_unwrap active) found
  refine ⟨by simpa using long, ?_, focusIds.assign found rfl assigns, viewIds.congr fun id => held_set_same found rfl⟩
  refine (take_set found ?_).trans nodes
  rcases assigns with ⟨late, -⟩ | ⟨own, -⟩
  · exact .inl late
  · exact .inr (by rw [← own])

omit [DecidableEq F] in
theorem Undoable.setViewId {viewId : V} (undoable : Undoable earlier later)
    (clean : Clean earlier later (.setViewId viewId)) (set : later.setViewId viewId = .ok next) :
    Undoable earlier next := by
  rw [DispatchTree.setViewId] at set
  split_ifs at set with differs
  · obtain ⟨long, nodes, focusIds, viewIds⟩ := undoable
    obtain ⟨nodeId, active, rest⟩ := bind_eq_ok.mp set
    obtain ⟨node, found, rest⟩ := bind_eq_ok.mp rest
    cases rest
    have found := getElem?_of_index found
    have assigns := clean.resolve_left differs nodeId node (eq_some_of_unwrap active) found
    refine ⟨by simpa using long, ?_, focusIds.congr fun id => held_set_same found rfl, viewIds.assign found rfl assigns⟩
    refine (take_set found ?_).trans nodes
    rcases assigns with ⟨late, -⟩ | ⟨own, -⟩
    · exact .inl late
    · exact .inr (by rw [← own])
  · cases set
    exact undoable

theorem Runs.undoable (runs : Runs (Clean earlier) earlier later) : Undoable earlier later := by
  induction runs with
  | refl => exact .refl
  | @step tree next addition runs clean ran ih =>
    cases addition with
    | pushNode =>
      cases ran
      exact ih.pushNode
    | setFocusId focusId => exact ih.setFocusId clean ran
    | setViewId viewId => exact ih.setViewId clean ran
    | popNode => exact ih.popNode ran

/-- Clean runs are rolled back. -/
theorem truncate_undoes (earlier later : DispatchTree F V L) (runs : Runs (Clean earlier) earlier later) :
    ∃ next, later.truncate earlier.nodes.length = .ok next ∧ next.nodes = earlier.nodes ∧
      next.focusableNodeIds = earlier.focusableNodeIds ∧ next.viewNodeIds = earlier.viewNodeIds := by
  obtain ⟨next, truncated, same⟩ := truncate_iff.mpr runs.undoable
  exact ⟨next, truncated, same.nodes, same.focusableNodeIds, same.viewNodeIds⟩

def focused : DispatchTree Nat Nat Nat :=
  { (DispatchTree.new : DispatchTree Nat Nat Nat) with
    nodeStack := [0]
    nodes := [{ focusId := some 7 }]
    focusableNodeIds := Function.update (fun _ => none) 7 (some 0) }

/-- A child with a focus id of its own. -/
theorem truncate_undoes_other :
    ∃ later next : DispatchTree Nat Nat Nat, later.nodes.length = 2 ∧ later.focusableNodeIds 8 = some 1 ∧
      later.truncate focused.nodes.length = .ok next ∧ next.nodes = focused.nodes ∧
      next.focusableNodeIds = focused.focusableNodeIds := by
  have clean : Clean focused focused.pushNode.2 (.setFocusId 8) := by
    intro nodeId node active found
    cases active
    cases found
    exact .inl ⟨by decide, by decide, .inl rfl⟩
  have nothing : Clean focused focused .pushNode := trivial
  have pushed : Runs (Clean focused) focused focused.pushNode.2 := .step .refl nothing rfl
  have runs : Runs (Clean focused) focused _ := .step pushed clean rfl
  obtain ⟨next, truncated, nodes, focusIds, -⟩ := truncate_undoes focused _ runs
  exact ⟨_, next, rfl, by decide, truncated, nodes, focusIds⟩

/-- The id of a node that stays is taken by one that goes. -/
theorem truncate_forgets : ¬ ∀ earlier later : DispatchTree Nat Nat Nat, Runs (fun _ _ => True) earlier later →
    ∃ next, later.truncate earlier.nodes.length = .ok next ∧ next.nodes = earlier.nodes ∧
      next.focusableNodeIds = earlier.focusableNodeIds ∧ next.viewNodeIds = earlier.viewNodeIds := by
  intro undoes
  have pushed : Runs (fun _ (_ : Addition Nat Nat) => True) focused focused.pushNode.2 :=
    .step .refl trivial (rfl : Addition.pushNode.run focused = .ok _)
  have runs : Runs (fun _ (_ : Addition Nat Nat) => True) focused _ :=
    .step pushed trivial (rfl : (Addition.setFocusId 7).run focused.pushNode.2 = .ok _)
  obtain ⟨next, truncated, -, focusIds, -⟩ := undoes focused _ runs
  cases truncated
  exact absurd (congrFun focusIds 7) (by decide)

end DispatchTree
end Pinrail.KeyDispatch

import Pinrail.Lib.Ranked

/-!
# Key contexts and their predicates

`KeyContext` and `KeyBindingContextPredicate` of `keymap/context.rs`: the contexts along a path of
the element tree, outermost first, and the predicates that select a depth in such a stack.
-/

namespace Pinrail.Keymap
open Lib

/-- A `SharedString` as its characters. -/
abbrev SharedString := List Char

structure ContextEntry where
  key : SharedString
  value : Option SharedString
deriving DecidableEq

structure KeyContext where
  entries : List ContextEntry
deriving DecidableEq

namespace KeyContext

def contains (self : KeyContext) (key : SharedString) : Bool :=
  self.entries.any fun entry => entry.key == key

def get (self : KeyContext) (key : SharedString) : Option SharedString := do
  let entry ← self.entries.find? fun entry => entry.key == key
  entry.value

end KeyContext

inductive KeyBindingContextPredicate where
  | identifier (name : SharedString)
  | equal (left right : SharedString)
  | notEqual (left right : SharedString)
  | descendant (parent child : KeyBindingContextPredicate)
  | not (pred : KeyBindingContextPredicate)
  | and (left right : KeyBindingContextPredicate)
  | or (left right : KeyBindingContextPredicate)
deriving DecidableEq

namespace KeyBindingContextPredicate

def evalInner (self : KeyBindingContextPredicate) (contexts allContexts : List KeyContext) : Bool :=
  match contexts.getLast? with
  | none => false
  | some context =>
    match self with
    | identifier name => context.contains name
    | equal left right => ((context.get left).map fun value => value == right).getD false
    | notEqual left right => ((context.get left).map fun value => value != right).getD true
    | not pred =>
      !(List.range allContexts.length).any fun i =>
        pred.evalInner (allContexts.take (i + 1)) allContexts
    | descendant parent child =>
      -- The outermost ancestor that satisfies `parent` decides; `child` sees what is below it.
      match (List.range (contexts.length - 1)).find? fun i =>
          parent.evalInner (contexts.take (i + 1)) allContexts with
      | some i => child.evalInner (contexts.drop (i + 1)) (contexts.drop (i + 1))
      | none => false
    | and left right => left.evalInner contexts allContexts && right.evalInner contexts allContexts
    | or left right => left.evalInner contexts allContexts || right.evalInner contexts allContexts

/-! ## Evaluation, operator by operator -/

@[simp] theorem evalInner_nil (self : KeyBindingContextPredicate) (allContexts : List KeyContext) :
    self.evalInner [] allContexts = false := by
  rw [evalInner, List.getLast?_nil]

@[simp] theorem evalInner_and (left right : KeyBindingContextPredicate)
    (contexts allContexts : List KeyContext) : (and left right).evalInner contexts allContexts =
      (left.evalInner contexts allContexts && right.evalInner contexts allContexts) := by
  cases deepest : contexts.getLast? with
  | none =>
    obtain rfl := List.getLast?_eq_none_iff.mp deepest
    simp only [evalInner_nil, Bool.and_self]
  | some context => rw [evalInner, deepest]

@[simp] theorem evalInner_or (left right : KeyBindingContextPredicate)
    (contexts allContexts : List KeyContext) : (or left right).evalInner contexts allContexts =
      (left.evalInner contexts allContexts || right.evalInner contexts allContexts) := by
  cases deepest : contexts.getLast? with
  | none =>
    obtain rfl := List.getLast?_eq_none_iff.mp deepest
    simp only [evalInner_nil, Bool.or_self]
  | some context => rw [evalInner, deepest]

theorem evalInner_not (pred : KeyBindingContextPredicate) (contexts allContexts : List KeyContext) :
    (not pred).evalInner contexts allContexts = (!contexts.isEmpty && !(List.range allContexts.length).any fun i =>
        pred.evalInner (allContexts.take (i + 1)) allContexts) := by
  cases contexts with
  | nil => rw [evalInner_nil, List.isEmpty_nil, Bool.not_true, Bool.false_and]
  | cons context contexts =>
    rw [evalInner, List.getLast?_cons, List.isEmpty_cons, Bool.not_false, Bool.true_and]

theorem evalInner_descendant (parent child : KeyBindingContextPredicate)
    (contexts allContexts : List KeyContext) : (descendant parent child).evalInner contexts allContexts =
      match (List.range (contexts.length - 1)).find? fun i =>
          parent.evalInner (contexts.take (i + 1)) allContexts with
      | some i => child.evalInner (contexts.drop (i + 1)) (contexts.drop (i + 1))
      | none => false := by
  cases contexts with
  | nil =>
    rw [evalInner_nil]
    rfl
  | cons context contexts => rw [evalInner, List.getLast?_cons]

theorem evalInner_descendant_iff {parent child : KeyBindingContextPredicate} {contexts allContexts : List KeyContext} :
    (descendant parent child).evalInner contexts allContexts = true ↔ ∃ i, i + 1 < contexts.length ∧
    parent.evalInner (contexts.take (i + 1)) allContexts = true ∧
    (∀ j < i, parent.evalInner (contexts.take (j + 1)) allContexts = false) ∧ child.evalInner (contexts.drop (i + 1))
    (contexts.drop (i + 1)) = true := by
  rw [evalInner_descendant]
  constructor
  · intro holds
    split at holds
    · rename_i i found
      obtain ⟨satisfies, within, first⟩ := List.find?_range_eq_some.mp found
      exact ⟨i, by have := List.mem_range.mp within; omega, satisfies, fun j less => by simpa using first j less, holds⟩
    · cases holds
  · rintro ⟨i, within, satisfies, first, holds⟩
    have found : ((List.range (contexts.length - 1)).find? fun i =>
        parent.evalInner (contexts.take (i + 1)) allContexts) = some i := by
      rw [List.find?_range_eq_some]
      exact ⟨satisfies, List.mem_range.mpr (by omega), fun j less => by simp [first j less]⟩
    rw [found]
    exact holds

def depthOf (self : KeyBindingContextPredicate) (contexts : List KeyContext) : Option Nat :=
  rfind (contexts.length + 1) fun depth => self.evalInner (contexts.take depth) contexts

def eval (self : KeyBindingContextPredicate) (contexts : List KeyContext) : Bool :=
  self.evalInner contexts contexts

def depths (self : KeyBindingContextPredicate) (contexts : List KeyContext) : Set Nat :=
  {depth | depth ≤ contexts.length ∧ self.evalInner (contexts.take depth) contexts = true}

theorem depthOf_eq_some {self : KeyBindingContextPredicate} {contexts : List KeyContext}
    {depth : Nat} : self.depthOf contexts = some depth ↔ IsGreatest (self.depths contexts) depth := by
  simp only [depthOf, rfind_eq_some, depths, Nat.lt_succ_iff]

end KeyBindingContextPredicate

end Pinrail.Keymap

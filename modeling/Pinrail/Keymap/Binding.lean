import Pinrail.Keymap.Context

/-!
# Keystrokes, actions and key bindings

`Keystroke` of `platform/keystroke.rs` as it is outside Windows, the two actions the keymap treats
apart, and `KeyBinding` of `keymap/binding.rs`.
-/

namespace Pinrail.Keymap

structure Modifiers where
  control : Bool := false
  alt : Bool := false
  shift : Bool := false
  platform : Bool := false
  function : Bool := false
deriving DecidableEq

structure Keystroke where
  modifiers : Modifiers
  key : SharedString
  keyChar : Option SharedString := none
deriving DecidableEq

structure KeybindingKeystroke where
  inner : Keystroke
deriving DecidableEq

/-- A typed keystroke stands for its key or for the character it typed, the latter with only the
modifiers that input methods leave alone. -/
def Keystroke.shouldMatch (self : Keystroke) (target : KeybindingKeystroke) : Bool :=
  let imeModifiers : Modifiers :=
    { control := self.modifiers.control, platform := self.modifiers.platform }
  match self.keyChar.filter fun keyChar => keyChar != self.key with
  | some keyChar =>
    if target.inner.key = keyChar ∧ target.inner.modifiers = imeModifiers then true
    else target.inner.modifiers == self.modifiers && target.inner.key == self.key
  | none => target.inner.modifiers == self.modifiers && target.inner.key == self.key

/-! ## Actions -/

class NamedAction (A : Type) where
  name : A → SharedString

/-- A boxed action: `NoAction`, an `Unbind` with the name it unbinds, or one of the application's. -/
inductive Action (A : Type) where
  | noAction
  | unbind (name : SharedString)
  | custom (action : A)
deriving DecidableEq

namespace Action
variable {A : Type} [NamedAction A]

def isNoAction : Action A → Bool
  | noAction => true
  | _ => false

def isUnbind : Action A → Bool
  | unbind _ => true
  | _ => false

def name : Action A → SharedString
  | noAction => ['z', 'e', 'd', ':', ':', 'N', 'o', 'A', 'c', 't', 'i', 'o', 'n']
  | unbind _ => ['z', 'e', 'd', ':', ':', 'U', 'n', 'b', 'i', 'n', 'd']
  | custom action => NamedAction.name action

/-- `NoAction` and `Unbind` take bindings away; every other action is run. -/
def isDisabling (action : Action A) : Bool := action.isNoAction || action.isUnbind

omit [NamedAction A] in
theorem isNoAction_iff {action : Action A} : action.isNoAction = true ↔ action = .noAction := by
  cases action <;> simp [isNoAction]

omit [NamedAction A] in
theorem isDisabling_eq_false {action : Action A} :
    action.isDisabling = false ↔ action ≠ .noAction ∧ action.isUnbind = false := by
  cases action <;> simp [isDisabling, isNoAction, isUnbind]

end Action

/-! ## Key bindings -/

structure KeyBinding (A : Type) where
  action : Action A
  keystrokes : List KeybindingKeystroke
  contextPredicate : Option KeyBindingContextPredicate := none
  metaIndex : Option Nat := none
deriving DecidableEq

namespace KeyBinding
variable {A : Type}

/-- Whether the typed keystrokes are a beginning of the binding's, and whether a proper one. -/
def matchKeystrokes (self : KeyBinding A) (typed : List Keystroke) : Option Bool :=
  if self.keystrokes.length < typed.length then none
  else if (self.keystrokes.zip typed).all fun (target, typed) => typed.shouldMatch target then
    some (typed.length < self.keystrokes.length)
  else none

abbrev StrokesMatch (targets : List KeybindingKeystroke) (typed : List Keystroke) : Prop :=
  List.Forall₂ (fun target stroke => stroke.shouldMatch target = true) targets typed

def Matches (self : KeyBinding A) (typed : List Keystroke) : Prop :=
  StrokesMatch self.keystrokes typed

theorem strokesMatch_take {targets : List KeybindingKeystroke} {typed : List Keystroke} :
    StrokesMatch (targets.take typed.length) typed ↔ typed.length ≤ targets.length ∧
      ((targets.zip typed).all fun (target, typed) => typed.shouldMatch target) = true := by
  induction typed generalizing targets with
  | nil => simp
  | cons stroke typed ih =>
    cases targets with
    | nil => simp
    | cons target targets =>
      simp only [List.length_cons, List.take_succ_cons, List.forall₂_cons, ih,
        List.zip_cons_cons, List.all_cons, Bool.and_eq_true, Nat.add_le_add_iff_right]
      tauto

theorem matchKeystrokes_eq_some {self : KeyBinding A} {typed : List Keystroke} {pending : Bool} :
    self.matchKeystrokes typed = some pending ↔ StrokesMatch (self.keystrokes.take typed.length) typed ∧
    pending = decide (typed.length < self.keystrokes.length) := by
  rw [strokesMatch_take, matchKeystrokes]
  split_ifs with short every
  · simp [short]
  · simp [Nat.le_of_not_lt short, every, eq_comm]
  · simp [every]

theorem matchKeystrokes_eq_some_false {self : KeyBinding A} {typed : List Keystroke} :
    self.matchKeystrokes typed = some false ↔ self.Matches typed := by
  rw [matchKeystrokes_eq_some, Matches]
  constructor
  · rintro ⟨strokes, whole⟩
    have short : self.keystrokes.length ≤ typed.length := by simpa using whole
    rwa [List.take_of_length_le short] at strokes
  · intro strokes
    have length := strokes.length_eq
    exact ⟨by rwa [List.take_of_length_le length.le], by simp [length]⟩

def typeable (target : KeybindingKeystroke) : Keystroke := { target.inner with keyChar := none }

theorem strokesMatch_typeable (targets : List KeybindingKeystroke) : StrokesMatch targets (targets.map typeable) := by
  rw [StrokesMatch, List.forall₂_map_right_iff, List.forall₂_same]
  intro target _
  simp [typeable, Keystroke.shouldMatch]

theorem matchKeystrokes_eq_some_true {self : KeyBinding A} {typed : List Keystroke} :
    self.matchKeystrokes typed = some true ↔ ∃ more, more ≠ [] ∧ self.Matches (typed ++ more) := by
  rw [matchKeystrokes_eq_some]
  constructor
  · rintro ⟨strokes, proper⟩
    have longer : typed.length < self.keystrokes.length := by simpa using proper
    refine ⟨(self.keystrokes.drop typed.length).map typeable, ?_, ?_⟩
    · simpa using longer
    · rw [Matches, ← List.take_append_drop typed.length self.keystrokes]
      have rest := strokesMatch_typeable (self.keystrokes.drop typed.length)
      simpa using List.rel_append strokes rest
  · rintro ⟨more, proper, strokes⟩
    have length := strokes.length_eq
    have some := List.length_pos_iff.mpr proper
    rw [List.length_append] at length
    have front := List.forall₂_take typed.length strokes
    rw [List.take_left] at front
    exact ⟨front, by simp; omega⟩

end KeyBinding

end Pinrail.Keymap

import Pinrail.Keymap.Keymap
import Pinrail.Keymap.Superset
import Pinrail.Lib.Rust

/-!
# Bindings of an action

`Keymap::bindings_for_action`, with the indices that the keymap keeps for it. It leaves out bindings
that a later one disables, which it decides without a stack of contexts.
-/

namespace Pinrail.Keymap
open Lib

/-- The `TypeId` of the actions of the application. -/
class TypedAction (A : Type) (T : outParam Type) where
  typeId : A → T

/-- `Action::type_id`. -/
inductive ActionTypeId (T : Type) where
  | noAction
  | unbind
  | custom (id : T)
deriving DecidableEq

namespace Action
variable {A T : Type} [TypedAction A T] [BEq A]

def typeId : Action A → ActionTypeId T
  | noAction => .noAction
  | unbind _ => .unbind
  | custom action => .custom (TypedAction.typeId action)

def partialEq : Action A → Action A → Bool
  | noAction, noAction => true
  | unbind name, unbind other => name == other
  | custom action, custom other => action == other
  | _, _ => false

end Action

variable {A T : Type} [NamedAction A] [TypedAction A T] [DecidableEq T] [BEq A]

structure IndexedKeymap (A : Type) {T : Type} [TypedAction A T] [DecidableEq T] extends Keymap A where
  bindingIndicesByActionId : ActionTypeId T → List Nat
  disabledBindingIndices : List Nat
  version : Nat
  indices_spec (id : ActionTypeId T) : bindingIndicesByActionId id = (bindings.zipIdx.filter fun entry =>
      !entry.1.action.isDisabling && decide (entry.1.action.typeId = id)).map Prod.snd
  disabled_spec : disabledBindingIndices = (bindings.zipIdx.filter fun entry => entry.1.action.isDisabling).map Prod.snd

def disabledBindingMatchesContext (disabledBinding binding : KeyBinding A) : Bool :=
  match disabledBinding.contextPredicate, binding.contextPredicate with
  | none, _ => true
  | some _, none => false
  | some disabledPredicate, some predicate => disabledPredicate.isSuperset predicate

/-- Whether `bindings_for_action` leaves out the binding because of the later one. -/
def disables (disabledBinding binding : KeyBinding A) : Bool :=
  if disabledBinding.keystrokes != binding.keystrokes then false
  else if disabledBinding.action.isNoAction then disabledBindingMatchesContext disabledBinding binding
  else disabledBinding.action.isUnbind && disabledBindingMatchesContext disabledBinding binding &&
    bindingIsUnbound disabledBinding binding

namespace IndexedKeymap

/-- `Keymap::default`. -/
def empty : IndexedKeymap A where
  bindings := []
  bindingIndicesByActionId _ := []
  disabledBindingIndices := []
  version := 0
  indices_spec _ := rfl
  disabled_spec := rfl

/-- One step of the loop in `add_bindings`. -/
def addBinding (self : IndexedKeymap A) (binding : KeyBinding A) : IndexedKeymap A where
  bindings := self.bindings ++ [binding]
  bindingIndicesByActionId id :=
    if binding.action.isDisabling = false ∧ binding.action.typeId = id then
      self.bindingIndicesByActionId id ++ [self.bindings.length]
    else self.bindingIndicesByActionId id
  disabledBindingIndices :=
    if binding.action.isDisabling then self.disabledBindingIndices ++ [self.bindings.length]
    else self.disabledBindingIndices
  version := self.version
  indices_spec id := by
    rw [self.indices_spec, List.zipIdx_append, List.filter_append, List.map_append]
    by_cases runs : binding.action.isDisabling = false
    · by_cases same : binding.action.typeId = id <;> simp [runs, same]
    · simp [runs]
  disabled_spec := by
    rw [self.disabled_spec, List.zipIdx_append, List.filter_append, List.map_append]
    by_cases disabling : binding.action.isDisabling = true <;> simp [disabling]

def addBindings (self : IndexedKeymap A) (bindings : List (KeyBinding A)) : IndexedKeymap A :=
  let this := bindings.foldl addBinding self
  { this with version := this.version + 1 }

def new (bindings : List (KeyBinding A)) : IndexedKeymap A := empty.addBindings bindings

/-- The loop over `disabled_binding_indices`. -/
def isDisabled (self : IndexedKeymap A) (ix : Nat) (binding : KeyBinding A) :
    List Nat → Except Panic Bool
  | [] => return false
  | disabledIx :: rest =>
    if ix < disabledIx then do
      let disabledBinding ← index self.bindings disabledIx
      if disables disabledBinding binding then return true
      else self.isDisabled ix binding rest
    else self.isDisabled ix binding rest

/-- What `bindings_for_action` makes of one of the indices. -/
def bindingForAction (self : IndexedKeymap A) (action : Action A) (ix : Nat) :
    Except Panic (Option (KeyBinding A)) := do
  let binding ← index self.bindings ix
  if !binding.action.partialEq action then return none
  if ← self.isDisabled ix binding self.disabledBindingIndices then return none
  else return some binding

def bindingsForAction (self : IndexedKeymap A) (action : Action A) : Except Panic (List (KeyBinding A)) := do
  let found ← (self.bindingIndicesByActionId action.typeId).mapM (self.bindingForAction action)
  return found.reduceOption

/-! ## What is left out -/

section Indices
omit [NamedAction A] [BEq A]

theorem mem_disabledBindingIndices {self : IndexedKeymap A} {ix : Nat} : ix ∈ self.disabledBindingIndices ↔ ∃ binding,
    self.bindings[ix]? = some binding ∧ binding.action.isDisabling = true := by
  rw [self.disabled_spec]
  simp only [List.mem_map, List.mem_filter, List.mem_zipIdx_iff_getElem?, Prod.exists, exists_eq_right]

theorem mem_bindingIndicesByActionId {self : IndexedKeymap A} {id : ActionTypeId T} {ix : Nat} :
    ix ∈ self.bindingIndicesByActionId id ↔ ∃ binding, self.bindings[ix]? = some binding ∧
    binding.action.isDisabling = false ∧ binding.action.typeId = id := by
  rw [self.indices_spec]
  simp only [List.mem_map, List.mem_filter, List.mem_zipIdx_iff_getElem?, Prod.exists,
    exists_eq_right, Bool.and_eq_true, Bool.not_eq_true', decide_eq_true_eq]

theorem foldl_addBinding_bindings (self : IndexedKeymap A) (bindings : List (KeyBinding A)) :
    (bindings.foldl addBinding self).bindings = self.bindings ++ bindings := by
  induction bindings generalizing self with
  | nil => rw [List.foldl_nil, List.append_nil]
  | cons binding bindings ih => rw [List.foldl_cons, ih, addBinding, List.append_assoc, List.singleton_append]

theorem new_bindings (bindings : List (KeyBinding A)) : (new bindings : IndexedKeymap A).bindings = bindings :=
  foldl_addBinding_bindings empty bindings

end Indices

omit [TypedAction A T] [DecidableEq T] [BEq A] in
theorem isDisabling_of_disables {disabledBinding binding : KeyBinding A}
    (disabling : disables disabledBinding binding = true) : disabledBinding.action.isDisabling = true := by
  unfold disables at disabling
  unfold Action.isDisabling
  split_ifs at disabling with strokes noAction
  · rw [noAction, Bool.true_or]
  · rw [Bool.and_eq_true, Bool.and_eq_true] at disabling
    rw [disabling.1.1, Bool.or_true]

omit [BEq A] in
theorem isDisabled_eq {self : IndexedKeymap A} {ix : Nat} {binding : KeyBinding A} {indices : List Nat}
    (within : ∀ disabledIx ∈ indices, disabledIx < self.bindings.length) :
    ∃ result, self.isDisabled ix binding indices = .ok result ∧
      (result = true ↔ ∃ disabledIx ∈ indices, ix < disabledIx ∧ ∃ disabledBinding,
        self.bindings[disabledIx]? = some disabledBinding ∧ disables disabledBinding binding = true) := by
  induction indices with
  | nil => exact ⟨false, rfl, by simp⟩
  | cons disabledIx rest ih =>
    obtain ⟨result, again, spec⟩ := ih fun other member => within other (List.mem_cons_of_mem _ member)
    have listed := within disabledIx List.mem_cons_self
    rw [isDisabled]
    by_cases later : ix < disabledIx
    · rw [if_pos later, index_of_lt listed, ok_bind]
      by_cases disabling : disables self.bindings[disabledIx] binding = true
      · rw [if_pos disabling]
        refine ⟨true, rfl, iff_of_true rfl ⟨disabledIx, List.mem_cons_self, later, _, ?_, disabling⟩⟩
        exact List.getElem?_eq_getElem listed
      · rw [if_neg disabling]
        refine ⟨result, again, spec.trans ?_⟩
        rw [List.exists_mem_cons_iff, or_iff_right]
        rintro ⟨-, _, same, other⟩
        rw [List.getElem?_eq_getElem listed] at same
        cases same
        exact disabling other
    · rw [if_neg later]
      refine ⟨result, again, spec.trans ?_⟩
      rw [List.exists_mem_cons_iff, or_iff_right]
      exact fun here => later here.1

/-- The binding has the action, and a later `disabledBinding` takes it away. -/
structure Hides (action : Action A) (binding disabledBinding : KeyBinding A) : Prop where
  runs : binding.action.isDisabling = false
  sameType : binding.action.typeId = action.typeId
  equal : binding.action.partialEq action = true
  disables : disables disabledBinding binding = true

/-- The binding at `ix` is left out because of the one at `disabledIx`. -/
structure LeftOutBy (keymap : IndexedKeymap A) (action : Action A) (ix disabledIx : Nat)
    (binding disabledBinding : KeyBinding A) : Prop where
  listed : keymap.bindings[ix]? = some binding
  later : ix < disabledIx
  listedLater : keymap.bindings[disabledIx]? = some disabledBinding
  hides : Hides action binding disabledBinding

theorem bindingForAction_eq_none {self : IndexedKeymap A} {action : Action A} {ix : Nat} {binding : KeyBinding A}
    (listed : self.bindings[ix]? = some binding) (indexed : ix ∈ self.bindingIndicesByActionId action.typeId)
    (equal : binding.action.partialEq action = true) : self.bindingForAction action ix = .ok none ↔
    ∃ disabledIx disabledBinding, self.LeftOutBy action ix disabledIx binding disabledBinding := by
  have within : ∀ disabledIx ∈ self.disabledBindingIndices, disabledIx < self.bindings.length := by
    intro disabledIx member
    obtain ⟨_, at_, -⟩ := mem_disabledBindingIndices.mp member
    exact (List.getElem?_eq_some_iff.mp at_).1
  obtain ⟨result, decided, spec⟩ := @isDisabled_eq _ _ _ _ _ self ix binding _ within
  have stepped : self.bindingForAction action ix = .ok (if result then none else some binding) := by
    rw [bindingForAction, index_of_getElem? listed, ok_bind, equal]
    simp only [Bool.not_true, Bool.false_eq_true, if_false, decided, ok_bind]
    cases result <;> rfl
  have left : self.bindingForAction action ix = .ok none ↔ result = true := by
    rw [stepped]
    cases result <;> simp
  rw [left, spec]
  constructor
  · rintro ⟨disabledIx, -, later, disabledBinding, listedLater, disabling⟩
    obtain ⟨other, same, runs, sameType⟩ := mem_bindingIndicesByActionId.mp indexed
    obtain rfl := Option.some.inj (listed.symm.trans same)
    exact ⟨disabledIx, disabledBinding, listed, later, listedLater, runs, sameType, equal, disabling⟩
  · rintro ⟨disabledIx, disabledBinding, out⟩
    exact ⟨disabledIx, mem_disabledBindingIndices.mpr
      ⟨_, out.listedLater, isDisabling_of_disables out.hides.disables⟩, out.later, _, out.listedLater,
      out.hides.disables⟩

/-! ## What its keystrokes run -/

/-- The binding at the index is one of those that `bindings_for_input` returns. -/
def Returned (self : IndexedKeymap A) (input : List Keystroke) (contexts : List KeyContext)
    (ix : Nat) : Prop :=
  ∃ entries : List (Match A), (self.toKeymap.bindingsForInput input contexts).1 = entries.map Match.binding ∧
    entries.Pairwise Match.OutRanks ∧
    (∀ entry, entry ∈ entries ↔ Live (IsMatch self.toKeymap input contexts) entry) ∧
    ∃ entry ∈ entries, entry.index = ix

omit [BEq A] in
theorem returned_iff {self : IndexedKeymap A} {input : List Keystroke} {contexts : List KeyContext} {ix : Nat} :
    self.Returned input contexts ix ↔ ∃ entry, Live (IsMatch self.toKeymap input contexts) entry ∧
    entry.index = ix := by
  constructor
  · rintro ⟨entries, -, -, live, entry, member, same⟩
    exact ⟨entry, (live entry).mp member, same⟩
  · rintro ⟨entry, isLive, same⟩
    obtain ⟨entries, bindings, ordered, live⟩ := bindingsForInput_exact self.toKeymap input contexts
    exact ⟨entries, bindings, ordered, live, entry, (live entry).mpr isLive, same⟩

end IndexedKeymap

namespace KeyBinding
omit [NamedAction A]

def ownInput (self : KeyBinding A) : List Keystroke := self.keystrokes.map KeybindingKeystroke.inner

omit [BEq A] in
theorem matches_ownInput {binding other : KeyBinding A} (same : other.keystrokes = binding.keystrokes) :
    other.Matches binding.ownInput := by
  rw [Matches, StrokesMatch, same, ownInput, List.forall₂_map_right_iff, List.forall₂_same]
  intro target _
  unfold Keystroke.shouldMatch
  split <;> simp

end KeyBinding

namespace IndexedKeymap

/-! ## When what is left out never runs -/

/-- In the stack a null of an equal or stronger source out-ranks the binding at `ix`, or an `Unbind`
of its action does that no such null silences. -/
def TakenAway (keymap : IndexedKeymap A) (contexts : List KeyContext) (ix depth : Nat)
    (binding : KeyBinding A) : Prop :=
  let matched := IsMatch keymap.toKeymap binding.ownInput contexts
  Silenced matched ⟨depth, ix, binding⟩ ∨ Unbound matched ⟨depth, ix, binding⟩

omit [BEq A] in
theorem returned_ownInput_iff {keymap : IndexedKeymap A} {ix : Nat} {binding : KeyBinding A}
    (listed : keymap.bindings[ix]? = some binding) (runs : binding.action.isDisabling = false)
    (contexts : List KeyContext) : keymap.Returned binding.ownInput contexts ix ↔ ∃ depth,
    Enabled binding contexts depth ∧ ¬ keymap.TakenAway contexts ix depth binding := by
  rw [returned_iff]
  constructor
  · rintro ⟨⟨depth, index, found⟩, live, rfl⟩
    obtain rfl : binding = found := Option.some.inj (listed.symm.trans live.isMatch.listed)
    exact ⟨depth, live.isMatch.enabled, not_or.mpr ⟨live.heard, live.bound⟩⟩
  · rintro ⟨depth, enabled, kept⟩
    obtain ⟨heard, bound⟩ := not_or.mp kept
    exact ⟨⟨depth, ix, binding⟩, ⟨⟨listed, enabled, KeyBinding.matches_ownInput rfl⟩, runs, heard, bound⟩, rfl⟩

instance : TypedAction SharedString Unit := ⟨fun _ => ()⟩

def save : KeyBinding SharedString where
  action := .custom ['s', 'a', 'v', 'e']
  keystrokes := [⟨{ control := true }, ['s'], none⟩]

/-- A null for the keystrokes of `save`, from the source given. -/
def saveNull (source : Option Nat) : KeyBinding SharedString where
  action := .noAction
  keystrokes := save.keystrokes
  metaIndex := source

def saveUnbind (source : Option Nat) : KeyBinding SharedString where
  action := .unbind ['s', 'a', 'v', 'e']
  keystrokes := save.keystrokes
  metaIndex := source

end IndexedKeymap

end Pinrail.Keymap

import Mathlib.Data.Finset.Basic
import Pinrail.Keymap.Binding

/-!
# Looking up bindings in a keymap

`Keymap::bindings_for_input` of `keymap.rs`. The bindings that match the input are ranked by the
depth of their context and then by how late they were added; a scan in that order drops the
disabling bindings and those they disable. The result is described by the ranking alone.
-/

namespace Pinrail

open Keymap Lib

variable {A : Type}

structure Keymap (A : Type) where
  bindings : List (KeyBinding A)

namespace Keymap

/-- A binding that matches the whole input, with the depth it is enabled at and its index. -/
structure Match (A : Type) where
  depth : Nat
  index : Nat
  binding : KeyBinding A

def bindingIsUnbound [NamedAction A] (disabledBinding binding : KeyBinding A) : Bool :=
  disabledBinding.keystrokes == binding.keystrokes &&
    match disabledBinding.action with
    | .unbind name => name == binding.action.name
    | _ => false

/-- The deepest depth at which the binding is enabled; without a predicate, that of the stack. -/
def bindingEnabled (binding : KeyBinding A) (contexts : List KeyContext) : Option Nat :=
  match binding.contextPredicate with
  | some predicate => predicate.depthOf contexts
  | none => some contexts.length

structure Collected (A : Type) where
  matchedBindings : List (Match A) := []
  pendingBindings : List (Nat × KeyBinding A) := []

def collectStep (input : List Keystroke) (contextStack : List KeyContext) (state : Collected A)
    (entry : KeyBinding A × Nat) : Collected A :=
  match bindingEnabled entry.1 contextStack with
  | none => state
  | some depth =>
    match entry.1.matchKeystrokes input with
    | none => state
    | some false =>
      { state with matchedBindings := state.matchedBindings ++ [⟨depth, entry.2, entry.1⟩] }
    | some true =>
      { state with pendingBindings := state.pendingBindings ++ [(entry.2, entry.1)] }

def byPrecedence (a b : Match A) : Ordering :=
  (compare b.depth a.depth).then (compare b.index a.index)

structure Selected (A : Type) where
  bindings : List (KeyBinding A) := []
  firstBindingIndex : Option Nat := none
  unboundBindings : List (KeyBinding A) := []
  noActionMeta : Option Nat := none

def Match.metaOr (self : Match A) : Nat := self.binding.metaIndex.getD 0

def selectStep [NamedAction A] (state : Selected A) (entry : Match A) : Selected A :=
  if entry.binding.action.isNoAction then
    let noActionMeta := state.noActionMeta.elim entry.metaOr fun existing =>
      min existing entry.metaOr
    { state with noActionMeta := some noActionMeta }
  else if state.noActionMeta.any fun noActionMeta => noActionMeta ≤ entry.metaOr then
    state
  else if entry.binding.action.isUnbind then
    { state with unboundBindings := state.unboundBindings ++ [entry.binding] }
  else if state.unboundBindings.any fun disabled => bindingIsUnbound disabled entry.binding then
    state
  else
    { state with
      bindings := state.bindings ++ [entry.binding]
      firstBindingIndex := some (state.firstBindingIndex.getD entry.index) }

/-- The set of keystrokes that more input may complete, bindings taken in the order they were
added. -/
def pendingStep (firstBindingIndex : Option Nat) (pending : Finset (List KeybindingKeystroke))
    (entry : Nat × KeyBinding A) : Finset (List KeybindingKeystroke) :=
  if firstBindingIndex.any fun bindingIx => entry.1 < bindingIx then
    pending
  else if entry.2.action.isNoAction || entry.2.action.isUnbind then
    pending.erase entry.2.keystrokes
  else
    insert entry.2.keystrokes pending

variable [NamedAction A]

/-- The bindings for an input in order of precedence, and whether a longer input may match more. -/
def bindingsForInput (self : Keymap A) (input : List Keystroke) (contextStack : List KeyContext) :
    List (KeyBinding A) × Bool :=
  let collected := self.bindings.zipIdx.reverse.foldl (collectStep input contextStack) {}
  let selected := (sortBy byPrecedence collected.matchedBindings).foldl selectStep {}
  let pending :=
    collected.pendingBindings.reverse.foldl (pendingStep selected.firstBindingIndex) ∅
  (selected.bindings, decide (pending ≠ ∅))

/-! ## The matches of an input -/

/-- The binding is enabled at `depth`, the greatest at which its predicate holds. -/
def Enabled (binding : KeyBinding A) (contexts : List KeyContext) (depth : Nat) : Prop :=
  match binding.contextPredicate with
  | some predicate => IsGreatest (predicate.depths contexts) depth
  | none => depth = contexts.length

omit [NamedAction A] in
theorem bindingEnabled_eq_some {binding : KeyBinding A} {contexts : List KeyContext} {depth : Nat} :
    bindingEnabled binding contexts = some depth ↔ Enabled binding contexts depth := by
  unfold bindingEnabled Enabled
  cases binding.contextPredicate with
  | some predicate => exact KeyBindingContextPredicate.depthOf_eq_some
  | none => rw [Option.some_inj, eq_comm]

/-- `entry` is a binding of the keymap that is enabled and matches the input. -/
structure IsMatch (keymap : Keymap A) (input : List Keystroke) (contexts : List KeyContext)
    (entry : Match A) : Prop where
  listed : keymap.bindings[entry.index]? = some entry.binding
  enabled : Enabled entry.binding contexts entry.depth
  strokes : entry.binding.Matches input

def Match.OutRanks (a b : Match A) : Prop :=
  b.depth < a.depth ∨ b.depth = a.depth ∧ b.index < a.index

variable {keymap : Keymap A} {input : List Keystroke} {contexts : List KeyContext}

def matchOf (input : List Keystroke) (contexts : List KeyContext) (entry : KeyBinding A × Nat) :
    Option (Match A) :=
  match bindingEnabled entry.1 contexts, entry.1.matchKeystrokes input with
  | some depth, some false => some ⟨depth, entry.2, entry.1⟩
  | _, _ => none

def pendingOf (input : List Keystroke) (contexts : List KeyContext) (entry : KeyBinding A × Nat) :
    Option (Nat × KeyBinding A) :=
  match bindingEnabled entry.1 contexts, entry.1.matchKeystrokes input with
  | some _, some true => some (entry.2, entry.1)
  | _, _ => none

omit [NamedAction A] in
theorem foldl_collectStep (state : Collected A) (entries : List (KeyBinding A × Nat)) :
    entries.foldl (collectStep input contexts) state =
      ⟨state.matchedBindings ++ entries.filterMap (matchOf input contexts),
        state.pendingBindings ++ entries.filterMap (pendingOf input contexts)⟩ := by
  induction entries generalizing state with
  | nil => simp
  | cons entry entries ih =>
    rw [List.foldl_cons, ih]
    unfold collectStep
    cases enabled : bindingEnabled entry.1 contexts with
    | none => simp [matchOf, pendingOf, enabled]
    | some depth =>
      cases strokes : entry.1.matchKeystrokes input with
      | none => simp [matchOf, pendingOf, enabled, strokes]
      | some pending => cases pending <;> simp [matchOf, pendingOf, enabled, strokes]

def ranked (keymap : Keymap A) (input : List Keystroke) (contexts : List KeyContext) :
    List (Match A) :=
  sortBy byPrecedence (keymap.bindings.zipIdx.reverse.filterMap (matchOf input contexts))

omit [NamedAction A] in
theorem matchOf_eq_some {entry : KeyBinding A × Nat} {found : Match A} :
    matchOf input contexts entry = some found ↔ entry = (found.binding, found.index) ∧
      Enabled found.binding contexts found.depth ∧ found.binding.Matches input := by
  obtain ⟨binding, index⟩ := entry
  obtain ⟨depth, foundIndex, foundBinding⟩ := found
  unfold matchOf
  constructor
  · intro found
    split at found
    · rename_i enabled strokes
      cases found
      exact ⟨rfl, bindingEnabled_eq_some.mp enabled, KeyBinding.matchKeystrokes_eq_some_false.mp strokes⟩
    · cases found
  · rintro ⟨same, enabled, strokes⟩
    cases same
    simp only [bindingEnabled_eq_some.mpr enabled, KeyBinding.matchKeystrokes_eq_some_false.mpr strokes]

omit [NamedAction A] in
theorem mem_ranked {entry : Match A} : entry ∈ ranked keymap input contexts ↔ IsMatch keymap input contexts entry := by
  simp only [ranked, mem_sortBy, List.mem_filterMap, List.mem_reverse, matchOf_eq_some, List.mem_zipIdx_iff_getElem?]
  constructor
  · rintro ⟨_, listed, rfl, enabled, strokes⟩
    exact ⟨listed, enabled, strokes⟩
  · rintro ⟨listed, enabled, strokes⟩
    exact ⟨_, listed, rfl, enabled, strokes⟩

omit [NamedAction A] in
theorem byPrecedence_isLE {a b : Match A} : (byPrecedence a b).isLE = true ↔
    b.depth < a.depth ∨ b.depth = a.depth ∧ b.index ≤ a.index := by
  rw [byPrecedence, Ordering.isLE_then_iff_or]
  simp only [Nat.compare_eq_lt, Nat.compare_eq_eq, Nat.isLE_compare]

omit [NamedAction A] in
theorem ranked_pairwise : (ranked keymap input contexts).Pairwise Match.OutRanks := by
  apply pairwise_sortBy
  · intro a b
    simp only [byPrecedence_isLE]
    omega
  · intro a b c
    simp only [byPrecedence_isLE]
    omega
  · rw [List.pairwise_filterMap, List.pairwise_reverse]
    refine (pairwise_zipIdx keymap.bindings).imp ?_
    intro a b earlier x fromB y fromA
    obtain ⟨rfl, -⟩ := matchOf_eq_some.mp fromA
    obtain ⟨rfl, -⟩ := matchOf_eq_some.mp fromB
    simp only [Match.OutRanks] at *
    omega
  · intro a b
    simp only [byPrecedence_isLE, Match.OutRanks]
    omega

omit [NamedAction A] in
theorem Match.OutRanks.asymm (a b : Match A) : a.OutRanks b → ¬ b.OutRanks a := by
  simp only [Match.OutRanks]
  omega

/-! ## What survives the disabling bindings -/

section Precedence

variable (matched : Match A → Prop)

/-- A `NoAction` of an equal or stronger source out-ranks the entry. -/
def Silenced (entry : Match A) : Prop :=
  ∃ other, matched other ∧ other.binding.action = .noAction ∧ other.OutRanks entry ∧ other.metaOr ≤ entry.metaOr

/-- An `Unbind` that is not silenced itself out-ranks the entry and names its action. -/
def Unbound (entry : Match A) : Prop :=
  ∃ other, matched other ∧ ¬ Silenced matched other ∧ other.OutRanks entry ∧
    other.binding.keystrokes = entry.binding.keystrokes ∧
    other.binding.action = .unbind entry.binding.action.name

structure Live (entry : Match A) : Prop where
  isMatch : matched entry
  runs : entry.binding.action.isDisabling = false
  heard : ¬ Silenced matched entry
  bound : ¬ Unbound matched entry

end Precedence

theorem bindingIsUnbound_iff {disabled binding : KeyBinding A} : bindingIsUnbound disabled binding = true ↔
    disabled.keystrokes = binding.keystrokes ∧ disabled.action = .unbind binding.action.name := by
  unfold bindingIsUnbound
  split
  · rename_i name action
    rw [action]
    simp
  · rename_i other
    simp only [Bool.and_false, Bool.false_eq_true, false_iff]
    rintro ⟨-, action⟩
    exact other _ action

/-- What the scan knows after the entries `left` of the ranking, of which it keeps `kept`. -/
structure Scanned (matched : Match A → Prop) (left kept : List (Match A)) (state : Selected A) :
    Prop where
  noAction (m : Nat) : (state.noActionMeta.any fun noActionMeta => noActionMeta ≤ m) = true ↔
    ∃ entry ∈ left, entry.binding.action = .noAction ∧ entry.metaOr ≤ m
  unbound (binding : KeyBinding A) : binding ∈ state.unboundBindings ↔
    ∃ entry ∈ left, entry.binding = binding ∧ binding.action.isUnbind = true ∧ ¬ Silenced matched entry
  sublist : kept.Sublist left
  live (entry : Match A) : entry ∈ kept ↔ entry ∈ left ∧ Live matched entry
  bindings : state.bindings = kept.map Match.binding
  first : state.firstBindingIndex = kept.head?.map Match.index

section Scan

variable {matched : Match A → Prop} {left kept right : List (Match A)} {entry : Match A}
  {state : Selected A} (ordered : (left ++ entry :: right).Pairwise Match.OutRanks)
  (listed : ∀ other, other ∈ left ++ entry :: right ↔ matched other)
  (scanned : Scanned matched left kept state)

omit [NamedAction A] in
theorem mem_exists_concat {p : Match A → Prop} :
    (∃ other ∈ left ++ [entry], p other) ↔ (∃ other ∈ left, p other) ∨ p entry := by
  simp only [List.mem_append, List.mem_singleton, or_and_right, exists_or, exists_eq_left]

omit [NamedAction A] in
theorem exists_concat_of_not {p : Match A → Prop} (fails : ¬ p entry) :
    (∃ other ∈ left ++ [entry], p other) ↔ ∃ other ∈ left, p other := by
  rw [mem_exists_concat, or_iff_left fails]

theorem live_concat_of_not (dead : ¬ Live matched entry) (other : Match A) :
    other ∈ left ++ [entry] ∧ Live matched other ↔ other ∈ left ∧ Live matched other := by
  rw [List.mem_append, List.mem_singleton, or_and_right, or_iff_left]
  rintro ⟨rfl, live⟩
  exact dead live

omit [NamedAction A] in
include ordered listed in
theorem out_ranks_iff {other : Match A} : matched other ∧ other.OutRanks entry ↔ other ∈ left := by
  rw [← listed, mem_left_iff Match.OutRanks.asymm ordered]

include ordered listed scanned in
theorem Scanned.silenced_iff : Silenced matched entry ↔
    (state.noActionMeta.any fun noActionMeta => noActionMeta ≤ entry.metaOr) = true := by
  rw [scanned.noAction]
  simp only [Silenced, ← out_ranks_iff ordered listed]
  constructor
  · rintro ⟨other, isMatch, action, ranks, weaker⟩
    exact ⟨other, ⟨isMatch, ranks⟩, action, weaker⟩
  · rintro ⟨other, ⟨isMatch, ranks⟩, action, weaker⟩
    exact ⟨other, isMatch, action, ranks, weaker⟩

include ordered listed scanned in
theorem Scanned.unbound_iff : Unbound matched entry ↔
    (state.unboundBindings.any fun disabled => bindingIsUnbound disabled entry.binding) = true := by
  simp only [List.any_eq_true, bindingIsUnbound_iff, scanned.unbound, Unbound, ← out_ranks_iff ordered listed]
  constructor
  · rintro ⟨other, isMatch, heard, ranks, strokes, action⟩
    exact ⟨_, ⟨other, ⟨isMatch, ranks⟩, rfl, by rw [action]; rfl, heard⟩, strokes, action⟩
  · rintro ⟨_, ⟨other, ⟨isMatch, ranks⟩, rfl, -, heard⟩, strokes, action⟩
    exact ⟨other, isMatch, heard, ranks, strokes, action⟩

include scanned in
theorem Scanned.skip (runs : entry.binding.action ≠ .noAction)
    (deaf : entry.binding.action.isUnbind = true → Silenced matched entry)
    (dead : ¬ Live matched entry) : Scanned matched (left ++ [entry]) kept state where
  noAction m := by
    rw [scanned.noAction, exists_concat_of_not]
    exact fun here => runs here.1
  unbound binding := by
    rw [scanned.unbound, exists_concat_of_not]
    rintro ⟨rfl, unbinds, heard⟩
    exact heard (deaf unbinds)
  sublist := scanned.sublist.trans (List.sublist_append_left _ _)
  live other := by rw [scanned.live, live_concat_of_not dead]
  bindings := scanned.bindings
  first := scanned.first

include scanned in
theorem Scanned.noAction_step (action : entry.binding.action = .noAction) :
    Scanned matched (left ++ [entry]) kept { state with
      noActionMeta := some (state.noActionMeta.elim entry.metaOr fun existing =>
        min existing entry.metaOr) } where
  noAction m := by
    rw [mem_exists_concat, ← scanned.noAction]
    cases state.noActionMeta <;> simp [action]
  unbound binding := by
    rw [scanned.unbound, exists_concat_of_not]
    rintro ⟨rfl, unbinds, -⟩
    rw [action] at unbinds
    cases unbinds
  sublist := scanned.sublist.trans (List.sublist_append_left _ _)
  live other := by
    rw [scanned.live, live_concat_of_not]
    intro live
    exact (Action.isDisabling_eq_false.mp live.runs).1 action
  bindings := scanned.bindings
  first := scanned.first

include scanned in
theorem Scanned.unbind_step (unbinds : entry.binding.action.isUnbind = true)
    (heard : ¬ Silenced matched entry) : Scanned matched (left ++ [entry]) kept { state with
      unboundBindings := state.unboundBindings ++ [entry.binding] } where
  noAction m := by
    rw [scanned.noAction, exists_concat_of_not]
    rintro ⟨action, -⟩
    rw [action] at unbinds
    cases unbinds
  unbound binding := by
    rw [mem_exists_concat, ← scanned.unbound, List.mem_append, List.mem_singleton]
    refine or_congr_right ⟨?_, ?_⟩
    · rintro rfl
      exact ⟨rfl, unbinds, heard⟩
    · rintro ⟨rfl, -⟩
      rfl
  sublist := scanned.sublist.trans (List.sublist_append_left _ _)
  live other := by
    rw [scanned.live, live_concat_of_not]
    intro live
    rw [(Action.isDisabling_eq_false.mp live.runs).2] at unbinds
    cases unbinds
  bindings := scanned.bindings
  first := scanned.first

include scanned in
theorem Scanned.live_step (live : Live matched entry) : Scanned matched (left ++ [entry]) (kept ++ [entry]) { state with
      bindings := state.bindings ++ [entry.binding]
      firstBindingIndex := some (state.firstBindingIndex.getD entry.index) } where
  noAction m := by
    rw [scanned.noAction, exists_concat_of_not]
    rintro ⟨action, -⟩
    exact (Action.isDisabling_eq_false.mp live.runs).1 action
  unbound binding := by
    rw [scanned.unbound, exists_concat_of_not]
    rintro ⟨rfl, unbinds, -⟩
    rw [(Action.isDisabling_eq_false.mp live.runs).2] at unbinds
    cases unbinds
  sublist := scanned.sublist.append (List.Sublist.refl _)
  live other := by
    rw [List.mem_append, List.mem_append, List.mem_singleton, or_and_right, scanned.live]
    refine or_congr_right ⟨?_, And.left⟩
    rintro rfl
    exact ⟨rfl, live⟩
  bindings := by rw [scanned.bindings, List.map_append, List.map_singleton]
  first := by
    rw [scanned.first]
    cases kept <;> simp

include ordered listed scanned in
theorem Scanned.selectStep : ∃ kept', Scanned matched (left ++ [entry]) kept' (selectStep state entry) := by
  have isMatch : matched entry := (listed entry).mp (by simp)
  have silenced := scanned.silenced_iff ordered listed
  have unbound := scanned.unbound_iff ordered listed
  unfold Keymap.selectStep
  split_ifs with noAction deaf unbinds taken
  · exact ⟨kept, scanned.noAction_step (Action.isNoAction_iff.mp noAction)⟩
  · have hushed := silenced.mpr deaf
    exact ⟨kept, scanned.skip (mt Action.isNoAction_iff.mpr noAction) (fun _ => hushed) fun live => live.heard hushed⟩
  · exact ⟨kept, scanned.unbind_step unbinds (mt silenced.mp deaf)⟩
  · exact ⟨kept, scanned.skip (mt Action.isNoAction_iff.mpr noAction) (fun here => absurd here unbinds)
      fun live => live.bound (unbound.mpr taken)⟩
  · have runs : entry.binding.action.isDisabling = false :=
      Action.isDisabling_eq_false.mpr ⟨mt Action.isNoAction_iff.mpr noAction, by simpa using unbinds⟩
    exact ⟨_, scanned.live_step ⟨isMatch, runs, mt silenced.mp deaf, mt unbound.mp taken⟩⟩

end Scan

theorem scanned_foldl {matched : Match A → Prop} {left kept : List (Match A)} {state : Selected A}
    (right : List (Match A)) (ordered : (left ++ right).Pairwise Match.OutRanks)
    (listed : ∀ other, other ∈ left ++ right ↔ matched other) (scanned : Scanned matched left kept state) : ∃ kept',
    Scanned matched (left ++ right) kept' (right.foldl selectStep state) := by
  induction right generalizing left kept state with
  | nil => exact ⟨kept, by simpa using scanned⟩
  | cons entry right ih =>
    obtain ⟨kept', stepped⟩ := scanned.selectStep ordered listed
    rw [List.append_cons] at ordered listed ⊢
    exact ih ordered listed stepped

theorem Scanned.nil {matched : Match A → Prop} : Scanned matched [] [] {} where
  noAction m := by simp
  unbound binding := by simp
  sublist := List.Sublist.refl _
  live entry := by simp
  bindings := rfl
  first := rfl

/-- The scan of `bindingsForInput`. -/
def selected (keymap : Keymap A) (input : List Keystroke) (contexts : List KeyContext) :
    Selected A :=
  (ranked keymap input contexts).foldl selectStep {}

theorem bindingsForInput_bindings : (keymap.bindingsForInput input contexts).1 =
    (selected keymap input contexts).bindings := by
  simp only [bindingsForInput, foldl_collectStep, List.nil_append]
  rfl

theorem selected_spec (keymap : Keymap A) (input : List Keystroke) (contexts : List KeyContext) : ∃ kept :
    List (Match A), (∀ entry, entry ∈ kept ↔ Live (IsMatch keymap input contexts) entry) ∧
    kept.Pairwise Match.OutRanks ∧ (selected keymap input contexts).bindings = kept.map Match.binding ∧
    (selected keymap input contexts).firstBindingIndex = kept.head?.map Match.index := by
  obtain ⟨kept, scanned⟩ := scanned_foldl (ranked keymap input contexts)
    (List.nil_append _ ▸ ranked_pairwise) (fun entry => by rw [List.nil_append, mem_ranked]) .nil
  rw [List.nil_append] at scanned
  refine ⟨kept, fun entry => ?_, ranked_pairwise.sublist scanned.sublist, scanned.bindings, scanned.first⟩
  rw [scanned.live, mem_ranked]
  exact and_iff_right_of_imp Live.isMatch

/-! ## The bindings for an input -/

/-- `bindingsForInput` returns the live matches in order of precedence. -/
theorem bindingsForInput_exact (keymap : Keymap A) (input : List Keystroke) (contexts : List KeyContext) : ∃ entries :
    List (Match A), (keymap.bindingsForInput input contexts).1 = entries.map Match.binding ∧
    entries.Pairwise Match.OutRanks ∧ ∀ entry, entry ∈ entries ↔ Live (IsMatch keymap input contexts) entry := by
  obtain ⟨kept, live, ordered, bindings, -⟩ := selected_spec keymap input contexts
  exact ⟨kept, bindingsForInput_bindings.trans bindings, ordered, live⟩

theorem bindingsForInput_ne_nil : (keymap.bindingsForInput input contexts).1 ≠ [] ↔
    ∃ entry, Live (IsMatch keymap input contexts) entry := by
  obtain ⟨kept, live, -, bindings, -⟩ := selected_spec keymap input contexts
  rw [bindingsForInput_bindings, bindings, Ne, List.map_eq_nil_iff]
  constructor
  · intro some
    obtain ⟨entry, mem⟩ := List.exists_mem_of_ne_nil kept some
    exact ⟨entry, (live entry).mp mem⟩
  · rintro ⟨entry, isLive⟩
    exact List.ne_nil_of_mem ((live entry).mpr isLive)

theorem firstBindingIndex_eq_none (none : (keymap.bindingsForInput input contexts).1 = []) :
    (selected keymap input contexts).firstBindingIndex = .none := by
  obtain ⟨kept, -, -, bindings, first⟩ := selected_spec keymap input contexts
  rw [bindingsForInput_bindings, bindings, List.map_eq_nil_iff] at none
  rw [first, none]
  rfl

instance : NamedAction SharedString := ⟨id⟩

def dollar : KeyBinding SharedString where
  action := .custom ['e', 'n', 'd']
  keystrokes := [⟨{}, ['$'], none⟩]

def typedDollar : Keystroke where
  modifiers := { alt := true }
  key := ['ç']
  keyChar := some ['$']

/-- A typed character matches a binding whose keystrokes are not the input. -/
theorem bindingsForInput_typedDollar : ¬ ∃ entries : List (Match SharedString),
    ((Keymap.mk [dollar]).bindingsForInput [typedDollar] []).1 = entries.map Match.binding ∧
    entries.Pairwise Match.OutRanks ∧
    ∀ entry, entry ∈ entries ↔ Live (fun entry => [dollar][entry.index]? = some entry.binding ∧
      Enabled entry.binding [] entry.depth ∧
      entry.binding.keystrokes.map KeybindingKeystroke.inner = [typedDollar]) entry := by
  rintro ⟨entries, bindings, -, live⟩
  have found : ((Keymap.mk [dollar]).bindingsForInput [typedDollar] []).1 = [dollar] := by decide
  rw [found] at bindings
  cases entries with
  | nil => cases bindings
  | cons entry entries =>
    obtain ⟨-, -, strokes⟩ := ((live entry).mp (by simp)).isMatch
    have same : dollar = entry.binding := (List.cons.inj bindings).1
    rw [← same] at strokes
    cases strokes

end Keymap

end Pinrail

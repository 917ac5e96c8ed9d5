import Pinrail.Keymap.Keymap

/-!
# Pending input

The second result of `bindings_for_input` says whether the input is held back for more. It comes
from a loop of its own that takes a disabling binding to retract the earlier bindings of its
keystrokes, whatever its depth, its source or the action it names. Where no binding matches the
input itself, the flag is right exactly when on the bindings that continue the input that rule and the
precedence of the matches come to the same.
-/

namespace Pinrail.Keymap

open Lib

variable {A : Type} {keymap : Keymap A} {input : List Keystroke} {contexts : List KeyContext}

/-- The binding at `index` is enabled and some longer input matches it. -/
structure IsPending (keymap : Keymap A) (input : List Keystroke) (contexts : List KeyContext)
    (index : Nat) (binding : KeyBinding A) : Prop where
  listed : keymap.bindings[index]? = some binding
  enabled : ∃ depth, Enabled binding contexts depth
  longer : ∃ more, more ≠ [] ∧ binding.Matches (input ++ more)

def Retracted (keymap : Keymap A) (contexts : List KeyContext) (index : Nat)
    (binding : KeyBinding A) : Prop :=
  ∃ later disabling, index < later ∧ keymap.bindings[later]? = some disabling ∧
    (∃ depth, Enabled disabling contexts depth) ∧ disabling.action.isDisabling = true ∧
    disabling.keystrokes = binding.keystrokes

theorem pendingOf_eq_some {entry : KeyBinding A × Nat} {index : Nat} {binding : KeyBinding A} :
    pendingOf input contexts entry = some (index, binding) ↔ entry = (binding, index) ∧
    (∃ depth, Enabled binding contexts depth) ∧ ∃ more, more ≠ [] ∧ binding.Matches (input ++ more) := by
  obtain ⟨binding', index'⟩ := entry
  unfold pendingOf
  constructor
  · intro found
    split at found
    · rename_i depth enabled strokes
      cases found
      exact ⟨rfl, ⟨depth, bindingEnabled_eq_some.mp enabled⟩, KeyBinding.matchKeystrokes_eq_some_true.mp strokes⟩
    · cases found
  · rintro ⟨same, ⟨depth, enabled⟩, longer⟩
    cases same
    simp only [bindingEnabled_eq_some.mpr enabled, KeyBinding.matchKeystrokes_eq_some_true.mpr longer]

def pendings (keymap : Keymap A) (input : List Keystroke) (contexts : List KeyContext) :
    List (Nat × KeyBinding A) :=
  keymap.bindings.zipIdx.filterMap (pendingOf input contexts)

theorem mem_pendings {index : Nat} {binding : KeyBinding A} : (index, binding) ∈ pendings keymap input contexts ↔
    IsPending keymap input contexts index binding := by
  simp only [pendings, List.mem_filterMap, pendingOf_eq_some, List.mem_zipIdx_iff_getElem?]
  constructor
  · rintro ⟨_, listed, rfl, enabled, longer⟩
    exact ⟨listed, enabled, longer⟩
  · rintro ⟨listed, enabled, longer⟩
    exact ⟨_, listed, rfl, enabled, longer⟩

theorem pendings_pairwise : (pendings keymap input contexts).Pairwise fun a b => a.1 < b.1 := by
  rw [pendings, List.pairwise_filterMap]
  refine (pairwise_zipIdx keymap.bindings).imp ?_
  rintro a b earlier ⟨i, x⟩ fromA ⟨j, y⟩ fromB
  obtain ⟨rfl, -⟩ := pendingOf_eq_some.mp fromA
  obtain ⟨rfl, -⟩ := pendingOf_eq_some.mp fromB
  exact earlier

/-! ## The pending loop -/

theorem mem_pendingStep {pending : Finset (List KeybindingKeystroke)} {entry : Nat × KeyBinding A}
    {strokes : List KeybindingKeystroke} : strokes ∈ pendingStep none pending entry ↔
    (strokes ∈ pending ∧ ¬ (entry.2.action.isDisabling = true ∧ entry.2.keystrokes = strokes)) ∨
    (entry.2.action.isDisabling = false ∧ entry.2.keystrokes = strokes) := by
  unfold pendingStep Action.isDisabling
  split_ifs with before disabling
  · simp at before
  · rw [Finset.mem_erase, disabling]
    simp [and_comm, eq_comm]
  · rw [Bool.not_eq_true] at disabling
    rw [Finset.mem_insert, disabling]
    simp [or_comm, eq_comm]

theorem mem_foldl_pendingStep {pending : Finset (List KeybindingKeystroke)}
    {entries : List (Nat × KeyBinding A)} (ordered : entries.Pairwise fun a b => a.1 < b.1)
    {strokes : List KeybindingKeystroke} : strokes ∈ entries.foldl (pendingStep none) pending ↔ (strokes ∈ pending ∧
        ∀ other ∈ entries, other.2.action.isDisabling = true → other.2.keystrokes ≠ strokes) ∨
      ∃ entry ∈ entries, entry.2.action.isDisabling = false ∧ entry.2.keystrokes = strokes ∧
        ∀ other ∈ entries, entry.1 < other.1 → other.2.action.isDisabling = true → other.2.keystrokes ≠ strokes := by
  induction entries generalizing pending with
  | nil => simp
  | cons entry entries ih =>
    obtain ⟨first, rest⟩ := List.pairwise_cons.mp ordered
    have later : ∀ other ∈ entry :: entries, entry.1 < other.1 → other ∈ entries := by
      intro other mem above
      rcases List.mem_cons.mp mem with rfl | mem
      · exact absurd above (Nat.lt_irrefl _)
      · exact mem
    rw [List.foldl_cons, ih rest, mem_pendingStep]
    constructor
    · rintro (⟨⟨held, apart⟩ | ⟨adds, same⟩, kept⟩ | ⟨added, mem, adds, same, kept⟩)
      · refine .inl ⟨held, ?_⟩
        rw [List.forall_mem_cons]
        exact ⟨fun disabling same => apart ⟨disabling, same⟩, kept⟩
      · exact .inr ⟨entry, by simp, adds, same, fun other mem above => kept other (later other mem above)⟩
      · refine .inr ⟨added, by simp [mem], adds, same, ?_⟩
        rw [List.forall_mem_cons]
        exact ⟨fun above => absurd (first added mem) (Nat.lt_asymm above), kept⟩
    · rintro (⟨held, kept⟩ | ⟨added, mem, adds, same, kept⟩)
      · rw [List.forall_mem_cons] at kept
        exact .inl ⟨.inl ⟨held, fun taken => kept.1 taken.1 taken.2⟩, kept.2⟩
      · rcases List.mem_cons.mp mem with rfl | mem
        · exact .inl ⟨.inr ⟨adds, same⟩, fun other mem => kept other (by simp [mem]) (first other mem)⟩
        · exact .inr ⟨added, mem, adds, same, fun other mem => kept other (by simp [mem])⟩

variable [NamedAction A]

theorem bindingsForInput_pending (keymap : Keymap A) (input : List Keystroke)
    (contexts : List KeyContext) : (keymap.bindingsForInput input contexts).2 =
      decide ((pendings keymap input contexts).foldl
        (pendingStep (selected keymap input contexts).firstBindingIndex) ∅ ≠ ∅) := by
  simp only [bindingsForInput, foldl_collectStep, List.nil_append, ← List.filterMap_reverse, List.reverse_reverse]
  rfl

theorem pending_iff (none : (keymap.bindingsForInput input contexts).1 = []) :
    (keymap.bindingsForInput input contexts).2 = true ↔ ∃ index binding, IsPending keymap input contexts index binding ∧
    binding.action.isDisabling = false ∧ ¬ Retracted keymap contexts index binding := by
  rw [bindingsForInput_pending, firstBindingIndex_eq_none none, decide_eq_true_iff, ← Finset.nonempty_iff_ne_empty]
  simp only [Finset.Nonempty, mem_foldl_pendingStep pendings_pairwise, Finset.notMem_empty, false_and, false_or]
  constructor
  · rintro ⟨_, ⟨index, binding⟩, mem, runs, rfl, kept⟩
    have pending := mem_pendings.mp mem
    refine ⟨index, binding, pending, runs, ?_⟩
    rintro ⟨later, disabling, above, listed, enabled, disables, same⟩
    have longer := pending.longer
    simp only [KeyBinding.Matches, ← same] at longer
    exact kept (later, disabling) (mem_pendings.mpr ⟨listed, enabled, longer⟩) above disables same
  · rintro ⟨index, binding, pending, runs, kept⟩
    refine ⟨_, (index, binding), mem_pendings.mpr pending, runs, rfl, ?_⟩
    rintro ⟨later, disabling⟩ mem above disables same
    obtain ⟨listed, enabled, -⟩ := mem_pendings.mp mem
    exact kept ⟨later, disabling, above, listed, enabled, disables, same⟩

/-! ## When the flag is right -/

/-- An enabled binding of an action that more input may match. -/
structure Resumes (keymap : Keymap A) (input : List Keystroke) (contexts : List KeyContext)
    (index : Nat) (binding : KeyBinding A) : Prop where
  pending : IsPending keymap input contexts index binding
  runs : binding.action.isDisabling = false

/-- On every longer input that matches the binding, a null of an equal or stronger source out-ranks it
or an `Unbind` of its action does that no such null silences. -/
def Overruled (keymap : Keymap A) (input : List Keystroke) (contexts : List KeyContext) (index : Nat)
    (binding : KeyBinding A) : Prop :=
  ∀ more depth, more ≠ [] → binding.Matches (input ++ more) → Enabled binding contexts depth →
    Silenced (IsMatch keymap (input ++ more) contexts) ⟨depth, index, binding⟩ ∨
      Unbound (IsMatch keymap (input ++ more) contexts) ⟨depth, index, binding⟩

/-- Whether retraction, which the pending loop goes by, and precedence, which the scan goes by, come to
the same on the bindings that more input may match. -/
inductive RulesAgree (keymap : Keymap A) (input : List Keystroke) (contexts : List KeyContext) : Prop where
  /-- Some binding is neither retracted nor overruled. -/
  | spared (index : Nat) (binding : KeyBinding A) (continues : Resumes keymap input contexts index binding)
      (kept : ¬ Retracted keymap contexts index binding)
      (free : ¬ Overruled keymap input contexts index binding)
  /-- Every binding is both retracted and overruled. -/
  | taken (every : ∀ index binding, Resumes keymap input contexts index binding →
      Retracted keymap contexts index binding ∧ Overruled keymap input contexts index binding)
  /-- Of two bindings, the one is overruled only and the other retracted only. -/
  | crossed (index other : Nat) (binding otherBinding : KeyBinding A)
      (continues : Resumes keymap input contexts index binding)
      (kept : ¬ Retracted keymap contexts index binding)
      (overruled : Overruled keymap input contexts index binding)
      (otherContinues : Resumes keymap input contexts other otherBinding)
      (retracted : Retracted keymap contexts other otherBinding)
      (free : ¬ Overruled keymap input contexts other otherBinding)

theorem exists_longer_iff : (∃ more, more ≠ [] ∧ (keymap.bindingsForInput (input ++ more) contexts).1 ≠ []) ↔
    ∃ index binding, Resumes keymap input contexts index binding ∧ ¬ Overruled keymap input contexts index binding := by
  simp only [bindingsForInput_ne_nil]
  constructor
  · rintro ⟨more, proper, ⟨depth, index, binding⟩, live⟩
    obtain ⟨listed, enabled, strokes⟩ := live.isMatch
    refine ⟨index, binding, ⟨⟨listed, ⟨depth, enabled⟩, more, proper, strokes⟩, live.runs⟩, ?_⟩
    intro overruled
    exact (overruled more depth proper strokes enabled).elim live.heard live.bound
  · rintro ⟨index, binding, continues, free⟩
    unfold Overruled at free
    push Not at free
    obtain ⟨more, depth, proper, strokes, enabled, heard, bound⟩ := free
    exact ⟨more, proper, ⟨depth, index, binding⟩,
      ⟨continues.pending.listed, enabled, strokes⟩, continues.runs, heard, bound⟩

def twoStrokes (action : Action SharedString) : KeyBinding SharedString where
  action := action
  keystrokes := [⟨{}, ['a'], none⟩, ⟨{}, ['b'], none⟩]

def stroke (key : Char) : Keystroke := ⟨{}, [key], none⟩

def keymapOpen : Keymap SharedString := ⟨[twoStrokes (.custom ['o', 'p', 'e', 'n'])]⟩

def keymapLost : Keymap SharedString :=
  ⟨[twoStrokes (.custom ['o', 'p', 'e', 'n']), twoStrokes (.unbind ['q', 'u', 'i', 't'])]⟩

end Pinrail.Keymap

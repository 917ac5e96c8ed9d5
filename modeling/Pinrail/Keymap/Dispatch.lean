import Pinrail.Lib.Rust
import Pinrail.Keymap.Pending

/-!
# Multi-stroke dispatch

`DispatchTree` of `key_dispatch.rs`, as far as it turns keystrokes into bindings. A keystroke that
does not continue the pending ones sends their longest matching prefix to be replayed and is
dispatched again after the rest. No keystroke is lost, repeated or moved on the way.
-/

namespace Pinrail

open Keymap Lib

variable {A : Type} [NamedAction A]

structure DispatchNode where
  context : Option KeyContext

structure DispatchTree (A : Type) where
  nodes : List DispatchNode
  keymap : Keymap A

structure Replay (A : Type) where
  keystroke : Keystroke
  bindings : List (KeyBinding A) := []

structure DispatchResult (A : Type) where
  pending : List Keystroke := []
  pendingHasBinding : Bool := false
  bindings : List (KeyBinding A) := []
  toReplay : List (Replay A) := []
  contextStack : List KeyContext := []

namespace DispatchTree

def contextStack (self : DispatchTree A) (dispatchPath : List Nat) :
    Except Panic (List KeyContext) := do
  let nodes ← dispatchPath.mapM fun nodeId => index self.nodes nodeId
  return nodes.filterMap DispatchNode.context

def bindingsForInput (self : DispatchTree A) (input : List Keystroke) (dispatchPath : List Nat) :
    Except Panic (List (KeyBinding A) × Bool × List KeyContext) := do
  let contextStack ← self.contextStack dispatchPath
  let (bindings, pending) := self.keymap.bindingsForInput input contextStack
  return (bindings, pending, contextStack)

/-- The longest of the first `count` prefixes of the input that has bindings. -/
def longestMatch (self : DispatchTree A) (input : List Keystroke) (dispatchPath : List Nat) :
    Nat → Except Panic (Option (Nat × List (KeyBinding A)))
  | 0 => return none
  | last + 1 => do
    let (bindings, _, _) ← self.bindingsForInput (input.take (last + 1)) dispatchPath
    if !bindings.isEmpty then return some (last, bindings)
    else self.longestMatch input dispatchPath last

/-- Convert the longest prefix of the input with bindings, or its first keystroke, to a replay. -/
def replayPrefix (self : DispatchTree A) (input : List Keystroke) (dispatchPath : List Nat) :
    Except Panic (List Keystroke × List (Replay A)) := do
  match ← self.longestMatch input dispatchPath input.length with
  | some (last, bindings) =>
    let (drained, rest) ← drainFront (last + 1) input
    let keystroke ← unwrap drained.getLast?
    return (rest, [{ keystroke, bindings }])
  | none =>
    match input with
    | [] => throw .indexOutOfBounds
    | keystroke :: rest => return (rest, [{ keystroke }])

/-- `dispatch_key` with a bound on the depth of the recursion. -/
def dispatchKeyFor (self : DispatchTree A) (keystroke : Keystroke) (dispatchPath : List Nat) :
    Nat → List Keystroke → Except Panic (DispatchResult A)
  | 0, _ => throw .outOfFuel
  | fuel + 1, input => do
    let extended := input ++ [keystroke]
    let (bindings, pending, contextStack) ← self.bindingsForInput extended dispatchPath
    if pending then
      return { pending := extended, pendingHasBinding := !bindings.isEmpty, contextStack }
    else if !bindings.isEmpty then
      return { bindings, contextStack }
    else if extended.length = 1 then
      return { contextStack }
    else
      let (suffix, toReplay) ← self.replayPrefix input dispatchPath
      let result ← self.dispatchKeyFor keystroke dispatchPath fuel suffix
      return { result with toReplay := toReplay ++ result.toReplay }

def dispatchKey (self : DispatchTree A) (input : List Keystroke) (keystroke : Keystroke)
    (dispatchPath : List Nat) : Except Panic (DispatchResult A) :=
  self.dispatchKeyFor keystroke dispatchPath (input.length + 1) input

/-- `flush_dispatch` with a bound on the depth of the recursion. -/
def flushDispatchFor (self : DispatchTree A) (dispatchPath : List Nat) :
    Nat → List Keystroke → Except Panic (List (Replay A))
  | 0, _ => throw .outOfFuel
  | fuel + 1, input => do
    let (suffix, toReplay) ← self.replayPrefix input dispatchPath
    if !suffix.isEmpty then
      return toReplay ++ (← self.flushDispatchFor dispatchPath fuel suffix)
    else return toReplay

def flushDispatch (self : DispatchTree A) (input : List Keystroke) (dispatchPath : List Nat) :
    Except Panic (List (Replay A)) :=
  self.flushDispatchFor dispatchPath (input.length + 1) input

/-! ## Replaying a prefix -/

section Segments

variable {tree : DispatchTree A} {path : List Nat} {stack : List KeyContext}

omit [NamedAction A] in
theorem contextStack_of_lt (onTree : ∀ nodeId ∈ path, nodeId < tree.nodes.length) :
    ∃ stack, tree.contextStack path = .ok stack := by
  have reads : ∃ nodes, (path.mapM fun nodeId => index tree.nodes nodeId) = .ok nodes := by
    induction path with
    | nil => exact ⟨[], rfl⟩
    | cons nodeId path ih =>
      obtain ⟨nodes, rest⟩ := ih fun other mem => onTree other (by simp [mem])
      have low : nodeId < tree.nodes.length := onTree nodeId (by simp)
      refine ⟨tree.nodes[nodeId] :: nodes, ?_⟩
      rw [List.mapM_cons, index_of_lt low, ok_bind, rest]
      rfl
  obtain ⟨nodes, read⟩ := reads
  exact ⟨_, by rw [contextStack, read, ok_bind]; rfl⟩

/-- A replay stands for a segment of the input: it has the segment's bindings, and the segment is a
single keystroke when there are none. -/
structure IsSegment (tree : DispatchTree A) (stack : List KeyContext) (segment : List Keystroke)
    (replay : Replay A) : Prop where
  keystroke : segment.getLast? = some replay.keystroke
  bindings : replay.bindings = (tree.keymap.bindingsForInput segment stack).1
  single : replay.bindings = [] → segment.length = 1

variable (read : tree.contextStack path = .ok stack)

include read in
theorem bindingsForInput_eq (input : List Keystroke) : tree.bindingsForInput input path =
    .ok ((tree.keymap.bindingsForInput input stack).1, (tree.keymap.bindingsForInput input stack).2, stack) := by
  rw [bindingsForInput, read, ok_bind]
  rfl

include read in
theorem longestMatch_spec (input : List Keystroke) (count : Nat) :
    (tree.longestMatch input path count = .ok none ∧
      ∀ last, last < count → (tree.keymap.bindingsForInput (input.take (last + 1)) stack).1 = []) ∨
    ∃ last, last < count ∧ (tree.keymap.bindingsForInput (input.take (last + 1)) stack).1 ≠ [] ∧
      tree.longestMatch input path count =
        .ok (some (last, (tree.keymap.bindingsForInput (input.take (last + 1)) stack).1)) := by
  induction count with
  | zero => exact .inl ⟨rfl, fun last low => absurd low (Nat.not_lt_zero last)⟩
  | succ count ih =>
    rw [longestMatch, bindingsForInput_eq read, ok_bind]
    cases found : (tree.keymap.bindingsForInput (input.take (count + 1)) stack).1 with
    | cons binding bindings =>
      exact .inr ⟨count, Nat.lt_succ_self count, by rw [found]; simp, by rw [found]; rfl⟩
    | nil =>
      rcases ih with ⟨none, all⟩ | ⟨last, low, some, longest⟩
      · refine .inl ⟨none, fun last low => ?_⟩
        rcases Nat.lt_succ_iff_lt_or_eq.mp low with low | rfl
        · exact all last low
        · exact found
      · exact .inr ⟨last, Nat.lt_succ_of_lt low, some, longest⟩

include read in
theorem replayPrefix_spec (input : List Keystroke) (nonempty : input ≠ []) : ∃ segment suffix replay,
    tree.replayPrefix input path = .ok (suffix, [replay]) ∧ input = segment ++ suffix ∧ segment ≠ [] ∧
    IsSegment tree stack segment replay := by
  unfold replayPrefix
  rcases longestMatch_spec read input input.length with ⟨none, all⟩ | ⟨last, low, some, longest⟩
  · cases input with
    | nil => exact absurd rfl nonempty
    | cons keystroke rest =>
      rw [none, ok_bind]
      refine ⟨[keystroke], rest, { keystroke }, rfl, rfl, by simp, rfl, ?_, fun _ => rfl⟩
      exact (all 0 (by simp)).symm
  · have segment : input.take (last + 1) ≠ [] := by
      intro none
      rw [List.take_eq_nil_iff] at none
      exact nonempty (none.resolve_left (Nat.succ_ne_zero last))
    have isLast := List.getLast?_eq_some_getLast segment
    refine ⟨input.take (last + 1), input.drop (last + 1), ⟨_, _⟩, ?_,
      (List.take_append_drop _ _).symm, segment, isLast, rfl, fun none => absurd none some⟩
    rw [longest, ok_bind]
    simp only [drainFront_of_le (Nat.succ_le_of_lt low), ok_bind, isLast, unwrap_some]
    rfl

/-! ## Dispatching a key -/

inductive Settles (tree : DispatchTree A) (stack : List KeyContext) (keystroke : Keystroke)
    (remainder : List Keystroke) (result : DispatchResult A) : Prop where
  | pending (held : (tree.keymap.bindingsForInput remainder stack).2 = true) (pending : result.pending = remainder)
      (hasBinding : result.pendingHasBinding = !(tree.keymap.bindingsForInput remainder stack).1.isEmpty)
      (bindings : result.bindings = [])
  | matched (held : (tree.keymap.bindingsForInput remainder stack).2 = false)
      (pending : result.pending = []) (some : result.bindings ≠ [])
      (bindings : result.bindings = (tree.keymap.bindingsForInput remainder stack).1)
  | unmatched (held : (tree.keymap.bindingsForInput remainder stack).2 = false)
      (pending : result.pending = []) (bindings : result.bindings = [])
      (none : (tree.keymap.bindingsForInput remainder stack).1 = [])
      (single : remainder = [keystroke])

include read in
theorem dispatchKeyFor_spec (keystroke : Keystroke) (fuel : Nat) (input : List Keystroke)
    (enough : input.length < fuel) : ∃ result segments remainder,
    tree.dispatchKeyFor keystroke path fuel input = .ok result ∧ input ++ [keystroke] = segments.flatten ++ remainder ∧
    List.Forall₂ (IsSegment tree stack) segments result.toReplay ∧ Settles tree stack keystroke remainder result ∧
    result.contextStack = stack := by
  induction fuel generalizing input with
  | zero => omega
  | succ fuel ih =>
    rw [dispatchKeyFor, bindingsForInput_eq read]
    simp only [ok_bind]
    split_ifs with held some single
    · exact ⟨_, [], _, rfl, rfl, .nil, .pending held rfl rfl rfl, rfl⟩
    · have hit : (tree.keymap.bindingsForInput (input ++ [keystroke]) stack).1 ≠ [] := by
        simpa using some
      exact ⟨_, [], _, rfl, rfl, .nil, .matched (by simpa using held) rfl hit rfl, rfl⟩
    · have miss : (tree.keymap.bindingsForInput (input ++ [keystroke]) stack).1 = [] := by
        simpa using some
      have alone : input = [] := by simpa using single
      refine ⟨_, [], input ++ [keystroke], rfl, rfl, .nil, .unmatched (by simpa using held) rfl rfl miss ?_, rfl⟩
      rw [alone, List.nil_append]
    · have longer : input ≠ [] := by simpa using single
      obtain ⟨segment, suffix, replay, replayed, split, nonempty, isSegment⟩ := replayPrefix_spec read input longer
      have shorter : suffix.length < input.length := by
        rw [split, List.length_append]
        have := List.length_pos_iff.mpr nonempty
        omega
      obtain ⟨result, segments, remainder, returned, parts, replays, settles, sameStack⟩ := ih suffix (by omega)
      simp only [replayed, ok_bind, returned]
      refine ⟨_, segment :: segments, remainder, rfl, ?_, .cons isSegment replays, ?_, sameStack⟩
      · rw [split, List.append_assoc, parts, List.flatten_cons, List.append_assoc]
      · cases settles with
        | pending held pending hasBinding bindings =>
          exact .pending held pending hasBinding bindings
        | matched held pending some bindings => exact .matched held pending some bindings
        | unmatched held pending bindings none single =>
          exact .unmatched held pending bindings none single

include read in
theorem flushDispatchFor_spec (fuel : Nat) (input : List Keystroke) (enough : input.length < fuel)
    (nonempty : input ≠ []) : ∃ replays segments, tree.flushDispatchFor path fuel input = .ok replays ∧
    input = segments.flatten ∧ List.Forall₂ (IsSegment tree stack) segments replays := by
  induction fuel generalizing input with
  | zero => omega
  | succ fuel ih =>
    obtain ⟨segment, suffix, replay, replayed, split, some, isSegment⟩ := replayPrefix_spec read input nonempty
    simp only [flushDispatchFor, replayed, ok_bind]
    cases suffix with
    | nil => exact ⟨_, [segment], rfl, by simpa using split, .cons isSegment .nil⟩
    | cons first rest =>
      have shorter : (first :: rest).length < input.length := by
        rw [split, List.length_append]
        have := List.length_pos_iff.mpr some
        omega
      obtain ⟨replays, segments, returned, parts, isSegments⟩ := ih (first :: rest) (by omega) (by simp)
      simp only [returned, ok_bind]
      refine ⟨_, segment :: segments, rfl, ?_, .cons isSegment isSegments⟩
      rw [split, parts, List.flatten_cons]

end Segments

/-- Keystrokes are conserved: what `dispatchKey` and `flushDispatch` are given is the segments they
replay, in order, and what they leave. -/
theorem dispatch_conserves (tree : DispatchTree A) (path : List Nat)
    (onTree : ∀ nodeId ∈ path, nodeId < tree.nodes.length) :
    ∃ stack, tree.contextStack path = .ok stack ∧
      (∀ (input : List Keystroke) (keystroke : Keystroke), ∃ result segments remainder,
        tree.dispatchKey input keystroke path = .ok result ∧
        input ++ [keystroke] = segments.flatten ++ remainder ∧
        List.Forall₂ (IsSegment tree stack) segments result.toReplay ∧
        Settles tree stack keystroke remainder result) ∧
      ∀ input : List Keystroke, input ≠ [] → ∃ replays segments,
        tree.flushDispatch input path = .ok replays ∧ input = segments.flatten ∧
        List.Forall₂ (IsSegment tree stack) segments replays := by
  obtain ⟨stack, read⟩ := contextStack_of_lt onTree
  refine ⟨stack, read, ?_, ?_⟩
  · intro input keystroke
    obtain ⟨result, segments, remainder, returned, parts, replays, settles, -⟩ :=
      dispatchKeyFor_spec read keystroke (input.length + 1) input (Nat.lt_succ_self _)
    exact ⟨result, segments, remainder, returned, parts, replays, settles⟩
  · intro input nonempty
    exact flushDispatchFor_spec read (input.length + 1) input (Nat.lt_succ_self _) nonempty

def oneNode : DispatchTree SharedString := ⟨[⟨none⟩], keymapOpen⟩

theorem dispatch_conserves_oneNode : ∃ result segments remainder, oneNode.dispatchKey [stroke 'a'] (stroke 'c')
    [0] = .ok result ∧ [stroke 'a', stroke 'c'] = segments.flatten ++ remainder ∧
    List.Forall₂ (IsSegment oneNode []) segments result.toReplay ∧ Settles oneNode []
    (stroke 'c') remainder result := by
  obtain ⟨stack, read, dispatched, -⟩ := dispatch_conserves oneNode [0] (by decide)
  cases read
  exact dispatched [stroke 'a'] (stroke 'c')

end DispatchTree

end Pinrail

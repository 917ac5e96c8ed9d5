import Mathlib.Computability.Language
import Pinrail.Gestures.Recognizer

/-!
# Scroll streams

A scroll stream is opened, moves, and is cancelled or ends, with momentum after the end or without.
The recognizer follows this from any state in which momentum comes with no touch.
-/

namespace Pinrail.Gestures
open Pinrail.Geometry Computability

/-! ## Streams -/

def panWord : Language TouchPhase :=
  {[.started]} * {[.moved]}∗ * ({[.cancelled]} + {[.ended]} * (1 + {[.moved]}∗ * {[.ended]}))

inductive ScrollStream where
  | closed
  | panning
  | coasting
deriving DecidableEq

namespace ScrollStream

inductive Next : ScrollStream → TouchPhase → ScrollStream → Prop where
  | start : Next closed .started panning
  | move : Next panning .moved panning
  | cancel : Next panning .cancelled closed
  | stop : Next panning .ended closed
  | fling : Next panning .ended coasting
  | coast : Next coasting .moved coasting
  | rest : Next coasting .ended closed

inductive Emits : ScrollStream → List TouchPhase → ScrollStream → Prop where
  | nil (stream : ScrollStream) : Emits stream [] stream
  | cons {stream next last : ScrollStream} {phase : TouchPhase} {phases : List TouchPhase}
      (first : Next stream phase next) (rest : Emits next phases last) : Emits stream (phase :: phases) last

variable {stream next last : ScrollStream} {phase : TouchPhase} {phases rest : List TouchPhase}

theorem Emits.one (first : Next stream phase next) : Emits stream [phase] next := .cons first (.nil next)

theorem Emits.trans (first : Emits stream phases next) (second : Emits next rest last) :
    Emits stream (phases ++ rest) last := by
  induction first with
  | nil stream => exact second
  | cons head _ ih => exact .cons head (ih second)

def words : ScrollStream → Language TouchPhase
  | closed => panWord∗
  | panning => panWord∗ * ({[.started]} * {[.moved]}∗)
  | coasting => panWord∗ * ({[.started]} * {[.moved]}∗ * ({[.ended]} * {[.moved]}∗))

theorem concat_mem_kstar {L : Language TouchPhase} {x y : List TouchPhase} (many : x ∈ L∗) (one : y ∈ L) :
    x ++ y ∈ L∗ := by
  obtain ⟨words, rfl, all⟩ := Language.mem_kstar.mp many
  refine Language.mem_kstar.mpr ⟨words ++ [y], by simp, ?_⟩
  intro word member
  rcases List.mem_append.mp member with member | member
  · exact all word member
  · exact List.mem_singleton.mp member ▸ one

theorem concat_mem_words (word : phases ∈ stream.words) (step : Next stream phase next) :
    phases ++ [phase] ∈ next.words := by
  cases step with
  | start =>
    exact Language.append_mem_mul word ⟨[.started], rfl, [], Language.nil_mem_kstar _, rfl⟩
  | move =>
    obtain ⟨closed, before, _, ⟨_, rfl, moves, moving, rfl⟩, rfl⟩ := word
    refine ⟨closed, before, [.started] ++ (moves ++ [.moved]), ⟨_, rfl, _, concat_mem_kstar moving rfl, rfl⟩, ?_⟩
    simp
  | cancel =>
    obtain ⟨closed, before, pan, panning, rfl⟩ := word
    dsimp only
    rw [List.append_assoc]
    exact concat_mem_kstar before (Language.append_mem_mul panning (.inl rfl))
  | stop =>
    obtain ⟨closed, before, pan, panning, rfl⟩ := word
    dsimp only
    rw [List.append_assoc]
    exact concat_mem_kstar before (Language.append_mem_mul panning (.inr ⟨[.ended], rfl, [], .inl rfl, rfl⟩))
  | fling =>
    obtain ⟨closed, before, pan, panning, rfl⟩ := word
    dsimp only
    rw [List.append_assoc]
    exact Language.append_mem_mul before
      (Language.append_mem_mul panning ⟨[.ended], rfl, [], Language.nil_mem_kstar _, rfl⟩)
  | coast =>
    obtain ⟨closed, before, _, ⟨pan, panning, _, ⟨_, rfl, moves, moving, rfl⟩, rfl⟩, rfl⟩ := word
    refine ⟨closed, before, pan ++ ([.ended] ++ (moves ++ [.moved])),
      ⟨pan, panning, _, ⟨_, rfl, _, concat_mem_kstar moving rfl, rfl⟩, rfl⟩, ?_⟩
    simp
  | rest =>
    obtain ⟨closed, before, _, ⟨pan, panning, _, ⟨_, rfl, moves, moving, rfl⟩, rfl⟩, rfl⟩ := word
    have whole : pan ++ ([.ended] ++ (moves ++ [.ended])) ∈ panWord :=
      Language.append_mem_mul panning (.inr ⟨[.ended], rfl, moves ++ [.ended],
        .inr ⟨moves, moving, [.ended], rfl, rfl⟩, rfl⟩)
    have closed_ := concat_mem_kstar before whole
    dsimp only
    rw [List.append_assoc, List.append_assoc, List.append_assoc]
    exact closed_

theorem append_mem_words (word : phases ∈ stream.words) (emits : Emits stream rest last) :
    phases ++ rest ∈ last.words := by
  induction emits generalizing phases with
  | nil stream => simpa using word
  | cons first _ ih =>
    have := ih (concat_mem_words word first)
    rwa [List.append_assoc] at this

theorem complete (word : phases ∈ stream.words) : ∃ rest, phases ++ rest ∈ panWord∗ := by
  cases stream with
  | closed => exact ⟨[], by rwa [List.append_nil]⟩
  | panning => exact ⟨[.cancelled], concat_mem_words word .cancel⟩
  | coasting => exact ⟨[.ended], concat_mem_words word .rest⟩

end ScrollStream

/-! ## The stream of a recognizer -/

variable {F : Type} {self : TouchGestureRecognizer F}

def RecognizedTouchGesture.scrollPhase : RecognizedTouchGesture F → Option TouchPhase
  | scroll event => some event.touchPhase
  | _ => none

def scrollPhases (recognized : List (RecognizedTouchGesture F)) : List TouchPhase :=
  recognized.filterMap RecognizedTouchGesture.scrollPhase

namespace TouchGestureRecognizer

def Consistent (self : TouchGestureRecognizer F) : Prop := self.momentum.isSome → self.state = .idle

def stream (self : TouchGestureRecognizer F) : ScrollStream :=
  match self.momentum, self.state with
  | some _, _ => .coasting
  | none, .panning _ _ => .panning
  | none, _ => .closed

theorem stream_of_momentum {momentum : Momentum F} (fling : self.momentum = some momentum) :
    self.stream = .coasting := by
  rw [stream, fling]

theorem stream_of_panning {touch : ActiveTouch F} {axis : Axis} (still : self.momentum = none)
    (panning : self.state = .panning touch axis) : self.stream = .panning := by
  rw [stream, still, panning]

theorem stream_of_other (still : self.momentum = none) (other : ∀ touch axis, self.state ≠ .panning touch axis) :
    self.stream = .closed := by
  rw [stream, still]
  cases state : self.state with
  | panning touch axis => exact absurd state (other touch axis)
  | _ => rfl

structure Follows (before : TouchGestureRecognizer F) (output : Output F) : Prop where
  consistent : output.2.Consistent
  emits : ScrollStream.Emits before.stream (scrollPhases output.1) output.2.stream

theorem Follows.same (consistent : self.Consistent) : self.Follows ([], self) := ⟨consistent, .nil _⟩

theorem Follows.still {output : Output F} (before : self.stream = .closed)
    (phases : scrollPhases output.1 = []) (still : output.2.momentum = none)
    (other : ∀ touch axis, output.2.state ≠ .panning touch axis) : self.Follows output where
  consistent some_ := by simp [still] at some_
  emits := by
    rw [before, phases, stream_of_other still other]
    exact .nil _

theorem Follows.one {output : Output F} {phase : TouchPhase} {before after : ScrollStream}
    (stream : self.stream = before) (phases : scrollPhases output.1 = [phase]) (after_ : output.2.stream = after)
    (next : ScrollStream.Next before phase after) (consistent : output.2.Consistent) : self.Follows output where
  consistent := consistent
  emits := by
    rw [stream, phases, after_]
    exact .one next

theorem momentum_none (consistent : self.Consistent) (active : self.state ≠ .idle) : self.momentum = none := by
  cases fling : self.momentum with
  | none => rfl
  | some momentum => exact absurd (consistent (by simp [fling])) active

theorem consistent_of_none (still : self.momentum = none) : self.Consistent := by
  intro some_
  simp [still] at some_

variable [Floats F]

theorem follows_started (consistent : self.Consistent) (event : TouchEvent F) (now : Nat) :
    self.Follows (self.touchStarted event now) := by
  cases fling : self.momentum with
  | some momentum =>
    have idle : self.state = .idle := consistent (by simp [fling])
    have out : scrollPhases (self.touchStarted event now).1 = [.ended, .started] := by
      simp [touchStarted, fling, idle, scrollPhases, RecognizedTouchGesture.scrollPhase, scrollEvent]
    have still : (self.touchStarted event now).2.momentum = none := by
      simp [touchStarted, fling, idle]
    refine ⟨consistent_of_none still, ?_⟩
    rw [out, stream_of_momentum fling, stream, still]
    simp only [touchStarted, fling, idle, Option.map_some]
    exact .cons .rest (.one .start)
  | none =>
    by_cases idle : self.state = .idle
    · have closed : self.stream = .closed := stream_of_other fling (by simp [idle])
      apply Follows.still closed
      · simp [touchStarted, fling, idle, scrollPhases]
      · simp [touchStarted, fling, idle]
      · simp [touchStarted, fling, idle]
    · have same : self.touchStarted event now = ([], self) := by
        cases self with
        | mk tuning state momentum lastTap =>
          cases fling
          cases state <;> first | exact absurd rfl idle | rfl
      rw [same]
      exact .same consistent

theorem follows_moved (consistent : self.Consistent) (event : TouchEvent F) (now : Nat) :
    self.Follows (self.touchMoved event now) := by
  cases state : self.state with
  | idle =>
    simp only [touchMoved, state]
    exact .same consistent
  | pending touch deadline longPressOffered touchDragOffered =>
    have still := momentum_none consistent (by simp [state])
    have closed : self.stream = .closed := stream_of_other still (by simp [state])
    simp only [touchMoved, state]
    split_ifs
    · exact .one closed rfl (by simp [stream, beginPan, still]) .start (consistent_of_none (by simp [beginPan, still]))
    · exact .still closed rfl still (by simp)
    · exact .same consistent
  | panning touch axis =>
    have still := momentum_none consistent (by simp [state])
    simp only [touchMoved, state]
    split_ifs
    · exact .one (stream_of_panning still state) rfl (by simp [stream, movePan, still]) .move
        (consistent_of_none (by simp [movePan, still]))
    · exact .same consistent
  | longPressing touch =>
    have still := momentum_none consistent (by simp [state])
    simp only [touchMoved, state]
    split_ifs
    · exact .still (stream_of_other still (by simp [state])) rfl still (by simp)
    · exact .same consistent
  | touchDragging touch =>
    have still := momentum_none consistent (by simp [state])
    simp only [touchMoved, state]
    split_ifs
    · exact .still (stream_of_other still (by simp [state])) rfl still (by simp)
    · exact .same consistent

theorem follows_endPan {touch : ActiveTouch F} {axis : Axis} (still : self.momentum = none)
    (panning : self.state = .panning touch axis) (event : TouchEvent F) (now : Nat) :
    self.Follows (self.endPan event now touch axis) := by
  have out : scrollPhases (self.endPan event now touch axis).1 = [.ended] := rfl
  have idle : (self.endPan event now touch axis).2.state = .idle := rfl
  cases fling : (self.endPan event now touch axis).2.momentum with
  | none =>
    exact .one (stream_of_panning still panning) out (stream_of_other fling (by simp [idle])) .stop fun _ => idle
  | some momentum =>
    exact .one (stream_of_panning still panning) out (stream_of_momentum fling) .fling fun _ => idle

theorem follows_ended (consistent : self.Consistent) (event : TouchEvent F) (now : Nat) :
    self.Follows (self.touchEnded event now) := by
  cases state : self.state with
  | idle =>
    simp only [touchEnded, state]
    exact .same consistent
  | pending touch deadline longPressOffered touchDragOffered =>
    have still := momentum_none consistent (by simp [state])
    simp only [touchEnded, state]
    split_ifs
    · exact .still (stream_of_other still (by simp [state])) rfl still (by simp [endTap])
    · exact .same consistent
  | panning touch axis =>
    have still := momentum_none consistent (by simp [state])
    simp only [touchEnded, state]
    split_ifs
    · exact follows_endPan still state event now
    · exact .same consistent
  | longPressing touch =>
    have still := momentum_none consistent (by simp [state])
    simp only [touchEnded, state]
    split_ifs
    · exact .still (stream_of_other still (by simp [state])) rfl still (by simp)
    · exact .same consistent
  | touchDragging touch =>
    have still := momentum_none consistent (by simp [state])
    simp only [touchEnded, state]
    split_ifs
    · exact .still (stream_of_other still (by simp [state])) rfl still (by simp)
    · exact .same consistent

theorem follows_cancelled (consistent : self.Consistent) (event : TouchEvent F) :
    self.Follows (self.touchCancelled event) := by
  cases state : self.state with
  | idle =>
    simp only [touchCancelled, state]
    exact .same consistent
  | panning touch axis =>
    have still := momentum_none consistent (by simp [state])
    simp only [touchCancelled, state]
    split_ifs
    · exact .one (stream_of_panning still state) rfl (stream_of_other still (by simp)) .cancel
        (consistent_of_none still)
    · exact .same consistent
  | _ =>
    have still := momentum_none consistent (by simp [state])
    simp only [touchCancelled, state]
    split_ifs
    · exact .still (stream_of_other still (by simp [state])) rfl still (by simp)
    · exact .same consistent

theorem follows_tick (consistent : self.Consistent) (now : Nat) : self.Follows (self.tickMomentumAt now) := by
  cases fling : self.momentum with
  | none =>
    simp only [tickMomentumAt, fling]
    exact .same consistent
  | some momentum =>
    have idle : self.state = .idle := consistent (by simp [fling])
    simp only [tickMomentumAt, fling]
    split_ifs
    · exact .one (stream_of_momentum fling) rfl (stream_of_other rfl (by simp [idle])) .rest fun _ => idle
    · exact .one (stream_of_momentum fling) rfl (stream_of_momentum rfl) .coast fun _ => idle

omit [Floats F] in
theorem follows_offerLongPress (consistent : self.Consistent) (id : Nat) : self.Follows (self.offerLongPress id) := by
  cases state : self.state with
  | pending touch deadline longPressOffered touchDragOffered =>
    have still := momentum_none consistent (by simp [state])
    simp only [offerLongPress, state]
    split_ifs
    · exact .same consistent
    · exact .still (stream_of_other still (by simp [state])) rfl still (by simp)
  | _ =>
    simp only [offerLongPress, state]
    exact .same consistent

omit [Floats F] in
theorem follows_offerTouchDrag (consistent : self.Consistent) (id : Nat) : self.Follows (self.offerTouchDrag id) := by
  cases state : self.state with
  | pending touch deadline longPressOffered touchDragOffered =>
    have still := momentum_none consistent (by simp [state])
    simp only [offerTouchDrag, state]
    split_ifs
    · exact .same consistent
    · exact .still (stream_of_other still (by simp [state])) rfl still (by simp)
  | _ =>
    simp only [offerTouchDrag, state]
    exact .same consistent

omit [Floats F] in
theorem resolveLongPress_cases (claimed : Bool) : self.resolveLongPress claimed = self ∨
    ∃ touch deadline touchDragOffered, self.state = .pending touch deadline true touchDragOffered ∧
    self.resolveLongPress claimed = { self with state := .longPressing touch } := by
  unfold resolveLongPress
  split_ifs
  · exact .inl rfl
  · split
    · next touch deadline touchDragOffered pending => exact .inr ⟨_, _, _, pending, rfl⟩
    · exact .inl rfl

omit [Floats F] in
theorem resolveTouchDrag_cases (claimed : Bool) : self.resolveTouchDrag claimed = self ∨
    ∃ touch deadline longPressOffered, self.state = .pending touch deadline longPressOffered true ∧
    self.resolveTouchDrag claimed = { self with state := .touchDragging touch } := by
  unfold resolveTouchDrag
  split_ifs
  · exact .inl rfl
  · split
    · next touch deadline longPressOffered pending => exact .inr ⟨_, _, _, pending, rfl⟩
    · exact .inl rfl

omit [Floats F] in
theorem follows_resolveLongPress (consistent : self.Consistent) (claimed : Bool) :
    self.Follows ([], self.resolveLongPress claimed) := by
  rcases @resolveLongPress_cases F self claimed with same | ⟨touch, _, _, state, after⟩
  · rw [same]
    exact .same consistent
  · rw [after]
    have still := momentum_none consistent (by simp [state])
    exact .still (stream_of_other still (by simp [state])) rfl still (by simp)

omit [Floats F] in
theorem follows_resolveTouchDrag (consistent : self.Consistent) (claimed : Bool) :
    self.Follows ([], self.resolveTouchDrag claimed) := by
  rcases @resolveTouchDrag_cases F self claimed with same | ⟨touch, _, _, state, after⟩
  · rw [same]
    exact .same consistent
  · rw [after]
    have still := momentum_none consistent (by simp [state])
    exact .still (stream_of_other still (by simp [state])) rfl still (by simp)

end TouchGestureRecognizer

open TouchGestureRecognizer

variable [Floats F]

theorem step_follows (consistent : self.Consistent) (action : Action F) : self.Follows (step self action) := by
  cases action with
  | touch event now =>
    simp only [step, handleEventAt]
    cases event.phase with
    | started => exact follows_started consistent event now
    | moved => exact follows_moved consistent event now
    | ended => exact follows_ended consistent event now
    | cancelled => exact follows_cancelled consistent event
  | tickMomentum now => exact follows_tick consistent now
  | offerLongPress id => exact follows_offerLongPress consistent id
  | resolveLongPress claimed => exact follows_resolveLongPress consistent claimed
  | offerTouchDrag id => exact follows_offerTouchDrag consistent id
  | resolveTouchDrag claimed => exact follows_resolveTouchDrag consistent claimed

theorem run_follows (consistent : self.Consistent) (actions : List (Action F)) : self.Follows (run self actions) := by
  induction actions generalizing self with
  | nil => exact .same consistent
  | cons action actions ih =>
    have first := step_follows consistent action
    have rest := ih first.consistent
    refine ⟨rest.consistent, ?_⟩
    simp only [run, scrollPhases, List.filterMap_append]
    exact first.emits.trans rest.emits

end Pinrail.Gestures

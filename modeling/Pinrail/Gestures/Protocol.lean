import Pinrail.Gestures.Streams

/-!
# The touch protocol

Which touch the recognizer listens to, and what a claimed touch makes it recognize.
-/

namespace Pinrail.Gestures
open Pinrail.Geometry Computability TouchGestureRecognizer

/-! ## Touches -/

section

variable {F : Type}

def TouchGestureState.touch : TouchGestureState F → Option (ActiveTouch F)
  | idle => none
  | pending touch _ _ _ => some touch
  | panning touch _ => some touch
  | longPressing touch => some touch
  | touchDragging touch => some touch

def TouchGestureState.held : TouchGestureState F → Option Nat
  | pending touch _ _ _ => some touch.id
  | longPressing touch => some touch.id
  | touchDragging touch => some touch.id
  | _ => none

inductive ClaimKind where
  | longPress
  | touchDrag
deriving DecidableEq

def TouchGestureState.claim : TouchGestureState F → Option ClaimKind
  | longPressing _ => some .longPress
  | touchDragging _ => some .touchDrag
  | _ => none

namespace ClaimKind

def state : ClaimKind → ActiveTouch F → TouchGestureState F
  | longPress, touch => .longPressing touch
  | touchDrag, touch => .touchDragging touch

def event : ClaimKind → TouchPhase → Point F → Point F → RecognizedTouchGesture F
  | longPress, phase, start, position => .longPress ⟨phase, start, position⟩
  | touchDrag, phase, start, position => .touchDrag ⟨phase, start, position⟩

end ClaimKind

theorem exists_touch_of_claim {state : TouchGestureState F} {kind : ClaimKind}
    (claimed : state.claim = some kind) : ∃ touch, state = kind.state touch := by
  cases state with
  | longPressing touch =>
    cases claimed
    exact ⟨touch, rfl⟩
  | touchDragging touch =>
    cases claimed
    exact ⟨touch, rfl⟩
  | _ => cases claimed

def Closes (id : Nat) (event : TouchEvent F) : Prop :=
  event.id = id ∧ (event.phase = .ended ∨ event.phase = .cancelled)

def ownMove (kind : ClaimKind) (touch : ActiveTouch F) : Action F → List (RecognizedTouchGesture F)
  | .touch event _ =>
    if event.id = touch.id ∧ event.phase = .moved then
      [kind.event .moved touch.startPosition event.position]
    else []
  | _ => []

def Unscrolled (recognized : List (RecognizedTouchGesture F)) : Prop :=
  ∀ gesture ∈ recognized, (∀ event, gesture ≠ .scroll event) ∧ ∀ down up, gesture ≠ .tap down up

end

variable {F : Type} [Floats F] {self : TouchGestureRecognizer F}

/-! ## Other touches -/

theorem ignores_other {touch : ActiveTouch F} (consistent : self.Consistent) (active : self.state.touch = some touch)
    (event : TouchEvent F) (now : Nat) (other : event.id ≠ touch.id) : step self (.touch event now) = ([], self) := by
  have busy : self.state ≠ .idle := by
    intro idle
    rw [idle] at active
    cases active
  have still := momentum_none consistent busy
  cases self with
  | mk tuning state momentum lastTap =>
    cases still
    simp only [step, handleEventAt]
    cases state with
    | idle => cases active
    | _ =>
      cases active
      cases event.phase with
      | started => rfl
      | moved => simp only [touchMoved, if_neg other.symm]
      | ended => simp only [touchEnded, if_neg other.symm]
      | cancelled => simp only [touchCancelled, if_neg other.symm]

/-! ## Claimed touches -/

structure Holds (kind : ClaimKind) (touch : ActiveTouch F) (recognizer : TouchGestureRecognizer F) : Prop where
  consistent : recognizer.Consistent
  state : ∃ touch', recognizer.state = kind.state touch' ∧ touch'.id = touch.id ∧
    touch'.startPosition = touch.startPosition

omit [Floats F] in
theorem ClaimKind.state_ne_idle (kind : ClaimKind) (touch : ActiveTouch F) : kind.state touch ≠ .idle := by
  cases kind <;> simp [ClaimKind.state]

theorem step_claimed_other {kind : ClaimKind} {touch : ActiveTouch F} (consistent : self.Consistent)
    (state : self.state = kind.state touch) {action : Action F} (noTouch : ∀ event now, action ≠ .touch event now) :
    step self action = ([], self) := by
  have still := momentum_none consistent (state ▸ kind.state_ne_idle touch)
  cases action with
  | touch event now => exact absurd rfl (noTouch event now)
  | offerLongPress id => cases kind <;> simp only [step, offerLongPress, state, ClaimKind.state]
  | offerTouchDrag id => cases kind <;> simp only [step, offerTouchDrag, state, ClaimKind.state]
  | resolveLongPress claimed =>
    rcases @resolveLongPress_cases F self claimed with same | ⟨_, _, _, pending, -⟩
    · rw [step, same]
    · rw [state] at pending
      cases kind <;> cases pending
  | resolveTouchDrag claimed =>
    rcases @resolveTouchDrag_cases F self claimed with same | ⟨_, _, _, pending, -⟩
    · rw [step, same]
    · rw [state] at pending
      cases kind <;> cases pending
  | tickMomentum now => simp only [step, tickMomentumAt, still]

theorem step_claimed_own {kind : ClaimKind} {touch : ActiveTouch F} (consistent : self.Consistent)
    (state : self.state = kind.state touch) (event : TouchEvent F) (now : Nat) (own : event.id = touch.id) :
    step self (.touch event now) =
      match event.phase with
      | .started => ([], self)
      | .moved => ([kind.event .moved touch.startPosition event.position],
          { self with state := kind.state { touch with lastPosition := event.position } })
      | phase => ([kind.event phase touch.startPosition event.position], { self with state := .idle }) := by
  have still := momentum_none consistent (state ▸ kind.state_ne_idle touch)
  cases self with
  | mk tuning state_ momentum lastTap =>
    cases still
    cases state
    simp only [step, handleEventAt]
    cases phase : event.phase with
    | started => cases kind <;> rfl
    | moved => cases kind <;> simp only [touchMoved, ClaimKind.state, ClaimKind.event, if_pos own.symm]
    | ended => cases kind <;> simp only [touchEnded, ClaimKind.event, if_pos own.symm]
    | cancelled => cases kind <;> simp only [touchCancelled, ClaimKind.event, if_pos own.symm]

theorem step_claimed {kind : ClaimKind} {touch : ActiveTouch F} (holds : Holds kind touch self) (action : Action F)
    (open_ : ∀ event now, action = .touch event now → ¬ Closes touch.id event) :
    (step self action).1 = ownMove kind touch action ∧ Holds kind touch (step self action).2 := by
  obtain ⟨consistent, touch', state, id, start⟩ := holds
  have unchanged : Holds kind touch self := ⟨consistent, touch', state, id, start⟩
  cases action with
  | touch event now =>
    by_cases own : event.id = touch.id
    · rw [step_claimed_own consistent state event now (own.trans id.symm)]
      have still := momentum_none consistent (state ▸ kind.state_ne_idle touch')
      cases phase : event.phase with
      | started => exact ⟨by simp [ownMove, phase], unchanged⟩
      | moved =>
        refine ⟨by simp [ownMove, phase, own, start], ⟨consistent_of_none still, _, rfl, id, start⟩⟩
      | ended => exact absurd ⟨own, .inl phase⟩ (open_ event now rfl)
      | cancelled => exact absurd ⟨own, .inr phase⟩ (open_ event now rfl)
    · have active : self.state.touch = some touch' := by
        rw [state]
        cases kind <;> rfl
      rw [ignores_other consistent active event now (id ▸ own)]
      exact ⟨by simp [ownMove, own], unchanged⟩
  | _ =>
    rw [step_claimed_other consistent state (by simp)]
    exact ⟨rfl, unchanged⟩

theorem run_claimed {kind : ClaimKind} {touch : ActiveTouch F} (holds : Holds kind touch self)
    (actions : List (Action F)) (open_ : ∀ event now, .touch event now ∈ actions → ¬ Closes touch.id event) :
    (run self actions).1 = actions.flatMap (ownMove kind touch) ∧ Holds kind touch (run self actions).2 := by
  induction actions generalizing self with
  | nil => exact ⟨rfl, holds⟩
  | cons action actions ih =>
    obtain ⟨first, holds'⟩ := step_claimed holds action fun event now eq => open_ event now (eq ▸ List.mem_cons_self)
    obtain ⟨rest, last⟩ := ih holds' fun event now member => open_ event now (List.mem_cons_of_mem _ member)
    refine ⟨?_, last⟩
    rw [List.flatMap_cons, ← first, ← rest]
    rfl

theorem close_claimed {kind : ClaimKind} {touch : ActiveTouch F} (holds : Holds kind touch self)
    (event : TouchEvent F) (now : Nat) (closes : Closes touch.id event) :
    step self (.touch event now) =
      ([kind.event event.phase touch.startPosition event.position], { self with state := .idle }) := by
  obtain ⟨consistent, touch', state, id, start⟩ := holds
  obtain ⟨own, phase⟩ := closes
  rw [step_claimed_own consistent state event now (own.trans id.symm), start]
  rcases phase with phase | phase <;> rw [phase]

/-! ## Before the claim -/

omit [Floats F] in
theorem Unscrolled.nil : Unscrolled ([] : List (RecognizedTouchGesture F)) := fun _ member => by cases member

omit [Floats F] in
theorem Unscrolled.longPress (event : LongPressEvent F) : Unscrolled [.longPress event] := by
  intro gesture member
  cases List.mem_singleton.mp member
  exact ⟨nofun, nofun⟩

omit [Floats F] in
theorem Unscrolled.touchDrag (event : TouchDragEvent F) : Unscrolled [.touchDrag event] := by
  intro gesture member
  cases List.mem_singleton.mp member
  exact ⟨nofun, nofun⟩

omit [Floats F] in
theorem Unscrolled.append {first rest : List (RecognizedTouchGesture F)} (unscrolled : Unscrolled first)
    (unscrolled' : Unscrolled rest) : Unscrolled (first ++ rest) := by
  intro gesture member
  rcases List.mem_append.mp member with member | member
  · exact unscrolled gesture member
  · exact unscrolled' gesture member

def HeldFrom (before : TouchGestureRecognizer F) (action : Action F) (output : Output F) : Prop :=
  ∀ id, output.2.state.held = some id → (before.state.held = some id ∧ Unscrolled output.1) ∨
      (output.1 = [] ∧ ∃ event now, action = .touch event now ∧ event.phase = .started ∧ event.id = id)

omit [Floats F] in
theorem HeldFrom.keep {action : Action F} {output : Output F} (same : output.2.state.held = self.state.held)
    (unscrolled : Unscrolled output.1) : HeldFrom self action output :=
  fun _ held => .inl ⟨same.symm.trans held, unscrolled⟩

omit [Floats F] in
theorem HeldFrom.drop {action : Action F} {output : Output F} (dropped : output.2.state.held = none) :
    HeldFrom self action output := by
  intro id held
  rw [dropped] at held
  cases held

omit [Floats F] in
theorem HeldFrom.same {action : Action F} : HeldFrom self action ([], self) := .keep rfl .nil

theorem heldFrom_started (consistent : self.Consistent) (event : TouchEvent F) (now : Nat)
    (phase : event.phase = .started) : HeldFrom self (.touch event now) (self.touchStarted event now) := by
  cases idle : self.state with
  | idle =>
    cases fling : self.momentum with
    | some momentum => exact .drop (by simp [touchStarted, fling, idle, TouchGestureState.held])
    | none =>
      intro id held
      simp only [touchStarted, fling, idle] at held ⊢
      cases held
      exact .inr ⟨rfl, event, now, rfl, phase, rfl⟩
  | _ =>
    have still := momentum_none consistent (by simp [idle])
    refine .keep ?_ ?_
    · simp only [touchStarted, idle]
    · simp only [touchStarted, still, idle]
      exact .nil

theorem heldFrom_moved (event : TouchEvent F) (now : Nat) :
    HeldFrom self (.touch event now) (self.touchMoved event now) := by
  unfold touchMoved
  cases state : self.state with
  | idle => exact .same
  | pending touch deadline longPressOffered touchDragOffered =>
    dsimp only
    split_ifs
    · exact .drop rfl
    · exact .keep (by rw [state]; rfl) .nil
    · exact .same
  | panning touch axis =>
    dsimp only
    split_ifs
    · exact .drop rfl
    · exact .same
  | longPressing touch =>
    dsimp only
    split_ifs
    · exact .keep (by rw [state]; rfl) (.longPress _)
    · exact .same
  | touchDragging touch =>
    dsimp only
    split_ifs
    · exact .keep (by rw [state]; rfl) (.touchDrag _)
    · exact .same

theorem heldFrom_ended (event : TouchEvent F) (now : Nat) :
    HeldFrom self (.touch event now) (self.touchEnded event now) := by
  unfold touchEnded
  cases self.state with
  | idle => exact .same
  | _ =>
    dsimp only
    split_ifs
    · exact .drop rfl
    · exact .same

theorem heldFrom_cancelled (event : TouchEvent F) (now : Nat) :
    HeldFrom self (.touch event now) (self.touchCancelled event) := by
  unfold touchCancelled
  cases self.state with
  | idle => exact .same
  | _ =>
    dsimp only
    split_ifs
    · exact .drop rfl
    · exact .same

theorem step_heldFrom (consistent : self.Consistent) (action : Action F) : HeldFrom self action (step self action) := by
  cases action with
  | touch event now =>
    simp only [step, handleEventAt]
    cases phase : event.phase with
    | started => exact heldFrom_started consistent event now phase
    | moved => exact heldFrom_moved event now
    | ended => exact heldFrom_ended event now
    | cancelled => exact heldFrom_cancelled event now
  | offerLongPress id =>
    simp only [step, offerLongPress]
    cases state : self.state with
    | pending touch deadline longPressOffered touchDragOffered =>
      dsimp only
      split_ifs
      · exact .same
      · exact .keep (by rw [state]; rfl) (.longPress _)
    | _ => exact .same
  | offerTouchDrag id =>
    simp only [step, offerTouchDrag]
    cases state : self.state with
    | pending touch deadline longPressOffered touchDragOffered =>
      dsimp only
      split_ifs
      · exact .same
      · exact .keep (by rw [state]; rfl) (.touchDrag _)
    | _ => exact .same
  | resolveLongPress claimed =>
    rcases @resolveLongPress_cases F self claimed with same | ⟨touch, _, _, state, after⟩
    · rw [step, same]
      exact .same
    · rw [step, after]
      exact .keep (by rw [state]; rfl) .nil
  | resolveTouchDrag claimed =>
    rcases @resolveTouchDrag_cases F self claimed with same | ⟨touch, _, _, state, after⟩
    · rw [step, same]
      exact .same
    · rw [step, after]
      exact .keep (by rw [state]; rfl) .nil
  | tickMomentum now =>
    simp only [step, tickMomentumAt]
    cases fling : self.momentum with
    | none => exact .same
    | some momentum =>
      have idle : self.state = .idle := consistent (by simp [fling])
      dsimp only
      split_ifs
      · exact .drop (by rw [idle]; rfl)
      · exact .drop (by rw [idle]; rfl)

theorem run_append (first rest : List (Action F)) :
    run self (first ++ rest) = ((run self first).1 ++ (run (run self first).2 rest).1, (run (run self first).2 rest).2) := by
  induction first generalizing self with
  | nil => rfl
  | cons action first ih =>
    simp only [List.cons_append, run, ih, List.append_assoc]

theorem run_held (consistent : self.Consistent) (idle : self.state = .idle) (actions : List (Action F)) {id : Nat}
    (held : (run self actions).2.state.held = some id) : ∃ earlier event now during,
    actions = earlier ++ .touch event now :: during ∧ event.phase = .started ∧ event.id = id ∧
    Unscrolled (run (run self earlier).2 (.touch event now :: during)).1 := by
  induction actions using List.reverseRecOn with
  | nil =>
    simp only [run, idle] at held
    cases held
  | append_singleton actions action ih =>
    have consistent' := (run_follows consistent actions).consistent
    have split : run self (actions ++ [action]) = ((run self actions).1 ++
        (step (run self actions).2 action).1, (step (run self actions).2 action).2) := by
      rw [run_append]
      simp [run]
    rw [split] at held
    rcases step_heldFrom consistent' action id held with ⟨held', unscrolled⟩ | ⟨quiet, event, now, rfl, started, own⟩
    · obtain ⟨earlier, event, now, during, rfl, started, own, before⟩ := ih held'
      refine ⟨earlier, event, now, during ++ [action], by simp, started, own, ?_⟩
      have whole := @run_append F _ (run self earlier).2 (.touch event now :: during) [action]
      rw [List.cons_append] at whole
      rw [whole]
      refine before.append ?_
      rw [run_append] at unscrolled
      simpa [run] using unscrolled
    · refine ⟨actions, event, now, [], rfl, started, own, ?_⟩
      simp only [run, quiet, List.append_nil]
      exact .nil

/-! ## After the pan -/

/-- What the fling scrolls at an instant. -/
def Momentum.scroll (physics : ScrollPhysics F) (now : Nat) (momentum : Momentum F) : ScrollWheelEvent F :=
  let elapsed := now - momentum.startedAt
  let advance := Floats.max (physics.flingDistance momentum.speed elapsed - momentum.emittedDistance) 0
  scrollEvent momentum.position ⟨momentum.direction.x * advance, momentum.direction.y * advance⟩
    (if momentum.duration ≤ elapsed then .ended else .moved)

/-- During a fling only its ticks scroll, and a touch that catches it ends it and pans on. -/
def Momentum.scrolls (physics : ScrollPhysics F) (momentum : Momentum F) :
    Action F → List (RecognizedTouchGesture F)
  | .tickMomentum now => [.scroll (momentum.scroll physics now)]
  | .touch event _ =>
    if event.phase = .started then
      [.scroll (scrollEvent momentum.position zeroPoint .ended),
        .scroll (scrollEvent event.position zeroPoint .started)]
    else []
  | _ => []

theorem step_flinging (consistent : self.Consistent) {momentum : Momentum F} (fling : self.momentum = some momentum)
    (action : Action F) : (step self action).1 = momentum.scrolls self.tuning.scrollPhysics action := by
  have idle : self.state = .idle := consistent (by simp [fling])
  cases action with
  | touch event now =>
    simp only [step, handleEventAt, Momentum.scrolls]
    cases event.phase with
    | started => simp [touchStarted, fling, idle]
    | moved => simp [touchMoved, idle]
    | ended => simp [touchEnded, idle]
    | cancelled => simp [touchCancelled, idle]
  | tickMomentum now =>
    simp only [step, tickMomentumAt, fling, Momentum.scrolls, Momentum.scroll]
    split_ifs <;> rfl
  | _ => simp [step, offerLongPress, offerTouchDrag, idle, Momentum.scrolls]

theorem touchMoved_momentum (event : TouchEvent F) (now : Nat) :
    (self.touchMoved event now).2.momentum = self.momentum := by
  unfold touchMoved
  cases self.state with
  | idle => rfl
  | _ =>
    dsimp only
    split_ifs <;> rfl

theorem touchCancelled_momentum (event : TouchEvent F) : (self.touchCancelled event).2.momentum = self.momentum := by
  unfold touchCancelled
  cases self.state with
  | idle => rfl
  | _ =>
    dsimp only
    split_ifs <;> rfl

theorem touchEnded_momentum (event : TouchEvent F) (now : Nat) :
    (self.touchEnded event now).2.momentum = self.momentum ∨ ∃ touch axis, self.state = .panning touch axis ∧
    scrollPhases (self.touchEnded event now).1 = [.ended] := by
  unfold touchEnded
  cases self.state with
  | idle => exact .inl rfl
  | panning touch axis =>
    dsimp only
    split_ifs
    · exact .inr ⟨touch, axis, rfl, rfl⟩
    · exact .inl rfl
  | _ =>
    dsimp only
    split_ifs <;> exact .inl rfl

theorem step_starts_fling (still : self.momentum = none) {action : Action F}
    (flung : (step self action).2.momentum.isSome) : ∃ event now touch axis, action = .touch event now ∧
    event.phase = .ended ∧ self.state = .panning touch axis ∧ scrollPhases (step self action).1 = [.ended] := by
  have kept {output : Output F} (same : output.2.momentum = self.momentum) : ¬ output.2.momentum.isSome := by
    rw [same, still]
    exact Bool.false_ne_true
  cases action with
  | touch event now =>
    simp only [step, handleEventAt] at flung ⊢
    cases phase : event.phase with
    | started =>
      rw [phase] at flung
      refine absurd flung (kept ?_)
      unfold touchStarted
      cases self.state <;> simp [still]
    | moved =>
      rw [phase] at flung
      exact absurd flung (kept (touchMoved_momentum event now))
    | cancelled =>
      rw [phase] at flung
      exact absurd flung (kept (touchCancelled_momentum event))
    | ended =>
      rw [phase] at flung
      rcases @touchEnded_momentum F _ self event now with same | ⟨touch, axis, panning, ended⟩
      · exact absurd flung (kept same)
      · exact ⟨event, now, touch, axis, rfl, phase, panning, ended⟩
  | offerLongPress id =>
    refine absurd flung (kept ?_)
    rw [step, offerLongPress]
    split
    · split_ifs <;> rfl
    · rfl
  | offerTouchDrag id =>
    refine absurd flung (kept ?_)
    rw [step, offerTouchDrag]
    split
    · split_ifs <;> rfl
    · rfl
  | resolveLongPress claimed =>
    refine absurd flung (kept ?_)
    rcases @resolveLongPress_cases F self claimed with same | ⟨_, _, _, _, after⟩
    · rw [step, same]
    · rw [step, after]
  | resolveTouchDrag claimed =>
    refine absurd flung (kept ?_)
    rcases @resolveTouchDrag_cases F self claimed with same | ⟨_, _, _, _, after⟩
    · rw [step, same]
    · rw [step, after]
  | tickMomentum now =>
    refine absurd flung (kept ?_)
    simp only [step, tickMomentumAt, still]

/-! ## The protocol -/

/-- In any run: momentum comes with no touch and starts when a pan ends; the scroll events open and
close their streams and leave one open only during a pan or momentum, when the momentum makes all of
them; a claimed touch makes its own events and nothing else, and the other touches are ignored. -/
theorem touch_protocol (tuning : GestureTuning F) (actions : List (Action F)) :
    let recognizer : TouchGestureRecognizer F := (run { tuning := tuning } actions).2
    (recognizer.momentum.isSome → recognizer.state = .idle) ∧
      (∃ rest, scrollPhases (run { tuning := tuning } actions).1 ++ rest ∈ panWord∗) ∧
      scrollPhases (run { tuning := tuning } actions).1 ∈ recognizer.stream.words ∧
      (∀ momentum, recognizer.momentum = some momentum → ∀ action,
        (step recognizer action).1 = momentum.scrolls recognizer.tuning.scrollPhysics action) ∧
      (recognizer.momentum = none → ∀ action, (step recognizer action).2.momentum.isSome →
        ∃ event now touch axis, action = .touch event now ∧ event.phase = .ended ∧
          recognizer.state = .panning touch axis ∧ scrollPhases (step recognizer action).1 = [.ended]) ∧
      (∀ kind touch, recognizer.state = ClaimKind.state kind touch →
        (∃ earlier event now during, actions = earlier ++ .touch event now :: during ∧
          event.phase = .started ∧ event.id = touch.id ∧
          Unscrolled (run (run { tuning := tuning } earlier).2 (.touch event now :: during)).1) ∧
        ∀ later, (∀ event now, .touch event now ∈ later → ¬ Closes touch.id event) →
          (run recognizer later).1 = later.flatMap (ownMove kind touch) ∧
          ∀ event now, Closes touch.id event → step (run recognizer later).2 (.touch event now) =
            ([kind.event event.phase touch.startPosition event.position],
              { (run recognizer later).2 with state := .idle })) ∧
      ∀ touch, recognizer.state.touch = some touch → ∀ event now, event.id ≠ touch.id →
        step recognizer (.touch event now) = ([], recognizer) := by
  intro recognizer
  have start : ({ tuning := tuning } : TouchGestureRecognizer F).Consistent := consistent_of_none rfl
  have follows := run_follows start actions
  have word : scrollPhases (run { tuning := tuning } actions).1 ∈ recognizer.stream.words :=
    ScrollStream.append_mem_words (Language.nil_mem_kstar panWord) follows.emits
  refine ⟨follows.consistent, ScrollStream.complete word, word,
    fun momentum fling => step_flinging follows.consistent fling, ?_, ?_, ?_⟩
  · intro still action flung
    exact step_starts_fling still flung
  · intro kind touch state
    have held : recognizer.state.held = some touch.id := by
      rw [state]
      cases kind <;> rfl
    have holds : Holds kind touch recognizer := ⟨follows.consistent, touch, state, rfl, rfl⟩
    refine ⟨run_held start rfl actions held, ?_⟩
    intro later open_
    obtain ⟨moves, holds'⟩ := run_claimed holds later open_
    exact ⟨moves, fun event now closes => close_claimed holds' event now closes⟩
  · intro touch active event now other
    exact ignores_other follows.consistent active event now other

/-- Whole numbers, with a unit of time in place of the second. -/
local instance : Floats ℤ where
  zero := 0
  lt a b := decide (a < b)
  le a b := decide (a ≤ b)
  eq a b := decide (a = b)
  abs a := Max.max a (-a)
  sqrt a := Nat.sqrt a.toNat
  min a b := Min.min a b
  max a b := Max.max a b
  ofNat n := n
  seconds n := n
  epsilon := 0
  degenerate := 1

def wholeTuning : GestureTuning ℤ where
  touchSlop := 8
  multiTapInterval := 300
  multiTapSlop := 100
  longPressDuration := 500
  scrollPhysics := ⟨fun _ => 50, fun speed elapsed => speed * Min.min elapsed 50⟩
  minFlingVelocity := 5

/-- A pan that ends in a fling. -/
def flick : List (Action ℤ) :=
  [.touch ⟨1, .started, ⟨0, 0⟩, none⟩ 0, .touch ⟨1, .moved, ⟨0, 100⟩, none⟩ 10, .touch ⟨1, .ended, ⟨0, 100⟩, none⟩ 20]

def press : List (Action ℤ) :=
  [.tickMomentum 30, .tickMomentum 80, .touch ⟨2, .started, ⟨5, 5⟩, none⟩ 90, .offerLongPress 2, .resolveLongPress true]

/-- A flick, two ticks of its momentum, and a touch that is claimed as a long press. -/
theorem touch_protocol_flick :
    scrollPhases (run { tuning := wholeTuning } (flick ++ press)).1 = [.started, .ended, .moved, .ended] ∧
      (∃ momentum, (run { tuning := wholeTuning } flick).2.momentum = some momentum ∧
        (step (run { tuning := wholeTuning } flick).2 (.tickMomentum 30)).1 =
          momentum.scrolls (run { tuning := wholeTuning } flick).2.tuning.scrollPhysics (.tickMomentum 30)) ∧
      ∃ touch, (run { tuning := wholeTuning } (flick ++ press)).2.state = .longPressing touch ∧
        ∀ later, (∀ event now, .touch event now ∈ later → ¬ Closes touch.id event) →
          (run (run { tuning := wholeTuning } (flick ++ press)).2 later).1 =
            later.flatMap (ownMove .longPress touch) := by
  obtain ⟨-, -, -, scrolls, -⟩ := touch_protocol wholeTuning flick
  obtain ⟨-, -, -, -, -, claimed, -⟩ := touch_protocol wholeTuning (flick ++ press)
  have flung : (run { tuning := wholeTuning } flick).2.momentum.isSome := by decide +kernel
  have claim : (run { tuning := wholeTuning } (flick ++ press)).2.state.claim = some .longPress := by
    decide +kernel
  obtain ⟨momentum, fling⟩ := Option.isSome_iff_exists.mp flung
  obtain ⟨touch, state⟩ := exists_touch_of_claim claim
  exact ⟨by decide +kernel, ⟨momentum, fling, scrolls momentum fling _⟩, touch, state,
    fun later open_ => ((claimed .longPress touch state).2 later open_).1⟩

end Pinrail.Gestures

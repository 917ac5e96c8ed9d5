import Mathlib.Analysis.SpecialFunctions.Pow.Real
import Pinrail.Gestures.Protocol

/-!
# What a pan scrolls in all

The deltas of a pan and of the momentum after it, added up in exact arithmetic. Prediction may have
the content run ahead of the finger; what is too much is taken back at the release or kept for the fling.
-/

namespace Pinrail.Gestures
open Pinrail.Geometry TouchGestureRecognizer

/-! ## Exact arithmetic -/

noncomputable instance : Floats ℝ where
  lt a b := decide (a < b)
  le a b := decide (a ≤ b)
  eq a b := decide (a = b)
  abs a := |a|
  sqrt := Real.sqrt
  min a b := Min.min a b
  max a b := Max.max a b
  ofNat n := n
  seconds nanoseconds := nanoseconds / 1000000000
  epsilon := 0.5 ^ 52
  degenerate := 1 / 10 ^ 12

section

variable (a b : ℝ)

theorem lt_real : Floats.lt a b = decide (a < b) := rfl

theorem le_real : Floats.le a b = decide (a ≤ b) := rfl

theorem eq_real : Floats.eq a b = decide (a = b) := rfl

theorem sqrt_real : Floats.sqrt a = Real.sqrt a := rfl

theorem min_real : Floats.min a b = Min.min a b := rfl

theorem max_real : Floats.max a b = Max.max a b := rfl

end

/-! ## Fling curves -/

structure ScrollPhysics.Coasts (physics : ScrollPhysics ℝ) : Prop where
  start (speed : ℝ) : 0 ≤ physics.flingDistance speed 0
  monotone (speed : ℝ) : Monotone (physics.flingDistance speed)
  rests (speed : ℝ) {elapsed : Nat} (late : physics.flingDuration speed ≤ elapsed) :
    physics.flingDistance speed elapsed = physics.flingDistance speed (physics.flingDuration speed)

namespace ScrollPhysics

def momentumStopVelocity : ℝ := 10

/-- What the curves of `fling_distance` share. -/
noncomputable def ofCurve (duration : ℝ → Nat) (curve : ℝ → Nat → ℝ) : ScrollPhysics ℝ where
  flingDuration := duration
  flingDistance speed elapsed := if duration speed = 0 then 0 else curve speed (min elapsed (duration speed))

noncomputable def fromSecs (seconds : ℝ) : Nat := ⌊seconds * 1000000000 + 0.5⌋₊

noncomputable def exponential (decayPerMs : ℝ) : ScrollPhysics ℝ := ofCurve (fun speed =>
      if speed ≤ momentumStopVelocity then 0
      else fromSecs (Real.log (momentumStopVelocity / speed) / Real.log decayPerMs / 1000))
    (fun speed elapsed =>
      let milliseconds : ℝ := Floats.seconds elapsed * 1000
      speed / 1000 * (decayPerMs ^ milliseconds - 1) / Real.log decayPerMs)

theorem ofCurve_coasts {duration : ℝ → Nat} {curve : ℝ → Nat → ℝ}
    (start : ∀ speed, duration speed ≠ 0 → 0 ≤ curve speed 0)
    (monotone : ∀ speed, duration speed ≠ 0 → Monotone (curve speed)) : (ofCurve duration curve).Coasts where
  start speed := by
    dsimp only [ofCurve]
    split_ifs with none
    · exact le_rfl
    · rw [Nat.zero_min]
      exact start speed none
  monotone speed := by
    intro earlier later order
    dsimp only [ofCurve]
    split_ifs with none
    · exact le_rfl
    · exact monotone speed none (min_le_min_right _ order)
  rests speed elapsed late := by
    dsimp only [ofCurve] at late ⊢
    rw [min_eq_right late, min_self]

theorem exponential_coasts {decayPerMs : ℝ} (positive : 0 < decayPerMs) (decays : decayPerMs < 1) :
    (exponential decayPerMs).Coasts := by
  have log := Real.log_neg positive decays
  refine ofCurve_coasts (fun speed _ => by simp [Floats.seconds]) fun speed some_ earlier later order => ?_
  have fast : 0 ≤ speed := by
    by_contra slow
    exact some_ (if_pos (by unfold momentumStopVelocity; linarith))
  have times : (Floats.seconds earlier : ℝ) * 1000 ≤ Floats.seconds later * 1000 := by
    simp only [Floats.seconds]
    gcongr
  have decay := Real.rpow_le_rpow_of_exponent_ge positive decays.le times
  dsimp only
  rw [div_le_div_right_of_neg log]
  gcongr

end ScrollPhysics

/-! ## Deltas -/

variable {self : TouchGestureRecognizer ℝ}

noncomputable def RecognizedTouchGesture.delta : RecognizedTouchGesture ℝ → Point ℝ
  | scroll event => event.delta
  | _ => zeroPoint

noncomputable def scrolled (recognized : List (RecognizedTouchGesture ℝ)) : Point ℝ :=
  ⟨(recognized.map fun gesture => gesture.delta.x).sum, (recognized.map fun gesture => gesture.delta.y).sum⟩

theorem point_ext {a b : Point ℝ} (x : a.x = b.x) (y : a.y = b.y) : a = b := by
  cases a
  cases b
  cases x
  cases y
  rfl

@[simp] theorem scrolled_nil : scrolled [] = zeroPoint := rfl

theorem scrolled_append (first rest : List (RecognizedTouchGesture ℝ)) :
    scrolled (first ++ rest) = addPoint (scrolled first) (scrolled rest) := by
  simp [scrolled, addPoint]

@[simp] theorem scrolled_one (gesture : RecognizedTouchGesture ℝ) : scrolled [gesture] = gesture.delta := by
  simp [scrolled]

@[simp] theorem delta_scrollEvent (position delta : Point ℝ) (touchPhase : TouchPhase) :
    (RecognizedTouchGesture.scroll (scrollEvent position delta touchPhase)).delta = delta := rfl

@[simp] theorem addPoint_zero (point : Point ℝ) : addPoint point zeroPoint = point :=
  point_ext (add_zero _) (add_zero _)

@[simp] theorem zero_addPoint (point : Point ℝ) : addPoint zeroPoint point = point :=
  point_ext (zero_add _) (zero_add _)

theorem addPoint_assoc (a b c : Point ℝ) : addPoint (addPoint a b) c = addPoint a (addPoint b c) :=
  point_ext (add_assoc _ _ _) (add_assoc _ _ _)

theorem ne_zero (point : Point ℝ) : (!(Floats.eq point.x 0 && Floats.eq point.y 0)) = !decide (point = zeroPoint) := by
  cases point
  simp only [eq_real, zeroPoint, Point.mk.injEq, Bool.decide_and]

theorem lock_self (axis : Axis) (point : Point ℝ) : lockDeltaToAxis (subPoint point point) axis = zeroPoint := by
  cases axis <;> exact point_ext (by simp [lockDeltaToAxis, subPoint, zeroPoint]) (by simp [lockDeltaToAxis, subPoint, zeroPoint])

theorem lock_add (axis : Axis) (start middle last : Point ℝ) : addPoint (lockDeltaToAxis (subPoint middle start) axis)
    (lockDeltaToAxis (subPoint last middle) axis) = lockDeltaToAxis (subPoint last start) axis := by
  cases axis <;> exact point_ext (by simp [lockDeltaToAxis, subPoint, addPoint]) (by simp [lockDeltaToAxis, subPoint, addPoint])

theorem opposes_zero (movement : Point ℝ) : movementsOppose zeroPoint movement = false := by
  simp [movementsOppose, lt_real, zeroPoint]

theorem opposes_self (movement : Point ℝ) : movementsOppose movement movement = false := by
  have squares : 0 ≤ movement.x * movement.x + movement.y * movement.y :=
    add_nonneg (mul_self_nonneg _) (mul_self_nonneg _)
  simp [movementsOppose, lt_real, squares]

/-! ## While the finger is down -/

/-- The last raw position and the last movement along the axis that is not zero, after another raw position. -/
noncomputable def turn (axis : Axis) (last movement position : Point ℝ) : Point ℝ × Point ℝ :=
  let rawDelta := lockDeltaToAxis (subPoint position last) axis
  (position, if rawDelta = zeroPoint then movement else rawDelta)

def rawPositions (id : Nat) : List (Action ℝ) → List (Point ℝ)
  | [] => []
  | .touch event _ :: actions =>
    if event.id = id ∧ event.phase = .moved then event.position :: rawPositions id actions
    else rawPositions id actions
  | _ :: actions => rawPositions id actions

noncomputable def turns (axis : Axis) (positions : List (Point ℝ)) (last movement : Point ℝ) : Point ℝ × Point ℝ :=
  positions.foldl (fun reached position => turn axis reached.1 reached.2 position) (last, movement)

theorem turns_append (axis : Axis) (first rest : List (Point ℝ)) (last movement : Point ℝ) :
    turns axis (first ++ rest) last movement =
      turns axis rest (turns axis first last movement).1 (turns axis first last movement).2 := by
  simp [turns]

theorem rawPositions_cons (id : Nat) (action : Action ℝ) (actions : List (Action ℝ)) :
    rawPositions id (action :: actions) = rawPositions id [action] ++ rawPositions id actions := by
  cases action with
  | touch event now =>
    simp only [rawPositions]
    split_ifs <;> rfl
  | _ => rfl

theorem rawPositions_append (id : Nat) (first rest : List (Action ℝ)) :
    rawPositions id (first ++ rest) = rawPositions id first ++ rawPositions id rest := by
  induction first with
  | nil => rfl
  | cons action first ih =>
    rw [List.cons_append, rawPositions_cons, ih, ← List.append_assoc, ← rawPositions_cons]

structure Reached (axis : Axis) (before : ActiveTouch ℝ) (positions : List (Point ℝ)) (after : ActiveTouch ℝ) :
    Prop where
  id : after.id = before.id
  startPosition : after.startPosition = before.startPosition
  turns : (after.lastPosition, after.lastMovement) = turns axis positions before.lastPosition before.lastMovement

theorem Reached.refl (axis : Axis) (touch : ActiveTouch ℝ) : Reached axis touch [] touch := ⟨rfl, rfl, rfl⟩

theorem Reached.trans {axis : Axis} {before middle after : ActiveTouch ℝ} {first rest : List (Point ℝ)}
    (left : Reached axis before first middle) (right : Reached axis middle rest after) :
    Reached axis before (first ++ rest) after where
  id := right.id.trans left.id
  startPosition := right.startPosition.trans left.startPosition
  turns := by rw [right.turns, turns_append, ← left.turns]

structure PanStep (axis : Axis) (before : ActiveTouch ℝ) (action : Action ℝ)
    (recognized : List (RecognizedTouchGesture ℝ)) (after : ActiveTouch ℝ) : Prop where
  reached : Reached axis before (rawPositions before.id [action]) after
  moved : scrolled recognized = lockDeltaToAxis (subPoint after.emittedPosition before.emittedPosition) axis
  along : ∀ gesture ∈ recognized, movementsOppose gesture.delta after.lastMovement = false

theorem PanStep.quiet {axis : Axis} {touch : ActiveTouch ℝ} {action : Action ℝ}
    (none : rawPositions touch.id [action] = []) : PanStep axis touch action [] touch where
  reached := by
    rw [none]
    exact .refl axis touch
  moved := by rw [lock_self, scrolled_nil]
  along _ member := by cases member

noncomputable def aim (axis : Axis) (movement emitted : Point ℝ) (event : TouchEvent ℝ) : Point ℝ × Point ℝ :=
  let target := event.predictedPosition.getD event.position
  let delta := lockDeltaToAxis (subPoint target emitted) axis
  if movementsOppose delta movement then
    let delta := lockDeltaToAxis (subPoint event.position emitted) axis
    if movementsOppose delta movement then (emitted, zeroPoint) else (event.position, delta)
  else (target, delta)

theorem aim_delta (axis : Axis) (movement emitted : Point ℝ) (event : TouchEvent ℝ) :
    (aim axis movement emitted event).2 = lockDeltaToAxis (subPoint (aim axis movement emitted event).1 emitted) axis := by
  dsimp only [aim]
  split_ifs
  · exact (lock_self axis emitted).symm
  · rfl
  · rfl

theorem aim_along (axis : Axis) (movement emitted : Point ℝ) (event : TouchEvent ℝ) :
    movementsOppose (aim axis movement emitted event).2 movement = false := by
  dsimp only [aim]
  split_ifs with predicted raw
  · exact opposes_zero movement
  · simpa using raw
  · simpa using predicted

theorem movePan_eq (touch : ActiveTouch ℝ) (axis : Axis) (event : TouchEvent ℝ) (now : Nat) :
    self.movePan event now touch axis =
      let movement := (turn axis touch.lastPosition touch.lastMovement event.position).2
      let aimed := aim axis movement touch.emittedPosition event
      ([.scroll (scrollEvent touch.startPosition aimed.2 .moved)],
        { self with
          state := .panning
            { touch with
              lastPosition := event.position
              lastMovement := movement
              emittedPosition := aimed.1
              velocityTracker := touch.velocityTracker.push now event.position } axis }) := by
  have moved := ne_zero (lockDeltaToAxis (subPoint event.position touch.lastPosition) axis)
  dsimp only [movePan, turn, aim]
  by_cases still : lockDeltaToAxis (subPoint event.position touch.lastPosition) axis = zeroPoint
  · rw [if_pos still, moved, if_neg (by simp [still])]
  · rw [if_neg still, moved, if_pos (by simp [still])]

theorem rawPositions_own {id : Nat} {event : TouchEvent ℝ} (now : Nat) (own : event.id = id)
    (moved : event.phase = .moved) : rawPositions id [.touch event now] = [event.position] :=
  if_pos ⟨own, moved⟩

theorem rawPositions_other {id : Nat} {event : TouchEvent ℝ} (now : Nat)
    (other : ¬ (event.id = id ∧ event.phase = .moved)) : rawPositions id [.touch event now] = [] :=
  if_neg other

theorem movePan_step (touch : ActiveTouch ℝ) (axis : Axis) (event : TouchEvent ℝ) (now : Nat)
    (own : event.id = touch.id) (moved : event.phase = .moved) : ∃ after,
    (self.movePan event now touch axis).2 = { self with state := .panning after axis } ∧
    PanStep axis touch (.touch event now) (self.movePan event now touch axis).1 after := by
  rw [movePan_eq]
  refine ⟨_, rfl, ⟨rfl, rfl, ?_⟩, ?_, ?_⟩
  · rw [rawPositions_own now own moved]
    rfl
  · rw [scrolled_one, delta_scrollEvent]
    exact aim_delta ..
  · intro gesture member
    rw [List.mem_singleton.mp member]
    exact aim_along ..

theorem step_pan {touch : ActiveTouch ℝ} {axis : Axis} (still : self.momentum = none)
    (panning : self.state = .panning touch axis) (action : Action ℝ)
    (open_ : ∀ event now, action = .touch event now → ¬ Closes touch.id event) : ∃ after,
    (step self action).2 = { self with state := .panning after axis } ∧
    PanStep axis touch action (step self action).1 after := by
  have same : self = { self with state := .panning touch axis } := by rw [← panning]
  cases action with
  | touch event now =>
    by_cases own : event.id = touch.id
    · simp only [step, handleEventAt]
      cases phase : event.phase with
      | started =>
        simp only [touchStarted, panning, still]
        exact ⟨touch, rfl, .quiet (rawPositions_other now (by simp [phase]))⟩
      | moved =>
        simp only [touchMoved, panning, if_pos own.symm]
        exact movePan_step touch axis event now own phase
      | ended => exact absurd ⟨own, .inl phase⟩ (open_ event now rfl)
      | cancelled => exact absurd ⟨own, .inr phase⟩ (open_ event now rfl)
    · have active : self.state.touch = some touch := by rw [panning, TouchGestureState.touch]
      rw [ignores_other (consistent_of_none still) active event now own]
      exact ⟨touch, same, .quiet (rawPositions_other now (by simp [own]))⟩
  | tickMomentum now =>
    simp only [step, tickMomentumAt, still]
    exact ⟨touch, still ▸ same, .quiet rfl⟩
  | offerLongPress id =>
    simp only [step, offerLongPress, panning]
    exact ⟨touch, same, .quiet rfl⟩
  | offerTouchDrag id =>
    simp only [step, offerTouchDrag, panning]
    exact ⟨touch, same, .quiet rfl⟩
  | resolveLongPress claimed =>
    simp only [step, resolveLongPress, panning, ite_self]
    exact ⟨touch, same, .quiet rfl⟩
  | resolveTouchDrag claimed =>
    simp only [step, resolveTouchDrag, panning, ite_self]
    exact ⟨touch, same, .quiet rfl⟩

theorem run_pan {touch : ActiveTouch ℝ} {axis : Axis} (still : self.momentum = none)
    (panning : self.state = .panning touch axis) (actions : List (Action ℝ))
    (open_ : ∀ event now, .touch event now ∈ actions → ¬ Closes touch.id event) : ∃ after,
    (run self actions).2 = { self with state := .panning after axis } ∧
    Reached axis touch (rawPositions touch.id actions) after ∧
    scrolled (run self actions).1 = lockDeltaToAxis (subPoint after.emittedPosition touch.emittedPosition) axis := by
  induction actions generalizing self touch with
  | nil => exact ⟨touch, by rw [← panning]; rfl, .refl axis touch, (lock_self axis _).symm⟩
  | cons action actions ih =>
    obtain ⟨middle, first, taken⟩ := step_pan still panning action fun event now eq =>
      open_ event now (eq ▸ List.mem_cons_self)
    have id := taken.reached.id
    have still' : (step self action).2.momentum = none := by rw [first, still]
    obtain ⟨after, last, reached, sum⟩ := ih still' (by rw [first]) fun event now member =>
      id ▸ open_ event now (List.mem_cons_of_mem _ member)
    refine ⟨after, ?_, ?_, ?_⟩
    · rw [run, last, first]
    · rw [rawPositions_cons]
      exact taken.reached.trans (id ▸ reached)
    · rw [run, scrolled_append, taken.moved, sum, lock_add]

theorem turn_start (axis : Axis) (start position : Point ℝ) :
    turn axis start zeroPoint position = (position, lockDeltaToAxis (subPoint position start) axis) := by
  dsimp only [turn]
  split_ifs with none
  · rw [none]
  · rfl

structure Begun (touch : ActiveTouch ℝ) (axis : Axis) (action : Action ℝ)
    (recognized : List (RecognizedTouchGesture ℝ)) : Prop where
  turns : (touch.lastPosition, touch.lastMovement) =
    turns axis (rawPositions touch.id [action]) touch.startPosition zeroPoint
  moved : scrolled recognized = lockDeltaToAxis (subPoint touch.emittedPosition touch.startPosition) axis
  along : ∀ gesture ∈ recognized, movementsOppose gesture.delta touch.lastMovement = false

theorem beginPan_begun (before : ActiveTouch ℝ) (event : TouchEvent ℝ) (now : Nat) (own : event.id = before.id)
    (moved : event.phase = .moved) (last : before.lastPosition = event.position) {touch : ActiveTouch ℝ} {axis : Axis}
    (begins : (self.beginPan event before).2.state = .panning touch axis) : Begun touch axis (.touch event now)
    (self.beginPan event before).1 := by
  have turned (axis : Axis) : (before.lastPosition, lockDeltaToAxis (subPoint event.position before.startPosition) axis) =
      Gestures.turns axis (rawPositions before.id [.touch event now]) before.startPosition zeroPoint := by
    rw [rawPositions_own now own moved, last]
    exact (turn_start ..).symm
  dsimp only [beginPan] at begins ⊢
  split_ifs at begins ⊢ with opposes
  · cases begins
    refine ⟨turned _, by rw [scrolled_one, delta_scrollEvent], ?_⟩
    intro gesture member
    rw [List.mem_singleton.mp member]
    exact opposes_self _
  · cases begins
    refine ⟨turned _, by rw [scrolled_one, delta_scrollEvent], ?_⟩
    intro gesture member
    rw [List.mem_singleton.mp member]
    exact Bool.eq_false_iff.mpr opposes

theorem touchStarted_begun (consistent : self.Consistent) (event : TouchEvent ℝ) (now : Nat)
    (fresh : ∀ touch axis, self.state ≠ .panning touch axis) (started : event.phase = .started)
    {touch : ActiveTouch ℝ} {axis : Axis} (begins : (self.touchStarted event now).2.state = .panning touch axis) :
    Begun touch axis (.touch event now) (self.touchStarted event now).1 := by
  cases caught : self.momentum with
  | none =>
    cases state : self.state with
    | panning before axis' => exact absurd state (fresh before axis')
    | _ => simp [touchStarted, state, caught] at begins
  | some momentum =>
    have idle := consistent (by rw [caught]; rfl)
    simp only [touchStarted, idle, caught, Option.map_some, TouchGestureState.panning.injEq] at begins ⊢
    obtain ⟨rfl, -⟩ := begins
    refine ⟨?_, ?_, ?_⟩
    · rw [rawPositions_other now (by simp [started])]
      rfl
    · rw [scrolled_append, scrolled_one, delta_scrollEvent, lock_self, addPoint_zero]
      exact scrolled_one _
    · intro gesture member
      rcases List.mem_append.mp member with member | member
      · rw [List.mem_singleton.mp member]
        exact opposes_zero _
      · rw [List.mem_singleton.mp member]
        exact opposes_zero _

theorem touchMoved_begun (event : TouchEvent ℝ) (now : Nat)
    (fresh : ∀ touch axis, self.state ≠ .panning touch axis) (moved : event.phase = .moved)
    {touch : ActiveTouch ℝ} {axis : Axis} (begins : (self.touchMoved event now).2.state = .panning touch axis) :
    Begun touch axis (.touch event now) (self.touchMoved event now).1 := by
  cases state : self.state with
  | pending before deadline longPressOffered touchDragOffered =>
    simp only [touchMoved, state] at begins ⊢
    split_ifs at begins ⊢ with own past
    · exact beginPan_begun
        { before with
          velocityTracker := before.velocityTracker.push now event.position
          lastPosition := event.position }
        event now own.symm moved rfl begins
    · exact absurd begins (fresh touch axis)
  | panning before axis' => exact absurd state (fresh before axis')
  | idle => simp [touchMoved, state] at begins
  | longPressing before =>
    simp only [touchMoved, state] at begins
    split_ifs at begins
    exact absurd begins (fresh touch axis)
  | touchDragging before =>
    simp only [touchMoved, state] at begins
    split_ifs at begins
    exact absurd begins (fresh touch axis)

theorem begins_touch {touch : ActiveTouch ℝ} {axis : Axis} (fresh : ∀ touch axis, self.state ≠ .panning touch axis)
    {action : Action ℝ} (begins : (step self action).2.state = .panning touch axis) :
    ∃ event now, action = .touch event now ∧ (event.phase = .started ∨ event.phase = .moved) := by
  have same : self.state ≠ .panning touch axis := fresh touch axis
  cases action with
  | touch event now =>
    refine ⟨event, now, rfl, ?_⟩
    simp only [step, handleEventAt] at begins
    cases phase : event.phase with
    | started => exact .inl rfl
    | moved => exact .inr rfl
    | ended =>
      cases state : self.state with
      | idle => simp [phase, touchEnded, state] at begins
      | panning before axis' => exact absurd state (fresh before axis')
      | pending before deadline longPressOffered touchDragOffered =>
        simp only [phase, touchEnded, state] at begins
        split_ifs at begins
        · simp [endTap] at begins
        · exact absurd begins same
      | _ =>
        simp only [phase, touchEnded, state] at begins
        split_ifs at begins
        exact absurd begins same
    | cancelled =>
      cases state : self.state with
      | idle => simp [phase, touchCancelled, state] at begins
      | panning before axis' => exact absurd state (fresh before axis')
      | _ =>
        simp only [phase, touchCancelled, state] at begins
        split_ifs at begins
        exact absurd begins same
  | tickMomentum now =>
    exact absurd begins (by
      cases fling : self.momentum with
      | none => simpa [step, tickMomentumAt, fling] using same
      | some momentum =>
        simp only [step, tickMomentumAt, fling]
        split_ifs <;> exact same)
  | offerLongPress id =>
    cases state : self.state with
    | pending before deadline longPressOffered touchDragOffered =>
      simp only [step, offerLongPress, state] at begins
      split_ifs at begins
      exact absurd begins same
    | _ =>
      simp only [step, offerLongPress, state] at begins
      exact absurd (state.trans begins) same
  | offerTouchDrag id =>
    cases state : self.state with
    | pending before deadline longPressOffered touchDragOffered =>
      simp only [step, offerTouchDrag, state] at begins
      split_ifs at begins
      exact absurd begins same
    | _ =>
      simp only [step, offerTouchDrag, state] at begins
      exact absurd (state.trans begins) same
  | resolveLongPress claimed =>
    rcases @resolveLongPress_cases ℝ self claimed with kept | ⟨_, _, _, -, after⟩
    · rw [step, kept] at begins
      exact absurd begins same
    · simp [step, after] at begins
  | resolveTouchDrag claimed =>
    rcases @resolveTouchDrag_cases ℝ self claimed with kept | ⟨_, _, _, -, after⟩
    · rw [step, kept] at begins
      exact absurd begins same
    · simp [step, after] at begins

theorem step_begins {touch : ActiveTouch ℝ} {axis : Axis} (consistent : self.Consistent)
    (fresh : ∀ touch axis, self.state ≠ .panning touch axis) (action : Action ℝ)
    (begins : (step self action).2.state = .panning touch axis) : Begun touch axis action (step self action).1 := by
  obtain ⟨event, now, rfl, phase | phase⟩ := begins_touch fresh begins
  · simp only [step, handleEventAt, phase] at begins ⊢
    exact touchStarted_begun consistent event now fresh phase begins
  · simp only [step, handleEventAt, phase] at begins ⊢
    exact touchMoved_begun event now fresh phase begins

/-! ## The fling -/

noncomputable def Momentum.along (momentum : Momentum ℝ) (distance : ℝ) : Point ℝ :=
  ⟨momentum.direction.x * distance, momentum.direction.y * distance⟩

theorem Momentum.along_add (momentum : Momentum ℝ) (first rest : ℝ) :
    addPoint (momentum.along first) (momentum.along rest) = momentum.along (first + rest) :=
  point_ext (mul_add _ _ _).symm (mul_add _ _ _).symm

theorem Momentum.along_zero (momentum : Momentum ℝ) : momentum.along 0 = zeroPoint :=
  point_ext (mul_zero _) (mul_zero _)

def Momentum.totalDistance (physics : ScrollPhysics ℝ) (momentum : Momentum ℝ) : ℝ :=
  physics.flingDistance momentum.speed momentum.duration

structure Momentum.Flies (physics : ScrollPhysics ℝ) (momentum : Momentum ℝ) : Prop where
  duration : momentum.duration = physics.flingDuration momentum.speed
  ahead : momentum.emittedDistance ≤ momentum.totalDistance physics

noncomputable def releaseVelocity (touch : ActiveTouch ℝ) (axis : Axis) (now : Nat) : Point ℝ :=
  let fingerStopped := touch.velocityTracker.latestSampleTime.all fun latest =>
    decide (now - latest > velocityAssumeStoppedGap)
  lockDeltaToAxis (if fingerStopped then zeroPoint else touch.velocityTracker.velocity) axis

noncomputable def launch (tuning : GestureTuning ℝ) (touch : ActiveTouch ℝ) (axis : Axis) (now : Nat)
    (velocity release : Point ℝ) : Option (Momentum ℝ) :=
  let speed := Floats.sqrt (velocity.x * velocity.x + velocity.y * velocity.y)
  if Floats.le tuning.minFlingVelocity speed then
    let direction : Point ℝ := ⟨velocity.x / speed, velocity.y / speed⟩
    let speed := Floats.min speed maxFlingVelocity
    let duration := tuning.scrollPhysics.flingDuration speed
    if duration ≠ 0 then
      let totalDistance := tuning.scrollPhysics.flingDistance speed duration
      let overshoot := -(release.x * direction.x + release.y * direction.y)
      some
        { position := touch.startPosition
          direction := direction
          axis := axis
          speed := speed
          startedAt := now
          duration := duration
          emittedDistance := if Floats.lt 0 overshoot && Floats.lt overshoot totalDistance then overshoot else 0 }
    else none
  else none

noncomputable def coasting (physics : ScrollPhysics ℝ) : Option (Momentum ℝ) → Point ℝ
  | none => zeroPoint
  | some momentum => momentum.along (momentum.totalDistance physics - momentum.emittedDistance)

noncomputable def flung (physics : ScrollPhysics ℝ) : Option (Momentum ℝ) → Point ℝ
  | none => zeroPoint
  | some momentum => momentum.along (momentum.totalDistance physics)

noncomputable def overshot : Option (Momentum ℝ) → Point ℝ
  | none => zeroPoint
  | some momentum => momentum.along momentum.emittedDistance

theorem overshot_coasting (physics : ScrollPhysics ℝ) (momentum : Option (Momentum ℝ)) :
    addPoint (overshot momentum) (coasting physics momentum) = flung physics momentum := by
  cases momentum with
  | none => exact addPoint_zero _
  | some momentum =>
    rw [overshot, coasting, Momentum.along_add, add_sub_cancel]
    rfl

theorem endPan_eq (still : self.momentum = none) (event : TouchEvent ℝ) (now : Nat) (touch : ActiveTouch ℝ)
    (axis : Axis) :
    self.endPan event now touch axis =
      let release := lockDeltaToAxis (subPoint event.position touch.emittedPosition) axis
      let momentum := launch self.tuning touch axis now (releaseVelocity touch axis now) release
      ([.scroll (scrollEvent touch.startPosition (addPoint release (overshot momentum)) .ended)],
        { self with momentum := momentum, state := .idle }) := by
  dsimp only [endPan, launch]
  rw [← releaseVelocity, still]
  generalize releaseVelocity touch axis now = velocity
  split_ifs
  · rfl
  · simp only [overshot, Momentum.along_zero, addPoint_zero]
  · simp only [overshot, addPoint_zero]
  · simp only [overshot, addPoint_zero]

theorem launch_flies {tuning : GestureTuning ℝ} (coasts : tuning.scrollPhysics.Coasts) {touch : ActiveTouch ℝ}
    {axis : Axis} {now : Nat} {velocity release : Point ℝ} {momentum : Momentum ℝ}
    (launched : launch tuning touch axis now velocity release = some momentum) :
    momentum.Flies tuning.scrollPhysics := by
  dsimp only [launch] at launched
  split_ifs at launched with fast lasts runsAhead
  · cases launched
    simp only [lt_real, Bool.and_eq_true, decide_eq_true_eq] at runsAhead
    exact ⟨rfl, runsAhead.2.le⟩
  · cases launched
    exact ⟨rfl, (coasts.start _).trans (coasts.monotone _ (Nat.zero_le _))⟩

structure Coasted (physics : ScrollPhysics ℝ) (before after : Momentum ℝ) : Prop where
  direction : after.direction = before.direction
  speed : after.speed = before.speed
  duration : after.duration = before.duration
  flies : after.Flies physics

structure CoastStep (physics : ScrollPhysics ℝ) (before : Momentum ℝ)
    (recognized : List (RecognizedTouchGesture ℝ)) (after : Option (Momentum ℝ)) : Prop where
  coasted : ∀ momentum ∈ after, Coasted physics before momentum
  moved : addPoint (scrolled recognized) (coasting physics after) = coasting physics (some before)
  along : ∀ gesture ∈ recognized, ∃ distance, 0 ≤ distance ∧ gesture.delta = before.along distance

theorem CoastStep.quiet {physics : ScrollPhysics ℝ} {momentum : Momentum ℝ} (flies : momentum.Flies physics) :
    CoastStep physics momentum [] (some momentum) where
  coasted after eq := by
    cases eq
    exact ⟨rfl, rfl, rfl, flies⟩
  moved := zero_addPoint _
  along _ member := by cases member

theorem step_eq (distance emitted : ℝ) : max (distance - emitted) 0 = max emitted distance - emitted := by
  rw [max_comm emitted, ← max_sub_sub_right, sub_self]

theorem tick_step (coasts : self.tuning.scrollPhysics.Coasts) {momentum : Momentum ℝ}
    (fling : self.momentum = some momentum) (flies : momentum.Flies self.tuning.scrollPhysics) (now : Nat) :
    CoastStep self.tuning.scrollPhysics momentum (self.tickMomentumAt now).1 (self.tickMomentumAt now).2.momentum := by
  obtain ⟨duration, ahead⟩ := flies
  simp only [tickMomentumAt, fling, max_real, step_eq]
  split_ifs with late
  · have rests : self.tuning.scrollPhysics.flingDistance momentum.speed (now - momentum.startedAt) =
        momentum.totalDistance self.tuning.scrollPhysics := by
      rw [Momentum.totalDistance, duration]
      exact coasts.rests _ (duration ▸ late)
    rw [rests, max_eq_right ahead]
    refine ⟨fun _ eq => (by cases eq), ?_, ?_⟩
    · rw [scrolled_one, delta_scrollEvent]
      exact addPoint_zero _
    · intro gesture member
      rw [List.mem_singleton.mp member]
      exact ⟨_, sub_nonneg.mpr ahead, rfl⟩
  · have under : self.tuning.scrollPhysics.flingDistance momentum.speed (now - momentum.startedAt) ≤
        momentum.totalDistance self.tuning.scrollPhysics :=
      coasts.monotone _ (not_le.mp late).le
    refine ⟨?_, ?_, ?_⟩
    · intro after eq
      cases eq
      exact ⟨rfl, rfl, rfl, ⟨duration, max_le ahead under⟩⟩
    · rw [scrolled_one, delta_scrollEvent]
      refine (Momentum.along_add momentum _ _).trans (congrArg momentum.along ?_)
      dsimp only [Momentum.totalDistance]
      ring
    · intro gesture member
      rw [List.mem_singleton.mp member]
      exact ⟨_, sub_nonneg.mpr (le_max_left _ _), rfl⟩

theorem step_coast (coasts : self.tuning.scrollPhysics.Coasts) (consistent : self.Consistent) {momentum : Momentum ℝ}
    (fling : self.momentum = some momentum) (flies : momentum.Flies self.tuning.scrollPhysics) (action : Action ℝ)
    (untouched : ∀ event now, action = .touch event now → event.phase ≠ .started) :
    (step self action).2.tuning = self.tuning ∧ (step self action).2.state = .idle ∧
    CoastStep self.tuning.scrollPhysics momentum (step self action).1 (step self action).2.momentum := by
  have idle : self.state = .idle := consistent (by rw [fling]; rfl)
  have quiet : self.tuning = self.tuning ∧ self.state = .idle ∧
      CoastStep self.tuning.scrollPhysics momentum [] self.momentum := ⟨rfl, idle, fling ▸ .quiet flies⟩
  cases action with
  | touch event now =>
    simp only [step, handleEventAt]
    cases phase : event.phase with
    | started => exact absurd phase (untouched event now rfl)
    | moved => simpa only [touchMoved, idle] using quiet
    | ended => simpa only [touchEnded, idle] using quiet
    | cancelled => simpa only [touchCancelled, idle] using quiet
  | tickMomentum now =>
    refine ⟨?_, ?_, tick_step coasts fling flies now⟩
    · simp only [step, tickMomentumAt, fling]
      split_ifs <;> rfl
    · simp only [step, tickMomentumAt, fling]
      split_ifs <;> exact idle
  | offerLongPress id => simpa only [step, offerLongPress, idle] using quiet
  | offerTouchDrag id => simpa only [step, offerTouchDrag, idle] using quiet
  | resolveLongPress claimed => simpa only [step, resolveLongPress, idle, ite_self] using quiet
  | resolveTouchDrag claimed => simpa only [step, resolveTouchDrag, idle, ite_self] using quiet

theorem step_idle (still : self.momentum = none) (idle : self.state = .idle) (action : Action ℝ)
    (untouched : ∀ event now, action = .touch event now → event.phase ≠ .started) : step self action = ([], self) := by
  cases action with
  | touch event now =>
    simp only [step, handleEventAt]
    cases phase : event.phase with
    | started => exact absurd phase (untouched event now rfl)
    | moved => simp only [touchMoved, idle]
    | ended => simp only [touchEnded, idle]
    | cancelled => simp only [touchCancelled, idle]
  | tickMomentum now => simp only [step, tickMomentumAt, still]
  | offerLongPress id => simp only [step, offerLongPress, idle]
  | offerTouchDrag id => simp only [step, offerTouchDrag, idle]
  | resolveLongPress claimed => simp only [step, resolveLongPress, idle, ite_self]
  | resolveTouchDrag claimed => simp only [step, resolveTouchDrag, idle, ite_self]

theorem run_coast (coasts : self.tuning.scrollPhysics.Coasts) (idle : self.state = .idle)
    (flies : ∀ momentum ∈ self.momentum, momentum.Flies self.tuning.scrollPhysics) (actions : List (Action ℝ))
    (untouched : ∀ event now, .touch event now ∈ actions → event.phase ≠ .started) :
    addPoint (scrolled (run self actions).1) (coasting self.tuning.scrollPhysics (run self actions).2.momentum) =
        coasting self.tuning.scrollPhysics self.momentum ∧
      ∀ gesture ∈ (run self actions).1, ∃ momentum ∈ self.momentum, ∃ distance, 0 ≤ distance ∧
        gesture.delta = momentum.along distance := by
  induction actions generalizing self with
  | nil => exact ⟨zero_addPoint _, fun _ member => by cases member⟩
  | cons action actions ih =>
    have first : ∀ event now, action = .touch event now → event.phase ≠ .started :=
      fun event now eq => untouched event now (eq ▸ List.mem_cons_self)
    have others : ∀ event now, .touch event now ∈ actions → event.phase ≠ .started :=
      fun event now member => untouched event now (List.mem_cons_of_mem _ member)
    rw [run, scrolled_append]
    cases fling : self.momentum with
    | none =>
      rw [step_idle fling idle action first]
      obtain ⟨sum, along⟩ := ih coasts idle flies others
      rw [fling] at sum along
      exact ⟨by rwa [scrolled_nil, zero_addPoint], along⟩
    | some momentum =>
      obtain ⟨tuning, idle', coasted, moved, along⟩ := step_coast coasts (fun _ => idle) fling (flies _ fling) action first
      obtain ⟨sum, along'⟩ := ih (tuning ▸ coasts) idle' (tuning ▸ fun after eq => (coasted after eq).flies) others
      rw [tuning] at sum
      refine ⟨?_, ?_⟩
      · rw [addPoint_assoc, sum, moved]
      · intro gesture member
        rcases List.mem_append.mp member with member | member
        · exact ⟨momentum, rfl, along gesture member⟩
        · obtain ⟨after, eq, distance, forward, delta⟩ := along' gesture member
          refine ⟨momentum, rfl, distance, forward, ?_⟩
          rw [delta, Momentum.along, (coasted after eq).direction]
          rfl

/-! ## Whole pans -/

theorem step_tuning (action : Action ℝ) : (step self action).2.tuning = self.tuning := by
  cases action with
  | touch event now =>
    simp only [step, handleEventAt]
    cases event.phase with
    | started =>
      simp only [touchStarted]
      repeat' split
      all_goals rfl
    | moved =>
      simp only [touchMoved]
      repeat' split
      all_goals rfl
    | ended =>
      simp only [touchEnded]
      repeat' split
      all_goals rfl
    | cancelled =>
      simp only [touchCancelled]
      repeat' split
      all_goals rfl
  | tickMomentum now =>
    simp only [step, tickMomentumAt]
    repeat' split
    all_goals rfl
  | offerLongPress id =>
    simp only [step, offerLongPress]
    repeat' split
    all_goals rfl
  | offerTouchDrag id =>
    simp only [step, offerTouchDrag]
    repeat' split
    all_goals rfl
  | resolveLongPress claimed =>
    rcases @resolveLongPress_cases ℝ self claimed with kept | ⟨_, _, _, -, after⟩
    · rw [step, kept]
    · rw [step, after]
  | resolveTouchDrag claimed =>
    rcases @resolveTouchDrag_cases ℝ self claimed with kept | ⟨_, _, _, -, after⟩
    · rw [step, kept]
    · rw [step, after]

theorem run_tuning (actions : List (Action ℝ)) : (run self actions).2.tuning = self.tuning := by
  induction actions generalizing self with
  | nil => rfl
  | cons action actions ih => exact ih.trans (step_tuning action)

structure PanBegins (tuning : GestureTuning ℝ) (prior : List (Action ℝ)) (first : Action ℝ) (touch : ActiveTouch ℝ)
    (axis : Axis) : Prop where
  fresh (touch : ActiveTouch ℝ) (axis : Axis) : (run { tuning := tuning } prior).2.state ≠ .panning touch axis
  begins : (run { tuning := tuning } (prior ++ [first])).2.state = .panning touch axis

section

variable {tuning : GestureTuning ℝ} {prior : List (Action ℝ)} {first : Action ℝ} {touch : ActiveTouch ℝ} {axis : Axis}

theorem run_concat (actions : List (Action ℝ)) (action : Action ℝ) : run self (actions ++ [action]) =
      ((run self actions).1 ++ (step (run self actions).2 action).1, (step (run self actions).2 action).2) := by
  rw [run_append]
  simp only [run, List.append_nil]

theorem PanBegins.begun (pan : PanBegins tuning prior first touch axis) :
    Begun touch axis first (step (run { tuning := tuning } prior).2 first).1 := by
  have begins := pan.begins
  rw [run_concat] at begins
  exact step_begins (run_follows (consistent_of_none rfl) prior).consistent pan.fresh first begins

theorem PanBegins.still (pan : PanBegins tuning prior first touch axis) :
    (run { tuning := tuning } (prior ++ [first])).2.momentum = none :=
  momentum_none (run_follows (consistent_of_none rfl) _).consistent (by rw [pan.begins]; simp)

theorem PanBegins.continues (pan : PanBegins tuning prior first touch axis) (moves : List (Action ℝ))
    (open_ : ∀ event now, .touch event now ∈ moves → ¬ Closes touch.id event) :
    ∃ after, (run { tuning := tuning } (prior ++ first :: moves)).2 =
        { (run { tuning := tuning } (prior ++ [first])).2 with state := .panning after axis } ∧
      after.id = touch.id ∧ after.startPosition = touch.startPosition ∧
      (after.lastPosition, after.lastMovement) =
        turns axis (rawPositions touch.id (first :: moves)) touch.startPosition zeroPoint ∧
      scrolled (run (run { tuning := tuning } prior).2 (first :: moves)).1 =
        lockDeltaToAxis (subPoint after.emittedPosition touch.startPosition) axis := by
  obtain ⟨turned, moved, -⟩ := pan.begun
  obtain ⟨after, last, reached, sum⟩ := run_pan pan.still pan.begins moves open_
  refine ⟨after, ?_, reached.id, reached.startPosition, ?_, ?_⟩
  · rw [← last, List.append_cons, run_append]
  · rw [reached.turns, rawPositions_cons, turns_append, ← turned]
  · rw [run_concat] at sum
    rw [run, scrolled_append, moved, sum, lock_add]

theorem step_release (coasts : self.tuning.scrollPhysics.Coasts) (still : self.momentum = none)
    (panning : self.state = .panning touch axis) {event : TouchEvent ℝ} (now : Nat) (own : event.id = touch.id)
    (ended : event.phase = .ended) :
    (step self (.touch event now)).2.state = .idle ∧
      (∀ momentum ∈ (step self (.touch event now)).2.momentum, momentum.Flies self.tuning.scrollPhysics) ∧
      scrolled (step self (.touch event now)).1 =
        addPoint (lockDeltaToAxis (subPoint event.position touch.emittedPosition) axis)
          (overshot (step self (.touch event now)).2.momentum) := by
  simp only [step, handleEventAt, ended, touchEnded, panning, if_pos own.symm, endPan_eq still]
  refine ⟨trivial, ?_, scrolled_one _⟩
  intro momentum launched
  exact launch_flies coasts launched

theorem release_scrolls (coasts : self.tuning.scrollPhysics.Coasts) (still : self.momentum = none)
    (panning : self.state = .panning touch axis) {event : TouchEvent ℝ} {now : Nat} (own : event.id = touch.id)
    (ended : event.phase = .ended) {rest : List (Action ℝ)}
    (untouched : ∀ event now, .touch event now ∈ rest → event.phase ≠ .started)
    (rested : (run self (.touch event now :: rest)).2.momentum = none) :
    scrolled (run self (.touch event now :: rest)).1 =
      addPoint (lockDeltaToAxis (subPoint event.position touch.emittedPosition) axis)
        (flung self.tuning.scrollPhysics (step self (.touch event now)).2.momentum) := by
  have tuning := @step_tuning self (.touch event now)
  obtain ⟨idle, flies, released⟩ := step_release coasts still panning now own ended
  obtain ⟨coasted, -⟩ := run_coast (tuning ▸ coasts) idle (tuning ▸ flies) rest untouched
  have rested' : (run (step self (.touch event now)).2 rest).2.momentum = none := rested
  rw [rested', tuning] at coasted
  have coasted' : scrolled (run (step self (.touch event now)).2 rest).1 =
      coasting self.tuning.scrollPhysics (step self (.touch event now)).2.momentum :=
    (addPoint_zero _).symm.trans coasted
  rw [run, scrolled_append, released, coasted', addPoint_assoc, overshot_coasting]

/-- The defaults of `GestureTuning`. -/
noncomputable def defaultTuning : GestureTuning ℝ where
  touchSlop := 8
  multiTapInterval := 400000000
  multiTapSlop := 16
  longPressDuration := 500000000
  scrollPhysics := .exponential 0.998
  minFlingVelocity := 50

theorem defaultTuning_coasts : defaultTuning.scrollPhysics.Coasts :=
  ScrollPhysics.exponential_coasts (by norm_num) (by norm_num)

def swipe (phase : TouchPhase) (y : ℝ) (predicted : Option ℝ) (milliseconds : Nat) : Action ℝ :=
  .touch ⟨0, phase, ⟨0, y⟩, predicted.map fun y => ⟨0, y⟩⟩ (milliseconds * 1000000)

noncomputable def swipeTouch : ActiveTouch ℝ where
  id := 0
  startPosition := ⟨0, 0⟩
  lastPosition := ⟨0, 20⟩
  emittedPosition := ⟨0, 35⟩
  lastMovement := ⟨0, 20⟩
  velocityTracker := ⟨[(0, ⟨0, 0⟩), (10000000, ⟨0, 20⟩)]⟩

theorem swipe_begins :
    PanBegins defaultTuning [swipe .started 0 none 0] (swipe .moved 20 (some 35) 10) swipeTouch .vertical where
  fresh touch axis := by simp [run, step, swipe, handleEventAt, touchStarted]
  begins := by
    have slop : Floats.lt defaultTuning.touchSlop (magnitude (⟨0, 20⟩ : Point ℝ)) = true := by
      have : Real.sqrt (20 * 20) = 20 := Real.sqrt_mul_self (by norm_num)
      simp only [lt_real, magnitude, sqrt_real, mul_zero, zero_add, this, defaultTuning]
      norm_num
    have axis : dominantAxis (⟨0, 20⟩ : Point ℝ) = .vertical := by
      simp [dominantAxis, le_real, Floats.abs]
    have ahead : movementsOppose (⟨0, 35⟩ : Point ℝ) ⟨0, 20⟩ = false := by
      simp [movementsOppose, lt_real]
    simp only [run, step, swipe, handleEventAt, touchStarted, touchMoved, List.cons_append, List.nil_append]
    simp [slop, beginPan, axis, ahead, lockDeltaToAxis, subPoint, swipeTouch, VelocityTracker.push, velocityMaxSamples]

theorem tick_over (actions : List (Action ℝ)) (now : Nat)
    (late : ∀ momentum ∈ (run self actions).2.momentum, momentum.startedAt + momentum.duration ≤ now) :
    (run self (actions ++ [.tickMomentum now])).2.momentum = none := by
  rw [run_concat]
  cases fling : (run self actions).2.momentum with
  | none => simp only [step, tickMomentumAt, fling]
  | some momentum =>
    have := late momentum fling
    simp only [step, tickMomentumAt, fling]
    rw [if_pos (by omega)]

theorem release_momentum (still : self.momentum = none) (panning : self.state = .panning touch axis)
    {event : TouchEvent ℝ} (now : Nat) (own : event.id = touch.id) (ended : event.phase = .ended) :
    (step self (.touch event now)).2.momentum = launch self.tuning touch axis now (releaseVelocity touch axis now)
    (lockDeltaToAxis (subPoint event.position touch.emittedPosition) axis) := by
  simp only [step, handleEventAt, ended, touchEnded, panning, if_pos own.symm, endPan_eq still]

theorem launch_bounds {now : Nat} {velocity release : Point ℝ} {momentum : Momentum ℝ}
    (launched : launch tuning touch axis now velocity release = some momentum) : momentum.startedAt = now ∧
    momentum.speed ≤ 8000 ∧ momentum.duration = tuning.scrollPhysics.flingDuration momentum.speed := by
  dsimp only [launch] at launched
  split_ifs at launched
  all_goals
    cases launched
    exact ⟨rfl, min_le_right _ _, rfl⟩

theorem default_duration {speed : ℝ} (bound : speed ≤ 8000) :
    defaultTuning.scrollPhysics.flingDuration speed ≤ 400000000000 := by
  have decay : Real.log 0.998 ≤ -0.002 := (Real.log_le_sub_one_of_pos (by norm_num)).trans (by norm_num)
  simp only [defaultTuning, ScrollPhysics.exponential, ScrollPhysics.ofCurve]
  by_cases slow : speed ≤ ScrollPhysics.momentumStopVelocity
  · rw [if_pos slow]
    exact Nat.zero_le _
  · rw [if_neg slow]
    rw [ScrollPhysics.momentumStopVelocity] at slow ⊢
    have positive : 0 < speed := by linarith
    have log : -799 ≤ Real.log (10 / speed) := by
      have := Real.log_le_sub_one_of_pos (show 0 < speed / 10 by positivity)
      rw [← inv_div, Real.log_inv]
      linarith
    have lasts : Real.log (10 / speed) / Real.log 0.998 ≤ 399500 := by
      rw [div_le_iff_of_neg (by linarith)]
      linarith
    refine Nat.lt_succ_iff.mp ((Nat.floor_lt' (by norm_num)).mpr ?_)
    push_cast
    linarith

theorem swipe_open : ∀ event now, .touch event now ∈ [swipe .moved 40 (some 55) 20] → ¬ Closes swipeTouch.id event := by
  intro event now member
  cases List.mem_singleton.mp member
  simp [Closes]

theorem swipe_over : (run { tuning := defaultTuning } ([swipe .started 0 none 0] ++ swipe .moved 20 (some 35) 10 ::
      [swipe .moved 40 (some 55) 20] ++ swipe .ended 40 none 30 :: [.tickMomentum 500000000000])).2.momentum = none := by
  obtain ⟨after, state, id, -, -, -⟩ := swipe_begins.continues _ swipe_open
  have physics := @run_tuning { tuning := defaultTuning }
    ([swipe .started 0 none 0] ++ [swipe .moved 20 (some 35) 10, swipe .moved 40 (some 55) 20])
  have still := (congrArg TouchGestureRecognizer.momentum state).trans swipe_begins.still
  have panning := congrArg TouchGestureRecognizer.state state
  have released := @release_momentum _ after .vertical still panning ⟨0, .ended, ⟨0, 40⟩, none⟩ 30000000 id.symm rfl
  rw [List.append_cons]
  refine tick_over _ _ ?_
  rw [run_concat]
  intro momentum fling
  obtain ⟨started, speed, duration⟩ := launch_bounds (released.symm.trans fling)
  have := (duration.trans (by rw [physics])).trans_le (default_duration speed)
  omega

/-- Over a whole pan and its fling to the end, however prediction ran ahead and whenever the frames were, the
content moves as far as the finger did and the fling goes. -/
theorem pan_scrolls (coasts : tuning.scrollPhysics.Coasts) (pan : PanBegins tuning prior first touch axis)
    (moves : List (Action ℝ)) (open_ : ∀ event now, .touch event now ∈ moves → ¬ Closes touch.id event)
    (event : TouchEvent ℝ) (now : Nat) (own : event.id = touch.id) (ended : event.phase = .ended)
    (rest : List (Action ℝ)) (untouched : ∀ event now, .touch event now ∈ rest → event.phase ≠ .started)
    (rested : (run { tuning := tuning } (prior ++ first :: moves ++ .touch event now :: rest)).2.momentum = none) :
    scrolled (run (run { tuning := tuning } prior).2 (first :: moves ++ .touch event now :: rest)).1 =
      addPoint (lockDeltaToAxis (subPoint event.position touch.startPosition) axis) (flung tuning.scrollPhysics
          (run { tuning := tuning } (prior ++ first :: moves ++ [.touch event now])).2.momentum) := by
  obtain ⟨after, state, id, start, -, sum⟩ := pan.continues moves open_
  have physics := @run_tuning { tuning := tuning } (prior ++ first :: moves)
  have still : (run { tuning := tuning } (prior ++ first :: moves)).2.momentum = none := by
    rw [state]
    exact pan.still
  have rested' : (run (run { tuning := tuning } (prior ++ first :: moves)).2 (.touch event now :: rest)).2.momentum = none := by
    rwa [run_append] at rested
  have released := release_scrolls (physics ▸ coasts) still (by rw [state]) (own.trans id.symm) ended untouched rested'
  have whole : (run (run { tuning := tuning } prior).2 (first :: moves ++ .touch event now :: rest)).1 =
      (run (run { tuning := tuning } prior).2 (first :: moves)).1 ++
        (run (run { tuning := tuning } (prior ++ first :: moves)).2 (.touch event now :: rest)).1 := by
    rw [run_append, @run_append _ _ { tuning := tuning } prior]
  rw [whole, scrolled_append, sum, released, run_concat, physics, ← addPoint_assoc, lock_add]

theorem pan_scrolls_swipe : scrolled (run (run { tuning := defaultTuning } [swipe .started 0 none 0]).2
        (swipe .moved 20 (some 35) 10 :: [swipe .moved 40 (some 55) 20] ++
          swipe .ended 40 none 30 :: [.tickMomentum 500000000000])).1 =
      addPoint ⟨0, 40⟩ (flung defaultTuning.scrollPhysics
          (run { tuning := defaultTuning } ([swipe .started 0 none 0] ++ swipe .moved 20 (some 35) 10 ::
            [swipe .moved 40 (some 55) 20] ++ [swipe .ended 40 none 30])).2.momentum) := by
  have total := pan_scrolls defaultTuning_coasts swipe_begins [swipe .moved 40 (some 55) 20] swipe_open _ _ rfl rfl
    [.tickMomentum 500000000000] (by simp) swipe_over
  refine total.trans (congrArg (addPoint · _) ?_)
  simp [lockDeltaToAxis, subPoint, swipeTouch]

/-- While its touch is down, a pan scrolls nothing against the finger's last movement, of which the first is
the one from the touch's start to where the pan begins, and its fling goes on along one direction. -/
theorem pan_keeps_direction (coasts : tuning.scrollPhysics.Coasts) (pan : PanBegins tuning prior first touch axis)
    (moves : List (Action ℝ)) (open_ : ∀ event now, .touch event now ∈ moves → ¬ Closes touch.id event) :
    (∀ gesture ∈ (step (run { tuning := tuning } prior).2 first).1,
      movementsOppose gesture.delta (turns axis (rawPositions touch.id [first]) touch.startPosition zeroPoint).2 = false) ∧
    (∀ action, (∀ event now, action = .touch event now → ¬ Closes touch.id event) →
      ∀ gesture ∈ (step (run { tuning := tuning } (prior ++ first :: moves)).2 action).1, movementsOppose gesture.delta
          (turns axis (rawPositions touch.id (first :: moves ++ [action])) touch.startPosition zeroPoint).2 = false) ∧
    ∀ event now, event.id = touch.id → event.phase = .ended →
      ∀ rest : List (Action ℝ), (∀ event now, .touch event now ∈ rest → event.phase ≠ .started) →
        ∀ gesture ∈ (run (run { tuning := tuning } (prior ++ first :: moves ++ [.touch event now])).2 rest).1,
          ∃ momentum ∈ (run { tuning := tuning } (prior ++ first :: moves ++ [.touch event now])).2.momentum,
            ∃ distance, 0 ≤ distance ∧ gesture.delta = momentum.along distance := by
  obtain ⟨turned, -, along⟩ := pan.begun
  obtain ⟨after, state, id, start, last, -⟩ := pan.continues moves open_
  have panning : (run { tuning := tuning } (prior ++ first :: moves)).2.state = .panning after axis := by rw [state]
  have still : (run { tuning := tuning } (prior ++ first :: moves)).2.momentum = none := by
    rw [state]
    exact pan.still
  refine ⟨?_, ?_, ?_⟩
  · rw [← turned]
    exact along
  · intro action opened gesture member
    obtain ⟨next, -, taken⟩ := step_pan still panning action (id ▸ opened)
    have moved : rawPositions touch.id (first :: moves ++ [action]) =
        rawPositions touch.id (first :: moves) ++ rawPositions after.id [action] := by
      rw [rawPositions_append, id]
    rw [moved, turns_append, ← last, ← taken.reached.turns]
    exact taken.along gesture member
  · intro event now own ended rest untouched gesture member
    have physics := @run_tuning { tuning := tuning } (prior ++ first :: moves)
    have tuning' := @run_tuning { tuning := tuning } (prior ++ first :: moves ++ [.touch event now])
    obtain ⟨idle, flies, -⟩ := step_release (physics ▸ coasts) still panning now (own.trans id.symm) ended
    rw [run_concat] at tuning' member ⊢
    rw [← physics] at tuning'
    have flies' := tuning'.symm ▸ flies
    exact (run_coast (tuning' ▸ physics ▸ coasts) idle flies' rest untouched).2 gesture member

noncomputable def lateTouch : ActiveTouch ℝ :=
  { swipeTouch with velocityTracker := ⟨[(0, ⟨0, 0⟩), (5000000, ⟨0, 5⟩), (10000000, ⟨0, 20⟩)]⟩ }

theorem late_begins : PanBegins defaultTuning [swipe .started 0 none 0, swipe .moved 5 none 5]
    (swipe .moved 20 (some 35) 10) lateTouch .vertical := by
  have root (y : ℝ) (nonneg : 0 ≤ y) : magnitude (⟨0, y⟩ : Point ℝ) = y := by
    simp only [magnitude, sqrt_real, mul_zero, zero_add, Real.sqrt_mul_self nonneg]
  have within : Floats.lt defaultTuning.touchSlop (magnitude (⟨0, 5⟩ : Point ℝ)) = false := by
    rw [root 5 (by norm_num), lt_real, defaultTuning]
    norm_num
  have beyond : Floats.lt defaultTuning.touchSlop (magnitude (⟨0, 20⟩ : Point ℝ)) = true := by
    rw [root 20 (by norm_num), lt_real, defaultTuning]
    norm_num
  have axis : dominantAxis (⟨0, 20⟩ : Point ℝ) = .vertical := by
    simp [dominantAxis, le_real, Floats.abs]
  have ahead : movementsOppose (⟨0, 35⟩ : Point ℝ) ⟨0, 20⟩ = false := by
    simp [movementsOppose, lt_real]
  constructor
  · intro touch axis
    simp [run, step, swipe, handleEventAt, touchStarted, touchMoved, subPoint, within]
  · simp [run, step, swipe, handleEventAt, touchStarted, touchMoved, subPoint, within, beyond, beginPan,
      axis, ahead, lockDeltaToAxis, lateTouch, swipeTouch, VelocityTracker.push, velocityMaxSamples]

theorem pan_keeps_direction_late :
    (∀ gesture ∈ (step (run { tuning := defaultTuning } [swipe .started 0 none 0, swipe .moved 5 none 5]).2
        (swipe .moved 20 (some 35) 10)).1,
      movementsOppose gesture.delta ⟨0, 20⟩ = false) ∧
    ∀ gesture ∈ (step (run { tuning := defaultTuning } ([swipe .started 0 none 0, swipe .moved 5 none 5] ++
        [swipe .moved 20 (some 35) 10])).2 (swipe .moved 10 none 20)).1,
      movementsOppose gesture.delta ⟨0, -10⟩ = false := by
  have opened : ∀ event now, swipe .moved 10 none 20 = .touch event now → ¬ Closes lateTouch.id event := by
    intro event now eq
    cases eq
    simp [Closes]
  have down : (turns .vertical (rawPositions lateTouch.id [swipe .moved 20 (some 35) 10])
      lateTouch.startPosition zeroPoint).2 = ⟨0, 20⟩ := by
    simp [turns, rawPositions, swipe, lateTouch, swipeTouch, turn, lockDeltaToAxis, subPoint, zeroPoint]
  have up : (turns .vertical (rawPositions lateTouch.id (swipe .moved 20 (some 35) 10 :: [] ++ [swipe .moved 10 none 20]))
      lateTouch.startPosition zeroPoint).2 = ⟨0, -10⟩ := by
    norm_num [turns, rawPositions, swipe, lateTouch, swipeTouch, turn, lockDeltaToAxis, subPoint, zeroPoint]
  obtain ⟨first, moves, -⟩ := pan_keeps_direction defaultTuning_coasts late_begins [] (by simp)
  rw [down] at first
  have back := moves _ opened
  rw [up] at back
  exact ⟨first, back⟩

end

end Pinrail.Gestures

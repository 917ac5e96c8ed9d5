import Pinrail.Geometry.Bounds
import Pinrail.Keymap.Binding

/-!
# Touch gestures

`TouchGestureRecognizer` over numbers of which nothing is assumed but their operations, so that the
floats of the source are among them. Instants and durations are numbers of nanoseconds; a duration
since a later instant is zero.
-/

namespace Pinrail.Gestures
open Pinrail.Geometry Keymap

class Floats (F : Type) extends Zero F, Add F, Sub F, Neg F, Mul F, Div F where
  lt : F → F → Bool
  le : F → F → Bool
  eq : F → F → Bool
  abs : F → F
  sqrt : F → F
  min : F → F → F
  max : F → F → F
  ofNat : Nat → F
  seconds : Nat → F
  /-- `f64::EPSILON`. -/
  epsilon : F
  /-- `1e-12`. -/
  degenerate : F

open Floats

variable {F : Type} [Floats F]

def zeroPoint : Point F := ⟨0, 0⟩

def subPoint (a b : Point F) : Point F := ⟨a.x - b.x, a.y - b.y⟩

def addPoint (a b : Point F) : Point F := ⟨a.x + b.x, a.y + b.y⟩

def magnitude (p : Point F) : F := sqrt (p.x * p.x + p.y * p.y)

inductive Axis where
  | vertical
  | horizontal
deriving DecidableEq

def dominantAxis (delta : Point F) : Axis :=
  if le (abs delta.x) (abs delta.y) then .vertical else .horizontal

def lockDeltaToAxis (delta : Point F) : Axis → Point F
  | .vertical => { delta with x := 0 }
  | .horizontal => { delta with y := 0 }

def movementsOppose (left right : Point F) : Bool := lt (left.x * right.x + left.y * right.y) 0

/-! ## Tuning -/

/-- The two curves of `ScrollPhysics`. -/
structure ScrollPhysics (F : Type) where
  flingDuration : F → Nat
  flingDistance : F → Nat → F

structure GestureTuning (F : Type) where
  touchSlop : F
  multiTapInterval : Nat
  multiTapSlop : F
  longPressDuration : Nat
  scrollPhysics : ScrollPhysics F
  minFlingVelocity : F

def maxFlingVelocity : F := ofNat 8000

def velocityWindow : Nat := 100000000

def velocityAssumeStoppedGap : Nat := 40000000

def velocityMaxSamples : Nat := 20

/-! ## Events -/

inductive TouchPhase where
  | started
  | moved
  | ended
  | cancelled
deriving DecidableEq

structure TouchEvent (F : Type) where
  id : Nat
  phase : TouchPhase
  position : Point F
  predictedPosition : Option (Point F)

inductive MouseButton where
  | left
deriving DecidableEq

structure MouseDownEvent (F : Type) where
  button : MouseButton
  position : Point F
  modifiers : Modifiers
  clickCount : Nat
  firstMouse : Bool

structure MouseUpEvent (F : Type) where
  button : MouseButton
  position : Point F
  modifiers : Modifiers
  clickCount : Nat

structure ScrollWheelEvent (F : Type) where
  position : Point F
  delta : Point F
  modifiers : Modifiers
  touchPhase : TouchPhase

structure TouchDragEvent (F : Type) where
  phase : TouchPhase
  startPosition : Point F
  position : Point F

structure LongPressEvent (F : Type) where
  phase : TouchPhase
  startPosition : Point F
  position : Point F

inductive RecognizedTouchGesture (F : Type) where
  | scroll (event : ScrollWheelEvent F)
  | tap (down : MouseDownEvent F) (up : MouseUpEvent F)
  | touchDrag (event : TouchDragEvent F)
  | longPress (event : LongPressEvent F)

def scrollEvent (position delta : Point F) (touchPhase : TouchPhase) : ScrollWheelEvent F :=
  ⟨position, delta, {}, touchPhase⟩

/-! ## Velocity -/

structure VelocityTracker (F : Type) where
  samples : List (Nat × Point F) := []

def quadraticVelocityAtNewest (times values : List F) : Option F :=
  let count : F := ofNat times.length
  let sum (term : F → F → F) : F := (times.zip values).foldl (fun sum pair => sum + term pair.1 pair.2) 0
  let sumT1 := sum fun time _ => time
  let sumT2 := sum fun time _ => time * time
  let sumT3 := sum fun time _ => time * time * time
  let sumT4 := sum fun time _ => time * time * (time * time)
  let sumV := sum fun _ value => value
  let sumVt := sum fun time value => value * time
  let sumVt2 := sum fun time value => value * (time * time)
  let determinant := count * (sumT2 * sumT4 - sumT3 * sumT3) - sumT1 * (sumT1 * sumT4 - sumT3 * sumT2) +
    sumT2 * (sumT1 * sumT3 - sumT2 * sumT2)
  if lt (abs determinant) degenerate then none
  else
    let linearDeterminant := count * (sumVt * sumT4 - sumT3 * sumVt2) -
      sumV * (sumT1 * sumT4 - sumT3 * sumT2) + sumT2 * (sumT1 * sumVt2 - sumVt * sumT2)
    some (linearDeterminant / determinant)

namespace VelocityTracker

def push (time : Nat) (position : Point F) (self : VelocityTracker F) : VelocityTracker F :=
  let samples := self.samples ++ [(time, position)]
  ⟨samples.drop (samples.length - velocityMaxSamples)⟩

def latestSampleTime (self : VelocityTracker F) : Option Nat := self.samples.getLast?.map Prod.fst

def recent (newest : Nat) : Nat → List (Nat × Point F) → List (F × Point F)
  | _, [] => []
  | previous, (time, position) :: samples =>
    let age := newest - time
    if age > velocityWindow ∨ previous - time > velocityAssumeStoppedGap then []
    else (-seconds age, position) :: recent newest time samples

def endpointEstimate (times values : List F) : F :=
  let elapsed := -times.getLast?.getD 0
  if le elapsed epsilon then 0 else (values.head?.getD 0 - values.getLast?.getD 0) / elapsed

def velocity (self : VelocityTracker F) : Point F :=
  match self.samples.getLast? with
  | none => zeroPoint
  | some (newest, _) =>
    let window := recent newest newest self.samples.reverse
    let times := window.map Prod.fst
    let horizontal := window.map fun sample => sample.2.x
    let vertical := window.map fun sample => sample.2.y
    if times.length < 3 then ⟨endpointEstimate times horizontal, endpointEstimate times vertical⟩
    else
      ⟨(quadraticVelocityAtNewest times horizontal).getD (endpointEstimate times horizontal),
        (quadraticVelocityAtNewest times vertical).getD (endpointEstimate times vertical)⟩

end VelocityTracker

/-! ## The recognizer -/

structure ActiveTouch (F : Type) where
  id : Nat
  startPosition : Point F
  lastPosition : Point F
  emittedPosition : Point F
  lastMovement : Point F
  velocityTracker : VelocityTracker F

inductive TouchGestureState (F : Type) where
  | idle
  | pending (touch : ActiveTouch F) (deadline : Nat) (longPressOffered touchDragOffered : Bool)
  | panning (touch : ActiveTouch F) (axis : Axis)
  | longPressing (touch : ActiveTouch F)
  | touchDragging (touch : ActiveTouch F)

structure CompletedTap (F : Type) where
  position : Point F
  time : Nat
  count : Nat

structure Momentum (F : Type) where
  position : Point F
  direction : Point F
  axis : Axis
  speed : F
  startedAt : Nat
  duration : Nat
  emittedDistance : F

structure TouchGestureRecognizer (F : Type) where
  tuning : GestureTuning F
  state : TouchGestureState F := .idle
  momentum : Option (Momentum F) := none
  lastTap : Option (CompletedTap F) := none

namespace TouchGestureRecognizer

abbrev Output (F : Type) := List (RecognizedTouchGesture F) × TouchGestureRecognizer F

/-- The arm of `handle_event_at` for a touch that starts. -/
def touchStarted (event : TouchEvent F) (now : Nat) (self : TouchGestureRecognizer F) : Output F :=
  let caught := self.momentum.toList.map fun momentum =>
    RecognizedTouchGesture.scroll (scrollEvent momentum.position zeroPoint .ended)
  let caughtFling := self.momentum.map Momentum.axis
  let self := { self with momentum := none }
  match self.state with
  | .idle =>
    let touch : ActiveTouch F :=
      { id := event.id
        startPosition := event.position
        lastPosition := event.position
        emittedPosition := event.position
        lastMovement := zeroPoint
        velocityTracker := VelocityTracker.push now event.position {} }
    match caughtFling with
    | some axis =>
      (caught ++ [.scroll (scrollEvent touch.startPosition zeroPoint .started)],
        { self with state := .panning touch axis })
    | none =>
      (caught, { self with state := .pending touch (now + self.tuning.longPressDuration) false false })
  | _ => (caught, self)

def beginPan (event : TouchEvent F) (touch : ActiveTouch F) (self : TouchGestureRecognizer F) : Output F :=
  let accumulated := subPoint event.position touch.startPosition
  let axis := dominantAxis accumulated
  let target := event.predictedPosition.getD event.position
  let delta := lockDeltaToAxis (subPoint target touch.startPosition) axis
  let touch := { touch with lastMovement := lockDeltaToAxis accumulated axis }
  let (target, delta) :=
    if movementsOppose delta touch.lastMovement then (event.position, lockDeltaToAxis accumulated axis)
    else (target, delta)
  let touch := { touch with emittedPosition := target }
  ([.scroll (scrollEvent touch.startPosition delta .started)], { self with state := .panning touch axis })

def movePan (event : TouchEvent F) (now : Nat) (touch : ActiveTouch F) (axis : Axis)
    (self : TouchGestureRecognizer F) : Output F :=
  let rawDelta := lockDeltaToAxis (subPoint event.position touch.lastPosition) axis
  let moved := !(eq rawDelta.x 0 && eq rawDelta.y 0)
  let touch := if moved then { touch with lastMovement := rawDelta } else touch
  let touch := { touch with
    velocityTracker := touch.velocityTracker.push now event.position
    lastPosition := event.position }
  let target := event.predictedPosition.getD event.position
  let delta := lockDeltaToAxis (subPoint target touch.emittedPosition) axis
  let (target, delta) :=
    if movementsOppose delta touch.lastMovement then
      let target := event.position
      let delta := lockDeltaToAxis (subPoint target touch.emittedPosition) axis
      if movementsOppose delta touch.lastMovement then (touch.emittedPosition, zeroPoint) else (target, delta)
    else (target, delta)
  let touch := { touch with emittedPosition := target }
  ([.scroll (scrollEvent touch.startPosition delta .moved)], { self with state := .panning touch axis })

/-- The arm of `handle_event_at` for a touch that moves. -/
def touchMoved (event : TouchEvent F) (now : Nat) (self : TouchGestureRecognizer F) : Output F :=
  match self.state with
  | .pending touch deadline longPressOffered touchDragOffered =>
    if touch.id = event.id then
      let touch := { touch with
        velocityTracker := touch.velocityTracker.push now event.position
        lastPosition := event.position }
      if lt self.tuning.touchSlop (magnitude (subPoint event.position touch.startPosition)) then
        self.beginPan event touch
      else ([], { self with state := .pending touch deadline longPressOffered touchDragOffered })
    else ([], self)
  | .panning touch axis => if touch.id = event.id then self.movePan event now touch axis else ([], self)
  | .longPressing touch =>
    if touch.id = event.id then
      let touch := { touch with lastPosition := event.position }
      ([.longPress ⟨.moved, touch.startPosition, event.position⟩], { self with state := .longPressing touch })
    else ([], self)
  | .touchDragging touch =>
    if touch.id = event.id then
      let touch := { touch with lastPosition := event.position }
      ([.touchDrag ⟨.moved, touch.startPosition, event.position⟩], { self with state := .touchDragging touch })
    else ([], self)
  | .idle => ([], self)

def endTap (event : TouchEvent F) (now : Nat) (self : TouchGestureRecognizer F) : Output F :=
  let tapCount :=
    match self.lastTap with
    | some tap =>
      if now - tap.time ≤ self.tuning.multiTapInterval &&
          le (magnitude (subPoint event.position tap.position)) self.tuning.multiTapSlop then tap.count + 1
      else 1
    | none => 1
  ([.tap ⟨.left, event.position, {}, tapCount, false⟩ ⟨.left, event.position, {}, tapCount⟩],
    { self with lastTap := some ⟨event.position, now, tapCount⟩, state := .idle })

def endPan (event : TouchEvent F) (now : Nat) (touch : ActiveTouch F) (axis : Axis)
    (self : TouchGestureRecognizer F) : Output F :=
  let fingerStopped := touch.velocityTracker.latestSampleTime.all fun latest =>
    decide (now - latest > velocityAssumeStoppedGap)
  let velocity := lockDeltaToAxis (if fingerStopped then zeroPoint else touch.velocityTracker.velocity) axis
  let speed := sqrt (velocity.x * velocity.x + velocity.y * velocity.y)
  let releaseDelta := lockDeltaToAxis (subPoint event.position touch.emittedPosition) axis
  let (releaseDelta, momentum) : Point F × Option (Momentum F) :=
    if le self.tuning.minFlingVelocity speed then
      let direction : Point F := ⟨velocity.x / speed, velocity.y / speed⟩
      let speed := min speed maxFlingVelocity
      let duration := self.tuning.scrollPhysics.flingDuration speed
      if duration ≠ 0 then
        let totalDistance := self.tuning.scrollPhysics.flingDistance speed duration
        let overshoot := -(releaseDelta.x * direction.x + releaseDelta.y * direction.y)
        let (releaseDelta, emittedDistance) :=
          if lt 0 overshoot && lt overshoot totalDistance then
            (addPoint releaseDelta ⟨direction.x * overshoot, direction.y * overshoot⟩, overshoot)
          else (releaseDelta, 0)
        (releaseDelta, some
          { position := touch.startPosition
            direction := direction
            axis := axis
            speed := speed
            startedAt := now
            duration := duration
            emittedDistance := emittedDistance })
      else (releaseDelta, self.momentum)
    else (releaseDelta, self.momentum)
  ([.scroll (scrollEvent touch.startPosition releaseDelta .ended)], { self with momentum := momentum, state := .idle })

/-- The arm of `handle_event_at` for a touch that ends. -/
def touchEnded (event : TouchEvent F) (now : Nat) (self : TouchGestureRecognizer F) : Output F :=
  match self.state with
  | .pending touch _ _ _ => if touch.id = event.id then self.endTap event now else ([], self)
  | .panning touch axis => if touch.id = event.id then self.endPan event now touch axis else ([], self)
  | .longPressing touch =>
    if touch.id = event.id then
      ([.longPress ⟨.ended, touch.startPosition, event.position⟩], { self with state := .idle })
    else ([], self)
  | .touchDragging touch =>
    if touch.id = event.id then
      ([.touchDrag ⟨.ended, touch.startPosition, event.position⟩], { self with state := .idle })
    else ([], self)
  | .idle => ([], self)

/-- The arm of `handle_event_at` for a touch that is cancelled. -/
def touchCancelled (event : TouchEvent F) (self : TouchGestureRecognizer F) : Output F :=
  match self.state with
  | .pending touch _ _ _ => if touch.id = event.id then ([], { self with state := .idle }) else ([], self)
  | .panning touch _ =>
    if touch.id = event.id then
      ([.scroll (scrollEvent touch.startPosition zeroPoint .cancelled)], { self with state := .idle })
    else ([], self)
  | .longPressing touch =>
    if touch.id = event.id then
      ([.longPress ⟨.cancelled, touch.startPosition, event.position⟩], { self with state := .idle })
    else ([], self)
  | .touchDragging touch =>
    if touch.id = event.id then
      ([.touchDrag ⟨.cancelled, touch.startPosition, event.position⟩], { self with state := .idle })
    else ([], self)
  | .idle => ([], self)

def handleEventAt (event : TouchEvent F) (now : Nat) (self : TouchGestureRecognizer F) : Output F :=
  match event.phase with
  | .started => self.touchStarted event now
  | .moved => self.touchMoved event now
  | .ended => self.touchEnded event now
  | .cancelled => self.touchCancelled event

def offerLongPress (id : Nat) (self : TouchGestureRecognizer F) : Output F :=
  match self.state with
  | .pending touch deadline longPressOffered touchDragOffered =>
    if touch.id ≠ id ∨ longPressOffered then ([], self)
    else
      ([.longPress ⟨.started, touch.startPosition, touch.lastPosition⟩],
        { self with state := .pending touch deadline true touchDragOffered })
  | _ => ([], self)

def resolveLongPress (claimed : Bool) (self : TouchGestureRecognizer F) : TouchGestureRecognizer F :=
  if !claimed then self
  else
    match self.state with
    | .pending touch _ true _ => { self with state := .longPressing touch }
    | _ => self

def offerTouchDrag (id : Nat) (self : TouchGestureRecognizer F) : Output F :=
  match self.state with
  | .pending touch deadline longPressOffered touchDragOffered =>
    if touch.id ≠ id ∨ touchDragOffered then ([], self)
    else
      ([.touchDrag ⟨.started, touch.startPosition, touch.lastPosition⟩],
        { self with state := .pending touch deadline longPressOffered true })
  | _ => ([], self)

def resolveTouchDrag (claimed : Bool) (self : TouchGestureRecognizer F) : TouchGestureRecognizer F :=
  if !claimed then self
  else
    match self.state with
    | .pending touch _ _ true => { self with state := .touchDragging touch }
    | _ => self

def tickMomentumAt (now : Nat) (self : TouchGestureRecognizer F) : Output F :=
  match self.momentum with
  | none => ([], self)
  | some momentum =>
    let elapsed := now - momentum.startedAt
    let distance := self.tuning.scrollPhysics.flingDistance momentum.speed elapsed
    let step := max (distance - momentum.emittedDistance) 0
    let momentum := { momentum with emittedDistance := max momentum.emittedDistance distance }
    let delta : Point F := ⟨momentum.direction.x * step, momentum.direction.y * step⟩
    if elapsed ≥ momentum.duration then
      ([.scroll (scrollEvent momentum.position delta .ended)], { self with momentum := none })
    else
      ([.scroll (scrollEvent momentum.position delta .moved)], { self with momentum := some momentum })

end TouchGestureRecognizer

/-! ## Runs -/

inductive Action (F : Type) where
  | touch (event : TouchEvent F) (now : Nat)
  | offerLongPress (id : Nat)
  | resolveLongPress (claimed : Bool)
  | offerTouchDrag (id : Nat)
  | resolveTouchDrag (claimed : Bool)
  | tickMomentum (now : Nat)

def step (self : TouchGestureRecognizer F) : Action F → TouchGestureRecognizer.Output F
  | .touch event now => self.handleEventAt event now
  | .offerLongPress id => self.offerLongPress id
  | .resolveLongPress claimed => ([], self.resolveLongPress claimed)
  | .offerTouchDrag id => self.offerTouchDrag id
  | .resolveTouchDrag claimed => ([], self.resolveTouchDrag claimed)
  | .tickMomentum now => self.tickMomentumAt now

def run (self : TouchGestureRecognizer F) : List (Action F) → TouchGestureRecognizer.Output F
  | [] => ([], self)
  | action :: actions =>
    let (recognized, after) := step self action
    let (rest, last) := run after actions
    (recognized ++ rest, last)

end Pinrail.Gestures

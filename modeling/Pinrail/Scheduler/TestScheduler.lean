import Pinrail.Lib.Lanes
import Pinrail.Lib.Ranked
import Pinrail.Lib.Rust

/-!
# The test scheduler

The state of `TestScheduler` and the parts of its operations that run under the lock of the state. A
draw of the random generator is a natural number, from which a range takes its value; the clock is a
number of ticks.
-/

namespace Pinrail.Scheduler
open Lib Lib.Lanes

abbrev SessionId := Nat

inductive Priority where
  | realtimeAudio
  | high
  | medium
  | low
deriving DecidableEq

def Priority.weight : Priority → Nat
  | .high => 60
  | .medium => 30
  | .low => 10
  | .realtimeAudio => 0

/-- A runnable `R` in the queue. -/
structure ScheduledRunnable (R : Type) where
  sessionId : Option SessionId
  priority : Priority
  runnable : R
deriving DecidableEq

structure SchedulerState (R : Type) where
  runnables : List (ScheduledRunnable R) := []
  timers : List Nat := []
  blockedSessions : List SessionId := []
  randomizeOrder : Bool
  allowParking : Bool
  isMainThread : Bool := true
  unparked : Bool := false
deriving DecidableEq

/-- `random_range(low..high)`. -/
def randomRange (low high draw : Nat) : Except Panic Nat := do
  assert (low < high)
  return low + draw % (high - low)

/-- The sum of `u32`s. -/
def sum : List Nat → Except Panic Nat := List.foldlM (checkedAdd 32) 0

inductive Work (R : Type) where
  | expired
  | run (runnable : ScheduledRunnable R)
  | idle
deriving DecidableEq

variable {R : Type}

/-- `VecDeque::insert`. -/
def insertAt (xs : List R) (i : Nat) (x : R) : Except Panic (List R) := do
  assert (i ≤ xs.length)
  return xs.take i ++ x :: xs.drop i

/-- `VecDeque::remove`. -/
def removeAt (xs : List R) (i : Nat) : Option R × List R :=
  match xs.drop i with
  | [] => (none, xs)
  | x :: back => (some x, xs.take i ++ back)

def selectFrom (i : Nat) : List Nat → Nat → Nat
  | [], _ => 0
  | weight :: weights, target =>
    if target < weight then i else selectFrom (i + 1) weights (target - weight)

namespace SchedulerState

def insertionIndex (self : SchedulerState R) (startIx draw : Nat) : Except Panic Nat :=
  if self.randomizeOrder then randomRange startIx (self.runnables.length + 1) draw
  else return self.runnables.length

def scheduleLocal (self : SchedulerState R) (sessionId : SessionId) (runnable : R) (draw : Nat) :
    Except Panic (SchedulerState R) := do
  let startIx := (Lanes.rposition (fun task => task.sessionId = some sessionId) self.runnables).elim 0 (· + 1)
  let ix ← self.insertionIndex startIx draw
  let runnables ← insertAt self.runnables ix ⟨some sessionId, .medium, runnable⟩
  return { self with runnables := runnables, unparked := true }

def scheduleBackgroundWithPriority (self : SchedulerState R) (runnable : R) (priority : Priority)
    (draw : Nat) : Except Panic (SchedulerState R) := do
  let ix ← self.insertionIndex 0 draw
  let runnables ← insertAt self.runnables ix ⟨none, priority, runnable⟩
  return { self with runnables := runnables, unparked := true }

def timer (self : SchedulerState R) (expiration : Nat) : SchedulerState R :=
  { self with timers := sortBy compare (self.timers ++ [expiration]) }

/-- The indices, from `ix` on, of the runnables that may run: the first of every session that is not
blocked, and all background runnables. -/
def candidateIndices (backgroundOnly : Bool) (blockedSessions : List SessionId) :
    Nat → List SessionId → List (ScheduledRunnable R) → List Nat
  | _, _, [] => []
  | ix, seenSessions, runnable :: runnables =>
    let skip := candidateIndices backgroundOnly blockedSessions (ix + 1) seenSessions runnables
    match runnable.sessionId with
    | none => ix :: skip
    | some sessionId =>
      if backgroundOnly then skip
      else if sessionId ∈ blockedSessions then skip
      else if sessionId ∈ seenSessions then skip
      else
        ix :: candidateIndices backgroundOnly blockedSessions (ix + 1) (sessionId :: seenSessions) runnables

def selectCandidate (self : SchedulerState R) (candidates : List Nat) (draw : Nat) : Except Panic Nat :=
  if self.randomizeOrder then do
    let weights ← candidates.mapM fun ix =>
      return (← index self.runnables ix).priority.weight
    let totalWeight ← sum weights
    if totalWeight = 0 then
      index candidates (← randomRange 0 candidates.length draw)
    else
      index candidates (selectFrom 0 weights (← randomRange 0 totalWeight draw))
  else index candidates 0

/-- The part of `step_filtered` before a runnable is run. -/
def stepFiltered (self : SchedulerState R) (now : Nat) (backgroundOnly : Bool) (draw : Nat) :
    Except Panic (Work R × SchedulerState R) := do
  let endIx := (self.timers.takeWhile (· ≤ now)).length
  let self := { self with timers := self.timers.drop endIx }
  if endIx > 0 then return (.expired, self)
  let candidates := candidateIndices backgroundOnly self.blockedSessions 0 [] self.runnables
  if candidates = [] then return (.idle, self)
  let ix ← self.selectCandidate candidates draw
  match removeAt self.runnables ix with
  | (some runnable, runnables) => return (.run runnable, { self with runnables := runnables })
  | (none, _) => return (.idle, self)

end SchedulerState
end Pinrail.Scheduler

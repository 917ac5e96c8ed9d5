import Pinrail.Queue.PriorityQueue

/-!
# The threaded dispatcher

`ThreadedDispatcher` with its workers, its timer thread, its main thread in `run_until_idle` and the
other threads that hold it, over the runnables `R`. A step is a critical section under the lock of the
timers, of the in-flight count or of a queue, a part of one that another lock is taken in, a wait, or
the end of a run. A runnable may call the dispatcher as often as it likes, and it may panic.
-/

namespace Pinrail.Threaded
open Lib Scheduler PriorityQueue

structure TimerEntry (R : Type) where
  due : Nat
  seq : Nat
  runnable : R
deriving DecidableEq

variable {R : Type}

namespace TimerEntry

/-- `Ord::cmp`: the entry that is due first is the greatest. -/
def cmp (self other : TimerEntry R) : Ordering :=
  (compare other.due self.due).then (compare other.seq self.seq)

end TimerEntry

/-- `BinaryHeap::pop`: a greatest entry, and what is left. -/
def popHeap : List (TimerEntry R) → Option (TimerEntry R × List (TimerEntry R))
  | [] => none
  | entry :: heap => match popHeap heap with
      | none => some (entry, [])
      | some (top, rest) => if entry.cmp top = .lt then some (top, entry :: rest) else some (entry, heap)

/-- `BinaryHeap::peek`. -/
def peekHeap (heap : List (TimerEntry R)) : Option (TimerEntry R) := (popHeap heap).map (·.1)

structure Shared (R : Type) where
  now : Nat := 0
  inflight : Nat := 0
  /-- The main thread has the in-flight lock between two of its steps. -/
  inflightHeld : Bool := false
  /-- The main thread is parked on the condition variable of the idle tracker. -/
  parked : Bool := false
  background : PriorityQueues R := {}
  /-- `receiver_count` of the background queue. -/
  receiverCount : Nat
  main : PriorityQueues R := {}
  heap : List (TimerEntry R) := []
  nextSeq : Nat := 0
  /-- The timer thread has the lock of the timers between two of its steps. -/
  timersHeld : Bool := false
  /-- The timer thread is parked on the condition variable of the timers. -/
  timerParked : Bool := false
  armed : List (TimerEntry R) := []
  ended : List (TimerEntry R) := []
deriving DecidableEq

namespace Shared

/-- `IdleTracker::increment`. -/
def increment (self : Shared R) : Option (Shared R) :=
  if self.inflightHeld then none else some { self with inflight := self.inflight + 1 }

/-- `IdleTracker::decrement`. -/
def decrement (self : Shared R) : Option (Shared R) :=
  if self.inflightHeld then none
  else
    let inflight := self.inflight - 1
    some { self with inflight := inflight, parked := self.parked && inflight != 0 }

def notifyUnderLock (self : Shared R) : Option (Shared R) :=
  if self.inflightHeld then none else some { self with parked := false }

/-- `dispatch_after`, with the notification of the timer thread. -/
def dispatchAfter (self : Shared R) (duration : Nat) (runnable : R) : Option (Shared R) :=
  if self.timersHeld then none
  else
    let entry : TimerEntry R := { due := self.now + duration, seq := self.nextSeq, runnable }
    some { self with
      nextSeq := self.nextSeq + 1
      heap := self.heap ++ [entry]
      timerParked := false
      armed := self.armed ++ [entry] }

/-- The test of `has_due_timer`. -/
def hasDueTimer (self : Shared R) : Bool := (peekHeap self.heap).any (·.due ≤ self.now)

end Shared

inductive Call (R : Type) where
  | outside
  /-- `dispatch` has incremented the count. -/
  | dispatching (priority : Priority) (runnable : R)
  | sending (priority : Priority) (runnable : R)
  /-- `dispatch_on_main_thread` has sent. -/
  | notifying
deriving DecidableEq

inductive Act (R : Type) where
  | dispatch (priority : Priority) (runnable : R)
  | findReceiver
  | push
  | dispatchOnMainThread (priority : Priority) (runnable : R)
  | notify
  | dispatchAfter (duration : Nat) (runnable : R)
  | panic
  | finish
  /-- The loop of the thread goes on, with the draws of a pop. -/
  | next (high medium low : Nat)
deriving DecidableEq

def Call.step (shared : Shared R) : Call R → Act R → Option (Shared R × Option (Call R))
  | .outside, .dispatch priority runnable => do
    return (← shared.increment, some (.dispatching priority runnable))
  | .dispatching priority runnable, .findReceiver =>
    if shared.receiverCount = 0 then some (shared, none)
    else some (shared, some (.sending priority runnable))
  | .sending priority runnable, .push => match shared.background.push priority runnable with
      | .ok queues => some ({ shared with background := queues }, some .outside)
      | .error _ => some (shared, none)
  | .outside, .dispatchOnMainThread priority runnable => match shared.main.push priority runnable with
      | .ok queues => some ({ shared with main := queues }, some .notifying)
      | .error _ => some (shared, none)
  | .notifying, .notify => do return (← shared.notifyUnderLock, some .outside)
  | .outside, .dispatchAfter duration runnable => do
    return (← shared.dispatchAfter duration runnable, some .outside)
  | .outside, .panic => some (shared, none)
  | _, _ => none

inductive Worker (R : Type) where
  | popping
  | running (call : Call R)
  | dropping (unwinding : Bool)
  | leaving
  | gone
deriving DecidableEq

def Worker.step (shared : Shared R) : Worker R → Act R → Option (Shared R × Worker R)
  | .popping, .next high medium low => match shared.background.popInner high medium low with
      | .ok (some _, queues) => some ({ shared with background := queues }, .running .outside)
      | _ => none
  | .running .outside, .finish => some (shared, .dropping false)
  | .running call, act => do
    let (shared, call) ← call.step shared act
    return (shared, (call.map Worker.running).getD (.dropping true))
  | .dropping unwinding, .next _ _ _ => do
    return (← shared.decrement, if unwinding then .leaving else .popping)
  | .leaving, .next _ _ _ =>
    some ({ shared with receiverCount := shared.receiverCount - 1 }, .gone)
  | _, _ => none

inductive TimerThread (R : Type) where
  | locking
  | peeking
  | waiting (until_ : Option Nat)
  | firing (entry : TimerEntry R)
  /-- The count was incremented, and the lock is to be released. -/
  | counted (entry : TimerEntry R)
  | running (entry : TimerEntry R) (call : Call R)
  | dropping (unwinding : Bool)
  | gone
deriving DecidableEq

def TimerThread.step (shared : Shared R) :
    TimerThread R → Act R → Option (Shared R × TimerThread R)
  | .locking, .next _ _ _ =>
    if shared.timersHeld then none else some ({ shared with timersHeld := true }, .peeking)
  | .peeking, .next _ _ _ => match popHeap shared.heap with
      | none => some ({ shared with timersHeld := false, timerParked := true }, .waiting none)
      | some (entry, heap) =>
        if entry.due > shared.now then
          some ({ shared with timersHeld := false, timerParked := true }, .waiting (some entry.due))
        else some ({ shared with heap := heap }, .firing entry)
  | .waiting until_, .next _ _ _ =>
    if shared.timersHeld then none
    else if shared.timerParked = true ∧ ¬ until_.any (· ≤ shared.now) then none
    else some ({ shared with timersHeld := true, timerParked := false }, .peeking)
  | .firing entry, .next _ _ _ => do return (← shared.increment, .counted entry)
  | .counted entry, .next _ _ _ => some ({ shared with timersHeld := false }, .running entry .outside)
  | .running entry .outside, .finish =>
    some ({ shared with ended := shared.ended ++ [entry] }, .dropping false)
  | .running entry call, act => do
    match ← call.step shared act with
    | (shared, some call) => return (shared, .running entry call)
    | (shared, none) => return ({ shared with ended := shared.ended ++ [entry] }, .dropping true)
  | .dropping unwinding, .next _ _ _ => do
    return (← shared.decrement, if unwinding then .gone else .locking)
  | _, _ => none

inductive MainThread (R : Type) where
  /-- It is in code outside `run_until_idle`. -/
  | outside (call : Call R)
  | draining (ranAny : Bool)
  | running (call : Call R)
  | dueCheck
  | polling
  | timedWait
  | locking
  | queueCheck
  /-- It holds the in-flight lock, and has found the queue empty. -/
  | countCheck
  | untimedWait
  | returned
deriving DecidableEq

def MainThread.step (shared : Shared R) : MainThread R → Act R → Option (Shared R × MainThread R)
  | .outside .outside, .next _ _ _ => some (shared, .draining false)
  | .outside call, act => do
    let (shared, call) ← call.step shared act
    return (shared, .outside (call.getD .outside))
  | .draining ranAny, .next high medium low =>
    if shared.main.isEmpty then some (shared, if ranAny then .draining false else .dueCheck)
    else match shared.main.popInner high medium low with
      | .ok (some _, queues) => some ({ shared with main := queues }, .running .outside)
      | _ => none
  | .running .outside, .finish => some (shared, .draining true)
  | .running call, act => do
    let (shared, call) ← call.step shared act
    -- A panic unwinds `run_until_idle`, and its caller catches it or not.
    return (shared, (call.map MainThread.running).getD (.outside .outside))
  | .dueCheck, .next _ _ _ =>
    if shared.timersHeld then none
    else if shared.hasDueTimer then some (shared, .polling)
    else some (shared, .locking)
  | .polling, .next _ _ _ => some ({ shared with parked := true }, .timedWait)
  | .timedWait, .next _ _ _ => some ({ shared with parked := false }, .draining false)
  | .locking, .next _ _ _ => some ({ shared with inflightHeld := true }, .queueCheck)
  | .queueCheck, .next _ _ _ =>
    if shared.main.isEmpty then some (shared, .countCheck)
    else some ({ shared with inflightHeld := false }, .draining false)
  | .countCheck, .next _ _ _ =>
    if shared.inflight = 0 then some ({ shared with inflightHeld := false }, .returned)
    else some ({ shared with inflightHeld := false, parked := true }, .untimedWait)
  | .untimedWait, .next _ _ _ => if shared.parked then none else some (shared, .draining false)
  | .returned, .next _ _ _ => some (shared, .outside .outside)
  | _, _ => none

structure State (R : Type) where
  shared : Shared R
  main : MainThread R := .outside .outside
  timer : TimerThread R := .locking
  workers : List (Worker R)
  /-- The other threads; there is none left where one panicked. -/
  others : List (Option (Call R)) := []
deriving DecidableEq

/-- `ThreadedDispatcher::new`. -/
def State.new (threadCount : Nat) : State R :=
  { shared := { receiverCount := threadCount }, workers := List.replicate threadCount .popping }

inductive Action (R : Type) where
  | tick (elapsed : Nat)
  | spawn
  | main (act : Act R)
  | timer (act : Act R)
  | worker (i : Nat) (act : Act R)
  | other (i : Nat) (act : Act R)
deriving DecidableEq

namespace State

def step (self : State R) : Action R → Option (State R)
  | .tick elapsed => some { self with shared := { self.shared with now := self.shared.now + elapsed } }
  | .spawn => some { self with others := self.others ++ [some .outside] }
  | .main act => do
    let (shared, main) ← self.main.step self.shared act
    return { self with shared, main }
  | .timer act => do
    let (shared, timer) ← self.timer.step self.shared act
    return { self with shared, timer }
  | .worker i act => do
    let (shared, worker) ← (← self.workers[i]?).step self.shared act
    return { self with shared, workers := self.workers.set i worker }
  | .other i act => do
    let (shared, call) ← (← (← self.others[i]?)).step self.shared act
    return { self with shared, others := self.others.set i call }

def run (self : State R) (actions : List (Action R)) : Option (State R) := actions.foldlM step self

end State

end Pinrail.Threaded

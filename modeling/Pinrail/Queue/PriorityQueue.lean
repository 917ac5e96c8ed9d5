import Mathlib.Tactic.Common
import Pinrail.Scheduler.TestScheduler

/-!
# Priority queues

`PriorityQueueState` with its sender and its receivers, over the items `T`. A step is a critical
section under the lock of the queues, a wait, a notification or a change of a count; the first part of
`recv` is cut where it goes to wait, because the counts change without the lock. A receiver that is
between the two parts holds the lock.
-/

namespace Pinrail.PriorityQueue
open Lib Scheduler

structure PriorityQueues (T : Type) where
  highPriority : List T := []
  mediumPriority : List T := []
  lowPriority : List T := []
deriving DecidableEq

inductive Receiver where
  | idle
  /-- It found the queues empty and a sender, and has not begun to wait. -/
  | checked
  | waiting
  /-- It was notified, or woke up by itself, and has not got the lock again. -/
  | woken
  | dropped
deriving DecidableEq

/-- In the wait loop of `recv`. -/
def Receiver.InLoop (self : Receiver) : Prop := self = .checked ∨ self = .waiting ∨ self = .woken

instance (self : Receiver) : Decidable self.InLoop := inferInstanceAs (Decidable (_ ∨ _ ∨ _))

structure State (T : Type) where
  queues : PriorityQueues T := {}
  receivers : List Receiver := [.idle]
  receiverCount : Nat := 1
  senderCount : Nat := 1
  /-- The calls of `send` that found a receiver and have not got the lock. -/
  sends : List (Priority × T) := []
deriving DecidableEq

variable {T : Type}

namespace PriorityQueues

def isEmpty (self : PriorityQueues T) : Bool :=
  self.highPriority.isEmpty && self.mediumPriority.isEmpty && self.lowPriority.isEmpty

def len (self : PriorityQueues T) : Nat :=
  self.highPriority.length + self.mediumPriority.length + self.lowPriority.length

def push (self : PriorityQueues T) (priority : Priority) (item : T) :
    Except Panic (PriorityQueues T) :=
  match priority with
  | .realtimeAudio => throw .unreachable
  | .high => return { self with highPriority := self.highPriority ++ [item] }
  | .medium => return { self with mediumPriority := self.mediumPriority ++ [item] }
  | .low => return { self with lowPriority := self.lowPriority ++ [item] }

/-- `random_ratio(numerator, denominator)`. -/
def randomRatio (numerator denominator draw : Nat) : Except Panic Bool := do
  assert (denominator ≠ 0 ∧ numerator ≤ denominator)
  return draw % denominator < numerator

def share (priority : Priority) (queue : List T) : Nat := if queue.isEmpty then 0 else priority.weight

def flip (priority : Priority) (queue : List T) (mass draw : Nat) : Except Panic Bool :=
  if queue.isEmpty then return false else randomRatio priority.weight mass draw

/-- The part of `pop_inner` and of `spin_try_pop` that holds the lock, with a draw for each flip. -/
def popInner (self : PriorityQueues T) (high medium low : Nat) :
    Except Panic (Option T × PriorityQueues T) := do
  let mass := share .high self.highPriority + share .medium self.mediumPriority +
    share .low self.lowPriority
  if ← flip .high self.highPriority mass high then
    return (self.highPriority.head?, { self with highPriority := self.highPriority.tail })
  let mass ← checkedSub mass (share .high self.highPriority)
  if ← flip .medium self.mediumPriority mass medium then
    return (self.mediumPriority.head?, { self with mediumPriority := self.mediumPriority.tail })
  let mass ← checkedSub mass (share .medium self.mediumPriority)
  if ← flip .low self.lowPriority mass low then
    return (self.lowPriority.head?, { self with lowPriority := self.lowPriority.tail })
  return (none, self)

end PriorityQueues

inductive Found where
  | disconnected
  | empty
  | items
deriving DecidableEq

namespace State

/-- The tests of `recv`, `try_recv` and `spin_try_recv`. -/
def find (self : State T) : Found :=
  if self.queues.isEmpty ∧ self.senderCount = 0 then .disconnected
  else if self.queues.isEmpty then .empty
  else .items

def Unlocked (self : State T) : Prop := Receiver.checked ∉ self.receivers

def setReceiver (self : State T) (i : Nat) (receiver : Receiver) : State T :=
  { self with receivers := self.receivers.set i receiver }

end State

/-- `Condvar::notify_one`. -/
inductive NotifyOne (receivers : List Receiver) : List Receiver → Prop where
  | wake {i : Nat} (waiting : receivers[i]? = some .waiting) : NotifyOne receivers (receivers.set i .woken)
  | nobody (nobody : Receiver.waiting ∉ receivers) : NotifyOne receivers receivers

inductive Action (T : Type) where
  | beginSend (priority : Priority) (item : T)
  | push (send : Nat)
  | dropSender
  | recv (receiver : Nat)
  | wait (receiver : Nat)
  | wakeUp (receiver : Nat)
  | relock (receiver : Nat)
  | tryPop (receiver : Nat)
  /-- A pop, by a receiver that holds the lock and has found items. -/
  | take (receiver : Nat)
  | clone (receiver : Nat)
  | dropReceiver (receiver : Nat)
deriving DecidableEq

inductive Step (state : State T) : Action T → State T → Prop where
  | beginSend (alive : 0 < state.senderCount) (connected : state.receiverCount ≠ 0) (priority : Priority) (item : T) :
      Step state (.beginSend priority item) { state with sends := state.sends ++ [(priority, item)] }
  /-- `send` returns its item in an error. -/
  | refuse (alive : 0 < state.senderCount) (disconnected : state.receiverCount = 0)
      (priority : Priority) (item : T) : Step state (.beginSend priority item) state
  | push {i : Nat} {priority : Priority} {item : T} (begun : state.sends[i]? = some (priority, item))
      (unlocked : state.Unlocked) {queues : PriorityQueues T}
      (pushed : state.queues.push priority item = .ok queues) {receivers : List Receiver}
      (notified : NotifyOne state.receivers receivers) :
      Step state (.push i) { state with queues := queues, receivers := receivers, sends := state.sends.eraseIdx i }
  /-- `push` panics; the lock is poisoned, which its users ignore. -/
  | pushPanics {i : Nat} {priority : Priority} {item : T}
      (begun : state.sends[i]? = some (priority, item)) (unlocked : state.Unlocked) {panic : Panic}
      (pushed : state.queues.push priority item = .error panic) :
      Step state (.push i) { state with sends := state.sends.eraseIdx i }
  /-- No call of `send` borrows the sender any more. -/
  | dropSender (alive : 0 < state.senderCount) (free : state.sends = []) :
      Step state .dropSender { state with senderCount := state.senderCount - 1 }
  /-- `pop` returns `RecvError`. -/
  | recvDisconnected {i : Nat} (idle : state.receivers[i]? = some .idle) (unlocked : state.Unlocked)
      (found : state.find = .disconnected) : Step state (.recv i) state
  | recvEmpty {i : Nat} (idle : state.receivers[i]? = some .idle) (unlocked : state.Unlocked)
      (found : state.find = .empty) : Step state (.recv i) (state.setReceiver i .checked)
  | wait {i : Nat} (checked : state.receivers[i]? = some .checked) : Step state (.wait i) (state.setReceiver i .waiting)
  | wakeUp {i : Nat} (waiting : state.receivers[i]? = some .waiting) :
      Step state (.wakeUp i) (state.setReceiver i .woken)
  | relockEmpty {i : Nat} (woken : state.receivers[i]? = some .woken) (unlocked : state.Unlocked)
      (empty : state.queues.isEmpty = true) : Step state (.relock i) (state.setReceiver i .waiting)
  | tryPopNothing {i : Nat} (idle : state.receivers[i]? = some .idle) (unlocked : state.Unlocked)
      (found : state.find ≠ .items) : Step state (.tryPop i) state
  /-- `pop` and `try_pop` on a queue that is not empty, and `pop` after its wait loop. -/
  | take {i : Nat} (ready : state.receivers[i]? = some .idle ∨ state.receivers[i]? = some .woken)
      (unlocked : state.Unlocked) (found : state.queues.isEmpty = false) (high medium low : Nat)
      {item : Option T} {queues : PriorityQueues T}
      (popped : state.queues.popInner high medium low = .ok (item, queues)) :
      Step state (.take i) { state.setReceiver i .idle with queues := queues }
  | clone {i : Nat} (idle : state.receivers[i]? = some .idle) : Step state (.clone i) { state with
        receivers := state.receivers ++ [.idle]
        receiverCount := state.receiverCount + 1 }
  | dropReceiver {i : Nat} (idle : state.receivers[i]? = some .idle) : Step state (.dropReceiver i)
        { state.setReceiver i .dropped with receiverCount := state.receiverCount - 1 }

end Pinrail.PriorityQueue

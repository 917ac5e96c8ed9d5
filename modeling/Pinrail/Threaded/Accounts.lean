import Pinrail.Queue.Disconnect
import Pinrail.Threaded.ThreadedDispatcher

/-!
# The in-flight count

What is in flight: the background runnables that are counted and to be sent, queued, running, or whose
guard is to be dropped, and the timer that has been counted. A step changes it as it changes the count,
except for a send that is refused.
-/

namespace Pinrail.Threaded
open Lib Scheduler PriorityQueue

variable {R : Type} {shared after : Shared R}

/-! ## What a thread has in flight -/

def Call.weight : Call R → Nat
  | .dispatching _ _ | .sending _ _ => 1
  | .outside | .notifying => 0

def callWeight (call : Option (Call R)) : Nat := (call.map Call.weight).getD 0

/-- The send of a background runnable that panics: no worker is left, or the queue does not take the
priority. -/
def Call.Refused (shared : Shared R) : Call R → Act R → Prop
  | .dispatching _ _, .findReceiver => shared.receiverCount = 0
  | .sending priority _, .push => priority = .realtimeAudio
  | _, _ => False

def Worker.call : Worker R → Option (Call R)
  | .running call => some call
  | _ => none

def Worker.weight : Worker R → Nat
  | .running call => 1 + call.weight
  | .dropping _ => 1
  | .popping | .leaving | .gone => 0

def TimerThread.call : TimerThread R → Option (Call R)
  | .running _ call => some call
  | _ => none

def TimerThread.weight : TimerThread R → Nat
  | .running _ call => 1 + call.weight
  | .counted _ | .dropping _ => 1
  | _ => 0

def MainThread.call : MainThread R → Option (Call R)
  | .outside call | .running call => some call
  | _ => none

namespace State

def inFlight (self : State R) : Nat :=
  self.shared.background.len + callWeight self.main.call + self.timer.weight +
    (self.workers.map Worker.weight).sum + (self.others.map callWeight).sum

def Notifying (self : State R) : Prop :=
  self.main.call = some .notifying ∨ self.timer.call = some .notifying ∨
    (∃ worker ∈ self.workers, worker.call = some .notifying) ∨ some .notifying ∈ self.others

def Refused (self : State R) : Action R → Prop
  | .main act => ∃ call, self.main.call = some call ∧ call.Refused self.shared act
  | .timer act => ∃ call, self.timer.call = some call ∧ call.Refused self.shared act
  | .worker i act => ∃ worker call, self.workers[i]? = some worker ∧ worker.call = some call ∧
      call.Refused self.shared act
  | .other i act => ∃ call, self.others[i]? = some (some call) ∧ call.Refused self.shared act
  | .tick _ | .spawn => False

end State

/-! ## What a step of one thread does for the others -/

structure Moves (shared : Shared R) (weight : Nat) (notifying : Prop) (after : Shared R)
    (weightAfter : Nat) (notifyingAfter : Prop) : Prop where
  balance : after.inflight + (shared.background.len + weight) = shared.inflight + (after.background.len + weightAfter)
  held : after.inflightHeld = shared.inflightHeld
  frozen : shared.inflightHeld = true → after.inflight = shared.inflight ∧ (notifying → notifyingAfter)
  parked : after.parked = true → shared.parked = true ∧ (0 < shared.inflight → 0 < after.inflight) ∧
    (notifying → notifyingAfter)
  main : after.main = shared.main ∨ notifyingAfter

structure Arms (shared after : Shared R) : Prop where
  armed : ∃ entries, after.heap = shared.heap ++ entries ∧ after.armed = shared.armed ++ entries
  ended : after.ended = shared.ended
  now : after.now = shared.now
  held : after.timersHeld = shared.timersHeld

theorem Arms.of_eq (heap : after.heap = shared.heap) (armed : after.armed = shared.armed)
    (ended : after.ended = shared.ended) (now : after.now = shared.now)
    (held : after.timersHeld = shared.timersHeld) : Arms shared after :=
  ⟨⟨[], by simp [heap], by simp [armed]⟩, ended, now, held⟩

theorem Moves.add {weight weightAfter : Nat} {notifying notifyingAfter : Prop} (more : Nat)
    (moves : Moves shared weight notifying after weightAfter notifyingAfter) :
    Moves shared (more + weight) notifying after (more + weightAfter) notifyingAfter :=
  { moves with balance := by have balance := moves.balance; omega }

theorem Moves.of_eq {weight weightAfter : Nat} {notifying notifyingAfter : Prop}
    (inflight : after.inflight = shared.inflight) (held : after.inflightHeld = shared.inflightHeld)
    (parked : after.parked = shared.parked) (background : after.background = shared.background)
    (main : after.main = shared.main ∨ notifyingAfter) (weights : weight = weightAfter)
    (quiet : notifying → notifyingAfter) :
    Moves shared weight notifying after weightAfter notifyingAfter where
  balance := by rw [inflight, background, weights]
  held := held
  frozen _ := ⟨inflight, quiet⟩
  parked still := ⟨parked ▸ still, fun positive => by omega, quiet⟩
  main := main

theorem increment_moves (weight : Nat) (notifying : Prop) (ran : shared.increment = some after) :
    Moves shared weight notifying after (1 + weight) notifying ∧ Arms shared after := by
  unfold Shared.increment at ran
  split_ifs at ran with held
  cases ran
  refine ⟨⟨?_, rfl, fun held' => absurd held' held, fun still => ⟨still, fun _ => ?_, id⟩, .inl rfl⟩,
    .of_eq rfl rfl rfl rfl rfl⟩
  · simp only
    omega
  · simp

theorem decrement_moves (weight : Nat) (ran : shared.decrement = some after) (positive : 0 < shared.inflight) :
    Moves shared (1 + weight) False after weight False ∧ Arms shared after := by
  unfold Shared.decrement at ran
  split_ifs at ran with held
  cases ran
  refine ⟨⟨?_, rfl, fun held' => absurd held' held, fun still => ?_, .inl rfl⟩, .of_eq rfl rfl rfl rfl rfl⟩
  · simp only
    omega
  · simp only [Bool.and_eq_true, bne_iff_ne, ne_eq] at still
    exact ⟨still.1, fun _ => Nat.pos_of_ne_zero still.2, id⟩

theorem Call.step_moves {call : Call R} {act : Act R} {callAfter : Option (Call R)}
    (ran : call.step shared act = some (after, callAfter)) (accepted : ¬ call.Refused shared act) :
    Moves shared call.weight (call = .notifying) after (callWeight callAfter) (callAfter = some .notifying) ∧
    Arms shared after := by
  unfold Call.step at ran
  split at ran
  case h_1 priority runnable =>
    simp only [Option.pure_def, Option.bind_eq_bind, Option.bind_eq_some_iff, Option.some.injEq, Prod.mk.injEq] at ran
    obtain ⟨_, counted, rfl, rfl⟩ := ran
    have moved := increment_moves 0 False counted
    exact ⟨by simpa [callWeight, Call.weight] using moved.1, moved.2⟩
  case h_2 priority runnable =>
    split_ifs at ran with refused
    · exact absurd refused accepted
    · cases ran
      exact ⟨.of_eq rfl rfl rfl rfl (.inl rfl) rfl nofun, .of_eq rfl rfl rfl rfl rfl⟩
  case h_3 priority runnable =>
    split at ran
    · rename_i queues pushed
      cases ran
      have longer := PriorityQueues.len_push pushed
      refine ⟨⟨?_, rfl, fun _ => ⟨rfl, nofun⟩, fun still => ⟨still, id, nofun⟩, .inl rfl⟩, .of_eq rfl rfl rfl rfl rfl⟩
      simp only [callWeight, Call.weight, Option.map_some, Option.getD_some, longer]
    · rename_i panic pushed
      cases priority with
      | realtimeAudio => exact absurd rfl accepted
      | high => cases pushed
      | medium => cases pushed
      | low => cases pushed
  case h_4 priority runnable =>
    split at ran
    · cases ran
      exact ⟨.of_eq rfl rfl rfl rfl (.inr rfl) rfl nofun, .of_eq rfl rfl rfl rfl rfl⟩
    · cases ran
      exact ⟨.of_eq rfl rfl rfl rfl (.inl rfl) rfl nofun, .of_eq rfl rfl rfl rfl rfl⟩
  case h_5 =>
    simp only [Option.pure_def, Option.bind_eq_bind, Option.bind_eq_some_iff, Option.some.injEq, Prod.mk.injEq] at ran
    obtain ⟨_, notified, rfl, rfl⟩ := ran
    unfold Shared.notifyUnderLock at notified
    split_ifs at notified with held
    cases notified
    exact ⟨⟨rfl, rfl, fun held' => absurd held' held, nofun, .inl rfl⟩, .of_eq rfl rfl rfl rfl rfl⟩
  case h_6 duration runnable =>
    simp only [Option.pure_def, Option.bind_eq_bind, Option.bind_eq_some_iff, Option.some.injEq, Prod.mk.injEq] at ran
    obtain ⟨_, armed, rfl, rfl⟩ := ran
    unfold Shared.dispatchAfter at armed
    split_ifs at armed with held
    cases armed
    exact ⟨.of_eq rfl rfl rfl rfl (.inl rfl) rfl nofun, ⟨_, rfl, rfl⟩, rfl, rfl, rfl⟩
  case h_7 =>
    cases ran
    exact ⟨.of_eq rfl rfl rfl rfl (.inl rfl) rfl nofun, .of_eq rfl rfl rfl rfl rfl⟩
  case h_8 => cases ran

theorem Moves.lift {weight weightAfter : Nat} {notifying notifyingAfter : Prop} (more : Nat)
    (others : Prop) (moves : Moves shared weight notifying after weightAfter notifyingAfter) :
    Moves shared (more + weight) (others ∨ notifying) after (more + weightAfter) (others ∨ notifyingAfter) where
  balance := (moves.add more).balance
  held := moves.held
  frozen held := ⟨(moves.frozen held).1, Or.imp_right (moves.frozen held).2⟩
  parked still := ⟨(moves.parked still).1, (moves.parked still).2.1, Or.imp_right (moves.parked still).2.2⟩
  main := moves.main.imp_right .inr

/-! ## Steps of the threads -/

theorem popInner_of_isEmpty {queues rest : PriorityQueues R} {item : R} {high medium low : Nat}
    (empty : queues.isEmpty = true) : queues.popInner high medium low ≠ .ok (some item, rest) := by
  intro popped
  rw [PriorityQueues.isEmpty, Bool.and_eq_true, Bool.and_eq_true] at empty
  obtain ⟨⟨noHigh, noMedium⟩, noLow⟩ := empty
  obtain ⟨highs, mediums, lows⟩ := queues
  obtain rfl := List.isEmpty_iff.mp noHigh
  obtain rfl := List.isEmpty_iff.mp noMedium
  obtain rfl := List.isEmpty_iff.mp noLow
  cases popped

theorem Worker.step_moves {worker workerAfter : Worker R} {act : Act R}
    (ran : worker.step shared act = some (after, workerAfter))
    (accepted : ∀ call, worker.call = some call → ¬ call.Refused shared act)
    (enough : worker.weight ≤ shared.inflight) :
    Moves shared worker.weight (worker.call = some .notifying) after workerAfter.weight
      (workerAfter.call = some .notifying) ∧ Arms shared after := by
  unfold Worker.step at ran
  split at ran
  case h_1 high medium low =>
    split at ran
    · rename_i item queues popped
      cases ran
      have items : shared.background.isEmpty = false := by
        by_contra empty
        exact popInner_of_isEmpty (Bool.not_eq_false _ ▸ empty) popped
      obtain ⟨item', rest, popped', shorter⟩ := PriorityQueues.popInner_spec items high medium low
      obtain ⟨-, rfl⟩ := Prod.mk.inj (Except.ok.inj (popped.symm.trans popped'))
      refine ⟨⟨?_, rfl, fun _ => ⟨rfl, nofun⟩, fun still => ⟨still, id, nofun⟩, .inl rfl⟩, .of_eq rfl rfl rfl rfl rfl⟩
      simp only [Worker.weight, Call.weight, ← shorter]
    · cases ran
  case h_2 =>
    cases ran
    exact ⟨.of_eq rfl rfl rfl rfl (.inl rfl) rfl nofun, .of_eq rfl rfl rfl rfl rfl⟩
  case h_3 act call unfinished =>
    simp only [Option.pure_def, Option.bind_eq_bind, Option.bind_eq_some_iff, Option.some.injEq,
      Prod.mk.injEq, Prod.exists] at ran
    obtain ⟨_, callAfter, called, rfl, rfl⟩ := ran
    obtain ⟨moves, arms⟩ := Call.step_moves called (accepted call rfl)
    refine ⟨?_, arms⟩
    cases callAfter with
    | none => simpa [Worker.weight, Worker.call, callWeight] using moves.add 1
    | some callAfter => simpa [Worker.weight, Worker.call, callWeight] using moves.add 1
  case h_4 unwinding high medium low =>
    simp only [Option.pure_def, Option.bind_eq_bind, Option.bind_eq_some_iff, Option.some.injEq, Prod.mk.injEq] at ran
    obtain ⟨_, decremented, rfl, rfl⟩ := ran
    obtain ⟨moves, arms⟩ := decrement_moves 0 decremented enough
    refine ⟨?_, arms⟩
    cases unwinding with
    | false => simpa [Worker.weight, Worker.call] using moves
    | true => simpa [Worker.weight, Worker.call] using moves
  case h_5 high medium low =>
    cases ran
    exact ⟨.of_eq rfl rfl rfl rfl (.inl rfl) rfl nofun, .of_eq rfl rfl rfl rfl rfl⟩
  case h_6 => cases ran

theorem TimerThread.step_moves {timer timerAfter : TimerThread R} {act : Act R}
    (ran : timer.step shared act = some (after, timerAfter))
    (accepted : ∀ call, timer.call = some call → ¬ call.Refused shared act)
    (enough : timer.weight ≤ shared.inflight) :
    Moves shared timer.weight (timer.call = some .notifying) after timerAfter.weight
      (timerAfter.call = some .notifying) := by
  unfold TimerThread.step at ran
  split at ran
  case h_1 high medium low =>
    split_ifs at ran
    cases ran
    exact .of_eq rfl rfl rfl rfl (.inl rfl) rfl nofun
  case h_2 high medium low =>
    split at ran
    · cases ran
      exact .of_eq rfl rfl rfl rfl (.inl rfl) rfl nofun
    · split_ifs at ran
      · cases ran
        exact .of_eq rfl rfl rfl rfl (.inl rfl) rfl nofun
      · cases ran
        exact .of_eq rfl rfl rfl rfl (.inl rfl) rfl nofun
  case h_3 until_ high medium low =>
    split_ifs at ran
    cases ran
    exact .of_eq rfl rfl rfl rfl (.inl rfl) rfl nofun
  case h_4 entry high medium low =>
    simp only [Option.pure_def, Option.bind_eq_bind, Option.bind_eq_some_iff, Option.some.injEq, Prod.mk.injEq] at ran
    obtain ⟨_, counted, rfl, rfl⟩ := ran
    simpa [TimerThread.weight, TimerThread.call] using (increment_moves 0 False counted).1
  case h_5 entry high medium low =>
    cases ran
    exact .of_eq rfl rfl rfl rfl (.inl rfl) rfl nofun
  case h_6 entry =>
    cases ran
    exact .of_eq rfl rfl rfl rfl (.inl rfl) rfl nofun
  case h_7 act entry call unfinished =>
    simp only [Option.bind_eq_bind, Option.bind_eq_some_iff, Prod.exists] at ran
    obtain ⟨_, callAfter, called, ran⟩ := ran
    have moves := (Call.step_moves called (accepted call rfl)).1.add 1
    cases callAfter with
    | none =>
      cases ran
      exact ⟨moves.balance, moves.held, by simpa [TimerThread.call] using moves.frozen,
        by simpa [TimerThread.call] using moves.parked, by simpa [TimerThread.call] using moves.main⟩
    | some callAfter =>
      cases ran
      simpa [TimerThread.weight, TimerThread.call, callWeight] using moves
  case h_8 unwinding high medium low =>
    simp only [Option.pure_def, Option.bind_eq_bind, Option.bind_eq_some_iff, Option.some.injEq, Prod.mk.injEq] at ran
    obtain ⟨_, decremented, rfl, rfl⟩ := ran
    have moves := (decrement_moves 0 decremented enough).1
    cases unwinding with
    | false => simpa [TimerThread.weight, TimerThread.call] using moves
    | true => simpa [TimerThread.weight, TimerThread.call] using moves
  case h_9 => cases ran

/-! ## Steps of the system -/

theorem exists_set {α : Type} {xs : List α} {i : Nat} {x : α} (found : xs[i]? = some x) :
    ∃ front back, xs = front ++ x :: back ∧ ∀ y, xs.set i y = front ++ y :: back := by
  obtain ⟨inside, rfl⟩ := List.getElem?_eq_some_iff.mp found
  refine ⟨xs.take i, xs.drop (i + 1), by simp, fun y => ?_⟩
  rw [List.set_eq_take_append_cons_drop, if_pos inside]

variable {state next : State R}

structure State.Moves (state next : State R) : Prop where
  moves : Threaded.Moves state.shared (state.inFlight - state.shared.background.len) state.Notifying
    next.shared (next.inFlight - next.shared.background.len) next.Notifying
  main : next.main = state.main

theorem timer_moves {act : Act R} (counts : state.shared.inflight = state.inFlight)
    (accepted : ¬ state.Refused (.timer act)) (stepped : state.step (.timer act) = some next) : state.Moves next := by
  simp only [State.step, Option.pure_def, Option.bind_eq_bind, Option.bind_eq_some_iff,
    Option.some.injEq, Prod.exists] at stepped
  obtain ⟨shared, timer, ran, rfl⟩ := stepped
  refine ⟨?_, rfl⟩
  have enough : state.timer.weight ≤ state.shared.inflight := by
    rw [counts, State.inFlight]
    omega
  have moves := TimerThread.step_moves ran (fun call called refused => accepted ⟨call, called, refused⟩) enough
  have lifted := moves.lift (callWeight state.main.call + (state.workers.map Worker.weight).sum +
    (state.others.map callWeight).sum) (state.main.call = some .notifying ∨
    (∃ worker ∈ state.workers, worker.call = some .notifying) ∨ some .notifying ∈ state.others)
  convert lifted using 1
  · simp only [State.inFlight]
    omega
  · simp only [State.Notifying]
    simp only [or_comm, or_left_comm]
  · simp only [State.inFlight]
    omega
  · simp only [State.Notifying]
    simp only [or_comm, or_left_comm]

theorem worker_moves {i : Nat} {act : Act R} (counts : state.shared.inflight = state.inFlight)
    (accepted : ¬ state.Refused (.worker i act)) (stepped : state.step (.worker i act) = some next) :
    state.Moves next ∧ Arms state.shared next.shared ∧ next.timer = state.timer := by
  simp only [State.step, Option.pure_def, Option.bind_eq_bind, Option.bind_eq_some_iff,
    Option.some.injEq, Prod.exists] at stepped
  obtain ⟨worker, found, shared, workerAfter, ran, rfl⟩ := stepped
  obtain ⟨front, back, whole, set⟩ := exists_set found
  have enough : worker.weight ≤ state.shared.inflight := by
    rw [counts, State.inFlight, whole]
    simp only [List.map_append, List.map_cons, List.sum_append, List.sum_cons]
    omega
  obtain ⟨moves, arms⟩ := Worker.step_moves ran
    (fun call called refused => accepted ⟨worker, call, found, called, refused⟩) enough
  refine ⟨⟨?_, rfl⟩, arms, rfl⟩
  have lifted := moves.lift (callWeight state.main.call + state.timer.weight +
    (front.map Worker.weight).sum + (back.map Worker.weight).sum + (state.others.map callWeight).sum)
    (state.main.call = some .notifying ∨ state.timer.call = some .notifying ∨
      (∃ worker ∈ front ++ back, worker.call = some .notifying) ∨ some .notifying ∈ state.others)
  convert lifted using 1
  · simp only [State.inFlight, whole, List.map_append, List.map_cons, List.sum_append, List.sum_cons]
    omega
  · simp only [State.Notifying, whole, List.mem_append, List.mem_cons, or_and_right, exists_or, exists_eq_left]
    simp only [or_comm, or_left_comm]
  · simp only [State.inFlight, set, List.map_append, List.map_cons, List.sum_append, List.sum_cons]
    omega
  · simp only [State.Notifying, set, List.mem_append, List.mem_cons, or_and_right, exists_or, exists_eq_left]
    simp only [or_comm, or_left_comm]

theorem other_moves {i : Nat} {act : Act R} (accepted : ¬ state.Refused (.other i act))
    (stepped : state.step (.other i act) = some next) :
    state.Moves next ∧ Arms state.shared next.shared ∧ next.timer = state.timer := by
  simp only [State.step, Option.pure_def, Option.bind_eq_bind, Option.bind_eq_some_iff,
    Option.some.injEq, Prod.exists] at stepped
  obtain ⟨_, found, call, rfl, shared, callAfter, ran, rfl⟩ := stepped
  obtain ⟨front, back, whole, set⟩ := exists_set found
  obtain ⟨moves, arms⟩ := Call.step_moves ran fun refused => accepted ⟨call, found, refused⟩
  refine ⟨⟨?_, rfl⟩, arms, rfl⟩
  have lifted := moves.lift (callWeight state.main.call + state.timer.weight +
    (state.workers.map Worker.weight).sum + (front.map callWeight).sum + (back.map callWeight).sum)
    (state.main.call = some .notifying ∨ state.timer.call = some .notifying ∨
      (∃ worker ∈ state.workers, worker.call = some .notifying) ∨ some .notifying ∈ front ++ back)
  have weight : callWeight (some call) = call.weight := rfl
  convert lifted using 1
  · simp only [State.inFlight, whole, List.map_append, List.map_cons, List.sum_append, List.sum_cons, weight]
    omega
  · simp only [State.Notifying, whole, List.mem_append, List.mem_cons, Option.some.injEq, eq_comm (b := call)]
    simp only [or_comm, or_left_comm, or_assoc]
  · simp only [State.inFlight, set, List.map_append, List.map_cons, List.sum_append, List.sum_cons]
    omega
  · simp only [State.Notifying, set, List.mem_append, List.mem_cons, eq_comm (b := callAfter)]
    simp only [or_comm, or_left_comm, or_assoc]

end Pinrail.Threaded

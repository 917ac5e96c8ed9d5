import Mathlib.Algebra.Order.BigOperators.Group.List
import Mathlib.Algebra.Order.Ring.Nat
import Pinrail.Threaded.Accounts

/-!
# Quiescence of the threaded dispatcher

The main thread waits without a time limit only while something is in flight that will wake it, and
`run_until_idle` returns only when nothing is in flight and no timer that was due is left.
-/

namespace Pinrail.Threaded
open Lib Scheduler PriorityQueue

variable {R : Type} {shared after : Shared R} {state next : State R}

/-! ## Timers -/

theorem due_le_of_cmp {entry top : TimerEntry R} :
    (entry.cmp top = .lt → top.due ≤ entry.due) ∧ (entry.cmp top ≠ .lt → entry.due ≤ top.due) := by
  unfold TimerEntry.cmp
  cases compared : compare top.due entry.due with
  | lt => exact ⟨fun _ => Nat.le_of_lt (Nat.compare_eq_lt.mp compared), fun not => absurd rfl not⟩
  | eq =>
    have same := Nat.compare_eq_eq.mp compared
    exact ⟨fun _ => Nat.le_of_eq same, fun _ => Nat.le_of_eq same.symm⟩
  | gt => exact ⟨nofun, fun _ => Nat.le_of_lt (Nat.compare_eq_gt.mp compared)⟩

theorem popHeap_eq_none {heap : List (TimerEntry R)} : popHeap heap = none ↔ heap = [] := by
  cases heap with
  | nil => exact iff_of_true rfl rfl
  | cons entry heap =>
    refine iff_of_false ?_ (List.cons_ne_nil entry heap)
    rw [popHeap]
    split
    · exact nofun
    · split_ifs <;> exact nofun

theorem popHeap_spec {heap rest : List (TimerEntry R)} {top : TimerEntry R} (popped : popHeap heap = some (top, rest)) :
    (∀ entry, entry ∈ heap ↔ entry = top ∨ entry ∈ rest) ∧ ∀ entry ∈ heap, top.due ≤ entry.due := by
  induction heap generalizing top rest with
  | nil => cases popped
  | cons first heap ih =>
    rw [popHeap] at popped
    cases below : popHeap heap with
    | none =>
      rw [below] at popped
      cases popped
      rw [popHeap_eq_none.mp below]
      simp
    | some top' =>
      obtain ⟨top', rest'⟩ := top'
      rw [below] at popped
      obtain ⟨members, least⟩ := ih below
      simp only at popped
      split_ifs at popped with order
      · cases popped
        refine ⟨fun entry => ?_, fun entry member => ?_⟩
        · rw [List.mem_cons, members, List.mem_cons]
          tauto
        · rcases List.mem_cons.mp member with rfl | member
          · exact due_le_of_cmp.1 order
          · exact least entry member
      · cases popped
        refine ⟨fun entry => List.mem_cons, fun entry member => ?_⟩
        rcases List.mem_cons.mp member with rfl | member
        · exact Nat.le_refl _
        · exact Nat.le_trans (due_le_of_cmp.2 order) (least entry member)

theorem now_lt_of_not_hasDueTimer (notDue : shared.hasDueTimer = false) {entry : TimerEntry R}
    (member : entry ∈ shared.heap) : shared.now < entry.due := by
  unfold Shared.hasDueTimer peekHeap at notDue
  cases popped : popHeap shared.heap with
  | none =>
    rw [popHeap_eq_none.mp popped] at member
    cases member
  | some top =>
    rw [popped] at notDue
    have later : shared.now < top.1.due := by simpa using notDue
    exact Nat.lt_of_lt_of_le later ((popHeap_spec popped).2 entry member)

def TimerThread.entry : TimerThread R → Option (TimerEntry R)
  | .firing entry | .counted entry | .running entry _ => some entry
  | _ => none

def TimerThread.Holds : TimerThread R → Prop
  | .peeking | .firing _ | .counted _ => True
  | _ => False

def TimerThread.Runs (self : TimerThread R) (entry : TimerEntry R) : Prop :=
  ∃ call, self = .running entry call

structure Fires (shared : Shared R) (timer : TimerThread R) (after : Shared R)
    (timerAfter : TimerThread R) : Prop where
  armed : ∀ entry ∈ after.armed, entry ∈ shared.armed ∨ entry ∈ after.heap
  kept : ∀ entry, entry ∈ shared.heap ∨ timer.entry = some entry ∨ entry ∈ shared.ended →
    entry ∈ after.heap ∨ timerAfter.entry = some entry ∨ entry ∈ after.ended
  runs : ∀ entry, entry ∈ shared.ended ∨ timer.Runs entry → entry ∈ after.ended ∨ timerAfter.Runs entry
  held : (timer.Holds → shared.timersHeld = true) → timerAfter.Holds → after.timersHeld = true

theorem Arms.fires (arms : Arms shared after) (timer : TimerThread R) : Fires shared timer after timer := by
  obtain ⟨entries, heap, armed⟩ := arms.armed
  refine ⟨fun entry member => ?_, fun entry => ?_, fun entry => ?_, fun held holds => ?_⟩
  · rw [armed] at member
    rw [heap]
    exact (List.mem_append.mp member).imp_right (List.mem_append_right _)
  · rw [heap, arms.ended]
    exact Or.imp_left (List.mem_append_left _)
  · rw [arms.ended]
    exact id
  · rw [arms.held]
    exact held holds

theorem Fires.of_eq {timer timerAfter : TimerThread R} (armed : after.armed = shared.armed)
    (heap : after.heap = shared.heap) (ended : after.ended = shared.ended)
    (entry : ∀ entry, timer.entry = some entry → timerAfter.entry = some entry)
    (runs : ∀ entry, timer.Runs entry → timerAfter.Runs entry)
    (held : (timer.Holds → shared.timersHeld = true) → timerAfter.Holds → after.timersHeld = true) :
    Fires shared timer after timerAfter where
  armed := by rw [armed]; exact fun entry => .inl
  kept := by rw [heap, ended]; exact fun timer => Or.imp_right (Or.imp_left (entry timer))
  runs := by rw [ended]; exact fun timer => Or.imp_right (runs timer)
  held := held

theorem Arms.ends {middle : Shared R} (arms : Arms shared middle) (entry : TimerEntry R) (call : Call R)
    (unwinding : Bool) :
    Fires shared (.running entry call) { middle with ended := middle.ended ++ [entry] } (.dropping unwinding) := by
  have fires := arms.fires (.running entry call)
  refine ⟨fires.armed, fun other before => ?_, fun other before => ?_, fun _ => False.elim⟩
  · rcases fires.kept other before with inHeap | running | ended
    · exact .inl inHeap
    · cases running
      exact .inr (.inr (List.mem_append_right _ (List.mem_singleton.mpr rfl)))
    · exact .inr (.inr (List.mem_append_left _ ended))
  · rcases fires.runs other before with ended | ⟨_, running⟩
    · exact .inl (List.mem_append_left _ ended)
    · cases running
      exact .inl (List.mem_append_right _ (List.mem_singleton.mpr rfl))

theorem TimerThread.step_fires {timer timerAfter : TimerThread R} {act : Act R}
    (ran : timer.step shared act = some (after, timerAfter))
    (accepted : ∀ call, timer.call = some call → ¬ call.Refused shared act) : Fires shared timer after timerAfter := by
  have noRun {timer : TimerThread R} (call : timer.call = none) (entry : TimerEntry R) : ¬ timer.Runs entry := by
    rintro ⟨running, rfl⟩
    cases call
  unfold TimerThread.step at ran
  split at ran
  case h_1 high medium low =>
    split_ifs at ran
    cases ran
    exact .of_eq rfl rfl rfl nofun (fun entry runs => absurd runs (noRun rfl entry)) fun _ _ => rfl
  case h_2 high medium low =>
    split at ran
    · cases ran
      exact .of_eq rfl rfl rfl nofun (fun entry runs => absurd runs (noRun rfl entry)) fun _ => False.elim
    · rename_i entry heap popped
      split_ifs at ran
      · cases ran
        exact .of_eq rfl rfl rfl nofun (fun entry runs => absurd runs (noRun rfl entry)) fun _ => False.elim
      · cases ran
        refine ⟨fun entry => .inl, fun other => ?_, fun other => ?_, fun held _ => held trivial⟩
        · simp only [TimerThread.entry, (popHeap_spec popped).1 other, Option.some.injEq, reduceCtorEq,
            false_or, eq_comm]
          tauto
        · exact fun before => before.elim .inl fun runs => absurd runs (noRun rfl other)
  case h_3 until_ high medium low =>
    split_ifs at ran
    cases ran
    exact .of_eq rfl rfl rfl nofun (fun entry runs => absurd runs (noRun rfl entry)) fun _ _ => rfl
  case h_4 entry high medium low =>
    simp only [Option.pure_def, Option.bind_eq_bind, Option.bind_eq_some_iff, Option.some.injEq, Prod.mk.injEq] at ran
    obtain ⟨_, counted, rfl, rfl⟩ := ran
    unfold Shared.increment at counted
    split_ifs at counted
    cases counted
    exact .of_eq rfl rfl rfl (fun _ => id) (fun entry runs => absurd runs (noRun rfl entry)) fun held _ => held trivial
  case h_5 entry high medium low =>
    cases ran
    exact .of_eq rfl rfl rfl (fun _ => id) (fun entry runs => absurd runs (noRun rfl entry)) fun _ => False.elim
  case h_6 entry =>
    cases ran
    exact (Arms.of_eq rfl rfl rfl rfl rfl).ends entry .outside false
  case h_7 act entry call unfinished =>
    simp only [Option.bind_eq_bind, Option.bind_eq_some_iff, Prod.exists] at ran
    obtain ⟨_, callAfter, called, ran⟩ := ran
    have arms := (Call.step_moves called (accepted call rfl)).2
    cases callAfter with
    | none =>
      cases ran
      exact arms.ends entry call true
    | some callAfter =>
      cases ran
      have fires := arms.fires (.running entry call)
      refine ⟨fires.armed, fires.kept, fun other before => ?_, fun _ => False.elim⟩
      rcases fires.runs other before with ended | ⟨_, running⟩
      · exact .inl ended
      · cases running
        exact .inr ⟨callAfter, rfl⟩
  case h_8 unwinding high medium low =>
    simp only [Option.pure_def, Option.bind_eq_bind, Option.bind_eq_some_iff, Option.some.injEq, Prod.mk.injEq] at ran
    obtain ⟨_, decremented, rfl, rfl⟩ := ran
    unfold Shared.decrement at decremented
    split_ifs at decremented
    cases decremented
    refine .of_eq rfl rfl rfl nofun (fun entry runs => absurd runs (noRun rfl entry)) ?_
    cases unwinding with
    | false => exact fun _ => False.elim
    | true => exact fun _ => False.elim
  case h_9 => cases ran

/-! ## The main thread -/

def MainThread.Comes (shared : Shared R) (main : MainThread R) (after : Shared R) : MainThread R → Prop
  | .locking => main = .dueCheck ∧ after = shared ∧ shared.timersHeld = false ∧ shared.hasDueTimer = false
  | .queueCheck => main = .locking ∧ after = { shared with inflightHeld := true }
  | .countCheck => main = .queueCheck ∧ after = shared ∧ shared.main.isEmpty = true
  | .untimedWait => main = .countCheck ∧ shared.inflight ≠ 0 ∧
      after = { shared with inflightHeld := false, parked := true }
  | .returned => main = .countCheck ∧ shared.inflight = 0 ∧ after = { shared with inflightHeld := false }
  | _ => True

theorem MainThread.step_spec {main mainAfter : MainThread R} {act : Act R}
    (ran : main.step shared act = some (after, mainAfter))
    (accepted : ∀ call, main.call = some call → ¬ call.Refused shared act) :
    after.inflight + (shared.background.len + callWeight main.call) =
        shared.inflight + (after.background.len + callWeight mainAfter.call) ∧
      Arms shared after ∧ main.Comes shared after mainAfter := by
  unfold MainThread.step at ran
  split at ran
  case h_1 high medium low =>
    cases ran
    exact ⟨rfl, .of_eq rfl rfl rfl rfl rfl, trivial⟩
  case h_2 act call started =>
    simp only [Option.pure_def, Option.bind_eq_bind, Option.bind_eq_some_iff, Option.some.injEq,
      Prod.mk.injEq, Prod.exists] at ran
    obtain ⟨_, callAfter, called, rfl, rfl⟩ := ran
    obtain ⟨moves, arms⟩ := Call.step_moves called (accepted call rfl)
    refine ⟨?_, arms, trivial⟩
    cases callAfter with
    | none => exact moves.balance
    | some callAfter => exact moves.balance
  case h_3 ranAny high medium low =>
    split_ifs at ran with empty any
    · cases ran
      exact ⟨rfl, .of_eq rfl rfl rfl rfl rfl, trivial⟩
    · cases ran
      exact ⟨rfl, .of_eq rfl rfl rfl rfl rfl, trivial⟩
    · split at ran
      · cases ran
        exact ⟨rfl, .of_eq rfl rfl rfl rfl rfl, trivial⟩
      · cases ran
  case h_4 =>
    cases ran
    exact ⟨rfl, .of_eq rfl rfl rfl rfl rfl, trivial⟩
  case h_5 act call unfinished =>
    simp only [Option.pure_def, Option.bind_eq_bind, Option.bind_eq_some_iff, Option.some.injEq,
      Prod.mk.injEq, Prod.exists] at ran
    obtain ⟨_, callAfter, called, rfl, rfl⟩ := ran
    obtain ⟨moves, arms⟩ := Call.step_moves called (accepted call rfl)
    cases callAfter with
    | none => exact ⟨moves.balance, arms, trivial⟩
    | some callAfter => exact ⟨moves.balance, arms, trivial⟩
  case h_6 high medium low =>
    split_ifs at ran with held due
    · cases ran
      exact ⟨rfl, .of_eq rfl rfl rfl rfl rfl, trivial⟩
    · cases ran
      exact ⟨rfl, .of_eq rfl rfl rfl rfl rfl, rfl, rfl, Bool.eq_false_of_not_eq_true held,
        Bool.eq_false_of_not_eq_true due⟩
  case h_7 high medium low =>
    cases ran
    exact ⟨rfl, .of_eq rfl rfl rfl rfl rfl, trivial⟩
  case h_8 high medium low =>
    cases ran
    exact ⟨rfl, .of_eq rfl rfl rfl rfl rfl, trivial⟩
  case h_9 high medium low =>
    cases ran
    exact ⟨rfl, .of_eq rfl rfl rfl rfl rfl, rfl, rfl⟩
  case h_10 high medium low =>
    split_ifs at ran with empty
    · cases ran
      exact ⟨rfl, .of_eq rfl rfl rfl rfl rfl, rfl, rfl, empty⟩
    · cases ran
      exact ⟨rfl, .of_eq rfl rfl rfl rfl rfl, trivial⟩
  case h_11 high medium low =>
    split_ifs at ran with zero
    · cases ran
      exact ⟨rfl, .of_eq rfl rfl rfl rfl rfl, rfl, zero, rfl⟩
    · cases ran
      exact ⟨rfl, .of_eq rfl rfl rfl rfl rfl, rfl, zero, rfl⟩
  case h_12 high medium low =>
    split_ifs at ran
    cases ran
    exact ⟨rfl, .of_eq rfl rfl rfl rfl rfl, trivial⟩
  case h_13 high medium low =>
    cases ran
    exact ⟨rfl, .of_eq rfl rfl rfl rfl rfl, trivial⟩
  case h_14 => cases ran

/-! ## Runs -/

/-- A run of a new dispatcher in which no send of a background runnable is refused, with the states that
the main thread left by a step, the last one first. -/
inductive Run (threadCount : Nat) : List (State R) → State R → Prop where
  | new : Run threadCount [] (State.new threadCount)
  | main {history : List (State R)} {state next : State R}
      (run : Run threadCount history state) (act : Act R) (accepted : ¬ state.Refused (.main act))
      (stepped : state.step (.main act) = some next) : Run threadCount (state :: history) next
  | thread {history : List (State R)} {state next : State R} {action : Action R}
      (run : Run threadCount history state) (accepted : ¬ state.Refused action)
      (others : ∀ act, action ≠ .main act) (stepped : state.step action = some next) :
      Run threadCount history next

namespace State

def InUntimedWait (self : State R) : Prop :=
  self.main = .untimedWait ∧ self.shared.parked = true

def dueTimers (self : State R) : List (TimerEntry R) :=
  self.shared.armed.filter (·.due ≤ self.shared.now)

structure Quiet (state : State R) : Prop where
  queue : state.shared.background.isEmpty = true
  workers : ∀ worker ∈ state.workers, ∀ call, worker ≠ .running call
  timer : ∀ entry call, state.timer ≠ .running entry call
  calls : ∀ call, state.main.call = some call ∨ some call ∈ state.others → call.weight = 0

end State

/-- What `has_due_timer` has seen: every timer that was due there has run, or runs. -/
def DueChecked (checked state : State R) : Prop :=
  checked.main = .dueCheck ∧ ∀ timer ∈ checked.dueTimers, timer ∈ state.shared.ended ∨ state.timer.Runs timer

structure QueueChecked (checked queueChecked : State R) : Prop where
  due : DueChecked checked queueChecked
  main : queueChecked.main = .queueCheck
  empty : queueChecked.shared.main.isEmpty = true
  counts : queueChecked.shared.inflight = queueChecked.inFlight

def Checked (history : List (State R)) (state : State R) : Prop :=
  match state.main with
  | .locking => ∃ checked rest, history = checked :: rest ∧ DueChecked checked state
  | .queueCheck => ∃ locked checked rest, history = locked :: checked :: rest ∧ DueChecked checked state
  | .countCheck => ∃ queueChecked locked checked rest,
      history = queueChecked :: locked :: checked :: rest ∧ QueueChecked checked queueChecked ∧
      state.shared.inflight = queueChecked.shared.inflight
  | .returned => ∃ counted queueChecked locked checked rest,
      history = counted :: queueChecked :: locked :: checked :: rest ∧
      QueueChecked checked queueChecked ∧ queueChecked.shared.inflight = 0 ∧
      counted.shared.inflight = counted.inFlight ∧ counted.shared.inflight = 0
  | _ => True

structure Inv (history : List (State R)) (state : State R) : Prop where
  counts : state.shared.inflight = state.inFlight
  timers : ∀ entry ∈ state.shared.armed, entry ∈ state.shared.heap ∨
    state.timer.entry = some entry ∨ entry ∈ state.shared.ended
  timersHeld : state.timer.Holds → state.shared.timersHeld = true
  held : state.main = .queueCheck ∨ state.main = .countCheck → state.shared.inflightHeld = true
  empty : state.main = .countCheck → state.shared.main.isEmpty = true ∨ state.Notifying
  waits : state.InUntimedWait → (state.shared.main.isEmpty = true ∨ state.Notifying) ∧ 0 < state.shared.inflight
  checked : Checked history state

variable {history : List (State R)} {threadCount : Nat}

theorem new_inv : Inv [] (State.new threadCount : State R) where
  counts := by
    simp [State.new, State.inFlight, PriorityQueues.len, MainThread.call, callWeight, Call.weight,
      TimerThread.weight, Worker.weight]
  timers := nofun
  timersHeld := False.elim
  held := nofun
  empty := nofun
  waits := nofun
  checked := trivial

theorem Inv.fires (inv : Inv history state) (fires : Fires state.shared state.timer next.shared next.timer) :
    (∀ entry ∈ next.shared.armed, entry ∈ next.shared.heap ∨ next.timer.entry = some entry ∨
      entry ∈ next.shared.ended) ∧ (next.timer.Holds → next.shared.timersHeld = true) := by
  refine ⟨fun entry member => ?_, fires.held inv.timersHeld⟩
  rcases fires.armed entry member with before | inHeap
  · exact fires.kept entry (inv.timers entry before)
  · exact .inl inHeap

theorem DueChecked.fires {checked : State R} (due : DueChecked checked state)
    (fires : Fires state.shared state.timer next.shared next.timer) : DueChecked checked next :=
  ⟨due.1, fun timer member => fires.runs timer (due.2 timer member)⟩

theorem Inv.thread (inv : Inv history state) (moves : state.Moves next)
    (fires : Fires state.shared state.timer next.shared next.timer) : Inv history next := by
  obtain ⟨timers, timersHeld⟩ := inv.fires fires
  have balance := moves.moves.balance
  have counts := inv.counts
  have atLeast : state.shared.background.len ≤ state.inFlight := by
    rw [State.inFlight]
    omega
  have atLeast' : next.shared.background.len ≤ next.inFlight := by
    rw [State.inFlight]
    omega
  have empty (was : state.shared.main.isEmpty = true ∨ state.Notifying) (still : state.Notifying → next.Notifying) :
      next.shared.main.isEmpty = true ∨ next.Notifying := by
    rcases moves.moves.main with same | notifying
    · rw [same]
      exact was.imp_right still
    · exact .inr notifying
  refine ⟨by omega, timers, timersHeld, ?_, ?_, ?_, ?_⟩
  · rw [moves.main, moves.moves.held]
    exact inv.held
  · rw [moves.main]
    intro at_
    exact empty (inv.empty at_) (moves.moves.frozen (inv.held (.inr at_))).2
  · rintro ⟨at_, parked⟩
    rw [moves.main] at at_
    obtain ⟨parked, positive, still⟩ := moves.moves.parked parked
    obtain ⟨was, waiting⟩ := inv.waits ⟨at_, parked⟩
    exact ⟨empty was still, positive waiting⟩
  · have checked := inv.checked
    unfold Checked at checked ⊢
    rw [moves.main]
    cases at_ : state.main with
    | locking =>
      rw [at_] at checked
      obtain ⟨before, rest, rfl, due⟩ := checked
      exact ⟨before, rest, rfl, due.fires fires⟩
    | queueCheck =>
      rw [at_] at checked
      obtain ⟨locked, before, rest, rfl, due⟩ := checked
      exact ⟨locked, before, rest, rfl, due.fires fires⟩
    | countCheck =>
      rw [at_] at checked
      obtain ⟨queueChecked, locked, before, rest, rfl, queue, same⟩ := checked
      have frozen := (moves.moves.frozen (inv.held (.inr at_))).1
      exact ⟨queueChecked, locked, before, rest, rfl, queue, frozen.trans same⟩
    | returned =>
      rw [at_] at checked
      exact checked
    | _ => trivial

theorem Inv.main {act : Act R} (inv : Inv history state) (accepted : ¬ state.Refused (.main act))
    (stepped : state.step (.main act) = some next) : Inv (state :: history) next := by
  simp only [State.step, Option.pure_def, Option.bind_eq_bind, Option.bind_eq_some_iff,
    Option.some.injEq, Prod.exists] at stepped
  obtain ⟨shared, main, ran, rfl⟩ := stepped
  obtain ⟨balance, arms, comes⟩ := MainThread.step_spec ran fun call called refused => accepted ⟨call, called, refused⟩
  have fires : Fires state.shared state.timer { state with shared, main }.shared
    { state with shared, main }.timer := arms.fires state.timer
  obtain ⟨timers, timersHeld⟩ := inv.fires fires
  have counts := inv.counts
  have checked := inv.checked
  unfold State.inFlight at counts
  have still : shared.inflight = State.inFlight { state with shared, main } := by
    simp only [State.inFlight]
    omega
  cases main with
  | locking =>
    obtain ⟨at_, rfl, free, notDue⟩ := comes
    refine ⟨still, timers, timersHeld, by simp, by simp, by simp [State.InUntimedWait], state, history, rfl, at_, ?_⟩
    intro timer member
    obtain ⟨armed, due⟩ := List.mem_filter.mp member
    rcases inv.timers timer armed with inHeap | left | ended
    · have later := now_lt_of_not_hasDueTimer notDue inHeap
      have due : timer.due ≤ state.shared.now := by simpa using due
      omega
    · refine .inr ?_
      have open_ : ¬ state.timer.Holds := fun holds => by
        rw [inv.timersHeld holds] at free
        cases free
      cases timer_ : state.timer with
      | running entry call =>
        rw [timer_] at left
        cases left
        exact ⟨call, rfl⟩
      | firing entry => exact absurd (timer_ ▸ trivial) open_
      | counted entry => exact absurd (timer_ ▸ trivial) open_
      | _ =>
        rw [timer_] at left
        cases left
    · exact .inl ended
  | queueCheck =>
    obtain ⟨at_, rfl⟩ := comes
    unfold Checked at checked
    rw [at_] at checked
    obtain ⟨before, rest, rfl, due⟩ := checked
    exact ⟨still, timers, timersHeld, fun _ => rfl, by simp, by simp [State.InUntimedWait], state, before,
      rest, rfl, due⟩
  | countCheck =>
    obtain ⟨at_, rfl, empty⟩ := comes
    unfold Checked at checked
    rw [at_] at checked
    obtain ⟨locked, before, rest, rfl, due⟩ := checked
    exact ⟨still, timers, timersHeld, fun _ => inv.held (.inl at_), fun _ => .inl empty,
      by simp [State.InUntimedWait], state, locked, before, rest, rfl, ⟨due, at_, empty, inv.counts⟩, rfl⟩
  | untimedWait =>
    obtain ⟨at_, some, rfl⟩ := comes
    refine ⟨still, timers, timersHeld, by simp, by simp, fun _ => ⟨?_, Nat.pos_of_ne_zero some⟩, trivial⟩
    refine (inv.empty at_).imp_right fun notifying => ?_
    unfold State.Notifying at notifying ⊢
    rw [at_] at notifying
    exact notifying
  | returned =>
    obtain ⟨at_, zero, rfl⟩ := comes
    unfold Checked at checked
    rw [at_] at checked
    obtain ⟨queueChecked, locked, before, rest, rfl, queue, same⟩ := checked
    exact ⟨still, timers, timersHeld, by simp, by simp, by simp [State.InUntimedWait], state, queueChecked,
      locked, before, rest, rfl, queue, same ▸ zero, inv.counts, zero⟩
  | _ => exact ⟨still, timers, timersHeld, by simp, by simp, by simp [State.InUntimedWait], trivial⟩

theorem run_inv (run : Run threadCount history state) : Inv history state := by
  induction run with
  | new => exact new_inv
  | main run act accepted stepped inv => exact inv.main accepted stepped
  | @thread history state next action run accepted others stepped inv =>
    cases action with
    | tick elapsed =>
      cases stepped
      exact inv.thread ⟨.of_eq rfl rfl rfl rfl (.inl rfl) rfl id, rfl⟩
        (.of_eq rfl rfl rfl (fun _ => id) (fun _ => id) id)
    | spawn =>
      cases stepped
      refine inv.thread ⟨.of_eq rfl rfl rfl rfl (.inl rfl) ?_ ?_, rfl⟩
        (.of_eq rfl rfl rfl (fun _ => id) (fun _ => id) id)
      · simp [State.inFlight, callWeight, Call.weight]
      · simp only [State.Notifying, List.mem_append]
        exact Or.imp_right (Or.imp_right (Or.imp_right .inl))
    | main act => exact absurd rfl (others act)
    | timer act =>
      have moves := timer_moves inv.counts accepted stepped
      simp only [State.step, Option.pure_def, Option.bind_eq_bind, Option.bind_eq_some_iff,
        Option.some.injEq, Prod.exists] at stepped
      obtain ⟨shared, timer, ran, rfl⟩ := stepped
      exact inv.thread moves (TimerThread.step_fires ran fun call called refused => accepted ⟨call, called, refused⟩)
    | worker i act =>
      obtain ⟨moves, arms, same⟩ := worker_moves inv.counts accepted stepped
      exact inv.thread moves (same ▸ arms.fires state.timer)
    | other i act =>
      obtain ⟨moves, arms, same⟩ := other_moves accepted stepped
      exact inv.thread moves (same ▸ arms.fires state.timer)

theorem quiet_of_inFlight (none : state.inFlight = 0) : state.Quiet := by
  unfold State.inFlight at none
  refine ⟨PriorityQueues.isEmpty_iff.mpr (by omega), fun worker member call same => ?_,
    fun entry call same => ?_, fun call at_ => ?_⟩
  · have atMost := List.single_le_sum (fun _ _ => Nat.zero_le _) _ (List.mem_map_of_mem (f := Worker.weight) member)
    rw [same, Worker.weight] at atMost
    omega
  · rw [same, TimerThread.weight] at none
    omega
  · rcases at_ with at_ | member
    · rw [at_] at none
      have weight : callWeight (some call) = call.weight := rfl
      omega
    · have atMost := List.single_le_sum (fun _ _ => Nat.zero_le _) _ (List.mem_map_of_mem (f := callWeight) member)
      have weight : callWeight (some call) = call.weight := rfl
      omega

/-- In a run in which no send of a background runnable is refused: while the main thread waits without a
time limit, its queue is empty and something is in flight, or a thread is about to notify it; and when
`run_until_idle` has returned, its last check found the queue empty and nothing in flight, and every timer
that was due at the due-timer check before it had run. -/
theorem quiescence (run : Run threadCount history state) :
    (state.InUntimedWait → (state.shared.main.isEmpty = true ∧ 0 < state.inFlight) ∨ state.Notifying) ∧
    (state.main = .returned → ∃ counted queueChecked locked checked rest,
      history = counted :: queueChecked :: locked :: checked :: rest ∧
      checked.main = .dueCheck ∧ queueChecked.main = .queueCheck ∧
      queueChecked.shared.main.isEmpty = true ∧ queueChecked.Quiet ∧ counted.Quiet ∧
      ∀ timer ∈ checked.dueTimers, timer ∈ queueChecked.shared.ended) := by
  have inv := run_inv run
  refine ⟨fun waits => ?_, fun at_ => ?_⟩
  · obtain ⟨empty, positive⟩ := inv.waits waits
    rw [inv.counts] at positive
    exact empty.imp_left fun empty => ⟨empty, positive⟩
  · have checked := inv.checked
    unfold Checked at checked
    rw [at_] at checked
    obtain ⟨counted, queueChecked, locked, before, rest, rfl, queue, zero, counts, none⟩ := checked
    have quiet := quiet_of_inFlight (queue.counts.symm.trans zero)
    refine ⟨counted, queueChecked, locked, before, rest, rfl, queue.due.1, queue.main, queue.empty, quiet,
      quiet_of_inFlight (counts.symm.trans none), fun timer member => ?_⟩
    rcases queue.due.2 timer member with ended | ⟨call, runs⟩
    · exact ended
    · exact absurd runs (quiet.timer timer call)

/-- A background runnable that no worker has taken yet keeps the main thread waiting. -/
theorem queued_quiescent : ∃ history state, Run 2 history (state : State Unit) ∧ state.InUntimedWait ∧
    ((state.shared.main.isEmpty = true ∧ 0 < state.inFlight) ∨ state.Notifying) := by
  have accepted {state : State Unit} {act : Act Unit} {call : Call Unit} (at_ : state.main.call = some call)
      (taken : ¬ call.Refused state.shared act) : ¬ state.Refused (.main act) := by
    rintro ⟨call', same, refused⟩
    cases at_.symm.trans same
    exact taken refused
  have outside {state : State Unit} {act : Act Unit} (at_ : state.main.call = none) : ¬ state.Refused (.main act) := by
    rintro ⟨call', same, refused⟩
    cases at_.symm.trans same
  have started : Run 2 [] (State.new 2 : State Unit) := .new
  have dispatched := started.main (.dispatch .low ()) (accepted rfl id) rfl
  have found := dispatched.main .findReceiver (accepted rfl nofun) rfl
  have pushed := found.main .push (accepted rfl nofun) rfl
  have draining := pushed.main (.next 0 0 0) (accepted rfl id) rfl
  have dueCheck := draining.main (.next 0 0 0) (outside rfl) rfl
  have locking := dueCheck.main (.next 0 0 0) (outside rfl) rfl
  have queueCheck := locking.main (.next 0 0 0) (outside rfl) rfl
  have countCheck := queueCheck.main (.next 0 0 0) (outside rfl) rfl
  have waiting := countCheck.main (.next 0 0 0) (outside rfl) rfl
  exact ⟨_, _, waiting, ⟨rfl, rfl⟩, (quiescence waiting).1 ⟨rfl, rfl⟩⟩

/-- Both workers panic, and a third dispatch raises the count and finds no receiver; the main thread then
waits for nothing. -/
theorem refused_waits : ∃ state : State Unit, (State.new 2).run
      [.spawn, .other 0 (.dispatch .low ()), .other 0 .findReceiver, .other 0 .push,
        .other 0 (.dispatch .low ()), .other 0 .findReceiver, .other 0 .push,
        .worker 0 (.next 0 0 0), .worker 0 .panic, .worker 0 (.next 0 0 0), .worker 0 (.next 0 0 0),
        .worker 1 (.next 0 0 0), .worker 1 .panic, .worker 1 (.next 0 0 0), .worker 1 (.next 0 0 0),
        .other 0 (.dispatch .low ()), .other 0 .findReceiver,
        .main (.next 0 0 0), .main (.next 0 0 0), .main (.next 0 0 0), .main (.next 0 0 0),
        .main (.next 0 0 0), .main (.next 0 0 0)] = some state ∧
    state.InUntimedWait ∧ ¬ ((state.shared.main.isEmpty = true ∧ 0 < state.inFlight) ∨ state.Notifying) := by
  refine ⟨_, rfl, ⟨rfl, rfl⟩, ?_⟩
  rintro (⟨-, some⟩ | notifying | notifying | ⟨worker, member, notifying⟩ | member)
  · exact absurd some (by decide)
  · cases notifying
  · cases notifying
  · have gone : worker ∈ List.replicate 2 Worker.gone := member
    rw [List.eq_of_mem_replicate gone] at notifying
    cases notifying
  · have gone : some Call.notifying ∈ [(none : Option (Call Unit))] := member
    cases List.mem_singleton.mp gone

end Pinrail.Threaded

import Pinrail.Lib.Agenda
import Pinrail.Scheduler.Step

/-!
# Advancing the clock

The calls of the test scheduler that return, with the code of the test and of its tasks as any sequence of
calls. The timers are also the entries of an agenda on the clock, which tells those that expire at one time
apart by when they were created.
-/

namespace Pinrail.Scheduler
open Lib

structure TestScheduler (R : Type) where
  state : SchedulerState R
  agenda : Agenda := {}
  agrees : state.timers = agenda.entries.map Agenda.Entry.due

variable {R : Type}

/-! ## Timers -/

theorem timers_sorted (scheduler : TestScheduler R) : scheduler.state.timers.Pairwise (· ≤ ·) := by
  rw [scheduler.agrees]
  exact List.pairwise_map.mpr (scheduler.agenda.sorted.imp Agenda.Entry.Before.due_le)

theorem timer_timers (scheduler : TestScheduler R) (delay : Nat) :
    (scheduler.state.timer (scheduler.agenda.now + delay)).timers =
      (scheduler.agenda.enter delay).entries.map Agenda.Entry.due := by
  have sorted : (scheduler.state.timer (scheduler.agenda.now + delay)).timers.Pairwise (· ≤ ·) := sorted_sortBy_key id _
  have entered : ((scheduler.agenda.enter delay).entries.map Agenda.Entry.due).Pairwise (· ≤ ·) :=
    List.pairwise_map.mpr ((scheduler.agenda.enter delay).sorted.imp Agenda.Entry.Before.due_le)
  have perm : (scheduler.state.timer (scheduler.agenda.now + delay)).timers.Perm
      ((scheduler.agenda.enter delay).entries.map Agenda.Entry.due) := by
    have sorting : (scheduler.state.timer (scheduler.agenda.now + delay)).timers.Perm
        (scheduler.state.timers ++ [scheduler.agenda.now + delay]) := perm_sortBy
    apply (sorting.trans (List.perm_append_singleton ..)).trans
    rw [scheduler.agrees, Agenda.enter, List.map_append, List.map_cons]
    apply (List.perm_middle.trans _).symm
    rw [← List.map_append, List.takeWhile_append_dropWhile]
  exact perm.eq_of_pairwise (fun _ _ _ _ => Nat.le_antisymm) sorted entered

namespace TestScheduler

def now (self : TestScheduler R) : Nat := self.agenda.now

def keep (self : TestScheduler R) (state : SchedulerState R) (same : state.timers = self.state.timers) :
    TestScheduler R where
  state := state
  agenda := self.agenda
  agrees := same.trans self.agrees

def timer (self : TestScheduler R) (duration : Nat) : TestScheduler R where
  state := self.state.timer (self.now + duration)
  agenda := self.agenda.enter duration
  agrees := timer_timers self duration

/-- `TestClock::advance`. -/
def advance (self : TestScheduler R) (duration : Nat) : TestScheduler R :=
  { self with agenda := self.agenda.advance duration }

def expire (self : TestScheduler R) : TestScheduler R where
  state := { self.state with
    timers := self.state.timers.drop (self.state.timers.takeWhile (· ≤ self.now)).length }
  agenda := self.agenda.serve
  agrees := by
    rw [drop_takeWhile_length, self.agrees, List.dropWhile_map]
    rfl

end TestScheduler

theorem scheduleLocal_timers {state after : SchedulerState R} {sessionId : SessionId} {runnable : R} {draw : Nat}
    (ran : state.scheduleLocal sessionId runnable draw = .ok after) : after.timers = state.timers := by
  obtain ⟨front, back, -, -, inserted⟩ := state.scheduleLocal_spec sessionId runnable draw
  rw [ran] at inserted
  cases inserted
  rfl

theorem scheduleBackground_timers {state after : SchedulerState R} {runnable : R} {priority : Priority} {draw : Nat}
    (ran : state.scheduleBackgroundWithPriority runnable priority draw = .ok after) : after.timers = state.timers := by
  obtain ⟨front, back, -, inserted⟩ := state.scheduleBackground_spec runnable priority draw
  rw [ran] at inserted
  cases inserted
  rfl

theorem run_timers {state after : SchedulerState R} {now : Nat} {backgroundOnly : Bool} {draw : Nat}
    {runnable : ScheduledRunnable R} (ran : state.stepFiltered now backgroundOnly draw = .ok (.run runnable, after)) :
    after.timers = state.timers := by
  rcases state.stepFiltered_spec now backgroundOnly draw with ⟨work, found, same, stepped⟩ | overflow
  · rw [ran] at same
    cases same
    cases stepped
    rfl
  · rw [ran] at overflow
    cases overflow

/-! ## Calls -/

inductive Routine where
  | wakers
  | code
  | clockAdvance (duration : Nat)
  | timer (duration : Nat)
  | block (sessionId : Option SessionId)
  | stepFiltered (backgroundOnly : Bool) (stepped : Bool)
  | run
  | advanceClockToNextTimer
  | advancing (nextNow : Nat)
  | advanceClock (duration : Nat)
deriving DecidableEq

abbrev Event := Bool × Agenda.Event

/-- The executions that return. Code of the test and of the tasks may make any calls, nested in any way; a task
is any such code. -/
inductive Exec : Routine → TestScheduler R → List Event → TestScheduler R → Prop where
  | woken (self : TestScheduler R) : Exec .wakers self [] self
  | scheduleLocal {self after : TestScheduler R} {events : List Event} (sessionId : SessionId) (runnable : R)
      (draw : Nat) {state : SchedulerState R}
      (ran : self.state.scheduleLocal sessionId runnable draw = .ok state)
      (rest : Exec .wakers (self.keep state (scheduleLocal_timers ran)) events after) :
      Exec .wakers self events after
  | scheduleBackground {self after : TestScheduler R} {events : List Event} (runnable : R) (priority : Priority)
      (draw : Nat) {state : SchedulerState R}
      (ran : self.state.scheduleBackgroundWithPriority runnable priority draw = .ok state)
      (rest : Exec .wakers (self.keep state (scheduleBackground_timers ran)) events after) :
      Exec .wakers self events after
  /-- Code of the test or of a task makes calls, one after another. -/
  | returns (self : TestScheduler R) : Exec .code self [] self
  | call {self between after : TestScheduler R} {events later : List Event} {routine : Routine}
      (first : Exec routine self events between) (rest : Exec .code between later after) :
      Exec .code self (events ++ later) after
  | clockAdvance (self : TestScheduler R) (duration : Nat) :
      Exec (.clockAdvance duration) self [(false, .moved (self.now + duration))] (self.advance duration)
  | timer (self : TestScheduler R) (duration : Nat) : Exec (.timer duration) self [] (self.timer duration)
  /-- `block_until` polls its future, makes steps and advances the clock, in some order. -/
  | block {self after : TestScheduler R} {events : List Event} (sessionId : Option SessionId) (loop : Exec .code
        (self.keep { self.state with
          blockedSessions := self.state.blockedSessions ++ sessionId.toList } rfl) events after) :
      Exec (.block sessionId) self events (after.keep { after.state with
          blockedSessions :=
            if sessionId.isSome then after.state.blockedSessions.dropLast
            else after.state.blockedSessions } rfl)
  | expired {self after : TestScheduler R} {events : List Event} {backgroundOnly : Bool} (draw : Nat)
      (ran : self.state.stepFiltered self.now backgroundOnly draw = .ok (.expired, self.expire.state))
      (wakers : Exec .wakers self.expire events after) :
      Exec (.stepFiltered backgroundOnly true) self
        (self.agenda.due.map (fun entry => (false, .served entry self.now)) ++ events) after
  | ran {self after : TestScheduler R} {events : List Event} {backgroundOnly : Bool}
      (draw : Nat) {runnable : ScheduledRunnable R} {state : SchedulerState R}
      (ran : self.state.stepFiltered self.now backgroundOnly draw = .ok (.run runnable, state))
      (task : Exec .code (self.keep { state with isMainThread := runnable.sessionId.isSome }
          (run_timers ran : state.timers = self.state.timers)) events after) :
      Exec (.stepFiltered backgroundOnly true) self (events.map fun event => (true, event.2))
        (after.keep { after.state with isMainThread := state.isMainThread } rfl)
  | idle {self : TestScheduler R} {backgroundOnly : Bool} (draw : Nat)
      (ran : self.state.stepFiltered self.now backgroundOnly draw = .ok (.idle, self.state)) :
      Exec (.stepFiltered backgroundOnly false) self [] self
  | runDone {self after : TestScheduler R} {events : List Event}
      (step : Exec (.stepFiltered false false) self events after) : Exec .run self events after
  | runOn {self between after : TestScheduler R} {events later : List Event}
      (step : Exec (.stepFiltered false true) self events between) (rest : Exec .run between later after) :
      Exec .run self (events ++ later) after
  | toNextTimer {self : TestScheduler R} {expiration : Nat} (first : self.state.timers.head? = some expiration) :
      Exec .advanceClockToNextTimer self [(false, .moved (self.now + (expiration - self.now)))]
        (self.advance (expiration - self.now))
  | noTimer {self : TestScheduler R} (none : self.state.timers.head? = none) :
      Exec .advanceClockToNextTimer self [] self
  | jump {self between after : TestScheduler R} {events later : List Event} {nextNow expiration : Nat}
      (run : Exec .run self events between) (first : between.state.timers.head? = some expiration)
      (due : expiration ≤ nextNow)
      (rest : Exec (.advancing nextNow) (between.advance (expiration - between.now)) later after) :
      Exec (.advancing nextNow) self
        (events ++ (false, .moved (between.now + (expiration - between.now))) :: later) after
  | stop {self between : TestScheduler R} {events : List Event} {nextNow : Nat} (run : Exec .run self events between)
      (none : ∀ expiration, between.state.timers.head? = some expiration → ¬ expiration ≤ nextNow) :
      Exec (.advancing nextNow) self (events ++ [(false, .moved (between.now + (nextNow - between.now)))])
        (between.advance (nextNow - between.now))
  | advanceClock {self after : TestScheduler R} {events : List Event} {duration : Nat}
      (loop : Exec (.advancing (self.now + duration)) self events after) :
      Exec (.advanceClock duration) self events after

/-! ## Events -/

variable {before after : TestScheduler R} {events : List Event} {routine : Routine} {nextNow duration : Nat}

theorem Exec.follows (exec : Exec routine before events after) :
    Agenda.Follows before.agenda (events.map Prod.snd) after.agenda := by
  induction exec with
  | woken self => exact .refl _
  | scheduleLocal sessionId runnable draw ran rest ih => exact ih
  | scheduleBackground runnable priority draw ran rest ih => exact ih
  | returns self => exact .refl _
  | call first rest ihFirst ihRest =>
    rw [List.map_append]
    exact ihFirst.trans ihRest
  | clockAdvance self duration => exact .advance duration (.refl _)
  | timer self duration => exact .enter duration (.refl _)
  | block sessionId loop ih => exact ih
  | expired draw ran wakers ih =>
    rw [List.map_append, List.map_map]
    exact .serve ih
  | ran draw ran task ih =>
    rw [List.map_map]
    exact ih
  | idle draw ran => exact .refl _
  | runDone step ih => exact ih
  | runOn step rest ihStep ihRest =>
    rw [List.map_append]
    exact ihStep.trans ihRest
  | toNextTimer first => exact .advance _ (.refl _)
  | noTimer none => exact .refl _
  | jump run first due rest ihRun ihRest =>
    rw [List.map_append, List.map_cons]
    exact ihRun.trans (.advance _ ihRest)
  | stop run none ih =>
    rw [List.map_append]
    exact ih.trans (.advance _ (.refl _))
  | advanceClock loop ih => exact ih

def Routine.leavesClock : Routine → Prop
  | .wakers => True
  | .stepFiltered .. => True
  | .run => True
  | _ => False

theorem Exec.moved_by_task (exec : Exec routine before events after) (leaves : routine.leavesClock) {now : Nat}
    {byTask : Bool} (moved : (byTask, .moved now) ∈ events) : byTask = true := by
  induction exec with
  | woken self => cases moved
  | scheduleLocal sessionId runnable draw ran rest ih => exact ih trivial moved
  | scheduleBackground runnable priority draw ran rest ih => exact ih trivial moved
  | expired draw ran wakers ih =>
    rcases List.mem_append.mp moved with here | later
    · obtain ⟨entry, -, same⟩ := List.mem_map.mp here
      cases same
    · exact ih trivial later
  | ran draw ran task ih =>
    obtain ⟨event, -, same⟩ := List.mem_map.mp moved
    exact (congrArg Prod.fst same).symm
  | idle draw ran => cases moved
  | runDone step ih => exact ih trivial moved
  | runOn step rest ihStep ihRest =>
    rcases List.mem_append.mp moved with here | later
    · exact ihStep trivial here
    · exact ihRest trivial later
  | _ => exact leaves.elim

theorem Exec.run_now_le (exec : Exec .run before events after) (start : before.now ≤ nextNow)
    (tasks : ∀ now, (true, .moved now) ∈ events → now ≤ nextNow) : after.now ≤ nextNow := by
  rcases exec.follows.now_eq with same | moved
  · exact same.trans_le start
  · obtain ⟨⟨byTask, event⟩, member, same⟩ := List.mem_map.mp moved
    dsimp only at same
    subst same
    obtain rfl := exec.moved_by_task trivial member
    exact tasks _ member

theorem Exec.advancing_timers (exec : Exec (.advancing nextNow) before events after) :
    ∀ expiration ∈ after.state.timers, nextNow < expiration := by
  generalize same : Routine.advancing nextNow = routine at exec
  induction exec with
  | jump run first due rest ihRun ihRest => exact ihRest same
  | stop run none ih =>
    rename_i self between events nextNow'
    cases same
    intro expiration member
    have sorted := timers_sorted between
    cases timers : between.state.timers with
    | nil =>
      rw [show (between.advance _).state.timers = between.state.timers from rfl, timers] at member
      cases member
    | cons first others =>
      rw [show (between.advance _).state.timers = between.state.timers from rfl, timers] at member
      have late := Nat.lt_of_not_le (none first (by rw [timers]; rfl))
      rw [timers] at sorted
      rcases List.mem_cons.mp member with rfl | later
      · exact late
      · exact Nat.lt_of_lt_of_le late ((List.pairwise_cons.mp sorted).1 expiration later)
  | _ => cases same

theorem Exec.advancing_now (exec : Exec (.advancing nextNow) before events after) (start : before.now ≤ nextNow)
    (tasks : ∀ now, (true, .moved now) ∈ events → now ≤ nextNow) : after.now = nextNow := by
  generalize same : Routine.advancing nextNow = routine at exec
  induction exec with
  | jump run first due rest ihRun ihRest =>
    cases same
    have reached := run.run_now_le start fun now member => tasks now (List.mem_append_left _ member)
    apply ihRest _ (fun now member => tasks now (List.mem_append_right _ (List.mem_cons_of_mem _ member))) rfl
    show _ + (_ - _) ≤ _
    unfold TestScheduler.now at reached ⊢
    omega
  | stop run none ih =>
    cases same
    have reached := run.run_now_le start fun now member => tasks now (List.mem_append_left _ member)
    show _ + (_ - _) = _
    exact Nat.add_sub_cancel' reached
  | _ => cases same

/-- `advance_clock` fires timers in order and none early, moves the clock only forward, to where it should be
unless a task moves it further, and leaves no timer behind that expires by then. -/
theorem advanceClock_fires (returned : Exec (.advanceClock duration) before events after) :
    (Agenda.served (events.map Prod.snd)).Pairwise Agenda.Entry.Before ∧
    (∀ timer now, .served timer now ∈ events.map Prod.snd → timer.due ≤ now) ∧
    (∀ expiration ∈ after.state.timers, before.now + duration < expiration) ∧
    (before.now :: ((events.map Prod.snd).map Agenda.Event.time ++ [after.now])).Pairwise (· ≤ ·) ∧
    ((∀ now, (true, .moved now) ∈ events → now ≤ before.now + duration) → after.now = before.now + duration) := by
  have orderly := returned.follows.orderly
  cases returned with
  | advanceClock loop =>
    refine ⟨?_, orderly.timely, loop.advancing_timers, orderly.clock, ?_⟩
    · exact (List.pairwise_append.mp orderly.line).1
    · exact loop.advancing_now (Nat.le_add_right _ _)

def alarm : TestScheduler Nat :=
  TestScheduler.timer ⟨{ randomizeOrder := false, allowParking := false }, {}, rfl⟩ 5

theorem alarm_returns : ∃ events after, Exec (.advanceClock 10) alarm events after ∧
    events = [(false, .moved 5), (false, .served ⟨5, 0⟩ 5), (false, .moved 8), (false, .served ⟨8, 1⟩ 8),
      (false, .moved 10)] := by
  refine ⟨_, _, .advanceClock (.jump (.runDone (.idle 0 rfl)) rfl (by decide) (.jump (.runOn (.expired 0 rfl
    (.scheduleLocal 1 7 0 rfl (.woken _))) (.runOn (.ran 0 rfl (.call (.timer _ 3) (.returns _)))
    (.runDone (.idle 0 rfl)))) rfl (by decide) (.stop (.runOn (.expired 0 rfl (.woken _))
    (.runDone (.idle 0 rfl))) fun _ first => absurd first.symm (Option.some_ne_none _)))), rfl⟩

theorem advanceClock_fires_alarm : ∃ events after, Exec (.advanceClock 10) alarm events after ∧ after.now = 10 ∧
    Agenda.served (events.map Prod.snd) = [⟨5, 0⟩, ⟨8, 1⟩] ∧
    (Agenda.served (events.map Prod.snd)).Pairwise Agenda.Entry.Before := by
  obtain ⟨events, after, returned, rfl⟩ := alarm_returns
  obtain ⟨order, -, -, -, reached⟩ := advanceClock_fires returned
  refine ⟨_, after, returned, reached ?_, rfl, order⟩
  simp

end Pinrail.Scheduler

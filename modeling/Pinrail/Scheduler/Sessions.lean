import Pinrail.Scheduler.Step

/-!
# Order within sessions

Runs of the test scheduler. What a runnable does while it runs, and what a future does while it is
polled, are further steps over a stack of the calls in progress, so that calls may nest; schedules may
also come from elsewhere at any time. The machine keeps what was scheduled and what was started.
-/

namespace Pinrail.Scheduler
open Lib Lib.Lanes

/-- Where a call of `block_until` stands. -/
inductive Phase where
  | looping
  | polling
  | stepping (stepped : Option Bool)
  | settling (stepped : Bool)
deriving DecidableEq

/-- A call of `block_until`. -/
structure Block where
  sessionId : Option SessionId
  hasDeadline : Bool
  ticksLeft : Nat
  phase : Phase
deriving DecidableEq

inductive Call (R : Type) where
  | run (runnable : ScheduledRunnable R) (wasMainThread : Bool)
  | block (block : Block)
deriving DecidableEq

def Call.blocks {R : Type} : Call R → Option SessionId
  | .run .. => none
  | .block entered => entered.sessionId

structure Machine (R : Type) where
  state : SchedulerState R
  now : Nat := 0
  calls : List (Call R) := []
  scheduled : List (ScheduledRunnable R) := []
  started : List (ScheduledRunnable R) := []

variable {R : Type}

namespace Machine

def UserCode (self : Machine R) : Prop :=
  match self.calls with
  | [] => True
  | .run .. :: _ => True
  | .block block :: _ => block.phase = .polling

def perform (self : Machine R) (state : SchedulerState R) : Work R → Machine R
  | .run runnable =>
    { self with
      state := { state with isMainThread := runnable.sessionId.isSome }
      calls := .run runnable state.isMainThread :: self.calls
      started := self.started ++ [runnable] }
  | _ => { self with state := state }

def setPhase (self : Machine R) (block : Block) (phase : Phase) (calls : List (Call R)) : Machine R :=
  { self with calls := .block { block with phase := phase } :: calls }

/-- The start of `block_until`. -/
def enterBlock (self : Machine R) (block : Block) : Machine R :=
  { self with
    state := { self.state with
      blockedSessions := self.state.blockedSessions ++ block.sessionId.toList }
    calls := .block block :: self.calls }

/-- The end of `block_until`. -/
def leaveBlock (self : Machine R) (block : Block) (calls : List (Call R)) : Machine R :=
  { self with
    state := { self.state with
      blockedSessions :=
        if block.sessionId.isSome then self.state.blockedSessions.dropLast
        else self.state.blockedSessions }
    calls := calls }

end Machine

/-- Whether the loop over `random()` goes on after a step, and how it is left otherwise. -/
def Phase.afterStep (stepped : Option Bool) : Work R → Phase
  | .idle => .settling (stepped.getD false)
  | _ => .stepping (some true)

inductive Step (machine : Machine R) : Machine R → Prop where
  | scheduleLocal (sessionId : SessionId) (runnable : R) (draw : Nat) {state : SchedulerState R}
      (ran : machine.state.scheduleLocal sessionId runnable draw = .ok state) :
      Step machine { machine with
        state := state
        scheduled := machine.scheduled ++ [⟨some sessionId, .medium, runnable⟩] }
  | scheduleBackground (runnable : R) (priority : Priority) (draw : Nat) {state : SchedulerState R}
      (ran : machine.state.scheduleBackgroundWithPriority runnable priority draw = .ok state) :
      Step machine { machine with
        state := state
        scheduled := machine.scheduled ++ [⟨none, priority, runnable⟩] }
  | timer (duration : Nat) : Step machine { machine with state := machine.state.timer (machine.now + duration) }
  | advanceClock (duration : Nat) : Step machine { machine with now := machine.now + duration }
  | setParking (allowParking : Bool) :
      Step machine { machine with state := { machine.state with allowParking := allowParking } }
  | tick (user : machine.UserCode) (backgroundOnly : Bool) (draw : Nat) {work : Work R} {state : SchedulerState R}
      (ran : machine.state.stepFiltered machine.now backgroundOnly draw = .ok (work, state)) :
      Step machine (machine.perform state work)
  | returns {runnable : ScheduledRunnable R} {wasMainThread : Bool} {calls : List (Call R)}
      (top : machine.calls = .run runnable wasMainThread :: calls) :
      Step machine { machine with
        state := { machine.state with isMainThread := wasMainThread }
        calls := calls }
  | block (user : machine.UserCode) (sessionId : Option SessionId) (hasDeadline : Bool)
      (maxTicks : Nat) : Step machine (machine.enterBlock ⟨sessionId, hasDeadline, maxTicks, .looping⟩)
  | exhausted {block : Block} {calls : List (Call R)} (top : machine.calls = .block block :: calls)
      (phase : block.phase = .looping) (exhausted : block.ticksLeft = 0) :
      Step machine (machine.leaveBlock block calls)
  | poll {block : Block} {calls : List (Call R)} (top : machine.calls = .block block :: calls)
      (phase : block.phase = .looping) (more : 0 < block.ticksLeft) :
      Step machine (machine.setPhase { block with ticksLeft := block.ticksLeft - 1 } .polling calls)
  | ready {block : Block} {calls : List (Call R)} (top : machine.calls = .block block :: calls)
      (phase : block.phase = .polling) : Step machine (machine.leaveBlock block calls)
  | pending {block : Block} {calls : List (Call R)} (top : machine.calls = .block block :: calls)
      (phase : block.phase = .polling) : Step machine (machine.setPhase block (.stepping none) calls)
  /-- `random()` is true. -/
  | step {block : Block} {calls : List (Call R)} (top : machine.calls = .block block :: calls)
      {stepped : Option Bool} (phase : block.phase = .stepping stepped) (draw : Nat) {work : Work R}
      {state : SchedulerState R}
      (ran : machine.state.stepFiltered machine.now false draw = .ok (work, state)) :
      Step machine ((machine.setPhase block (.afterStep stepped work) calls).perform state work)
  /-- `random()` is false. -/
  | stopStepping {block : Block} {calls : List (Call R)} (top : machine.calls = .block block :: calls)
      {stepped : Option Bool} (phase : block.phase = .stepping stepped) :
      Step machine (machine.setPhase block (.settling (stepped.getD true)) calls)
  | goOn {block : Block} {calls : List (Call R)} (top : machine.calls = .block block :: calls)
      {stepped : Bool} (phase : block.phase = .settling stepped) (awoken : Bool)
      (progress : stepped = true ∨ awoken = true) :
      Step machine (machine.setPhase block .looping calls)
  | nextTimer {block : Block} {calls : List (Call R)} (top : machine.calls = .block block :: calls)
      (phase : block.phase = .settling false) (forbidden : machine.state.allowParking = false)
      {expiration : Nat} (first : machine.state.timers.head? = some expiration) :
      Step machine ({ machine with now := machine.now + (expiration - machine.now) }.setPhase block .looping calls)
  /-- The thread parks and is woken, by a timer or by another thread. -/
  | park {block : Block} {calls : List (Call R)} (top : machine.calls = .block block :: calls)
      (phase : block.phase = .settling false) (allowed : machine.state.allowParking = true)
      (elapsed : Nat) (unparked : Bool) :
      Step machine ({ machine with
        now := machine.now + elapsed
        state := { machine.state with unparked := unparked } }.setPhase block .looping calls)
  /-- The deadline is reached, at once where parking is forbidden. -/
  | timeOut {block : Block} {calls : List (Call R)} (top : machine.calls = .block block :: calls)
      (phase : block.phase = .settling false) (deadline : block.hasDeadline = true)
      (stuck : machine.state.allowParking = true ∨ machine.state.timers = []) (elapsed : Nat) :
      Step machine ({ machine with now := machine.now + elapsed }.leaveBlock block calls)

inductive Reachable : Machine R → Prop where
  | new (randomizeOrder allowParking : Bool) :
      Reachable ⟨{ randomizeOrder := randomizeOrder, allowParking := allowParking }, 0, [], [], []⟩
  | step {machine after : Machine R} (reachable : Reachable machine) (step : Step machine after) : Reachable after

/-! ## Steps -/

structure Inv (machine : Machine R) : Prop where
  conserves : Conserves ScheduledRunnable.sessionId (fun sessionId => sessionId.isSome = true)
    machine.scheduled machine.started machine.state.runnables
  blocked : machine.state.blockedSessions = (machine.calls.filterMap Call.blocks).reverse

variable {machine after : Machine R}

theorem enterBlock_inv (inv : Inv machine) (block : Block) : Inv (machine.enterBlock block) where
  conserves := inv.conserves
  blocked := by
    simp only [Machine.enterBlock, inv.blocked]
    cases session : block.sessionId with
    | none =>
      rw [List.filterMap_cons_none (by exact session)]
      exact List.append_nil _
    | some sessionId =>
      rw [List.filterMap_cons_some (by exact session), List.reverse_cons]
      rfl

theorem leaveBlock_inv (inv : Inv machine) {block : Block} {calls : List (Call R)}
    (top : machine.calls = .block block :: calls) : Inv (machine.leaveBlock block calls) where
  conserves := inv.conserves
  blocked := by
    have before := inv.blocked
    rw [top] at before
    simp only [Machine.leaveBlock]
    cases session : block.sessionId with
    | none =>
      rw [List.filterMap_cons_none (by exact session)] at before
      exact before
    | some sessionId =>
      rw [List.filterMap_cons_some (by exact session), List.reverse_cons] at before
      rw [before]
      exact List.dropLast_concat

theorem setPhase_inv (inv : Inv machine) {block : Block} {calls : List (Call R)}
    (top : machine.calls = .block block :: calls) (ticksLeft : Nat) (phase : Phase) :
    Inv (machine.setPhase { block with ticksLeft := ticksLeft } phase calls) where
  conserves := inv.conserves
  blocked := by
    have before := inv.blocked
    rw [top] at before
    exact before

theorem perform_inv (inv : Inv machine) {backgroundOnly : Bool} {work : Work R} {state : SchedulerState R}
    (stepped : SchedulerState.Stepped machine.state backgroundOnly work state) : Inv (machine.perform state work) := by
  cases stepped with
  | expired timers => exact ⟨inv.conserves, inv.blocked⟩
  | idle waits => exact inv
  | run split first =>
    have conserves := inv.conserves
    rw [split] at conserves
    refine ⟨conserves.leave ?_, inv.blocked⟩
    intro served other member
    obtain ⟨sessionId, session⟩ := Option.isSome_iff_exists.mp served
    rw [session]
    exact (first sessionId session).2.2 other member

theorem stepped_of_ran {state after : SchedulerState R} {now : Nat} {backgroundOnly : Bool} {draw : Nat} {work : Work R}
    (ran : state.stepFiltered now backgroundOnly draw = .ok (work, after)) :
    SchedulerState.Stepped state backgroundOnly work after := by
  rcases state.stepFiltered_spec now backgroundOnly draw with ⟨work', after', same, stepped⟩ | overflow
  · rw [ran] at same
    cases same
    exact stepped
  · rw [ran] at overflow
    cases overflow

theorem step_inv (inv : Inv machine) (step : Step machine after) : Inv after := by
  cases step with
  | scheduleLocal sessionId runnable draw ran =>
    obtain ⟨front, back, split, behind, inserted⟩ := machine.state.scheduleLocal_spec sessionId runnable draw
    rw [ran] at inserted
    cases inserted
    have conserves := inv.conserves
    rw [split] at conserves
    exact ⟨conserves.enter fun _ => behind, inv.blocked⟩
  | scheduleBackground runnable priority draw ran =>
    obtain ⟨front, back, split, inserted⟩ := machine.state.scheduleBackground_spec runnable priority draw
    rw [ran] at inserted
    cases inserted
    have conserves := inv.conserves
    rw [split] at conserves
    refine ⟨conserves.enter ?_, inv.blocked⟩
    intro served
    cases served
  | timer duration => exact ⟨inv.conserves, inv.blocked⟩
  | advanceClock duration => exact ⟨inv.conserves, inv.blocked⟩
  | setParking allowParking => exact ⟨inv.conserves, inv.blocked⟩
  | tick user backgroundOnly draw ran => exact perform_inv inv (stepped_of_ran ran)
  | returns top =>
    have before := inv.blocked
    rw [top] at before
    exact ⟨inv.conserves, before⟩
  | block user sessionId hasDeadline maxTicks => exact enterBlock_inv inv _
  | exhausted top phase exhausted => exact leaveBlock_inv inv top
  | poll top phase more => exact setPhase_inv inv top _ _
  | ready top phase => exact leaveBlock_inv inv top
  | pending top phase => exact setPhase_inv inv top _ _
  | step top phase draw ran =>
    exact perform_inv (setPhase_inv inv top _ _) (stepped_of_ran ran)
  | stopStepping top phase => exact setPhase_inv inv top _ _
  | goOn top phase awoken progress => exact setPhase_inv inv top _ _
  | nextTimer top phase forbidden first =>
    rename_i expiration
    have advanced : Inv { machine with now := machine.now + (expiration - machine.now) } := ⟨inv.conserves, inv.blocked⟩
    exact setPhase_inv advanced top _ _
  | park top phase allowed elapsed unparked =>
    have parked : Inv { machine with
        now := machine.now + elapsed
        state := { machine.state with unparked := unparked } } := ⟨inv.conserves, inv.blocked⟩
    exact setPhase_inv parked top _ _
  | timeOut top phase deadline stuck elapsed =>
    have parked : Inv { machine with now := machine.now + elapsed } := ⟨inv.conserves, inv.blocked⟩
    exact leaveBlock_inv parked top

theorem reachable_inv (reachable : Reachable machine) : Inv machine := by
  induction reachable with
  | new => exact ⟨.nil, rfl⟩
  | step reachable step ih => exact step_inv ih step

def Machine.Free (self : Machine R) (sessionId : SessionId) : Prop :=
  ∀ call ∈ self.calls, call.blocks ≠ some sessionId

theorem mem_blocked (inv : Inv machine) {sessionId : SessionId} :
    sessionId ∈ machine.state.blockedSessions ↔ ¬ machine.Free sessionId := by
  rw [inv.blocked, List.mem_reverse, List.mem_filterMap, Machine.Free]
  push Not
  rfl

theorem setPhase_free {block : Block} {calls : List (Call R)} (top : machine.calls = .block block :: calls)
    {ticksLeft : Nat} {phase : Phase} {sessionId : SessionId}
    (free : (machine.setPhase { block with ticksLeft := ticksLeft } phase calls).Free sessionId) :
    machine.Free sessionId := by
  intro call member
  rw [top] at member
  rcases List.mem_cons.mp member with rfl | member
  · exact free (.block { block with ticksLeft := ticksLeft, phase := phase }) List.mem_cons_self
  · exact free call (List.mem_cons_of_mem _ member)

theorem perform_starts (inv : Inv machine) {backgroundOnly : Bool} {work : Work R} {state : SchedulerState R}
    (stepped : SchedulerState.Stepped machine.state backgroundOnly work state) :
    (machine.perform state work).started = machine.started ∨ ∃ runnable,
    (machine.perform state work).started = machine.started ++ [runnable] ∧ ∀ sessionId,
    runnable.sessionId = some sessionId → machine.Free sessionId := by
  cases stepped with
  | expired timers => exact .inl rfl
  | idle waits => exact .inl rfl
  | run split first =>
    refine .inr ⟨_, rfl, ?_⟩
    intro sessionId session
    obtain ⟨-, free, -⟩ := first sessionId session
    rw [mem_blocked inv, not_not] at free
    exact free

theorem step_starts (inv : Inv machine) (step : Step machine after) : after.started = machine.started ∨ ∃ runnable,
    after.started = machine.started ++ [runnable] ∧ ∀ sessionId, runnable.sessionId = some sessionId →
    machine.Free sessionId := by
  cases step with
  | tick user backgroundOnly draw ran => exact perform_starts inv (stepped_of_ran ran)
  | step top phase draw ran =>
    rename_i block calls stepped work state
    rcases perform_starts (setPhase_inv inv top block.ticksLeft (.afterStep stepped work))
      (stepped_of_ran ran) with same | ⟨runnable, started, free⟩
    · exact .inl same
    · exact .inr ⟨runnable, started, fun sessionId session => setPhase_free top (free sessionId session)⟩
  | _ => exact .inl rfl

/-! ## Runs -/

/-- In every run the runnables of a session are started in the order in which they were scheduled, and
only while the session is not blocked; those that have not been started are queued. When a step finds
nothing to do, all runnables of the sessions that are not blocked have been started, and all background
runnables. No schedule panics, and a step only when the weights overflow. -/
theorem sessions_in_order (reachable : Reachable machine) :
    (∀ sessionId, lane ScheduledRunnable.sessionId (some sessionId) machine.scheduled =
      lane ScheduledRunnable.sessionId (some sessionId) machine.started ++
        lane ScheduledRunnable.sessionId (some sessionId) machine.state.runnables) ∧
    (lane ScheduledRunnable.sessionId none machine.scheduled).Perm
      (lane ScheduledRunnable.sessionId none machine.started ++
        lane ScheduledRunnable.sessionId none machine.state.runnables) ∧
    (∀ after, Step machine after → after.started = machine.started ∨
      ∃ runnable, after.started = machine.started ++ [runnable] ∧
        ∀ sessionId, runnable.sessionId = some sessionId → machine.Free sessionId) ∧
    (∀ draw state, machine.state.stepFiltered machine.now false draw = .ok (.idle, state) →
      (∀ sessionId, machine.Free sessionId → lane ScheduledRunnable.sessionId (some sessionId) machine.started =
          lane ScheduledRunnable.sessionId (some sessionId) machine.scheduled) ∧
      (lane ScheduledRunnable.sessionId none machine.started).Perm
        (lane ScheduledRunnable.sessionId none machine.scheduled)) ∧
    (∀ sessionId runnable draw, ∃ state, machine.state.scheduleLocal sessionId runnable draw = .ok state) ∧
    (∀ runnable priority draw, ∃ state,
      machine.state.scheduleBackgroundWithPriority runnable priority draw = .ok state) ∧
    ∀ backgroundOnly draw panic, machine.state.stepFiltered machine.now backgroundOnly draw = .error panic →
        panic = .addOverflow := by
  have inv := reachable_inv reachable
  refine ⟨fun sessionId => inv.conserves.inOrder (some sessionId) rfl, inv.conserves.lane_perm none,
    fun after step => step_starts inv step, ?_, ?_, ?_, ?_⟩
  · intro draw state ran
    cases stepped_of_ran ran with
    | idle waits =>
      constructor
      · intro sessionId free
        refine inv.conserves.lane_done rfl ?_
        intro runnable member session
        obtain ⟨other, same, mode | blocked⟩ := waits runnable member
        · cases mode
        · rw [session] at same
          cases same
          exact (mem_blocked inv).mp blocked free
      · have empty : lane ScheduledRunnable.sessionId none machine.state.runnables = [] := by
          rw [lane_eq_nil]
          intro runnable member session
          obtain ⟨other, same, -⟩ := waits runnable member
          rw [session] at same
          cases same
        have all := inv.conserves.lane_perm none
        rw [empty, List.append_nil] at all
        exact all.symm
  · intro sessionId runnable draw
    obtain ⟨_, _, -, -, inserted⟩ := machine.state.scheduleLocal_spec sessionId runnable draw
    exact ⟨_, inserted⟩
  · intro runnable priority draw
    obtain ⟨_, _, -, inserted⟩ := machine.state.scheduleBackground_spec runnable priority draw
    exact ⟨_, inserted⟩
  · intro backgroundOnly draw panic failed
    rcases machine.state.stepFiltered_spec machine.now backgroundOnly draw with ⟨_, _, ran, -⟩ | overflow
    · rw [failed] at ran
      cases ran
    · rw [failed] at overflow
      cases overflow
      rfl

/-- A background runnable has been run, and a runnable of a session blocks the session of another that
is queued behind it. -/
def nested : Machine Nat where
  state :=
    { runnables := [⟨some 1, .medium, 11⟩]
      blockedSessions := [1]
      randomizeOrder := true
      allowParking := false
      unparked := true }
  calls := [.block ⟨some 1, false, 9, .looping⟩, .run ⟨some 1, .medium, 10⟩ true]
  scheduled := [⟨some 1, .medium, 10⟩, ⟨some 1, .medium, 11⟩, ⟨none, .high, 20⟩]
  started := [⟨none, .high, 20⟩, ⟨some 1, .medium, 10⟩]

theorem nested_reachable : Reachable nested := by
  have new := Reachable.new (R := Nat) true false
  have first := new.step (.scheduleLocal 1 10 0 rfl)
  have second := first.step (.scheduleLocal 1 11 0 rfl)
  have background := second.step (.scheduleBackground 20 .high 0 rfl)
  have started := background.step (.tick (by trivial) false 0 rfl)
  have returned := started.step (.returns rfl)
  have local_ := returned.step (.tick (by trivial) false 0 rfl)
  exact local_.step (.block (by trivial) (some 1) false 9)

theorem nested_in_order : lane ScheduledRunnable.sessionId (some 1) nested.scheduled =
      lane ScheduledRunnable.sessionId (some 1) nested.started ++
        lane ScheduledRunnable.sessionId (some 1) nested.state.runnables :=
  (sessions_in_order nested_reachable).1 1

end Pinrail.Scheduler

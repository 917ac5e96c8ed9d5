import Pinrail.Scheduler.TestScheduler

/-!
# Steps of the test scheduler

Whatever the draws are, a local runnable is inserted behind the runnables of its session, and a step
takes out a runnable that stands in front of all others of its session.
-/

namespace Pinrail.Scheduler
open Lib Lib.Lanes

variable {R : Type} {state after : SchedulerState R} {now draw : Nat}

theorem randomRange_of_lt {low high : Nat} (less : low < high) (draw : Nat) :
    ∃ i, randomRange low high draw = .ok i ∧ low ≤ i ∧ i < high := by
  have bound : draw % (high - low) < high - low := Nat.mod_lt _ (by omega)
  refine ⟨low + draw % (high - low), ?_, by omega, by omega⟩
  rw [randomRange, assert_of less]
  rfl

theorem selectFrom_lt (start : Nat) {weights : List Nat} (positive : 0 < weights.length)
    (target : Nat) : selectFrom start weights target < start + weights.length := by
  induction weights generalizing start target with
  | nil => cases positive
  | cons weight weights ih =>
    rw [selectFrom, List.length_cons]
    split_ifs
    · omega
    · cases weights with
      | nil =>
        rw [selectFrom]
        omega
      | cons next weights =>
        have found := ih (start + 1) (Nat.succ_pos _) (target - weight)
        omega

namespace SchedulerState

/-! ## Insertions -/

theorem insertAt_of_le {xs : List R} {i : Nat} (inside : i ≤ xs.length) (x : R) :
    insertAt xs i x = .ok (xs.take i ++ x :: xs.drop i) := by
  rw [insertAt, assert_of inside]
  rfl

theorem insertionIndex_spec (state : SchedulerState R) {startIx : Nat} (inside : startIx ≤ state.runnables.length)
    (draw : Nat) : ∃ ix, state.insertionIndex startIx draw = .ok ix ∧ startIx ≤ ix ∧ ix ≤ state.runnables.length := by
  unfold insertionIndex
  split_ifs
  · obtain ⟨ix, drawn, low, high⟩ := randomRange_of_lt (Nat.lt_succ_of_le inside) draw
    exact ⟨ix, drawn, low, Nat.le_of_lt_succ high⟩
  · exact ⟨_, rfl, inside, Nat.le_refl _⟩

theorem scheduleLocal_spec (state : SchedulerState R) (sessionId : SessionId) (runnable : R) (draw : Nat) :
    ∃ front back, state.runnables = front ++ back ∧ (∀ other ∈ back, other.sessionId ≠ some sessionId) ∧
      state.scheduleLocal sessionId runnable draw = .ok { state with
        runnables := front ++ ⟨some sessionId, .medium, runnable⟩ :: back
        unparked := true } := by
  obtain ⟨inside, behind⟩ := rposition_spec
    (fun task : ScheduledRunnable R => task.sessionId = some sessionId) state.runnables
  obtain ⟨ix, drawn, low, high⟩ := insertionIndex_spec state inside draw
  refine ⟨state.runnables.take ix, state.runnables.drop ix, (List.take_append_drop _ _).symm, ?_, ?_⟩
  · intro other member
    rw [← Nat.add_sub_cancel' low, ← List.drop_drop] at member
    simpa using behind other (List.mem_of_mem_drop member)
  · simp only [scheduleLocal, drawn, ok_bind, insertAt_of_le high]
    rfl

theorem scheduleBackground_spec (state : SchedulerState R) (runnable : R) (priority : Priority) (draw : Nat) :
    ∃ front back, state.runnables = front ++ back ∧
      state.scheduleBackgroundWithPriority runnable priority draw = .ok { state with
        runnables := front ++ ⟨none, priority, runnable⟩ :: back
        unparked := true } := by
  obtain ⟨ix, drawn, -, high⟩ := insertionIndex_spec state (Nat.zero_le _) draw
  refine ⟨state.runnables.take ix, state.runnables.drop ix, (List.take_append_drop _ _).symm, ?_⟩
  simp only [scheduleBackgroundWithPriority, drawn, ok_bind, insertAt_of_le high]
  rfl

/-! ## Candidates -/

variable {backgroundOnly : Bool} {blocked seen : List SessionId} {runnables : List (ScheduledRunnable R)}

theorem candidate_first {ix i : Nat} (candidate : i ∈ candidateIndices backgroundOnly blocked ix seen runnables) :
    ∃ front runnable back, runnables = front ++ runnable :: back ∧ i = ix + front.length ∧ ∀ sessionId,
    runnable.sessionId = some sessionId → backgroundOnly = false ∧ sessionId ∉ blocked ∧ sessionId ∉ seen ∧
    ∀ other ∈ front, other.sessionId ≠ some sessionId := by
  induction runnables generalizing ix seen with
  | nil => cases candidate
  | cons head runnables ih =>
    have further {seen' : List SessionId} (grows : ∀ sessionId, sessionId ∈ seen → sessionId ∈ seen')
        (apart : ∀ sessionId, backgroundOnly = false → sessionId ∉ blocked → sessionId ∉ seen' →
          head.sessionId ≠ some sessionId)
        (candidate : i ∈ candidateIndices backgroundOnly blocked (ix + 1) seen' runnables) :
        ∃ front runnable back, head :: runnables = front ++ runnable :: back ∧
          i = ix + front.length ∧ ∀ sessionId, runnable.sessionId = some sessionId →
            backgroundOnly = false ∧ sessionId ∉ blocked ∧ sessionId ∉ seen ∧
            ∀ other ∈ front, other.sessionId ≠ some sessionId := by
      obtain ⟨front, runnable, back, split, at_, first⟩ := ih candidate
      refine ⟨head :: front, runnable, back, by rw [split]; rfl, ?_, ?_⟩
      · rw [at_, List.length_cons]
        omega
      · intro sessionId session
        obtain ⟨mode, free, fresh, before⟩ := first sessionId session
        refine ⟨mode, free, fun old => fresh (grows sessionId old), ?_⟩
        intro other member
        rcases List.mem_cons.mp member with rfl | member
        · exact apart sessionId mode free fresh
        · exact before other member
    cases session : head.sessionId with
    | none =>
      simp only [candidateIndices, session] at candidate
      rcases List.mem_cons.mp candidate with rfl | candidate
      · refine ⟨[], head, runnables, rfl, rfl, ?_⟩
        intro sessionId same
        rw [session] at same
        cases same
      · exact further (fun _ old => old) (by simp [session]) candidate
    | some own =>
      simp only [candidateIndices, session] at candidate
      split_ifs at candidate with mode isBlocked isSeen
      · exact further (fun _ old => old) (by simp [mode]) candidate
      · refine further (fun _ old => old) ?_ candidate
        rintro sessionId - free - same
        rw [session] at same
        cases same
        exact free isBlocked
      · refine further (fun _ old => old) ?_ candidate
        rintro sessionId - - fresh same
        rw [session] at same
        cases same
        exact fresh isSeen
      · rcases List.mem_cons.mp candidate with rfl | candidate
        · refine ⟨[], head, runnables, rfl, rfl, ?_⟩
          intro sessionId same
          rw [session] at same
          cases same
          exact ⟨by simpa using mode, isBlocked, isSeen, by simp⟩
        · refine further (fun _ old => List.mem_cons_of_mem _ old) ?_ candidate
          rintro sessionId - - fresh same
          rw [session] at same
          cases same
          exact fresh List.mem_cons_self

theorem waits_of_no_candidates {ix : Nat} (none : candidateIndices backgroundOnly blocked ix seen runnables = []) :
    ∀ runnable ∈ runnables, ∃ sessionId, runnable.sessionId = some sessionId ∧
    (backgroundOnly = true ∨ sessionId ∈ blocked ∨ sessionId ∈ seen) := by
  induction runnables generalizing ix seen with
  | nil => simp
  | cons head runnables ih =>
    cases session : head.sessionId with
    | none => simp [candidateIndices, session] at none
    | some own =>
      simp only [candidateIndices, session] at none
      split_ifs at none with mode isBlocked isSeen
      · exact List.forall_mem_cons.mpr ⟨⟨own, session, .inl mode⟩, ih none⟩
      · exact List.forall_mem_cons.mpr ⟨⟨own, session, .inr (.inl isBlocked)⟩, ih none⟩
      · exact List.forall_mem_cons.mpr ⟨⟨own, session, .inr (.inr isSeen)⟩, ih none⟩

/-! ## Selections -/

theorem checkedAdd_error {bits m n : Nat} {panic : Panic} (failed : checkedAdd bits m n = .error panic) :
    panic = .addOverflow := by
  unfold checkedAdd at failed
  split_ifs at failed
  cases failed
  rfl

theorem sum_error {weights : List Nat} {start : Nat} {panic : Panic}
    (failed : weights.foldlM (checkedAdd 32) start = .error panic) : panic = .addOverflow := by
  induction weights generalizing start with
  | nil => cases failed
  | cons weight weights ih =>
    rw [List.foldlM_cons] at failed
    cases added : checkedAdd 32 start weight with
    | error other =>
      rw [added] at failed
      cases failed
      exact checkedAdd_error added
    | ok total =>
      rw [added, ok_bind] at failed
      exact ih failed

theorem weights_ok {candidates : List Nat} (inside : ∀ ix ∈ candidates, ix < runnables.length) :
    ∃ weights, (candidates.mapM fun ix => do return (← index runnables ix).priority.weight) =
      .ok weights ∧ weights.length = candidates.length := by
  induction candidates with
  | nil => exact ⟨[], rfl, rfl⟩
  | cons ix candidates ih =>
    obtain ⟨weights, weighed, length⟩ := ih fun other member => inside other (List.mem_cons_of_mem _ member)
    have bound := inside ix List.mem_cons_self
    refine ⟨runnables[ix].priority.weight :: weights, ?_, by rw [List.length_cons, length]; rfl⟩
    rw [List.mapM_cons, index_of_lt bound, ok_bind, pure_bind, weighed]
    rfl

theorem selectCandidate_spec {candidates : List Nat} (some : 0 < candidates.length)
    (inside : ∀ ix ∈ candidates, ix < state.runnables.length) (draw : Nat) :
    (∃ ix ∈ candidates, state.selectCandidate candidates draw = .ok ix) ∨
    state.selectCandidate candidates draw = .error .addOverflow := by
  have pick {i : Nat} (bound : i < candidates.length) : ∃ ix ∈ candidates, index candidates i = .ok ix :=
    ⟨candidates[i], List.getElem_mem bound, index_of_lt bound⟩
  unfold selectCandidate
  split_ifs
  · obtain ⟨weights, weighed, length⟩ := weights_ok inside
    rw [weighed, ok_bind]
    cases total : sum weights with
    | error panic => exact .inr (by rw [sum_error total]; rfl)
    | ok totalWeight =>
      rw [ok_bind]
      left
      split_ifs with zero
      · obtain ⟨i, drawn, -, bound⟩ := randomRange_of_lt some draw
        rw [drawn, ok_bind]
        exact pick bound
      · obtain ⟨target, drawn, -, -⟩ := randomRange_of_lt (Nat.pos_of_ne_zero zero) draw
        rw [drawn, ok_bind]
        have bound := selectFrom_lt 0 (length ▸ some) target
        rw [length, Nat.zero_add] at bound
        exact pick bound
  · exact .inl (pick some)

/-! ## Steps -/

theorem removeAt_append (front : List R) (x : R) (back : List R) :
    removeAt (front ++ x :: back) front.length = (some x, front ++ back) := by
  unfold removeAt
  rw [List.drop_left, List.take_left]

inductive Stepped (state : SchedulerState R) (backgroundOnly : Bool) :
    Work R → SchedulerState R → Prop where
  | expired (timers : List Nat) : Stepped state backgroundOnly .expired { state with timers := timers }
  | idle (waits : ∀ runnable ∈ state.runnables, ∃ sessionId, runnable.sessionId = some sessionId ∧
      (backgroundOnly = true ∨ sessionId ∈ state.blockedSessions)) :
      Stepped state backgroundOnly .idle state
  | run {front back : List (ScheduledRunnable R)} {runnable : ScheduledRunnable R}
      (split : state.runnables = front ++ runnable :: back)
      (first : ∀ sessionId, runnable.sessionId = some sessionId → backgroundOnly = false ∧
        sessionId ∉ state.blockedSessions ∧ ∀ other ∈ front, other.sessionId ≠ some sessionId) :
      Stepped state backgroundOnly (.run runnable) { state with runnables := front ++ back }

theorem stepFiltered_spec (state : SchedulerState R) (now : Nat) (backgroundOnly : Bool) (draw : Nat) :
    (∃ work after, state.stepFiltered now backgroundOnly draw = .ok (work, after) ∧
      Stepped state backgroundOnly work after) ∨
      state.stepFiltered now backgroundOnly draw = .error .addOverflow := by
  simp only [stepFiltered]
  by_cases expired : (state.timers.takeWhile (· ≤ now)).length > 0
  · rw [if_pos expired]
    exact .inl ⟨_, _, rfl, .expired _⟩
  · have zero : (state.timers.takeWhile (· ≤ now)).length = 0 := by omega
    rw [if_neg expired, zero, List.drop_zero]
    generalize listed : candidateIndices backgroundOnly state.blockedSessions 0 [] state.runnables = candidates
    by_cases empty : candidates = []
    · rw [if_pos empty]
      refine .inl ⟨_, _, rfl, .idle ?_⟩
      intro runnable member
      obtain ⟨sessionId, session, waits⟩ := waits_of_no_candidates (listed.trans empty) runnable member
      exact ⟨sessionId, session, by simpa using waits⟩
    · rw [if_neg empty]
      have positions : ∀ ix ∈ candidates, ∃ front runnable back,
          state.runnables = front ++ runnable :: back ∧ ix = front.length ∧
          ∀ sessionId, runnable.sessionId = some sessionId → backgroundOnly = false ∧
            sessionId ∉ state.blockedSessions ∧
            ∀ other ∈ front, other.sessionId ≠ some sessionId := by
        intro ix member
        rw [← listed] at member
        obtain ⟨front, runnable, back, split, at_, first⟩ := candidate_first member
        refine ⟨front, runnable, back, split, by omega, ?_⟩
        intro sessionId session
        obtain ⟨mode, free, -, before⟩ := first sessionId session
        exact ⟨mode, free, before⟩
      have inside : ∀ ix ∈ candidates, ix < state.runnables.length := by
        intro ix member
        obtain ⟨front, runnable, back, split, at_, -⟩ := positions ix member
        rw [split, at_, List.length_append, List.length_cons]
        omega
      rcases selectCandidate_spec (List.length_pos_iff.mpr empty) inside draw with
        ⟨ix, member, selected⟩ | overflow
      · left
        obtain ⟨front, runnable, back, split, rfl, first⟩ := positions ix member
        rw [selected, ok_bind, split, removeAt_append]
        exact ⟨_, _, rfl, .run split first⟩
      · right
        rw [overflow]
        rfl

end SchedulerState
end Pinrail.Scheduler

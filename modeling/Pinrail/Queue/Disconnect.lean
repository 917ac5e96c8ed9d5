import Pinrail.Queue.PriorityQueue

/-!
# Disconnects of priority queues

`recv` looks for a sender only before its wait loop, and the drop of a sender wakes nobody. A receiver
that is in the loop when the queues are empty and the last sender is gone stays there.
-/

namespace Pinrail.PriorityQueue
open Lib Scheduler

variable {T : Type} {state after : State T} {action : Action T}

namespace PriorityQueues

theorem isEmpty_iff {queues : PriorityQueues T} : queues.isEmpty = true ↔ queues.len = 0 := by
  simp only [isEmpty, len, Bool.and_eq_true, List.isEmpty_iff, Nat.add_eq_zero_iff, List.length_eq_zero_iff]

theorem len_push {queues pushed : PriorityQueues T} {priority : Priority} {item : T}
    (ran : queues.push priority item = .ok pushed) : pushed.len = queues.len + 1 := by
  cases priority with
  | realtimeAudio => cases ran
  | high =>
    cases ran
    simp only [len, List.length_append, List.length_singleton]
    omega
  | medium =>
    cases ran
    simp only [len, List.length_append, List.length_singleton]
    omega
  | low =>
    cases ran
    simp only [len, List.length_append, List.length_singleton]
    omega

theorem randomRatio_of_le {numerator denominator : Nat} (positive : 0 < numerator) (atMost : numerator ≤ denominator)
    (draw : Nat) : randomRatio numerator denominator draw = .ok (decide (draw % denominator < numerator)) := by
  have sampled : denominator ≠ 0 ∧ numerator ≤ denominator := ⟨by omega, atMost⟩
  rw [randomRatio, assert_of sampled]
  rfl

theorem randomRatio_self {numerator : Nat} (positive : 0 < numerator) (draw : Nat) :
    randomRatio numerator numerator draw = .ok true := by
  rw [randomRatio_of_le positive (Nat.le_refl _), decide_eq_true (Nat.mod_lt _ positive)]

theorem flip_spec {priority : Priority} (weighs : 0 < priority.weight) (queue : List T) {mass : Nat}
    (enough : share priority queue ≤ mass) (draw : Nat) : ∃ taken, flip priority queue mass draw = .ok taken ∧
    (taken = true → queue ≠ []) ∧ (taken = false → queue ≠ [] → share priority queue < mass) := by
  cases queue with
  | nil => exact ⟨false, rfl, by simp, by simp⟩
  | cons item queue =>
    have heavy : priority.weight ≤ mass := enough
    rcases Nat.eq_or_lt_of_le heavy with same | less
    · exact ⟨true, same ▸ randomRatio_self weighs draw, by simp, by simp⟩
    · exact ⟨_, randomRatio_of_le weighs heavy draw, by simp, fun _ _ => less⟩

theorem share_nil (priority : Priority) : share priority ([] : List T) = 0 := rfl

theorem popInner_spec {queues : PriorityQueues T} (items : queues.isEmpty = false) (high medium low : Nat) :
    ∃ item rest, queues.popInner high medium low = .ok (some item, rest) ∧ rest.len + 1 = queues.len := by
  obtain ⟨highs, mediums, lows⟩ := queues
  generalize total : share .high highs + share .medium mediums + share .low lows = mass
  have massMedium : mass - share .high highs = share .medium mediums + share .low lows := by omega
  have massLow : share .medium mediums + share .low lows - share .medium mediums = share .low lows := by
    omega
  obtain ⟨fromHigh, flipHigh, takenHigh, restHigh⟩ := flip_spec (T := T) (show 0 < Priority.high.weight by decide) highs
      (show share .high highs ≤ mass by omega) high
  obtain ⟨fromMedium, flipMedium, takenMedium, restMedium⟩ :=
    flip_spec (T := T) (show 0 < Priority.medium.weight by decide) mediums
      (Nat.le_add_right (share .medium mediums) (share .low lows)) medium
  obtain ⟨fromLow, flipLow, takenLow, restLow⟩ := flip_spec (T := T) (show 0 < Priority.low.weight by decide) lows
      (Nat.le_refl (share .low lows)) low
  simp only [popInner, total, flipHigh, ok_bind]
  cases fromHigh with
  | true =>
    obtain ⟨item, rest, rfl⟩ := List.exists_cons_of_ne_nil (takenHigh rfl)
    refine ⟨item, ⟨rest, mediums, lows⟩, rfl, ?_⟩
    simp only [len, List.length_cons]
    omega
  | false =>
    have below : share .high highs ≤ mass := by omega
    rw [if_neg Bool.false_ne_true, checkedSub_of_le below, ok_bind, massMedium, flipMedium, ok_bind]
    cases fromMedium with
    | true =>
      obtain ⟨item, rest, rfl⟩ := List.exists_cons_of_ne_nil (takenMedium rfl)
      refine ⟨item, ⟨highs, rest, lows⟩, rfl, ?_⟩
      simp only [len, List.length_cons]
      omega
    | false =>
      rw [if_neg Bool.false_ne_true, checkedSub_of_le (Nat.le_add_right _ _), ok_bind, massLow, flipLow, ok_bind]
      cases fromLow with
      | true =>
        obtain ⟨item, rest, rfl⟩ := List.exists_cons_of_ne_nil (takenLow rfl)
        refine ⟨item, ⟨highs, mediums, rest⟩, rfl, ?_⟩
        simp only [len, List.length_cons]
        omega
      | false =>
        -- The last queue that is not empty would have been taken from.
        have noLow : lows = [] := by
          by_contra some
          exact Nat.lt_irrefl _ (restLow rfl some)
        have noMedium : mediums = [] := by
          by_contra some
          have less := restMedium rfl some
          rw [noLow, share_nil] at less
          omega
        have noHigh : highs = [] := by
          by_contra some
          have less := restHigh rfl some
          rw [← total, noLow, noMedium, share_nil, share_nil] at less
          omega
        rw [noHigh, noMedium, noLow] at items
        cases items

end PriorityQueues

/-! ## Steps -/

def Stuck (state : State T) : Prop :=
  state.queues.isEmpty = true ∧ state.senderCount = 0 ∧ ∃ receiver ∈ state.receivers, receiver.InLoop

/-- The last sender is dropped only while there are items or no receiver is in its wait loop; after
that, the last item is taken only while no other receiver is in its wait loop. -/
def Safe (state : State T) : Action T → Prop
  | .dropSender => state.senderCount = 1 → state.queues.isEmpty = true → ∀ receiver ∈ state.receivers, ¬ receiver.InLoop
  | .take i => state.senderCount = 0 → state.queues.len = 1 →
      ∀ j receiver, j ≠ i → state.receivers[j]? = some receiver → ¬ receiver.InLoop
  | _ => True

theorem not_stuck_of_le (free : ¬ Stuck state) (empty : after.queues.isEmpty = true → state.queues.isEmpty = true)
    (senders : after.senderCount = state.senderCount)
    (waits : ∀ receiver ∈ after.receivers, receiver.InLoop → state.queues.isEmpty = true → state.senderCount = 0 →
      ∃ other ∈ state.receivers, other.InLoop) : ¬ Stuck after := by
  rintro ⟨none, gone, receiver, member, inLoop⟩
  rw [senders] at gone
  exact free ⟨empty none, gone, waits receiver member inLoop (empty none) gone⟩

theorem inLoop_of_set {receivers : List Receiver} {i : Nat} {new receiver : Receiver}
    (member : receiver ∈ receivers.set i new) (inLoop : receiver.InLoop)
    (outside : new.InLoop → ∃ other ∈ receivers, other.InLoop) : ∃ other ∈ receivers, other.InLoop := by
  rcases List.mem_or_eq_of_mem_set member with member | rfl
  · exact ⟨receiver, member, inLoop⟩
  · exact outside inLoop

theorem not_inLoop_idle : ¬ Receiver.idle.InLoop := by decide

theorem step_stuck (free : ¬ Stuck state) (step : Step state action after) : ¬ Stuck after ↔ Safe state action := by
  cases step with
  | beginSend alive connected priority item => exact iff_of_true free trivial
  | refuse alive disconnected priority item => exact iff_of_true free trivial
  | push begun unlocked pushed notified =>
    refine iff_of_true ?_ trivial
    rintro ⟨none, -, -⟩
    have length := PriorityQueues.len_push pushed
    rw [PriorityQueues.isEmpty_iff.mp none] at length
    omega
  | pushPanics begun unlocked pushed => exact iff_of_true free trivial
  | dropSender alive borrowed =>
    constructor
    · intro free' last none receiver member inLoop
      exact free' ⟨none, by simp only; omega, receiver, member, inLoop⟩
    · rintro safe ⟨none, gone, receiver, member, inLoop⟩
      simp only at gone
      exact safe (by omega) none receiver member inLoop
  | recvDisconnected idle unlocked found => exact iff_of_true free trivial
  | recvEmpty idle unlocked found =>
    refine iff_of_true (not_stuck_of_le free id rfl ?_) trivial
    intro receiver member inLoop none gone
    rw [State.find, if_pos ⟨none, gone⟩] at found
    cases found
  | wait checked =>
    refine iff_of_true (not_stuck_of_le free id rfl ?_) trivial
    intro receiver member inLoop _ _
    exact inLoop_of_set member inLoop fun _ => ⟨.checked, List.mem_of_getElem? checked, by decide⟩
  | wakeUp waiting =>
    refine iff_of_true (not_stuck_of_le free id rfl ?_) trivial
    intro receiver member inLoop _ _
    exact inLoop_of_set member inLoop fun _ => ⟨.waiting, List.mem_of_getElem? waiting, by decide⟩
  | relockEmpty woken unlocked empty =>
    refine iff_of_true (not_stuck_of_le free id rfl ?_) trivial
    intro receiver member inLoop _ _
    exact inLoop_of_set member inLoop fun _ => ⟨.woken, List.mem_of_getElem? woken, by decide⟩
  | tryPopNothing idle unlocked found => exact iff_of_true free trivial
  | take ready unlocked found high medium low popped =>
    rename_i i item queues
    obtain ⟨taken, rest, ran, length⟩ := PriorityQueues.popInner_spec found high medium low
    rw [popped] at ran
    cases ran
    have inside : i < state.receivers.length := by
      rcases ready with idle | woken
      · exact (List.getElem?_eq_some_iff.mp idle).1
      · exact (List.getElem?_eq_some_iff.mp woken).1
    constructor
    · intro free' gone last j receiver other at_ inLoop
      refine free' ⟨PriorityQueues.isEmpty_iff.mpr (by simp only; omega), gone, receiver, ?_, inLoop⟩
      have kept : (state.receivers.set i .idle)[j]? = some receiver := by
        rw [List.getElem?_set_ne other.symm]
        exact at_
      exact List.mem_of_getElem? kept
    · rintro safe ⟨none, gone, receiver, member, inLoop⟩
      have last : state.queues.len = 1 := by
        rw [← length, PriorityQueues.isEmpty_iff.mp none]
      obtain ⟨j, at_⟩ := List.getElem?_of_mem member
      by_cases same : j = i
      · subst same
        rw [State.setReceiver, List.getElem?_set_self inside] at at_
        cases at_
        exact not_inLoop_idle inLoop
      · rw [State.setReceiver, List.getElem?_set_ne (Ne.symm same)] at at_
        exact safe gone last j receiver same at_ inLoop
  | clone idle =>
    refine iff_of_true (not_stuck_of_le free id rfl ?_) trivial
    intro receiver member inLoop _ _
    rcases List.mem_append.mp member with member | member
    · exact ⟨receiver, member, inLoop⟩
    · rw [List.mem_singleton.mp member] at inLoop
      exact absurd inLoop not_inLoop_idle
  | dropReceiver idle =>
    refine iff_of_true (not_stuck_of_le free id rfl ?_) trivial
    intro receiver member inLoop _ _
    exact inLoop_of_set member inLoop fun dropped => absurd dropped (by decide)

/-! ## Runs -/

inductive Reachable : State T → Prop where
  | new : Reachable {}
  | step {state after : State T} {action : Action T} (reachable : Reachable state)
      (step : Step state action after) : Reachable after

inductive SafelyReachable : State T → Prop where
  | new : SafelyReachable {}
  | step {state after : State T} {action : Action T} (reachable : SafelyReachable state)
      (step : Step state action after) (safe : Safe state action) : SafelyReachable after

theorem safelyReachable_free (reachable : SafelyReachable state) : ¬ Stuck state := by
  induction reachable with
  | new =>
    rintro ⟨-, gone, -⟩
    cases gone
  | step reachable step safe ih => exact (step_stuck ih step).mpr safe

/-- In the runs whose steps are all safe no receiver waits while the queues are empty and no sender is
left, and the first step that is not safe leaves a receiver stuck. -/
theorem waits_with_sender (reachable : SafelyReachable state) :
    ¬ (.waiting ∈ state.receivers ∧ state.queues.isEmpty = true ∧ state.senderCount = 0) ∧
    ∀ action after, Step state action after → (¬ Stuck after ↔ Safe state action) := by
  have free := safelyReachable_free reachable
  refine ⟨?_, fun action after step => step_stuck free step⟩
  rintro ⟨waiting, empty, gone⟩
  exact free ⟨empty, gone, .waiting, waiting, by decide⟩

/-- A receiver waits, is sent an item, takes it, and then the sender is dropped. -/
theorem taken_then_dropped : SafelyReachable (T := Nat) ⟨{}, [.idle], 1, 0, []⟩ ∧
    ¬ (Receiver.waiting ∈ [Receiver.idle] ∧ ({} : PriorityQueues Nat).isEmpty = true ∧ 0 = 0) := by
  have unlocked : State.Unlocked (⟨{}, [.idle], 1, 1, []⟩ : State Nat) := by
    unfold State.Unlocked
    decide
  have sending : State.Unlocked (⟨{}, [.waiting], 1, 1, [(.low, 7)]⟩ : State Nat) := by
    unfold State.Unlocked
    decide
  have sent : State.Unlocked (⟨{ lowPriority := [7] }, [.woken], 1, 1, []⟩ : State Nat) := by
    unfold State.Unlocked
    decide
  have checked := (SafelyReachable.new (T := Nat)).step (.recvEmpty (i := 0) rfl unlocked rfl) trivial
  have waiting := checked.step (.wait (i := 0) rfl) trivial
  have begun := waiting.step (.beginSend Nat.one_pos (by decide) .low 7) trivial
  have pushed := begun.step (.push (i := 0) rfl sending rfl (.wake (i := 0) rfl)) trivial
  have taken := pushed.step (.take (i := 0) (.inr rfl) sent rfl 0 0 0 rfl) (by rintro ⟨⟩)
  have nobody : ∀ receiver ∈ [Receiver.idle], ¬ receiver.InLoop := by decide
  have dropped := taken.step (.dropSender Nat.one_pos rfl) fun _ _ => nobody
  exact ⟨dropped, (waits_with_sender dropped).1⟩

/-- A receiver pops from the empty queue and waits, then the sender is dropped. -/
theorem waits_after_last_drop : Reachable (T := Nat) ⟨{}, [.waiting], 1, 0, []⟩ ∧
    Receiver.waiting ∈ [Receiver.waiting] ∧ ({} : PriorityQueues Nat).isEmpty = true := by
  have unlocked : State.Unlocked (⟨{}, [.idle], 1, 1, []⟩ : State Nat) := by
    unfold State.Unlocked
    decide
  have checked := (Reachable.new (T := Nat)).step (.recvEmpty (i := 0) rfl unlocked rfl)
  have waiting := checked.step (.wait (i := 0) rfl)
  exact ⟨waiting.step (.dropSender Nat.one_pos rfl), by decide, by decide⟩

end Pinrail.PriorityQueue

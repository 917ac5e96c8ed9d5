import Pinrail.Lib.Coins
import Pinrail.Queue.Disconnect

/-!
# Pops from priority queues

The coins of `pop_inner` roll a loaded die over the priorities that have items. In the runs of a queue
the receivers get the items of every priority in the order in which they were pushed.
-/

namespace Pinrail.PriorityQueue
open Lib Scheduler

variable {T : Type}

namespace PriorityQueues

def queue (self : PriorityQueues T) : Priority → List T
  | .realtimeAudio => []
  | .high => self.highPriority
  | .medium => self.mediumPriority
  | .low => self.lowPriority

/-! ## The coins of a pop -/

/-- `random_ratio` with a coin. -/
def randomRatioCoin (numerator denominator : Nat) : ExceptT Panic Coins Bool := do
  Coins.lift (assert (denominator ≠ 0 ∧ numerator ≤ denominator))
  .mk (.flip numerator denominator (.done (.ok true)) (.done (.ok false)))

def flipCoin (priority : Priority) (queue : List T) (mass : Nat) : ExceptT Panic Coins Bool :=
  if queue.isEmpty then return false else randomRatioCoin priority.weight mass

/-- `pop_inner` under the lock, as `popInner`, with its coins. -/
def popInnerCoins (self : PriorityQueues T) : ExceptT Panic Coins (Option T × PriorityQueues T) := do
  let mass := share .high self.highPriority + share .medium self.mediumPriority +
    share .low self.lowPriority
  if ← flipCoin .high self.highPriority mass then
    return (self.highPriority.head?, { self with highPriority := self.highPriority.tail })
  let mass ← Coins.lift (checkedSub mass (share .high self.highPriority))
  if ← flipCoin .medium self.mediumPriority mass then
    return (self.mediumPriority.head?, { self with mediumPriority := self.mediumPriority.tail })
  let mass ← Coins.lift (checkedSub mass (share .medium self.mediumPriority))
  if ← flipCoin .low self.lowPriority mass then
    return (self.lowPriority.head?, { self with lowPriority := self.lowPriority.tail })
  return (none, self)

def weights (self : PriorityQueues T) : List (Nat × Priority) :=
  ([.high, .medium, .low].filter fun priority => !(self.queue priority).isEmpty).map fun priority =>
    (priority.weight, priority)

/-- `pop_front` of the queue of a priority. -/
def popFront (self : PriorityQueues T) : Option Priority → Option T × PriorityQueues T
  | some .high => (self.highPriority.head?, { self with highPriority := self.highPriority.tail })
  | some .medium => (self.mediumPriority.head?, { self with mediumPriority := self.mediumPriority.tail })
  | some .low => (self.lowPriority.head?, { self with lowPriority := self.lowPriority.tail })
  | _ => (none, self)

theorem popInnerCoins_eq_die (self : PriorityQueues T) : self.popInnerCoins.run =
      (Coins.die self.weights (Coins.total self.weights)).map fun priority =>
        .ok (self.popFront priority) := by
  obtain ⟨highs, mediums, lows⟩ := self
  cases highs <;> cases mediums <;> cases lows <;> rfl

theorem flip_yields (priority : Priority) (queue : List T) (mass draw : Nat) :
    Coins.Yields (flipCoin priority queue mass) (flip priority queue mass draw) := by
  cases queue with
  | nil => exact Coins.Outcome.done (Except.ok false)
  | cons item queue =>
    apply Coins.Yields.bind (Coins.yields_lift _)
    intro _ sampled
    unfold assert at sampled
    split_ifs at sampled with fair
    cases shown : decide (draw % mass < priority.weight) with
    | true => exact .heads (shown ▸ .done _)
    | false =>
      refine .tails ?_ (shown ▸ .done _)
      rintro rfl
      exact of_decide_eq_false shown (Nat.mod_lt draw (Nat.pos_of_ne_zero fair.1))

theorem mem_weights {self : PriorityQueues T} {entry : Nat × Priority} (member : entry ∈ self.weights) :
    0 < entry.1 ∧ entry.1 = entry.2.weight ∧ self.queue entry.2 ≠ [] := by
  obtain ⟨priority, kept, rfl⟩ := List.mem_map.mp member
  obtain ⟨listed, some⟩ := List.mem_filter.mp kept
  refine ⟨?_, rfl, by simpa using some⟩
  rcases List.mem_cons.mp listed with rfl | listed
  · decide
  · rcases List.mem_pair.mp listed with rfl | rfl
    · decide
    · decide

theorem popInner_yields (self : PriorityQueues T) (high medium low : Nat) :
    Coins.Yields self.popInnerCoins (self.popInner high medium low) := by
  apply Coins.Yields.bind (flip_yields _ _ _ _)
  rintro (_ | _) -
  · apply Coins.Yields.bind (Coins.yields_lift _)
    intro mass _
    apply Coins.Yields.bind (flip_yields _ _ _ _)
    rintro (_ | _) -
    · apply Coins.Yields.bind (Coins.yields_lift _)
      intro mass _
      apply Coins.Yields.bind (flip_yields _ _ _ _)
      rintro (_ | _) -
      · exact .done _
      · exact .done _
    · exact .done _
  · exact .done _

theorem exists_draws {self : PriorityQueues T} {priority : Priority} (some : self.queue priority ≠ []) :
    ∃ high medium low, self.popInner high medium low = .ok (self.popFront (.some priority)) := by
  obtain ⟨highs, mediums, lows⟩ := self
  obtain ⟨item, items, front⟩ := List.exists_cons_of_ne_nil some
  cases priority with
  | realtimeAudio => cases front
  | high =>
    obtain rfl : highs = item :: items := front
    exact ⟨0, 0, 0, by cases mediums <;> cases lows <;> rfl⟩
  | medium =>
    obtain rfl : mediums = item :: items := front
    exact ⟨60, 0, 0, by cases highs <;> cases lows <;> rfl⟩
  | low =>
    obtain rfl : lows = item :: items := front
    exact ⟨60, 30, 0, by cases highs <;> cases mediums <;> rfl⟩

theorem popInner_iff {self : PriorityQueues T} {result : Except Panic (Option T × PriorityQueues T)} :
    (∃ high medium low, self.popInner high medium low = result) ↔ Coins.Yields self.popInnerCoins result := by
  constructor
  · rintro ⟨high, medium, low, rfl⟩
    exact popInner_yields self high medium low
  · intro outcome
    rw [Coins.Yields, popInnerCoins_eq_die] at outcome
    obtain ⟨choice, rolled, rfl⟩ := outcome.of_map
    rcases Coins.die_outcome (fun entry member => (mem_weights member).1) rolled with
      ⟨none, rfl⟩ | ⟨entry, member, rfl⟩
    · obtain ⟨highs, mediums, lows⟩ := self
      refine ⟨0, 0, 0, ?_⟩
      cases highs <;> cases mediums <;> cases lows <;> first | rfl | cases none
    · exact exists_draws (mem_weights member).2.2

structure Takes (queues rest : PriorityQueues T) (priority : Priority) (item : T) : Prop where
  front : queues.queue priority = item :: rest.queue priority
  others : ∀ other, other ≠ priority → rest.queue other = queues.queue other

theorem popFront_takes {self : PriorityQueues T} {priority : Priority} (some : self.queue priority ≠ []) :
    ∃ item rest, self.popFront (.some priority) = (.some item, rest) ∧ self.Takes rest priority item := by
  obtain ⟨item, items, front⟩ := List.exists_cons_of_ne_nil some
  cases priority with
  | realtimeAudio => cases front
  | high =>
    refine ⟨item, { self with highPriority := items }, ?_, front, ?_⟩
    · simp only [queue] at front
      simp [popFront, front]
    · rintro (_ | _ | _ | _) other <;> first | rfl | exact absurd rfl other
  | medium =>
    refine ⟨item, { self with mediumPriority := items }, ?_, front, ?_⟩
    · simp only [queue] at front
      simp [popFront, front]
    · rintro (_ | _ | _ | _) other <;> first | rfl | exact absurd rfl other
  | low =>
    refine ⟨item, { self with lowPriority := items }, ?_, front, ?_⟩
    · simp only [queue] at front
      simp [popFront, front]
    · rintro (_ | _ | _ | _) other <;> first | rfl | exact absurd rfl other

theorem weights_ne_nil {self : PriorityQueues T} (items : self.isEmpty = false) : self.weights ≠ [] := by
  obtain ⟨highs, mediums, lows⟩ := self
  cases highs with
  | cons item highs => simp [weights, queue]
  | nil =>
    cases mediums with
    | cons item mediums => simp [weights, queue]
    | nil =>
      cases lows with
      | cons item lows => simp [weights, queue]
      | nil => cases items

theorem outcome_takes {self : PriorityQueues T} (items : self.isEmpty = false)
    {result : Except Panic (Option T × PriorityQueues T)} (outcome : Coins.Yields self.popInnerCoins result) :
    ∃ priority item rest, result = .ok (some item, rest) ∧ self.Takes rest priority item := by
  rw [Coins.Yields, popInnerCoins_eq_die] at outcome
  obtain ⟨choice, rolled, rfl⟩ := outcome.of_map
  rcases Coins.die_outcome (fun entry member => (mem_weights member).1) rolled with
    ⟨none, -⟩ | ⟨entry, member, rfl⟩
  · exact absurd none (weights_ne_nil items)
  · obtain ⟨item, rest, popped, takes⟩ := popFront_takes (mem_weights member).2.2
    exact ⟨entry.2, item, rest, congrArg Except.ok popped, takes⟩

def Chosen (self : PriorityQueues T) (priority : Priority) :
    Except Panic (Option T × PriorityQueues T) → Prop
  | .ok (some _, rest) => (rest.queue priority).length < (self.queue priority).length
  | _ => False

instance (self : PriorityQueues T) (priority : Priority) : DecidablePred (self.Chosen priority)
  | .ok (some _, rest) =>
    inferInstanceAs (Decidable ((rest.queue priority).length < (self.queue priority).length))
  | .ok (none, _) => inferInstanceAs (Decidable False)
  | .error _ => inferInstanceAs (Decidable False)

theorem popFront_nil {self : PriorityQueues T} {priority : Priority} (none : self.queue priority = []) :
    (self.popFront (some priority)).1 = .none := by
  cases priority with
  | realtimeAudio => rfl
  | high => exact congrArg List.head? none
  | medium => exact congrArg List.head? none
  | low => exact congrArg List.head? none

theorem chosen_popFront {self : PriorityQueues T} {priority : Priority} (items : self.queue priority ≠ [])
    (choice : Option Priority) : self.Chosen priority (.ok (self.popFront choice)) ↔ choice = some priority := by
  cases choice with
  | none => exact iff_of_false id (by simp)
  | some other =>
    rw [Option.some.injEq]
    by_cases none : self.queue other = []
    · have nothing := popFront_nil none
      generalize self.popFront (some other) = popped at nothing ⊢
      obtain ⟨_ | item, rest⟩ := popped
      · refine iff_of_false id ?_
        rintro rfl
        exact items none
      · cases nothing
    · obtain ⟨item, rest, popped, takes⟩ := popFront_takes none
      rw [popped]
      constructor
      · intro shorter
        by_contra different
        rw [Chosen, takes.others priority (Ne.symm different)] at shorter
        exact Nat.lt_irrefl _ shorter
      · rintro rfl
        rw [Chosen, takes.front]
        exact Nat.lt_succ_self _

theorem total_of_queue {self : PriorityQueues T} {priority : Priority} (items : self.queue priority ≠ []) :
    Coins.total (self.weights.filter fun entry => entry.2 = priority) = priority.weight := by
  obtain ⟨highs, mediums, lows⟩ := self
  obtain ⟨item, rest, front⟩ := List.exists_cons_of_ne_nil items
  cases priority with
  | realtimeAudio => cases front
  | high =>
    obtain rfl : highs = item :: rest := front
    cases mediums <;> cases lows <;> rfl
  | medium =>
    obtain rfl : mediums = item :: rest := front
    cases highs <;> cases lows <;> rfl
  | low =>
    obtain rfl : lows = item :: rest := front
    cases highs <;> cases mediums <;> rfl

theorem popInnerCoins_probability {self : PriorityQueues T} {priority : Priority} (items : self.queue priority ≠ []) :
    self.popInnerCoins.run.probability (self.Chosen priority) = (priority.weight : ℚ) / Coins.total self.weights := by
  rw [popInnerCoins_eq_die, Coins.probability_map,
    Coins.probability_congr (chosen_popFront items), Coins.die_probability, total_of_queue items]
  exact fun entry member => (mem_weights member).1

theorem popInnerCoins_valid (self : PriorityQueues T) : self.popInnerCoins.run.Valid := by
  rw [popInnerCoins_eq_die]
  exact (Coins.die_valid fun entry member => (mem_weights member).1).map

end PriorityQueues

/-! ## Runs -/

inductive Event (T : Type) where
  | begun (priority : Priority) (item : T)
  | pushed (priority : Priority) (item : T)
  /-- `push` panics. -/
  | panicked (priority : Priority) (item : T)
  | received (item : T)
  /-- A pop that does not block returns `Ok(None)`. -/
  | nothing
  /-- `pop` unwraps `None`. -/
  | unwrapped
  | silent
deriving DecidableEq

namespace Event

def begun? : Event T → Option (Priority × T)
  | .begun priority item => some (priority, item)
  | _ => none

def pushed? : Event T → Option (Priority × T)
  | .pushed priority item => some (priority, item)
  | _ => none

def panicked? : Event T → Option (Priority × T)
  | .panicked priority item => some (priority, item)
  | _ => none

def received? : Event T → Option T
  | .received item => some item
  | _ => none

end Event

def Action.Quiet : Action T → Prop
  | .beginSend _ _ => False
  | .push _ => False
  | .tryPop _ => False
  | .take _ => False
  | _ => True

inductive Gets (state after : State T) : Action T → Event T → Prop where
  | begun {priority : Priority} {item : T} (connected : state.receiverCount ≠ 0) :
      Gets state after (.beginSend priority item) (.begun priority item)
  | refused {priority : Priority} {item : T} (disconnected : state.receiverCount = 0) :
      Gets state after (.beginSend priority item) .silent
  | pushed {i : Nat} {priority : Priority} {item : T} (begun : state.sends[i]? = some (priority, item))
      (pushed : state.queues.push priority item = .ok after.queues) :
      Gets state after (.push i) (.pushed priority item)
  | panicked {i : Nat} {priority : Priority} {item : T} (begun : state.sends[i]? = some (priority, item))
      {panic : Panic} (pushed : state.queues.push priority item = .error panic) :
      Gets state after (.push i) (.panicked priority item)
  | received {i : Nat} {item : T} {high medium low : Nat}
      (popped : state.queues.popInner high medium low = .ok (some item, after.queues)) :
      Gets state after (.take i) (.received item)
  | tookNothing {i : Nat} {high medium low : Nat}
      (popped : state.queues.popInner high medium low = .ok (none, after.queues)) :
      Gets state after (.take i) .nothing
  | unwrapped {i : Nat} {high medium low : Nat}
      (popped : state.queues.popInner high medium low = .ok (none, after.queues)) :
      Gets state after (.take i) .unwrapped
  | foundNothing {i : Nat} (found : state.find = .empty) : Gets state after (.tryPop i) .nothing
  | disconnected {i : Nat} (found : state.find = .disconnected) : Gets state after (.tryPop i) .silent
  | quiet {action : Action T} (quiet : action.Quiet) : Gets state after action .silent

inductive Run : State T → List (Event T) → Prop where
  | new : Run {} []
  | step {state after : State T} {events : List (Event T)} {action : Action T} {event : Event T}
      (run : Run state events) (step : Step state action after) (gets : Gets state after action event) :
      Run after (events ++ [event])

def ofPriority (priority : Priority) (items : List (Priority × T)) : List T :=
  (items.filter fun entry => entry.1 = priority).map Prod.snd

structure Ledger (state : State T) (events : List (Event T)) (received : List (Priority × T)) : Prop where
  items : received.map Prod.snd = events.filterMap Event.received?
  order : ∀ priority, ofPriority priority (events.filterMap Event.pushed?) =
    ofPriority priority received ++ state.queues.queue priority
  once : (events.filterMap Event.begun?).Perm
    (events.filterMap Event.pushed? ++ events.filterMap Event.panicked? ++ state.sends)

variable {state after : State T} {action : Action T} {event : Event T} {events : List (Event T)}
  {received : List (Priority × T)}

theorem ofPriority_append (priority : Priority) (left right : List (Priority × T)) :
    ofPriority priority (left ++ right) = ofPriority priority left ++ ofPriority priority right := by
  rw [ofPriority, List.filter_append, List.map_append]
  rfl

theorem queue_push {queues pushed : PriorityQueues T} {priority : Priority} {item : T}
    (ran : queues.push priority item = .ok pushed) (other : Priority) :
    pushed.queue other = queues.queue other ++ ofPriority other [(priority, item)] := by
  cases priority with
  | realtimeAudio => cases ran
  | high =>
    cases ran
    cases other <;> first | rfl | exact (List.append_nil _).symm
  | medium =>
    cases ran
    cases other <;> first | rfl | exact (List.append_nil _).symm
  | low =>
    cases ran
    cases other <;> first | rfl | exact (List.append_nil _).symm

theorem Ledger.quiet (ledger : Ledger state events received) (queues : after.queues = state.queues)
    (sends : after.sends = state.sends)
    (silent : event.begun? = none ∧ event.pushed? = none ∧ event.panicked? = none ∧ event.received? = none) :
    Ledger after (events ++ [event]) received := by
  obtain ⟨items, order, once⟩ := ledger
  obtain ⟨begun, pushed, panicked, got⟩ := silent
  constructor
  · rw [items, List.filterMap_append, List.filterMap_cons_none got, List.filterMap_nil, List.append_nil]
  · intro priority
    rw [List.filterMap_append, List.filterMap_cons_none pushed, List.filterMap_nil, List.append_nil, order, queues]
  · rw [List.filterMap_append, List.filterMap_append, List.filterMap_append,
      List.filterMap_cons_none begun, List.filterMap_cons_none pushed,
      List.filterMap_cons_none panicked, sends]
    simpa using once

theorem perm_eraseIdx {α : Type} {items : List α} {i : Nat} {a : α} (at_ : items[i]? = some a)
    (begun before panicked : List α) (once : begun.Perm (before ++ panicked ++ items)) :
    begun.Perm (before ++ [a] ++ panicked ++ items.eraseIdx i) ∧
    begun.Perm (before ++ (panicked ++ [a]) ++ items.eraseIdx i) := by
  obtain ⟨inside, rfl⟩ := List.getElem?_eq_some_iff.mp at_
  have moved := List.getElem_cons_eraseIdx_perm inside
  have last : begun.Perm (before ++ (panicked ++ [items[i]]) ++ items.eraseIdx i) := by
    apply once.trans
    rw [← List.append_assoc before, List.append_assoc (before ++ panicked)]
    exact moved.symm.append_left _
  refine ⟨last.trans (List.Perm.append_right _ ?_), last⟩
  rw [List.append_assoc]
  exact List.perm_append_comm.append_left _

theorem ledger_step (ledger : Ledger state events received) (step : Step state action after)
    (gets : Gets state after action event) : ∃ received, Ledger after (events ++ [event]) received := by
  cases step with
  | beginSend alive connected priority item =>
    cases gets with
    | begun _ =>
      refine ⟨received, ?_, ?_, ?_⟩
      · simpa [List.filterMap_cons, Event.received?] using ledger.items
      · simpa [List.filterMap_cons, Event.pushed?] using ledger.order
      · simpa [List.filterMap_cons, Event.begun?, Event.pushed?, Event.panicked?] using ledger.once.append_right _
    | refused disconnected => exact absurd disconnected connected
    | quiet quiet => cases quiet
  | refuse alive disconnected priority item =>
    cases gets with
    | begun connected => exact absurd disconnected connected
    | refused _ => exact ⟨received, ledger.quiet rfl rfl ⟨rfl, rfl, rfl, rfl⟩⟩
    | quiet quiet => cases quiet
  | @push i priority item begun unlocked queues ran receivers notified =>
    cases gets with
    | pushed sent pushed =>
      rw [begun] at sent
      cases sent
      refine ⟨received, ?_, fun other => ?_, ?_⟩
      · simpa [List.filterMap_cons, Event.received?] using ledger.items
      · rw [List.filterMap_append, ofPriority_append, ledger.order, queue_push ran, List.append_assoc]
        rfl
      · have once := (perm_eraseIdx begun _ _ _ ledger.once).1
        simpa [List.filterMap_cons, Event.begun?, Event.pushed?, Event.panicked?] using once
    | panicked sent pushed =>
      rw [begun] at sent
      cases sent
      rw [ran] at pushed
      cases pushed
    | quiet quiet => cases quiet
  | @pushPanics i priority item begun unlocked panic ran =>
    cases gets with
    | pushed sent pushed =>
      rw [begun] at sent
      cases sent
      rw [ran] at pushed
      cases pushed
    | panicked sent pushed =>
      rw [begun] at sent
      cases sent
      refine ⟨received, ?_, fun other => ?_, ?_⟩
      · simpa [List.filterMap_cons, Event.received?] using ledger.items
      · simpa [List.filterMap_cons, Event.pushed?] using ledger.order other
      · have once := (perm_eraseIdx begun _ _ _ ledger.once).2
        simpa [List.filterMap_cons, Event.begun?, Event.pushed?, Event.panicked?] using once
    | quiet quiet => cases quiet
  | tryPopNothing idle unlocked found =>
    cases gets with
    | foundNothing found => exact ⟨received, ledger.quiet rfl rfl ⟨rfl, rfl, rfl, rfl⟩⟩
    | disconnected found => exact ⟨received, ledger.quiet rfl rfl ⟨rfl, rfl, rfl, rfl⟩⟩
    | quiet quiet => cases quiet
  | take ready unlocked found high medium low popped =>
    cases gets with
    | @received _ item _ _ _ ran =>
      obtain ⟨priority, taken, rest, same, takes⟩ :=
        PriorityQueues.outcome_takes found (PriorityQueues.popInner_iff.mp ⟨_, _, _, ran⟩)
      cases same
      refine ⟨received ++ [(priority, item)], ?_, fun other => ?_, ?_⟩
      · simpa [List.filterMap_cons, Event.received?] using ledger.items
      · rw [ofPriority_append]
        by_cases same : other = priority
        · subst same
          simpa [List.filterMap_cons, Event.pushed?, ofPriority, takes.front] using ledger.order other
        · have kept := takes.others other same
          simpa [List.filterMap_cons, Event.pushed?, ofPriority, kept, Ne.symm same] using ledger.order other
      · simpa [List.filterMap_cons, Event.begun?, Event.pushed?, Event.panicked?, State.setReceiver] using ledger.once
    | tookNothing ran =>
      obtain ⟨priority, item, rest, same, takes⟩ :=
        PriorityQueues.outcome_takes found (PriorityQueues.popInner_iff.mp ⟨_, _, _, ran⟩)
      cases same
    | unwrapped ran =>
      obtain ⟨priority, item, rest, same, takes⟩ :=
        PriorityQueues.outcome_takes found (PriorityQueues.popInner_iff.mp ⟨_, _, _, ran⟩)
      cases same
    | quiet quiet => cases quiet
  | dropSender alive free =>
    cases gets
    exact ⟨received, ledger.quiet rfl rfl ⟨rfl, rfl, rfl, rfl⟩⟩
  | recvDisconnected idle unlocked found =>
    cases gets
    exact ⟨received, ledger.quiet rfl rfl ⟨rfl, rfl, rfl, rfl⟩⟩
  | recvEmpty idle unlocked found =>
    cases gets
    exact ⟨received, ledger.quiet rfl rfl ⟨rfl, rfl, rfl, rfl⟩⟩
  | wait checked =>
    cases gets
    exact ⟨received, ledger.quiet rfl rfl ⟨rfl, rfl, rfl, rfl⟩⟩
  | wakeUp waiting =>
    cases gets
    exact ⟨received, ledger.quiet rfl rfl ⟨rfl, rfl, rfl, rfl⟩⟩
  | relockEmpty woken unlocked empty =>
    cases gets
    exact ⟨received, ledger.quiet rfl rfl ⟨rfl, rfl, rfl, rfl⟩⟩
  | clone idle =>
    cases gets
    exact ⟨received, ledger.quiet rfl rfl ⟨rfl, rfl, rfl, rfl⟩⟩
  | dropReceiver idle =>
    cases gets
    exact ⟨received, ledger.quiet rfl rfl ⟨rfl, rfl, rfl, rfl⟩⟩

theorem exists_ledger (run : Run state events) : ∃ received, Ledger state events received := by
  induction run with
  | new =>
    refine ⟨[], rfl, fun priority => ?_, .nil⟩
    cases priority <;> rfl
  | step run step gets ih =>
    obtain ⟨received, ledger⟩ := ih
    exact ledger_step ledger step gets

theorem nothing_of_empty (step : Step state action after) (gets : Gets state after action event) :
    (event = .nothing → state.queues.isEmpty = true) ∧ event ≠ .unwrapped := by
  cases gets with
  | @tookNothing _ high medium low ran =>
    cases step with
    | take ready unlocked found _ _ _ popped =>
      obtain ⟨item, rest, some, -⟩ := PriorityQueues.popInner_spec found high medium low
      rw [ran] at some
      cases some
  | @unwrapped _ high medium low ran =>
    cases step with
    | take ready unlocked found _ _ _ popped =>
      obtain ⟨item, rest, some, -⟩ := PriorityQueues.popInner_spec found high medium low
      rw [ran] at some
      cases some
  | foundNothing found =>
    refine ⟨fun _ => ?_, by simp⟩
    rw [State.find] at found
    split_ifs at found with gone empty
    exact empty
  | begun connected => simp
  | refused disconnected => simp
  | pushed begun pushed => simp
  | panicked begun pushed => simp
  | received popped => simp
  | disconnected found => simp
  | quiet quiet => simp

/-- In every run the receivers get the items of each priority in the order of the sends, each once; a
pop returns nothing, or unwraps nothing, from empty queues only; every coin is fair to flip and every
outcome of the coins is a result, and a priority that has items is chosen with its share of the
weights. -/
theorem runs_pop (run : Run state events) : (∃ received, Ledger state events received) ∧
    (∀ action after event, Step state action after → Gets state after action event →
      (event = .nothing → state.queues.isEmpty = true) ∧ event ≠ .unwrapped) ∧
    state.queues.popInnerCoins.run.Valid ∧
    (∀ high medium low, ∃ popped, state.queues.popInner high medium low = .ok popped) ∧
    (∀ result, Coins.Yields state.queues.popInnerCoins result ↔
      ∃ high medium low, state.queues.popInner high medium low = result) ∧
    ∀ priority, state.queues.queue priority ≠ [] →
      state.queues.popInnerCoins.run.probability (state.queues.Chosen priority) =
        (priority.weight : ℚ) / Coins.total state.queues.weights := by
  refine ⟨exists_ledger run, fun _ _ _ step gets => nothing_of_empty step gets,
    state.queues.popInnerCoins_valid, fun high medium low => ?_,
    fun result => PriorityQueues.popInner_iff.symm,
    fun priority items => PriorityQueues.popInnerCoins_probability items⟩
  have outcome := PriorityQueues.popInner_yields state.queues high medium low
  rw [Coins.Yields, PriorityQueues.popInnerCoins_eq_die] at outcome
  obtain ⟨choice, -, popped⟩ := outcome.of_map
  exact ⟨_, popped⟩

/-- One sender and one idle receiver. -/
def State.resting (queues : PriorityQueues T) : State T := { queues := queues }

theorem State.resting_unlocked (queues : PriorityQueues T) (sends : List (Priority × T)) :
    State.Unlocked { State.resting queues with sends := sends } := by
  unfold State.Unlocked
  simp [resting]

theorem Run.send {queues queues' : PriorityQueues T} (run : Run (.resting queues) events) (priority : Priority)
    (item : T) (pushed : queues.push priority item = .ok queues') :
    Run (.resting queues') (events ++ [.begun priority item] ++ [.pushed priority item]) := by
  have begun := run.step (.beginSend Nat.one_pos Nat.one_ne_zero priority item) (.begun Nat.one_ne_zero)
  exact begun.step (.push (i := 0) rfl (State.resting_unlocked _ _) pushed (.nobody (by simp [State.resting])))
    (.pushed rfl pushed)

/-- Two items of the low priority and one of the high one, which the coin prefers. -/
theorem runs_pop_three : ∃ state, Run (T := Nat) state [.begun .low 7, .pushed .low 7, .begun .low 8, .pushed .low 8,
        .begun .high 9, .pushed .high 9, .received 9] ∧
      ∃ received, Ledger state [.begun .low 7, .pushed .low 7, .begun .low 8, .pushed .low 8,
        .begun .high 9, .pushed .high 9, .received 9] received := by
  have sent : Run (T := Nat) (.resting ⟨[9], [], [7, 8]⟩) _ :=
    ((Run.new.send .low 7 rfl).send .low 8 rfl).send .high 9 rfl
  have taken := sent.step (.take (i := 0) (.inl rfl) (State.resting_unlocked _ []) rfl 0 0 0 rfl)
    (.received (show PriorityQueues.popInner _ 0 0 0 = _ from rfl))
  exact ⟨_, taken, (runs_pop taken).1⟩

end Pinrail.PriorityQueue

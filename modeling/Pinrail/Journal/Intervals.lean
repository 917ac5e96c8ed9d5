import Mathlib.Algebra.BigOperators.Group.List.Basic
import Mathlib.Data.List.Chain
import Mathlib.Tactic.Common
import Pinrail.Journal.Sealer

/-!
# Conservation

The snapshots of a sealer and what it carries account for all the entries it was given: what an interval
does not keep is counted.
-/

namespace Pinrail.Journal

open Lib

variable {Instant Data : Type}

/-! ## What entries hold -/

namespace JournalEntry

def individual : ForegroundJournalEntry Instant Data → List (ForegroundEvent Instant Data)
  | .recorded (.event (.smallPolls _)) => []
  | .recorded (.event event) => [event]
  | .recorded (.boundary (.presented frame)) => [.present frame.presentation]
  | _ => []

def folded : ForegroundJournalEntry Instant Data → List PollSummary
  | .recorded (.event (.smallPolls flush)) => [flush.summary]
  | _ => []

def loss {E : Type} : JournalEntry E → Nat
  | .recorded _ => 0
  | .discontinuity lost => lost

def boundary? : ForegroundJournalEntry Instant Data → Option (IntervalBoundary Instant Data)
  | .recorded (.boundary boundary) => some boundary
  | _ => none

def IsWork (entry : ForegroundJournalEntry Instant Data) : Prop :=
  entry.individual ≠ [] ∨ entry.folded ≠ [] ∨ 0 < entry.loss

instance (entry : ForegroundJournalEntry Instant Data) : Decidable entry.IsWork :=
  inferInstanceAs (Decidable (_ ∨ _ ∨ _))

end JournalEntry

def Call.entries : Call Instant Data → List (ForegroundJournalEntry Instant Data)
  | .noteLost lost => [.discontinuity lost]
  | .pushEntries entries => entries

/-- The entries up to each boundary that has work before it or is a presentation, and those after the last. -/
def intervals (current : List (ForegroundJournalEntry Instant Data)) :
    List (ForegroundJournalEntry Instant Data) →
      List (List (ForegroundJournalEntry Instant Data)) × List (ForegroundJournalEntry Instant Data)
  | [] => ([], current)
  | entry :: rest =>
    if entry.boundary?.isSome ∧ ∃ some_ ∈ current ++ [entry], some_.IsWork then
      ((current ++ [entry]) :: (intervals [] rest).1, (intervals [] rest).2)
    else intervals (current ++ [entry]) rest

structure Keeps (entries : List (ForegroundJournalEntry Instant Data)) (events : List (ForegroundEvent Instant Data))
    (smallPolls : List (SmallPollFlush Instant)) (droppedEvents : Nat) (journalDiscontinuous : Bool) : Prop where
  kept : events.Sublist (entries.flatMap JournalEntry.individual)
  dropped : events.length + droppedEvents =
    (entries.flatMap JournalEntry.individual).length + (entries.map JournalEntry.loss).sum
  polls : smallPolls = [] ↔ entries.flatMap JournalEntry.folded = []
  count : (smallPolls.map (·.summary.count)).sum = ((entries.flatMap JournalEntry.folded).map PollSummary.count).sum
  total : (smallPolls.map (·.summary.total)).sum = ((entries.flatMap JournalEntry.folded).map PollSummary.total).sum
  discontinuous : journalDiscontinuous = true ↔ ∃ entry ∈ entries, 0 < entry.loss

theorem Keeps.append {entries entries' : List (ForegroundJournalEntry Instant Data)}
    {events events' : List (ForegroundEvent Instant Data)} {polls polls' : List (SmallPollFlush Instant)}
    {dropped dropped' : Nat} {gap gap' : Bool} (before : Keeps entries events polls dropped gap)
    (after : Keeps entries' events' polls' dropped' gap') :
    Keeps (entries ++ entries') (events ++ events') (polls ++ polls') (dropped + dropped') (gap || gap') where
  kept := by
    rw [List.flatMap_append]
    exact before.kept.append after.kept
  dropped := by
    have := before.dropped
    have := after.dropped
    simp only [List.flatMap_append, List.map_append, List.length_append, List.sum_append]
    omega
  polls := by
    rw [List.append_eq_nil_iff, List.flatMap_append, List.append_eq_nil_iff, before.polls, after.polls]
  count := by
    simp only [List.map_append, List.sum_append, List.flatMap_append]
    rw [before.count, after.count]
  total := by
    simp only [List.map_append, List.sum_append, List.flatMap_append]
    rw [before.total, after.total]
  discontinuous := by
    simp only [Bool.or_eq_true, before.discontinuous, after.discontinuous, List.mem_append, or_and_right, exists_or]

namespace IntervalSealer

variable {self after : IntervalSealer Instant Data} {entries : List (ForegroundJournalEntry Instant Data)}
  {entry : ForegroundJournalEntry Instant Data}

structure Carries (sealer : IntervalSealer Instant Data) (entries : List (ForegroundJournalEntry Instant Data)) : Prop where
  keeps : Keeps entries sealer.events sealer.smallPolls sealer.droppedEvents sealer.journalDiscontinuous
  few : sealer.events.length ≤ maxIntervalEvents ∧ sealer.smallPolls.length ≤ maxIntervalEvents

theorem new_carries (start : Instant) : (new start : IntervalSealer Instant Data).Carries [] :=
  ⟨⟨List.nil_sublist _, rfl, by simp [new], rfl, rfl, by simp [new]⟩, by simp [new]⟩

theorem Carries.isEmpty_iff (carries : self.Carries entries) :
    self.isEmpty = true ↔ ¬ ∃ entry ∈ entries, entry.IsWork := by
  obtain ⟨-, dropped, polls, -, -, discontinuous⟩ := carries.keeps
  unfold isEmpty
  simp only [Bool.and_eq_true, List.isEmpty_iff, beq_iff_eq, Bool.not_eq_true']
  constructor
  · rintro ⟨⟨⟨noEvents, noPolls⟩, noDrops⟩, noGap⟩ ⟨entry, member, work⟩
    rw [noEvents, noDrops, List.length_nil] at dropped
    rcases work with individual | folded | loss
    · have : entries.flatMap JournalEntry.individual = [] := List.length_eq_zero_iff.mp (by omega)
      exact individual (List.flatMap_eq_nil_iff.mp this entry member)
    · exact folded (List.flatMap_eq_nil_iff.mp (polls.mp noPolls) entry member)
    · have := discontinuous.mpr ⟨entry, member, loss⟩
      rw [noGap] at this
      cases this
  · intro noWork
    have none_ (entry) (member : entry ∈ entries) : entry.individual = [] ∧ entry.folded = [] ∧ entry.loss = 0 := by
      refine ⟨?_, ?_, ?_⟩
      · by_contra some_
        exact noWork ⟨entry, member, .inl some_⟩
      · by_contra some_
        exact noWork ⟨entry, member, .inr (.inl some_)⟩
      · by_contra some_
        exact noWork ⟨entry, member, .inr (.inr (Nat.pos_of_ne_zero some_))⟩
    have noIndividual : entries.flatMap JournalEntry.individual = [] :=
      List.flatMap_eq_nil_iff.mpr fun entry member => (none_ entry member).1
    have noLoss : (entries.map JournalEntry.loss).sum = 0 := by
      rw [List.sum_eq_zero_iff_forall_eq_nat]
      intro loss member
      obtain ⟨entry, inside, rfl⟩ := List.mem_map.mp member
      exact (none_ entry inside).2.2
    rw [noIndividual, noLoss, List.length_nil] at dropped
    refine ⟨⟨⟨List.length_eq_zero_iff.mp (by omega), polls.mpr ?_⟩, by omega⟩, ?_⟩
    · exact List.flatMap_eq_nil_iff.mpr fun entry member => (none_ entry member).2.1
    · rw [Bool.eq_false_iff]
      intro gap
      obtain ⟨entry, member, loss⟩ := discontinuous.mp gap
      have := (none_ entry member).2.2
      omega

/-! ## Steps -/

theorem Carries.skip (carries : self.Carries entries) (individual : entry.individual = []) (folded : entry.folded = [])
    (loss : entry.loss = 0) : self.Carries (entries ++ [entry]) := by
  have nothing : Keeps [entry] ([] : List (ForegroundEvent Instant Data)) [] 0 false := by
    constructor <;> simp [individual, folded, loss]
  refine ⟨?_, carries.few⟩
  simpa using carries.keeps.append nothing

theorem eq_of_checkedAdd {m n sum : Nat} (added : checkedAdd 64 m n = .ok sum) : sum = m + n := by
  unfold checkedAdd at added
  split_ifs at added
  exact (Except.ok.inj added).symm

theorem Carries.noteLost (carries : self.Carries entries) {lost : Nat} (noted : self.noteLost lost = .ok after) :
    after.Carries (entries ++ [.discontinuity lost]) := by
  obtain ⟨droppedEvents, added, noted⟩ := bind_eq_ok.mp noted
  cases noted
  have counted : Keeps [(.discontinuity lost : ForegroundJournalEntry Instant Data)] [] [] lost (decide (lost > 0)) := by
    constructor <;> simp [JournalEntry.individual, JournalEntry.folded, JournalEntry.loss]
  refine ⟨?_, carries.few⟩
  rw [eq_of_checkedAdd added]
  simpa using carries.keeps.append counted

theorem Carries.pushEvent (carries : self.Carries entries) {event : ForegroundEvent Instant Data}
    (individual : entry.individual = [event]) (folded : entry.folded = []) (loss : entry.loss = 0)
    (pushed : self.pushEvent event = .ok after) : after.Carries (entries ++ [entry]) := by
  unfold IntervalSealer.pushEvent at pushed
  split_ifs at pushed with full
  · obtain ⟨droppedEvents, added, pushed⟩ := bind_eq_ok.mp pushed
    cases pushed
    have counted : Keeps [entry] [] [] 1 false := by
      constructor <;> simp [individual, folded, loss]
    refine ⟨?_, carries.few⟩
    rw [eq_of_checkedAdd added]
    simpa using carries.keeps.append counted
  · cases pushed
    have kept : Keeps [entry] [event] [] 0 false := by
      constructor <;> simp [individual, folded, loss]
    refine ⟨by simpa using carries.keeps.append kept, ?_, carries.few.2⟩
    rw [List.length_append, List.length_singleton]
    omega

variable [LinearOrder Instant]

theorem add_eq {left right sum : PollSummary} (added : left.add right = .ok sum) :
    sum.count = left.count + right.count ∧ sum.total = left.total + right.total := by
  obtain ⟨count, counted, added⟩ := bind_eq_ok.mp added
  obtain ⟨total, summed, added⟩ := bind_eq_ok.mp added
  cases added
  unfold addDuration at summed
  split_ifs at summed
  exact ⟨eq_of_checkedAdd counted, (Except.ok.inj summed).symm⟩

theorem Carries.pushSmallPolls (carries : self.Carries entries) {flush : SmallPollFlush Instant}
    (pushed : self.pushSmallPolls flush = .ok after) :
    after.Carries (entries ++ [.recorded (.event (.smallPolls flush))]) := by
  have folds (polls : List (SmallPollFlush Instant)) (count : (polls.map (·.summary.count)).sum = flush.summary.count)
      (total : (polls.map (·.summary.total)).sum = flush.summary.total) (some_ : polls ≠ []) :
      Keeps [(.recorded (.event (.smallPolls flush)) : ForegroundJournalEntry Instant Data)] [] polls 0 false := by
    constructor <;> simp [JournalEntry.individual, JournalEntry.folded, JournalEntry.loss, count, total, some_]
  have appended (room : self.smallPolls.length < maxIntervalEvents) :
      Carries { self with smallPolls := self.smallPolls ++ [flush] }
      (entries ++ [.recorded (.event (.smallPolls flush))]) := by
    refine ⟨by simpa using carries.keeps.append (folds [flush] (by simp) (by simp) (by simp)), carries.few.1, ?_⟩
    rw [List.length_append, List.length_singleton]
    omega
  unfold IntervalSealer.pushSmallPolls at pushed
  cases ends : self.smallPolls.getLast? with
  | none =>
    rw [ends] at pushed
    cases pushed
    refine appended ?_
    rw [List.getLast?_eq_none_iff.mp ends, List.length_nil]
    decide
  | some last =>
    rw [ends] at pushed
    dsimp only at pushed
    split_ifs at pushed with full
    · -- The flushes are full: the last one takes the polls.
      obtain ⟨summary, added, pushed⟩ := bind_eq_ok.mp pushed
      cases pushed
      obtain ⟨sumCount, sumTotal⟩ := add_eq added
      obtain ⟨kept, dropped, -, count, total, discontinuous⟩ :=
        carries.keeps.append (folds [flush] (by simp) (by simp) (by simp))
      have whole := List.dropLast_append_getLast? _ ends
      have few := carries.few
      rw [← whole] at count total few
      refine ⟨⟨by simpa using kept, by simpa using dropped, ?_, ?_, ?_, by simpa using discontinuous⟩, by simpa using few⟩
      · simp [JournalEntry.folded]
      · rw [← count]
        simp
        omega
      · rw [← total]
        simp
        omega
    · cases pushed
      exact appended (not_le.mp full)

/-! ## One entry -/

theorem startAt_carries (carries : self.Carries entries) (time : Instant) : (self.startAt time).Carries entries := by
  unfold startAt
  split_ifs
  · exact ⟨carries.keeps, carries.few⟩
  · exact carries

theorem le_startAt (self : IntervalSealer Instant Data) (time : Instant) :
    self.intervalStart ≤ (self.startAt time).intervalStart := by
  unfold startAt
  split_ifs
  · exact le_max_left _ _
  · exact le_rfl

omit [LinearOrder Instant] in
theorem pushEvent_start {event : ForegroundEvent Instant Data} (pushed : self.pushEvent event = .ok after) :
    after.intervalStart = self.intervalStart := by
  unfold IntervalSealer.pushEvent at pushed
  split_ifs at pushed
  · obtain ⟨droppedEvents, -, pushed⟩ := bind_eq_ok.mp pushed
    cases pushed
    rfl
  · cases pushed
    rfl

theorem pushSmallPolls_start {flush : SmallPollFlush Instant} (pushed : self.pushSmallPolls flush = .ok after) :
    after.intervalStart = self.intervalStart := by
  unfold IntervalSealer.pushSmallPolls at pushed
  split at pushed
  · split_ifs at pushed
    · obtain ⟨summary, -, pushed⟩ := bind_eq_ok.mp pushed
      cases pushed
      rfl
    · cases pushed
      rfl
  · cases pushed
    rfl

structure Shows (snapshot : FrameSnapshot Instant Data) (entries : List (ForegroundJournalEntry Instant Data)) : Prop where
  keeps : Keeps entries snapshot.events snapshot.smallPolls snapshot.droppedEvents snapshot.journalDiscontinuous
  few : snapshot.events.length ≤ maxIntervalEvents ∧ snapshot.smallPolls.length ≤ maxIntervalEvents
  boundary : entries.getLast?.bind JournalEntry.boundary? = some snapshot.boundary

theorem pushEntry_spec (carries : self.Carries entries) {snapshot : Option (FrameSnapshot Instant Data)}
    (pushed : self.pushEntry entry = .ok (after, snapshot)) :
    (snapshot = none ∧ after.Carries (entries ++ [entry]) ∧ self.intervalStart ≤ after.intervalStart ∧
      ¬ (entry.boundary?.isSome ∧ ∃ some_ ∈ entries ++ [entry], some_.IsWork)) ∨
    ∃ shown, snapshot = some shown ∧ Shows shown (entries ++ [entry]) ∧ self.intervalStart ≤ shown.intervalStart ∧
      after = new shown.boundary.endTime ∧
      (entry.boundary?.isSome ∧ ∃ some_ ∈ entries ++ [entry], some_.IsWork) := by
  match entry with
  | .recorded (.event event) =>
    left
    unfold pushEntry at pushed
    obtain ⟨next, stored, pushed⟩ := bind_eq_ok.mp pushed
    cases pushed
    have started := startAt_carries carries event.startTime
    have kept : after.Carries (entries ++ [.recorded (.event event)]) ∧
        after.intervalStart = (self.startAt event.startTime).intervalStart := by
      cases event with
      | smallPolls flush => exact ⟨started.pushSmallPolls stored, pushSmallPolls_start stored⟩
      | taskPoll timing => exact ⟨started.pushEvent rfl rfl rfl stored, pushEvent_start stored⟩
      | action timing => exact ⟨started.pushEvent rfl rfl rfl stored, pushEvent_start stored⟩
      | input timing => exact ⟨started.pushEvent rfl rfl rfl stored, pushEvent_start stored⟩
      | draw timing => exact ⟨started.pushEvent rfl rfl rfl stored, pushEvent_start stored⟩
      | present timing => exact ⟨started.pushEvent rfl rfl rfl stored, pushEvent_start stored⟩
    exact ⟨rfl, kept.1, kept.2 ▸ le_startAt _ _, fun seals => by simp [JournalEntry.boundary?] at seals⟩
  | .recorded (.boundary boundary) =>
    unfold pushEntry at pushed
    obtain ⟨next, stored, pushed⟩ := bind_eq_ok.mp pushed
    have kept : next.Carries (entries ++ [.recorded (.boundary boundary)]) ∧
        self.intervalStart ≤ next.intervalStart := by
      cases boundary with
      | presented frame =>
        have started := startAt_carries carries frame.presentation.start
        exact ⟨started.pushEvent rfl rfl rfl stored, pushEvent_start stored ▸ le_startAt _ _⟩
      | idle endedAt =>
        cases stored
        exact ⟨carries.skip rfl rfl rfl, le_rfl⟩
      | powerTransition endedAt =>
        cases stored
        exact ⟨carries.skip rfl rfl rfl, le_rfl⟩
    have empty := kept.1.isEmpty_iff
    split_ifs at pushed with isEmpty
    · cases pushed
      exact .inl ⟨rfl, startAt_carries kept.1 _, kept.2.trans (le_startAt _ _), fun seals => empty.mp isEmpty seals.2⟩
    · cases pushed
      refine .inr ⟨_, rfl, ⟨kept.1.keeps, kept.1.few, ?_⟩, kept.2, rfl, rfl, not_not.mp fun noWork => isEmpty (empty.mpr noWork)⟩
      rw [List.getLast?_concat]
      rfl
  | .recorded .frameState =>
    cases pushed
    exact .inl ⟨rfl, carries.skip rfl rfl rfl, le_rfl, fun seals => by simp [JournalEntry.boundary?] at seals⟩
  | .discontinuity lost =>
    obtain ⟨next, noted, pushed⟩ := bind_eq_ok.mp pushed
    cases pushed
    have kept := carries.noteLost noted
    obtain ⟨droppedEvents, -, noted⟩ := bind_eq_ok.mp noted
    cases noted
    exact .inl ⟨rfl, kept, le_rfl, fun seals => by simp [JournalEntry.boundary?] at seals⟩

end IntervalSealer

/-! ## All the entries -/

theorem intervals_flatten (current entries : List (ForegroundJournalEntry Instant Data)) :
    (intervals current entries).1.flatten ++ (intervals current entries).2 = current ++ entries := by
  induction entries generalizing current with
  | nil => simp [intervals]
  | cons entry rest ih =>
    rw [intervals]
    split_ifs
    · rw [List.flatten_cons, List.append_assoc, ih []]
      simp
    · rw [ih, List.append_assoc, List.singleton_append]

variable [LinearOrder Instant]

def Chained (start : Instant) : List (FrameSnapshot Instant Data) → Instant → Prop
  | [], stop => start ≤ stop
  | snapshot :: rest, stop => start ≤ snapshot.intervalStart ∧ Chained snapshot.boundary.endTime rest stop

theorem Chained.weaken {start later stop : Instant} {snapshots : List (FrameSnapshot Instant Data)}
    (chained : Chained later snapshots stop) (le : start ≤ later) : Chained start snapshots stop := by
  cases snapshots with
  | nil => exact le.trans chained
  | cons snapshot rest => exact ⟨le.trans chained.1, chained.2⟩

theorem Chained.isChain {start stop : Instant} {snapshots : List (FrameSnapshot Instant Data)}
    (chained : Chained start snapshots stop) :
    snapshots.IsChain fun before after => before.boundary.endTime ≤ after.intervalStart := by
  induction snapshots generalizing start with
  | nil => exact .nil
  | cons snapshot rest ih =>
    cases rest with
    | nil => exact .singleton _
    | cons next rest => exact .cons_cons chained.2.1 (ih chained.2)

namespace IntervalSealer

variable {self after : IntervalSealer Instant Data} {current entries rest : List (ForegroundJournalEntry Instant Data)}
  {entry : ForegroundJournalEntry Instant Data} {snapshots : List (FrameSnapshot Instant Data)}

theorem pushEntries_from (self : IntervalSealer Instant Data) (entries : List (ForegroundJournalEntry Instant Data))
    (snapshots : List (FrameSnapshot Instant Data)) :
    (entries.foldlM (fun (self, snapshots) entry => do
      let (self, snapshot) ← self.pushEntry entry
      return (self, snapshots ++ snapshot.toList)) (self, snapshots) : Except Panic _) = (do
        let (self, more) ← self.pushEntries entries
        return (self, snapshots ++ more)) := by
  induction entries generalizing self snapshots with
  | nil => simp [pushEntries]
  | cons entry rest ih =>
    rw [pushEntries, List.foldlM_cons, List.foldlM_cons]
    dsimp only
    cases first : self.pushEntry entry with
    | error panic => rfl
    | ok result =>
      simp only [ok_bind, pure_bind, ih]
      cases others : result.1.pushEntries rest with
      | error panic => rfl
      | ok result => simp

theorem pushEntries_cons :
    self.pushEntries (entry :: rest) = (do
      let (self, snapshot) ← self.pushEntry entry
      let (self, more) ← self.pushEntries rest
      return (self, snapshot.toList ++ more)) := by
  rw [pushEntries, List.foldlM_cons]
  dsimp only
  cases first : self.pushEntry entry with
  | error panic => rfl
  | ok result =>
    simp only [ok_bind, pure_bind, pushEntries_from, List.nil_append]

theorem pushEntries_append :
    self.pushEntries (entries ++ rest) = (do
      let (self, snapshots) ← self.pushEntries entries
      let (self, more) ← self.pushEntries rest
      return (self, snapshots ++ more)) := by
  rw [pushEntries, List.foldlM_append]
  change (self.pushEntries entries >>= _) = _
  cases self.pushEntries entries with
  | error panic => rfl
  | ok result =>
    simp only [ok_bind]
    exact pushEntries_from result.1 rest result.2

theorem run_eq (calls : List (Call Instant Data)) : self.run calls = self.pushEntries (calls.flatMap Call.entries) := by
  induction calls generalizing self with
  | nil => rfl
  | cons call calls ih =>
    have once : self.call call = self.pushEntries call.entries := by
      cases call with
      | noteLost lost =>
        rw [Call.entries, pushEntries_cons, pushEntry, IntervalSealer.call]
        cases self.noteLost lost with
        | error panic => rfl
        | ok noted => rfl
      | pushEntries entries => rfl
    rw [List.flatMap_cons, pushEntries_append, IntervalSealer.run, once]
    simp only [ih]

theorem pushEntries_spec (carries : self.Carries current) (pushed : self.pushEntries entries = .ok (after, snapshots)) :
    List.Forall₂ Shows snapshots (intervals current entries).1 ∧ after.Carries (intervals current entries).2 ∧
    Chained self.intervalStart snapshots after.intervalStart := by
  induction entries generalizing self current snapshots with
  | nil =>
    cases pushed
    exact ⟨.nil, carries, le_rfl⟩
  | cons entry rest ih =>
    rw [pushEntries_cons] at pushed
    obtain ⟨⟨next, snapshot⟩, first, pushed⟩ := bind_eq_ok.mp pushed
    obtain ⟨⟨last, more⟩, others, pushed⟩ := bind_eq_ok.mp pushed
    cases pushed
    rw [intervals]
    rcases pushEntry_spec carries first with ⟨rfl, kept, le, open_⟩ | ⟨shown, rfl, shows_, le, rfl, sealed⟩
    · rw [if_neg open_]
      obtain ⟨shown, carried, chained⟩ := ih kept others
      exact ⟨shown, carried, chained.weaken le⟩
    · rw [if_pos sealed]
      obtain ⟨shown, carried, chained⟩ := ih (new_carries _) others
      exact ⟨.cons shows_ shown, carried, le, chained⟩

/-! ## Calls that return -/

structure Fits (entries : List (ForegroundJournalEntry Instant Data)) : Prop where
  dropped : (entries.flatMap JournalEntry.individual).length + (entries.map JournalEntry.loss).sum < 2 ^ 64
  count : ((entries.flatMap JournalEntry.folded).map PollSummary.count).sum < 2 ^ 64
  total : ((entries.flatMap JournalEntry.folded).map PollSummary.total).sum ≤ durationMax

omit [LinearOrder Instant] in
theorem Fits.of_append (fits : Fits (entries ++ rest)) : Fits entries ∧ Fits rest := by
  obtain ⟨dropped, count, total⟩ := fits
  simp only [List.flatMap_append, List.map_append, List.length_append, List.sum_append] at dropped count total
  exact ⟨⟨by omega, by omega, by omega⟩, ⟨by omega, by omega, by omega⟩⟩

omit [LinearOrder Instant] in
theorem pushEvent_ok (carries : self.Carries entries) {event : ForegroundEvent Instant Data}
    (individual : entry.individual = [event]) (fits : Fits (entries ++ [entry])) :
    ∃ after, self.pushEvent event = .ok after := by
  have dropped := carries.keeps.dropped
  have fits := fits.dropped
  simp [individual, -List.length_flatMap] at fits
  unfold IntervalSealer.pushEvent
  split_ifs
  · rw [checkedAdd_of_lt (by omega)]
    exact ⟨_, rfl⟩
  · exact ⟨_, rfl⟩

theorem pushSmallPolls_ok (carries : self.Carries entries) {flush : SmallPollFlush Instant}
    (fits : Fits (entries ++ [.recorded (.event (.smallPolls flush))])) :
    ∃ after, self.pushSmallPolls flush = .ok after := by
  have count := carries.keeps.count
  have total := carries.keeps.total
  have fitsCount := fits.count
  have fitsTotal := fits.total
  simp [JournalEntry.folded] at fitsCount fitsTotal
  unfold IntervalSealer.pushSmallPolls
  cases ends : self.smallPolls.getLast? with
  | none => exact ⟨_, rfl⟩
  | some last =>
    dsimp only
    split_ifs
    · rw [← List.dropLast_append_getLast? _ ends] at count total
      simp at count total
      rw [PollSummary.add, checkedAdd_of_lt (by omega), addDuration, if_pos (by omega)]
      exact ⟨_, rfl⟩
    · exact ⟨_, rfl⟩

theorem pushEntry_ok (carries : self.Carries entries) (fits : Fits (entries ++ [entry])) :
    ∃ result, self.pushEntry entry = .ok result := by
  match entry with
  | .recorded (.event event) =>
    have started := startAt_carries carries event.startTime
    unfold pushEntry
    cases event with
    | smallPolls flush =>
      obtain ⟨after, pushed⟩ := pushSmallPolls_ok started fits
      exact ⟨_, bind_eq_ok.mpr ⟨after, pushed, rfl⟩⟩
    | taskPoll timing =>
      obtain ⟨after, pushed⟩ := pushEvent_ok started rfl fits
      exact ⟨_, bind_eq_ok.mpr ⟨after, pushed, rfl⟩⟩
    | action timing =>
      obtain ⟨after, pushed⟩ := pushEvent_ok started rfl fits
      exact ⟨_, bind_eq_ok.mpr ⟨after, pushed, rfl⟩⟩
    | input timing =>
      obtain ⟨after, pushed⟩ := pushEvent_ok started rfl fits
      exact ⟨_, bind_eq_ok.mpr ⟨after, pushed, rfl⟩⟩
    | draw timing =>
      obtain ⟨after, pushed⟩ := pushEvent_ok started rfl fits
      exact ⟨_, bind_eq_ok.mpr ⟨after, pushed, rfl⟩⟩
    | present timing =>
      obtain ⟨after, pushed⟩ := pushEvent_ok started rfl fits
      exact ⟨_, bind_eq_ok.mpr ⟨after, pushed, rfl⟩⟩
  | .recorded (.boundary boundary) =>
    have sealed (next : IntervalSealer Instant Data) :
        ∃ result, (if next.isEmpty then pure (next.startAt boundary.endTime, none)
          else pure ((next.seal_ boundary).1, some (next.seal_ boundary).2) :
            Except Panic (IntervalSealer Instant Data × Option (FrameSnapshot Instant Data))) = .ok result := by
      split_ifs
      · exact ⟨_, rfl⟩
      · exact ⟨_, rfl⟩
    unfold pushEntry
    cases boundary with
    | presented frame =>
      obtain ⟨next, pushed⟩ := pushEvent_ok (startAt_carries carries frame.presentation.start) rfl fits
      obtain ⟨result, returned⟩ := sealed next
      exact ⟨result, bind_eq_ok.mpr ⟨next, pushed, returned⟩⟩
    | idle endedAt =>
      obtain ⟨result, returned⟩ := sealed self
      exact ⟨result, bind_eq_ok.mpr ⟨self, rfl, returned⟩⟩
    | powerTransition endedAt =>
      obtain ⟨result, returned⟩ := sealed self
      exact ⟨result, bind_eq_ok.mpr ⟨self, rfl, returned⟩⟩
  | .recorded .frameState => exact ⟨_, rfl⟩
  | .discontinuity lost =>
    have dropped := carries.keeps.dropped
    have fits := fits.dropped
    simp only [List.flatMap_append, List.map_append, List.length_append, List.sum_append, List.map_singleton,
      List.sum_singleton, JournalEntry.loss] at fits
    rw [pushEntry, IntervalSealer.noteLost, checkedAdd_of_lt (by omega)]
    exact ⟨_, rfl⟩

theorem pushEntries_ok (carries : self.Carries current) (fits : Fits (current ++ entries)) :
    ∃ result, self.pushEntries entries = .ok result := by
  induction entries generalizing self current with
  | nil => exact ⟨_, rfl⟩
  | cons entry rest ih =>
    rw [← List.singleton_append, ← List.append_assoc] at fits
    obtain ⟨⟨next, snapshot⟩, first⟩ := pushEntry_ok carries fits.of_append.1
    have others : ∃ result, next.pushEntries rest = .ok result := by
      rcases pushEntry_spec carries first with ⟨-, kept, -⟩ | ⟨shown, -, -, -, rfl, -⟩
      · exact ih kept fits
      · exact ih (new_carries _) fits.of_append.2
    obtain ⟨result, others⟩ := others
    rw [pushEntries_cons, first, ok_bind]
    dsimp only
    rw [others]
    exact ⟨_, rfl⟩

end IntervalSealer

/-! ## Conservation -/

structure Conserves (entries : List (ForegroundJournalEntry Instant Data)) (snapshots : List (FrameSnapshot Instant Data))
    (sealer : IntervalSealer Instant Data) : Prop where
  kept : (snapshots.flatMap FrameSnapshot.events ++ sealer.events).Sublist (entries.flatMap JournalEntry.individual)
  dropped : (snapshots.map FrameSnapshot.droppedEvents).sum + sealer.droppedEvents =
    ((entries.flatMap JournalEntry.individual).length -
      (snapshots.flatMap FrameSnapshot.events ++ sealer.events).length) + (entries.map JournalEntry.loss).sum
  count : ((snapshots.flatMap FrameSnapshot.smallPolls ++ sealer.smallPolls).map (·.summary.count)).sum =
    ((entries.flatMap JournalEntry.folded).map PollSummary.count).sum
  total : ((snapshots.flatMap FrameSnapshot.smallPolls ++ sealer.smallPolls).map (·.summary.total)).sum =
    ((entries.flatMap JournalEntry.folded).map PollSummary.total).sum
  discontinuous : List.Forall₂ (fun snapshot interval => snapshot.journalDiscontinuous = true ↔
    ∃ entry ∈ interval, 0 < JournalEntry.loss entry) snapshots (intervals [] entries).1
  few : ∀ snapshot ∈ snapshots, snapshot.events.length ≤ maxIntervalEvents ∧
    snapshot.smallPolls.length ≤ maxIntervalEvents
  starts : snapshots.IsChain fun before after => before.boundary.endTime ≤ after.intervalStart

variable {sealer : IntervalSealer Instant Data} {snapshots : List (FrameSnapshot Instant Data)}
  {shown : List (List (ForegroundJournalEntry Instant Data))} {carried : List (ForegroundJournalEntry Instant Data)}

omit [LinearOrder Instant] in
theorem conserved (shows_ : List.Forall₂ IntervalSealer.Shows snapshots shown) (carries : sealer.Carries carried) :
    Keeps (shown.flatten ++ carried) (snapshots.flatMap FrameSnapshot.events ++ sealer.events)
    (snapshots.flatMap FrameSnapshot.smallPolls ++ sealer.smallPolls)
    ((snapshots.map FrameSnapshot.droppedEvents).sum + sealer.droppedEvents)
    (snapshots.any FrameSnapshot.journalDiscontinuous || sealer.journalDiscontinuous) := by
  induction shows_ with
  | nil => simpa using carries.keeps
  | cons shows_ _ ih => simpa [Nat.add_assoc, Bool.or_assoc] using shows_.keeps.append ih

/-- The sealer returns unless a count overflows, and it conserves what it was given. -/
theorem sealer_conserves (start : Instant) (calls : List (Call Instant Data)) :
    (IntervalSealer.Fits (calls.flatMap Call.entries) → ∃ result, (IntervalSealer.new start).run calls = .ok result) ∧
    ∀ sealer snapshots, (IntervalSealer.new start).run calls = .ok (sealer, snapshots) →
    Conserves (calls.flatMap Call.entries) snapshots sealer := by
  constructor
  · intro fits
    rw [IntervalSealer.run_eq]
    exact IntervalSealer.pushEntries_ok (IntervalSealer.new_carries start) fits
  · intro sealer snapshots ran
    rw [IntervalSealer.run_eq] at ran
    obtain ⟨shown, carries, chained⟩ := IntervalSealer.pushEntries_spec (IntervalSealer.new_carries start) ran
    have keeps := conserved shown carries
    rw [intervals_flatten, List.nil_append] at keeps
    refine ⟨keeps.kept, ?_, keeps.count, keeps.total, ?_, ?_, chained.isChain⟩
    · have := keeps.kept.length_le
      have := keeps.dropped
      omega
    · exact shown.imp fun _ _ shows_ => shows_.keeps.discontinuous
    · exact ((List.forall₂_and_left _ _).mp (shown.imp fun _ _ shows_ => ⟨shows_.few, shows_⟩)).1

/-- A poll, an event and a loss, up to an idle boundary. -/
theorem idle_conserves : ∃ sealer snapshots, (IntervalSealer.new 0 : IntervalSealer Nat Unit).run
      [.pushEntries [.recorded (.event (.smallPolls ⟨⟨3, 5⟩, 1, 2⟩)), .recorded (.event (.action ⟨2, 4, ()⟩))], .noteLost 2,
        .pushEntries [.recorded (.boundary (.idle 6)), .recorded .frameState]] = .ok (sealer, snapshots) ∧
    snapshots = [⟨1, .idle 6, [.action ⟨2, 4, ()⟩], [⟨⟨3, 5⟩, 1, 2⟩], 2, true⟩] ∧
    Conserves [.recorded (.event (.smallPolls ⟨⟨3, 5⟩, 1, 2⟩)), .recorded (.event (.action ⟨2, 4, ()⟩)), .discontinuity 2,
      .recorded (.boundary (.idle 6)), .recorded .frameState] snapshots sealer := by
  refine ⟨_, _, rfl, rfl, ?_⟩
  exact (sealer_conserves 0 [.pushEntries [.recorded (.event (.smallPolls ⟨⟨3, 5⟩, 1, 2⟩)),
    .recorded (.event (.action ⟨2, 4, ()⟩))], .noteLost 2,
    .pushEntries [.recorded (.boundary (.idle 6)), .recorded .frameState]]).2 _ _ rfl

end Pinrail.Journal

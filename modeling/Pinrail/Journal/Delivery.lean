import Mathlib.Data.List.Perm.Basic
import Pinrail.Journal.Reads

/-!
# Delivery

The entries of a journal reach each of its collectors in order, at the sequences they were offered at,
or are counted as lost.
-/

namespace Pinrail.Journal

variable {E : Type} {capacity pendingCapacity : Nat} {state after : State E} {entry : E} {rest : List E}

/-! ## The invariant -/

structure Inv (capacity pendingCapacity : Nat) (state : State E) : Prop where
  capacity : state.ring.capacity = max capacity 1
  pendingCapacity : state.publisher.pendingCapacity = pendingCapacity
  publisher : PublisherInv state.ring state.publisher state.pc state.log state.drops
  users : UsersInv state.ring state.pc state.collectors
  collectors : ∀ collector ∈ state.collectors,
    CollectorInv (Excused state.ring state.drops state.collectors.length) state.log state.ring.finalized collector

structure Advances (state after : State E) : Prop where
  capacity : after.ring.capacity = state.ring.capacity
  pendingCapacity : after.publisher.pendingCapacity = state.publisher.pendingCapacity
  finalized : state.ring.finalized ≤ after.ring.finalized
  offered : state.ring.offered ≤ after.ring.offered
  log : state.log <+: after.log
  drops : state.drops <+: after.drops

theorem Advances.collectors (advances : Advances state after) {readers readers' : Nat} (more : readers ≤ readers')
    {collector : Collector E}
    (inv : CollectorInv (Excused state.ring state.drops readers) state.log state.ring.finalized collector) :
    CollectorInv (Excused after.ring after.drops readers') after.log after.ring.finalized collector := by
  apply inv.mono
  · rintro sequence (⟨drop, member, same⟩ | overwritten | many)
    · exact .inl ⟨drop, advances.drops.subset member, same⟩
    · have := advances.offered
      exact .inr (.inl (by rw [advances.capacity]; omega))
    · exact .inr (.inr (many.trans more))
  · intro i entry found
    obtain ⟨inside, rfl⟩ := List.getElem?_eq_some_iff.mp found
    rw [List.getElem?_eq_some_iff]
    exact ⟨inside.trans_le advances.log.length_le, (advances.log.getElem inside).symm⟩
  · exact advances.finalized

structure PublisherStep (state after : State E) : Prop where
  publisher : PublisherInv after.ring after.publisher after.pc after.log after.drops
  users : UsersInv after.ring after.pc after.collectors
  advances : Advances state after
  collectors : after.collectors = state.collectors

theorem Inv.advance (inv : Inv capacity pendingCapacity state) (step : PublisherStep state after) :
    Inv capacity pendingCapacity after := by
  refine ⟨step.advances.capacity.trans inv.capacity, step.advances.pendingCapacity.trans inv.pendingCapacity,
    step.publisher, step.users, ?_⟩
  intro collector member
  rw [step.collectors] at member ⊢
  exact step.advances.collectors le_rfl (inv.collectors collector member)

theorem State.new_inv (capacity pendingCapacity : Nat) : Inv capacity pendingCapacity (State.new capacity pendingCapacity : State E) := by
  refine ⟨rfl, rfl, ⟨rfl, rfl, rfl, nofun, rfl, ?_, nofun, nofun, nofun⟩, ⟨nofun, fun i _ => rfl⟩, nofun⟩
  intro sequence _ below
  cases below

/-! ## Steps of the publisher -/

theorem claim_spec {parked : Bool} {sequence : Nat} (users : UsersInv state.ring state.pc state.collectors)
    (publisher : PublisherInv state.ring state.publisher (.write parked sequence entry rest) state.log state.drops)
    (writing : state.pc.writing = none) (claimed : state.claim parked sequence entry rest = some after) :
    PublisherStep state after := by
  simp only [State.claim, Option.ite_none_right_eq_some] at claimed
  obtain ⟨free, same⟩ := claimed
  cases same
  exact ⟨publisher.setUsers sequence slotWriter, users.claim writing free rfl,
    ⟨rfl, rfl, le_rfl, le_rfl, List.prefix_rfl, List.prefix_rfl⟩, rfl⟩

theorem offer_spec (inv : Inv capacity pendingCapacity state) (place : state.pc = .offer (entry :: rest)) :
    PublisherStep state (state.offer entry rest) := by
  obtain ⟨ring, publisher, pc, collectors, log, drops⟩ := state
  cases place
  have users (place : PublisherPc E) (idle : place.writing = none) :
      UsersInv { ring with offered := publisher.nextSequence + 1 } place collectors :=
    inv.users.congr rfl (fun _ => rfl) idle
  have offered : ring.offered ≤ publisher.nextSequence + 1 := inv.publisher.offered ▸ Nat.le_succ _
  unfold State.offer
  dsimp only [State.offered]
  split_ifs with blocked room
  · exact ⟨inv.publisher.offer_park room.1, users _ rfl,
      ⟨rfl, rfl, le_rfl, offered, List.prefix_append _ _, List.prefix_rfl⟩, rfl⟩
  · exact ⟨inv.publisher.offer_drop room, users _ rfl,
      ⟨rfl, rfl, le_rfl, offered, List.prefix_append _ _, List.prefix_append _ _⟩, rfl⟩
  · have noPending : publisher.pending = [] := not_not.mp fun pending => blocked (.inl pending)
    have noDrops : publisher.droppedAfterPending = 0 := Nat.eq_zero_of_not_pos fun drops => blocked (.inr drops)
    exact ⟨inv.publisher.offer_try noPending noDrops, users _ rfl,
      ⟨rfl, rfl, le_rfl, offered, List.prefix_append _ _, List.prefix_rfl⟩, rfl⟩

theorem stepPublisher_spec (inv : Inv capacity pendingCapacity state) (stepped : state.stepPublisher = some after) :
    PublisherStep state after := by
  have stay (pc : PublisherPc E) : Advances state { state with pc := pc } :=
    ⟨rfl, rfl, le_rfl, le_rfl, List.prefix_rfl, List.prefix_rfl⟩
  have publisherInv := inv.publisher
  have users := inv.users
  unfold State.stepPublisher at stepped
  cases place : state.pc with
  | idle =>
    rw [place] at stepped
    cases stepped
  | flush rest =>
    rw [place] at stepped publisherInv
    cases pending : state.publisher.pending with
    | cons front others =>
      simp only [pending] at stepped
      cases claimed : state.claim true front.sequence front.entry rest with
      | none =>
        rw [claimed] at stepped
        cases stepped
        exact ⟨publisherInv.goto publisherInv.at_ rfl rfl, users.congr rfl (fun _ => rfl) (by rw [place]; rfl),
          stay _, rfl⟩
      | some next =>
        rw [claimed] at stepped
        cases stepped
        exact claim_spec users (publisherInv.claim_parked pending) (by rw [place]; rfl) claimed
    | nil =>
      simp only [pending] at stepped
      split_ifs at stepped with drops
      · cases stepped
        have finalized := publisherInv.finalizeDropped pending
        rw [pending] at finalized
        exact ⟨finalized, users.congr rfl (fun _ => rfl) (by rw [place]; rfl),
          ⟨rfl, rfl, publisherInv.finalized_le, le_rfl, List.prefix_rfl, List.prefix_rfl⟩, rfl⟩
      · cases stepped
        exact ⟨publisherInv.goto publisherInv.at_ rfl rfl, users.congr rfl (fun _ => rfl) (by rw [place]; rfl),
          stay _, rfl⟩
  | offer entries =>
    rw [place] at stepped publisherInv
    cases entries with
    | nil =>
      cases stepped
      exact ⟨publisherInv.goto publisherInv.at_ rfl rfl, users.congr rfl (fun _ => rfl) (by rw [place]; rfl),
        ⟨rfl, rfl, le_rfl, le_rfl, List.prefix_rfl, List.prefix_rfl⟩, rfl⟩
    | cons entry rest =>
      cases stepped
      exact offer_spec inv place
  | tryPublish sequence entry rest =>
    rw [place] at stepped publisherInv
    have same (place' : PublisherPc E) (idle : place'.writing = none) : UsersInv state.ring place' state.collectors :=
      users.congr rfl (fun _ => rfl) (by rw [place]; exact idle)
    cases claimed : state.claim false sequence entry rest with
    | none =>
      simp only [claimed, Option.getD_none] at stepped
      split_ifs at stepped with room
      · cases stepped
        exact ⟨publisherInv.try_park, same _ rfl, ⟨rfl, rfl, le_rfl, le_rfl, List.prefix_rfl, List.prefix_rfl⟩, rfl⟩
      · cases stepped
        exact ⟨publisherInv.try_drop room, same _ rfl,
          ⟨rfl, rfl, le_rfl, le_rfl, List.prefix_rfl, List.prefix_append _ _⟩, rfl⟩
    | some next =>
      simp only [claimed, Option.getD_some] at stepped
      cases stepped
      exact claim_spec users (publisherInv.goto publisherInv.at_ rfl rfl) (by rw [place]; rfl) claimed
  | write parked sequence entry rest =>
    rw [place] at stepped publisherInv
    cases stepped
    exact ⟨publisherInv.write, users.setSlot rfl (by rw [place]; rfl),
      ⟨rfl, rfl, le_rfl, le_rfl, List.prefix_rfl, List.prefix_rfl⟩, rfl⟩
  | storeSequence parked sequence entry rest =>
    rw [place] at stepped publisherInv
    cases stepped
    exact ⟨publisherInv.storeSequence, users.setSlot rfl (by rw [place]; rfl),
      ⟨rfl, rfl, le_rfl, le_rfl, List.prefix_rfl, List.prefix_rfl⟩, rfl⟩
  | release parked sequence entry rest =>
    rw [place] at stepped publisherInv
    cases stepped
    refine ⟨(publisherInv.setUsers sequence 0).goto ?_ rfl rfl, users.release (by rw [place]; rfl) rfl,
      ⟨rfl, rfl, le_rfl, le_rfl, List.prefix_rfl, List.prefix_rfl⟩, rfl⟩
    obtain ⟨flight, stored⟩ := publisherInv.at_
    exact ⟨flight.setSlot _ _, by rw [slot_setSlot]; exact stored⟩
  | finalize parked sequence entry rest =>
    rw [place] at stepped publisherInv
    cases stepped
    have next := publisherInv.at_.1.next
    refine ⟨publisherInv.finalize, users.congr rfl (fun _ => rfl) (by rw [place]; rfl),
      ⟨rfl, rfl, ?_, le_rfl, List.prefix_rfl, List.prefix_rfl⟩, rfl⟩
    dsimp only
    omega

/-! ## Runs -/

theorem Inv.step (inv : Inv capacity pendingCapacity state) {action : Action E} (stepped : step state action = some after) :
    Inv capacity pendingCapacity after ∧ Advances state after := by
  cases action with
  | publish entries =>
    cases place : state.pc with
    | idle =>
      simp only [Journal.step, place, Option.some.injEq] at stepped
      cases stepped
      have publisherInv := inv.publisher
      rw [place] at publisherInv
      have advances : Advances state { state with pc := .flush entries } :=
        ⟨rfl, rfl, le_rfl, le_rfl, List.prefix_rfl, List.prefix_rfl⟩
      exact ⟨inv.advance ⟨publisherInv.goto publisherInv.at_ rfl rfl,
        inv.users.congr rfl (fun _ => rfl) (by rw [place]; rfl), advances, rfl⟩, advances⟩
    | _ => simp [Journal.step, place] at stepped
  | publisher =>
    have spec := stepPublisher_spec inv stepped
    exact ⟨inv.advance spec, spec.advances⟩
  | collector =>
    cases stepped
    have advances : Advances state { state with
        collectors := state.collectors ++ [{ cursor := state.ring.offered, start := state.ring.offered }] } :=
      ⟨rfl, rfl, le_rfl, le_rfl, List.prefix_rfl, List.prefix_rfl⟩
    refine ⟨⟨inv.capacity, inv.pendingCapacity, inv.publisher, inv.users.concat rfl, ?_⟩, advances⟩
    intro collector member
    rcases List.mem_append.mp member with member | member
    · exact advances.collectors (by simp) (inv.collectors collector member)
    · cases List.mem_singleton.mp member
      exact ⟨rfl, nofun, nofun, nofun, rfl, trivial⟩
  | collect i =>
    cases found : state.collectors[i]? with
    | none => simp [Journal.step, found] at stepped
    | some collector =>
      simp only [Journal.step, found, Option.some.injEq] at stepped
      cases stepped
      obtain ⟨same, users, spec⟩ := stepCollector_spec inv.publisher inv.users
        (inv.collectors collector (List.mem_of_getElem? found)) found
      have advances : Advances state { state with
          ring := (State.stepCollector state.ring collector).1
          collectors := state.collectors.set i (State.stepCollector state.ring collector).2 } :=
        ⟨same.capacity, rfl, same.finalized.ge, same.offered.ge, List.prefix_rfl, List.prefix_rfl⟩
      refine ⟨⟨same.capacity.trans inv.capacity, inv.pendingCapacity,
        inv.publisher.congr same.capacity same.finalized same.offered same.sequences same.entries, users, ?_⟩, advances⟩
      intro other member
      rcases List.mem_or_eq_of_mem_set member with member | rfl
      · exact advances.collectors (by simp) (inv.collectors other member)
      · exact advances.collectors (by simp) spec

theorem Inv.run (inv : Inv capacity pendingCapacity state) {actions : List (Action E)}
    (ran : run state actions = some after) : Inv capacity pendingCapacity after := by
  induction actions generalizing state with
  | nil =>
    cases ran
    exact inv
  | cons action actions ih =>
    obtain ⟨next, stepped, ran⟩ := Option.bind_eq_some_iff.mp ran
    exact ih (inv.step stepped).1 ran

/-! ## Drops -/

/-- A sequence that was dropped in an unbroken run of drops, the first of them with the queue full. -/
def DroppedSinceFull (pendingCapacity : Nat) (drops : List Drop) (sequence : Nat) : Prop :=
  ∃ first ∈ drops, pendingCapacity ≤ first.queued ∧ first.sequence ≤ sequence ∧
    ∀ between, first.sequence ≤ between → between ≤ sequence → Dropped drops between

theorem PublisherInv.dropped_since_full {ring : JournalRing E} {publisher : JournalPublisher E} {pc : PublisherPc E}
    {log : List E} {drops : List Drop} (inv : PublisherInv ring publisher pc log drops) {sequence : Nat}
    (dropped : Dropped drops sequence) : DroppedSinceFull publisher.pendingCapacity drops sequence := by
  induction sequence with
  | zero =>
    obtain ⟨drop, member, first⟩ := dropped
    rcases inv.stretch drop member with full | ⟨before, -, earlier⟩
    · refine ⟨drop, member, full, first.le, fun between _ le => ?_⟩
      exact ⟨drop, member, by omega⟩
    · omega
  | succ sequence ih =>
    obtain ⟨drop, member, here⟩ := dropped
    rcases inv.stretch drop member with full | ⟨before, earlier, next⟩
    · refine ⟨drop, member, full, here.le, fun between ge le => ?_⟩
      exact ⟨drop, member, by omega⟩
    · obtain ⟨first, inside, full, le, unbroken⟩ := ih ⟨before, earlier, by omega⟩
      refine ⟨first, inside, full, by omega, fun between ge below => ?_⟩
      by_cases last : between = sequence + 1
      · exact ⟨drop, member, by omega⟩
      · exact unbroken between ge (by omega)

/-! ## Delivery -/

/-- What the calls of a collector returned, with what a call under way has so far: every sequence from its
start on once, as the entry that was offered or in a marker, and in a marker only if it was dropped or
overwritten. -/
structure Delivery (capacity pendingCapacity : Nat) (state : State E) (collector : Collector E) : Prop where
  covered : ((delivered collector.start collector.entries).map Prod.fst ++ missing collector.start collector.entries).Perm
    (List.range' collector.start (extent collector.entries))
  reached : collector.start + extent collector.entries = collector.cursor
  ordered : (delivered collector.start collector.entries).Pairwise fun before after => before.1 < after.1
  exact_ : ∀ item ∈ delivered collector.start collector.entries, state.log[item.1]? = some item.2
  lost : ∀ drained ∈ collector.drains, drained.lost = markers drained.entries
  excused : ∀ sequence ∈ missing collector.start collector.entries,
    DroppedSinceFull pendingCapacity state.drops sequence ∨ sequence + max capacity 1 < state.ring.offered ∨
      slotReaderMask ≤ state.collectors.length

theorem Inv.delivery (inv : Inv capacity pendingCapacity state) {collector : Collector E}
    (member : collector ∈ state.collectors) : Delivery capacity pendingCapacity state collector := by
  have spec := inv.collectors collector member
  refine ⟨delivered_missing_perm, spec.cursor, delivered_pairwise, spec.delivered, spec.drains, ?_⟩
  intro sequence inside
  rcases spec.missing sequence inside with dropped | overwritten | many
  · exact .inl (inv.pendingCapacity ▸ inv.publisher.dropped_since_full dropped)
  · exact .inr (.inl (inv.capacity ▸ overwritten))
  · exact .inr (.inr many)

theorem journal_delivery (capacity pendingCapacity : Nat) (actions : List (Action E)) (state : State E)
    (ran : run (.new capacity pendingCapacity) actions = some state) :
    (∀ collector ∈ state.collectors, Delivery capacity pendingCapacity state collector) ∧
    state.ring.finalized ≤ state.publisher.nextSequence ∧
    (∀ pending ∈ state.publisher.pending, state.ring.finalized ≤ pending.sequence) ∧ ∀ action after,
    step state action = some after → state.ring.finalized ≤ after.ring.finalized := by
  have inv := (State.new_inv capacity pendingCapacity).run ran
  refine ⟨fun collector member => inv.delivery member, inv.publisher.finalized_le,
    fun pending member => inv.publisher.le_pending member, fun action after stepped => ?_⟩
  exact (inv.step stepped).2.finalized

/-- One entry, published and collected. -/
theorem published_delivery : ∃ state, run (.new 1 0 : State Nat)
    ([.collector, .publish [7]] ++ List.replicate 9 .publisher ++ List.replicate 5 (.collect 0)) = some state ∧
    state.collectors.map Collector.drains = [[⟨[.recorded 7], 0⟩]] ∧
    ∀ collector ∈ state.collectors, Delivery 1 0 state collector := by
  refine ⟨_, rfl, rfl, ?_⟩
  exact (journal_delivery 1 0 ([.collector, .publish [7]] ++ List.replicate 9 .publisher ++
    List.replicate 5 (.collect 0)) _ rfl).1

/-- An entry is dropped where the queue has room, when the one before it was dropped. -/
theorem dropped_with_room : ∃ state, run (.new 1 2 : State Nat)
    ([.collector, .publish [0]] ++ List.replicate 9 .publisher ++ [.collect 0, .collect 0, .publish [1, 2, 3]] ++
      List.replicate 9 .publisher ++ List.replicate 3 (.collect 0) ++ [.publish [4]] ++ List.replicate 5 .publisher ++
      [.collect 0, .collect 0] ++ List.replicate 4 .publisher ++ List.replicate 3 (.collect 0) ++ [.publish []] ++
      List.replicate 7 .publisher ++ List.replicate 5 (.collect 0)) = some state ∧
    ∃ collector ∈ state.collectors, 4 ∈ missing collector.start collector.entries ∧
      ¬ 4 + 1 < state.ring.offered ∧ ∀ drop ∈ state.drops, drop.sequence = 4 → drop.queued < 2 := by
  refine ⟨_, rfl, _, List.mem_cons_self, ?_, ?_, ?_⟩
  · decide
  · decide
  · decide

end Pinrail.Journal

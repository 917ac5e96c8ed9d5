import Pinrail.Journal.Collectors

/-!
# Reads

What a step of a collector finds in the ring.
-/

namespace Pinrail.Journal

variable {E : Type} {ring ring' : JournalRing E} {publisher : JournalPublisher E} {pc : PublisherPc E}
  {log : List E} {drops : List Drop} {collectors : List (Collector E)} {collector : Collector E} {sequence : Nat}

/-! ## A slot that is read -/

theorem add_capacity_le {capacity older newer : Nat} (lt : older < newer)
    (same : newer % capacity = older % capacity) : older + capacity ≤ newer := by
  have divides : capacity ∣ newer - older := (Nat.modEq_iff_dvd' lt.le).mp same.symm
  have := Nat.le_of_dvd (by omega) divides
  omega

theorem PublisherInv.writing_spec (inv : PublisherInv ring publisher pc log drops)
    (writing : pc.writing = some sequence) : sequence = ring.finalized ∧ sequence < ring.offered := by
  have flight : ∃ parked entry, InFlight ring publisher log parked sequence entry := by
    have at_ := inv.at_
    cases pc with
    | write parked other entry rest =>
      cases writing
      exact ⟨parked, entry, at_⟩
    | storeSequence parked other entry rest =>
      cases writing
      exact ⟨parked, entry, at_.1⟩
    | release parked other entry rest =>
      cases writing
      exact ⟨parked, entry, at_.1⟩
    | _ => cases writing
  obtain ⟨parked, entry, flight⟩ := flight
  have inside := (List.getElem?_eq_some_iff.mp flight.logged).1
  exact ⟨flight.next, by rw [inv.offered, ← inv.length]; exact inside⟩

theorem PublisherInv.held_lt (inv : PublisherInv ring publisher pc log drops) {i : Nat}
    (held : (ring.slots i).sequence = some sequence) : sequence < ring.offered := by
  have published := (inv.slots i sequence held).published
  have := inv.finalized_le
  have := inv.length
  have := inv.offered
  have flight {parked : Bool} {other : Nat} {entry : E} (flight : InFlight ring publisher log parked other entry) :
      other < log.length := (List.getElem?_eq_some_iff.mp flight.logged).1
  rcases published with below | stored
  · omega
  · have at_ := inv.at_
    cases pc with
    | release parked other entry rest =>
      cases stored
      have := flight at_.1
      omega
    | finalize parked other entry rest =>
      cases stored
      have := flight at_.1
      omega
    | _ => cases stored

theorem PublisherInv.read_none (inv : PublisherInv ring publisher pc log drops) (readers : Nat)
    (below : sequence < ring.finalized) (other : (ring.slot sequence).sequence ≠ some sequence) :
    Excused ring drops readers sequence := by
  rcases inv.fresh sequence below with dropped | ⟨newer, held, le⟩
  · exact .inl dropped
  · have lt : sequence < newer := lt_of_le_of_ne le fun same => other (same ▸ held)
    have := add_capacity_le lt (inv.slots _ newer held).place
    have := inv.held_lt held
    exact .inr (.inl (by omega))

theorem PublisherInv.read_some (inv : PublisherInv ring publisher pc log drops)
    (notWriting : pc.writing.map (· % ring.capacity) ≠ some (sequence % ring.capacity))
    (held : (ring.slot sequence).sequence = some sequence) : (ring.slot sequence).entry = log[sequence]? := by
  rcases (inv.slots _ sequence held).logged with logged | torn
  · exact logged
  · exfalso
    cases pc with
    | storeSequence parked other entry rest => exact notWriting torn
    | _ => cases torn

theorem PublisherInv.blocked (inv : PublisherInv ring publisher pc log drops) (users : UsersInv ring pc collectors)
    (below : sequence < ring.finalized)
    (blocked : (ring.slot sequence).users ≥ slotWriter ∨ (ring.slot sequence).users = slotReaderMask) :
    Excused ring drops collectors.length sequence := by
  rcases users.blocked blocked with ⟨other, writing, same⟩ | many
  · obtain ⟨next, offered⟩ := inv.writing_spec writing
    have := add_capacity_le (by omega) same
    exact .inr (.inl (by omega))
  · exact .inr (.inr many)

/-! ## A step of a collector -/

structure SameEntries (ring ring' : JournalRing E) : Prop where
  capacity : ring'.capacity = ring.capacity
  finalized : ring'.finalized = ring.finalized
  offered : ring'.offered = ring.offered
  sequences : ∀ i, (ring'.slots i).sequence = (ring.slots i).sequence
  entries : ∀ i, (ring'.slots i).entry = (ring.slots i).entry

theorem SameEntries.refl (ring : JournalRing E) : SameEntries ring ring := ⟨rfl, rfl, rfl, fun _ => rfl, fun _ => rfl⟩

theorem SameEntries.setUsers (ring : JournalRing E) (sequence users : Nat) :
    SameEntries ring (ring.setSlot sequence { ring.slot sequence with users := users }) := by
  refine ⟨rfl, rfl, rfl, fun i => ?_, fun i => ?_⟩
  · rw [slots_setSlot]
    split_ifs with same
    · rw [same]
      rfl
    · rfl
  · rw [slots_setSlot]
    split_ifs with same
    · rw [same]
      rfl
    · rfl

structure CollectorStep (ring : JournalRing E) (pc : PublisherPc E) (log : List E) (drops : List Drop)
    (collectors : List (Collector E)) (at_ : Nat) (after : JournalRing E × Collector E) : Prop where
  same : SameEntries ring after.1
  users : UsersInv after.1 pc (collectors.set at_ after.2)
  collector : CollectorInv (Excused ring drops collectors.length) log ring.finalized after.2

variable {at_ : Nat}

theorem CollectorInv.collect (inv : CollectorInv (Excused ring drops collectors.length) log ring.finalized collector)
    (idle : collector.pc = .idle) (offered : ring.finalized ≤ ring.offered) :
    CollectorInv (Excused ring drops collectors.length) log ring.finalized (State.collect ring collector) := by
  have entries : collector.entries = collector.drains.flatMap DrainedEntries.entries := by
    simp [Collector.entries, idle, CollectorPc.drained]
  have cursor := inv.cursor
  have hasDelivered := inv.delivered
  have hasMissing := inv.missing
  rw [entries] at cursor hasDelivered hasMissing
  unfold State.collect
  dsimp only
  split_ifs with seen some_
  · refine ⟨?_, ?_, ?_, ?_, ?_, ?_⟩
    · simpa [Collector.entries, idle, CollectorPc.drained] using cursor
    · simpa [Collector.entries, idle, CollectorPc.drained] using hasDelivered
    · simpa [Collector.entries, idle, CollectorPc.drained] using hasMissing
    · intro drained member
      rcases List.mem_append.mp member with member | member
      · exact inv.drains drained member
      · cases List.mem_singleton.mp member
        rfl
    · rw [idle]
      rfl
    · rw [idle]
      trivial
  · -- Some of what was not seen is not retained.
    refine ⟨?_, ?_, ?_, inv.drains, ?_, le_rfl⟩
    · simp only [Collector.entries, CollectorPc.drained, extent_append, extent_cons, extent_nil, JournalEntry.width]
      omega
    · simp only [Collector.entries, CollectorPc.drained, delivered_append, Journal.delivered, List.append_nil]
      exact hasDelivered
    · simp only [Collector.entries, CollectorPc.drained, missing_append, Journal.missing, List.append_nil, cursor]
      intro sequence member
      rcases List.mem_append.mp member with member | member
      · exact hasMissing sequence member
      · rw [List.mem_range'_1] at member
        exact .inr (.inl (by omega))
    · simp [CollectorPc.drained, markers]
  · refine ⟨?_, ?_, ?_, inv.drains, ?_, le_rfl⟩
    · simp only [Collector.entries, CollectorPc.drained, extent_append, extent_nil]
      omega
    · simp only [Collector.entries, CollectorPc.drained, List.append_nil]
      exact hasDelivered
    · simp only [Collector.entries, CollectorPc.drained, List.append_nil]
      exact hasMissing
    · simp only [CollectorPc.drained, markers]
      omega

theorem CollectorInv.returns {excused : Nat → Prop} {finalized stop : Nat} {drained : DrainedEntries E}
    (inv : CollectorInv excused log finalized collector) (reading : collector.pc = .reading stop drained) :
    CollectorInv excused log finalized { collector with drains := collector.drains ++ [drained], pc := .idle } := by
  have entries : Collector.entries { collector with drains := collector.drains ++ [drained], pc := .idle } =
      collector.entries := by
    simp [Collector.entries, reading, CollectorPc.drained]
  refine ⟨entries ▸ inv.cursor, entries ▸ inv.delivered, entries ▸ inv.missing, ?_, rfl, trivial⟩
  intro other member
  rcases List.mem_append.mp member with member | member
  · exact inv.drains other member
  · cases List.mem_singleton.mp member
    have current := inv.current
    rwa [reading] at current

theorem CollectorStep.stay {collector' : Collector E} (users : UsersInv ring pc collectors)
    (found : collectors[at_]? = some collector) (pins : ∀ i, collector'.pins ring.capacity i = collector.pins ring.capacity i)
    (inv : CollectorInv (Excused ring drops collectors.length) log ring.finalized collector') :
    CollectorStep ring pc log drops collectors at_ (ring, collector') := by
  refine ⟨.refl ring, users.set found rfl (fun i => by rw [pins]) (fun i pinned => ?_), inv⟩
  rw [pins] at pinned
  exact users.not_writing (List.mem_of_getElem? found) pinned

theorem stepCollector_spec (publisherInv : PublisherInv ring publisher pc log drops) (users : UsersInv ring pc collectors)
    (inv : CollectorInv (Excused ring drops collectors.length) log ring.finalized collector)
    (found : collectors[at_]? = some collector) :
    CollectorStep ring pc log drops collectors at_ (State.stepCollector ring collector) := by
  have member := List.mem_of_getElem? found
  unfold State.stepCollector
  cases place : collector.pc with
  | idle =>
    have offered : ring.finalized ≤ ring.offered := publisherInv.offered ▸ publisherInv.finalized_le
    refine .stay users found (fun i => ?_) (inv.collect place offered)
    unfold State.collect
    dsimp only
    split_ifs <;> simp [Collector.pins, place]
  | reading stop drained =>
    have current : collector.pc.drained = drained := by rw [place, CollectorPc.drained]
    have inside : stop ≤ ring.finalized := by
      have at_ := inv.at_
      rwa [place] at at_
    dsimp only
    split_ifs with more blocked
    · refine .stay users found (fun i => by simp [Collector.pins, place]) (current ▸ inv.push none stop inside (by simp) fun _ => ?_)
      exact publisherInv.blocked users (by omega) blocked
    · refine ⟨.setUsers ring collector.cursor _, users.set found rfl ?_ ?_, inv.goto (by rw [place]; rfl) ⟨more, inside⟩⟩
      · intro i
        rw [slots_setSlot]
        by_cases here : i = collector.cursor % ring.capacity
        · simp [Collector.pins, place, here, JournalRing.slot]
        · simp [Collector.pins, place, here, Ne.symm here]
      · intro i pinned here
        obtain rfl : collector.cursor % ring.capacity = i := by simpa [Collector.pins] using pinned
        obtain ⟨other, writing, same⟩ := Option.map_eq_some_iff.mp here
        have taken := (users.writer other writing).1
        rw [JournalRing.slot, same] at taken
        exact blocked (.inl taken.ge)
    · exact .stay users found (fun i => by simp [Collector.pins, place]) (inv.returns place)
  | pinned stop drained =>
    have at_ := inv.at_
    rw [place] at at_
    obtain ⟨more, inside⟩ := at_
    have notWriting := users.not_writing (i := collector.cursor % ring.capacity) member (by simp [Collector.pins, place])
    refine .stay users found (fun i => by simp [Collector.pins, place])
      (inv.goto (by rw [place]; rfl) ⟨more, inside, ?_, ?_⟩)
    · intro entry read
      split_ifs at read with held
      exact (publisherInv.read_some notWriting held).symm.trans read
    · intro read
      split_ifs at read with held
      · -- A slot that has a sequence has an entry.
        rw [publisherInv.read_some notWriting held, List.getElem?_eq_none_iff, publisherInv.length] at read
        have := publisherInv.finalized_le
        omega
      · exact publisherInv.read_none _ (by omega) held
  | read stop drained result =>
    have at_ := inv.at_
    rw [place] at at_
    obtain ⟨more, inside, some_, none_⟩ := at_
    have current : collector.pc.drained = drained := by rw [place, CollectorPc.drained]
    have notWriting := users.not_writing (i := collector.cursor % ring.capacity) member (by simp [Collector.pins, place])
    refine ⟨.setUsers ring collector.cursor _, users.set found rfl ?_ (by simp [Collector.pins]),
      current ▸ inv.push result stop inside some_ none_⟩
    intro i
    rw [slots_setSlot]
    by_cases here : i = collector.cursor % ring.capacity
    · have counted : 0 < collectors.countP (·.pins ring.capacity i) :=
        List.countP_pos_iff.mpr ⟨collector, member, by simp [Collector.pins, place, here]⟩
      rw [← users.readers i (here ▸ notWriting)] at counted
      subst here
      simp [Collector.pins, place, JournalRing.slot]
      omega
    · simp [Collector.pins, place, here, Ne.symm here]

end Pinrail.Journal

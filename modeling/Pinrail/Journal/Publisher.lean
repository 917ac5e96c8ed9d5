import Mathlib.Data.List.Range
import Mathlib.Tactic.Common
import Pinrail.Journal.Ring

/-!
# The publisher

What the slots, the pending entries and the drops are between the atomic accesses of the publisher.
The sequences below `finalized` are in their slots, overwritten or dropped; those that are pending
follow, and those that were dropped after them.
-/

namespace Pinrail.Journal

variable {E : Type}

/-! ## The invariant -/

structure InFlight (ring : JournalRing E) (publisher : JournalPublisher E) (log : List E) (parked : Bool)
    (sequence : Nat) (entry : E) : Prop where
  next : sequence = ring.finalized
  logged : log[sequence]? = some entry
  front : parked = true → publisher.pending.head? = some ⟨sequence, entry⟩ ∧
    ring.finalized + publisher.pending.length + publisher.droppedAfterPending = publisher.nextSequence
  direct : parked = false → publisher.pending = [] ∧ publisher.droppedAfterPending = 0 ∧
    publisher.nextSequence = sequence + 1

def PublisherPc.At (ring : JournalRing E) (publisher : JournalPublisher E) (log : List E) :
    PublisherPc E → Prop
  | .tryPublish sequence entry _ => InFlight ring publisher log false sequence entry
  | .write parked sequence entry _ => InFlight ring publisher log parked sequence entry
  | .storeSequence parked sequence entry _ =>
    InFlight ring publisher log parked sequence entry ∧ (ring.slot sequence).entry = some entry
  | .release parked sequence entry _ =>
    InFlight ring publisher log parked sequence entry ∧ (ring.slot sequence).sequence = some sequence
  | .finalize parked sequence entry _ =>
    InFlight ring publisher log parked sequence entry ∧ (ring.slot sequence).sequence = some sequence
  | _ => ring.finalized + publisher.pending.length + publisher.droppedAfterPending = publisher.nextSequence

def PublisherPc.stored : PublisherPc E → Option Nat
  | .release _ sequence _ _ => some sequence
  | .finalize _ sequence _ _ => some sequence
  | _ => none

def PublisherPc.torn : PublisherPc E → Option Nat
  | .storeSequence _ sequence _ _ => some sequence
  | _ => none

def Dropped (drops : List Drop) (sequence : Nat) : Prop := ∃ drop ∈ drops, drop.sequence = sequence

structure SlotInv (ring : JournalRing E) (pc : PublisherPc E) (log : List E) (i sequence : Nat) : Prop where
  place : sequence % ring.capacity = i
  published : sequence < ring.finalized ∨ pc.stored = some sequence
  logged : (ring.slots i).entry = log[sequence]? ∨ pc.torn.map (· % ring.capacity) = some i

structure PublisherInv (ring : JournalRing E) (publisher : JournalPublisher E) (pc : PublisherPc E)
    (log : List E) (drops : List Drop) : Prop where
  length : log.length = publisher.nextSequence
  offered : ring.offered = publisher.nextSequence
  sequences : publisher.pending.map PendingJournalEntry.sequence = List.range' ring.finalized publisher.pending.length
  entries : ∀ pending ∈ publisher.pending, log[pending.sequence]? = some pending.entry
  at_ : pc.At ring publisher log
  dropped : ∀ sequence, publisher.nextSequence ≤ sequence + publisher.droppedAfterPending →
    sequence < publisher.nextSequence → Dropped drops sequence
  stretch : ∀ drop ∈ drops, publisher.pendingCapacity ≤ drop.queued ∨
    ∃ before ∈ drops, before.sequence + 1 = drop.sequence
  fresh : ∀ sequence < ring.finalized, Dropped drops sequence ∨
    ∃ newer, (ring.slot sequence).sequence = some newer ∧ sequence ≤ newer
  slots : ∀ i sequence, (ring.slots i).sequence = some sequence → SlotInv ring pc log i sequence

variable {ring ring' : JournalRing E} {publisher : JournalPublisher E} {pc pc' : PublisherPc E} {log : List E}
  {drops : List Drop} {parked : Bool} {sequence : Nat} {entry : E} {rest : List E}

theorem Dropped.mono {more : List Drop} (dropped : Dropped drops sequence) : Dropped (drops ++ more) sequence := by
  obtain ⟨drop, member, same⟩ := dropped
  exact ⟨drop, List.mem_append_left _ member, same⟩

theorem PublisherInv.le_pending (inv : PublisherInv ring publisher pc log drops) {pending : PendingJournalEntry E}
    (member : pending ∈ publisher.pending) : ring.finalized ≤ pending.sequence := by
  have inside := List.mem_map_of_mem (f := PendingJournalEntry.sequence) member
  rw [inv.sequences, List.mem_range'_1] at inside
  exact inside.1

theorem PublisherInv.finalized_le (inv : PublisherInv ring publisher pc log drops) :
    ring.finalized ≤ publisher.nextSequence := by
  have at_ := inv.at_
  have inFlight {parked : Bool} {sequence : Nat} {entry : E}
      (flight : InFlight ring publisher log parked sequence entry) : ring.finalized ≤ publisher.nextSequence := by
    have inside := (List.getElem?_eq_some_iff.mp flight.logged).1
    have := flight.next
    have := inv.length
    omega
  cases pc with
  | tryPublish sequence entry rest => exact inFlight at_
  | write parked sequence entry rest => exact inFlight at_
  | storeSequence parked sequence entry rest => exact inFlight at_.1
  | release parked sequence entry rest => exact inFlight at_.1
  | finalize parked sequence entry rest => exact inFlight at_.1
  | _ =>
    unfold PublisherPc.At at at_
    omega

theorem PublisherInv.congr (inv : PublisherInv ring publisher pc log drops) (capacity : ring'.capacity = ring.capacity)
    (finalized : ring'.finalized = ring.finalized) (offered : ring'.offered = ring.offered)
    (sequences : ∀ i, (ring'.slots i).sequence = (ring.slots i).sequence)
    (entries : ∀ i, (ring'.slots i).entry = (ring.slots i).entry) : PublisherInv ring' publisher pc log drops := by
  have slot_sequence (sequence : Nat) : (ring'.slot sequence).sequence = (ring.slot sequence).sequence := by
    rw [JournalRing.slot, JournalRing.slot, capacity, sequences]
  have slot_entry (sequence : Nat) : (ring'.slot sequence).entry = (ring.slot sequence).entry := by
    rw [JournalRing.slot, JournalRing.slot, capacity, entries]
  have inFlight {parked : Bool} {sequence : Nat} {entry : E}
      (flight : InFlight ring publisher log parked sequence entry) :
      InFlight ring' publisher log parked sequence entry := by
    obtain ⟨same, logged, parked, direct⟩ := flight
    exact ⟨same.trans finalized.symm, logged, finalized ▸ parked, direct⟩
  refine ⟨inv.length, offered.trans inv.offered, finalized ▸ inv.sequences, inv.entries, ?_, inv.dropped,
    inv.stretch, ?_, ?_⟩
  · have at_ := inv.at_
    cases pc with
    | tryPublish sequence entry rest => exact inFlight at_
    | write parked sequence entry rest => exact inFlight at_
    | storeSequence parked sequence entry rest => exact ⟨inFlight at_.1, (slot_entry _).trans at_.2⟩
    | release parked sequence entry rest => exact ⟨inFlight at_.1, (slot_sequence _).trans at_.2⟩
    | finalize parked sequence entry rest => exact ⟨inFlight at_.1, (slot_sequence _).trans at_.2⟩
    | _ =>
      unfold PublisherPc.At at at_ ⊢
      rw [finalized]
      exact at_
  · intro sequence below
    rw [slot_sequence]
    exact inv.fresh sequence (finalized ▸ below)
  · intro i sequence stored
    rw [sequences] at stored
    obtain ⟨place, published, logged⟩ := inv.slots i sequence stored
    exact ⟨capacity ▸ place, finalized ▸ published, by rwa [entries, capacity]⟩

/-! ## Steps -/

theorem PublisherInv.goto (inv : PublisherInv ring publisher pc log drops) (at_ : pc'.At ring publisher log)
    (stored : pc'.stored = pc.stored) (torn : pc'.torn = pc.torn) :
    PublisherInv ring publisher pc' log drops where
  length := inv.length
  offered := inv.offered
  sequences := inv.sequences
  entries := inv.entries
  at_ := at_
  dropped := inv.dropped
  stretch := inv.stretch
  fresh := inv.fresh
  slots i sequence held := by
    obtain ⟨place, published, logged⟩ := inv.slots i sequence held
    exact ⟨place, stored ▸ published, torn ▸ logged⟩

@[simp] theorem slot_setSlot (ring : JournalRing E) (slot : JournalSlot E) :
    (ring.setSlot sequence slot).slot sequence = slot := by
  simp [JournalRing.setSlot, JournalRing.slot]

theorem slots_setSlot (ring : JournalRing E) (slot : JournalSlot E) (i : Nat) :
    (ring.setSlot sequence slot).slots i = if i = sequence % ring.capacity then slot else ring.slots i := by
  simp [JournalRing.setSlot, Function.update_apply]

theorem InFlight.setSlot (flight : InFlight ring publisher log parked sequence entry) (other : Nat)
    (slot : JournalSlot E) : InFlight (ring.setSlot other slot) publisher log parked sequence entry :=
  ⟨flight.next, flight.logged, flight.front, flight.direct⟩

theorem PublisherInv.setUsers (inv : PublisherInv ring publisher pc log drops) (sequence users : Nat) :
    PublisherInv (ring.setSlot sequence { ring.slot sequence with users := users }) publisher pc log drops := by
  apply inv.congr
  · rfl
  · rfl
  · rfl
  · intro i
    rw [slots_setSlot]
    split_ifs with same
    · rw [same]
      rfl
    · rfl
  · intro i
    rw [slots_setSlot]
    split_ifs with same
    · rw [same]
      rfl
    · rfl

theorem PublisherInv.claim_parked (inv : PublisherInv ring publisher (.flush rest) log drops)
    {front : PendingJournalEntry E} {others : List (PendingJournalEntry E)}
    (pending : publisher.pending = front :: others) :
    PublisherInv ring publisher (.write true front.sequence front.entry rest) log drops := by
  refine inv.goto ?_ rfl rfl
  have sequences := inv.sequences
  rw [pending, List.map_cons, List.length_cons, List.range'_succ] at sequences
  refine ⟨(List.cons.inj sequences).1, inv.entries front (by simp [pending]), fun _ => ⟨by simp [pending], inv.at_⟩, ?_⟩
  intro direct
  cases direct

theorem PublisherInv.finalizeDropped (inv : PublisherInv ring publisher (.flush rest) log drops)
    (pending : publisher.pending = []) :
    PublisherInv { ring with finalized := publisher.nextSequence } { publisher with droppedAfterPending := 0 }
      (.offer rest) log drops where
  length := inv.length
  offered := inv.offered
  sequences := by simp [pending]
  entries := inv.entries
  at_ := by simp [PublisherPc.At, pending]
  dropped := by
    intro sequence above below
    dsimp only at above below
    omega
  stretch := inv.stretch
  fresh := by
    intro sequence below
    by_cases old : sequence < ring.finalized
    · exact inv.fresh sequence old
    · have at_ := inv.at_
      unfold PublisherPc.At at at_
      rw [pending, List.length_nil] at at_
      dsimp only at below
      exact .inl (inv.dropped sequence (by omega) below)
  slots := by
    intro i sequence held
    obtain ⟨place, published, logged⟩ := inv.slots i sequence held
    refine ⟨place, .inl ?_, logged⟩
    have := inv.finalized_le
    rcases published with below | stored
    · dsimp only
      omega
    · cases stored

theorem getElem?_concat_of_some {index : Nat} {value other : E} (found : log[index]? = some value) :
    (log ++ [other])[index]? = some value := by
  rw [List.getElem?_append_left (List.getElem?_eq_some_iff.mp found).1, found]

theorem PublisherInv.slots_concat (inv : PublisherInv ring publisher pc log drops) (torn : pc.torn = none)
    (stored : pc.stored = none) (offered : Nat) (entry : E) {i sequence : Nat}
    (held : (ring.slots i).sequence = some sequence) :
    SlotInv { ring with offered := offered } pc' (log ++ [entry]) i sequence := by
  obtain ⟨place, published, logged⟩ := inv.slots i sequence held
  have below : sequence < ring.finalized := by
    rcases published with below | same
    · exact below
    · rw [stored] at same
      cases same
  refine ⟨place, .inl below, .inl ?_⟩
  have := inv.finalized_le
  have := inv.length
  rcases logged with logged | same
  · rw [logged, List.getElem?_append_left (by omega)]
  · rw [torn] at same
    cases same

theorem getElem?_next (inv : PublisherInv ring publisher pc log drops) (entry : E) :
    (log ++ [entry])[publisher.nextSequence]? = some entry := by
  rw [← inv.length, List.getElem?_concat_length]

theorem PublisherInv.offer_park (inv : PublisherInv ring publisher (.offer (entry :: rest)) log drops)
    (noDrops : publisher.droppedAfterPending = 0) :
    PublisherInv { ring with offered := publisher.nextSequence + 1 }
      { publisher with
        nextSequence := publisher.nextSequence + 1
        pending := publisher.pending ++ [⟨publisher.nextSequence, entry⟩] }
      (.flush rest) (log ++ [entry]) drops where
  length := by simp [inv.length]
  offered := rfl
  sequences := by
    have at_ := inv.at_
    unfold PublisherPc.At at at_
    rw [List.map_append, inv.sequences, List.length_append, List.length_singleton, List.range'_concat]
    simp
    omega
  entries := by
    intro pending member
    rcases List.mem_append.mp member with member | member
    · exact getElem?_concat_of_some (inv.entries pending member)
    · cases List.mem_singleton.mp member
      exact getElem?_next inv entry
  at_ := by
    have at_ := inv.at_
    unfold PublisherPc.At at at_ ⊢
    rw [List.length_append, List.length_singleton]
    dsimp only
    omega
  dropped := by
    intro sequence above below
    dsimp only at above below
    omega
  stretch := inv.stretch
  fresh := inv.fresh
  slots i sequence held := inv.slots_concat rfl rfl _ entry held

theorem PublisherInv.offer_try (inv : PublisherInv ring publisher (.offer (entry :: rest)) log drops)
    (noPending : publisher.pending = []) (noDrops : publisher.droppedAfterPending = 0) :
    PublisherInv { ring with offered := publisher.nextSequence + 1 }
      { publisher with nextSequence := publisher.nextSequence + 1 }
      (.tryPublish publisher.nextSequence entry rest) (log ++ [entry]) drops where
  length := by simp [inv.length]
  offered := rfl
  sequences := inv.sequences
  entries pending member := getElem?_concat_of_some (inv.entries pending member)
  at_ := by
    have at_ := inv.at_
    unfold PublisherPc.At at at_
    rw [noPending, List.length_nil] at at_
    refine ⟨?_, getElem?_next inv entry, nofun, fun _ => ⟨noPending, noDrops, rfl⟩⟩
    dsimp only
    omega
  dropped := by
    intro sequence above below
    dsimp only at above below
    omega
  stretch := inv.stretch
  fresh := inv.fresh
  slots i sequence held := inv.slots_concat rfl rfl _ entry held

theorem PublisherInv.offer_drop (inv : PublisherInv ring publisher (.offer (entry :: rest)) log drops)
    (blocked : ¬ (publisher.droppedAfterPending = 0 ∧ publisher.pending.length < publisher.pendingCapacity)) :
    PublisherInv { ring with offered := publisher.nextSequence + 1 }
      { publisher with
        nextSequence := publisher.nextSequence + 1
        droppedAfterPending := publisher.droppedAfterPending + 1 }
      (.flush rest) (log ++ [entry])
      (drops ++ [⟨publisher.nextSequence, publisher.pending.length⟩]) where
  length := by simp [inv.length]
  offered := rfl
  sequences := inv.sequences
  entries pending member := getElem?_concat_of_some (inv.entries pending member)
  at_ := by
    have at_ := inv.at_
    unfold PublisherPc.At at at_ ⊢
    dsimp only
    omega
  dropped := by
    intro sequence above below
    dsimp only at above below
    by_cases last : sequence = publisher.nextSequence
    · exact ⟨_, List.mem_append_right _ (List.mem_singleton.mpr rfl), last.symm⟩
    · exact (inv.dropped sequence (by omega) (by omega)).mono
  stretch := by
    intro drop member
    rcases List.mem_append.mp member with member | member
    · rcases inv.stretch drop member with full | ⟨before, earlier, next⟩
      · exact .inl full
      · exact .inr ⟨before, List.mem_append_left _ earlier, next⟩
    · cases List.mem_singleton.mp member
      by_cases first : publisher.droppedAfterPending = 0
      · exact .inl (not_lt.mp fun room => blocked ⟨first, room⟩)
      · have at_ := inv.at_
        unfold PublisherPc.At at at_
        obtain ⟨before, earlier, same⟩ := inv.dropped (publisher.nextSequence - 1) (by omega) (by omega)
        refine .inr ⟨before, List.mem_append_left _ earlier, ?_⟩
        dsimp only
        omega
  fresh := by
    intro sequence below
    rcases inv.fresh sequence below with dropped | newer
    · exact .inl dropped.mono
    · exact .inr newer
  slots i sequence held := inv.slots_concat rfl rfl _ entry held

theorem PublisherInv.try_park (inv : PublisherInv ring publisher (.tryPublish sequence entry rest) log drops) :
    PublisherInv ring { publisher with pending := publisher.pending ++ [⟨sequence, entry⟩] } (.flush rest) log
      drops := by
  obtain ⟨place, logged, -, direct⟩ := inv.at_
  obtain ⟨noPending, noDrops, next⟩ := direct rfl
  refine ⟨inv.length, inv.offered, ?_, ?_, ?_, ?_, inv.stretch, inv.fresh, fun i other held =>
    let ⟨at_, published, logged⟩ := inv.slots i other held
    ⟨at_, published, logged⟩⟩
  · simp [noPending, place]
  · intro pending member
    rw [noPending] at member
    cases List.mem_singleton.mp member
    exact logged
  · unfold PublisherPc.At
    rw [noPending]
    dsimp only
    rw [noDrops, next, List.nil_append, List.length_singleton]
    omega
  · intro sequence above below
    dsimp only at above below
    omega

theorem PublisherInv.try_drop (inv : PublisherInv ring publisher (.tryPublish sequence entry rest) log drops)
    (noRoom : ¬ publisher.pendingCapacity > 0) :
    PublisherInv ring { publisher with droppedAfterPending := publisher.droppedAfterPending + 1 }
    (.flush rest) log (drops ++ [⟨sequence, publisher.pending.length⟩]) := by
  obtain ⟨place, logged, -, direct⟩ := inv.at_
  obtain ⟨noPending, noDrops, next⟩ := direct rfl
  refine ⟨inv.length, inv.offered, inv.sequences, inv.entries, ?_, ?_, ?_, ?_, fun i other held =>
    let ⟨at_, published, logged⟩ := inv.slots i other held
    ⟨at_, published, logged⟩⟩
  · unfold PublisherPc.At
    rw [noPending]
    dsimp only
    rw [noDrops, next, List.length_nil]
    omega
  · intro other above below
    dsimp only at above below
    exact ⟨_, List.mem_append_right _ (List.mem_singleton.mpr rfl), by dsimp only; omega⟩
  · intro drop member
    rcases List.mem_append.mp member with member | member
    · rcases inv.stretch drop member with full | ⟨before, earlier, same⟩
      · exact .inl full
      · exact .inr ⟨before, List.mem_append_left _ earlier, same⟩
    · cases List.mem_singleton.mp member
      dsimp only
      exact .inl (by omega)
  · intro other below
    rcases inv.fresh other below with dropped | newer
    · exact .inl dropped.mono
    · exact .inr newer

theorem PublisherInv.write (inv : PublisherInv ring publisher (.write parked sequence entry rest) log drops) :
    PublisherInv (ring.setSlot sequence { ring.slot sequence with entry := some entry }) publisher
      (.storeSequence parked sequence entry rest) log drops := by
  have same (i : Nat) : ((ring.setSlot sequence { ring.slot sequence with entry := some entry }).slots i).sequence =
      (ring.slots i).sequence := by
    rw [slots_setSlot]
    split_ifs with here
    · rw [here]
      rfl
    · rfl
  refine ⟨inv.length, inv.offered, inv.sequences, inv.entries, ⟨InFlight.setSlot inv.at_ _ _, by simp⟩, inv.dropped, inv.stretch, ?_, ?_⟩
  · intro other below
    rw [JournalRing.slot, same]
    exact inv.fresh other below
  · intro i other held
    rw [same] at held
    obtain ⟨place, published, logged⟩ := inv.slots i other held
    refine ⟨place, ?_, ?_⟩
    · rcases published with below | stored
      · exact .inl below
      · cases stored
    · by_cases here : i = sequence % ring.capacity
      · exact .inr (by rw [here]; rfl)
      · rw [slots_setSlot, if_neg here]
        rcases logged with logged | torn
        · exact .inl logged
        · cases torn

theorem PublisherInv.storeSequence
    (inv : PublisherInv ring publisher (.storeSequence parked sequence entry rest) log drops) :
    PublisherInv (ring.setSlot sequence { ring.slot sequence with sequence := some sequence }) publisher
      (.release parked sequence entry rest) log drops := by
  obtain ⟨flight, written⟩ := inv.at_
  refine ⟨inv.length, inv.offered, inv.sequences, inv.entries, ⟨flight.setSlot _ _, by simp⟩, inv.dropped, inv.stretch, ?_, ?_⟩
  · intro other below
    rcases inv.fresh other below with dropped | ⟨newer, held, le⟩
    · exact .inl dropped
    · right
      have := flight.next
      rw [JournalRing.slot, slots_setSlot]
      split_ifs with here
      · refine ⟨sequence, rfl, ?_⟩
        change other < ring.finalized at below
        omega
      · exact ⟨newer, held, le⟩
  · intro i other held
    rw [slots_setSlot] at held
    split_ifs at held with here
    · cases held
      refine ⟨here.symm, .inr rfl, .inl ?_⟩
      rw [slots_setSlot, if_pos here]
      exact written.trans flight.logged.symm
    · obtain ⟨place, published, logged⟩ := inv.slots i other held
      refine ⟨place, ?_, .inl ?_⟩
      · rcases published with below | stored
        · exact .inl below
        · cases stored
      · rw [slots_setSlot, if_neg here]
        rcases logged with logged | torn
        · exact logged
        · exact absurd (Option.some.inj torn).symm here

theorem PublisherInv.finalize (inv : PublisherInv ring publisher (.finalize parked sequence entry rest) log drops) :
    PublisherInv { ring with finalized := sequence + 1 }
      { publisher with pending := if parked then publisher.pending.tail else publisher.pending }
      (.flush rest) log drops := by
  obtain ⟨⟨next, logged, front, direct⟩, stored⟩ := inv.at_
  have sequences := inv.sequences
  have slots : ∀ i other, (ring.slots i).sequence = some other →
      SlotInv { ring with finalized := sequence + 1 } (.flush rest) log i other := by
    intro i other held
    obtain ⟨place, published, logged⟩ := inv.slots i other held
    refine ⟨place, .inl ?_, ?_⟩
    · rcases published with below | same
      · dsimp only
        omega
      · cases same
        exact Nat.lt_succ_self _
    · rcases logged with logged | torn
      · exact .inl logged
      · cases torn
  have fresh : ∀ other < sequence + 1, Dropped drops other ∨
      ∃ newer, (ring.slot other).sequence = some newer ∧ other ≤ newer := by
    intro other below
    by_cases last : other = sequence
    · exact .inr ⟨sequence, by rw [last, stored], last.le⟩
    · exact inv.fresh other (by omega)
  cases parked with
  | true =>
    obtain ⟨head, count⟩ := front rfl
    obtain ⟨others, pending⟩ : ∃ others, publisher.pending = ⟨sequence, entry⟩ :: others := by
      cases pending : publisher.pending with
      | nil => simp [pending] at head
      | cons first others => exact ⟨others, by simpa [pending] using head⟩
    rw [pending, List.map_cons, List.length_cons, List.range'_succ] at sequences
    rw [pending, List.length_cons] at count
    refine ⟨inv.length, inv.offered, ?_, ?_, ?_, inv.dropped, inv.stretch, fresh, slots⟩
    · simp only [if_true, pending, List.tail_cons]
      rw [(List.cons.inj sequences).2, next]
    · intro other member
      simp only [if_true, pending, List.tail_cons] at member
      exact inv.entries other (by rw [pending]; exact List.mem_cons_of_mem _ member)
    · simp only [PublisherPc.At, if_true, pending, List.tail_cons]
      omega
  | false =>
    obtain ⟨noPending, noDrops, last⟩ := direct rfl
    refine ⟨inv.length, inv.offered, by simp [noPending], ?_, ?_, inv.dropped, inv.stretch, fresh, slots⟩
    · intro other member
      exact inv.entries other member
    · simp [PublisherPc.At, noPending, noDrops, last]

end Pinrail.Journal

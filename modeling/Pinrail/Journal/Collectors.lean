import Mathlib.Data.List.Range
import Mathlib.Data.Nat.ModEq
import Mathlib.Tactic.Common
import Pinrail.Journal.Publisher
import Pinrail.Journal.Ring

/-!
# The collectors

Who uses a slot, and what a collector has: the entries at the sequences they were offered at, and
markers for what was dropped or overwritten.
-/

/-! ## What drained entries cover

Entries that are drained from a sequence on stand for consecutive sequences: an entry that was recorded
for one, and a marker for as many as it counts.
-/

namespace Pinrail.Journal

variable {E : Type}

def JournalEntry.width : JournalEntry E → Nat
  | .recorded _ => 1
  | .discontinuity lost => lost

def extent (entries : List (JournalEntry E)) : Nat := (entries.map JournalEntry.width).sum

def delivered (start : Nat) : List (JournalEntry E) → List (Nat × E)
  | [] => []
  | .recorded entry :: rest => (start, entry) :: delivered (start + 1) rest
  | .discontinuity lost :: rest => delivered (start + lost) rest

def missing (start : Nat) : List (JournalEntry E) → List Nat
  | [] => []
  | .recorded _ :: rest => missing (start + 1) rest
  | .discontinuity lost :: rest => List.range' start lost ++ missing (start + lost) rest

def markers : List (JournalEntry E) → Nat
  | [] => 0
  | .recorded _ :: rest => markers rest
  | .discontinuity lost :: rest => lost + markers rest

variable {start : Nat} {entries more : List (JournalEntry E)}

@[simp] theorem extent_nil : extent ([] : List (JournalEntry E)) = 0 := rfl

@[simp] theorem extent_cons (entry : JournalEntry E) : extent (entry :: entries) = entry.width + extent entries := by
  simp [extent]

@[simp] theorem extent_append : extent (entries ++ more) = extent entries + extent more := by
  simp [extent]

theorem delivered_append :
    delivered start (entries ++ more) = delivered start entries ++ delivered (start + extent entries) more := by
  induction entries generalizing start with
  | nil => rfl
  | cons entry rest ih =>
    cases entry <;> simp [delivered, ih, JournalEntry.width, Nat.add_assoc]

theorem missing_append :
    missing start (entries ++ more) = missing start entries ++ missing (start + extent entries) more := by
  induction entries generalizing start with
  | nil => rfl
  | cons entry rest ih =>
    cases entry <;> simp [missing, ih, JournalEntry.width, Nat.add_assoc]

@[simp] theorem markers_append : markers (entries ++ more) = markers entries + markers more := by
  induction entries with
  | nil => simp [markers]
  | cons entry rest ih =>
    cases entry <;> simp [markers, ih, Nat.add_assoc]

theorem le_of_mem_delivered {item : Nat × E} (member : item ∈ delivered start entries) : start ≤ item.1 := by
  induction entries generalizing start with
  | nil => cases member
  | cons entry rest ih =>
    cases entry with
    | recorded entry =>
      rcases List.mem_cons.mp member with rfl | member
      · exact le_rfl
      · exact (Nat.le_succ _).trans (ih member)
    | discontinuity lost => exact (Nat.le_add_right _ _).trans (ih member)

theorem delivered_pairwise : (delivered start entries).Pairwise fun before after => before.1 < after.1 := by
  induction entries generalizing start with
  | nil => exact .nil
  | cons entry rest ih =>
    cases entry with
    | recorded entry => exact .cons (fun _ member => le_of_mem_delivered member) ih
    | discontinuity lost => exact ih

theorem delivered_missing_perm :
    ((delivered start entries).map Prod.fst ++ missing start entries).Perm (List.range' start (extent entries)) := by
  induction entries generalizing start with
  | nil => exact .nil
  | cons entry rest ih =>
    cases entry with
    | recorded entry =>
      rw [extent_cons, JournalEntry.width, Nat.add_comm, List.range'_succ]
      exact ih.cons start
    | discontinuity lost =>
      rw [extent_cons, JournalEntry.width, ← List.range'_append_1]
      exact (List.perm_append_comm_assoc _ _ _).trans (ih.append_left _)

/-! ## A read that is added -/

theorem push_none (start : Nat) (drained : DrainedEntries E) :
    extent (drained.push none).entries = extent drained.entries + 1 ∧
    delivered start (drained.push none).entries = delivered start drained.entries ∧
    missing start (drained.push none).entries = missing start drained.entries ++ [start + extent drained.entries] ∧
    markers (drained.push none).entries = markers drained.entries + 1 := by
  rcases ends : drained.entries.getLast? with _ | ⟨entry⟩ | ⟨lost⟩
  · simp [DrainedEntries.push, ends, delivered_append, missing_append, delivered, missing, markers, JournalEntry.width]
  · simp [DrainedEntries.push, ends, delivered_append, missing_append, delivered, missing, markers, JournalEntry.width]
  · have whole := List.dropLast_append_getLast? _ ends
    simp only [DrainedEntries.push, ends]
    rw [← whole]
    simp only [List.dropLast_concat, extent_append, extent_cons, extent_nil, delivered_append, missing_append,
      markers_append, delivered, missing, markers, JournalEntry.width, List.append_nil]
    refine ⟨by omega, trivial, ?_, by omega⟩
    rw [List.range'_concat, Nat.one_mul, List.append_assoc, Nat.add_zero, Nat.add_assoc]

theorem push_some (start : Nat) (drained : DrainedEntries E) (entry : E) :
    extent (drained.push (some entry)).entries = extent drained.entries + 1 ∧
      delivered start (drained.push (some entry)).entries =
        delivered start drained.entries ++ [(start + extent drained.entries, entry)] ∧
      missing start (drained.push (some entry)).entries = missing start drained.entries ∧
      markers (drained.push (some entry)).entries = markers drained.entries := by
  simp [DrainedEntries.push, delivered_append, missing_append, delivered, missing, markers, JournalEntry.width]

end Pinrail.Journal

namespace Pinrail.Journal

variable {E : Type} {ring ring' : JournalRing E} {publisher : JournalPublisher E} {pc pc' : PublisherPc E}
  {log log' : List E} {drops : List Drop} {collectors : List (Collector E)} {collector collector' : Collector E}
  {parked : Bool} {sequence : Nat} {entry : E} {rest : List E}

/-! ## The users of a slot -/

def PublisherPc.writing : PublisherPc E → Option Nat
  | .write _ sequence _ _ => some sequence
  | .storeSequence _ sequence _ _ => some sequence
  | .release _ sequence _ _ => some sequence
  | _ => none

def Collector.pins (capacity i : Nat) (collector : Collector E) : Bool :=
  match collector.pc with
  | .pinned _ _ => collector.cursor % capacity = i
  | .read _ _ _ => collector.cursor % capacity = i
  | _ => false

structure UsersInv (ring : JournalRing E) (pc : PublisherPc E) (collectors : List (Collector E)) : Prop where
  writer : ∀ sequence, pc.writing = some sequence →
    (ring.slot sequence).users = slotWriter ∧ collectors.countP (·.pins ring.capacity (sequence % ring.capacity)) = 0
  readers : ∀ i, pc.writing.map (· % ring.capacity) ≠ some i →
    (ring.slots i).users = collectors.countP (·.pins ring.capacity i)

theorem UsersInv.congr (inv : UsersInv ring pc collectors) (capacity : ring'.capacity = ring.capacity)
    (users : ∀ i, (ring'.slots i).users = (ring.slots i).users) (writing : pc'.writing = pc.writing) :
    UsersInv ring' pc' collectors := by
  constructor
  · intro sequence holds
    rw [JournalRing.slot, users, capacity]
    exact inv.writer sequence (writing ▸ holds)
  · intro i other
    rw [users, capacity]
    exact inv.readers i (by rwa [writing, capacity] at other)

theorem UsersInv.setSlot (inv : UsersInv ring pc collectors) {slot : JournalSlot E}
    (users : slot.users = (ring.slot sequence).users) (writing : pc'.writing = pc.writing) :
    UsersInv (ring.setSlot sequence slot) pc' collectors := by
  refine inv.congr rfl (fun i => ?_) writing
  rw [slots_setSlot]
  split_ifs with same
  · rw [users, same]
    rfl
  · rfl

theorem UsersInv.claim (inv : UsersInv ring pc collectors) (writing : pc.writing = none)
    (free : (ring.slot sequence).users = 0) (taken : pc'.writing = some sequence) :
    UsersInv (ring.setSlot sequence { ring.slot sequence with users := slotWriter }) pc' collectors := by
  constructor
  · intro other holds
    cases taken.symm.trans holds
    refine ⟨by simp, ?_⟩
    exact (inv.readers _ (by simp [writing])).symm.trans free
  · intro i other
    rw [taken] at other
    rw [slots_setSlot, if_neg fun same => other (congrArg some same.symm)]
    exact inv.readers i (by simp [writing])

theorem UsersInv.release (inv : UsersInv ring pc collectors) (writing : pc.writing = some sequence)
    (left : pc'.writing = none) :
    UsersInv (ring.setSlot sequence { ring.slot sequence with users := 0 }) pc' collectors := by
  obtain ⟨-, noReaders⟩ := inv.writer sequence writing
  constructor
  · intro other holds
    rw [left] at holds
    cases holds
  · intro i _
    rw [slots_setSlot]
    split_ifs with same
    · rw [same]
      exact noReaders.symm
    · exact inv.readers i (by simpa [writing] using fun here => same here.symm)

theorem UsersInv.not_writing (inv : UsersInv ring pc collectors) {i : Nat} (member : collector ∈ collectors)
    (pins : collector.pins ring.capacity i = true) : pc.writing.map (· % ring.capacity) ≠ some i := by
  intro here
  obtain ⟨sequence, writing, same⟩ := Option.map_eq_some_iff.mp here
  have noReaders := (inv.writer sequence writing).2
  rw [List.countP_eq_zero] at noReaders
  exact noReaders collector member (by rwa [same])

theorem UsersInv.blocked (inv : UsersInv ring pc collectors)
    (blocked : (ring.slot sequence).users ≥ slotWriter ∨ (ring.slot sequence).users = slotReaderMask) :
    (∃ other, pc.writing = some other ∧ other % ring.capacity = sequence % ring.capacity) ∨
    slotReaderMask ≤ collectors.length := by
  by_cases here : pc.writing.map (· % ring.capacity) = some (sequence % ring.capacity)
  · exact .inl (Option.map_eq_some_iff.mp here)
  · right
    have users := inv.readers _ here
    have few := List.countP_le_length (p := (·.pins ring.capacity (sequence % ring.capacity))) (l := collectors)
    rw [JournalRing.slot] at blocked
    unfold slotWriter slotReaderMask at *
    omega

theorem UsersInv.set (inv : UsersInv ring pc collectors) {at_ : Nat} (found : collectors[at_]? = some collector)
    (capacity : ring'.capacity = ring.capacity)
    (users : ∀ i, (ring'.slots i).users + (if collector.pins ring.capacity i then 1 else 0) =
      (ring.slots i).users + if collector'.pins ring.capacity i then 1 else 0)
    (apart : ∀ i, collector'.pins ring.capacity i = true → pc.writing.map (· % ring.capacity) ≠ some i) :
    UsersInv ring' pc (collectors.set at_ collector') := by
  obtain ⟨inside, rfl⟩ := List.getElem?_eq_some_iff.mp found
  have counts (i : Nat) := List.countP_set (p := (·.pins ring.capacity i)) (a := collector') inside
  constructor
  · intro sequence writing
    obtain ⟨held, noReaders⟩ := inv.writer sequence writing
    have here := users (sequence % ring.capacity)
    have notPinned : ¬ (collectors[at_].pins ring.capacity (sequence % ring.capacity) = true) :=
      List.countP_eq_zero.mp noReaders _ (List.getElem_mem inside)
    have notPinned' : ¬ (collector'.pins ring.capacity (sequence % ring.capacity) = true) := by
      intro pins
      exact apart _ pins (by rw [writing]; rfl)
    rw [if_neg notPinned, if_neg notPinned'] at here
    rw [JournalRing.slot, capacity, counts, if_neg notPinned, if_neg notPinned', noReaders]
    exact ⟨here.trans held, rfl⟩
  · intro i other
    rw [capacity] at other
    have here := users i
    rw [inv.readers i other] at here
    rw [capacity, counts]
    have positive : collectors[at_].pins ring.capacity i = true →
        0 < collectors.countP (·.pins ring.capacity i) := fun pins =>
      List.countP_pos_iff.mpr ⟨_, List.getElem_mem inside, pins⟩
    split_ifs at here ⊢ with before after after
    · have pinned := positive before
      omega
    · have pinned := positive before
      omega
    · omega
    · omega

theorem UsersInv.concat (inv : UsersInv ring pc collectors) (idle : collector.pc = .idle) :
    UsersInv ring pc (collectors ++ [collector]) := by
  have same (i : Nat) : (collectors ++ [collector]).countP (·.pins ring.capacity i) =
      collectors.countP (·.pins ring.capacity i) := by
    simp [Collector.pins, idle]
  exact ⟨fun sequence writing => by rw [same]; exact inv.writer sequence writing,
    fun i other => by rw [same]; exact inv.readers i other⟩

/-! ## What a collector has -/

def Excused (ring : JournalRing E) (drops : List Drop) (readers sequence : Nat) : Prop :=
  Dropped drops sequence ∨ sequence + ring.capacity < ring.offered ∨ slotReaderMask ≤ readers

def CollectorPc.drained : CollectorPc E → DrainedEntries E
  | .idle => {}
  | .reading _ drained => drained
  | .pinned _ drained => drained
  | .read _ drained _ => drained

def Collector.entries (collector : Collector E) : List (JournalEntry E) :=
  collector.drains.flatMap DrainedEntries.entries ++ collector.pc.drained.entries

def CollectorPc.At (excused : Nat → Prop) (log : List E) (finalized cursor : Nat) : CollectorPc E → Prop
  | .idle => True
  | .reading stop _ => stop ≤ finalized
  | .pinned stop _ => cursor < stop ∧ stop ≤ finalized
  | .read stop _ result => cursor < stop ∧ stop ≤ finalized ∧
      (∀ entry, result = some entry → log[cursor]? = some entry) ∧ (result = none → excused cursor)

structure CollectorInv (excused : Nat → Prop) (log : List E) (finalized : Nat) (collector : Collector E) : Prop where
  cursor : collector.start + extent collector.entries = collector.cursor
  delivered : ∀ item ∈ delivered collector.start collector.entries, log[item.1]? = some item.2
  missing : ∀ sequence ∈ missing collector.start collector.entries, excused sequence
  drains : ∀ drained ∈ collector.drains, drained.lost = markers drained.entries
  current : collector.pc.drained.lost = markers collector.pc.drained.entries
  at_ : collector.pc.At excused log finalized collector.cursor

variable {excused excused' : Nat → Prop} {finalized finalized' : Nat}

theorem CollectorInv.mono (inv : CollectorInv excused log finalized collector)
    (more : ∀ sequence, excused sequence → excused' sequence)
    (longer : ∀ (i : Nat) entry, log[i]? = some entry → log'[i]? = some entry) (later : finalized ≤ finalized') :
    CollectorInv excused' log' finalized' collector := by
  refine ⟨inv.cursor, fun item member => longer _ _ (inv.delivered item member),
    fun sequence member => more _ (inv.missing sequence member), inv.drains, inv.current, ?_⟩
  have at_ := inv.at_
  cases place : collector.pc with
  | idle => trivial
  | reading stop drained =>
    rw [place] at at_
    exact at_.trans later
  | pinned stop drained =>
    rw [place] at at_
    exact ⟨at_.1, at_.2.trans later⟩
  | read stop drained result =>
    rw [place] at at_
    obtain ⟨before, inside, some_, none_⟩ := at_
    exact ⟨before, inside.trans later, fun entry same => longer _ _ (some_ entry same), fun same => more _ (none_ same)⟩

theorem CollectorInv.goto (inv : CollectorInv excused log finalized collector) {place : CollectorPc E}
    (same : place.drained = collector.pc.drained) (at_ : place.At excused log finalized collector.cursor) :
    CollectorInv excused log finalized { collector with pc := place } := by
  have entries : Collector.entries { collector with pc := place } = collector.entries := by
    rw [Collector.entries, Collector.entries, same]
  exact ⟨entries ▸ inv.cursor, entries ▸ inv.delivered, entries ▸ inv.missing, inv.drains, same ▸ inv.current, at_⟩

theorem CollectorInv.push (inv : CollectorInv excused log finalized collector) (result : Option E) (stop : Nat)
    (inside : stop ≤ finalized) (some_ : ∀ entry, result = some entry → log[collector.cursor]? = some entry)
    (none_ : result = none → excused collector.cursor) :
    CollectorInv excused log finalized
      { collector with cursor := collector.cursor + 1, pc := .reading stop (collector.pc.drained.push result) } := by
  have cursor := inv.cursor
  have hasDelivered := inv.delivered
  have hasMissing := inv.missing
  rw [Collector.entries, extent_append] at cursor
  rw [Collector.entries, delivered_append] at hasDelivered
  rw [Collector.entries, missing_append] at hasMissing
  have current := inv.current
  generalize collector.pc.drained = own at *
  cases result with
  | none =>
    obtain ⟨wide, sameDelivered, oneMissing, marked⟩ := push_none
      (collector.start + extent (collector.drains.flatMap DrainedEntries.entries)) own
    refine ⟨?_, ?_, ?_, inv.drains, ?_, inside⟩
    · simp only [Collector.entries, CollectorPc.drained, extent_append, wide]
      omega
    · simp only [Collector.entries, CollectorPc.drained, delivered_append, sameDelivered]
      exact hasDelivered
    · simp only [Collector.entries, CollectorPc.drained, missing_append, oneMissing]
      intro sequence member
      rw [← List.append_assoc, Nat.add_assoc, cursor] at member
      rcases List.mem_append.mp member with member | member
      · exact hasMissing sequence member
      · cases List.mem_singleton.mp member
        exact none_ rfl
    · simp only [CollectorPc.drained, marked, ← current]
      rfl
  | some entry =>
    obtain ⟨wide, oneDelivered, sameMissing, marked⟩ := push_some
      (collector.start + extent (collector.drains.flatMap DrainedEntries.entries)) own entry
    refine ⟨?_, ?_, ?_, inv.drains, ?_, inside⟩
    · simp only [Collector.entries, CollectorPc.drained, extent_append, wide]
      omega
    · simp only [Collector.entries, CollectorPc.drained, delivered_append, oneDelivered]
      intro item member
      rw [← List.append_assoc, Nat.add_assoc, cursor] at member
      rcases List.mem_append.mp member with member | member
      · exact hasDelivered item member
      · cases List.mem_singleton.mp member
        exact some_ entry rfl
    · simp only [Collector.entries, CollectorPc.drained, missing_append, sameMissing]
      exact hasMissing
    · simp only [CollectorPc.drained, marked, ← current]
      rfl

end Pinrail.Journal

import Mathlib.Algebra.Ring.Int.Defs
import Mathlib.Algebra.Ring.Nat
import Mathlib.Logic.Function.Basic

/-!
# The foreground journal

The ring of `journal.rs` with its publisher and its collectors. A step is one atomic access of a
thread, with what the thread does on its own up to the next one. The publisher and the collectors are
cut where they access the ring.
-/

namespace Pinrail.Journal

/-- An entry of the journal: one that was recorded, or a marker for entries that were not available. -/
inductive JournalEntry (E : Type) where
  | recorded (entry : E)
  | discontinuity (lost : Nat)
deriving DecidableEq

/-! ## The ring -/

def slotWriter : Nat := 2 ^ 63

def slotReaderMask : Nat := 2 ^ 63 - 1

/-- An empty sequence is `none`, and so is an entry that was never written. -/
structure JournalSlot (E : Type) where
  users : Nat := 0
  sequence : Option Nat := none
  entry : Option E := none
deriving DecidableEq

structure JournalRing (E : Type) where
  capacity : Nat
  slots : Nat → JournalSlot E := fun _ => {}
  finalized : Nat := 0
  offered : Nat := 0

variable {E : Type}

namespace JournalRing

def new (capacity : Nat) : JournalRing E := { capacity := max capacity 1 }

def slot (self : JournalRing E) (sequence : Nat) : JournalSlot E := self.slots (sequence % self.capacity)

def setSlot (self : JournalRing E) (sequence : Nat) (slot : JournalSlot E) : JournalRing E :=
  { self with slots := Function.update self.slots (sequence % self.capacity) slot }

end JournalRing

/-! ## The publisher -/

structure PendingJournalEntry (E : Type) where
  sequence : Nat
  entry : E
deriving DecidableEq

structure JournalPublisher (E : Type) where
  nextSequence : Nat := 0
  pending : List (PendingJournalEntry E) := []
  droppedAfterPending : Nat := 0
  pendingCapacity : Nat
deriving DecidableEq

/-- Where the publisher stands in `publish`, with the entries that are left to publish. An entry that
is written into its slot comes from the pending ones if it is `parked`. -/
inductive PublisherPc (E : Type) where
  | idle
  /-- At the loop of `flush_pending`. -/
  | flush (rest : List E)
  /-- After `flush_pending`. -/
  | offer (rest : List E)
  /-- In `publish_one`, where it tries to publish. -/
  | tryPublish (sequence : Nat) (entry : E) (rest : List E)
  | write (parked : Bool) (sequence : Nat) (entry : E) (rest : List E)
  | storeSequence (parked : Bool) (sequence : Nat) (entry : E) (rest : List E)
  | release (parked : Bool) (sequence : Nat) (entry : E) (rest : List E)
  | finalize (parked : Bool) (sequence : Nat) (entry : E) (rest : List E)
deriving DecidableEq

/-! ## The collectors -/

structure DrainedEntries (E : Type) where
  entries : List (JournalEntry E) := []
  lost : Nat := 0
deriving DecidableEq

/-- Where a collector stands in `collect_unseen`: the end of what it collects, and what it has. -/
inductive CollectorPc (E : Type) where
  | idle
  | reading (stop : Nat) (drained : DrainedEntries E)
  | pinned (stop : Nat) (drained : DrainedEntries E)
  | read (stop : Nat) (drained : DrainedEntries E) (result : Option E)
deriving DecidableEq

structure Collector (E : Type) where
  cursor : Nat
  pc : CollectorPc E := .idle
  /-- Ghost: where it was created. -/
  start : Nat
  drains : List (DrainedEntries E) := []
deriving DecidableEq

namespace DrainedEntries

def push (self : DrainedEntries E) : Option E → DrainedEntries E
  | some entry => { self with entries := self.entries ++ [.recorded entry] }
  | none =>
    { entries :=
        match self.entries.getLast? with
        | some (.discontinuity lost) => self.entries.dropLast ++ [.discontinuity (lost + 1)]
        | _ => self.entries ++ [.discontinuity 1]
      lost := self.lost + 1 }

end DrainedEntries

/-! ## Steps -/

structure Drop where
  sequence : Nat
  queued : Nat
deriving DecidableEq

structure State (E : Type) where
  ring : JournalRing E
  publisher : JournalPublisher E
  pc : PublisherPc E := .idle
  collectors : List (Collector E) := []
  /-- Ghost: the entries that were offered. -/
  log : List E := []
  /-- Ghost: the entries that were dropped. -/
  drops : List Drop := []

namespace State

def new (capacity pendingCapacity : Nat) : State E where
  ring := .new capacity
  publisher := { pendingCapacity := pendingCapacity }

/-- Increments `dropped_after_pending` for a sequence. -/
def drop (self : State E) (sequence : Nat) : State E :=
  { self with
    publisher := { self.publisher with droppedAfterPending := self.publisher.droppedAfterPending + 1 }
    drops := self.drops ++ [⟨sequence, self.publisher.pending.length⟩] }

def park (self : State E) (sequence : Nat) (entry : E) : State E :=
  { self with
    publisher := { self.publisher with pending := self.publisher.pending ++ [⟨sequence, entry⟩] } }

def offered (self : State E) (entry : E) : State E :=
  { self with
    ring := { self.ring with offered := self.publisher.nextSequence + 1 }
    publisher := { self.publisher with nextSequence := self.publisher.nextSequence + 1 }
    log := self.log ++ [entry] }

/-- `publish_one` up to the attempt to publish. -/
def offer (self : State E) (entry : E) (rest : List E) : State E :=
  let sequence := self.publisher.nextSequence
  let self := self.offered entry
  if self.publisher.pending ≠ [] ∨ self.publisher.droppedAfterPending > 0 then
    if self.publisher.droppedAfterPending = 0 ∧ self.publisher.pending.length < self.publisher.pendingCapacity then
      { self.park sequence entry with pc := .flush rest }
    else { self.drop sequence with pc := .flush rest }
  else { self with pc := .tryPublish sequence entry rest }

def claim (self : State E) (parked : Bool) (sequence : Nat) (entry : E) (rest : List E) : Option (State E) :=
  let slot := self.ring.slot sequence
  if slot.users = 0 then
    some { self with
      ring := self.ring.setSlot sequence { slot with users := slotWriter }
      pc := .write parked sequence entry rest }
  else none

def stepPublisher (self : State E) : Option (State E) :=
  match self.pc with
  | .idle => none
  | .flush rest =>
    match self.publisher.pending with
    | pending :: _ =>
      (self.claim true pending.sequence pending.entry rest).getD { self with pc := .offer rest }
    | [] =>
      if self.publisher.droppedAfterPending > 0 then
        some { self with
          ring := { self.ring with finalized := self.publisher.nextSequence }
          publisher := { self.publisher with droppedAfterPending := 0 }
          pc := .offer rest }
      else some { self with pc := .offer rest }
  | .offer [] => some { self with pc := .idle }
  | .offer (entry :: rest) => some (self.offer entry rest)
  | .tryPublish sequence entry rest =>
    (self.claim false sequence entry rest).getD
      (if self.publisher.pendingCapacity > 0 then { self.park sequence entry with pc := .flush rest }
      else { self.drop sequence with pc := .flush rest })
  | .write parked sequence entry rest =>
    some { self with
      ring := self.ring.setSlot sequence { self.ring.slot sequence with entry := some entry }
      pc := .storeSequence parked sequence entry rest }
  | .storeSequence parked sequence entry rest =>
    some { self with
      ring := self.ring.setSlot sequence { self.ring.slot sequence with sequence := some sequence }
      pc := .release parked sequence entry rest }
  | .release parked sequence entry rest =>
    some { self with
      ring := self.ring.setSlot sequence { self.ring.slot sequence with users := 0 }
      pc := .finalize parked sequence entry rest }
  | .finalize parked sequence _ rest =>
    some { self with
      ring := { self.ring with finalized := sequence + 1 }
      publisher := { self.publisher with
        pending := if parked then self.publisher.pending.tail else self.publisher.pending }
      pc := .flush rest }

/-- `collect_unseen` up to its loop. -/
def collect (ring : JournalRing E) (collector : Collector E) : Collector E :=
  let stop := ring.finalized
  if collector.cursor ≥ stop then { collector with drains := collector.drains ++ [{}] }
  else
    let retainedStart := stop - ring.capacity
    let lost := retainedStart - collector.cursor
    { collector with
      cursor := max collector.cursor retainedStart
      pc := .reading stop { entries := if lost > 0 then [.discontinuity lost] else [], lost := lost } }

def stepCollector (ring : JournalRing E) (collector : Collector E) : JournalRing E × Collector E :=
  match collector.pc with
  | .idle => (ring, collect ring collector)
  | .reading stop drained =>
    if collector.cursor < stop then
      let slot := ring.slot collector.cursor
      if slot.users ≥ slotWriter ∨ slot.users = slotReaderMask then
        (ring, { collector with cursor := collector.cursor + 1, pc := .reading stop (drained.push none) })
      else
        (ring.setSlot collector.cursor { slot with users := slot.users + 1 },
          { collector with pc := .pinned stop drained })
    else (ring, { collector with drains := collector.drains ++ [drained], pc := .idle })
  | .pinned stop drained =>
    let slot := ring.slot collector.cursor
    (ring, { collector with
      pc := .read stop drained (if slot.sequence = some collector.cursor then slot.entry else none) })
  | .read stop drained result =>
    let slot := ring.slot collector.cursor
    (ring.setSlot collector.cursor { slot with users := slot.users - 1 },
      { collector with cursor := collector.cursor + 1, pc := .reading stop (drained.push result) })

end State

inductive Action (E : Type) where
  /-- `publish` is called. -/
  | publish (entries : List E)
  | publisher
  | collector
  | collect (collector : Nat)

/-- An action that is not enabled is `none`. -/
def step (self : State E) : Action E → Option (State E)
  | .publish entries =>
    match self.pc with
    | .idle => some { self with pc := .flush entries }
    | _ => none
  | .publisher => self.stepPublisher
  | .collector =>
    some { self with
      collectors := self.collectors ++ [{ cursor := self.ring.offered, start := self.ring.offered }] }
  | .collect i =>
    match self.collectors[i]? with
    | none => none
    | some collector =>
      let (ring, collector) := State.stepCollector self.ring collector
      some { self with ring := ring, collectors := self.collectors.set i collector }

def run (self : State E) : List (Action E) → Option (State E)
  | [] => some self
  | action :: actions => (step self action).bind fun after => run after actions

end Pinrail.Journal

import Mathlib.Data.List.Nodup
import Mathlib.Logic.Function.Basic
import Mathlib.Tactic.Common

/-!
# Reference counts of entities

`EntityMap` and the strong and weak handles to its entities. Handles live on any thread, so a run
interleaves atomic steps. Cloning and upgrading hold the read lock of the counts while they work, a
drop holds the upgradable lock from its decrement to its push, and the push waits for the readers;
`reserve` and `take_dropped` hold the write lock and are one step each. A step whose lock is taken, or
whose handle is gone, waits: it leaves the state as it is.

Ids are not reused, and a count is a natural number: there are fewer handles than a `usize` counts.
Leases are left out.
-/

namespace Pinrail.App

structure Handle where
  key : Nat
  entityId : Nat
deriving DecidableEq

inductive Reader where
  | cloning (handle : Handle)
  | upgrading (entityId : Nat) (loaded : Option Nat)
deriving DecidableEq

inductive Dropping where
  | locked (handle : Handle)
  | pushing (entityId : Nat)
deriving DecidableEq

structure EntityMap where
  counts : Nat → Option Nat := fun _ => none
  droppedEntityIds : List Nat := []
  entities : Nat → Bool := fun _ => false
  nextId : Nat := 0
  handles : List Handle := []
  slots : List Handle := []
  nextKey : Nat := 0
  readers : List Reader := []
  dropping : Option Dropping := none
  /-- An assertion or an unwrap has failed, or a reference into the counts dangles. -/
  failed : Bool := false
  /-- The ids whose count has reached zero, and those that an upgrade succeeded for after that. -/
  zeroed : List Nat := []
  resurrected : List Nat := []
  /-- The ids as they entered the queue, got their entity, and were handed out by `take_dropped`. -/
  enqueued : List Nat := []
  inserted : List Nat := []
  released : List Nat := []

inductive EntityStep where
  | reserve
  | insert (slot : Handle)
  | cloneLock (handle : Handle)
  | cloneAdd (handle : Handle)
  | upgradeLock (entityId : Nat)
  | upgradeLoad (entityId : Nat)
  /-- A weak exchange may fail although the count is the one that was loaded. -/
  | upgradeExchange (entityId loaded : Nat) (spurious : Bool)
  | dropLock (handle : Handle)
  | dropDecrement
  | dropPush
  | takeDropped
deriving DecidableEq

namespace EntityMap

def live (self : EntityMap) (entityId : Nat) : Nat :=
  self.handles.countP fun handle => handle.entityId = entityId

def fail (self : EntityMap) : EntityMap := { self with failed := true }

def addHandle (self : EntityMap) (entityId : Nat) : EntityMap :=
  { self with
    handles := self.handles ++ [⟨self.nextKey, entityId⟩]
    nextKey := self.nextKey + 1 }

def setCount (self : EntityMap) (entityId count : Nat) : EntityMap :=
  { self with counts := Function.update self.counts entityId (some count) }

def reserve (self : EntityMap) : EntityMap :=
  let slot : Handle := ⟨self.nextKey, self.nextId⟩
  { (self.setCount self.nextId 1).addHandle self.nextId with
    slots := self.slots ++ [slot]
    nextId := self.nextId + 1 }

def insert (self : EntityMap) (slot : Handle) : EntityMap :=
  { self with
    slots := self.slots.erase slot
    entities := Function.update self.entities slot.entityId true
    inserted := self.inserted ++ [slot.entityId] }

def cloneAdd (self : EntityMap) (handle : Handle) : EntityMap :=
  let self := { self with readers := self.readers.erase (.cloning handle) }
  match self.counts handle.entityId with
  | none => self.fail
  | some count =>
    let self := self.setCount handle.entityId (count + 1)
    if count = 0 then self.fail else self.addHandle handle.entityId

def upgradeLock (self : EntityMap) (entityId : Nat) : EntityMap :=
  match self.counts entityId with
  | none => self
  | some _ => { self with readers := .upgrading entityId none :: self.readers }

/-- The head of the loop of `atomic_incr_if_not_zero`, with a count just read. -/
def upgradeWith (self : EntityMap) (entityId count : Nat) : EntityMap :=
  if count = 0 then self
  else { self with readers := .upgrading entityId (some count) :: self.readers }

def upgradeLoad (self : EntityMap) (entityId : Nat) : EntityMap :=
  let self := { self with readers := self.readers.erase (.upgrading entityId none) }
  match self.counts entityId with
  | none => self.fail
  | some count => self.upgradeWith entityId count

def upgradeExchange (self : EntityMap) (entityId loaded : Nat) (spurious : Bool) : EntityMap :=
  let self := { self with readers := self.readers.erase (.upgrading entityId (some loaded)) }
  match self.counts entityId with
  | none => self.fail
  | some count =>
    if count = loaded ∧ spurious = false then
      let self := (self.setCount entityId (loaded + 1)).addHandle entityId
      if entityId ∈ self.zeroed then
        { self with resurrected := self.resurrected ++ [entityId] }
      else self
    else self.upgradeWith entityId count

def dropDecrement (self : EntityMap) (handle : Handle) : EntityMap :=
  let self := { self with
    handles := self.handles.erase handle
    slots := self.slots.erase handle
    dropping := none }
  match self.counts handle.entityId with
  | none => self.fail
  | some count =>
    let self := self.setCount handle.entityId (count - 1)
    if count = 0 then self.fail
    else if count = 1 then
      { self with
        dropping := some (.pushing handle.entityId)
        zeroed := self.zeroed ++ [handle.entityId] }
    else self

def dropPush (self : EntityMap) (entityId : Nat) : EntityMap :=
  { self with
    dropping := none
    droppedEntityIds := self.droppedEntityIds ++ [entityId]
    enqueued := self.enqueued ++ [entityId] }

/-- One id of `take_dropped`; an id that was only reserved has no entity. -/
def takeOne (self : EntityMap) (entityId : Nat) : EntityMap :=
  match self.counts entityId with
  | none => self.fail
  | some count =>
    let self := { self with counts := Function.update self.counts entityId none }
    let self := if count = 0 then self else self.fail
    if self.entities entityId then
      { self with
        entities := Function.update self.entities entityId false
        released := self.released ++ [entityId] }
    else self

def takeDropped (self : EntityMap) : EntityMap :=
  self.droppedEntityIds.foldl takeOne { self with droppedEntityIds := [] }

def idle (self : EntityMap) : Bool := self.readers = [] && self.dropping = none

def step (self : EntityMap) : EntityStep → EntityMap
  | .reserve => if self.idle then self.reserve else self
  | .insert slot =>
    if slot ∈ self.slots ∧ self.dropping ≠ some (.locked slot) ∧ .cloning slot ∉ self.readers then
      self.insert slot
    else self
  | .cloneLock handle =>
    if handle ∈ self.handles ∧ self.dropping ≠ some (.locked handle) then
      { self with readers := .cloning handle :: self.readers }
    else self
  | .cloneAdd handle => if .cloning handle ∈ self.readers then self.cloneAdd handle else self
  | .upgradeLock entityId => self.upgradeLock entityId
  | .upgradeLoad entityId =>
    if .upgrading entityId none ∈ self.readers then self.upgradeLoad entityId else self
  | .upgradeExchange entityId loaded spurious =>
    if .upgrading entityId (some loaded) ∈ self.readers then
      self.upgradeExchange entityId loaded spurious
    else self
  | .dropLock handle =>
    if handle ∈ self.handles ∧ .cloning handle ∉ self.readers ∧ self.dropping = none then
      { self with dropping := some (.locked handle) }
    else self
  | .dropDecrement =>
    match self.dropping with
    | some (.locked handle) => self.dropDecrement handle
    | _ => self
  | .dropPush =>
    match self.dropping with
    | some (.pushing entityId) => if self.readers = [] then self.dropPush entityId else self
    | _ => self
  | .takeDropped => if self.idle then self.takeDropped else self

def run (self : EntityMap) (steps : List EntityStep) : EntityMap := steps.foldl step self

end EntityMap

end Pinrail.App

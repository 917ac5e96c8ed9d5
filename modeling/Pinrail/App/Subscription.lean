import Mathlib.Data.List.Sort
import Mathlib.Logic.Function.Basic
import Mathlib.Tactic.Common

/-!
# Subscribers of an emitter

`SubscriberSet`. A subscriber is known by its id, which grows with every insertion; the flags it
shares with its subscription are kept by id. `retain` takes the subscribers of a key out of the table
and runs their callbacks while the table is free to change, so a run is a sequence of single steps
over a stack of the calls in progress: the steps of a callback come between the one that invokes it
and the one in which it returns.

Each call keeps a record of what it found and did.
-/

namespace Pinrail.App

structure Turn where
  id : Nat
  active : Bool
  dropped : Bool
deriving DecidableEq

/-- A call of `retain` in progress: the subscribers it took out are kept, running or remaining. The
other fields are its record. -/
structure Frame (K : Type) where
  key : K
  kept : List Nat
  running : Nat
  remaining : List Nat
  present : List Nat
  firstNew : Nat
  turns : List Turn
  invoked : List Nat

/-- A call of `retain` that has returned, with the flags and the table as it leaves them. -/
structure Finished (K : Type) where
  key : K
  present : List Nat
  turns : List Turn
  invoked : List Nat
  inserted : List Nat
  dropped : Nat → Bool
  rejected : Nat → Bool
  holds : List Nat

structure SubscriberSet (K : Type) where
  subscribers : K → Option (Option (List Nat)) := fun _ => none
  nextSubscriberId : Nat := 0
  emitterKey : Nat → Option K := fun _ => none
  active : Nat → Bool := fun _ => false
  dropped : Nat → Bool := fun _ => false
  rejected : Nat → Bool := fun _ => false
  frames : List (Frame K) := []
  finished : List (Finished K) := []

inductive Step (K : Type) where
  | insert (emitterKey : K)
  | activate (id : Nat)
  | drop (id : Nat)
  | remove (emitter : K)
  | retain (emitter : K)
  | callbackReturns (keep : Bool)

/-- `BTreeMap::extend`, on ids in increasing order. -/
def extend (ids new : List Nat) : List Nat := new.foldl (fun ids id => ids.orderedInsert (· ≤ ·) id) ids

namespace SubscriberSet

variable {K : Type} [DecidableEq K]

def held (self : SubscriberSet K) (key : K) : List Nat := ((self.subscribers key).getD none).getD []

def put (self : SubscriberSet K) (key : K) (subscribers : List Nat) : SubscriberSet K :=
  let entry := if subscribers = [] then none else some (some subscribers)
  { self with subscribers := Function.update self.subscribers key entry }

def insert (self : SubscriberSet K) (emitterKey : K) : SubscriberSet K :=
  let id := self.nextSubscriberId
  { self with
    nextSubscriberId := id + 1
    subscribers := Function.update self.subscribers emitterKey
      (some (some ((self.held emitterKey).orderedInsert (· ≤ ·) id)))
    emitterKey := Function.update self.emitterKey id (some emitterKey)
    active := Function.update self.active id false
    dropped := Function.update self.dropped id false
    rejected := Function.update self.rejected id false }

def activate (self : SubscriberSet K) (id : Nat) : SubscriberSet K :=
  { self with active := Function.update self.active id true }

def drop (self : SubscriberSet K) (id : Nat) : SubscriberSet K :=
  match self.emitterKey id with
  | none => self
  | some emitterKey =>
    let self := { self with dropped := Function.update self.dropped id true }
    match self.subscribers emitterKey with
    | some (some subscribers) => self.put emitterKey (subscribers.erase id)
    | _ => self

/-- `remove`; the callbacks it hands out are those of the active subscribers. -/
def remove (self : SubscriberSet K) (emitter : K) : SubscriberSet K × List Nat :=
  ({ self with subscribers := Function.update self.subscribers emitter none }, (self.held emitter).filter self.active)

def record (self : SubscriberSet K) (frame : Frame K) (holds : List Nat) : Finished K where
  key := frame.key
  present := frame.present
  turns := frame.turns
  invoked := frame.invoked
  inserted := (List.range' frame.firstNew (self.nextSubscriberId - frame.firstNew)).filter fun id =>
    self.emitterKey id = some frame.key
  dropped := self.dropped
  rejected := self.rejected
  holds := holds

/-- The end of `retain`: subscribers that came in the meantime join those that stay. -/
def finish (self : SubscriberSet K) (frame : Frame K) : SubscriberSet K :=
  let subscribers := extend frame.kept (self.held frame.key)
  { self.put frame.key subscribers with
    finished := self.finished ++ [self.record frame subscribers] }

/-- The loop of `retain` up to the next callback. -/
def advance (self : SubscriberSet K) (frame : Frame K) : List Nat → SubscriberSet K
  | [] => self.finish frame
  | id :: rest =>
    let frame := { frame with turns := frame.turns ++ [⟨id, self.active id, self.dropped id⟩] }
    if !self.active id then self.advance { frame with kept := frame.kept ++ [id] } rest
    else if self.dropped id then self.advance frame rest
    else
      let frame := { frame with
        invoked := frame.invoked ++ [id]
        running := id
        remaining := rest }
      { self with frames := frame :: self.frames }

def begin (self : SubscriberSet K) (emitter : K) (subscribers : List Nat) : Frame K where
  key := emitter
  kept := []
  running := 0
  remaining := []
  present := subscribers
  firstNew := self.nextSubscriberId
  turns := []
  invoked := []

def retain (self : SubscriberSet K) (emitter : K) : SubscriberSet K :=
  match self.subscribers emitter with
  | some (some subscribers) =>
    { self with subscribers := Function.update self.subscribers emitter (some none) }.advance
      (self.begin emitter subscribers) subscribers
  -- Nothing is there, or a call in progress has it.
  | _ => { self with finished := self.finished ++ [self.record (self.begin emitter []) []] }

def callbackReturns (self : SubscriberSet K) (keep : Bool) : SubscriberSet K :=
  match self.frames with
  | [] => self
  | frame :: frames =>
    let kept :=
      if keep && !self.dropped frame.running then frame.kept ++ [frame.running] else frame.kept
    let rejected :=
      if keep then self.rejected else Function.update self.rejected frame.running true
    { self with frames, rejected }.advance { frame with kept } frame.remaining

def step (self : SubscriberSet K) : Step K → SubscriberSet K
  | .insert emitterKey => self.insert emitterKey
  | .activate id => self.activate id
  | .drop id => self.drop id
  -- Callbacks do not remove.
  | .remove emitter => if self.frames = [] then (self.remove emitter).1 else self
  | .retain emitter => self.retain emitter
  | .callbackReturns keep => self.callbackReturns keep

def run (self : SubscriberSet K) (steps : List (Step K)) : SubscriberSet K := steps.foldl step self

end SubscriberSet

end Pinrail.App

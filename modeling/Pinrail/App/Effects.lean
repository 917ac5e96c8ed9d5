import Mathlib.Data.Finset.Sort
import Mathlib.Data.Finset.Sum
import Pinrail.Lib.Coalescing

/-!
# Effects

The effects of an `App` wait in a queue until the outermost `update` returns, and are flushed there.
What flushing calls, and what runs in an update, is any code that has the app: it may make effects,
update again and change what the windows track. So a run is a sequence of single steps over a stack
of the calls in progress.
-/

namespace Pinrail.Effects
open Lib

/-- A payload is what an effect has besides ids and types: an event, a callback or an entity. -/
inductive Effect (Payload : Type) where
  | notify (emitter : Nat)
  | emit (emitter eventType : Nat) (event : Payload)
  | refreshWindows
  | notifyGlobalObservers (globalType : Nat)
  | defer (callback : Payload)
  | entityCreated (entity : Payload) (tid : Nat) (window : Option Nat)
deriving DecidableEq

inductive DrawPhase where
  | none
  | prepaint
  | paint
  | focus
deriving DecidableEq

structure WindowInvalidator where
  dirty : Bool := true
  drawPhase : DrawPhase := .none
  dirtyViews : Finset Nat := ∅
  updateCount : Nat := 0

/-- A call in progress: an update, a flush at the end of an update or of `shutdown`, or what a flush has called. -/
inductive Frame where
  | update
  | flush
  | shutdown
  | callback
deriving DecidableEq

def Frame.isOpen : Frame → Bool
  | update => true
  | flush => true
  | _ => false

structure App (Payload : Type) where
  invalidators : Nat → WindowInvalidator := fun _ => {}
  windowInvalidatorsByEntity : Nat → Finset Nat := fun _ => ∅
  trackedEntities : Nat → Option (Finset Nat) := fun _ => none
  pendingUpdates : Nat := 0
  flushingEffects : Bool := false
  pendingEffects : List (Effect Payload) := []
  pendingNotifications : Finset Nat := ∅
  pendingGlobalNotifications : Finset Nat := ∅
  stack : List Frame := []
  history : List (QueueEvent (Effect Payload)) := []

namespace App

variable {Payload : Type}

def pushBack (effect : Effect Payload) (self : App Payload) : App Payload :=
  { self with pendingEffects := self.pendingEffects ++ [effect] }

def asked (effect : Effect Payload) (self : App Payload) : App Payload :=
  { self with history := self.history ++ [.asked effect] }

def pushEffect (effect : Effect Payload) (self : App Payload) : App Payload :=
  let self := self.asked effect
  match effect with
  | .notify emitter =>
    if emitter ∈ self.pendingNotifications then self
    else { self with pendingNotifications := insert emitter self.pendingNotifications }.pushBack effect
  | .notifyGlobalObservers globalType =>
    if globalType ∈ self.pendingGlobalNotifications then self
    else { self with pendingGlobalNotifications := insert globalType self.pendingGlobalNotifications }.pushBack effect
  | _ => self.pushBack effect

def setInvalidator (window : Nat) (invalidator : WindowInvalidator) (self : App Payload) : App Payload :=
  { self with invalidators := Function.update self.invalidators window invalidator }

def invalidateView (entity : Nat) (self : App Payload) (window : Nat) : App Payload :=
  let inner := self.invalidators window
  let inner := { inner with updateCount := inner.updateCount + 1, dirtyViews := insert entity inner.dirtyViews }
  if inner.drawPhase = .none then
    (self.setInvalidator window { inner with dirty := true }).pushEffect (.notify entity)
  else self.setInvalidator window inner

def liveInvalidators (entity : Nat) (self : App Payload) : Finset Nat :=
  (self.windowInvalidatorsByEntity entity).filter fun window =>
    (self.trackedEntities window).any fun entities => decide (entity ∈ entities)

def notify (entity : Nat) (self : App Payload) : App Payload :=
  let live := self.liveInvalidators entity
  if live = ∅ then self.pushEffect (.notify entity)
  else (live.sort (· ≤ ·)).foldl (invalidateView entity) self

def recordEntitiesAccessed (window : Nat) (entities : Finset Nat) (self : App Payload) : App Payload :=
  let tracked := (self.trackedEntities window).getD ∅
  { self with
    windowInvalidatorsByEntity := fun entity =>
      let windows := self.windowInvalidatorsByEntity entity
      let windows := if entity ∈ tracked then windows.erase window else windows
      if entity ∈ entities then insert window windows else windows
    trackedEntities := Function.update self.trackedEntities window (some entities) }

def removeWindow (window : Nat) (self : App Payload) : App Payload :=
  let tracked := (self.trackedEntities window).getD ∅
  { self with
    windowInvalidatorsByEntity := fun entity =>
      let windows := self.windowInvalidatorsByEntity entity
      if entity ∈ tracked then windows.erase window else windows
    trackedEntities := Function.update self.trackedEntities window none }

def releaseEntity (entity : Nat) (self : App Payload) : App Payload :=
  { self with windowInvalidatorsByEntity := Function.update self.windowInvalidatorsByEntity entity ∅ }

def setDirty (window : Nat) (dirty : Bool) (self : App Payload) : App Payload :=
  let inner := self.invalidators window
  self.setInvalidator window
    { inner with dirty := dirty, updateCount := if dirty then inner.updateCount + 1 else inner.updateCount }

def setPhase (window : Nat) (phase : DrawPhase) (self : App Payload) : App Payload :=
  self.setInvalidator window { self.invalidators window with drawPhase := phase }

def takeViews (window : Nat) (self : App Payload) : App Payload :=
  self.setInvalidator window { self.invalidators window with dirtyViews := ∅ }

def startUpdate (self : App Payload) : App Payload :=
  { self with pendingUpdates := self.pendingUpdates + 1, stack := .update :: self.stack }

def finishUpdate (below : List Frame) (self : App Payload) : App Payload :=
  if !self.flushingEffects && self.pendingUpdates == 1 then
    { self with flushingEffects := true, stack := .flush :: below }
  else { self with pendingUpdates := self.pendingUpdates - 1, stack := below }

def applyEffect (effect : Effect Payload) (effects : List (Effect Payload)) (self : App Payload) : App Payload :=
  let self := { self with
    pendingEffects := effects
    history := self.history ++ [.took effect]
    stack := .callback :: self.stack }
  match effect with
  | .notify emitter => { self with pendingNotifications := self.pendingNotifications.erase emitter }
  | .notifyGlobalObservers globalType =>
    { self with pendingGlobalNotifications := self.pendingGlobalNotifications.erase globalType }
  | _ => self

end App

/-! ## Runs -/

inductive Call (Payload : Type) where
  | pushEffect (effect : Effect Payload)
  | notify (entity : Nat)
  | recordEntitiesAccessed (window : Nat) (entities : Finset Nat)
  | removeWindow (window : Nat)
  | releaseEntity (entity : Nat)
  | setDirty (window : Nat) (dirty : Bool)
  | setPhase (window : Nat) (phase : DrawPhase)
  | takeViews (window : Nat)
  | startUpdate
  | shutdown

inductive Step (Payload : Type) where
  | call (call : Call Payload)
  | finishUpdate
  /-- A flush calls a release listener, or tells a window that its focus is gone. -/
  | release
  | apply
  | drained
  | callbackReturns

namespace App

variable {Payload : Type}

def call (self : App Payload) : Call Payload → App Payload
  | .pushEffect effect => self.pushEffect effect
  | .notify entity => self.notify entity
  | .recordEntitiesAccessed window entities => self.recordEntitiesAccessed window entities
  | .removeWindow window => self.removeWindow window
  | .releaseEntity entity => self.releaseEntity entity
  | .setDirty window dirty => self.setDirty window dirty
  | .setPhase window phase => self.setPhase window phase
  | .takeViews window => self.takeViews window
  | .startUpdate => self.startUpdate
  | .shutdown => { self with stack := .shutdown :: self.stack }

def runsCode (stack : List Frame) : Bool :=
  match stack with
  | .flush :: _ => false
  | .shutdown :: _ => false
  | _ => true

def step (self : App Payload) : Step Payload → Option (App Payload)
  | .call call => if runsCode self.stack then some (self.call call) else none
  | .finishUpdate =>
    match self.stack with
    | .update :: below => some (self.finishUpdate below)
    | _ => none
  | .release => if runsCode self.stack then none else some { self with stack := .callback :: self.stack }
  | .apply =>
    if runsCode self.stack then none
    else
      match self.pendingEffects with
      | [] => none
      | effect :: effects => some (self.applyEffect effect effects)
  | .drained =>
    match self.pendingEffects, self.stack with
    | [], .flush :: below =>
      some { self with flushingEffects := false, pendingUpdates := self.pendingUpdates - 1, stack := below }
    | [], .shutdown :: below => some { self with stack := below }
    | _, _ => none
  | .callbackReturns =>
    match self.stack with
    | .callback :: below => some { self with stack := below }
    | _ => none

def run (self : App Payload) : List (Step Payload) → Option (App Payload)
  | [] => some self
  | step :: steps => do run (← self.step step) steps

end App

/-! ## The queue -/

open Coalescing

variable {Payload : Type}

def key : Effect Payload → Option (Nat ⊕ Nat)
  | .notify emitter => some (.inl emitter)
  | .notifyGlobalObservers globalType => some (.inr globalType)
  | _ => none

namespace App

variable {self after : App Payload}

def queue (self : App Payload) : Coalescing (Effect Payload) (Nat ⊕ Nat) :=
  ⟨self.pendingEffects, self.pendingNotifications.disjSum self.pendingGlobalNotifications⟩

def Queued (self : App Payload) : Prop := Reached key self.history self.queue

structure SameCalls (before after : App Payload) : Prop where
  pendingUpdates : after.pendingUpdates = before.pendingUpdates
  flushingEffects : after.flushingEffects = before.flushingEffects
  stack : after.stack = before.stack

theorem SameCalls.refl (self : App Payload) : SameCalls self self := ⟨rfl, rfl, rfl⟩

theorem SameCalls.trans {middle : App Payload} (first : SameCalls self middle) (second : SameCalls middle after) :
    SameCalls self after :=
  ⟨second.pendingUpdates.trans first.pendingUpdates, second.flushingEffects.trans first.flushingEffects,
    second.stack.trans first.stack⟩

theorem insert_inl (k : Nat) (left right : Finset Nat) :
    (insert k left).disjSum right = insert (.inl k) (left.disjSum right) := by
  ext x
  cases x <;> simp

theorem insert_inr (k : Nat) (left right : Finset Nat) :
    left.disjSum (insert k right) = insert (.inr k) (left.disjSum right) := by
  ext x
  cases x <;> simp

theorem erase_inl (k : Nat) (left right : Finset Nat) :
    (left.erase k).disjSum right = (left.disjSum right).erase (.inl k) := by
  ext x
  cases x <;> simp

theorem erase_inr (k : Nat) (left right : Finset Nat) :
    left.disjSum (right.erase k) = (left.disjSum right).erase (.inr k) := by
  ext x
  cases x <;> simp

theorem queue_pushEffect (effect : Effect Payload) : (self.pushEffect effect).queue = ask key effect self.queue ∧
    (self.pushEffect effect).history = self.history ++ [.asked effect] := by
  cases effect with
  | notify emitter =>
    simp only [pushEffect, ask, key, queue, Finset.inl_mem_disjSum]
    by_cases waits : emitter ∈ self.pendingNotifications
    · simp [asked, waits]
    · simp [asked, waits, pushBack, insert_inl]
  | notifyGlobalObservers globalType =>
    simp only [pushEffect, ask, key, queue, Finset.inr_mem_disjSum]
    by_cases waits : globalType ∈ self.pendingGlobalNotifications
    · simp [asked, waits]
    · simp [asked, waits, pushBack, insert_inr]
  | _ => exact ⟨rfl, rfl⟩

theorem sameCalls_pushEffect (effect : Effect Payload) : SameCalls self (self.pushEffect effect) := by
  cases effect with
  | notify emitter =>
    simp only [pushEffect]
    split_ifs <;> exact ⟨rfl, rfl, rfl⟩
  | notifyGlobalObservers globalType =>
    simp only [pushEffect]
    split_ifs <;> exact ⟨rfl, rfl, rfl⟩
  | _ => exact ⟨rfl, rfl, rfl⟩

theorem Queued.pushEffect (queued : self.Queued) (effect : Effect Payload) : (self.pushEffect effect).Queued := by
  obtain ⟨queue, history⟩ := @queue_pushEffect _ self effect
  rw [Queued, queue, history]
  exact .asked queued effect

theorem queue_applyEffect {effect : Effect Payload} {effects : List (Effect Payload)}
    (front : self.pendingEffects = effect :: effects) :
    take key self.queue = some (effect, (self.applyEffect effect effects).queue) := by
  simp only [take, queue, front]
  cases effect with
  | notify emitter => simp [applyEffect, key, erase_inl]
  | notifyGlobalObservers globalType => simp [applyEffect, key, erase_inr]
  | _ => rfl

theorem Queued.applyEffect (queued : self.Queued) {effect : Effect Payload} {effects : List (Effect Payload)}
    (front : self.pendingEffects = effect :: effects) : (self.applyEffect effect effects).Queued := by
  have history : (self.applyEffect effect effects).history = self.history ++ [.took effect] := by
    cases effect <;> rfl
  rw [Queued, history]
  exact .took queued (queue_applyEffect front)

theorem queued_invalidateView (queued : self.Queued) (entity window : Nat) :
    (self.invalidateView entity window).Queued ∧ SameCalls self (self.invalidateView entity window) := by
  simp only [invalidateView]
  split_ifs
  · refine ⟨@Queued.pushEffect _ (self.setInvalidator window _) queued _, SameCalls.trans ?_ (sameCalls_pushEffect _)⟩
    exact ⟨rfl, rfl, rfl⟩
  · exact ⟨queued, ⟨rfl, rfl, rfl⟩⟩

theorem queued_invalidateViews (queued : self.Queued) (entity : Nat) (windows : List Nat) :
    (windows.foldl (invalidateView entity) self).Queued ∧
    SameCalls self (windows.foldl (invalidateView entity) self) := by
  induction windows generalizing self with
  | nil => exact ⟨queued, .refl self⟩
  | cons window windows ih =>
    obtain ⟨queued', same⟩ := queued_invalidateView queued entity window
    obtain ⟨last, same'⟩ := ih queued'
    exact ⟨last, same.trans same'⟩

theorem queued_notify (queued : self.Queued) (entity : Nat) :
    (self.notify entity).Queued ∧ SameCalls self (self.notify entity) := by
  simp only [notify]
  split_ifs
  · exact ⟨Queued.pushEffect queued _, sameCalls_pushEffect _⟩
  · exact queued_invalidateViews queued entity _

/-! ## The calls in progress -/

structure Controlled (app : App Payload) : Prop where
  updates : app.pendingUpdates = app.stack.countP Frame.isOpen
  flushing : app.flushingEffects = true ↔ Frame.flush ∈ app.stack
  alone (above below : List Frame) : app.stack = above ++ .flush :: below → below.countP Frame.isOpen = 0

theorem Controlled.same (controlled : self.Controlled) (same : SameCalls self after) : after.Controlled := by
  obtain ⟨updates, flushing, alone⟩ := controlled
  refine ⟨?_, ?_, ?_⟩
  · rw [same.pendingUpdates, same.stack, updates]
  · rw [same.flushingEffects, same.stack, flushing]
  · rw [same.stack]
    exact alone

theorem Controlled.cons {frame : Frame} (controlled : self.Controlled) (other : frame ≠ .flush)
    (updates : after.pendingUpdates = self.pendingUpdates + if frame.isOpen then 1 else 0)
    (flushing : after.flushingEffects = self.flushingEffects) (stack : after.stack = frame :: self.stack) :
    after.Controlled where
  updates := by rw [updates, stack, List.countP_cons, controlled.updates]
  flushing := by
    rw [flushing, stack, List.mem_cons, controlled.flushing]
    exact ⟨.inr, fun member => member.resolve_left other.symm⟩
  alone above below split := by
    rw [stack] at split
    cases above with
    | nil => exact absurd (List.cons.inj split).1 other
    | cons first above => exact controlled.alone above below (List.cons.inj split).2

theorem Controlled.tail {frame : Frame} (controlled : self.Controlled) (other : frame ≠ .flush)
    (updates : after.pendingUpdates = self.pendingUpdates - if frame.isOpen then 1 else 0)
    (flushing : after.flushingEffects = self.flushingEffects) (stack : self.stack = frame :: after.stack) :
    after.Controlled where
  updates := by rw [updates, controlled.updates, stack, List.countP_cons, Nat.add_sub_cancel]
  flushing := by
    rw [flushing, controlled.flushing, stack, List.mem_cons]
    exact ⟨fun member => member.resolve_left other.symm, .inr⟩
  alone above below split := controlled.alone (frame :: above) below (by rw [stack, split]; rfl)

theorem Controlled.finishUpdate (controlled : self.Controlled) {below : List Frame}
    (stack : self.stack = .update :: below) : (self.finishUpdate below).Controlled := by
  rw [App.finishUpdate]
  split_ifs with outermost
  · simp only [Bool.and_eq_true, Bool.not_eq_true', beq_iff_eq] at outermost
    have none : below.countP Frame.isOpen = 0 := by
      have := controlled.updates
      rw [stack, List.countP_cons, outermost.2] at this
      simpa [Frame.isOpen] using this
    refine ⟨?_, ?_, ?_⟩
    · rw [List.countP_cons, none, outermost.2]
      rfl
    · simp
    · intro above rest split
      cases above with
      | nil => exact (List.cons.inj split).2 ▸ none
      | cons first above =>
        have rest_ : below = above ++ .flush :: rest := (List.cons.inj split).2
        rw [rest_, List.countP_append, List.countP_cons] at none
        simp [Frame.isOpen] at none
  · exact controlled.tail (by simp) rfl rfl stack

theorem Controlled.drained (controlled : self.Controlled) {below : List Frame} (stack : self.stack = .flush :: below) :
    Controlled { self with flushingEffects := false, pendingUpdates := self.pendingUpdates - 1, stack := below } := by
  have none := controlled.alone [] below stack
  have out : Frame.flush ∉ below := fun member => by
    have := List.countP_eq_zero.mp none _ member
    simp [Frame.isOpen] at this
  refine ⟨?_, ?_, ?_⟩
  · rw [controlled.updates, stack, List.countP_cons]
    simp [Frame.isOpen]
  · simp [out]
  · intro above rest split
    have split' : below = above ++ .flush :: rest := split
    exact absurd (by rw [split']; simp) out

/-! ## Every run -/

structure Consistent (app : App Payload) : Prop where
  queued : app.Queued
  controlled : app.Controlled

theorem Consistent.new : Consistent ({} : App Payload) where
  queued := .empty
  controlled := by
    refine ⟨rfl, by simp, ?_⟩
    intro above below split
    simp at split

theorem Consistent.call (consistent : self.Consistent) (call : Call Payload) : (self.call call).Consistent := by
  obtain ⟨queued, controlled⟩ := consistent
  cases call with
  | pushEffect effect => exact ⟨Queued.pushEffect queued effect, controlled.same (sameCalls_pushEffect effect)⟩
  | notify entity =>
    obtain ⟨queued', same⟩ := queued_notify queued entity
    exact ⟨queued', controlled.same same⟩
  | startUpdate => exact ⟨queued, controlled.cons (by simp) rfl rfl rfl⟩
  | shutdown => exact ⟨queued, controlled.cons (by simp) rfl rfl rfl⟩
  | _ => exact ⟨queued, controlled.same ⟨rfl, rfl, rfl⟩⟩

theorem Consistent.step (consistent : self.Consistent) {step : Step Payload} (steps : self.step step = some after) :
    after.Consistent := by
  obtain ⟨queued, controlled⟩ := consistent
  cases step with
  | call call =>
    simp only [App.step] at steps
    split_ifs at steps
    cases steps
    exact Consistent.call ⟨queued, controlled⟩ call
  | finishUpdate =>
    simp only [App.step] at steps
    split at steps
    · next below stack =>
        cases steps
        refine ⟨?_, controlled.finishUpdate stack⟩
        rw [App.finishUpdate]
        split_ifs <;> exact queued
    · cases steps
  | release =>
    simp only [App.step] at steps
    split_ifs at steps
    cases steps
    exact ⟨queued, controlled.cons (by simp) rfl rfl rfl⟩
  | apply =>
    simp only [App.step] at steps
    split_ifs at steps
    split at steps
    · cases steps
    · next effect effects front =>
        cases steps
        refine ⟨queued.applyEffect front, ?_⟩
        cases effect <;> exact controlled.cons (by simp) rfl rfl rfl
  | drained =>
    simp only [App.step] at steps
    split at steps
    · next below none stack =>
        cases steps
        exact ⟨queued, controlled.drained stack⟩
    · next below none stack =>
        cases steps
        exact ⟨queued, controlled.tail (by simp) rfl rfl stack⟩
    · cases steps
  | callbackReturns =>
    simp only [App.step] at steps
    split at steps
    · next below stack =>
        cases steps
        exact ⟨queued, controlled.tail (by simp) rfl rfl stack⟩
    · cases steps

theorem Consistent.run (consistent : self.Consistent) {steps : List (Step Payload)}
    (runs : self.run steps = some after) : after.Consistent := by
  induction steps generalizing self with
  | nil =>
    cases runs
    exact consistent
  | cons step steps ih =>
    obtain ⟨middle, first, rest⟩ := Option.bind_eq_some_iff.mp runs
    exact ih (consistent.step first) rest

theorem pendingUpdates_call (call : Call Payload) (queued : self.Queued) :
    self.pendingUpdates ≤ (self.call call).pendingUpdates := by
  cases call with
  | pushEffect effect => exact (sameCalls_pushEffect effect).pendingUpdates.ge
  | notify entity => exact (queued_notify queued entity).2.pendingUpdates.ge
  | startUpdate => exact Nat.le_succ _
  | _ => exact le_rfl

theorem Consistent.outermost (consistent : self.Consistent) {step : Step Payload} (steps : self.step step = some after)
    (updating : self.pendingUpdates ≠ 0) (over_ : after.pendingUpdates = 0) : after.pendingEffects = [] := by
  obtain ⟨queued, controlled⟩ := consistent
  cases step with
  | call call =>
    simp only [App.step] at steps
    split_ifs at steps
    cases steps
    have := pendingUpdates_call call queued
    omega
  | finishUpdate =>
    simp only [App.step] at steps
    split at steps
    · next below stack =>
        cases steps
        rw [App.finishUpdate] at over_ ⊢
        split_ifs at over_ ⊢ with outermost
        · exact absurd over_ updating
        · have one : self.pendingUpdates = 1 := by
            dsimp only at over_
            omega
          have flushing : self.flushingEffects = true := by simpa [one] using outermost
          have member := controlled.flushing.mp flushing
          have none := controlled.updates
          rw [stack] at member none
          rw [one, List.countP_cons] at none
          have zero : below.countP Frame.isOpen = 0 := by simpa [Frame.isOpen] using none.symm
          exact absurd (List.countP_eq_zero.mp zero .flush (by simpa using member)) (by simp [Frame.isOpen])
    · cases steps
  | release =>
    simp only [App.step] at steps
    split_ifs at steps
    cases steps
    exact absurd over_ updating
  | apply =>
    simp only [App.step] at steps
    split_ifs at steps
    split at steps
    · cases steps
    · next effect effects front =>
        cases steps
        exact absurd over_ (by cases effect <;> exact updating)
  | drained =>
    simp only [App.step] at steps
    split at steps
    · next below none stack =>
        cases steps
        exact none
    · next below none stack =>
        cases steps
        exact none
    · cases steps
  | callbackReturns =>
    simp only [App.step] at steps
    split at steps
    · cases steps
      exact absurd over_ updating
    · cases steps

theorem Consistent.applies (consistent : self.Consistent) (applied : self.step .apply = some after) :
    (self.stack.head? = some .flush ∧ self.pendingUpdates = 1) ∨ self.stack.head? = some .shutdown := by
  simp only [App.step] at applied
  split_ifs at applied with code
  cases stack : self.stack with
  | nil => simp [stack, runsCode] at code
  | cons frame below =>
    cases frame with
    | flush =>
      refine .inl ⟨rfl, ?_⟩
      rw [consistent.controlled.updates, stack, List.countP_cons, consistent.controlled.alone [] below stack]
      rfl
    | shutdown => exact .inr rfl
    | _ => simp [stack, runsCode] at code

theorem mem_notify {effects : List (Effect Payload)} {emitter : Nat} :
    .inl emitter ∈ effects.filterMap key ↔ .notify emitter ∈ effects := by
  rw [List.mem_filterMap]
  constructor
  · rintro ⟨effect, member, keyed⟩
    cases effect <;> simp [key] at keyed
    exact keyed ▸ member
  · intro member
    exact ⟨_, member, rfl⟩

theorem mem_notifyGlobalObservers {effects : List (Effect Payload)} {globalType : Nat} :
    .inr globalType ∈ effects.filterMap key ↔ .notifyGlobalObservers globalType ∈ effects := by
  rw [List.mem_filterMap]
  constructor
  · rintro ⟨effect, member, keyed⟩
    cases effect <;> simp [key] at keyed
    exact keyed ▸ member
  · intro member
    exact ⟨_, member, rfl⟩

/-- Over every run, effects are applied in the order in which they were asked for, a notification once for all
that asked since the last; and when the outermost update is over, nothing that was asked for is left. -/
theorem effects_flushed {steps : List (Step Payload)} {app : App Payload} (runs : ({} : App Payload).run steps = some app) :
    (takes app.history ++ app.pendingEffects).Sublist (asks app.history) ∧
      (takes app.history ++ app.pendingEffects).filter (fun effect => (key effect).isNone) =
        (asks app.history).filter (fun effect => (key effect).isNone) ∧
      (∀ emitter, emitter ∈ app.pendingNotifications ↔ .notify emitter ∈ app.pendingEffects) ∧
      (∀ globalType, globalType ∈ app.pendingGlobalNotifications ↔ .notifyGlobalObservers globalType ∈ app.pendingEffects) ∧
      (app.pendingEffects.filterMap key).Nodup ∧
      (∀ k before effect later, app.history = before ++ .took effect :: later → key effect = some k →
        Awaited key k before) ∧
      (∀ step after, app.step step = some after → app.pendingUpdates ≠ 0 → after.pendingUpdates = 0 →
        after.pendingEffects = [] ∧ ∀ k, Answered key k after.history) ∧
      ∀ after, app.step .apply = some after →
        (app.stack.head? = some .flush ∧ app.pendingUpdates = 1) ∨ app.stack.head? = some .shutdown := by
  have consistent := Consistent.new.run runs
  have coalesced := consistent.queued.consistent
  refine ⟨consistent.queued.fifo.1, consistent.queued.fifo.2, ?_, ?_, coalesced.once, ?_, ?_, ?_⟩
  · intro emitter
    rw [← mem_notify, ← Finset.inl_mem_disjSum]
    exact coalesced.waiting _
  · intro globalType
    rw [← mem_notifyGlobalObservers, ← Finset.inr_mem_disjSum]
    exact coalesced.waiting _
  · intro k before effect later split keyed
    exact consistent.queued.prompted k split keyed
  · intro step after steps updating over_
    have empty := consistent.outermost steps updating over_
    have consistent' := consistent.step steps
    refine ⟨empty, fun k => (consistent'.queued.keys k).2 ?_⟩
    have items : after.queue.items = [] := empty
    simp [consistent'.queued.consistent.waiting, items]
  · intro after applied
    exact consistent.applies applied

/-- An observer notifies another entity and makes an event while the first notification is applied. -/
theorem effects_flushed_update : ∃ app, ({} : App Nat).run
        [.call .startUpdate, .call (.notify 0), .call (.notify 0), .finishUpdate, .apply, .call .startUpdate,
          .call (.notify 1), .call (.pushEffect (.emit 0 7 5)), .finishUpdate, .callbackReturns] = some app ∧
      (takes app.history ++ app.pendingEffects).Sublist (asks app.history) ∧ (app.pendingEffects.filterMap key).Nodup := by
  have returns : (({} : App Nat).run
      [.call .startUpdate, .call (.notify 0), .call (.notify 0), .finishUpdate, .apply, .call .startUpdate,
        .call (.notify 1), .call (.pushEffect (.emit 0 7 5)), .finishUpdate, .callbackReturns]).isSome := by decide
  obtain ⟨app, runs⟩ := Option.isSome_iff_exists.mp returns
  obtain ⟨order, -, -, -, once, -⟩ := effects_flushed runs
  exact ⟨app, runs, order, once⟩

/-! ## What windows show -/

def Tracks (app : App Payload) : Prop :=
  ∀ window entity, window ∈ app.windowInvalidatorsByEntity entity →
    ∃ entities, app.trackedEntities window = some entities ∧ entity ∈ entities

structure SameTracking (before after : App Payload) : Prop where
  windowInvalidatorsByEntity : after.windowInvalidatorsByEntity = before.windowInvalidatorsByEntity
  trackedEntities : after.trackedEntities = before.trackedEntities

theorem Tracks.same (tracks : self.Tracks) (same : SameTracking self after) : after.Tracks := by
  rw [Tracks, same.windowInvalidatorsByEntity, same.trackedEntities]
  exact tracks

theorem pushEffect_frame (effect : Effect Payload) :
    SameTracking self (self.pushEffect effect) ∧ (self.pushEffect effect).invalidators = self.invalidators := by
  cases effect with
  | notify emitter =>
    simp only [pushEffect]
    split_ifs <;> exact ⟨⟨rfl, rfl⟩, rfl⟩
  | notifyGlobalObservers globalType =>
    simp only [pushEffect]
    split_ifs <;> exact ⟨⟨rfl, rfl⟩, rfl⟩
  | _ => exact ⟨⟨rfl, rfl⟩, rfl⟩

def marked (entity : Nat) (inner : WindowInvalidator) : WindowInvalidator :=
  { inner with
    updateCount := inner.updateCount + 1
    dirtyViews := insert entity inner.dirtyViews
    dirty := if inner.drawPhase = .none then true else inner.dirty }

theorem invalidateView_frame (entity window : Nat) : SameTracking self (self.invalidateView entity window) ∧
      (self.invalidateView entity window).invalidators =
        Function.update self.invalidators window (marked entity (self.invalidators window)) := by
  simp only [invalidateView, marked]
  split_ifs with idle
  · obtain ⟨same, invalidators⟩ := @pushEffect_frame _ (self.setInvalidator window
      { self.invalidators window with
        updateCount := (self.invalidators window).updateCount + 1
        dirtyViews := insert entity (self.invalidators window).dirtyViews
        dirty := true }) (.notify entity)
    exact ⟨⟨same.1, same.2⟩, invalidators⟩
  · exact ⟨⟨rfl, rfl⟩, rfl⟩

theorem invalidateViews_frame (entity : Nat) {windows : List Nat} (once : windows.Nodup) :
    SameTracking self (windows.foldl (invalidateView entity) self) ∧
      ∀ window, (windows.foldl (invalidateView entity) self).invalidators window =
        if window ∈ windows then marked entity (self.invalidators window) else self.invalidators window := by
  induction windows generalizing self with
  | nil => exact ⟨⟨rfl, rfl⟩, fun _ => by simp⟩
  | cons first windows ih =>
    obtain ⟨out, once⟩ := List.nodup_cons.mp once
    obtain ⟨same, invalidators⟩ := @invalidateView_frame _ self entity first
    obtain ⟨same', invalidators'⟩ := @ih (self.invalidateView entity first) once
    refine ⟨⟨same'.1.trans same.1, same'.2.trans same.2⟩, ?_⟩
    intro window
    rw [List.foldl_cons, invalidators', invalidators]
    by_cases own : window = first
    · subst own
      simp [out]
    · simp [own]

theorem pending_pushEffect (entity : Nat) : entity ∈ (self.pushEffect (.notify entity)).pendingNotifications := by
  simp only [pushEffect]
  split_ifs with waits
  · exact waits
  · exact Finset.mem_insert_self entity _

theorem pending_invalidateViews (entity : Nat) (windows : List Nat) :
    entity ∈ (windows.foldl (invalidateView entity) self).pendingNotifications ↔ entity ∈ self.pendingNotifications ∨
    ∃ window ∈ windows, (self.invalidators window).drawPhase = .none := by
  induction windows generalizing self with
  | nil => simp
  | cons first windows ih =>
    have phases (window : Nat) : ((self.invalidateView entity first).invalidators window).drawPhase =
        (self.invalidators window).drawPhase := by
      rw [(invalidateView_frame entity first).2, Function.update_apply]
      split_ifs with own
      · rw [own, marked]
      · rfl
    have pending : entity ∈ (self.invalidateView entity first).pendingNotifications ↔
        entity ∈ self.pendingNotifications ∨ (self.invalidators first).drawPhase = .none := by
      simp only [invalidateView]
      split_ifs with idle
      · simp [idle, pending_pushEffect]
      · simp [idle, setInvalidator]
    rw [List.foldl_cons, ih, pending]
    simp only [phases, List.exists_mem_cons_iff, or_assoc]

theorem Tracks.recordEntitiesAccessed (tracks : self.Tracks) (window : Nat) (entities : Finset Nat) :
    (self.recordEntitiesAccessed window entities).Tracks := by
  intro other entity member
  simp only [App.recordEntitiesAccessed] at member ⊢
  by_cases own : other = window
  · subst own
    refine ⟨entities, Function.update_self .., ?_⟩
    by_contra out
    rw [if_neg out] at member
    split_ifs at member with tracked
    · exact absurd rfl (Finset.mem_erase.mp member).1
    · obtain ⟨shown, eq, shows⟩ := tracks _ _ member
      rw [eq] at tracked
      exact tracked shows
  · rw [Function.update_of_ne own]
    refine tracks other entity ?_
    split_ifs at member <;> simpa [own] using member

theorem Tracks.removeWindow (tracks : self.Tracks) (window : Nat) : (self.removeWindow window).Tracks := by
  intro other entity member
  simp only [App.removeWindow] at member ⊢
  have kept : other ∈ self.windowInvalidatorsByEntity entity ∧ other ≠ window := by
    split_ifs at member with tracked
    · exact ⟨(Finset.mem_erase.mp member).2, (Finset.mem_erase.mp member).1⟩
    · refine ⟨member, ?_⟩
      rintro rfl
      obtain ⟨shown, eq, shows⟩ := tracks _ _ member
      rw [eq] at tracked
      exact tracked shows
  rw [Function.update_of_ne kept.2]
  exact tracks other entity kept.1

theorem Tracks.call (tracks : self.Tracks) (call : Call Payload) : (self.call call).Tracks := by
  cases call with
  | pushEffect effect => exact tracks.same (pushEffect_frame effect).1
  | notify entity =>
    simp only [App.call, notify]
    split_ifs
    · exact tracks.same (pushEffect_frame _).1
    · exact tracks.same (invalidateViews_frame entity (Finset.sort_nodup _ _)).1
  | recordEntitiesAccessed window entities => exact tracks.recordEntitiesAccessed window entities
  | removeWindow window => exact tracks.removeWindow window
  | releaseEntity entity =>
    intro window other member
    simp only [App.call, releaseEntity, Function.update_apply] at member
    split_ifs at member
    · exact absurd member (Finset.notMem_empty _)
    · exact tracks window other member
  | _ => exact tracks.same ⟨rfl, rfl⟩

theorem Tracks.step (tracks : self.Tracks) {step : Step Payload} (steps : self.step step = some after) : after.Tracks := by
  have same : SameTracking self after ∨ ∃ call, after = self.call call := by
    cases step with
    | call call =>
      simp only [App.step] at steps
      split_ifs at steps
      exact .inr ⟨call, (Option.some.inj steps).symm⟩
    | apply =>
      simp only [App.step] at steps
      split_ifs at steps
      split at steps
      · cases steps
      · next effect effects front =>
          cases steps
          cases effect <;> exact .inl ⟨rfl, rfl⟩
    | finishUpdate =>
      simp only [App.step] at steps
      split at steps
      · cases steps
        rw [App.finishUpdate]
        split_ifs <;> exact .inl ⟨rfl, rfl⟩
      · cases steps
    | release =>
      simp only [App.step] at steps
      split_ifs at steps
      cases steps
      exact .inl ⟨rfl, rfl⟩
    | drained =>
      simp only [App.step] at steps
      split at steps <;> cases steps <;> exact .inl ⟨rfl, rfl⟩
    | callbackReturns =>
      simp only [App.step] at steps
      split at steps <;> cases steps
      exact .inl ⟨rfl, rfl⟩
  rcases same with same | ⟨call, rfl⟩
  · exact tracks.same same
  · exact tracks.call call

theorem Tracks.run (tracks : self.Tracks) {steps : List (Step Payload)} (runs : self.run steps = some after) :
    after.Tracks := by
  induction steps generalizing self with
  | nil =>
    cases runs
    exact tracks
  | cons step steps ih =>
    obtain ⟨middle, first, rest⟩ := Option.bind_eq_some_iff.mp runs
    exact ih (tracks.step first) rest

theorem Tracks.live (tracks : self.Tracks) (entity : Nat) :
    self.liveInvalidators entity = self.windowInvalidatorsByEntity entity := by
  refine Finset.filter_eq_self.mpr ?_
  intro window member
  obtain ⟨entities, eq, shows⟩ := tracks window entity member
  simp [eq, shows]

/-- Over every run, what is noted for an entity are windows that track it. A notification marks the entity in each of
them, makes dirty those that do not draw, and touches no other window; its observers are told unless all of the
windows are drawing. -/
theorem notify_reaches {steps : List (Step Payload)} {app : App Payload} (runs : ({} : App Payload).run steps = some app)
    (entity : Nat) :
    app.Tracks ∧ (∀ window ∈ app.windowInvalidatorsByEntity entity,
        (app.notify entity).invalidators window = marked entity (app.invalidators window)) ∧
      (∀ window ∉ app.windowInvalidatorsByEntity entity,
        (app.notify entity).invalidators window = app.invalidators window) ∧
      (.notify entity ∈ (app.notify entity).pendingEffects ↔
        .notify entity ∈ app.pendingEffects ∨ app.windowInvalidatorsByEntity entity = ∅ ∨
          ∃ window ∈ app.windowInvalidatorsByEntity entity, (app.invalidators window).drawPhase = .none) := by
  have tracks : app.Tracks := Tracks.run (fun _ _ member => absurd member (Finset.notMem_empty _)) runs
  have consistent := Consistent.new.run runs
  have waits (app : App Payload) (queued : app.Queued) :
      .notify entity ∈ app.pendingEffects ↔ entity ∈ app.pendingNotifications := by
    rw [← mem_notify, ← Finset.inl_mem_disjSum]
    exact (queued.consistent.waiting _).symm
  refine ⟨tracks, ?_⟩
  rw [waits _ (queued_notify consistent.queued entity).1, waits _ consistent.queued]
  simp only [notify, tracks.live]
  split_ifs with none
  · have same := (@pushEffect_frame _ app (.notify entity)).2
    refine ⟨?_, fun window _ => by rw [same], ?_⟩
    · intro window member
      rw [none] at member
      exact absurd member (Finset.notMem_empty _)
    · exact iff_of_true (pending_pushEffect entity) (.inr (.inl none))
  · obtain ⟨-, invalidators⟩ := @invalidateViews_frame _ app entity _ (Finset.sort_nodup (app.windowInvalidatorsByEntity entity) (· ≤ ·))
    refine ⟨?_, ?_, ?_⟩
    · intro window member
      rw [invalidators, if_pos (by simpa using member)]
    · intro window out
      rw [invalidators, if_neg (by simpa using out)]
    · rw [pending_invalidateViews]
      simp [none]

/-- An entity that one window shows and another one is drawing. -/
theorem notify_reaches_two :
    ∃ app, ({} : App Nat).run [.call (.recordEntitiesAccessed 3 {0}), .call (.recordEntitiesAccessed 4 {0, 1}),
        .call (.setPhase 3 .paint)] = some app ∧
      app.Tracks ∧ ∀ window ∈ app.windowInvalidatorsByEntity 0,
        (app.notify 0).invalidators window = marked 0 (app.invalidators window) := by
  have returns : (({} : App Nat).run [.call (.recordEntitiesAccessed 3 {0}), .call (.recordEntitiesAccessed 4 {0, 1}),
      .call (.setPhase 3 .paint)]).isSome := by decide
  obtain ⟨app, runs⟩ := Option.isSome_iff_exists.mp returns
  obtain ⟨tracks, marks, -⟩ := notify_reaches runs 0
  exact ⟨app, runs, tracks, marks⟩

end App

end Pinrail.Effects

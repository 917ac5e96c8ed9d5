import Pinrail.App.EntityMap

/-!
# What the reference counts promise

A count is the number of handles that are alive, at every moment of every run. An id is queued once,
by the drop that took its count to zero, and from then on neither a clone nor an upgrade brings it
back; `take_dropped` hands out its entity, once.
-/

namespace Pinrail.App

namespace EntityMap

/-! ## The statement -/

structure Counted (map : EntityMap) : Prop where
  counted : ∀ entityId count, map.counts entityId = some count → count = map.live entityId
  uncounted : ∀ entityId, map.counts entityId = none → map.live entityId = 0
  once : map.enqueued.Nodup
  sound : map.failed = false
  never : map.resurrected = []
  releasedOnce : map.released.Nodup
  releasedAfter : ∀ entityId ∈ map.released, entityId ∈ map.inserted ∧ map.live entityId = 0
  /-- Whoever gets the write lock next releases every entity that has no handle left. -/
  releases : map.idle = true → ∀ entityId ∈ map.inserted, map.live entityId = 0 →
    entityId ∈ (map.step .takeDropped).released

/-! ## The invariant -/

def pushing (self : EntityMap) : List Nat :=
  match self.dropping with
  | some (.pushing entityId) => [entityId]
  | _ => []

structure Inv (map : EntityMap) : Prop where
  counted : ∀ entityId count, map.counts entityId = some count → count = map.live entityId
  uncounted : ∀ entityId, map.counts entityId = none → map.live entityId = 0
  reserved : ∀ entityId count, map.counts entityId = some count → entityId < map.nextId
  handlesNodup : map.handles.Nodup
  keys : ∀ handle ∈ map.handles, handle.key < map.nextKey
  queueNodup : (map.droppedEntityIds ++ map.pushing).Nodup
  queued : ∀ entityId, entityId ∈ map.droppedEntityIds ++ map.pushing ↔ map.counts entityId = some 0
  enqueuedNodup : map.enqueued.Nodup
  enqueued : ∀ entityId ∈ map.enqueued,
    entityId ∈ map.droppedEntityIds ∨ map.counts entityId = none ∧ entityId < map.nextId
  zeroed : ∀ entityId ∈ map.zeroed, entityId < map.nextId ∧ (map.counts entityId = none ∨ map.counts entityId = some 0)
  cloning : ∀ handle, .cloning handle ∈ map.readers → handle ∈ map.handles ∧ map.dropping ≠ some (.locked handle)
  upgrading : ∀ entityId loaded, .upgrading entityId loaded ∈ map.readers → map.counts entityId ≠ none ∧ loaded ≠ some 0
  locked : ∀ handle, map.dropping = some (.locked handle) → handle ∈ map.handles
  slotHandles : ∀ slot ∈ map.slots, slot ∈ map.handles
  slotsFresh : ∀ slot ∈ map.slots, slot.entityId ∉ map.inserted
  slotsNodup : (map.slots.map Handle.entityId).Nodup
  insertedBound : ∀ entityId ∈ map.inserted, entityId < map.nextId
  present : ∀ entityId, map.entities entityId = true ↔ entityId ∈ map.inserted ∧ map.counts entityId ≠ none
  released : ∀ entityId, entityId ∈ map.released ↔ entityId ∈ map.inserted ∧ map.counts entityId = none
  releasedNodup : map.released.Nodup
  sound : map.failed = false
  never : map.resurrected = []

theorem new_inv : Inv {} := by
  constructor <;> simp [live, pushing]

/-! ## Counting handles -/

theorem live_addHandle (self : EntityMap) (entityId other : Nat) : (self.addHandle entityId).live other =
      if other = entityId then self.live other + 1 else self.live other := by
  by_cases same : other = entityId
  · simp [live, addHandle, same]
  · simp [live, addHandle, same, Ne.symm same]

theorem live_pos {self : EntityMap} {handle : Handle} (member : handle ∈ self.handles) :
    0 < self.live handle.entityId :=
  List.countP_pos_iff.mpr ⟨handle, member, by simp⟩

theorem live_erase {self next : EntityMap} {handle : Handle} (member : handle ∈ self.handles)
    (handles : next.handles = self.handles.erase handle) (other : Nat) :
    next.live other = if other = handle.entityId then self.live other - 1 else self.live other := by
  have perm := (List.perm_cons_erase member).countP_eq fun entry : Handle => entry.entityId = other
  rw [List.countP_cons] at perm
  unfold live
  rw [handles]
  split
  · rename_i same
    simp [same] at perm ⊢
    omega
  · rename_i differ
    simp [Ne.symm differ] at perm
    omega

theorem Inv.count_of_mem {self : EntityMap} (inv : Inv self) {handle : Handle} (member : handle ∈ self.handles) :
    ∃ count, self.counts handle.entityId = some count ∧ 0 < count := by
  have positive := live_pos member
  cases stored : self.counts handle.entityId with
  | none =>
    have zero := inv.uncounted handle.entityId stored
    omega
  | some count =>
    have same := inv.counted handle.entityId count stored
    exact ⟨count, rfl, by omega⟩

/-! ## Reserving and inserting -/

theorem Inv.fresh {self : EntityMap} (inv : Inv self) : self.counts self.nextId = none := by
  cases stored : self.counts self.nextId with
  | none => rfl
  | some count => exact absurd (inv.reserved self.nextId count stored) (Nat.lt_irrefl _)

theorem Inv.handles_snoc {self : EntityMap} (inv : Inv self) (entityId : Nat) :
    (self.handles ++ [(⟨self.nextKey, entityId⟩ : Handle)]).Nodup ∧
    ∀ handle ∈ self.handles ++ [(⟨self.nextKey, entityId⟩ : Handle)], handle.key < self.nextKey + 1 := by
  constructor
  · refine List.nodup_append.mpr ⟨inv.handlesNodup, List.nodup_singleton _, ?_⟩
    rintro handle member last isLast rfl
    rw [List.mem_singleton.mp isLast] at member
    exact absurd (inv.keys _ member) (Nat.lt_irrefl _)
  · intro handle member
    rcases List.mem_append.mp member with old | new
    · have bound := inv.keys handle old
      omega
    · rw [List.mem_singleton.mp new]
      exact Nat.lt_succ_self _

theorem Inv.reserve {self : EntityMap} (inv : Inv self) (idle : self.idle = true) : Inv self.reserve := by
  have fresh := inv.fresh
  have empty := inv.uncounted self.nextId fresh
  have readers : self.readers = [] := by
    simp only [EntityMap.idle, Bool.and_eq_true, decide_eq_true_eq] at idle
    exact idle.1
  have counts (entityId : Nat) : self.reserve.counts entityId =
      if entityId = self.nextId then some 1 else self.counts entityId := by
    by_cases same : entityId = self.nextId <;>
      simp [EntityMap.reserve, setCount, addHandle, same]
  have live (entityId : Nat) : self.reserve.live entityId =
      if entityId = self.nextId then self.live entityId + 1 else self.live entityId :=
    live_addHandle (self.setCount self.nextId 1) self.nextId entityId
  have next : self.reserve.nextId = self.nextId + 1 := rfl
  have other {entityId : Nat} (old : entityId < self.nextId) : self.reserve.counts entityId = self.counts entityId := by
    rw [counts, if_neg (by omega)]
  have notQueued : self.nextId ∉ self.droppedEntityIds ++ self.pushing := by
    rw [inv.queued, fresh]
    simp
  have notInserted : self.nextId ∉ self.inserted := fun member =>
    absurd (inv.insertedBound self.nextId member) (Nat.lt_irrefl _)
  exact { inv with
    counted := by
      intro entityId count stored
      rw [counts] at stored
      rw [live]
      split at stored
      · rename_i same
        rw [if_pos same, same, empty]
        exact (Option.some.inj stored).symm
      · rename_i differ
        rw [if_neg differ]
        exact inv.counted entityId count stored
    uncounted := by
      intro entityId missing
      rw [counts] at missing
      rw [live]
      split at missing
      · cases missing
      · rename_i differ
        rw [if_neg differ]
        exact inv.uncounted entityId missing
    reserved := by
      intro entityId count stored
      rw [counts] at stored
      split at stored
      · omega
      · have bound := inv.reserved entityId count stored
        omega
    handlesNodup := (inv.handles_snoc _).1
    keys := (inv.handles_snoc _).2
    queued := by
      intro entityId
      rw [counts]
      split
      · rename_i same
        subst same
        exact iff_of_false notQueued (by simp)
      · exact inv.queued entityId
    enqueued := by
      intro entityId member
      rcases inv.enqueued entityId member with queued | ⟨missing, bound⟩
      · exact .inl queued
      · exact .inr ⟨(other bound).trans missing, by omega⟩
    zeroed := by
      intro entityId member
      obtain ⟨bound, spent⟩ := inv.zeroed entityId member
      rw [other bound]
      exact ⟨by omega, spent⟩
    cloning := by
      intro handle reading
      have reading : Reader.cloning handle ∈ self.readers := reading
      rw [readers] at reading
      cases reading
    upgrading := by
      intro entityId loaded reading
      have reading : Reader.upgrading entityId loaded ∈ self.readers := reading
      rw [readers] at reading
      cases reading
    locked := by
      intro handle locked
      exact List.mem_append_left _ (inv.locked handle locked)
    slotHandles := by
      intro slot member
      rcases List.mem_append.mp member with old | new
      · exact List.mem_append_left _ (inv.slotHandles slot old)
      · exact List.mem_append_right _ new
    slotsFresh := by
      intro slot member
      rcases List.mem_append.mp member with old | new
      · exact inv.slotsFresh slot old
      · rw [List.mem_singleton.mp new]
        exact notInserted
    slotsNodup := by
      show ((self.slots ++ [(⟨self.nextKey, self.nextId⟩ : Handle)]).map Handle.entityId).Nodup
      rw [List.map_append]
      refine List.nodup_append.mpr ⟨inv.slotsNodup, List.nodup_singleton _, ?_⟩
      rintro entityId member last isLast rfl
      obtain ⟨slot, inSlots, slotId⟩ := List.mem_map.mp member
      obtain ⟨count, stored, -⟩ := inv.count_of_mem (inv.slotHandles slot inSlots)
      have bound := inv.reserved _ _ stored
      rw [slotId, List.mem_singleton.mp isLast] at bound
      exact absurd bound (Nat.lt_irrefl _)
    insertedBound := by
      intro entityId member
      have bound := inv.insertedBound entityId member
      omega
    present := by
      intro entityId
      refine (inv.present entityId).trans (and_congr_right fun member => ?_)
      rw [other (inv.insertedBound entityId member)]
    released := by
      intro entityId
      refine (inv.released entityId).trans (and_congr_right fun member => ?_)
      rw [other (inv.insertedBound entityId member)] }

theorem Inv.insert {self : EntityMap} (inv : Inv self) {slot : Handle} (member : slot ∈ self.slots) :
    Inv (self.insert slot) := by
  obtain ⟨count, stored, -⟩ := inv.count_of_mem (inv.slotHandles slot member)
  have nodup : self.slots.Nodup := List.Nodup.of_map _ inv.slotsNodup
  exact { inv with
    slotHandles := fun other inSlots => inv.slotHandles other (List.mem_of_mem_erase inSlots)
    slotsFresh := by
      intro other inSlots inserted
      obtain ⟨differ, old⟩ := nodup.mem_erase_iff.mp inSlots
      rcases List.mem_append.mp inserted with before | new
      · exact inv.slotsFresh other old before
      · have same : other.entityId = slot.entityId := List.mem_singleton.mp new
        exact differ (List.inj_on_of_nodup_map inv.slotsNodup old member same)
    slotsNodup := inv.slotsNodup.sublist (List.erase_sublist.map Handle.entityId)
    insertedBound := by
      intro entityId inserted
      rcases List.mem_append.mp inserted with before | new
      · exact inv.insertedBound entityId before
      · rw [List.mem_singleton.mp new]
        exact inv.reserved _ _ stored
    present := by
      intro entityId
      show Function.update self.entities slot.entityId true entityId = true ↔
        entityId ∈ self.inserted ++ [slot.entityId] ∧ self.counts entityId ≠ none
      by_cases same : entityId = slot.entityId
      · simp [same, stored]
      · simp [same, inv.present entityId]
    released := by
      intro entityId
      show entityId ∈ self.released ↔ entityId ∈ self.inserted ++ [slot.entityId] ∧ self.counts entityId = none
      by_cases same : entityId = slot.entityId
      · simp [same, stored, inv.released slot.entityId]
      · simp [same, inv.released entityId] }

/-! ## Readers -/

theorem Inv.setReaders {self : EntityMap} (inv : Inv self) {readers : List Reader}
    (cloning : ∀ handle, .cloning handle ∈ readers → handle ∈ self.handles ∧ self.dropping ≠ some (.locked handle))
    (upgrading : ∀ entityId loaded, .upgrading entityId loaded ∈ readers →
      self.counts entityId ≠ none ∧ loaded ≠ some 0) :
    Inv { self with readers } :=
  { inv with cloning, upgrading }

theorem Inv.eraseReader {self : EntityMap} (inv : Inv self) (reader : Reader) :
    Inv { self with readers := self.readers.erase reader } :=
  inv.setReaders (fun handle member => inv.cloning handle (List.mem_of_mem_erase member))
    (fun entityId loaded member => inv.upgrading entityId loaded (List.mem_of_mem_erase member))

theorem Inv.addUpgrading {self : EntityMap} (inv : Inv self) {entityId : Nat} {loaded : Option Nat}
    (stored : self.counts entityId ≠ none) (positive : loaded ≠ some 0) :
    Inv { self with readers := .upgrading entityId loaded :: self.readers } := by
  apply inv.setReaders
  · intro handle member
    rcases List.mem_cons.mp member with impossible | old
    · cases impossible
    · exact inv.cloning handle old
  · intro otherId otherLoaded member
    rcases List.mem_cons.mp member with same | old
    · cases same
      exact ⟨stored, positive⟩
    · exact inv.upgrading otherId otherLoaded old

theorem Inv.increment {self : EntityMap} (inv : Inv self) {entityId count : Nat}
    (stored : self.counts entityId = some count) (positive : 0 < count) :
    Inv ((self.setCount entityId (count + 1)).addHandle entityId) := by
  have counts (other : Nat) : ((self.setCount entityId (count + 1)).addHandle entityId).counts other =
      if other = entityId then some (count + 1) else self.counts other := by
    by_cases same : other = entityId <;> simp [setCount, addHandle, same]
  have live (other : Nat) : ((self.setCount entityId (count + 1)).addHandle entityId).live other =
      if other = entityId then self.live other + 1 else self.live other :=
    live_addHandle (self.setCount entityId (count + 1)) entityId other
  -- A count that was positive is neither gone nor zero, before and after.
  have zero (other : Nat) : ((self.setCount entityId (count + 1)).addHandle entityId).counts other = some 0 ↔
      self.counts other = some 0 := by
    rw [counts]
    split
    · rename_i same
      rw [same, stored]
      simp [Nat.pos_iff_ne_zero.mp positive]
    · rfl
  have missing (other : Nat) : ((self.setCount entityId (count + 1)).addHandle entityId).counts other = none ↔
      self.counts other = none := by
    rw [counts]
    split
    · rename_i same
      rw [same, stored]
      simp
    · rfl
  exact { inv with
    counted := by
      intro other otherCount otherStored
      rw [counts] at otherStored
      rw [live]
      split at otherStored
      · rename_i same
        rw [if_pos same, same, ← inv.counted entityId count stored]
        exact (Option.some.inj otherStored).symm
      · rename_i differ
        rw [if_neg differ]
        exact inv.counted other otherCount otherStored
    uncounted := by
      intro other gone
      have before := (missing other).mp gone
      have differ : other ≠ entityId := by
        rintro rfl
        simp [stored] at before
      rw [live, if_neg differ]
      exact inv.uncounted other before
    reserved := by
      intro other otherCount otherStored
      rw [counts] at otherStored
      split at otherStored
      · rename_i same
        exact same ▸ inv.reserved entityId count stored
      · exact inv.reserved other otherCount otherStored
    handlesNodup := (inv.handles_snoc _).1
    keys := (inv.handles_snoc _).2
    queued := fun other => (inv.queued other).trans (zero other).symm
    enqueued := by
      intro other member
      exact (inv.enqueued other member).imp_right fun gone => ⟨(missing other).mpr gone.1, gone.2⟩
    zeroed := by
      intro other member
      obtain ⟨bound, spent⟩ := inv.zeroed other member
      exact ⟨bound, spent.imp (missing other).mpr (zero other).mpr⟩
    cloning := by
      intro handle reading
      obtain ⟨alive, free⟩ := inv.cloning handle reading
      exact ⟨List.mem_append_left _ alive, free⟩
    upgrading := by
      intro other loaded reading
      obtain ⟨present, loadedPositive⟩ := inv.upgrading other loaded reading
      exact ⟨fun gone => present ((missing other).mp gone), loadedPositive⟩
    locked := fun handle locked => List.mem_append_left _ (inv.locked handle locked)
    slotHandles := fun slot member => List.mem_append_left _ (inv.slotHandles slot member)
    present := by
      intro other
      exact (inv.present other).trans (and_congr_right fun _ => (not_congr (missing other)).symm)
    released := by
      intro other
      exact (inv.released other).trans (and_congr_right fun _ => (missing other).symm) }

theorem Inv.cloneAdd {self : EntityMap} (inv : Inv self) {handle : Handle}
    (reading : .cloning handle ∈ self.readers) : Inv (self.cloneAdd handle) := by
  have alive := (inv.cloning handle reading).1
  obtain ⟨count, stored, positive⟩ := inv.count_of_mem alive
  have unlocked := inv.eraseReader (.cloning handle)
  simp only [EntityMap.cloneAdd, stored, Nat.pos_iff_ne_zero.mp positive, if_false]
  exact unlocked.increment stored positive

theorem Inv.upgradeLock {self : EntityMap} (inv : Inv self) (entityId : Nat) : Inv (self.upgradeLock entityId) := by
  unfold EntityMap.upgradeLock
  split
  · exact inv
  · rename_i stored
    exact inv.addUpgrading (by simp [stored]) (by simp)

theorem Inv.upgradeWith {self : EntityMap} (inv : Inv self) {entityId count : Nat}
    (stored : self.counts entityId = some count) : Inv (self.upgradeWith entityId count) := by
  unfold EntityMap.upgradeWith
  split
  · exact inv
  · rename_i positive
    exact inv.addUpgrading (by simp [stored]) (by simpa using positive)

theorem Inv.upgradeLoad {self : EntityMap} (inv : Inv self) {entityId : Nat}
    (reading : .upgrading entityId none ∈ self.readers) : Inv (self.upgradeLoad entityId) := by
  have unlocked := inv.eraseReader (.upgrading entityId none)
  have present := (inv.upgrading entityId none reading).1
  unfold EntityMap.upgradeLoad
  dsimp only
  split
  · rename_i missing
    exact absurd missing present
  · rename_i count stored
    exact unlocked.upgradeWith stored

theorem Inv.upgradeExchange {self : EntityMap} (inv : Inv self) {entityId loaded : Nat}
    (reading : .upgrading entityId (some loaded) ∈ self.readers) (spurious : Bool) :
    Inv (self.upgradeExchange entityId loaded spurious) := by
  have unlocked := inv.eraseReader (.upgrading entityId (some loaded))
  obtain ⟨present, positive⟩ := inv.upgrading entityId (some loaded) reading
  have positive : 0 < loaded := Nat.pos_of_ne_zero (by simpa using positive)
  unfold EntityMap.upgradeExchange
  dsimp only
  split
  · rename_i missing
    exact absurd missing present
  · rename_i count stored
    split
    · rename_i exchanged
      obtain ⟨rfl, -⟩ := exchanged
      have added := unlocked.increment stored positive
      split
      · rename_i spent
        rcases (inv.zeroed entityId spent).2 with gone | zero
        · exact absurd gone present
        · rw [show self.counts entityId = some count from stored] at zero
          have impossible := Option.some.inj zero
          omega
      · exact added
    · exact unlocked.upgradeWith stored

/-! ## Drops -/

theorem Inv.dropLock {self : EntityMap} (inv : Inv self) {handle : Handle}
    (alive : handle ∈ self.handles) (unread : .cloning handle ∉ self.readers)
    (free : self.dropping = none) : Inv { self with dropping := some (.locked handle) } := by
  have pushing : self.pushing = [] := by simp [EntityMap.pushing, free]
  have queueNodup := inv.queueNodup
  have queued := inv.queued
  rw [pushing] at queueNodup queued
  exact { inv with
    queueNodup := queueNodup
    queued := queued
    cloning := by
      intro other reading
      refine ⟨(inv.cloning other reading).1, fun same => ?_⟩
      cases same
      exact unread reading
    locked := by
      intro other locked
      cases locked
      exact alive }

theorem Inv.dropDecrement {self : EntityMap} (inv : Inv self) {handle : Handle}
    (held : self.dropping = some (.locked handle)) : Inv (self.dropDecrement handle) := by
  have alive := inv.locked handle held
  obtain ⟨count, stored, positive⟩ := inv.count_of_mem alive
  have pushing : self.pushing = [] := by simp [EntityMap.pushing, held]
  have queueNodup := inv.queueNodup
  have queued := inv.queued
  rw [pushing, List.append_nil] at queueNodup queued
  have slotsNodup : self.slots.Nodup := List.Nodup.of_map _ inv.slotsNodup
  have unqueued : handle.entityId ∉ self.droppedEntityIds := by
    rw [queued, stored]
    simp [Nat.pos_iff_ne_zero.mp positive]
  have result : self.dropDecrement handle =
      { self with
        handles := self.handles.erase handle
        slots := self.slots.erase handle
        dropping := if count = 1 then some (.pushing handle.entityId) else none
        counts := Function.update self.counts handle.entityId (some (count - 1))
        zeroed := if count = 1 then self.zeroed ++ [handle.entityId] else self.zeroed } := by
    by_cases last : count = 1
    · simp [EntityMap.dropDecrement, stored, setCount, last]
    · simp [EntityMap.dropDecrement, stored, setCount, last, Nat.pos_iff_ne_zero.mp positive]
  have live (other : Nat) : (self.dropDecrement handle).live other =
      if other = handle.entityId then self.live other - 1 else self.live other :=
    live_erase alive (by rw [result]) other
  rw [result] at live ⊢
  have counts (other : Nat) : Function.update self.counts handle.entityId (some (count - 1)) other =
      if other = handle.entityId then some (count - 1) else self.counts other := by
    by_cases same : other = handle.entityId <;> simp [same]
  have missing (other : Nat) : Function.update self.counts handle.entityId (some (count - 1)) other = none ↔
      self.counts other = none := by
    rw [counts]
    split
    · rename_i same
      simp [same, stored]
    · rfl
  exact { inv with
    counted := by
      intro other otherCount otherStored
      rw [live]
      dsimp only at otherStored
      rw [counts] at otherStored
      split at otherStored
      · rename_i same
        rw [if_pos same, same, ← inv.counted _ count stored]
        exact (Option.some.inj otherStored).symm
      · rename_i differ
        rw [if_neg differ]
        exact inv.counted other otherCount otherStored
    uncounted := by
      intro other gone
      have before := inv.uncounted other ((missing other).mp gone)
      rw [live]
      split <;> omega
    reserved := by
      intro other otherCount otherStored
      dsimp only at otherStored
      rw [counts] at otherStored
      split at otherStored
      · rename_i same
        rw [same]
        exact inv.reserved _ count stored
      · exact inv.reserved other otherCount otherStored
    handlesNodup := inv.handlesNodup.erase handle
    keys := fun other member => inv.keys other (List.mem_of_mem_erase member)
    queueNodup := by
      by_cases last : count = 1
      · simp only [EntityMap.pushing, if_pos last]
        refine List.nodup_append.mpr ⟨queueNodup, List.nodup_singleton _, ?_⟩
        rintro entityId member pushed isPushed rfl
        rw [List.mem_singleton.mp isPushed] at member
        exact unqueued member
      · simpa only [EntityMap.pushing, if_neg last, List.append_nil] using queueNodup
    queued := by
      intro other
      dsimp only
      rw [counts]
      by_cases last : count = 1
      · simp only [EntityMap.pushing, if_pos last, List.mem_append, List.mem_singleton, queued]
        split
        · rename_i same
          simp [same, last]
        · rename_i differ
          simp [differ]
      · simp only [EntityMap.pushing, if_neg last, List.append_nil, queued]
        split
        · rename_i same
          rw [same, stored]
          simp only [Option.some.injEq]
          omega
        · rfl
    enqueued := by
      intro other member
      exact (inv.enqueued other member).imp_right fun gone => ⟨(missing other).mpr gone.1, gone.2⟩
    zeroed := by
      have before (other : Nat) (member : other ∈ self.zeroed) : other < self.nextId ∧
            (Function.update self.counts handle.entityId (some (count - 1)) other = none ∨
              Function.update self.counts handle.entityId (some (count - 1)) other = some 0) := by
        obtain ⟨bound, spent⟩ := inv.zeroed other member
        have differ : other ≠ handle.entityId := by
          rintro rfl
          rw [stored] at spent
          rcases spent with gone | zero
          · cases gone
          · have impossible := Option.some.inj zero
            omega
        rw [counts, if_neg differ]
        exact ⟨bound, spent⟩
      intro other member
      dsimp only at member
      split at member
      · rename_i last
        rcases List.mem_append.mp member with old | new
        · exact before other old
        · rw [List.mem_singleton.mp new]
          exact ⟨inv.reserved _ count stored, .inr (by simp [last])⟩
      · exact before other member
    cloning := by
      intro other reading
      obtain ⟨otherAlive, free⟩ := inv.cloning other reading
      have differ : other ≠ handle := by
        rintro rfl
        exact free held
      refine ⟨(List.mem_erase_of_ne differ).mpr otherAlive, ?_⟩
      dsimp only
      split <;> simp
    upgrading := by
      intro other loaded reading
      obtain ⟨present, loadedPositive⟩ := inv.upgrading other loaded reading
      exact ⟨fun gone => present ((missing other).mp gone), loadedPositive⟩
    locked := by
      intro other locked
      dsimp only at locked
      split at locked <;> cases locked
    slotHandles := by
      intro slot member
      obtain ⟨differ, old⟩ := slotsNodup.mem_erase_iff.mp member
      exact (List.mem_erase_of_ne differ).mpr (inv.slotHandles slot old)
    slotsFresh := fun slot member => inv.slotsFresh slot (List.mem_of_mem_erase member)
    slotsNodup := inv.slotsNodup.sublist (List.erase_sublist.map Handle.entityId)
    present := by
      intro other
      exact (inv.present other).trans (and_congr_right fun _ => (not_congr (missing other)).symm)
    released := by
      intro other
      exact (inv.released other).trans (and_congr_right fun _ => (missing other).symm) }

theorem Inv.dropPush {self : EntityMap} (inv : Inv self) {entityId : Nat}
    (held : self.dropping = some (.pushing entityId)) : Inv (self.dropPush entityId) := by
  have pushing : self.pushing = [entityId] := by simp [EntityMap.pushing, held]
  have queueNodup := inv.queueNodup
  have queued := inv.queued
  rw [pushing] at queueNodup queued
  have zero : self.counts entityId = some 0 := (queued entityId).mp (by simp)
  have pushed : (self.dropPush entityId).droppedEntityIds ++ (self.dropPush entityId).pushing =
      self.droppedEntityIds ++ [entityId] := by
    simp [EntityMap.dropPush, EntityMap.pushing]
  exact { inv with
    queueNodup := by
      rw [pushed]
      exact queueNodup
    queued := by
      rw [pushed]
      exact queued
    enqueuedNodup := by
      refine List.nodup_append.mpr ⟨inv.enqueuedNodup, List.nodup_singleton _, ?_⟩
      rintro other member last isLast rfl
      rw [List.mem_singleton.mp isLast] at member
      rcases inv.enqueued entityId member with earlier | ⟨gone, -⟩
      · exact (List.nodup_append.mp queueNodup).2.2 entityId earlier entityId (by simp) rfl
      · rw [zero] at gone
        cases gone
    enqueued := by
      intro other member
      rcases List.mem_append.mp member with earlier | last
      · exact (inv.enqueued other earlier).imp_left (List.mem_append_left _)
      · exact .inl (List.mem_append_right _ last)
    cloning := by
      intro handle reading
      exact ⟨(inv.cloning handle reading).1, by simp [EntityMap.dropPush]⟩
    locked := by
      intro handle locked
      cases locked }

/-! ## Taking the dropped -/

theorem takeOne_eq {self : EntityMap} {entityId : Nat} (zero : self.counts entityId = some 0) : self.takeOne entityId =
      { self with
        counts := Function.update self.counts entityId none
        entities := Function.update self.entities entityId false
        released := self.released ++ [entityId].filter self.entities } := by
  cases present : self.entities entityId with
  | true => simp [takeOne, zero, present]
  | false =>
    have same : Function.update self.entities entityId false = self.entities := by
      rw [← present, Function.update_eq_self]
    simp [takeOne, zero, present, same]

theorem takeOne_fold {queue : List Nat} {self : EntityMap} (nodup : queue.Nodup)
    (zero : ∀ entityId ∈ queue, self.counts entityId = some 0) :
    queue.foldl takeOne self =
      { self with
        counts := fun entityId => if entityId ∈ queue then none else self.counts entityId
        entities := fun entityId => if entityId ∈ queue then false else self.entities entityId
        released := self.released ++ queue.filter self.entities } := by
  induction queue generalizing self with
  | nil => simp
  | cons entityId rest ih =>
    obtain ⟨absent, restNodup⟩ := List.nodup_cons.mp nodup
    have differ {other : Nat} (member : other ∈ rest) : other ≠ entityId := by
      rintro rfl
      exact absent member
    rw [List.foldl_cons, takeOne_eq (zero entityId List.mem_cons_self), ih restNodup]
    · have counts : (fun other => if other ∈ rest then none
          else Function.update self.counts entityId none other) =
          fun other => if other ∈ entityId :: rest then none else self.counts other := by
        funext other
        by_cases same : other = entityId <;> simp [same]
      have entities : (fun other => if other ∈ rest then false
          else Function.update self.entities entityId false other) =
          fun other => if other ∈ entityId :: rest then false else self.entities other := by
        funext other
        by_cases same : other = entityId <;> simp [same]
      have filters : rest.filter (Function.update self.entities entityId false) = rest.filter self.entities := by
        apply List.filter_congr
        intro other member
        simp [Function.update_of_ne (differ member)]
      simp only [counts, entities, filters, List.append_assoc, ← List.filter_append, List.singleton_append]
    · intro other member
      simpa [Function.update_of_ne (differ member)] using zero other (List.mem_cons_of_mem _ member)

theorem Inv.queue {self : EntityMap} (inv : Inv self) (idle : self.idle = true) : self.droppedEntityIds.Nodup ∧
    ∀ entityId, entityId ∈ self.droppedEntityIds ↔ self.counts entityId = some 0 := by
  simp only [EntityMap.idle, Bool.and_eq_true, decide_eq_true_eq] at idle
  have pushing : self.pushing = [] := by simp [EntityMap.pushing, idle.2]
  have queueNodup := inv.queueNodup
  have queued := inv.queued
  rw [pushing, List.append_nil] at queueNodup queued
  exact ⟨queueNodup, queued⟩

theorem Inv.takeDropped_eq {self : EntityMap} (inv : Inv self) (idle : self.idle = true) : self.takeDropped =
      { self with
        droppedEntityIds := []
        counts := fun entityId =>
          if entityId ∈ self.droppedEntityIds then none else self.counts entityId
        entities := fun entityId =>
          if entityId ∈ self.droppedEntityIds then false else self.entities entityId
        released := self.released ++ self.droppedEntityIds.filter self.entities } := by
  obtain ⟨queueNodup, queued⟩ := inv.queue idle
  exact takeOne_fold queueNodup fun entityId member => (queued entityId).mp member

theorem Inv.takeDropped {self : EntityMap} (inv : Inv self) (idle : self.idle = true) : Inv self.takeDropped := by
  obtain ⟨queueNodup, queued⟩ := inv.queue idle
  rw [inv.takeDropped_eq idle]
  simp only [EntityMap.idle, Bool.and_eq_true, decide_eq_true_eq] at idle
  obtain ⟨readers, dropping⟩ := idle
  exact { inv with
    counted := by
      intro entityId count stored
      dsimp only at stored
      split at stored
      · cases stored
      · exact inv.counted entityId count stored
    uncounted := by
      intro entityId missing
      dsimp only at missing
      split at missing
      · rename_i member
        exact (inv.counted entityId 0 ((queued entityId).mp member)).symm
      · exact inv.uncounted entityId missing
    reserved := by
      intro entityId count stored
      dsimp only at stored
      split at stored
      · cases stored
      · exact inv.reserved entityId count stored
    queueNodup := by simp [EntityMap.pushing, dropping]
    queued := by
      intro entityId
      have pushed : ¬ entityId ∈ ([] : List Nat) := List.not_mem_nil
      simp only [EntityMap.pushing, dropping, List.append_nil, pushed, false_iff]
      split
      · simp
      · rename_i absent
        exact fun zero => absent ((queued entityId).mpr zero)
    enqueued := by
      intro entityId member
      refine .inr ?_
      dsimp only
      rcases inv.enqueued entityId member with inQueue | ⟨gone, bound⟩
      · exact ⟨if_pos inQueue, inv.reserved entityId 0 ((queued entityId).mp inQueue)⟩
      · refine ⟨?_, bound⟩
        split
        · rfl
        · exact gone
    zeroed := by
      intro entityId member
      obtain ⟨bound, spent⟩ := inv.zeroed entityId member
      refine ⟨bound, ?_⟩
      dsimp only
      split
      · exact .inl rfl
      · exact spent
    upgrading := by
      intro entityId loaded reading
      have reading : Reader.upgrading entityId loaded ∈ self.readers := reading
      rw [readers] at reading
      cases reading
    present := by
      intro entityId
      dsimp only
      split
      · simp
      · exact inv.present entityId
    released := by
      intro entityId
      dsimp only
      rw [List.mem_append, List.mem_filter, inv.released, inv.present]
      split
      · rename_i member
        have stored := (queued entityId).mp member
        simp [member, stored]
      · rename_i absent
        simp [absent]
    releasedNodup := by
      refine List.nodup_append.mpr ⟨inv.releasedNodup, queueNodup.filter _, ?_⟩
      rintro entityId earlier other now rfl
      have stored := (queued entityId).mp (List.mem_of_mem_filter now)
      have gone := ((inv.released entityId).mp earlier).2
      rw [stored] at gone
      cases gone }

/-! ## Every run -/

theorem step_inv {self : EntityMap} (inv : Inv self) (step : EntityStep) : Inv (self.step step) := by
  cases step with
  | reserve =>
    simp only [EntityMap.step]
    split
    · rename_i idle
      exact inv.reserve idle
    · exact inv
  | insert slot =>
    simp only [EntityMap.step]
    split
    · rename_i enabled
      exact inv.insert enabled.1
    · exact inv
  | cloneLock handle =>
    simp only [EntityMap.step]
    split
    · rename_i enabled
      apply inv.setReaders
      · intro other reading
        rcases List.mem_cons.mp reading with same | old
        · cases same
          exact enabled
        · exact inv.cloning other old
      · intro entityId loaded reading
        rcases List.mem_cons.mp reading with impossible | old
        · cases impossible
        · exact inv.upgrading entityId loaded old
    · exact inv
  | cloneAdd handle =>
    simp only [EntityMap.step]
    split
    · rename_i reading
      exact inv.cloneAdd reading
    · exact inv
  | upgradeLock entityId => exact inv.upgradeLock entityId
  | upgradeLoad entityId =>
    simp only [EntityMap.step]
    split
    · rename_i reading
      exact inv.upgradeLoad reading
    · exact inv
  | upgradeExchange entityId loaded spurious =>
    simp only [EntityMap.step]
    split
    · rename_i reading
      exact inv.upgradeExchange reading spurious
    · exact inv
  | dropLock handle =>
    simp only [EntityMap.step]
    split
    · rename_i enabled
      exact inv.dropLock enabled.1 enabled.2.1 enabled.2.2
    · exact inv
  | dropDecrement =>
    simp only [EntityMap.step]
    split
    · rename_i handle held
      exact inv.dropDecrement held
    · exact inv
  | dropPush =>
    simp only [EntityMap.step]
    split
    · rename_i entityId held
      split
      · exact inv.dropPush held
      · exact inv
    · exact inv
  | takeDropped =>
    simp only [EntityMap.step]
    split
    · rename_i idle
      exact inv.takeDropped idle
    · exact inv

theorem run_inv {self : EntityMap} (inv : Inv self) (steps : List EntityStep) : Inv (self.run steps) := by
  induction steps generalizing self with
  | nil => exact inv
  | cons step rest ih => exact ih (step_inv inv step)

theorem Inv.releases {self : EntityMap} (inv : Inv self) (idle : self.idle = true) {entityId : Nat}
    (inserted : entityId ∈ self.inserted) (gone : self.live entityId = 0) :
    entityId ∈ (self.step .takeDropped).released := by
  obtain ⟨-, queued⟩ := inv.queue idle
  simp only [EntityMap.step, idle, if_true, inv.takeDropped_eq idle]
  cases stored : self.counts entityId with
  | none => exact List.mem_append_left _ ((inv.released entityId).mpr ⟨inserted, stored⟩)
  | some count =>
    have zero := inv.counted entityId count stored
    rw [gone] at zero
    subst zero
    refine List.mem_append_right _ (List.mem_filter.mpr ⟨(queued entityId).mpr stored, ?_⟩)
    exact (inv.present entityId).mpr ⟨inserted, by simp [stored]⟩

/-- Whatever the order of the steps of all threads, the counts are right, nothing comes back, and
every entity is released once, after its last handle. -/
theorem counts_sound (steps : List EntityStep) : Counted (({} : EntityMap).run steps) := by
  have inv := run_inv new_inv steps
  refine ⟨inv.counted, inv.uncounted, inv.enqueuedNodup, inv.sound, inv.never, inv.releasedNodup, ?_,
    fun idle entityId inserted gone => inv.releases idle inserted gone⟩
  intro entityId member
  obtain ⟨inserted, gone⟩ := (inv.released entityId).mp member
  exact ⟨inserted, inv.uncounted entityId gone⟩

example : (({} : EntityMap).run [.reserve, .insert ⟨0, 0⟩, .upgradeLock 0, .upgradeLoad 0,
    .upgradeExchange 0 1 false, .dropLock ⟨0, 0⟩, .dropDecrement, .dropLock ⟨1, 0⟩, .dropDecrement,
    .upgradeLock 0, .upgradeLoad 0, .dropPush, .takeDropped]).released = [0] := by
  decide

end EntityMap

end Pinrail.App

import Pinrail.App.Retain

/-!
# What `remove` hands out

No subscriber is lost: until its subscription is dropped, its callback rejects it or `remove` takes it,
it is in the table or with a call in progress. A dropped one may still be there, and `remove` asks only
whether it is active.
-/

namespace Pinrail.App.SubscriberSet

variable {K : Type} [DecidableEq K]

/-! ## The statements -/

def taken (self : SubscriberSet K) : Step K → List Nat
  | .remove emitter => if self.frames = [] then self.held emitter else []
  | .insert _ | .activate _ | .drop _ | .retain _ | .callbackReturns _ => []

/-- What the `remove` calls of a run take. -/
def takenBy : SubscriberSet K → List (Step K) → List Nat
  | _, [] => []
  | self, step :: rest => self.taken step ++ (self.step step).takenBy rest

/-- The subscriptions of a key that are in the set: their callbacks have not rejected them and `remove`
has not taken them. -/
def subscribed (self : SubscriberSet K) (taken : List Nat) (key : K) : List Nat :=
  (List.range self.nextSubscriberId).filter fun id =>
    self.emitterKey id = some key && !self.rejected id && !taken.contains id

/-- No subscription is dropped that is active and that a running call has kept already; and none is
activated after it was dropped while the table or a running call keeps it. -/
def Spares (self : SubscriberSet K) : Step K → Prop
  | .drop id => ∀ frame ∈ self.frames, id ∈ frame.kept → self.active id = false
  | .activate id => self.dropped id = true → (∀ key, id ∉ self.held key) ∧ ∀ frame ∈ self.frames, id ∉ frame.kept
  | _ => True

def Spared : SubscriberSet K → List (Step K) → Prop
  | _, [] => True
  | self, step :: rest => self.Spares step ∧ (self.step step).Spared rest

/-! ## Nothing is lost -/

def Located (self : SubscriberSet K) (calls : List (Frame K × List Nat)) (id : Nat) : Prop :=
  (∃ key, id ∈ self.held key) ∨ ∃ call ∈ calls, id ∈ call.1.kept ++ call.2

theorem mem_extend {ids new : List Nat} {id : Nat} : id ∈ extend ids new ↔ id ∈ ids ∨ id ∈ new := by
  induction new generalizing ids with
  | nil => simp [extend]
  | cons first new ih =>
    have step : extend ids (first :: new) = extend (ids.orderedInsert (· ≤ ·) first) new := rfl
    rw [step, ih, List.mem_orderedInsert, List.mem_cons, or_comm (a := id = first), or_assoc]

theorem held_finish (self : SubscriberSet K) (frame : Frame K) (key : K) : (self.finish frame).held key =
      if key = frame.key then extend frame.kept (self.held key) else self.held key := by
  split
  · rename_i same
    subst same
    exact held_put_self self frame.key _
  · rename_i differ
    exact held_finish_of_ne self frame differ

section Advance
variable {self : SubscriberSet K} {calls : List (Frame K × List Nat)} {frame : Frame K}
  {todo : List Nat} {id : Nat}

omit [DecidableEq K] in
theorem located_cons : Located self ((frame, todo) :: calls) id ↔
    (id ∈ frame.kept ++ todo) ∨ Located self calls id := by
  rw [Located, List.exists_mem_cons_iff, Located, or_left_comm]

omit [DecidableEq K] in
theorem located_push : Located { self with frames := frame :: self.frames }
    ({ self with frames := frame :: self.frames } : SubscriberSet K).calls id ↔
    (id ∈ frame.kept ++ frame.running :: frame.remaining) ∨ Located self self.calls id :=
  located_cons

theorem located_finish : Located (self.finish frame) calls id ↔ id ∈ frame.kept ∨ Located self calls id := by
  simp only [Located, held_finish, ← or_assoc]
  refine or_congr_left ⟨?_, ?_⟩
  · rintro ⟨key, member⟩
    split at member
    · exact (mem_extend.mp member).imp_right fun held => ⟨key, held⟩
    · exact .inr ⟨key, member⟩
  · rintro (kept | ⟨key, member⟩)
    · exact ⟨frame.key, by rw [if_pos rfl]; exact mem_extend.mpr (.inl kept)⟩
    · refine ⟨key, ?_⟩
      split
      · exact mem_extend.mpr (.inr member)
      · exact member

theorem located_advance : (Located (self.advance frame todo) (self.advance frame todo).calls id →
      Located self ((frame, todo) :: self.calls) id) ∧
    (self.dropped id = false → Located self ((frame, todo) :: self.calls) id →
      Located (self.advance frame todo) (self.advance frame todo).calls id) := by
  induction todo generalizing frame with
  | nil =>
    have same : Located (self.finish frame) self.calls id ↔ Located self ((frame, []) :: self.calls) id := by
      rw [located_finish, located_cons, List.append_nil]
    exact ⟨same.mp, fun _ => same.mpr⟩
  | cons first rest ih =>
    simp only [located_cons] at ih ⊢
    unfold SubscriberSet.advance
    dsimp only
    split
    · rw [List.append_cons frame.kept first rest]
      exact ih
    · split
      · rename_i dropped
        refine ⟨fun after => (ih.1 after).imp_left fun member => ?_, fun undropped before =>
          ih.2 undropped (before.imp_left fun member => ?_)⟩
        · exact (List.Sublist.append_left (List.sublist_cons_self _ _) _).subset member
        · rcases List.mem_append.mp member with kept | member
          · exact List.mem_append_left _ kept
          · refine List.mem_append_right _ ((List.mem_cons.mp member).resolve_left ?_)
            rintro rfl
            exact absurd (undropped.symm.trans dropped) (by decide)
      · rw [located_push]
        exact ⟨fun after => after, fun _ before => before⟩

end Advance

theorem advance_flags (self : SubscriberSet K) (frame : Frame K) (todo : List Nat) :
    (self.advance frame todo).nextSubscriberId = self.nextSubscriberId ∧
    (self.advance frame todo).active = self.active ∧ (self.advance frame todo).dropped = self.dropped ∧
    (self.advance frame todo).rejected = self.rejected := by
  induction todo generalizing frame with
  | nil => exact ⟨rfl, rfl, rfl, rfl⟩
  | cons id rest ih =>
    unfold SubscriberSet.advance
    dsimp only
    split
    · exact ih _
    · split
      · exact ih _
      · exact ⟨rfl, rfl, rfl, rfl⟩

/-- What a step does to the subscribers unless it is a `remove`. -/
structure Keeps (set next : SubscriberSet K) : Prop where
  grows : set.nextSubscriberId ≤ next.nextSubscriberId
  undropped : ∀ id < set.nextSubscriberId, next.dropped id = false → set.dropped id = false
  unrejected : ∀ id < set.nextSubscriberId, next.rejected id = false → set.rejected id = false
  old : ∀ id < set.nextSubscriberId, Located next next.calls id → Located set set.calls id
  located : ∀ id < set.nextSubscriberId, next.dropped id = false → next.rejected id = false →
    Located set set.calls id → Located next next.calls id
  new : ∀ id < next.nextSubscriberId, set.nextSubscriberId ≤ id → Located next next.calls id

structure Whole (set : SubscriberSet K) (gone : List Nat) : Prop where
  complete : ∀ id < set.nextSubscriberId, set.dropped id = false → set.rejected id = false →
    id ∉ gone → Located set set.calls id
  gone : ∀ id ∈ gone, id < set.nextSubscriberId ∧ ¬ Located set set.calls id

omit [DecidableEq K] in
theorem Whole.keeps {self next : SubscriberSet K} {gone : List Nat} (whole : Whole self gone)
    (keeps : Keeps self next) : Whole next gone := by
  constructor
  · intro id bound undropped unrejected stays
    by_cases old : id < self.nextSubscriberId
    · exact keeps.located id old undropped unrejected (whole.complete id old
        (keeps.undropped id old undropped) (keeps.unrejected id old unrejected) stays)
    · exact keeps.new id bound (not_lt.mp old)
  · intro id member
    obtain ⟨bound, nowhere⟩ := whole.gone id member
    exact ⟨bound.trans_le keeps.grows, fun located => nowhere (keeps.old id bound located)⟩

section Steps
variable {self : SubscriberSet K}

theorem Inv.keeps_insert (inv : Inv self) (emitterKey : K) : Keeps self (self.insert emitterKey) := by
  have table := held_insert self inv.inv emitterKey
  have flags (id : Nat) (bound : id < self.nextSubscriberId) : (self.insert emitterKey).dropped id = self.dropped id ∧
      (self.insert emitterKey).rejected id = self.rejected id := by
    have differ : id ≠ self.nextSubscriberId := by omega
    simp [SubscriberSet.insert, Function.update_of_ne differ]
  have located (id : Nat) : Located (self.insert emitterKey) (self.insert emitterKey).calls id ↔
      id = self.nextSubscriberId ∨ Located self self.calls id := by
    rw [Located, Located, ← or_assoc]
    refine or_congr_left ⟨?_, ?_⟩
    · rintro ⟨key, member⟩
      rw [table] at member
      split at member
      · rcases List.mem_append.mp member with member | last
        · exact .inr ⟨key, member⟩
        · exact .inl (List.mem_singleton.mp last)
      · exact .inr ⟨key, member⟩
    · rintro (rfl | ⟨key, member⟩)
      · exact ⟨emitterKey, by simp [table]⟩
      · refine ⟨key, ?_⟩
        rw [table]
        split
        · exact List.mem_append_left _ member
        · exact member
  refine ⟨Nat.le_succ _, ?_, ?_, ?_, ?_, ?_⟩
  · exact fun id bound undropped => (flags id bound).1 ▸ undropped
  · exact fun id bound unrejected => (flags id bound).2 ▸ unrejected
  · exact fun id bound here => ((located id).mp here).resolve_left bound.ne
  · exact fun id bound _ _ here => (located id).mpr (.inr here)
  · exact fun id bound new => (located id).mpr (.inl (Nat.le_antisymm (Nat.le_of_lt_succ bound) new))

omit [DecidableEq K] in
theorem Keeps.of_same {next : SubscriberSet K} (same : next.nextSubscriberId = self.nextSubscriberId)
    (undropped : ∀ id, next.dropped id = false → self.dropped id = false)
    (unrejected : ∀ id, next.rejected id = false → self.rejected id = false)
    (old : ∀ id, Located next next.calls id → Located self self.calls id)
    (located : ∀ id, next.dropped id = false → next.rejected id = false →
      Located self self.calls id → Located next next.calls id) : Keeps self next where
  grows := same.ge
  undropped id _ := undropped id
  unrejected id _ := unrejected id
  old id _ := old id
  located id _ := located id
  new id bound new := absurd bound (by omega)

omit [DecidableEq K] in
theorem Keeps.refl : Keeps self self :=
  .of_same rfl (fun _ same => same) (fun _ same => same) (fun _ same => same) fun _ _ _ same => same

theorem Inv.keeps_drop (inv : Inv self) (id : Nat) : Keeps self (self.drop id) := by
  cases emitter : self.emitterKey id with
  | none =>
    have same : self.drop id = self := by simp [SubscriberSet.drop, emitter]
    rw [same]
    exact .refl
  | some emitterKey =>
    obtain ⟨table, same⟩ := drop_spec self inv.inv emitter
    have calls : (self.drop id).calls = self.calls := by
      rw [same]
      rfl
    have undropped (other : Nat) (after : (self.drop id).dropped other = false) :
        other ≠ id ∧ self.dropped other = false := by
      rw [same] at after
      dsimp only at after
      by_cases here : other = id
      · rw [here, Function.update_self] at after
        cases after
      · exact ⟨here, by rwa [Function.update_of_ne here] at after⟩
    refine .of_same (by rw [same]) (fun other after => (undropped other after).2) ?_ ?_ ?_
    · intro other after
      rwa [same] at after
    · rw [calls]
      rintro other (⟨key, member⟩ | out)
      · exact .inl ⟨key, List.erase_subset (table key ▸ member)⟩
      · exact .inr out
    · rw [calls]
      rintro other after - (⟨key, member⟩ | out)
      · refine .inl ⟨key, ?_⟩
        rw [table]
        exact (List.mem_erase_of_ne (undropped other after).1).mpr member
      · exact .inr out

theorem located_begin {emitter : K} {subscribers : List Nat} {id : Nat}
    (entry : self.subscribers emitter = some (some subscribers)) :
    Located { self with subscribers := Function.update self.subscribers emitter (some none) }
    ((self.begin emitter subscribers, subscribers) :: self.calls) id ↔ Located self self.calls id := by
  have table := fun key =>
    held_update self emitter key (show ((some none).getD none).getD [] = [] from rfl)
  have taken : self.held emitter = subscribers := by simp [held, entry]
  rw [located_cons, Located, Located, ← or_assoc]
  refine or_congr_left ⟨?_, ?_⟩
  · rintro (member | ⟨key, member⟩)
    · exact ⟨emitter, by rw [taken]; simpa [begin] using member⟩
    · rw [table] at member
      split at member
      · cases member
      · exact ⟨key, member⟩
  · rintro ⟨key, member⟩
    by_cases same : key = emitter
    · subst same
      exact .inl (by simpa [begin, taken] using member)
    · exact .inr ⟨key, by rw [table, if_neg same]; exact member⟩

theorem keeps_retain (emitter : K) : Keeps self (self.retain emitter) := by
  unfold SubscriberSet.retain
  split
  · rename_i subscribers entry
    obtain ⟨next, active, dropped, rejected⟩ := advance_flags
      { self with subscribers := Function.update self.subscribers emitter (some none) }
      (self.begin emitter subscribers) subscribers
    refine .of_same next (by simp [dropped]) (by simp [rejected]) ?_ ?_
    · exact fun id after => (located_begin entry).mp (located_advance.1 after)
    · intro id undropped _ before
      rw [dropped] at undropped
      exact located_advance.2 undropped ((located_begin entry).mpr before)
  · exact .of_same rfl (fun _ same => same) (fun _ same => same) (fun _ same => same) fun _ _ _ same => same

theorem keeps_callbackReturns (keep : Bool) : Keeps self (self.callbackReturns keep) := by
  unfold SubscriberSet.callbackReturns
  split
  · exact .refl
  · rename_i frame frames stack
    generalize kept : (if keep && !self.dropped frame.running then frame.kept ++ [frame.running]
      else frame.kept) = ids
    generalize rejected : (if keep then self.rejected
      else Function.update self.rejected frame.running true) = gone
    have calls : self.calls = (frame, frame.running :: frame.remaining) ::
        ({ self with frames, rejected := gone } : SubscriberSet K).calls := by
      rw [SubscriberSet.calls, stack]
      rfl
    obtain ⟨next, -, sameDropped, sameRejected⟩ :=
      advance_flags { self with frames, rejected := gone } { frame with kept := ids } frame.remaining
    dsimp only at next sameDropped sameRejected ⊢
    refine .of_same next (by simp [sameDropped]) ?_ ?_ ?_
    · intro id after
      rw [sameRejected, ← rejected] at after
      split at after
      · exact after
      · by_cases same : id = frame.running
        · rw [same, Function.update_self] at after
          cases after
        · rwa [Function.update_of_ne same] at after
    · intro id after
      rw [calls]
      refine located_cons.mpr ((located_cons.mp (located_advance.1 after)).imp_left fun member => ?_)
      rw [List.append_cons]
      refine (List.Sublist.append_right ?_ _).subset member
      rw [← kept]
      split
      · exact List.Sublist.refl _
      · exact List.sublist_append_left _ _
    · intro id undropped unrejected before
      rw [calls] at before
      rw [sameDropped] at undropped
      rw [sameRejected, ← rejected] at unrejected
      refine located_advance.2 undropped (located_cons.mpr ((located_cons.mp before).imp_left fun member => ?_))
      rw [List.append_cons] at member
      rcases List.mem_append.mp member with member | remaining
      · refine List.mem_append_left _ ?_
        rw [← kept]
        rcases List.mem_append.mp member with member | running
        · split
          · exact List.mem_append_left _ member
          · exact member
        · -- The one that runs stays, as it is neither dropped nor rejected.
          obtain rfl := List.mem_singleton.mp running
          cases keep with
          | true => simp [undropped]
          | false => simp at unrejected
      · exact List.mem_append_right _ remaining

end Steps

theorem Whole.remove {self : SubscriberSet K} {gone : List Nat} (whole : Whole self gone) (inv : Inv self)
    (idle : self.frames = []) (emitter : K) : Whole (self.remove emitter).1 (gone ++ self.held emitter) := by
  have table := fun key =>
    held_update self emitter key (show (none.getD none).getD [] = [] from rfl)
  have located (id : Nat) : Located (self.remove emitter).1 (self.remove emitter).1.calls id ↔
      Located self self.calls id ∧ id ∉ self.held emitter := by
    have calls : (self.remove emitter).1.calls = [] := by simp [SubscriberSet.remove, calls, idle]
    have none : self.calls = [] := by simp [SubscriberSet.calls, idle]
    rw [Located, Located, calls, none]
    simp only [List.not_mem_nil, false_and, exists_false, or_false]
    constructor
    · rintro ⟨key, member⟩
      rw [SubscriberSet.remove, table] at member
      split at member
      · cases member
      · rename_i differs
        refine ⟨⟨key, member⟩, fun there => differs ?_⟩
        exact Option.some_inj.mp ((inv.inv.known key id member).1.symm.trans (inv.inv.known emitter id there).1)
    · rintro ⟨⟨key, member⟩, absent⟩
      refine ⟨key, ?_⟩
      rw [SubscriberSet.remove, table, if_neg]
      · exact member
      · rintro rfl
        exact absent member
  constructor
  · intro id bound undropped unrejected stays
    rw [List.mem_append, not_or] at stays
    exact (located id).mpr ⟨whole.complete id bound undropped unrejected stays.1, stays.2⟩
  · intro id member
    rcases List.mem_append.mp member with member | member
    · obtain ⟨bound, nowhere⟩ := whole.gone id member
      exact ⟨bound, fun here => nowhere ((located id).mp here).1⟩
    · exact ⟨(inv.inv.known emitter id member).2.1, fun here => ((located id).mp here).2 member⟩

theorem Whole.step {self : SubscriberSet K} {gone : List Nat} (whole : Whole self gone)
    (inv : Inv self) (step : Step K) : Whole (self.step step) (gone ++ self.taken step) := by
  cases step with
  | insert emitterKey =>
    rw [taken, List.append_nil]
    exact whole.keeps (inv.keeps_insert emitterKey)
  | activate id =>
    rw [taken, List.append_nil]
    exact whole.keeps (.of_same rfl (fun _ same => same) (fun _ same => same) (fun _ same => same)
      fun _ _ _ same => same)
  | drop id =>
    rw [taken, List.append_nil]
    exact whole.keeps (inv.keeps_drop id)
  | remove emitter =>
    rw [taken, SubscriberSet.step]
    split
    · rename_i idle
      exact whole.remove inv idle emitter
    · rwa [List.append_nil]
  | retain emitter =>
    rw [taken, List.append_nil]
    exact whole.keeps (keeps_retain emitter)
  | callbackReturns keep =>
    rw [taken, List.append_nil]
    exact whole.keeps (keeps_callbackReturns keep)

theorem Whole.run {self : SubscriberSet K} {gone : List Nat} (whole : Whole self gone) (inv : Inv self)
    (steps : List (Step K)) : Whole (self.run steps) (gone ++ self.takenBy steps) := by
  induction steps generalizing self gone with
  | nil => rwa [takenBy, List.append_nil]
  | cons step rest ih =>
    rw [takenBy, ← List.append_assoc]
    exact ih (whole.step inv step) (step_inv inv step)

/-! ## Nothing dropped is active -/

structure Quiet (set : SubscriberSet K) (frames : List (Frame K)) : Prop where
  held : ∀ key, ∀ id ∈ set.held key, set.dropped id = true → set.active id = false
  kept : ∀ frame ∈ frames, ∀ id ∈ frame.kept, set.dropped id = true → set.active id = false

theorem Quiet.advance {self : SubscriberSet K} {frame : Frame K} (quiet : Quiet self (frame :: self.frames))
    (todo : List Nat) : Quiet (self.advance frame todo) (self.advance frame todo).frames := by
  obtain ⟨held, all⟩ := quiet
  obtain ⟨kept, others⟩ := List.forall_mem_cons.mp all
  clear all
  induction todo generalizing frame with
  | nil =>
    refine ⟨fun key id member => ?_, others⟩
    have member : id ∈ (self.finish frame).held key := member
    rw [held_finish] at member
    split at member
    · rcases mem_extend.mp member with member | member
      · exact kept id member
      · exact held key id member
    · exact held key id member
  | cons first rest ih =>
    unfold SubscriberSet.advance
    dsimp only
    split
    · rename_i inactive
      refine ih fun id member => ?_
      rcases List.mem_append.mp member with member | member
      · exact kept id member
      · obtain rfl := List.mem_singleton.mp member
        exact fun _ => by simpa using inactive
    · split
      · exact ih kept
      · exact ⟨held, List.forall_mem_cons.mpr ⟨kept, others⟩⟩

theorem Quiet.step {self : SubscriberSet K} (quiet : Quiet self self.frames) (inv : Inv self)
    {step : Step K} (spares : self.Spares step) : Quiet (self.step step) (self.step step).frames := by
  obtain ⟨held, kept⟩ := quiet
  cases step with
  | insert emitterKey =>
    have table := held_insert self inv.inv emitterKey
    have old (id : Nat) (bound : id < self.nextSubscriberId) (quiet : self.dropped id = true → self.active id = false) :
        (self.insert emitterKey).dropped id = true → (self.insert emitterKey).active id = false := by
      have differ : id ≠ self.nextSubscriberId := by omega
      simpa [SubscriberSet.insert, Function.update_of_ne differ] using quiet
    constructor
    · intro key id member
      simp only [SubscriberSet.step, table] at member ⊢
      have before (member : id ∈ self.held key) := old id (inv.inv.known key id member).2.1 (held key id member)
      split at member
      · rcases List.mem_append.mp member with member | last
        · exact before member
        · obtain rfl := List.mem_singleton.mp last
          simp [SubscriberSet.insert]
      · exact before member
    · intro frame inFrames id member
      obtain ⟨passed, callOk⟩ := inv.inv.callOk _ (List.mem_map_of_mem inFrames)
      have bound := callOk.old id (callOk.out_mem (List.mem_append_left _ member))
      exact old id (bound.trans_le callOk.begun) (kept frame inFrames id member)
  | activate id =>
    have elsewhere : ∀ other, (self.dropped id = true → other ≠ id) →
        (self.dropped other = true → self.active other = false) →
        (self.activate id).dropped other = true → (self.activate id).active other = false := by
      intro other apart quiet dropped
      have differ : other ≠ id := by
        rintro rfl
        exact apart dropped rfl
      exact (Function.update_of_ne differ _ _).trans (quiet dropped)
    constructor
    · intro key other member
      refine elsewhere other (fun dropped => ?_) (held key other member)
      rintro rfl
      exact (spares dropped).1 key member
    · intro frame inFrames other member
      refine elsewhere other (fun dropped => ?_) (kept frame inFrames other member)
      rintro rfl
      exact (spares dropped).2 frame inFrames member
  | drop id =>
    simp only [SubscriberSet.step]
    cases emitter : self.emitterKey id with
    | none =>
      have same : self.drop id = self := by simp [SubscriberSet.drop, emitter]
      rw [same]
      exact ⟨held, kept⟩
    | some emitterKey =>
      obtain ⟨table, same⟩ := drop_spec self inv.inv emitter
      have others : ∀ other, other ≠ id → (self.drop id).dropped other = self.dropped other := by
        intro other differ
        rw [same]
        exact Function.update_of_ne differ _ _
      have active : (self.drop id).active = self.active := by rw [same]
      have frames : (self.drop id).frames = self.frames := by rw [same]
      rw [frames]
      constructor
      · intro key other member
        rw [table] at member
        have distinct := List.Nodup.mem_erase_iff (inv.inv.sorted key).nodup |>.mp member
        rw [others other distinct.1, active]
        exact held key other distinct.2
      · intro frame inFrames other member dropped
        rw [active]
        by_cases here : other = id
        · subst here
          exact spares frame inFrames member
        · rw [others other here] at dropped
          exact kept frame inFrames other member dropped
  | remove emitter =>
    simp only [SubscriberSet.step]
    split
    · have table := fun key =>
        held_update self emitter key (show (none.getD none).getD [] = [] from rfl)
      refine ⟨fun key id member => ?_, kept⟩
      rw [SubscriberSet.remove, table] at member
      split at member
      · cases member
      · exact held key id member
    · exact ⟨held, kept⟩
  | retain emitter =>
    simp only [SubscriberSet.step, SubscriberSet.retain]
    split
    · rename_i subscribers entry
      have table := fun key =>
        held_update self emitter key (show ((some none).getD none).getD [] = [] from rfl)
      apply Quiet.advance
      refine ⟨fun key id member => ?_, List.forall_mem_cons.mpr ⟨?_, kept⟩⟩
      · rw [table] at member
        split at member
        · cases member
        · exact held key id member
      · intro id member
        cases member
    · exact ⟨held, kept⟩
  | callbackReturns keep =>
    simp only [SubscriberSet.step, SubscriberSet.callbackReturns]
    split
    · exact ⟨held, kept⟩
    · rename_i frame frames stack
      rw [stack] at kept
      obtain ⟨top, others⟩ := List.forall_mem_cons.mp kept
      apply Quiet.advance
      refine ⟨held, List.forall_mem_cons.mpr ⟨?_, others⟩⟩
      intro id member
      dsimp only at member ⊢
      split at member
      · rename_i stays
        rcases List.mem_append.mp member with member | last
        · exact top id member
        · obtain rfl := List.mem_singleton.mp last
          intro dropped
          simp [dropped] at stays
      · exact top id member

theorem Quiet.run {self : SubscriberSet K} {steps : List (Step K)} (quiet : Quiet self self.frames) (inv : Inv self)
    (spared : self.Spared steps) : Quiet (self.run steps) (self.run steps).frames := by
  induction steps generalizing self with
  | nil => exact quiet
  | cons step rest ih => exact ih (quiet.step inv spared.1) (step_inv inv step) spared.2

/-! ## What is handed out -/

theorem mem_held_iff {self : SubscriberSet K} {gone : List Nat} (whole : Whole self gone) (inv : Inv self)
    (idle : self.frames = []) (key : K) (id : Nat) (undropped : self.dropped id = false) : id ∈ self.held key ↔
    id ∈ self.subscribed gone key := by
  simp only [subscribed, List.mem_filter, List.mem_range, Bool.and_eq_true, decide_eq_true_eq,
    Bool.not_eq_true', List.contains_eq_mem, decide_eq_false_iff_not]
  constructor
  · intro member
    obtain ⟨emitter, bound, unrejected⟩ := inv.inv.known key id member
    exact ⟨bound, ⟨emitter, unrejected⟩, fun taken => (whole.gone id taken).2 (.inl ⟨key, member⟩)⟩
  · rintro ⟨bound, ⟨emitter, unrejected⟩, stays⟩
    rcases whole.complete id bound undropped unrejected stays with ⟨other, member⟩ | ⟨call, out, -⟩
    · obtain rfl := Option.some_inj.mp ((inv.inv.known other id member).1.symm.trans emitter)
      exact member
    · rw [calls, idle] at out
      cases out

omit [DecidableEq K] in
theorem new_whole : Whole ({} : SubscriberSet K) [] where
  complete id bound := absurd bound (Nat.not_lt_zero id)
  gone _ member := absurd member List.not_mem_nil

omit [DecidableEq K] in
theorem new_quiet : Quiet ({} : SubscriberSet K) [] where
  held _ _ member := absurd member List.not_mem_nil
  kept _ member := absurd member List.not_mem_nil

/-- Every `remove` between the calls of `retain` hands out all active subscriptions of the key that were
not dropped; and exactly these, if the run spares them. -/
theorem remove_contract (steps : List (Step K)) (key : K) (set : SubscriberSet K)
    (ran : ({} : SubscriberSet K).run steps = set) (idle : set.frames = []) :
    (∀ id ∈ set.subscribed (({} : SubscriberSet K).takenBy steps) key,
      set.active id = true → set.dropped id = false → id ∈ (set.remove key).2) ∧
    (({} : SubscriberSet K).Spared steps → (set.remove key).2 =
      (set.subscribed (({} : SubscriberSet K).takenBy steps) key).filter fun id =>
        set.active id && !set.dropped id) := by
  subst ran
  have inv := run_inv (new_inv (K := K)) steps
  have whole := (new_whole (K := K)).run new_inv steps
  rw [List.nil_append] at whole
  have undropped := mem_held_iff whole inv idle key
  refine ⟨fun id member active free => ?_, fun spared => ?_⟩
  · exact List.mem_filter.mpr ⟨(undropped id free).mpr member, active⟩
  · have quiet := (new_quiet (K := K)).run new_inv spared
    have ordered : ((({} : SubscriberSet K).run steps).subscribed
        (({} : SubscriberSet K).takenBy steps) key).Pairwise (· < ·) :=
      List.Pairwise.filter _ List.pairwise_lt_range
    refine ((inv.inv.sorted key).filter _).eq_of_mem_iff (ordered.filter _) fun id => ?_
    rw [List.mem_filter, List.mem_filter, Bool.and_eq_true, Bool.not_eq_true']
    constructor
    · rintro ⟨member, active⟩
      have free : (({} : SubscriberSet K).run steps).dropped id = false := by
        by_contra dropped
        have inactive := quiet.held key id member (by simpa using dropped)
        exact absurd (active.symm.trans inactive) (by decide)
      exact ⟨(undropped id free).mp member, active, free⟩
    · rintro ⟨member, active, free⟩
      exact ⟨(undropped id free).mpr member, active⟩

/-- The first callback drops its own subscription and inserts another one, which is activated. -/
theorem remove_contract_selfDrop :
    ((({} : SubscriberSet Unit).run [.insert (), .activate 0, .insert (), .activate 1, .retain (),
      .drop 0, .insert (), .activate 2, .callbackReturns true, .callbackReturns true]).remove ()).2 =
      [1, 2] := by
  refine ((remove_contract _ () _ rfl (by decide)).2 ?_).trans (by decide)
  refine ⟨trivial, ?_, trivial, ?_, trivial, ?_, trivial, ?_, trivial, trivial, trivial⟩
  · exact fun dropped => absurd dropped (by decide)
  · exact fun dropped => absurd dropped (by decide)
  · unfold Spares
    decide
  · exact fun dropped => absurd dropped (by decide)

/-- The second callback drops the subscription of the first, which has had its turn. -/
theorem remove_returns_dropped : ¬ ∀ steps : List (Step Unit), (({} : SubscriberSet Unit).run steps).frames = [] →
    ((({} : SubscriberSet Unit).run steps).remove ()).2 =
      ((({} : SubscriberSet Unit).run steps).subscribed (({} : SubscriberSet Unit).takenBy steps)
        ()).filter fun id => (({} : SubscriberSet Unit).run steps).active id &&
          !(({} : SubscriberSet Unit).run steps).dropped id := by
  intro exact'
  have wrong := exact' [.insert (), .activate 0, .insert (), .activate 1, .retain (),
    .callbackReturns true, .drop 0, .callbackReturns true] (by decide)
  revert wrong
  decide

end Pinrail.App.SubscriberSet

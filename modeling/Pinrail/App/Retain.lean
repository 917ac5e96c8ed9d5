import Pinrail.App.Subscription

/-!
# What a call of `retain` does

Every call gives each subscriber it found one turn, in the order of insertion, and invokes those that
are active and not dropped when their turn comes. It leaves exactly the subscribers that are neither
dropped nor rejected, as long as none is dropped whose turn has passed.
-/

namespace Pinrail.App

variable {K : Type}

/-! ## The statements -/

namespace Finished

structure Invokes (call : Finished K) : Prop where
  turns : call.turns.map Turn.id = call.present
  ordered : call.present.Pairwise (· < ·)
  invoked : call.invoked = (call.turns.filter fun turn => turn.active && !turn.dropped).map Turn.id
  inserted : ∀ id ∈ call.inserted, id ∉ call.invoked

def Exact (call : Finished K) : Prop :=
  call.holds = (call.present ++ call.inserted).filter fun id => !call.dropped id && !call.rejected id

instance (call : Finished K) : Decidable call.Exact :=
  inferInstanceAs (Decidable (call.holds =
    (call.present ++ call.inserted).filter fun id => !call.dropped id && !call.rejected id))

end Finished

namespace SubscriberSet

def upcoming (self : SubscriberSet K) : List Nat :=
  match self.frames with
  | [] => []
  | frame :: _ => frame.remaining.takeWhile fun id => !self.active id || self.dropped id

/-- While a call runs, no subscriber is dropped that stays after its turn, and none that is not
active is found dropped when its turn comes. -/
def Permits (self : SubscriberSet K) : Step K → Prop
  | .drop id => ∀ frame ∈ self.frames, id ∈ frame.turns.map Turn.id → id ≠ frame.running → self.rejected id = true
  | .callbackReturns _ => ∀ id ∈ self.upcoming, self.active id = true ∨ self.dropped id = false
  | _ => True

instance (self : SubscriberSet K) : (step : Step K) → Decidable (self.Permits step)
  | .drop id => inferInstanceAs (Decidable (∀ frame ∈ self.frames,
      id ∈ frame.turns.map Turn.id → id ≠ frame.running → self.rejected id = true))
  | .callbackReturns _ => inferInstanceAs
      (Decidable (∀ id ∈ self.upcoming, self.active id = true ∨ self.dropped id = false))
  | .insert _ | .activate _ | .remove _ | .retain _ => inferInstanceAs (Decidable True)

variable [DecidableEq K]

def Permitted : SubscriberSet K → List (Step K) → Prop
  | _, [] => True
  | self, step :: rest => self.Permits step ∧ (self.step step).Permitted rest

/-! ## Ids in order -/

theorem orderedInsert_of_lt {ids : List Nat} {id : Nat} (below : ∀ other ∈ ids, other < id) :
    ids.orderedInsert (· ≤ ·) id = ids ++ [id] := by
  induction ids with
  | nil => rfl
  | cons first rest ih =>
    have smaller := below first List.mem_cons_self
    rw [List.orderedInsert_of_not_le _ _ (by omega), List.cons_append,
      ih (fun other member => below other (List.mem_cons_of_mem first member))]

theorem extend_eq_append {ids new : List Nat} (sorted : new.Pairwise (· < ·))
    (below : ∀ id ∈ ids, ∀ other ∈ new, id < other) : extend ids new = ids ++ new := by
  induction new generalizing ids with
  | nil => simp [extend]
  | cons first rest ih =>
    obtain ⟨firstBelow, restSorted⟩ := List.pairwise_cons.mp sorted
    have inserted := orderedInsert_of_lt fun id member => below id member first List.mem_cons_self
    have step : extend ids (first :: rest) = extend (ids ++ [first]) rest := by
      rw [← inserted]
      rfl
    rw [step, ih restSorted, List.append_assoc, List.singleton_append]
    intro id member other otherMember
    rcases List.mem_append.mp member with old | new
    · exact below id old other (List.mem_cons_of_mem first otherMember)
    · rw [List.mem_singleton.mp new]
      exact firstBelow other otherMember

/-! ## The invariant -/

structure CallOk (set : SubscriberSet K) (frame : Frame K) (passed todo : List Nat) : Prop where
  present : passed ++ todo = frame.present
  ordered : frame.present.Pairwise (· < ·)
  old : ∀ id ∈ frame.present, id < frame.firstNew
  key : ∀ id ∈ frame.present, set.emitterKey id = some frame.key
  begun : frame.firstNew ≤ set.nextSubscriberId
  kept : frame.kept.Sublist passed
  settled : ∀ id ∈ passed, id ∈ frame.kept ∨ set.dropped id = true ∨ set.rejected id = true
  unrejected : ∀ id ∈ frame.kept ++ todo, set.rejected id = false

structure InvOf (set : SubscriberSet K) (calls : List (Frame K × List Nat)) : Prop where
  sorted : ∀ key, (set.held key).Pairwise (· < ·)
  known : ∀ key, ∀ id ∈ set.held key, set.emitterKey id = some key ∧ id < set.nextSubscriberId ∧ set.rejected id = false
  since : ∀ call ∈ calls, ∀ id ∈ set.held call.1.key, call.1.firstNew ≤ id
  callOk : ∀ call ∈ calls, ∃ passed, CallOk set call.1 passed call.2
  nested : calls.Pairwise fun inner outer => outer.1.firstNew ≤ inner.1.firstNew ∧
    (outer.1.key = inner.1.key → ∀ id ∈ inner.1.present, outer.1.firstNew ≤ id)
  found : ∀ call ∈ calls, ∀ id, call.1.firstNew ≤ id → id < set.nextSubscriberId →
    set.emitterKey id = some call.1.key → set.dropped id = false → set.rejected id = false →
    id ∈ set.held call.1.key ∨ ∃ other ∈ calls, other.1.key = call.1.key ∧ id ∈ other.1.kept ++ other.2

structure Ledger (frame : Frame K) (todo : List Nat) : Prop where
  turns : frame.turns.map Turn.id ++ todo = frame.present
  invoked : frame.invoked = (frame.turns.filter fun turn => turn.active && !turn.dropped).map Turn.id

def calls (self : SubscriberSet K) : List (Frame K × List Nat) :=
  self.frames.map fun frame => (frame, frame.running :: frame.remaining)

structure Inv (set : SubscriberSet K) : Prop where
  inv : InvOf set set.calls
  ledger : ∀ frame ∈ set.frames, Ledger frame frame.remaining
  finished : ∀ call ∈ set.finished, call.Invokes

structure CleanOf (set : SubscriberSet K) (calls : List (Frame K × List Nat)) : Prop where
  held : ∀ key, ∀ id ∈ set.held key, set.dropped id = false
  kept : ∀ call ∈ calls, ∀ id ∈ call.1.kept, set.dropped id = false
  finished : ∀ call ∈ set.finished, call.Exact

/-! ## The table -/

theorem held_put_self (self : SubscriberSet K) (key : K) (ids : List Nat) : (self.put key ids).held key = ids := by
  by_cases empty : ids = [] <;> simp [held, put, empty]

theorem held_put_of_ne (self : SubscriberSet K) {key other : K} (differ : other ≠ key)
    (ids : List Nat) : (self.put key ids).held other = self.held other := by
  simp [held, put, Function.update_of_ne differ]

/-! ## The end of a call -/

omit [DecidableEq K] in
theorem InvOf.below {self : SubscriberSet K} {calls : List (Frame K × List Nat)} {frame : Frame K}
    (inv : InvOf self ((frame, []) :: calls)) : ∀ id ∈ frame.kept, ∀ other ∈ self.held frame.key, id < other := by
  obtain ⟨passed, callOk⟩ := inv.callOk (frame, []) List.mem_cons_self
  intro id member other otherMember
  have old : id < frame.firstNew := by
    apply callOk.old
    rw [← callOk.present]
    exact List.mem_append_left _ (callOk.kept.subset member)
  have new := inv.since (frame, []) List.mem_cons_self other otherMember
  exact lt_of_lt_of_le old new

theorem held_finish_self {self : SubscriberSet K} {calls : List (Frame K × List Nat)}
    {frame : Frame K} (inv : InvOf self ((frame, []) :: calls)) :
    (self.finish frame).held frame.key = frame.kept ++ self.held frame.key := by
  have merged := extend_eq_append (inv.sorted frame.key) inv.below
  rw [← merged]
  exact held_put_self self frame.key _

theorem held_finish_of_ne (self : SubscriberSet K) (frame : Frame K) {key : K}
    (differ : key ≠ frame.key) : (self.finish frame).held key = self.held key :=
  held_put_of_ne self differ _

theorem InvOf.finish {self : SubscriberSet K} {calls : List (Frame K × List Nat)} {frame : Frame K}
    (inv : InvOf self ((frame, []) :: calls)) : InvOf (self.finish frame) calls := by
  obtain ⟨passed, callOk⟩ := inv.callOk (frame, []) List.mem_cons_self
  have passedEq : passed = frame.present := by simpa using callOk.present
  have keptPresent : ∀ id ∈ frame.kept, id ∈ frame.present := fun id member =>
    passedEq ▸ callOk.kept.subset member
  obtain ⟨nestedHead, nestedTail⟩ := List.pairwise_cons.mp inv.nested
  constructor
  · intro key
    by_cases same : key = frame.key
    · subst same
      rw [held_finish_self inv, List.pairwise_append]
      refine ⟨?_, inv.sorted frame.key, inv.below⟩
      exact (passedEq ▸ callOk.ordered).sublist callOk.kept
    · rw [held_finish_of_ne self frame same]
      exact inv.sorted key
  · intro key id member
    by_cases same : key = frame.key
    · subst same
      rw [held_finish_self inv] at member
      rcases List.mem_append.mp member with kept | held
      · refine ⟨callOk.key id (keptPresent id kept), ?_, ?_⟩
        · exact lt_of_lt_of_le (callOk.old id (keptPresent id kept)) callOk.begun
        · exact callOk.unrejected id (by simp [kept])
      · exact inv.known frame.key id held
    · rw [held_finish_of_ne self frame same] at member
      exact inv.known key id member
  · intro call callMember id member
    by_cases same : call.1.key = frame.key
    · rw [same, held_finish_self inv] at member
      rcases List.mem_append.mp member with kept | held
      · exact (nestedHead call callMember).2 same id (keptPresent id kept)
      · exact inv.since call (List.mem_cons_of_mem _ callMember) id (same ▸ held)
    · rw [held_finish_of_ne self frame same] at member
      exact inv.since call (List.mem_cons_of_mem _ callMember) id member
  · intro call callMember
    obtain ⟨before, ok⟩ := inv.callOk call (List.mem_cons_of_mem _ callMember)
    exact ⟨before, ⟨ok.present, ok.ordered, ok.old, ok.key, ok.begun, ok.kept, ok.settled, ok.unrejected⟩⟩
  · exact nestedTail
  · intro call callMember id since bound key undropped unrejected
    have located := inv.found call (List.mem_cons_of_mem _ callMember) id since bound key undropped unrejected
    by_cases same : call.1.key = frame.key
    · rw [same, held_finish_self inv]
      rcases located with held | ⟨other, otherMember, otherKey, out⟩
      · exact .inl (List.mem_append_right _ (same ▸ held))
      · rcases List.mem_cons.mp otherMember with rfl | tail
        · exact .inl (List.mem_append_left _ (by simpa using out))
        · exact .inr ⟨other, tail, otherKey.trans same, out⟩
    · rw [held_finish_of_ne self frame same]
      rcases located with held | ⟨other, otherMember, otherKey, out⟩
      · exact .inl held
      · rcases List.mem_cons.mp otherMember with rfl | tail
        · exact absurd otherKey.symm same
        · exact .inr ⟨other, tail, otherKey, out⟩

theorem mem_inserted {self : SubscriberSet K} {frame : Frame K} {holds : List Nat} {id : Nat}
    (begun : frame.firstNew ≤ self.nextSubscriberId) : id ∈ (self.record frame holds).inserted ↔ frame.firstNew ≤ id ∧
    id < self.nextSubscriberId ∧ self.emitterKey id = some frame.key := by
  simp only [record, List.mem_filter, List.mem_range'_1, decide_eq_true_eq]
  constructor
  · rintro ⟨⟨since, bound⟩, key⟩
    exact ⟨since, by omega, key⟩
  · rintro ⟨since, bound, key⟩
    exact ⟨⟨since, by omega⟩, key⟩

theorem InvOf.invokes {self : SubscriberSet K} {calls : List (Frame K × List Nat)} {frame : Frame K}
    (inv : InvOf self ((frame, []) :: calls)) (ledger : Ledger frame []) (holds : List Nat) :
    (self.record frame holds).Invokes := by
  obtain ⟨passed, callOk⟩ := inv.callOk (frame, []) List.mem_cons_self
  have turns : frame.turns.map Turn.id = frame.present := by simpa using ledger.turns
  refine ⟨turns, callOk.ordered, ledger.invoked, ?_⟩
  intro id inserted member
  have since := ((mem_inserted callOk.begun).mp inserted).1
  have found : id ∈ frame.turns.map Turn.id := by
    have invoked : id ∈ frame.invoked := member
    rw [ledger.invoked] at invoked
    exact (List.filter_sublist.map Turn.id).subset invoked
  have old := callOk.old id (turns ▸ found)
  omega

theorem InvOf.exact {self : SubscriberSet K} {calls : List (Frame K × List Nat)} {frame : Frame K}
    (inv : InvOf self ((frame, []) :: calls)) (clean : CleanOf self ((frame, []) :: calls)) :
    (self.record frame (extend frame.kept (self.held frame.key))).Exact := by
  obtain ⟨passed, callOk⟩ := inv.callOk (frame, []) List.mem_cons_self
  have passedEq : passed = frame.present := by simpa using callOk.present
  have merged := extend_eq_append (inv.sorted frame.key) inv.below
  have leftSorted : (extend frame.kept (self.held frame.key)).Pairwise (· < ·) := by
    rw [merged, List.pairwise_append]
    exact ⟨(passedEq ▸ callOk.ordered).sublist callOk.kept, inv.sorted frame.key, inv.below⟩
  have insertedSorted : ((self.record frame (extend frame.kept (self.held frame.key))).inserted).Pairwise
      (· < ·) := List.Pairwise.filter _ List.pairwise_lt_range'
  refine leftSorted.eq_of_mem_iff (List.Pairwise.filter _ (List.pairwise_append.mpr
    ⟨callOk.ordered, insertedSorted, ?_⟩)) ?_
  · intro id member other inserted
    exact lt_of_lt_of_le (callOk.old id member) ((mem_inserted callOk.begun).mp inserted).1
  · intro id
    rw [merged, List.mem_filter, List.mem_append, List.mem_append, mem_inserted callOk.begun,
      Bool.and_eq_true, Bool.not_eq_true', Bool.not_eq_true']
    constructor
    · rintro (kept | held)
      · have present : id ∈ frame.present := passedEq ▸ callOk.kept.subset kept
        exact ⟨.inl present, clean.kept (frame, []) List.mem_cons_self id kept, callOk.unrejected id (by simp [kept])⟩
      · obtain ⟨key, bound, unrejected⟩ := inv.known frame.key id held
        exact ⟨.inr ⟨inv.since (frame, []) List.mem_cons_self id held, bound, key⟩,
          clean.held frame.key id held, unrejected⟩
    · rintro ⟨present | ⟨since, bound, key⟩, undropped, unrejected⟩
      · have undropped : self.dropped id = false := undropped
        have unrejected : self.rejected id = false := unrejected
        rcases callOk.settled id (passedEq ▸ present) with kept | dropped | rejected
        · exact .inl kept
        · simp [undropped] at dropped
        · simp [unrejected] at rejected
      · rcases inv.found (frame, []) List.mem_cons_self id since bound key undropped unrejected with
          held | ⟨other, otherMember, otherKey, out⟩
        · exact .inr held
        · -- Every call in progress took its subscribers out before this one began.
          obtain ⟨otherPassed, otherOk⟩ := inv.callOk other otherMember
          have old : id < other.1.firstNew := by
            apply otherOk.old
            rw [← otherOk.present]
            rcases List.mem_append.mp out with kept | todo
            · exact List.mem_append_left _ (otherOk.kept.subset kept)
            · exact List.mem_append_right _ todo
          have begun : other.1.firstNew ≤ frame.firstNew := by
            rcases List.mem_cons.mp otherMember with rfl | tail
            · exact le_rfl
            · exact ((List.pairwise_cons.mp inv.nested).1 other tail).1
          have since : frame.firstNew ≤ id := since
          omega

theorem CleanOf.finish {self : SubscriberSet K} {calls : List (Frame K × List Nat)}
    {frame : Frame K} (inv : InvOf self ((frame, []) :: calls))
    (clean : CleanOf self ((frame, []) :: calls)) : CleanOf (self.finish frame) calls := by
  constructor
  · intro key id member
    by_cases same : key = frame.key
    · subst same
      rw [held_finish_self inv] at member
      rcases List.mem_append.mp member with kept | held
      · exact clean.kept (frame, []) List.mem_cons_self id kept
      · exact clean.held frame.key id held
    · rw [held_finish_of_ne self frame same] at member
      exact clean.held key id member
  · intro call callMember
    exact clean.kept call (List.mem_cons_of_mem _ callMember)
  · intro call member
    rcases List.mem_append.mp member with old | new
    · exact clean.finished call old
    · rw [List.mem_singleton.mp new]
      exact inv.exact clean

/-! ## The loop -/

omit [DecidableEq K] in
theorem CallOk.out_mem {self : SubscriberSet K} {frame : Frame K} {passed todo : List Nat}
    (callOk : CallOk self frame passed todo) {id : Nat} (out : id ∈ frame.kept ++ todo) : id ∈ frame.present := by
  rw [← callOk.present]
  rcases List.mem_append.mp out with kept | inTodo
  · exact List.mem_append_left _ (callOk.kept.subset kept)
  · exact List.mem_append_right _ inTodo

omit [DecidableEq K] in
theorem InvOf.apart {self : SubscriberSet K} {calls : List (Frame K × List Nat)} {frame : Frame K} {todo : List Nat}
    (inv : InvOf self ((frame, todo) :: calls)) {id : Nat} (member : id ∈ frame.present) : (∀ key, id ∉ self.held key) ∧
    ∀ call ∈ calls, id ∉ call.1.present := by
  obtain ⟨passed, callOk⟩ := inv.callOk (frame, todo) List.mem_cons_self
  have key := callOk.key id member
  have old : id < frame.firstNew := callOk.old id member
  constructor
  · intro other held
    obtain rfl : other = frame.key := by
      have otherKey := (inv.known other id held).1
      exact Option.some.inj (otherKey.symm.trans key)
    have since : frame.firstNew ≤ id := inv.since (frame, todo) List.mem_cons_self id held
    omega
  · intro call callMember present
    obtain ⟨otherPassed, otherOk⟩ := inv.callOk call (List.mem_cons_of_mem _ callMember)
    have same : call.1.key = frame.key := Option.some.inj ((otherOk.key id present).symm.trans key)
    have since := ((List.pairwise_cons.mp inv.nested).1 call callMember).2 same id member
    have otherOld := otherOk.old id present
    omega

omit [DecidableEq K] in
theorem InvOf.pass {self : SubscriberSet K} {calls : List (Frame K × List Nat)} {frame next : Frame K}
    {id : Nat} {rest : List Nat} {rejected : Nat → Bool}
    (inv : InvOf self ((frame, id :: rest) :: calls))
    (key : next.key = frame.key) (firstNew : next.firstNew = frame.firstNew)
    (present : next.present = frame.present)
    (others : ∀ other, other ≠ id → rejected other = self.rejected other)
    (kept : (next.kept = frame.kept ++ [id] ∧ rejected id = self.rejected id) ∨
      next.kept = frame.kept ∧ (self.dropped id = true ∨ rejected id = true)) :
    InvOf { self with rejected } ((next, rest) :: calls) := by
  obtain ⟨passed, callOk⟩ := inv.callOk (frame, id :: rest) List.mem_cons_self
  obtain ⟨nestedHead, nestedTail⟩ := List.pairwise_cons.mp inv.nested
  have idPresent : id ∈ frame.present := callOk.out_mem (by simp)
  obtain ⟨apartHeld, apartCalls⟩ := inv.apart idPresent
  have unrejected := callOk.unrejected id (by simp)
  -- The subscribers after this one differ from it.
  have distinct : id ∉ passed ∧ id ∉ rest := by
    have nodup := callOk.ordered.nodup
    rw [← callOk.present] at nodup
    simp only [List.nodup_append, List.nodup_cons] at nodup
    exact ⟨fun member => nodup.2.2 id member id List.mem_cons_self rfl, nodup.2.1.1⟩
  refine ⟨inv.sorted, ?_, ?_, ?_, ?_, ?_⟩
  · intro other otherId member
    obtain ⟨emitter, bound, otherUnrejected⟩ := inv.known other otherId member
    refine ⟨emitter, bound, ?_⟩
    rw [← otherUnrejected]
    exact others otherId fun same => apartHeld other (same ▸ member)
  · intro call member
    rcases List.mem_cons.mp member with rfl | tail
    · rw [key, firstNew]
      exact inv.since (frame, id :: rest) List.mem_cons_self
    · exact inv.since call (List.mem_cons_of_mem _ tail)
  · intro call member
    rcases List.mem_cons.mp member with rfl | tail
    · refine ⟨passed ++ [id], ?_⟩
      constructor
      · rw [present, List.append_assoc, List.singleton_append]
        exact callOk.present
      · rw [present]
        exact callOk.ordered
      · rw [present, firstNew]
        exact callOk.old
      · rw [present, key]
        exact callOk.key
      · rw [firstNew]
        exact callOk.begun
      · rcases kept with ⟨stays, -⟩ | ⟨goes, -⟩
        · rw [stays]
          exact callOk.kept.append (List.Sublist.refl _)
        · rw [goes]
          exact callOk.kept.trans (List.sublist_append_left _ _)
      · intro other member
        rcases List.mem_append.mp member with earlier | last
        · have differs : other ≠ id := fun same => distinct.1 (same ▸ earlier)
          rcases callOk.settled other earlier with inKept | dropped | gone
          · left
            rcases kept with ⟨stays, -⟩ | ⟨goes, -⟩
            · rw [stays]
              exact List.mem_append_left _ inKept
            · rw [goes]
              exact inKept
          · exact .inr (.inl dropped)
          · exact .inr (.inr ((others other differs).trans gone))
        · rw [List.mem_singleton.mp last]
          rcases kept with ⟨stays, -⟩ | ⟨-, gone⟩
          · exact .inl (by simp [stays])
          · exact .inr gone
      · intro other member
        by_cases same : other = id
        · subst same
          rcases kept with ⟨-, same⟩ | ⟨goes, -⟩
          · exact same.trans unrejected
          · rw [goes] at member
            rcases List.mem_append.mp member with inKept | inRest
            · exact absurd (callOk.kept.subset inKept) distinct.1
            · exact absurd inRest distinct.2
        · refine (others other same).trans (callOk.unrejected other ?_)
          rcases kept with ⟨stays, -⟩ | ⟨goes, -⟩
          · rw [stays, List.append_assoc, List.singleton_append] at member
            exact member
          · rw [goes] at member
            rcases List.mem_append.mp member with inKept | inRest
            · exact List.mem_append_left _ inKept
            · exact List.mem_append_right _ (List.mem_cons_of_mem id inRest)
    · obtain ⟨before, ok⟩ := inv.callOk call (List.mem_cons_of_mem _ tail)
      have same (other : Nat) (member : other ∈ call.1.present) : rejected other = self.rejected other :=
        others other fun same => apartCalls call tail (same ▸ member)
      refine ⟨before, ok.present, ok.ordered, ok.old, ok.key, ok.begun, ok.kept, ?_, ?_⟩
      · intro other earlier
        have member : other ∈ call.1.present := ok.present ▸ List.mem_append_left _ earlier
        rcases ok.settled other earlier with inKept | dropped | gone
        · exact .inl inKept
        · exact .inr (.inl dropped)
        · exact .inr (.inr ((same other member).trans gone))
      · intro other out
        exact (same other (ok.out_mem out)).trans (ok.unrejected other out)
  · refine List.pairwise_cons.mpr ⟨fun outer member => ?_, nestedTail⟩
    rw [key, firstNew, present]
    exact nestedHead outer member
  · intro call callMember other since bound emitter undropped otherUnrejected
    have unrejectedBefore : self.rejected other = false := by
      by_cases same : other = id
      · rw [same, unrejected]
      · exact (others other same).symm.trans otherUnrejected
    have located : other ∈ self.held call.1.key ∨ ∃ before ∈ (frame, id :: rest) :: calls,
        before.1.key = call.1.key ∧ other ∈ before.1.kept ++ before.2 := by
      rcases List.mem_cons.mp callMember with rfl | tail
      · rw [key] at emitter ⊢
        rw [firstNew] at since
        exact inv.found (frame, id :: rest) List.mem_cons_self other since bound emitter undropped unrejectedBefore
      · exact inv.found call (List.mem_cons_of_mem _ tail) other since bound emitter undropped unrejectedBefore
    rcases located with held | ⟨before, beforeMember, beforeKey, out⟩
    · exact .inl held
    · refine .inr ?_
      rcases List.mem_cons.mp beforeMember with rfl | tail
      · refine ⟨(next, rest), List.mem_cons_self, key.trans beforeKey, ?_⟩
        rcases kept with ⟨stays, -⟩ | ⟨goes, gone⟩
        · rw [stays, List.append_assoc, List.singleton_append]
          exact out
        · rw [goes]
          rcases List.mem_append.mp out with inKept | inTodo
          · exact List.mem_append_left _ inKept
          · rcases List.mem_cons.mp inTodo with rfl | inRest
            · rcases gone with dropped | rejectedNow
              · exact absurd (undropped.symm.trans dropped) (by decide)
              · exact absurd (otherUnrejected.symm.trans rejectedNow) (by decide)
            · exact List.mem_append_right _ inRest
      · exact ⟨before, List.mem_cons_of_mem _ tail, beforeKey, out⟩

/-! ## Up to the next callback -/

omit [DecidableEq K] in
theorem InvOf.unseen {self : SubscriberSet K} {calls : List (Frame K × List Nat)}
    (inv : InvOf self calls) (frames : List (Frame K)) (finished : List (Finished K))
    {active : Nat → Bool} : InvOf { self with frames, finished, active } calls := by
  refine ⟨inv.sorted, inv.known, inv.since, ?_, inv.nested, inv.found⟩
  intro call member
  obtain ⟨passed, ok⟩ := inv.callOk call member
  exact ⟨passed, ok.present, ok.ordered, ok.old, ok.key, ok.begun, ok.kept, ok.settled, ok.unrejected⟩

omit [DecidableEq K] in
theorem InvOf.reframe {self : SubscriberSet K} {calls : List (Frame K × List Nat)} {frame next : Frame K}
    {todo : List Nat} (inv : InvOf self ((frame, todo) :: calls)) (key : next.key = frame.key)
    (firstNew : next.firstNew = frame.firstNew) (present : next.present = frame.present) (kept : next.kept = frame.kept)
    (frames : List (Frame K)) : InvOf { self with frames } ((next, todo) :: calls) := by
  obtain ⟨passed, callOk⟩ := inv.callOk (frame, todo) List.mem_cons_self
  obtain ⟨nestedHead, nestedTail⟩ := List.pairwise_cons.mp inv.nested
  refine ⟨inv.sorted, inv.known, ?_, ?_, ?_, ?_⟩
  · intro call member
    rcases List.mem_cons.mp member with rfl | tail
    · rw [key, firstNew]
      exact inv.since (frame, todo) List.mem_cons_self
    · exact inv.since call (List.mem_cons_of_mem _ tail)
  · intro call member
    rcases List.mem_cons.mp member with rfl | tail
    · obtain ⟨presentEq, ordered, old, keys, begun, sublist, settled, unrejected⟩ := callOk
      refine ⟨passed, ?_⟩
      constructor <;> simp_all
    · obtain ⟨before, ok⟩ := inv.callOk call (List.mem_cons_of_mem _ tail)
      exact ⟨before, ok.present, ok.ordered, ok.old, ok.key, ok.begun, ok.kept, ok.settled, ok.unrejected⟩
  · refine List.pairwise_cons.mpr ⟨fun outer member => ?_, nestedTail⟩
    rw [key, firstNew, present]
    exact nestedHead outer member
  · intro call member id since bound emitter undropped unrejected
    have located : id ∈ self.held call.1.key ∨ ∃ other ∈ (frame, todo) :: calls,
        other.1.key = call.1.key ∧ id ∈ other.1.kept ++ other.2 := by
      rcases List.mem_cons.mp member with rfl | tail
      · rw [key] at emitter ⊢
        rw [firstNew] at since
        exact inv.found (frame, todo) List.mem_cons_self id since bound emitter undropped unrejected
      · exact inv.found call (List.mem_cons_of_mem _ tail) id since bound emitter undropped unrejected
    rcases located with held | ⟨other, otherMember, otherKey, out⟩
    · exact .inl held
    · refine .inr ?_
      rcases List.mem_cons.mp otherMember with rfl | tail
      · exact ⟨(next, todo), List.mem_cons_self, key.trans otherKey, by rwa [kept]⟩
      · exact ⟨other, List.mem_cons_of_mem _ tail, otherKey, out⟩

omit [DecidableEq K] in
theorem Ledger.turn {frame next : Frame K} {id : Nat} {rest : List Nat}
    (ledger : Ledger frame (id :: rest)) {active dropped : Bool}
    (present : next.present = frame.present)
    (turns : next.turns = frame.turns ++ [⟨id, active, dropped⟩])
    (invoked : next.invoked = frame.invoked ++ if active && !dropped then [id] else []) :
    Ledger next rest := by
  constructor
  · rw [turns, present, List.map_append, List.append_assoc]
    exact ledger.turns
  · rw [invoked, turns, List.filter_append, List.map_append, ledger.invoked]
    cases active <;> cases dropped <;> rfl

theorem InvOf.advance {self : SubscriberSet K} {frame : Frame K} {todo : List Nat}
    (inv : InvOf self ((frame, todo) :: self.calls)) (ledger : Ledger frame todo)
    (ledgers : ∀ frame ∈ self.frames, Ledger frame frame.remaining)
    (finished : ∀ call ∈ self.finished, call.Invokes) : Inv (self.advance frame todo) := by
  induction todo generalizing frame with
  | nil =>
    refine ⟨inv.finish, ledgers, ?_⟩
    intro call member
    rcases List.mem_append.mp member with old | new
    · exact finished call old
    · rw [List.mem_singleton.mp new]
      exact inv.invokes ledger _
  | cons id rest ih =>
    unfold SubscriberSet.advance
    dsimp only
    split
    · rename_i inactive
      apply ih
      · exact inv.pass rfl rfl rfl (fun _ _ => rfl) (.inl ⟨rfl, rfl⟩)
      · exact ledger.turn rfl rfl (by simp_all)
    · split
      · rename_i dropped
        apply ih
        · exact inv.pass rfl rfl rfl (fun _ _ => rfl) (.inr ⟨rfl, .inl dropped⟩)
        · exact ledger.turn rfl rfl (by simp_all)
      · refine ⟨inv.reframe (by rfl) (by rfl) (by rfl) (by rfl) _, ?_, finished⟩
        · intro other member
          rcases List.mem_cons.mp member with rfl | old
          · exact ledger.turn rfl rfl (by simp_all)
          · exact ledgers other old

theorem CleanOf.advance {self : SubscriberSet K} {frame : Frame K} {todo : List Nat}
    (inv : InvOf self ((frame, todo) :: self.calls))
    (clean : CleanOf self ((frame, todo) :: self.calls))
    (passable : ∀ id ∈ todo.takeWhile fun id => !self.active id || self.dropped id,
      self.active id = true ∨ self.dropped id = false) :
    CleanOf (self.advance frame todo) (self.advance frame todo).calls := by
  induction todo generalizing frame with
  | nil => exact clean.finish inv
  | cons id rest ih =>
    have keeps (kept : List Nat) (undropped : ∀ other ∈ kept, self.dropped other = false) (next : Frame K)
        (nextKept : next.kept = kept) (left : List Nat) : CleanOf self ((next, left) :: self.calls) := by
      refine ⟨clean.held, ?_, clean.finished⟩
      intro call member
      rcases List.mem_cons.mp member with rfl | tail
      · rw [nextKept]
        exact undropped
      · exact clean.kept call (List.mem_cons_of_mem _ tail)
    have before := clean.kept (frame, id :: rest) List.mem_cons_self
    unfold SubscriberSet.advance
    dsimp only
    split
    · rename_i inactive
      have inactive : self.active id = false := by simpa using inactive
      rw [List.takeWhile_cons_of_pos (by simp [inactive])] at passable
      refine ih (inv.pass rfl rfl rfl (fun _ _ => rfl) (.inl ⟨rfl, rfl⟩)) ?_
        (fun other member => passable other (List.mem_cons_of_mem id member))
      refine keeps (frame.kept ++ [id]) ?_ _ rfl _
      intro other member
      rcases List.mem_append.mp member with inKept | last
      · exact before other inKept
      · rw [List.mem_singleton.mp last]
        rcases passable id List.mem_cons_self with active | undropped
        · exact absurd (inactive.symm.trans active) (by decide)
        · exact undropped
    · split
      · rename_i dropped
        rw [List.takeWhile_cons_of_pos (by simp [dropped])] at passable
        exact ih (inv.pass rfl rfl rfl (fun _ _ => rfl) (.inr ⟨rfl, .inl dropped⟩))
          (keeps frame.kept before _ (by rfl) _)
          (fun other member => passable other (List.mem_cons_of_mem id member))
      · have pushed := keeps frame.kept before
          { frame with
            turns := frame.turns ++ [⟨id, self.active id, self.dropped id⟩]
            invoked := frame.invoked ++ [id]
            running := id
            remaining := rest } rfl (id :: rest)
        exact ⟨pushed.held, pushed.kept, pushed.finished⟩

/-! ## Every step -/

theorem held_insert (self : SubscriberSet K) (inv : InvOf self self.calls) (emitterKey key : K) :
    (self.insert emitterKey).held key =
      if key = emitterKey then self.held key ++ [self.nextSubscriberId] else self.held key := by
  split
  · rename_i same
    subst same
    have below := fun id member => (inv.known key id member).2.1
    rw [← orderedInsert_of_lt below]
    simp [SubscriberSet.insert, held]
  · rename_i differ
    simp [SubscriberSet.insert, held, Function.update_of_ne differ]

theorem Inv.insert {self : SubscriberSet K} (inv : Inv self) (emitterKey : K) : Inv (self.insert emitterKey) := by
  have table := held_insert self inv.inv emitterKey
  have old (id : Nat) (bound : id < self.nextSubscriberId) :
      (self.insert emitterKey).emitterKey id = self.emitterKey id ∧
      (self.insert emitterKey).dropped id = self.dropped id ∧
      (self.insert emitterKey).rejected id = self.rejected id := by
    have differ : id ≠ self.nextSubscriberId := by omega
    simp [SubscriberSet.insert, Function.update_of_ne differ]
  have fresh : (self.insert emitterKey).emitterKey self.nextSubscriberId = some emitterKey ∧
      (self.insert emitterKey).rejected self.nextSubscriberId = false := by
    simp [SubscriberSet.insert]
  have next : (self.insert emitterKey).nextSubscriberId = self.nextSubscriberId + 1 := rfl
  refine ⟨⟨?_, ?_, ?_, ?_, inv.inv.nested, ?_⟩, inv.ledger, inv.finished⟩
  · intro key
    rw [table]
    split
    · refine List.pairwise_append.mpr ⟨inv.inv.sorted key, List.pairwise_singleton _ _, ?_⟩
      intro id member other last
      rw [List.mem_singleton.mp last]
      exact (inv.inv.known key id member).2.1
    · exact inv.inv.sorted key
  · intro key id member
    have known (heldBefore : id ∈ self.held key) : (self.insert emitterKey).emitterKey id = some key ∧
        id < (self.insert emitterKey).nextSubscriberId ∧ (self.insert emitterKey).rejected id = false := by
      obtain ⟨emitter, bound, unrejected⟩ := inv.inv.known key id heldBefore
      obtain ⟨sameEmitter, -, sameRejected⟩ := old id bound
      exact ⟨sameEmitter.trans emitter, by omega, sameRejected.trans unrejected⟩
    rw [table] at member
    split at member
    · rename_i same
      rcases List.mem_append.mp member with heldBefore | last
      · exact known heldBefore
      · rw [List.mem_singleton.mp last]
        exact ⟨same ▸ fresh.1, by omega, fresh.2⟩
    · exact known member
  · intro call callMember id member
    rw [table] at member
    split at member
    · rcases List.mem_append.mp member with heldBefore | last
      · exact inv.inv.since call callMember id heldBefore
      · rw [List.mem_singleton.mp last]
        obtain ⟨passed, callOk⟩ := inv.inv.callOk call callMember
        exact callOk.begun
    · exact inv.inv.since call callMember id member
  · intro call callMember
    obtain ⟨passed, callOk⟩ := inv.inv.callOk call callMember
    have same (id : Nat) (member : id ∈ call.1.present) := old id (lt_of_lt_of_le (callOk.old id member) callOk.begun)
    refine ⟨passed, callOk.present, callOk.ordered, callOk.old, ?_, ?_, callOk.kept, ?_, ?_⟩
    · intro id member
      exact (same id member).1.trans (callOk.key id member)
    · have begun := callOk.begun
      omega
    · intro id member
      obtain ⟨-, sameDropped, sameRejected⟩ := same id (callOk.present ▸ List.mem_append_left _ member)
      rw [sameDropped, sameRejected]
      exact callOk.settled id member
    · intro id out
      exact (same id (callOk.out_mem out)).2.2.trans (callOk.unrejected id out)
  · intro call callMember id since bound emitter undropped unrejected
    by_cases last : id = self.nextSubscriberId
    · subst last
      left
      have same : call.1.key = emitterKey := Option.some.inj (emitter.symm.trans fresh.1)
      rw [table, if_pos same]
      exact List.mem_append_right _ (List.mem_singleton_self _)
    · have bound : id < self.nextSubscriberId := by omega
      obtain ⟨sameEmitter, sameDropped, sameRejected⟩ := old id bound
      rcases inv.inv.found call callMember id since bound (sameEmitter.symm.trans emitter)
        (sameDropped.symm.trans undropped) (sameRejected.symm.trans unrejected) with heldBefore | out
      · left
        rw [table]
        split
        · exact List.mem_append_left _ heldBefore
        · exact heldBefore
      · exact .inr out

theorem drop_spec (self : SubscriberSet K) (inv : InvOf self self.calls) {id : Nat} {emitterKey : K}
    (emitter : self.emitterKey id = some emitterKey) :
    (∀ key, (self.drop id).held key = (self.held key).erase id) ∧ self.drop id = { self with
        subscribers := (self.drop id).subscribers
        dropped := Function.update self.dropped id true } := by
  have absent (key : K) (differ : key ≠ emitterKey) : id ∉ self.held key := fun member =>
    differ (Option.some.inj ((inv.known key id member).1.symm.trans emitter))
  simp only [SubscriberSet.drop, emitter]
  split
  · rename_i subscribers entry
    refine ⟨fun key => ?_, rfl⟩
    by_cases same : key = emitterKey
    · subst same
      rw [held_put_self]
      simp only [held, entry, Option.getD_some]
    · rw [held_put_of_ne _ same, List.erase_of_not_mem (absent key same)]
      rfl
  · rename_i missing
    refine ⟨fun key => ?_, rfl⟩
    by_cases same : key = emitterKey
    · subst same
      have empty : self.held key = [] := by
        unfold held
        rcases entry : self.subscribers key with _ | _ | subscribers
        · rfl
        · rfl
        · exact absurd entry (missing subscribers)
      rw [empty]
      exact empty
    · rw [List.erase_of_not_mem (absent key same)]
      rfl

theorem Inv.drop {self : SubscriberSet K} (inv : Inv self) (id : Nat) : Inv (self.drop id) := by
  cases emitter : self.emitterKey id with
  | none => simpa [SubscriberSet.drop, emitter] using inv
  | some emitterKey =>
    obtain ⟨table, same⟩ := drop_spec self inv.inv emitter
    have subset (key : K) : (self.drop id).held key ⊆ self.held key := by
      rw [table]
      exact List.erase_subset
    generalize self.drop id = next at table same subset ⊢
    have dropped (other : Nat) (before : self.dropped other = true) : next.dropped other = true := by
      rw [same]
      by_cases this : other = id
      · simp [this]
      · simpa [Function.update_of_ne this] using before
    have undropped (other : Nat) (after : next.dropped other = false) : self.dropped other = false ∧ other ≠ id := by
      refine ⟨?_, ?_⟩
      · by_contra before
        rw [dropped other (by simpa using before)] at after
        exact absurd after (by decide)
      · rintro rfl
        rw [same] at after
        simp at after
    have flags : next.emitterKey = self.emitterKey ∧ next.rejected = self.rejected ∧
        next.nextSubscriberId = self.nextSubscriberId ∧ next.frames = self.frames ∧
        next.finished = self.finished := by
      rw [same]
      exact ⟨rfl, rfl, rfl, rfl, rfl⟩
    obtain ⟨emitters, rejected, count, frames, finished⟩ := flags
    have calls : next.calls = self.calls := by simp [calls, frames]
    refine ⟨?_, by rw [frames]; exact inv.ledger, by rw [finished]; exact inv.finished⟩
    rw [calls]
    refine ⟨?_, ?_, ?_, ?_, inv.inv.nested, ?_⟩
    · intro key
      rw [table]
      exact (inv.inv.sorted key).sublist List.erase_sublist
    · intro key other member
      rw [emitters, count, rejected]
      exact inv.inv.known key other (subset key member)
    · intro call callMember other member
      exact inv.inv.since call callMember other (subset _ member)
    · intro call callMember
      obtain ⟨passed, callOk⟩ := inv.inv.callOk call callMember
      refine ⟨passed, callOk.present, callOk.ordered, callOk.old, ?_, ?_, callOk.kept, ?_, ?_⟩
      · rw [emitters]
        exact callOk.key
      · rw [count]
        exact callOk.begun
      · intro other member
        rw [rejected]
        exact (callOk.settled other member).imp_right (Or.imp_left (dropped other))
      · rw [rejected]
        exact callOk.unrejected
    · intro call callMember other since bound emitterOther after unrejected
      rw [emitters] at emitterOther
      rw [count] at bound
      rw [rejected] at unrejected
      obtain ⟨before, differ⟩ := undropped other after
      rw [table, List.mem_erase_of_ne differ]
      exact inv.inv.found call callMember other since bound emitterOther before unrejected

theorem held_update (self : SubscriberSet K) (emitter key : K) {entry : Option (Option (List Nat))}
    (empty : (entry.getD none).getD [] = []) :
    held { self with subscribers := Function.update self.subscribers emitter entry } key =
      if key = emitter then [] else self.held key := by
  split
  · rename_i same
    simp [held, same, empty]
  · rename_i differ
    simp [held, Function.update_of_ne differ]

theorem Inv.remove {self : SubscriberSet K} (inv : Inv self) (idle : self.frames = []) (emitter : K) :
    Inv (self.remove emitter).1 := by
  have table := fun key => held_update self emitter key (show (none.getD none).getD [] = [] from rfl)
  have calls : (self.remove emitter).1.calls = [] := by simp [SubscriberSet.remove, calls, idle]
  refine ⟨?_, inv.ledger, inv.finished⟩
  rw [calls]
  refine ⟨?_, ?_, by simp, by simp, .nil, by simp⟩
  · intro key
    rw [SubscriberSet.remove, table]
    split
    · exact .nil
    · exact inv.inv.sorted key
  · intro key id member
    rw [SubscriberSet.remove, table] at member
    split at member
    · simp at member
    · exact inv.inv.known key id member

theorem InvOf.begin {self : SubscriberSet K} {calls : List (Frame K × List Nat)} (inv : InvOf self calls) {emitter : K}
    {subscribers : List Nat} (entry : self.subscribers emitter = some (some subscribers)) :
    InvOf { self with subscribers := Function.update self.subscribers emitter (some none) }
    ((self.begin emitter subscribers, subscribers) :: calls) := by
  have table := fun key => held_update self emitter key (show ((some none).getD none).getD [] = [] from rfl)
  have taken : self.held emitter = subscribers := by simp [held, entry]
  have known := taken ▸ inv.known emitter
  refine ⟨?_, ?_, ?_, ?_, ?_, ?_⟩
  · intro key
    rw [table]
    split
    · exact .nil
    · exact inv.sorted key
  · intro key id member
    rw [table] at member
    split at member
    · simp at member
    · exact inv.known key id member
  · intro call callMember id member
    rw [table] at member
    split at member
    · simp at member
    · rename_i differ
      rcases List.mem_cons.mp callMember with rfl | tail
      · exact absurd rfl differ
      · exact inv.since call tail id member
  · intro call callMember
    rcases List.mem_cons.mp callMember with rfl | tail
    · refine ⟨[], rfl, taken ▸ inv.sorted emitter, ?_, ?_, le_rfl, List.Sublist.refl _, by simp, ?_⟩
      · intro id member
        exact (known id member).2.1
      · intro id member
        exact (known id member).1
      · intro id member
        exact (known id member).2.2
    · obtain ⟨passed, ok⟩ := inv.callOk call tail
      exact ⟨passed, ok.present, ok.ordered, ok.old, ok.key, ok.begun, ok.kept, ok.settled, ok.unrejected⟩
  · refine List.pairwise_cons.mpr ⟨fun outer member => ⟨?_, fun same id present => ?_⟩, inv.nested⟩
    · obtain ⟨passed, ok⟩ := inv.callOk outer member
      exact ok.begun
    · apply inv.since outer member
      rw [same, show (self.begin emitter subscribers).key = emitter from rfl, taken]
      exact present
  · intro call callMember id since bound key undropped unrejected
    rcases List.mem_cons.mp callMember with rfl | tail
    · exact absurd since (not_le.mpr bound)
    · rcases inv.found call tail id since bound key undropped unrejected with held | ⟨other, out⟩
      · by_cases same : call.1.key = emitter
        · refine .inr ⟨_, List.mem_cons_self, same.symm, ?_⟩
          rw [same, taken] at held
          exact List.mem_append_right _ held
        · left
          rw [table, if_neg same]
          exact held
      · exact .inr ⟨other, List.mem_cons_of_mem _ out.1, out.2⟩

theorem Inv.retain {self : SubscriberSet K} (inv : Inv self) (emitter : K) : Inv (self.retain emitter) := by
  unfold SubscriberSet.retain
  split
  · rename_i subscribers entry
    exact InvOf.advance (inv.inv.begin entry) ⟨rfl, rfl⟩ inv.ledger inv.finished
  · refine ⟨inv.inv.unseen self.frames _, inv.ledger, ?_⟩
    · intro call member
      rcases List.mem_append.mp member with old | new
      · exact inv.finished call old
      · rw [List.mem_singleton.mp new]
        refine ⟨rfl, .nil, rfl, ?_⟩
        intro id _ impossible
        cases impossible

omit [DecidableEq K] in
theorem InvOf.returned {self : SubscriberSet K} {calls : List (Frame K × List Nat)} {frame : Frame K}
    (inv : InvOf self ((frame, frame.running :: frame.remaining) :: calls)) (keep : Bool)
    (frames : List (Frame K)) :
    InvOf { self with
        frames
        rejected := if keep then self.rejected else Function.update self.rejected frame.running true }
      (({ frame with kept := if keep && !self.dropped frame.running then
          frame.kept ++ [frame.running] else frame.kept }, frame.remaining) :: calls) := by
  have passed : InvOf
      { self with rejected :=
          (if keep then self.rejected else Function.update self.rejected frame.running true) }
      (({ frame with kept := if keep && !self.dropped frame.running then
          frame.kept ++ [frame.running] else frame.kept }, frame.remaining) :: calls) := by
    refine inv.pass ?_ ?_ ?_ ?_ ?_ <;> try rfl
    · intro other differ
      cases keep with
      | true => rfl
      | false => simp [Function.update_of_ne differ]
    · cases keep with
      | false => exact .inr ⟨rfl, .inr (by simp)⟩
      | true =>
        cases dropped : self.dropped frame.running with
        | false => exact .inl ⟨by simp, rfl⟩
        | true => exact .inr ⟨by simp, .inl rfl⟩
  exact passed.unseen frames self.finished

theorem Inv.callbackReturns {self : SubscriberSet K} (inv : Inv self) (keep : Bool) :
    Inv (self.callbackReturns keep) := by
  unfold SubscriberSet.callbackReturns
  split
  · exact inv
  · rename_i frame frames stack
    have ledgers := inv.ledger
    have top := inv.inv
    rw [calls, stack, List.map_cons] at top
    rw [stack] at ledgers
    refine InvOf.advance (top.returned keep frames) ?_ ?_ inv.finished
    · have ledger := ledgers frame List.mem_cons_self
      exact ⟨ledger.turns, ledger.invoked⟩
    · intro other member
      exact ledgers other (List.mem_cons_of_mem frame member)

/-! ## Nothing dropped is kept -/

theorem step_inv {self : SubscriberSet K} (inv : Inv self) (step : Step K) : Inv (self.step step) := by
  cases step with
  | insert emitterKey => exact inv.insert emitterKey
  | activate id => exact ⟨inv.inv.unseen _ _, inv.ledger, inv.finished⟩
  | drop id => exact inv.drop id
  | remove emitter =>
    simp only [SubscriberSet.step]
    split
    · rename_i idle
      exact inv.remove idle emitter
    · exact inv
  | retain emitter => exact inv.retain emitter
  | callbackReturns keep => exact inv.callbackReturns keep

omit [DecidableEq K] in
theorem Inv.kept_turned {self : SubscriberSet K} (inv : Inv self) {frame : Frame K}
    (inFrames : frame ∈ self.frames) {id : Nat} (member : id ∈ frame.kept) :
    id ∈ frame.turns.map Turn.id ∧ id ≠ frame.running ∧ self.rejected id = false := by
  obtain ⟨passed, callOk⟩ := inv.inv.callOk _ (List.mem_map_of_mem inFrames)
  have earlier : id ∈ passed := callOk.kept.subset member
  have turns : frame.turns.map Turn.id = passed ++ [frame.running] := by
    have same : frame.turns.map Turn.id ++ frame.remaining = (passed ++ [frame.running]) ++ frame.remaining := by
      rw [(inv.ledger frame inFrames).turns, ← callOk.present, List.append_assoc]
      rfl
    exact List.append_cancel_right same
  refine ⟨?_, ?_, callOk.unrejected id (List.mem_append_left _ member)⟩
  · rw [turns]
    exact List.mem_append_left _ earlier
  · rintro rfl
    have nodup := callOk.ordered.nodup
    rw [← callOk.present] at nodup
    exact (List.nodup_append.mp nodup).2.2 _ earlier _ List.mem_cons_self rfl

theorem step_clean {self : SubscriberSet K} (inv : Inv self) (clean : CleanOf self self.calls) {step : Step K}
    (permitted : self.Permits step) : CleanOf (self.step step) (self.step step).calls := by
  cases step with
  | insert emitterKey =>
    have table := held_insert self inv.inv emitterKey
    have old (id : Nat) (bound : id < self.nextSubscriberId) :
        (self.insert emitterKey).dropped id = self.dropped id := by
      simp [SubscriberSet.insert, Function.update_of_ne (show id ≠ self.nextSubscriberId by omega)]
    refine ⟨?_, ?_, clean.finished⟩
    · intro key id member
      simp only [SubscriberSet.step, table] at member ⊢
      split at member
      · rcases List.mem_append.mp member with heldBefore | last
        · exact (old id (inv.inv.known key id heldBefore).2.1).trans (clean.held key id heldBefore)
        · rw [List.mem_singleton.mp last]
          simp [SubscriberSet.insert]
      · exact (old id (inv.inv.known key id member).2.1).trans (clean.held key id member)
    · intro call callMember id member
      obtain ⟨passed, callOk⟩ := inv.inv.callOk call callMember
      have bound := callOk.old id (callOk.out_mem (List.mem_append_left _ member))
      exact (old id (lt_of_lt_of_le bound callOk.begun)).trans (clean.kept call callMember id member)
  | activate id => exact ⟨clean.held, clean.kept, clean.finished⟩
  | drop id =>
    simp only [SubscriberSet.step]
    cases emitter : self.emitterKey id with
    | none => simpa [SubscriberSet.drop, emitter] using clean
    | some emitterKey =>
      obtain ⟨table, same⟩ := drop_spec self inv.inv emitter
      have undropped (other : Nat) (before : self.dropped other = false) (differ : other ≠ id) :
          (self.drop id).dropped other = false := by
        rw [same]
        simpa [Function.update_of_ne differ] using before
      have calls : (self.drop id).calls = self.calls := by
        rw [same]
        rfl
      rw [calls]
      refine ⟨?_, ?_, ?_⟩
      · intro key other member
        rw [table] at member
        have distinct := List.Nodup.mem_erase_iff (inv.inv.sorted key).nodup |>.mp member
        exact undropped other (clean.held key other distinct.2) distinct.1
      · intro call callMember other member
        refine undropped other (clean.kept call callMember other member) ?_
        rintro rfl
        obtain ⟨frame, inFrames, rfl⟩ := List.mem_map.mp callMember
        obtain ⟨turned, waits, unrejected⟩ := inv.kept_turned inFrames member
        exact absurd (unrejected.symm.trans (permitted frame inFrames turned waits)) (by decide)
      · rw [same]
        exact clean.finished
  | remove emitter =>
    simp only [SubscriberSet.step]
    split
    · have table := fun key =>
        held_update self emitter key (show (none.getD none).getD [] = [] from rfl)
      refine ⟨?_, clean.kept, clean.finished⟩
      intro key id member
      rw [SubscriberSet.remove, table] at member
      split at member
      · simp at member
      · exact clean.held key id member
    · exact clean
  | retain emitter =>
    simp only [SubscriberSet.step, SubscriberSet.retain]
    split
    · rename_i subscribers entry
      have taken : self.held emitter = subscribers := by simp [held, entry]
      have table := fun key =>
        held_update self emitter key (show ((some none).getD none).getD [] = [] from rfl)
      refine CleanOf.advance (inv.inv.begin entry) ?_ ?_
      · refine ⟨?_, ?_, clean.finished⟩
        · intro key id member
          rw [table] at member
          split at member
          · simp at member
          · exact clean.held key id member
        · intro call callMember
          rcases List.mem_cons.mp callMember with rfl | tail
          · intro id impossible
            cases impossible
          · exact clean.kept call tail
      · intro id member
        right
        exact clean.held emitter id (taken ▸ List.takeWhile_subset _ member)
    · refine ⟨clean.held, clean.kept, ?_⟩
      intro call member
      rcases List.mem_append.mp member with old | new
      · exact clean.finished call old
      · rw [List.mem_singleton.mp new]
        simp [Finished.Exact, record, begin]
  | callbackReturns keep =>
    simp only [SubscriberSet.step, SubscriberSet.callbackReturns]
    split
    · exact clean
    · rename_i frame frames stack
      have top := inv.inv
      have kept := clean.kept
      rw [calls, stack, List.map_cons] at top kept
      refine CleanOf.advance (top.returned keep frames) ?_ ?_
      · refine ⟨clean.held, ?_, clean.finished⟩
        intro call callMember
        rcases List.mem_cons.mp callMember with rfl | tail
        · intro id member
          have before := kept _ List.mem_cons_self
          dsimp only at member
          split at member
          · rename_i stays
            rcases List.mem_append.mp member with inKept | last
            · exact before id inKept
            · rw [List.mem_singleton.mp last]
              simp_all
          · exact before id member
        · exact kept call (List.mem_cons_of_mem _ tail)
      · intro id member
        apply permitted
        rw [upcoming, stack]
        exact member

/-! ## Whole runs -/

omit [DecidableEq K] in
theorem new_inv : Inv ({} : SubscriberSet K) :=
  ⟨⟨fun _ => .nil, by simp [held], by simp [calls], by simp [calls], .nil, by simp [calls]⟩, by simp, by simp⟩

theorem run_inv {self : SubscriberSet K} (inv : Inv self) (steps : List (Step K)) : Inv (self.run steps) := by
  induction steps generalizing self with
  | nil => exact inv
  | cons step rest ih => exact ih (step_inv inv step)

theorem run_clean {self : SubscriberSet K} {steps : List (Step K)} (permitted : self.Permitted steps) (inv : Inv self)
    (clean : CleanOf self self.calls) : CleanOf (self.run steps) (self.run steps).calls := by
  induction steps generalizing self with
  | nil => exact clean
  | cons step rest ih =>
    exact ih permitted.2 (step_inv inv step) (step_clean inv clean permitted.1)

/-- Every call of every run invokes whom it should; it leaves what it should if the run is a permitted
one. -/
theorem retain_contract (steps : List (Step K)) : (∀ call ∈ (({} : SubscriberSet K).run steps).finished, call.Invokes) ∧
    (({} : SubscriberSet K).Permitted steps → ∀ call ∈ (({} : SubscriberSet K).run steps).finished, call.Exact) := by
  refine ⟨(run_inv new_inv steps).finished, fun permitted => ?_⟩
  exact (run_clean permitted new_inv ⟨by simp [held], by simp [calls], by simp⟩).finished

/-- The first callback drops its own subscription and inserts another one. -/
theorem retain_contract_selfDrop :
    ∀ call ∈ (({} : SubscriberSet Unit).run [.insert (), .activate 0, .insert (), .activate 1, .retain (),
      .drop 0, .insert (), .retain (), .callbackReturns true, .callbackReturns true]).finished,
      call.Exact := by
  apply (retain_contract _).2
  refine ⟨trivial, trivial, trivial, trivial, trivial, ?_, trivial, trivial, ?_, ?_, trivial⟩ <;>
    decide

/-- The second callback drops the subscription of the first, which has had its turn. -/
theorem retain_keeps_dropped :
    ¬ ∀ call ∈ (({} : SubscriberSet Unit).run [.insert (), .activate 0, .insert (), .activate 1,
      .retain (), .callbackReturns true, .drop 0, .callbackReturns true]).finished, call.Exact := by
  decide

end SubscriberSet

end Pinrail.App

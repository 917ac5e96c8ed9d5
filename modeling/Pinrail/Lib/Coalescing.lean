import Mathlib.Data.Finset.Basic
import Mathlib.Data.List.Chain

/-!
# Coalescing queues

A queue in which an item with a key waits at most once: asking for it again while it waits does
nothing. Items without a key always wait.
-/

namespace Pinrail.Lib

variable {α κ : Type} [DecidableEq κ] {key : α → Option κ}

structure Coalescing (α κ : Type) where
  items : List α
  waiting : Finset κ

inductive QueueEvent (α : Type) where
  | asked (item : α)
  | took (item : α)

namespace Coalescing

def ask (key : α → Option κ) (item : α) (self : Coalescing α κ) : Coalescing α κ :=
  match key item with
  | none => { self with items := self.items ++ [item] }
  | some k => if k ∈ self.waiting then self else ⟨self.items ++ [item], insert k self.waiting⟩

def take (key : α → Option κ) (self : Coalescing α κ) : Option (α × Coalescing α κ) :=
  match self.items with
  | [] => none
  | item :: items => some (item, ⟨items, match key item with
      | none => self.waiting
      | some k => self.waiting.erase k⟩)

structure Consistent (key : α → Option κ) (queue : Coalescing α κ) : Prop where
  waiting (k : κ) : k ∈ queue.waiting ↔ k ∈ queue.items.filterMap key
  once : (queue.items.filterMap key).Nodup

omit [DecidableEq κ] in
theorem Consistent.empty : Consistent key ⟨[], ∅⟩ := ⟨by simp, by simp⟩

theorem Consistent.ask {self : Coalescing α κ} (consistent : Consistent key self) (item : α) :
    Consistent key (ask key item self) := by
  obtain ⟨waiting, once⟩ := consistent
  rw [Coalescing.ask]
  cases keyed : key item with
  | none => exact ⟨by simpa [keyed] using waiting, by simpa [keyed] using once⟩
  | some k =>
    dsimp only
    split_ifs with waits
    · exact ⟨waiting, once⟩
    · refine ⟨?_, ?_⟩
      · intro other
        simp only [Finset.mem_insert, waiting, List.filterMap_append, List.mem_append, List.filterMap_cons, keyed,
          List.filterMap_nil, List.mem_singleton, or_comm]
      · simp only [List.filterMap_append, List.filterMap_cons, keyed, List.filterMap_nil]
        exact once.append (List.nodup_singleton k) (by simpa using (waiting k).not.mp waits)

theorem Consistent.take {self after : Coalescing α κ} {item : α} (consistent : Consistent key self)
    (taken : take key self = some (item, after)) : Consistent key after := by
  obtain ⟨waiting, once⟩ := consistent
  rw [Coalescing.take] at taken
  cases eq : self.items with
  | nil => simp [eq] at taken
  | cons first items =>
    rw [eq] at taken waiting once
    cases taken
    cases keyed : key item with
    | none =>
      simp only [List.filterMap_cons, keyed] at waiting once
      exact ⟨waiting, once⟩
    | some k =>
      simp only [List.filterMap_cons, keyed, List.nodup_cons] at waiting once
      refine ⟨?_, once.2⟩
      intro other
      rw [Finset.mem_erase, waiting, List.mem_cons]
      constructor
      · rintro ⟨ne, rfl | rest⟩
        · exact absurd rfl ne
        · exact rest
      · intro rest
        exact ⟨fun same => once.1 (same ▸ rest), .inr rest⟩

/-! ## Histories -/

inductive Reached (key : α → Option κ) : List (QueueEvent α) → Coalescing α κ → Prop where
  | empty : Reached key [] ⟨[], ∅⟩
  | asked {events : List (QueueEvent α)} {self : Coalescing α κ} (before : Reached key events self) (item : α) :
      Reached key (events ++ [.asked item]) (ask key item self)
  | took {events : List (QueueEvent α)} {self after : Coalescing α κ} {item : α} (before : Reached key events self)
      (taken : take key self = some (item, after)) : Reached key (events ++ [.took item]) after

def asks (events : List (QueueEvent α)) : List α :=
  events.filterMap fun
    | .asked item => some item
    | .took _ => none

def takes (events : List (QueueEvent α)) : List α :=
  events.filterMap fun
    | .asked _ => none
    | .took item => some item

variable {events : List (QueueEvent α)} {self after : Coalescing α κ} {item : α} {k : κ}

theorem Reached.consistent (reached : Reached key events self) : Consistent key self := by
  induction reached with
  | empty => exact .empty
  | asked before item ih => exact ih.ask item
  | took before taken ih => exact ih.take taken

theorem take_items (taken : take key self = some (item, after)) : self.items = item :: after.items := by
  rw [take] at taken
  split at taken
  · cases taken
  · cases taken
    assumption

theorem ask_cases (key : α → Option κ) (item : α) (self : Coalescing α κ) :
    (ask key item self).items = self.items ++ [item] ∨
    (ask key item self = self ∧ ∃ k, key item = some k ∧ k ∈ self.waiting) := by
  rw [ask]
  split
  · exact .inl rfl
  · split_ifs with waits
    · exact .inr ⟨rfl, _, by assumption, waits⟩
    · exact .inl rfl

theorem Reached.fifo (reached : Reached key events self) : (takes events ++ self.items).Sublist (asks events) ∧
      (takes events ++ self.items).filter (fun item => (key item).isNone) =
        (asks events).filter fun item => (key item).isNone := by
  induction reached with
  | empty => exact ⟨.slnil, rfl⟩
  | @asked events self before item ih =>
    obtain ⟨order, all⟩ := ih
    simp only [takes, asks, List.filterMap_append, List.filterMap_cons, List.filterMap_nil, List.append_nil] at order all ⊢
    rcases ask_cases key item self with items | ⟨same, k, keyed, -⟩
    · rw [items, ← List.append_assoc]
      exact ⟨order.append (.refl _), by rw [List.filter_append, all, List.filter_append]⟩
    · rw [same]
      exact ⟨order.trans (List.sublist_append_left _ _), by rw [all, List.filter_append]; simp [keyed]⟩
  | @took events self after item before taken ih =>
    rw [take_items taken] at ih
    simpa [takes, asks] using ih

def Awaited (key : α → Option κ) (k : κ) (events : List (QueueEvent α)) : Prop :=
  ∃ earlier asked between, events = earlier ++ .asked asked :: between ∧ key asked = some k ∧
    ∀ taken, .took taken ∈ between → key taken ≠ some k

def Answered (key : α → Option κ) (k : κ) (events : List (QueueEvent α)) : Prop :=
  ∀ before asked later, events = before ++ .asked asked :: later → key asked = some k →
    ∃ taken, .took taken ∈ later ∧ key taken = some k

omit [DecidableEq κ] in
theorem Awaited.append {more : List (QueueEvent α)} (awaited : Awaited key k events)
    (untaken : ∀ taken, .took taken ∈ more → key taken ≠ some k) : Awaited key k (events ++ more) := by
  obtain ⟨earlier, asked, between, rfl, keyed, still⟩ := awaited
  refine ⟨earlier, asked, between ++ more, by simp, keyed, ?_⟩
  intro taken member
  rcases List.mem_append.mp member with member | member
  · exact still taken member
  · exact untaken taken member

theorem split_last {last event : QueueEvent α} {before later : List (QueueEvent α)}
    (eq : events ++ [last] = before ++ event :: later) :
    (later = [] ∧ event = last) ∨ ∃ later', later = later' ++ [last] ∧ events = before ++ event :: later' := by
  rcases List.eq_nil_or_concat later with rfl | ⟨later, other, rfl⟩
  · obtain ⟨-, same⟩ := List.append_inj' eq rfl
    exact .inl ⟨rfl, (List.singleton_inj.mp same).symm⟩
  · rw [List.concat_eq_append] at eq ⊢
    obtain ⟨rest, same⟩ := List.append_inj' (eq.trans (List.append_assoc before (event :: later) [other]).symm) rfl
    exact .inr ⟨later, by rw [List.singleton_inj.mp same], rest⟩

omit [DecidableEq κ] in
theorem Answered.append {event : QueueEvent α} (answered : Answered key k events)
    (other : ∀ asked, event = .asked asked → key asked ≠ some k) : Answered key k (events ++ [event]) := by
  intro before asked later eq keyed
  rcases split_last eq with ⟨-, same⟩ | ⟨later, rfl, split⟩
  · exact absurd keyed (other asked same.symm)
  · obtain ⟨taken, member, same⟩ := answered before asked later split keyed
    exact ⟨taken, List.mem_append_left _ member, same⟩

omit [DecidableEq κ] in
theorem Answered.took {taken : α} (keyed : key taken = some k) : Answered key k (events ++ [.took taken]) := by
  intro before asked later eq _
  rcases split_last eq with ⟨-, same⟩ | ⟨later, rfl, -⟩
  · cases same
  · exact ⟨taken, List.mem_append_right _ (List.mem_singleton_self _), keyed⟩

theorem Reached.keys (reached : Reached key events self) (k : κ) :
    (k ∈ self.waiting → Awaited key k events) ∧ (k ∉ self.waiting → Answered key k events) := by
  induction reached with
  | empty => exact ⟨fun waits => absurd waits (Finset.notMem_empty k), fun _ before _ _ eq => by simp at eq⟩
  | @asked events self before item ih =>
    obtain ⟨awaited, answered⟩ := ih
    by_cases own : key item = some k
    · refine ⟨fun _ => ⟨events, item, [], rfl, own, by simp⟩, fun out => absurd ?_ out⟩
      rw [ask, own]
      dsimp only
      split_ifs with waits
      · exact waits
      · exact Finset.mem_insert_self k _
    · have same : k ∈ (ask key item self).waiting ↔ k ∈ self.waiting := by
        rw [ask]
        split
        · exact Iff.rfl
        · next other keyed =>
            split_ifs
            · exact Iff.rfl
            · rw [Finset.mem_insert, or_iff_right fun eq => own (keyed.trans (congrArg some eq.symm))]
      rw [same]
      exact ⟨fun waits => (awaited waits).append (by simp),
        fun out => (answered out).append fun _ eq => by cases eq; exact own⟩
  | @took events self after item before taken ih =>
    obtain ⟨awaited, answered⟩ := ih
    have consistent := before.consistent.take taken
    by_cases own : key item = some k
    · refine ⟨fun waits => ?_, fun _ => .took own⟩
      have once := before.consistent.once
      rw [take_items taken, List.filterMap_cons_some own] at once
      exact absurd ((consistent.waiting k).mp waits) (List.nodup_cons.mp once).1
    · have same : k ∈ after.waiting ↔ k ∈ self.waiting := by
        rw [consistent.waiting, before.consistent.waiting, take_items taken, List.mem_filterMap, List.mem_filterMap]
        simp [own]
      rw [same]
      refine ⟨fun waits => (awaited waits).append ?_, fun out => (answered out).append (by simp)⟩
      intro taken' member
      cases List.mem_singleton.mp member
      exact own

theorem Reached.prompted (reached : Reached key events self) (k : κ) {before : List (QueueEvent α)} {taken : α}
    {later : List (QueueEvent α)} (split : events = before ++ .took taken :: later) (keyed : key taken = some k) :
    Awaited key k before := by
  induction reached generalizing later with
  | empty => simp at split
  | asked earlier item ih =>
    rcases split_last split with ⟨-, same⟩ | ⟨later, -, split⟩
    · cases same
    · exact ih split
  | @took events self after item earlier took ih =>
    rcases split_last split with ⟨rfl, same⟩ | ⟨later, -, split⟩
    · cases same
      obtain ⟨rfl, -⟩ := List.append_inj' split rfl
      refine (earlier.keys k).1 ((earlier.consistent.waiting k).mpr ?_)
      rw [take_items took, List.filterMap_cons_some keyed]
      exact List.mem_cons_self
    · exact ih split

end Coalescing

end Pinrail.Lib

import Mathlib.Data.List.TakeWhile
import Mathlib.Tactic.Common

/-!
# Agendas

Entries that come due on a clock that only moves forward. Those that are due are served in the order in which
they come due, and of those due at once in the order in which they were entered.
-/

namespace Pinrail.Lib

structure Agenda.Entry where
  due : Nat
  number : Nat
deriving DecidableEq

def Agenda.Entry.Before (first second : Agenda.Entry) : Prop :=
  first.due < second.due ∨ first.due = second.due ∧ first.number < second.number

structure Agenda where
  now : Nat := 0
  entered : Nat := 0
  entries : List Agenda.Entry := []
  sorted : entries.Pairwise Agenda.Entry.Before := by exact List.Pairwise.nil
  known : ∀ entry ∈ entries, entry.number < entered := by exact fun _ member => by cases member

namespace Agenda

theorem Entry.Before.due_le {first second : Entry} (before : first.Before second) : first.due ≤ second.due := by
  rcases before with less | same
  · exact Nat.le_of_lt less
  · exact Nat.le_of_eq same.1

theorem due_iff_le (agenda : Agenda) (time : Nat) :
    (∀ entry ∈ agenda.entries.takeWhile (·.due ≤ time), entry.due ≤ time) ∧
    ∀ entry ∈ agenda.entries.dropWhile (·.due ≤ time), time < entry.due := by
  constructor
  · intro entry member
    simpa using List.mem_takeWhile_imp member
  · have sorted := agenda.sorted
    generalize agenda.entries = entries at sorted
    induction entries with
    | nil => simp
    | cons entry entries ih =>
      obtain ⟨first, sorted⟩ := List.pairwise_cons.mp sorted
      by_cases due : entry.due ≤ time
      · rw [List.dropWhile_cons_of_pos (by simpa using due)]
        exact ih sorted
      · rw [List.dropWhile_cons_of_neg (by simpa using due), List.forall_mem_cons]
        refine ⟨Nat.lt_of_not_le due, fun later member => ?_⟩
        exact Nat.lt_of_lt_of_le (Nat.lt_of_not_le due) (first later member).due_le

def enter (self : Agenda) (delay : Nat) : Agenda where
  now := self.now
  entered := self.entered + 1
  entries := self.entries.takeWhile (·.due ≤ self.now + delay) ++
    ⟨self.now + delay, self.entered⟩ :: self.entries.dropWhile (·.due ≤ self.now + delay)
  sorted := by
    obtain ⟨early, late⟩ := self.due_iff_le (self.now + delay)
    have split := self.sorted
    rw [← List.takeWhile_append_dropWhile (p := fun entry : Entry => decide (entry.due ≤ self.now + delay))
      (l := self.entries)] at split
    obtain ⟨front, back, across⟩ := List.pairwise_append.mp split
    refine List.pairwise_append.mpr ⟨front, List.pairwise_cons.mpr ⟨?_, back⟩, ?_⟩
    · exact fun entry member => .inl (late entry member)
    · intro entry member
      refine List.forall_mem_cons.mpr ⟨?_, across entry member⟩
      rcases Nat.lt_or_eq_of_le (early entry member) with less | same
      · exact .inl less
      · exact .inr ⟨same, self.known entry ((List.takeWhile_prefix _).subset member)⟩
  known entry member := by
    rcases List.mem_append.mp member with front | here
    · exact Nat.lt_succ_of_lt (self.known entry ((List.takeWhile_prefix _).subset front))
    · rcases List.mem_cons.mp here with rfl | back
      · exact Nat.lt_succ_self _
      · exact Nat.lt_succ_of_lt (self.known entry ((List.dropWhile_suffix _).subset back))

def advance (self : Agenda) (duration : Nat) : Agenda := { self with now := self.now + duration }

def due (self : Agenda) : List Entry := self.entries.takeWhile (·.due ≤ self.now)

def serve (self : Agenda) : Agenda where
  now := self.now
  entered := self.entered
  entries := self.entries.dropWhile (·.due ≤ self.now)
  sorted := self.sorted.sublist (List.dropWhile_sublist _)
  known entry member := self.known entry ((List.dropWhile_suffix _).subset member)

inductive Event where
  | moved (now : Nat)
  | served (entry : Entry) (now : Nat)
deriving DecidableEq

def Event.time : Event → Nat
  | .moved now => now
  | .served _ now => now

def Event.entry? : Event → Option Entry
  | .moved _ => none
  | .served entry _ => some entry

def served (events : List Event) : List Entry := events.filterMap Event.entry?

inductive Follows : Agenda → List Event → Agenda → Prop where
  | refl (agenda : Agenda) : Follows agenda [] agenda
  | enter {agenda after : Agenda} {events : List Event} (delay : Nat)
      (rest : Follows (agenda.enter delay) events after) : Follows agenda events after
  | advance {agenda after : Agenda} {events : List Event} (duration : Nat)
      (rest : Follows (agenda.advance duration) events after) :
      Follows agenda (.moved (agenda.now + duration) :: events) after
  | serve {agenda after : Agenda} {events : List Event} (rest : Follows agenda.serve events after) :
      Follows agenda (agenda.due.map (.served · agenda.now) ++ events) after

theorem Follows.trans {first second third : Agenda} {events events' : List Event}
    (follows : Follows first events second) (follows' : Follows second events' third) :
    Follows first (events ++ events') third := by
  induction follows with
  | refl agenda => exact follows'
  | enter delay rest ih => exact .enter delay (ih follows')
  | advance duration rest ih => exact .advance duration (ih follows')
  | serve rest ih =>
    rw [List.append_assoc]
    exact .serve (ih follows')

theorem Follows.now_eq {agenda after : Agenda} {events : List Event} (follows : Follows agenda events after) :
    after.now = agenda.now ∨ .moved after.now ∈ events := by
  induction follows with
  | refl agenda => exact .inl rfl
  | enter delay rest ih => exact ih
  | advance duration rest ih =>
    right
    rcases ih with same | moved
    · rw [same]
      exact List.mem_cons_self
    · exact List.mem_cons_of_mem _ moved
  | serve rest ih => exact ih.imp_right (List.mem_append_right _)

structure Orderly (before : Agenda) (events : List Event) (after : Agenda) : Prop where
  clock : (before.now :: (events.map Event.time ++ [after.now])).Pairwise (· ≤ ·)
  line : (served events ++ after.entries).Pairwise Entry.Before
  timely : ∀ entry now, .served entry now ∈ events → entry.due ≤ now
  origin : ∀ entry ∈ served events ++ after.entries,
    entry ∈ before.entries ∨ before.now ≤ entry.due ∧ before.entered ≤ entry.number

variable {agenda after : Agenda} {events : List Event}

theorem served_map (entries : List Entry) (now : Nat) : served (entries.map (.served · now)) = entries := by
  induction entries with
  | nil => rfl
  | cons entry entries ih => exact congrArg (entry :: ·) ih

theorem Orderly.of_enter {delay : Nat} (orderly : Orderly (agenda.enter delay) events after) :
    Orderly agenda events after where
  clock := orderly.clock
  line := orderly.line
  timely := orderly.timely
  origin entry member := by
    rcases orderly.origin entry member with old | ⟨late, fresh⟩
    · rcases List.mem_append.mp old with front | here
      · exact .inl ((List.takeWhile_prefix _).subset front)
      · rcases List.mem_cons.mp here with rfl | back
        · exact .inr ⟨Nat.le_add_right _ _, Nat.le_refl _⟩
        · exact .inl ((List.dropWhile_suffix _).subset back)
    · exact .inr ⟨late, Nat.le_of_succ_le fresh⟩

theorem Orderly.of_advance {duration : Nat} (orderly : Orderly (agenda.advance duration) events after) :
    Orderly agenda (.moved (agenda.now + duration) :: events) after where
  clock := by
    refine List.pairwise_cons.mpr ⟨?_, orderly.clock⟩
    refine List.forall_mem_cons.mpr ⟨Nat.le_add_right _ _, fun time member => ?_⟩
    exact Nat.le_trans (Nat.le_add_right _ _) ((List.pairwise_cons.mp orderly.clock).1 time member)
  line := orderly.line
  timely entry now member := by
    rcases List.mem_cons.mp member with here | later
    · cases here
    · exact orderly.timely entry now later
  origin entry member := by
    rcases orderly.origin entry member with old | ⟨late, fresh⟩
    · exact .inl old
    · exact .inr ⟨Nat.le_trans (Nat.le_add_right _ _) late, fresh⟩

theorem Orderly.of_serve (orderly : Orderly agenda.serve events after) :
    Orderly agenda (agenda.due.map (.served · agenda.now) ++ events) after := by
  have due : ∀ entry ∈ agenda.due, entry.due ≤ agenda.now := (agenda.due_iff_le agenda.now).1
  have times : (agenda.due.map (.served · agenda.now)).map Event.time = agenda.due.map fun _ => agenda.now := by
    rw [List.map_map]
    rfl
  have split := agenda.sorted
  rw [← List.takeWhile_append_dropWhile (p := fun entry : Entry => decide (entry.due ≤ agenda.now))
    (l := agenda.entries)] at split
  obtain ⟨front, -, across⟩ := List.pairwise_append.mp split
  have line : served (agenda.due.map (.served · agenda.now) ++ events) = agenda.due ++ served events := by
    rw [served, List.filterMap_append]
    exact congrArg (· ++ _) (served_map _ _)
  refine ⟨?_, ?_, ?_, ?_⟩
  · rw [List.map_append, times, List.append_assoc]
    obtain ⟨ahead, clock⟩ := List.pairwise_cons.mp orderly.clock
    refine List.pairwise_cons.mpr ⟨?_, List.pairwise_append.mpr ⟨?_, clock, ?_⟩⟩
    · intro time member
      rcases List.mem_append.mp member with here | later
      · obtain ⟨entry, -, rfl⟩ := List.mem_map.mp here
        exact Nat.le_refl _
      · exact ahead time later
    · exact List.pairwise_map.mpr (front.imp fun _ => Nat.le_refl _)
    · intro time here later member
      obtain ⟨entry, -, rfl⟩ := List.mem_map.mp here
      exact ahead later member
  · rw [line, List.append_assoc]
    refine List.pairwise_append.mpr ⟨front, orderly.line, fun entry here later member => ?_⟩
    rcases orderly.origin later member with old | ⟨late, fresh⟩
    · exact across entry here later old
    · rcases Nat.lt_or_eq_of_le (Nat.le_trans (due entry here) late) with less | same
      · exact .inl less
      · exact .inr ⟨same, Nat.lt_of_lt_of_le (agenda.known entry ((List.takeWhile_prefix _).subset here)) fresh⟩
  · intro entry now member
    rcases List.mem_append.mp member with here | later
    · obtain ⟨served, inside, same⟩ := List.mem_map.mp here
      cases same
      exact due entry inside
    · exact orderly.timely entry now later
  · intro entry member
    rw [line, List.append_assoc] at member
    rcases List.mem_append.mp member with here | later
    · exact .inl ((List.takeWhile_prefix _).subset here)
    · rcases orderly.origin entry later with old | new
      · exact .inl ((List.dropWhile_suffix _).subset old)
      · exact .inr new

theorem Follows.orderly (follows : Follows agenda events after) : Orderly agenda events after := by
  induction follows with
  | refl agenda => exact ⟨by simp, agenda.sorted, by simp, fun _ => .inl⟩
  | enter delay rest ih => exact ih.of_enter
  | advance duration rest ih => exact ih.of_advance
  | serve rest ih => exact ih.of_serve

end Agenda
end Pinrail.Lib

import Mathlib.Data.List.Perm.Basic

/-!
# Queues with lanes

A queue whose members have keys. Some lanes are served in order: what enters joins behind the
members of its lane, and only the first of a lane leaves. Elsewhere in the queue anything may happen.
-/

namespace Pinrail.Lib.Lanes

variable {α κ : Type} [DecidableEq κ] {key : α → κ} {served : κ → Prop} {k : κ} {x : α}
  {front back entered left queued : List α}

def lane (key : α → κ) (k : κ) (xs : List α) : List α := xs.filter fun x => key x = k

theorem lane_append (xs ys : List α) : lane key k (xs ++ ys) = lane key k xs ++ lane key k ys := List.filter_append ..

theorem lane_cons_same (same : key x = k) (xs : List α) : lane key k (x :: xs) = x :: lane key k xs :=
  List.filter_cons_of_pos (by simpa using same)

theorem lane_cons_other (other : key x ≠ k) (xs : List α) : lane key k (x :: xs) = lane key k xs :=
  List.filter_cons_of_neg (by simpa using other)

theorem lane_eq_nil {xs : List α} : lane key k xs = [] ↔ ∀ y ∈ xs, key y ≠ k := by
  simp [lane, List.filter_eq_nil_iff]

structure Conserves (key : α → κ) (served : κ → Prop) (entered left queued : List α) : Prop where
  inOrder : ∀ k, served k → lane key k entered = lane key k left ++ lane key k queued
  all : entered.Perm (left ++ queued)

theorem Conserves.nil : Conserves key served [] [] [] := ⟨fun _ _ => rfl, .refl _⟩

theorem Conserves.enter (conserves : Conserves key served entered left (front ++ back))
    (behind : served (key x) → ∀ y ∈ back, key y ≠ key x) :
    Conserves key served (entered ++ [x]) left (front ++ x :: back) where
  inOrder := by
    intro k ordered
    have before := conserves.inOrder k ordered
    rw [lane_append] at before
    rw [lane_append, before, lane_append front]
    by_cases same : key x = k
    · have none : lane key k back = [] := lane_eq_nil.mpr (same ▸ behind (same ▸ ordered))
      rw [lane_cons_same same, lane_cons_same same, none, List.append_nil, List.append_assoc]
      rfl
    · rw [lane_cons_other same, lane_cons_other same]
      simp [lane]
  all := calc
    (entered ++ [x]).Perm (x :: entered) := List.perm_append_singleton x entered
    List.Perm _ (x :: (left ++ (front ++ back))) := conserves.all.cons x
    List.Perm _ ((left ++ front) ++ x :: back) := by
      rw [← List.append_assoc]
      exact List.perm_middle.symm
    List.Perm _ (left ++ (front ++ x :: back)) := by rw [List.append_assoc]

theorem Conserves.leave (conserves : Conserves key served entered left (front ++ x :: back))
    (first : served (key x) → ∀ y ∈ front, key y ≠ key x) :
    Conserves key served entered (left ++ [x]) (front ++ back) where
  inOrder := by
    intro k ordered
    rw [conserves.inOrder k ordered, lane_append front, lane_append left, lane_append front]
    by_cases same : key x = k
    · have none : lane key k front = [] := lane_eq_nil.mpr (same ▸ first (same ▸ ordered))
      rw [lane_cons_same same, lane_cons_same same, none, List.append_assoc]
      rfl
    · rw [lane_cons_other same, lane_cons_other same]
      simp [lane]
  all := calc
    entered.Perm (left ++ (front ++ x :: back)) := conserves.all
    List.Perm _ (left ++ x :: (front ++ back)) := List.perm_middle.append_left left
    List.Perm _ ((left ++ [x]) ++ (front ++ back)) := by rw [List.append_assoc]; rfl

theorem Conserves.lane_done (conserves : Conserves key served entered left queued) (ordered : served k)
    (empty : ∀ y ∈ queued, key y ≠ k) : lane key k left = lane key k entered := by
  rw [conserves.inOrder k ordered, lane_eq_nil.mpr empty, List.append_nil]

theorem Conserves.lane_perm (conserves : Conserves key served entered left queued) (k : κ) :
    (lane key k entered).Perm (lane key k left ++ lane key k queued) := by
  rw [← lane_append]
  exact conserves.all.filter _

def rposition (p : α → Bool) : List α → Option Nat
  | [] => none
  | x :: xs => ((rposition p xs).map (· + 1)).or (if p x then some 0 else none)

theorem rposition_spec (p : α → Bool) (xs : List α) : (rposition p xs).elim 0 (· + 1) ≤ xs.length ∧
    ∀ y ∈ xs.drop ((rposition p xs).elim 0 (· + 1)), p y = false := by
  induction xs with
  | nil => simp [rposition]
  | cons x xs ih =>
    obtain ⟨inside, behind⟩ := ih
    rw [rposition]
    cases found : rposition p xs with
    | some i =>
      rw [found] at inside behind
      exact ⟨Nat.succ_le_succ inside, behind⟩
    | none =>
      rw [found] at behind
      simp only [Option.elim_none, List.drop_zero] at behind
      cases holds : p x with
      | true => exact ⟨Nat.succ_le_succ (Nat.zero_le _), behind⟩
      | false =>
        refine ⟨Nat.zero_le _, ?_⟩
        intro y member
        rcases List.mem_cons.mp member with rfl | member
        · exact holds
        · exact behind y member

end Pinrail.Lib.Lanes

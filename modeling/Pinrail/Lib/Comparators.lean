import Mathlib.Data.List.Basic

/-!
# Lexicographic comparison without transitivity

A comparison of lists item by item, with a second comparison for a tie, is as transitive as the
comparison of the items: the only way to lose transitivity is a cycle of three items behind a
common front.
-/

namespace Pinrail.Lib
open Std

variable {α : Type*} (cmp : α → α → Ordering)

def Cyclic (x y z : α) : Prop := cmp x y = .lt ∧ cmp y z = .lt ∧ cmp z x = .lt

theorem Cyclic.turn {cmp : α → α → Ordering} {x y z : α} (cyclic : Cyclic cmp x y z) : Cyclic cmp y z x :=
  ⟨cyclic.2.1, cyclic.2.2, cyclic.1⟩

inductive CyclicAt : List α → List α → List α → Prop where
  | here {x y z : α} {xs ys zs : List α} (cyclic : Cyclic cmp x y z) : CyclicAt (x :: xs) (y :: ys) (z :: zs)
  | later {x : α} {xs ys zs : List α} (later : CyclicAt xs ys zs) : CyclicAt (x :: xs) (x :: ys) (x :: zs)

theorem cyclicAt_iff (xs ys zs : List α) : CyclicAt cmp xs ys zs ↔ ∃ front x y z restX restY restZ, xs = front ++ x ::
    restX ∧ ys = front ++ y :: restY ∧ zs = front ++ z :: restZ ∧ Cyclic cmp x y z := by
  constructor
  · intro parted
    induction parted with
    | here cyclic => exact ⟨[], _, _, _, _, _, _, rfl, rfl, rfl, cyclic⟩
    | @later item _ _ _ _ ih =>
      obtain ⟨front, x, y, z, restX, restY, restZ, rfl, rfl, rfl, cyclic⟩ := ih
      exact ⟨item :: front, x, y, z, restX, restY, restZ, rfl, rfl, rfl, cyclic⟩
  · rintro ⟨front, x, y, z, restX, restY, restZ, rfl, rfl, rfl, cyclic⟩
    induction front with
    | nil => exact .here cyclic
    | cons item front ih => exact .later ih

variable {cmp}

theorem cmp_gt_of_lt [OrientedCmp cmp] {x y : α} (less : cmp x y = .lt) : cmp y x = .gt := by
  have swapped : cmp y x = (cmp x y).swap := OrientedCmp.eq_swap
  rw [swapped, less]
  rfl

theorem isLE_or_cyclic [OrientedCmp cmp] [LawfulEqCmp cmp] {x y z : α}
    (first : cmp x y = .lt) (second : cmp y z = .lt) : cmp x z = .lt ∨ Cyclic cmp x y z := by
  cases third : cmp x z with
  | lt => exact .inl rfl
  | eq =>
    obtain rfl := LawfulEqCmp.eq_of_compare third
    rw [cmp_gt_of_lt first] at second
    cases second
  | gt => exact .inr ⟨first, second, OrientedCmp.lt_of_gt third⟩

theorem compareLex_then_trans_iff [OrientedCmp cmp] [LawfulEqCmp cmp] {xs ys zs : List α} {tieXY tieYZ tieXZ : Ordering}
    (tie : tieXY.isLE → tieYZ.isLE → tieXZ.isLE) :
    (((List.compareLex cmp xs ys).then tieXY).isLE → ((List.compareLex cmp ys zs).then tieYZ).isLE →
      ((List.compareLex cmp xs zs).then tieXZ).isLE) ↔ ¬CyclicAt cmp xs ys zs := by
  constructor
  · intro trans parted
    induction parted with
    | here cyclic =>
      obtain ⟨first, second, third⟩ := cyclic
      simp [List.compareLex_cons_cons, first, second, cmp_gt_of_lt third] at trans
    | later parted ih =>
      simp only [List.compareLex_cons_cons, ReflCmp.compare_self] at trans
      exact ih (by simpa using trans)
  · induction xs generalizing ys zs with
    | nil =>
      intro _
      cases ys <;> cases zs <;>
        simp_all [List.compareLex_nil_nil, List.compareLex_nil_cons, List.compareLex_cons_nil]
    | cons x xs ih =>
      intro apart
      cases ys with
      | nil => simp [List.compareLex_cons_nil]
      | cons y ys =>
        cases zs with
        | nil => simp [List.compareLex_cons_nil]
        | cons z zs =>
          simp only [List.compareLex_cons_cons]
          intro first second
          cases firstItem : cmp x y with
          | gt => simp [firstItem] at first
          | eq =>
            obtain rfl := LawfulEqCmp.eq_of_compare firstItem
            cases secondItem : cmp x z with
            | gt => simp [secondItem] at second
            | lt => simp
            | eq =>
              obtain rfl := LawfulEqCmp.eq_of_compare secondItem
              simp only [firstItem, Ordering.then] at first second ⊢
              exact ih (fun parted => apart (.later parted)) first second
          | lt =>
            cases secondItem : cmp y z with
            | gt => simp [secondItem] at second
            | eq =>
              obtain rfl := LawfulEqCmp.eq_of_compare secondItem
              simp [firstItem]
            | lt =>
              rcases isLE_or_cyclic firstItem secondItem with third | cyclic
              · simp [third]
              · exact absurd (.here cyclic) apart

/-! ## Comparison by keys -/

def comparing {β : Type*} (key : β → α) (cmp : α → α → Ordering) (x y : β) : Ordering :=
  cmp (key x) (key y)

instance {β : Type*} {key : β → α} [OrientedCmp cmp] : OrientedCmp (comparing key cmp) where
  eq_swap {x y} := @OrientedCmp.eq_swap _ cmp _ (key x) (key y)

instance {β : Type*} {key : β → α} [TransCmp cmp] : TransCmp (comparing key cmp) where
  isLE_trans {x y z} := @TransCmp.isLE_trans _ cmp _ (key x) (key y) (key z)

theorem forall₂_of_between [OrientedCmp cmp] {xs more ys : List α}
    (low : (List.compareLex cmp xs ys).isLE) (high : (List.compareLex cmp ys (xs ++ more)).isLE) :
    ∃ front back, ys = front ++ back ∧ List.Forall₂ (fun x y => cmp x y = .eq) xs front := by
  induction xs generalizing ys with
  | nil => exact ⟨[], ys, rfl, .nil⟩
  | cons x xs ih =>
    cases ys with
    | nil => cases low
    | cons y ys =>
      rw [List.compareLex_cons_cons] at low
      rw [List.cons_append, List.compareLex_cons_cons] at high
      have swapped : cmp y x = (cmp x y).swap := OrientedCmp.eq_swap
      cases here : cmp x y with
      | lt =>
        rw [swapped, here] at high
        cases high
      | gt =>
        rw [here] at low
        cases low
      | eq =>
        rw [here] at low
        rw [swapped, here] at high
        obtain ⟨front, back, rfl, same⟩ := ih low high
        exact ⟨y :: front, back, rfl, .cons here same⟩

end Pinrail.Lib

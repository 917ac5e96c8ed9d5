import Pinrail.SumTree.Growth
import Pinrail.SumTree.Seek

/-!
# What a seek collects

The three aggregates meet the specification of `Collects`. A slice is put together from the low trees
that the seek moves past, so its height stays far from what a `u8` holds.
-/

namespace Pinrail
open Lib SumTree

variable {T S : Type} [Summary S]

namespace Cursor

variable [Item T S] {D : Type} [Dimension S D]

/-! ## The aggregates -/

theorem collects_ignore : Collects (ignore : SeekAggregate T S PUnit) fun _ _ _ => True where
  tree _ _ _ _ _ _ _ _ := ⟨⟨⟩, rfl, trivial⟩
  leaf _ _ a more _ fits := by
    clear fits
    have fed : more.foldlM (fun a item => (ignore : SeekAggregate T S PUnit).pushItem a item
        (Item.summary item)) a = .ok a := by
      induction more with
      | nil => rfl
      | cons item more ih => rw [List.foldlM_cons]; exact ih
    exact ⟨⟨⟩, by rw [feedLeaf]; exact bind_eq_ok.mpr ⟨_, fed, rfl⟩, trivial⟩

theorem collects_summary [LawfulSummary S] [LawfulDimension S D] :
    Collects (collectSummary : SeekAggregate T S D) fun _ items a => a = measure items where
  tree _ items _ _ tree held balanced _ := ⟨_, rfl, by rw [held, measure_tree items balanced]⟩
  leaf _ items a more held fits := by
    clear fits
    subst held
    refine ⟨_, bind_eq_ok.mpr ⟨_, ?_, rfl⟩, rfl⟩
    induction more generalizing items with
    | nil => simp [collectSummary, pure, Except.pure]
    | cons item more ih =>
      have rest := ih (items ++ [item])
      rw [List.append_assoc, List.singleton_append] at rest
      have pushed : (collectSummary : SeekAggregate T S D).pushItem (collectSummary.beginLeaf
          (T := T) (S := S) (measure items)) item (Item.summary item) =
          .ok (measure (items ++ [item])) := congrArg Except.ok (measure_concat items item)
      rw [List.foldlM_cons, pushed, ok_bind]
      exact rest

/-- A slice of `items` between two feeds, with `n` feeds of the budget left. -/
structure SliceHolds (n : Nat) (items : List T) (a : SliceSeekAggregate T S) : Prop where
  closed : a = ⟨a.tree, [], [], Summary.zero⟩
  held : a.tree.toList = items
  few : n ≤ feedBudget
  low : Low 15 (feedBudget - n) a.tree

theorem SliceHolds.empty : SliceHolds feedBudget [] (.empty : SliceSeekAggregate T S) := by
  refine ⟨rfl, rfl, Nat.le_refl _, ?_⟩
  rw [Nat.sub_self]
  exact .new

theorem SliceHolds.height_le {n : Nat} {items : List T} {a : SliceSeekAggregate T S}
    (holds : SliceHolds n items a) : a.tree.height ≤ 19 := by
  have budget : feedBudget = 384 := rfl
  exact holds.low.height_le (show _ < 5 * 7 ^ 4 by omega)

variable [LawfulSummary S]

theorem SliceHolds.append {n : Nat} {items : List T} {a : SliceSeekAggregate T S} {tree : SumTree T S}
    (holds : SliceHolds (n + 1) items a) (wellFormed : WellFormed tree) (low : tree.height < stackCapacity) :
    ∃ appended, a.tree.append tree = .ok appended ∧
    SliceHolds n (items ++ tree.toList) ⟨appended, [], [], Summary.zero⟩ := by
  have budget : feedBudget = 384 := rfl
  have few := holds.few
  obtain ⟨appended, eq, both, appendedLow⟩ := append_low holds.low wellFormed
    (Nat.le_of_lt_succ low) (show _ < 5 * 7 ^ 4 by omega) (by decide)
  refine ⟨appended, eq, rfl, by rw [both, holds.held], by omega, ?_⟩
  rwa [show feedBudget - (n + 1) + 1 = feedBudget - n by omega] at appendedLow

omit [LawfulSummary S] in
theorem collectSlice_items (tree : SumTree T S) (done more : List T) (fits : (done ++ more).length ≤ nodeCapacity) :
    more.foldlM (fun a item => (collectSlice : SeekAggregate T S _).pushItem a item
        (Item.summary item)) ⟨tree, done, done.map Item.summary, Summary.sum (done.map Item.summary)⟩ =
      .ok ⟨tree, done ++ more, (done ++ more).map Item.summary, Summary.sum ((done ++ more).map Item.summary)⟩ := by
  induction more generalizing done with
  | nil => simp [pure, Except.pure]
  | cons item more ih =>
    have room : done.length < nodeCapacity := by
      rw [List.length_append, List.length_cons] at fits
      omega
    have pushed : (collectSlice : SeekAggregate T S _).pushItem ⟨tree, done,
        done.map Item.summary, Summary.sum (done.map Item.summary)⟩ item (Item.summary item) =
        .ok ⟨tree, done ++ [item], (done ++ [item]).map Item.summary,
          Summary.sum ((done ++ [item]).map Item.summary)⟩ := by
      simp only [collectSlice]
      rw [push_of_lt room, ok_bind, push_of_lt (by simpa using room), ok_bind]
      simp [Summary.sum, pure, Except.pure]
    rw [List.foldlM_cons, pushed, ok_bind, ih (done ++ [item]) (by simpa using fits)]
    simp

theorem collects_slice : Collects (collectSlice : SeekAggregate T S _) SliceHolds where
  tree n items a h tree holds balanced low := by
    obtain ⟨appended, eq, held⟩ := holds.append (.inr ⟨h, balanced⟩) (by rwa [balanced.height_eq])
    refine ⟨_, bind_eq_ok.mpr ⟨appended, eq, rfl⟩, ?_⟩
    rw [holds.closed]
    exact held
  leaf n items a more holds fits := by
    have wellFormed : WellFormed (.leaf (Summary.sum (more.map Item.summary)) more
        (more.map Item.summary) : SumTree T S) := by
      rcases Decidable.em (more = []) with empty | nonempty
      · rw [empty]
        exact .inl rfl
      · exact .inr ⟨0, .leaf nonempty fits⟩
    obtain ⟨appended, eq, held⟩ := holds.append wellFormed (by simp [height, stackCapacity])
    have filled := collectSlice_items (S := S) a.tree [] more (by simpa using fits)
    refine ⟨⟨appended, [], [], Summary.zero⟩, ?_, held⟩
    rw [feedLeaf, holds.closed]
    exact bind_eq_ok.mpr ⟨_, filled, bind_eq_ok.mpr ⟨appended, eq, rfl⟩⟩

/-! ## Seeks and slices -/

variable [LawfulDimension S D] {root : SumTree T S} {target : SeekTarget D} {bias : Bias}
  {self : Cursor T S D} {before after : List T}

theorem seek_new (wellFormed : WellFormed root) (shallow : Shallow root) (mono : Monotone target bias root.toList)
    (forward : (target.cmp (Dimension.zero S)).isGE = true) : ∃ found moved,
    (new root : Cursor T S D).seek target bias = .ok (found, moved) ∧
    Rests root moved (passed target bias (Dimension.zero S) root.toList)
    (root.toList.drop (passed target bias (Dimension.zero S : D) root.toList).length) := by
  obtain ⟨moved, a, n, sought, -, rests⟩ := seekInternal_fresh collects_ignore shallow wellFormed mono forward trivial
  refine ⟨_, moved, bind_eq_ok.mpr ⟨_, sought, rfl⟩, rests⟩

theorem slice_new (wellFormed : WellFormed root) (shallow : Shallow root) (mono : Monotone target bias root.toList)
    (forward : (target.cmp (Dimension.zero S)).isGE = true) : ∃ slice moved,
    (new root : Cursor T S D).slice target bias = .ok (slice, moved) ∧ WellFormed slice ∧ slice.height ≤ 19 ∧
    slice.toList = passed target bias (Dimension.zero S : D) root.toList ∧
    Rests root moved (passed target bias (Dimension.zero S) root.toList)
    (root.toList.drop (passed target bias (Dimension.zero S : D) root.toList).length) := by
  obtain ⟨moved, a, n, sought, holds, rests⟩ := seekInternal_fresh collects_slice shallow wellFormed mono forward .empty
  exact ⟨a.tree, moved, bind_eq_ok.mpr ⟨_, sought, rfl⟩, holds.low.wellFormed, holds.height_le, holds.held, rests⟩

theorem Rests.slice (shallow : Shallow root) (mono : Monotone target bias root.toList)
    (forward : (target.cmp (measure before)).isGE = true) (rests : Rests root self before after) : ∃ slice moved,
    self.slice target bias = .ok (slice, moved) ∧ WellFormed slice ∧ slice.height ≤ 19 ∧
    slice.toList = passed target bias (measure before : D) after ∧
    Rests root moved (before ++ passed target bias (measure before) after)
    (after.drop (passed target bias (measure before : D) after).length) := by
  obtain ⟨moved, a, n, sought, holds, rests'⟩ := rests.seekInternal collects_slice shallow mono forward .empty
  exact ⟨a.tree, moved, bind_eq_ok.mpr ⟨_, sought, rfl⟩, holds.low.wellFormed, holds.height_le, holds.held, rests'⟩

omit [Summary S] [LawfulSummary S] [LawfulDimension S D] in
theorem passed_atEnd (bias : Bias) (d : D) (items : List T) : passed (.atEnd : SeekTarget D) bias d items = items := by
  induction items generalizing d with
  | nil => rfl
  | cons item items ih =>
    rw [passed, ih]
    rfl

theorem Rests.suffix (shallow : Shallow root) (rests : Rests root self before after) :
    ∃ slice moved, self.suffix = .ok (slice, moved) ∧ WellFormed slice ∧ slice.height ≤ 19 ∧ slice.toList = after := by
  have mono : Monotone (.atEnd : SeekTarget D) .right root.toList := fun _ _ _ _ => rfl
  obtain ⟨slice, moved, sliced, wellFormed, height, held, -⟩ := rests.slice shallow mono rfl
  rw [passed_atEnd] at held
  exact ⟨slice, moved, sliced, wellFormed, height, held⟩

end Cursor

end Pinrail

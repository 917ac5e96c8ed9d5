import Mathlib.Data.Rat.Defs
import Mathlib.Tactic.Linarith
import Pinrail.Elements.ListLayout
import Pinrail.SumTree.Find

/-!
# Seeks in the items of a list element

Where the seeks by count and by height lead. While no item has a negative height, the cursor of a
tree and `SumTree::find` stop at the same places.
-/

namespace Pinrail.ListElement
open Lib SumTree Cursor

variable {F : Type} {items : List (ListItem F)}

instance : LawfulSummary ListItemSummary where
  assoc a b c := by
    simp [Summary.addSummary, add_assoc, Bool.or_assoc]
  zero_add a := by
    simp [Summary.addSummary, Summary.zero]

/-! ## Positions -/

def ListItem.knownHeight (item : ListItem F) : Pixels := item.sizeHint.elim 0 Geometry.Size.height

theorem measure_concat_count (item : ListItem F) :
    (measure (items ++ [item]) : ListItemSummary).count = (measure items : ListItemSummary).count + 1 := by
  rw [← measure_concat]
  cases item <;> rfl

theorem measure_concat_height (item : ListItem F) : (measure (items ++ [item]) : ListItemSummary).height =
      (measure items : ListItemSummary).height + item.knownHeight := by
  rw [← measure_concat]
  cases item <;> rfl

theorem measure_count (items : List (ListItem F)) : (measure items : ListItemSummary).count = items.length := by
  induction items using List.reverseRecOn with
  | nil => rfl
  | append_singleton items item ih => rw [measure_concat_count, ih, List.length_append]; rfl

theorem startAt_count {i : Nat} (inside : i ≤ items.length) : (startAt items i).count = i := by
  rw [startAt, measure_count, List.length_take, Nat.min_eq_left inside]

theorem passes_iff {target : SeekTarget ListItemSummary} {bias : Bias} {s : ListItemSummary} :
    target.passes bias s = true ↔ target.cmp s = .gt ∨ target.cmp s = .eq ∧ bias = .right := by
  simp [SeekTarget.passes]

theorem passes_count {n : Nat} {s : ListItemSummary} : (count n).passes .right s = true ↔ s.count ≤ n := by
  rw [passes_iff, count, Nat.compare_eq_gt, Nat.compare_eq_eq, and_iff_left rfl]
  omega

theorem passes_height {h : Pixels} {bias : Bias} {s : ListItemSummary} :
    (height h).passes bias s = true ↔ s.height < h ∨ h = s.height ∧ bias = .right := by
  rw [passes_iff, height, compare_gt_iff_gt, compare_eq_iff_eq]

theorem isGE_height {h : Pixels} {s : ListItemSummary} : ((height h).cmp s).isGE = true ↔ s.height ≤ h := by
  rw [height, Ordering.isGE_iff_ne_lt]
  exact (not_congr compare_lt_iff_lt).trans not_lt

/-! ## Landing places -/

theorem landing_count {i n : Nat} (inside : i ≤ items.length) (ahead : i ≤ n) :
    ListCursor.landing items (count n) .right i = min n items.length := by
  obtain ⟨low, high, passed, stops⟩ := landing_spec items (count n) .right inside
  apply Nat.le_antisymm
  · rw [Nat.le_min]
    refine ⟨?_, high⟩
    by_contra beyond
    have pass := passed (ListCursor.landing items (count n) .right i - 1) (by omega) (by omega)
    rw [passes_count, measure_count, List.length_take] at pass
    omega
  · by_contra short
    have stop := stops (by omega)
    rw [← Bool.not_eq_true, passes_count, measure_count, List.length_take] at stop
    omega

theorem seekCount_eq (n : Nat) : seekCount items n = min n items.length := landing_count (Nat.zero_le _) (Nat.zero_le _)

theorem landing_height_le {i : Nat} {h : Pixels} {bias : Bias} (inside : i ≤ items.length)
    (ahead : (startAt items i).height ≤ h) :
    (startAt items (ListCursor.landing items (height h) bias i)).height ≤ h := by
  obtain ⟨low, high, passed, -⟩ := landing_spec items (height h) bias inside
  rcases Nat.eq_or_lt_of_le low with same | moved
  · rw [← same]
    exact ahead
  · have pass := passed (ListCursor.landing items (height h) bias i - 1) (by omega) (by omega)
    rw [Nat.sub_add_cancel (by omega), passes_height] at pass
    rcases pass with below | ⟨equal, -⟩
    · exact le_of_lt below
    · exact le_of_eq equal.symm

theorem seekForward_count {i n : Nat} (inside : i ≤ items.length) (ahead : i ≤ n) :
    seekForward items i (count n) .right = .ok (min n items.length) := by
  have forward : ((count n).cmp (startAt items i)).isGE = true := by
    simp only [count, startAt_count inside]
    rw [Nat.isGE_compare]
    exact ahead
  rw [seekForward, assert_of forward, ok_bind, landing_count inside ahead]
  rfl

theorem seekForward_height {i : Nat} {h : Pixels} {bias : Bias} (inside : i ≤ items.length)
    (ahead : (startAt items i).height ≤ h) :
    ∃ j, seekForward items i (height h) bias = .ok j ∧ j ≤ items.length ∧ (startAt items j).height ≤ h := by
  refine ⟨ListCursor.landing items (height h) bias i, ?_, (landing_spec items _ bias inside).2.1,
    landing_height_le inside ahead⟩
  rw [seekForward, assert_of (isGE_height.mpr ahead), ok_bind]
  rfl

theorem findStart_height (items : List (ListItem F)) {h : Pixels} (nonneg : 0 ≤ h) (bias : Bias) :
    (findStart items (height h) bias).count ≤ items.length ∧ (findStart items (height h) bias).height ≤ h := by
  have inside : (0 : Nat) ≤ items.length := Nat.zero_le _
  refine ⟨?_, landing_height_le inside nonneg⟩
  rw [findStart, startAt_count (landing_spec items _ bias inside).2.1]
  exact (landing_spec items _ bias inside).2.1

theorem startAt_findStart (items : List (ListItem F)) (target : SeekTarget ListItemSummary) (bias : Bias) :
    startAt items (seekCount items (findStart items target bias).count) = findStart items target bias := by
  have inside := (landing_spec items target bias (Nat.zero_le _)).2.1
  rw [seekCount_eq, findStart, startAt_count inside, Nat.min_eq_left inside]

/-! ## Trees -/

def Nonnegative (items : List (ListItem F)) : Prop := ∀ item ∈ items, 0 ≤ item.knownHeight

theorem measure_height_mono {before between : List (ListItem F)} (nonneg : Nonnegative between) :
    (measure before : ListItemSummary).height ≤ (measure (before ++ between) : ListItemSummary).height := by
  induction between using List.reverseRecOn with
  | nil => rw [List.append_nil]
  | append_singleton between item ih =>
    have below := ih fun other member => nonneg other (List.mem_append_left _ member)
    have last := nonneg item (by simp)
    rw [← List.append_assoc, measure_concat_height]
    linarith

theorem monotone_count (n : Nat) : Monotone (count n) .right items := by
  intro before between _ pass
  rw [passes_count, measure_count] at pass ⊢
  rw [List.length_append] at pass
  omega

theorem monotone_height (h : Pixels) (bias : Bias) (nonneg : Nonnegative items) : Monotone (height h) bias items := by
  intro before between within pass
  have below : (measure before : ListItemSummary).height ≤ (measure (before ++ between) : ListItemSummary).height :=
    measure_height_mono fun item member =>
      nonneg item (within.subset (List.mem_append_right _ member))
  rw [passes_height] at pass ⊢
  rcases pass with less | ⟨equal, right⟩
  · exact .inl (lt_of_le_of_lt below less)
  · rw [← equal] at below
    rcases lt_or_eq_of_le below with less | same
    · exact .inl less
    · exact .inr ⟨same.symm, right⟩

inductive ListTarget : SeekTarget ListItemSummary → Bias → Prop where
  | count (n : Nat) : ListTarget (count n) .right
  | height (h : Pixels) (bias : Bias) : ListTarget (height h) bias

theorem ListTarget.monotone {target : SeekTarget ListItemSummary} {bias : Bias}
    (asked : ListTarget target bias) (nonneg : Nonnegative items) : Monotone target bias items := by
  cases asked with
  | count n => exact monotone_count n
  | height h bias => exact monotone_height h bias nonneg

theorem cursor_seekForward {tree : SumTree (ListItem F) ListItemSummary} (wellFormed : WellFormed tree)
    (shallow : Shallow tree) (nonneg : Nonnegative tree.toList)
    {cursor : Cursor (ListItem F) ListItemSummary ListItemSummary} {i j : Nat}
    (represents : Represents tree cursor (.at i)) {target : SeekTarget ListItemSummary} {bias : Bias}
    (asked : ListTarget target bias) (sought : seekForward tree.toList i target bias = .ok j) : ∃ found moved,
    cursor.seekForward target bias = .ok (found, moved) ∧ Represents tree moved (.at j) ∧
    moved.start = startAt tree.toList j ∧ moved.item = .ok tree.toList[j]? := by
  obtain ⟨_, forward, landed⟩ := bind_eq_ok.mp sought
  obtain rfl := pure_eq_ok.mp landed
  have ahead : (target.cmp (startAt tree.toList i)).isGE = true := by
    unfold assert at forward
    split_ifs at forward
    assumption
  obtain ⟨found, moved, ran, after⟩ := represents.seekForward wellFormed shallow (by simp)
    ⟨ahead, asked.monotone nonneg⟩
  obtain ⟨-, item, -, -, start, -⟩ := after.observes wellFormed
  exact ⟨found, moved, ran, after, start, item⟩

theorem tree_find {tree : SumTree (ListItem F) ListItemSummary} (wellFormed : WellFormed tree)
    (nonneg : Nonnegative tree.toList) {target : SeekTarget ListItemSummary} {bias : Bias}
    (asked : ListTarget target bias) : (tree.find target bias).1 = findStart tree.toList target bias := by
  have lands := landing_append target bias [] tree.toList
  have cut := List.prefix_iff_eq_take.mp
    (passed_isPrefix target bias (Dimension.zero ListItemSummary : ListItemSummary) tree.toList)
  rw [(find_eq wellFormed (asked.monotone nonneg)).1 (LawfulSummary.zero_add _), findStart, startAt, cut]
  simp only [List.nil_append, List.length_nil, Nat.zero_add] at lands
  rw [lands]
  rfl

end Pinrail.ListElement

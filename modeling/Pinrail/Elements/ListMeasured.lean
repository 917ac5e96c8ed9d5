import Mathlib.Data.List.Forall2
import Pinrail.Elements.ListFrames

/-!
# What a layout measures

The loops of `layout_items` grow one stretch of measured items, first down from the scroll top and
then up. Each item of the stretch is the item that was there with a size, so that putting the stretch
back changes nothing else, and its heights are the rendered height that the loops count.
-/

namespace Pinrail.ListElement
open Lib Pinrail.Geometry StateInner

variable {F : Type} {renderer : Renderer F}

def MeasuredAs (renderer : Renderer F) (index : Nat) (old new : ListItem F) : Prop :=
  ∃ size, new = .measured size old.focusHandle ∧ (size = renderer.size index ∨ old.size = some size)

structure Remeasured (renderer : Renderer F) (before after : List (ListItem F)) (range : Range) :
    Prop where
  ordered : range.start ≤ range.stop
  inside : range.stop ≤ before.length
  length : after.length = before.length
  focusHandles : after.map ListItem.focusHandle = before.map ListItem.focusHandle
  outside : ∀ i, ¬ range.Contains i → after[i]? = before[i]?
  within : ∀ i, range.Contains i → ∃ old new, before[i]? = some old ∧ after[i]? = some new ∧
    MeasuredAs renderer i old new

def totalHeight (items : List (ListItem F)) : Pixels := (items.map ListItem.knownHeight).sum

/-- From a scroll top on, the items up to the end of a range cover a height, with the padding. -/
def Covers (items : List (ListItem F)) (range : Range) (padding : Edges) (availableHeight : Pixels)
    (top : ListOffset) : Prop :=
  availableHeight ≤ padding.top + totalHeight ((items.take range.stop).drop top.itemIx) +
    padding.bottom - top.offsetInItem

instance (items : List (ListItem F)) (range : Range) (padding : Edges) (availableHeight : Pixels)
    (top : ListOffset) : Decidable (Covers items range padding availableHeight top) :=
  inferInstanceAs (Decidable (_ ≤ _))

/-! ## Stretches -/

def MeasuredFrom (renderer : Renderer F) (start : Nat) (taken measured : List (ListItem F)) : Prop :=
  List.Forall₂ (fun entry new => MeasuredAs renderer entry.2 entry.1 new) (taken.zipIdx start) measured

structure Stretch (renderer : Renderer F) (items above measured below : List (ListItem F)) : Prop where
  split : ∃ taken, items = above.reverse ++ taken ++ below ∧ MeasuredFrom renderer above.length taken measured

section Stretches

variable {items above measured below : List (ListItem F)} {item new : ListItem F}

theorem MeasuredFrom.length {start : Nat} {taken : List (ListItem F)}
    (same : MeasuredFrom renderer start taken measured) : measured.length = taken.length := by
  rw [← List.Forall₂.length_eq same, List.length_zipIdx]

theorem Stretch.nil (renderer : Renderer F) (above below : List (ListItem F)) :
    Stretch renderer (above.reverse ++ below) above [] below :=
  ⟨[], by simp, .nil⟩

theorem Stretch.down (stretch : Stretch renderer items above measured (item :: below))
    (measuredAs : MeasuredAs renderer (above.length + measured.length) item new) :
    Stretch renderer items above (measured ++ [new]) below := by
  obtain ⟨taken, split, same⟩ := stretch.split
  refine ⟨taken ++ [item], by simp [split], ?_⟩
  rw [MeasuredFrom, List.zipIdx_append]
  rw [same.length] at measuredAs
  exact List.rel_append same (.cons measuredAs .nil)

theorem Stretch.up (stretch : Stretch renderer items (item :: above) measured below)
    (measuredAs : MeasuredAs renderer above.length item new) :
    Stretch renderer items above (new :: measured) below := by
  obtain ⟨taken, split, same⟩ := stretch.split
  exact ⟨item :: taken, by simp [split], .cons measuredAs same⟩

theorem Stretch.length (stretch : Stretch renderer items above measured below) :
    above.length + measured.length + below.length = items.length := by
  obtain ⟨taken, split, same⟩ := stretch.split
  rw [split, same.length]
  simp [Nat.add_assoc]

theorem Stretch.rebuild (stretch : Stretch renderer items above measured below) :
    items.take above.length ++ measured ++ items.drop (above.length + measured.length) =
      above.reverse ++ measured ++ below := by
  obtain ⟨taken, split, same⟩ := stretch.split
  have front : above.length = above.reverse.length := List.length_reverse.symm
  rw [same.length, split]
  nth_rewrite 1 [front]
  rw [front, List.append_assoc above.reverse, List.take_left, ← List.append_assoc above.reverse taken,
    ← List.length_append, List.drop_left]

theorem MeasuredFrom.focusHandles {start : Nat} {taken : List (ListItem F)}
    (same : MeasuredFrom renderer start taken measured) :
    measured.map ListItem.focusHandle = taken.map ListItem.focusHandle := by
  induction taken generalizing start measured with
  | nil =>
    cases same
    rfl
  | cons item taken ih =>
    cases same with
    | cons first rest =>
      obtain ⟨size, rfl, -⟩ := first
      rw [List.map_cons, List.map_cons, ih rest]
      rfl

theorem MeasuredFrom.at_index {start : Nat} {taken : List (ListItem F)}
    (same : MeasuredFrom renderer start taken measured) {i : Nat} (inside : i < taken.length) :
    ∃ old new, taken[i]? = some old ∧ measured[i]? = some new ∧ MeasuredAs renderer (start + i) old new := by
  induction taken generalizing start measured i with
  | nil => simp at inside
  | cons item taken ih =>
    cases same with
    | cons first rest =>
      cases i with
      | zero => exact ⟨_, _, rfl, rfl, first⟩
      | succ i =>
        obtain ⟨old, new, before, after, measuredAs⟩ := ih rest (Nat.lt_of_succ_lt_succ inside)
        refine ⟨old, new, before, after, ?_⟩
        rwa [Nat.add_assoc, Nat.add_comm 1] at measuredAs

theorem Stretch.remeasured (stretch : Stretch renderer items above measured below) :
    Remeasured renderer items (above.reverse ++ measured ++ below) ⟨above.length, above.length + measured.length⟩ := by
  obtain ⟨taken, rfl, same⟩ := stretch.split
  have lengths := same.length
  have front : above.reverse.length = above.length := List.length_reverse
  generalize above.reverse = before at front
  refine ⟨Nat.le_add_right _ _, ?_, ?_, ?_, ?_, ?_⟩
  · simp only [List.length_append, front, lengths]
    omega
  · simp [lengths]
  · simp [same.focusHandles]
  · intro i outside
    simp only [Range.Contains] at outside
    rcases Nat.lt_or_ge i above.length with early | late
    · rw [List.append_assoc, List.append_assoc, List.getElem?_append_left (by omega),
        List.getElem?_append_left (by omega)]
    · have behind : (before ++ taken).length ≤ i ∧ (before ++ measured).length ≤ i := by
        rw [List.length_append, List.length_append]
        omega
      rw [List.getElem?_append_right behind.1, List.getElem?_append_right behind.2,
        List.length_append, List.length_append, lengths]
  · intro i contained
    obtain ⟨from_start, to_stop⟩ := contained
    simp only at from_start to_stop
    obtain ⟨old, new, held, put, measuredAs⟩ := same.at_index (show i - above.length < taken.length by omega)
    rw [Nat.add_sub_cancel' from_start] at measuredAs
    refine ⟨old, new, ?_, ?_, measuredAs⟩
    · rw [List.append_assoc, List.getElem?_append_right (by omega), front, List.getElem?_append_left (by omega)]
      exact held
    · rw [List.append_assoc, List.getElem?_append_right (by omega), front, List.getElem?_append_left (by omega)]
      exact put

end Stretches

theorem totalHeight_append (first second : List (ListItem F)) :
    totalHeight (first ++ second) = totalHeight first + totalHeight second := by
  rw [totalHeight, List.map_append, List.sum_append]
  rfl

theorem totalHeight_cons (item : ListItem F) (items : List (ListItem F)) :
    totalHeight (item :: items) = item.knownHeight + totalHeight items := by
  rw [totalHeight, List.map_cons, List.sum_cons]
  rfl

namespace Pass

variable {pass : Pass F} {items above below : List (ListItem F)} {base availableHeight : Pixels}

structure Counts (renderer : Renderer F) (items above below : List (ListItem F)) (base : Pixels)
    (pass : Pass F) : Prop where
  stretch : Stretch renderer items above pass.measuredItems below
  height : pass.renderedHeight = base + totalHeight pass.measuredItems

/-! ## Down from the scroll top -/

theorem applyPending_measures (pass : Pass F) (size : Size Pixels) :
    (pass.applyPending size).measuredItems = pass.measuredItems ∧
    (pass.applyPending size).renderedHeight = pass.renderedHeight ∧
    (pass.applyPending size).scrollTop.itemIx = pass.scrollTop.itemIx := by
  rcases applyPending_cases size with taken | ⟨pending, offset, -, -, set⟩
  · rw [taken]
    exact ⟨rfl, rfl, rfl⟩
  · rw [set]
    exact ⟨rfl, rfl, rfl⟩

theorem renderItem_measures (renderer : Renderer F) (pass : Pass F) (availableHeight : Pixels) (ix : Nat)
    (item : ListItem F) : ∃ new, MeasuredAs renderer (pass.scrollTop.itemIx + ix) item new ∧
    (pass.renderItem renderer availableHeight ix item).measuredItems = pass.measuredItems ++ [new] ∧
    (pass.renderItem renderer availableHeight ix item).renderedHeight = pass.renderedHeight + new.knownHeight ∧
    (pass.renderItem renderer availableHeight ix item).scrollTop.itemIx = pass.scrollTop.itemIx := by
  unfold renderItem
  simp only
  split
  · rename_i size cached
    have own : item.size = some size := by
      split_ifs at cached
      exact cached
    exact ⟨_, ⟨size, rfl, .inr own⟩, rfl, rfl, rfl⟩
  · generalize element : renderer.size (pass.scrollTop.itemIx + ix) = size
    have applied : ∃ second, (if ix = 0 then pass.applyPending size else pass) = second ∧
        second.measuredItems = pass.measuredItems ∧ second.renderedHeight = pass.renderedHeight ∧
        second.scrollTop.itemIx = pass.scrollTop.itemIx := by
      split_ifs
      · exact ⟨_, rfl, applyPending_measures pass size⟩
      · exact ⟨_, rfl, rfl, rfl, rfl⟩
    obtain ⟨second, eq, measured, height, same⟩ := applied
    rw [eq]
    refine ⟨.measured size item.focusHandle, ⟨size, rfl, .inl element.symm⟩, ?_⟩
    rw [← measured, ← height, ← same]
    split_ifs
    · exact ⟨rfl, rfl, rfl⟩
    · exact ⟨rfl, rfl, rfl⟩

theorem renderDown_counts (availableHeight overdraw : Pixels) {ix : Nat}
    (counts : Counts renderer items above below base pass)
    (index : below ≠ [] → pass.scrollTop.itemIx + ix = above.length + pass.measuredItems.length) :
    (renderDown renderer availableHeight overdraw ix below pass).scrollTop.itemIx = pass.scrollTop.itemIx ∧ ∃ below',
    Counts renderer items above below' base (renderDown renderer availableHeight overdraw ix below pass) := by
  induction below generalizing ix pass with
  | nil => exact ⟨rfl, [], counts⟩
  | cons item below ih =>
    rw [renderDown]
    split_ifs
    · exact ⟨rfl, item :: below, counts⟩
    · obtain ⟨new, measuredAs, measured, height, same⟩ := renderItem_measures renderer pass availableHeight ix item
      have at_index := index (List.cons_ne_nil _ _)
      rw [at_index] at measuredAs
      have next : Counts renderer items above below base (pass.renderItem renderer availableHeight ix item) := by
        refine ⟨?_, ?_⟩
        · rw [measured]
          exact counts.stretch.down measuredAs
        · rw [height, measured, counts.height, totalHeight_append, totalHeight, totalHeight]
          simp [add_assoc]
      have further : (pass.renderItem renderer availableHeight ix item).scrollTop.itemIx + (ix + 1) = above.length +
            (pass.renderItem renderer availableHeight ix item).measuredItems.length := by
        rw [same, measured, List.length_append, List.length_singleton]
        omega
      obtain ⟨kept, rest⟩ := ih next fun _ => further
      exact ⟨kept.trans same, rest⟩

/-! ## Up from the scroll top -/

theorem fillUp_stops (renderer : Renderer F) (availableHeight : Pixels) (above : List (ListItem F)) (pass : Pass F) :
    (pass.fillUp renderer availableHeight above).1 = [] ∨
    availableHeight ≤ (pass.fillUp renderer availableHeight above).2.renderedHeight := by
  induction above generalizing pass with
  | nil => exact .inl rfl
  | cons item above ih =>
    rw [fillUp]
    split_ifs with short
    · exact ih _
    · exact .inr (not_lt.mp short)

theorem fillUp_counts (availableHeight : Pixels) (counts : Counts renderer items above below base pass) :
    Counts renderer items (pass.fillUp renderer availableHeight above).1 below base
      (pass.fillUp renderer availableHeight above).2 := by
  induction above generalizing pass with
  | nil => exact counts
  | cons item above ih =>
    rw [fillUp]
    split_ifs
    · apply ih
      refine ⟨counts.stretch.up ⟨_, rfl, .inl rfl⟩, ?_⟩
      rw [renderAbove, totalHeight_cons, counts.height]
      simp only [ListItem.knownHeight, ListItem.sizeHint, Option.elim_some]
      ring
    · exact counts

theorem moveUp_offset (renderer : Renderer F) (availableHeight : Pixels) (alignment : ListAlignment)
    (above : List (ListItem F)) (pass : Pass F)
    (covered : availableHeight ≤ (pass.fillUp renderer availableHeight above).2.renderedHeight) :
    availableHeight ≤ (pass.moveUp renderer availableHeight alignment above).2.renderedHeight -
      (pass.moveUp renderer availableHeight alignment above).2.scrollTop.offsetInItem := by
  cases alignment with
  | top =>
    simp only [moveUp]
    rw [max_eq_left (sub_nonneg.mpr covered)]
    linarith
  | bottom =>
    simp only [moveUp]
    linarith

theorem moveUp_counts (availableHeight : Pixels) (alignment : ListAlignment)
    (counts : Counts renderer items above below base pass) :
    Counts renderer items (pass.moveUp renderer availableHeight alignment above).1 below base
        (pass.moveUp renderer availableHeight alignment above).2 ∧
      (pass.moveUp renderer availableHeight alignment above).2.scrollTop.itemIx =
        (pass.moveUp renderer availableHeight alignment above).1.length ∧
      ((pass.moveUp renderer availableHeight alignment above).2.scrollTop.itemIx = 0 ∨
        availableHeight ≤ (pass.moveUp renderer availableHeight alignment above).2.renderedHeight -
          (pass.moveUp renderer availableHeight alignment above).2.scrollTop.offsetInItem) := by
  have filled := fillUp_counts availableHeight counts
  have covers := moveUp_offset renderer availableHeight alignment above pass
  have reaches := fillUp_stops renderer availableHeight above pass
  cases alignment with
  | top =>
    exact ⟨⟨filled.stretch, filled.height⟩, rfl, reaches.imp List.length_eq_zero_iff.mpr covers⟩
  | bottom =>
    exact ⟨⟨filled.stretch, filled.height⟩, rfl, reaches.imp List.length_eq_zero_iff.mpr covers⟩

theorem overdrawUp_stretch (overdraw leading : Pixels) {measured : List (ListItem F)}
    (stretch : Stretch renderer items above measured below) :
    Stretch renderer items (overdrawUp renderer overdraw above leading measured).1
        (overdrawUp renderer overdraw above leading measured).2 below ∧
      ∃ leadingItems, (overdrawUp renderer overdraw above leading measured).2 = leadingItems ++ measured := by
  induction above generalizing leading measured with
  | nil => exact ⟨stretch, [], rfl⟩
  | cons item above ih =>
    simp only [overdrawUp]
    split_ifs
    · have measuredAs : MeasuredAs renderer above.length item
          (.measured (item.size.getD (renderer.size above.length)) item.focusHandle) := by
        refine ⟨_, rfl, ?_⟩
        cases item.size with
        | none => exact .inl rfl
        | some size => exact .inr rfl
      obtain ⟨further, leadingItems, eq⟩ := ih (leading + (item.size.getD (renderer.size above.length)).height)
          (stretch.up measuredAs)
      exact ⟨further, leadingItems ++ [_], by rw [eq, List.append_assoc]; rfl⟩
    · exact ⟨stretch, [], rfl⟩

end Pass

namespace StateInner

variable {state : StateInner F}

/-! ## Layouts -/

def itemsAbove (self : StateInner F) (itemIx : Nat) : List (ListItem F) :=
  (self.items.take (seekCount self.items itemIx)).reverse

theorem itemsAbove_length (state : StateInner F) (itemIx : Nat) :
    (state.itemsAbove itemIx).length = min itemIx state.items.length := by
  rw [itemsAbove, List.length_reverse, List.length_take, seekCount_eq]
  omega

theorem layoutDown_counts (state : StateInner F) (availableHeight : Pixels) (padding : Edges) (renderer : Renderer F) :
    (state.layoutDown availableHeight padding renderer).scrollTop.itemIx = state.layoutTop.1.itemIx ∧ ∃ below,
    Pass.Counts renderer state.items (state.itemsAbove state.layoutTop.1.itemIx) below (padding.top + padding.bottom)
    (state.layoutDown availableHeight padding renderer) := by
  have length := state.itemsAbove_length state.layoutTop.1.itemIx
  have start : Pass.Counts renderer state.items (state.itemsAbove state.layoutTop.1.itemIx)
      (state.items.drop (seekCount state.items state.layoutTop.1.itemIx)) padding.top
      (⟨[], [], padding.top, 0, state.layoutTop.1, false, state.pendingScroll, state.layoutTop.2⟩ : Pass F) := by
    refine ⟨?_, ?_⟩
    · have whole := Stretch.nil renderer (state.itemsAbove state.layoutTop.1.itemIx)
        (state.items.drop (seekCount state.items state.layoutTop.1.itemIx))
      rw [itemsAbove, List.reverse_reverse, List.take_append_drop] at whole
      exact whole
    · simp [totalHeight]
  have index : state.items.drop (seekCount state.items state.layoutTop.1.itemIx) ≠ [] →
      state.layoutTop.1.itemIx + 0 = (state.itemsAbove state.layoutTop.1.itemIx).length + 0 := by
    intro more
    rw [ne_eq, List.drop_eq_nil_iff, seekCount_eq] at more
    omega
  obtain ⟨same, below, counts⟩ := Pass.renderDown_counts availableHeight state.overdraw start index
  refine ⟨same, below, counts.stretch, ?_⟩
  have height := counts.height
  simp only [layoutDown]
  rw [height]
  ring

/-- What a layout leaves: a measured stretch, whose items from the scroll top on are those that the
loops rendered, and which cover the height unless they begin with the first item. -/
structure Laid (state : StateInner F) (availableHeight : Pixels) (padding : Edges)
    (renderer : Renderer F) (above measured : List (ListItem F)) (pass : Pass F) : Prop where
  stretch : ∃ below, Stretch renderer state.items above measured below
  leading : ∃ leadingItems, measured = leadingItems ++ pass.measuredItems ∧
    (pass.scrollTop.itemIx = above.length + leadingItems.length ∨
      pass.measuredItems = [] ∧ state.items.length ≤ pass.scrollTop.itemIx)
  height : pass.renderedHeight = padding.top + padding.bottom + totalHeight pass.measuredItems
  covered : pass.scrollTop.itemIx = 0 ∨ availableHeight ≤ pass.renderedHeight - pass.scrollTop.offsetInItem

theorem layoutPass_laid (state : StateInner F) (availableHeight : Pixels) (padding : Edges) (renderer : Renderer F) :
    Laid state availableHeight padding renderer (state.layoutPass availableHeight padding renderer).1
      (state.layoutPass availableHeight padding renderer).2.1
      (state.layoutPass availableHeight padding renderer).2.2 := by
  obtain ⟨same, below, counts⟩ := state.layoutDown_counts availableHeight padding renderer
  rw [← same] at counts
  simp only [layoutPass]
  generalize state.layoutDown availableHeight padding renderer = pass at counts
  have length := state.itemsAbove_length pass.scrollTop.itemIx
  rw [itemsAbove] at counts length
  generalize (state.items.take (seekCount state.items pass.scrollTop.itemIx)).reverse = above at counts length
  -- Before the leading overdraw, the measured items are the rendered ones.
  have up : ∃ above' pass', (if pass.renderedHeight - pass.scrollTop.offsetInItem < availableHeight then
      pass.moveUp renderer availableHeight state.alignment above else (above, pass)) = (above', pass') ∧
        Pass.Counts renderer state.items above' below (padding.top + padding.bottom) pass' ∧
        (pass'.scrollTop.itemIx = above'.length ∨
          pass'.measuredItems = [] ∧ state.items.length ≤ pass'.scrollTop.itemIx) ∧
        (pass'.scrollTop.itemIx = 0 ∨ availableHeight ≤ pass'.renderedHeight - pass'.scrollTop.offsetInItem) := by
    split_ifs with short
    · obtain ⟨moved, place, covered⟩ := Pass.moveUp_counts availableHeight state.alignment counts
      exact ⟨_, _, rfl, moved, .inl place, covered⟩
    · refine ⟨above, pass, rfl, counts, ?_, .inr (not_lt.mp short)⟩
      rcases Nat.lt_or_ge pass.scrollTop.itemIx state.items.length with inside | beyond
      · left
        omega
      · right
        have whole := counts.stretch.length
        refine ⟨List.eq_nil_of_length_eq_zero ?_, beyond⟩
        omega
  obtain ⟨above', pass', eq, counts', place, covered⟩ := up
  simp only [eq]
  obtain ⟨stretch, leadingItems, extended⟩ :=
    Pass.overdrawUp_stretch state.overdraw pass'.scrollTop.offsetInItem counts'.stretch
  refine ⟨⟨below, stretch⟩, ⟨leadingItems, extended, ?_⟩, counts'.height, covered⟩
  rcases place with place | beyond
  · left
    have all := counts'.stretch.length
    have kept := stretch.length
    rw [extended, List.length_append] at kept
    omega
  · exact .inr beyond

/-! ## The first item -/

structure Ordinary (state : StateInner F) (padding : Edges) (renderer : Renderer F) : Prop where
  inv : Inv state
  rendered : Sizes renderer.size
  overdraw : 0 ≤ state.overdraw
  bottom : 0 ≤ padding.bottom

def startsAt (layouts : List ItemLayout) (index : Nat) : Prop :=
  layouts.head?.map ItemLayout.index = some index

theorem startsAt_append {layouts : List ItemLayout} {index : Nat} (starts : startsAt layouts index)
    (more : List ItemLayout) : startsAt (layouts ++ more) index := by
  cases layouts with
  | nil => cases starts
  | cons first layouts => exact starts

theorem renderItem_layouts (renderer : Renderer F) (pass : Pass F) (availableHeight : Pixels)
    (ix : Nat) (item : ListItem F) :
    ∃ more, (pass.renderItem renderer availableHeight ix item).itemLayouts = pass.itemLayouts ++ more ∧
      (pass.renderedHeight - pass.scrollTop.offsetInItem < availableHeight →
        startsAt more (pass.scrollTop.itemIx + ix)) := by
  have pending (size : Size Pixels) : (pass.applyPending size).itemLayouts = pass.itemLayouts := by
    rcases Pass.applyPending_cases size with taken | ⟨_, _, -, -, set⟩
    · rw [taken]
    · rw [set]
      rfl
  unfold Pass.renderItem
  by_cases visible : pass.renderedHeight - pass.scrollTop.offsetInItem < availableHeight
  · simp only [if_pos visible]
    refine ⟨[⟨pass.scrollTop.itemIx + ix, renderer.size (pass.scrollTop.itemIx + ix)⟩], ?_, fun _ => rfl⟩
    split_ifs
    · simp only [Pass.pushMeasured, Pass.pushLayout, pending]
    · rfl
  · simp only [if_neg visible]
    refine ⟨[], ?_, fun shown => absurd shown visible⟩
    rw [List.append_nil]
    split
    · rfl
    · split_ifs
      · exact pending _
      · rfl

theorem renderDown_layouts (renderer : Renderer F) (availableHeight overdraw : Pixels) (ix : Nat)
    (below : List (ListItem F)) (pass : Pass F) : ∃ more,
    (Pass.renderDown renderer availableHeight overdraw ix below pass).itemLayouts = pass.itemLayouts ++ more := by
  induction below generalizing ix pass with
  | nil => exact ⟨[], (List.append_nil _).symm⟩
  | cons item below ih =>
    rw [Pass.renderDown]
    split_ifs
    · exact ⟨[], (List.append_nil _).symm⟩
    · obtain ⟨first, pushed, -⟩ := renderItem_layouts renderer pass availableHeight ix item
      obtain ⟨more, rest⟩ := ih (ix + 1) (pass.renderItem renderer availableHeight ix item)
      exact ⟨first ++ more, by rw [rest, pushed, List.append_assoc]⟩

theorem layoutDown_starts {padding : Edges} (ordinary : Ordinary state padding renderer)
    (nonempty : state.items ≠ []) (first : state.layoutTop.1.itemIx = 0) {availableHeight : Pixels}
    (short : (state.layoutDown availableHeight padding renderer).renderedHeight < availableHeight) :
    startsAt (state.layoutDown availableHeight padding renderer).itemLayouts 0 := by
  obtain ⟨inv, rendered, overdraw, bottom⟩ := ordinary
  obtain ⟨passInv, -, -⟩ := layoutDown_spec inv rendered availableHeight padding
  obtain ⟨-, below, counts⟩ := state.layoutDown_counts availableHeight padding renderer
  have heights : 0 ≤ totalHeight (state.layoutDown availableHeight padding renderer).measuredItems := by
    apply List.sum_nonneg
    intro height member
    obtain ⟨item, measured, rfl⟩ := List.mem_map.mp member
    exact passInv.heights item measured
  have offset := (layoutTop_placed inv).1.2
  rw [counts.height] at short
  have visible : padding.top - state.layoutTop.1.offsetInItem < availableHeight := by linarith
  have whole : state.items.drop (seekCount state.items state.layoutTop.1.itemIx) = state.items := by
    rw [first, seekCount_eq, Nat.zero_min, List.drop_zero]
  simp only [layoutDown, whole]
  obtain ⟨item, rest, items⟩ := List.exists_cons_of_ne_nil nonempty
  rw [items, Pass.renderDown, if_neg (by simp only; linarith)]
  obtain ⟨more, pushed, starts⟩ := renderItem_layouts renderer (⟨[], [], padding.top, 0,
    state.layoutTop.1, false, state.pendingScroll, state.layoutTop.2⟩ : Pass F) availableHeight 0 item
  obtain ⟨further, kept⟩ := renderDown_layouts renderer availableHeight state.overdraw 1 rest
    (Pass.renderItem renderer availableHeight 0 item (⟨[], [], padding.top, 0,
      state.layoutTop.1, false, state.pendingScroll, state.layoutTop.2⟩ : Pass F))
  rw [kept, pushed]
  have at_zero := starts visible
  simp only [first] at at_zero
  exact startsAt_append at_zero _

theorem fillUp_starts (availableHeight : Pixels) {above : List (ListItem F)} {pass : Pass F}
    (starts : above = [] → startsAt pass.itemLayouts 0) (first : (pass.fillUp renderer availableHeight above).1 = []) :
    startsAt (pass.fillUp renderer availableHeight above).2.itemLayouts 0 := by
  induction above generalizing pass with
  | nil => exact starts rfl
  | cons item above ih =>
    rw [Pass.fillUp] at first ⊢
    split_ifs at first ⊢
    apply ih _ first
    rintro rfl
    rfl

theorem moveUp_starts (renderer : Renderer F) (alignment : ListAlignment)
    {above : List (ListItem F)} {pass : Pass F} {availableHeight : Pixels}
    (starts : above = [] → pass.renderedHeight < availableHeight → startsAt pass.itemLayouts 0)
    (short : (pass.moveUp renderer availableHeight alignment above).2.renderedHeight -
      (pass.moveUp renderer availableHeight alignment above).2.scrollTop.offsetInItem < availableHeight) :
    startsAt (pass.moveUp renderer availableHeight alignment above).2.itemLayouts 0 := by
  have below : (pass.fillUp renderer availableHeight above).2.renderedHeight < availableHeight := by
    by_contra covered
    exact absurd short (not_lt.mpr (Pass.moveUp_offset renderer availableHeight alignment above pass
        (not_lt.mp covered)))
  have first := (Pass.fillUp_stops renderer availableHeight above pass).resolve_right (not_le.mpr below)
  have filled : startsAt (pass.fillUp renderer availableHeight above).2.itemLayouts 0 := by
    refine fillUp_starts availableHeight (fun empty => starts empty ?_) first
    rw [empty] at below
    exact below
  cases alignment with
  | top => exact filled
  | bottom => exact filled

theorem layoutPass_starts {padding : Edges} (ordinary : Ordinary state padding renderer)
    (nonempty : state.items ≠ []) (availableHeight : Pixels)
    (short : (state.layoutPass availableHeight padding renderer).2.2.renderedHeight -
      (state.layoutPass availableHeight padding renderer).2.2.scrollTop.offsetInItem < availableHeight) :
    startsAt (state.layoutPass availableHeight padding renderer).2.2.itemLayouts 0 := by
  obtain ⟨same, -⟩ := state.layoutDown_counts availableHeight padding renderer
  have length := state.itemsAbove_length state.layoutTop.1.itemIx
  have items := List.length_pos_of_ne_nil nonempty
  have starts (empty : state.itemsAbove state.layoutTop.1.itemIx = [])
      (below : (state.layoutDown availableHeight padding renderer).renderedHeight < availableHeight) :
      startsAt (state.layoutDown availableHeight padding renderer).itemLayouts 0 := by
    rw [empty, List.length_nil] at length
    exact layoutDown_starts ordinary nonempty (by omega) below
  rw [← same] at starts
  simp only [layoutPass] at short ⊢
  split_ifs at short ⊢
  · exact moveUp_starts renderer state.alignment starts short
  · contradiction

/-! ## The measured range -/

/-- A layout measures one range of items and changes nothing else of them. From the scroll top on
they cover the height with the padding, or the layout starts with the first item. -/
theorem layoutItems_measures (state : StateInner F) (availableHeight : Pixels) (padding : Edges)
    (renderer : Renderer F) :
    ∃ range, Remeasured renderer state.items (state.layoutItems availableHeight padding renderer).1.items range ∧
      range.start ≤ (state.layoutItems availableHeight padding renderer).2.scrollTop.itemIx ∧
      (Covers (state.layoutItems availableHeight padding renderer).1.items range padding
          availableHeight (state.layoutItems availableHeight padding renderer).2.scrollTop ∨
        (state.layoutItems availableHeight padding renderer).2.scrollTop.itemIx = 0 ∧
          (Ordinary state padding renderer → state.items ≠ [] →
            startsAt (state.layoutItems availableHeight padding renderer).2.itemLayouts 0)) := by
  have laid := state.layoutPass_laid availableHeight padding renderer
  have starts (ordinary : Ordinary state padding renderer) (nonempty : state.items ≠ []) :=
    layoutPass_starts ordinary nonempty availableHeight
  simp only [layoutItems, refollow_items]
  generalize state.layoutPass availableHeight padding renderer = result at laid starts
  obtain ⟨above, measured, pass⟩ := result
  simp only at laid starts ⊢
  obtain ⟨below, stretch⟩ := laid.stretch
  obtain ⟨leadingItems, extended, place⟩ := laid.leading
  have total := stretch.length
  rw [seekCount_eq, seekCount_eq, Nat.min_eq_left (by omega), Nat.min_eq_left (by omega), stretch.rebuild]
  refine ⟨⟨above.length, above.length + measured.length⟩, stretch.remeasured, ?_, ?_⟩
  · simp only
    omega
  · by_cases short : pass.renderedHeight - pass.scrollTop.offsetInItem < availableHeight
    · right
      refine ⟨laid.covered.resolve_right (not_le.mpr short), fun ordinary nonempty => ?_⟩
      exact startsAt_append (starts ordinary nonempty short) _
    · left
      have rendered : ((above.reverse ++ measured ++ below).take
          (above.length + measured.length)).drop pass.scrollTop.itemIx = pass.measuredItems := by
        have front : above.length + measured.length = (above.reverse ++ measured).length := by simp
        rw [front, List.take_left]
        rcases place with place | ⟨none, beyond⟩
        · have leading : pass.scrollTop.itemIx = (above.reverse ++ leadingItems).length := by
            simp [place]
          rw [extended, ← List.append_assoc, leading, List.drop_left]
        · rw [none, List.drop_eq_nil_iff, ← front]
          omega
      rw [laid.height] at short
      rw [Covers, rendered]
      linarith

def fiveItems : StateInner Unit where
  lastLayoutBounds := none
  lastPadding := none
  items := List.replicate 5 (.measured ⟨100, 10⟩ none)
  logicalScrollTop := some ⟨5, 0⟩
  alignment := .top
  overdraw := 0
  reset := false
  scrollbarDragStartHeight := none
  measuringBehavior := .visible
  pendingScroll := none
  followState := .normal

def tenPixelsHigh : Renderer Unit := ⟨fun _ => ⟨100, 10⟩, fun _ => false⟩

theorem layoutItems_measures_fiveItems :
    ∃ range, Remeasured tenPixelsHigh fiveItems.items (fiveItems.layoutItems 60 ⟨0, 20⟩ tenPixelsHigh).1.items range ∧
      (Covers (fiveItems.layoutItems 60 ⟨0, 20⟩ tenPixelsHigh).1.items range ⟨0, 20⟩ 60
          (fiveItems.layoutItems 60 ⟨0, 20⟩ tenPixelsHigh).2.scrollTop ∨
        startsAt (fiveItems.layoutItems 60 ⟨0, 20⟩ tenPixelsHigh).2.itemLayouts 0) := by
  have inv : Inv fiveItems := by
    refine ⟨?_, nofun, by unfold Nonnegative; decide +kernel⟩
    rintro _ ⟨⟩
    exact ⟨le_rfl, le_rfl⟩
  have rendered : Sizes tenPixelsHigh.size := by
    intro i
    change (0 : ℚ) ≤ 10
    decide +kernel
  have ordinary : Ordinary fiveItems ⟨0, 20⟩ tenPixelsHigh := ⟨inv, rendered, le_rfl, by decide +kernel⟩
  obtain ⟨range, remeasured, -, covered⟩ := layoutItems_measures fiveItems 60 ⟨0, 20⟩ tenPixelsHigh
  exact ⟨range, remeasured, covered.imp_right fun first => first.2 ordinary (by decide)⟩

/-- Without the padding, the items from the scroll top on need not cover the height. -/
theorem layoutItems_padding : (fiveItems.layoutItems 40 ⟨0, 20⟩ tenPixelsHigh).2.scrollTop = ⟨3, 0⟩ ∧
      ¬ startsAt (fiveItems.layoutItems 40 ⟨0, 20⟩ tenPixelsHigh).2.itemLayouts 0 ∧
      ∀ range, Remeasured tenPixelsHigh fiveItems.items (fiveItems.layoutItems 40 ⟨0, 20⟩ tenPixelsHigh).1.items range →
        ¬ Covers (fiveItems.layoutItems 40 ⟨0, 20⟩ tenPixelsHigh).1.items range ⟨0, 0⟩ 40
          (fiveItems.layoutItems 40 ⟨0, 20⟩ tenPixelsHigh).2.scrollTop := by
  refine ⟨by decide +kernel, by unfold startsAt; decide +kernel, fun range remeasured => ?_⟩
  have uncovered : ∀ stop ≤ 5, ¬ Covers (fiveItems.layoutItems 40 ⟨0, 20⟩ tenPixelsHigh).1.items
      ⟨0, stop⟩ ⟨0, 0⟩ 40 (fiveItems.layoutItems 40 ⟨0, 20⟩ tenPixelsHigh).2.scrollTop := by
    decide +kernel
  exact uncovered range.stop remeasured.inside

end StateInner
end Pinrail.ListElement

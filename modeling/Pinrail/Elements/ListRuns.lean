import Pinrail.Elements.ListFrames

/-!
# Runs of list elements

What a list element is promised by its callers and by the layout of its items, and what holds of its
scroll top after every run in which these promises are kept.
-/

namespace Pinrail.ListElement
open Lib Pinrail.Geometry StateInner

variable {F : Type} {state : StateInner F} {n : Nat}

def Op.Valid (n : Nat) : Op F → Prop
  | .applyUniformItemHeight height => 0 ≤ height
  | .splice oldRange _ => InBounds n oldRange
  | .spliceFocusable oldRange _ => InBounds n oldRange
  | .remeasureItems range => InBounds n range
  | .scrollTo scrollTop => 0 ≤ scrollTop.offsetInItem
  | .requestLayout _ renderer => Sizes renderer.size
  | .prepaint _ _ first second => first.Nonnegative ∧ second.Nonnegative
  | _ => True

def Op.countAfter (n : Nat) : Op F → Nat
  | .reset elementCount => elementCount
  | .splice oldRange count => n - (oldRange.stop - oldRange.start) + count
  | .spliceFocusable oldRange focusHandles =>
    n - (oldRange.stop - oldRange.start) + focusHandles.length
  | _ => n

def ValidRun : Nat → List (Op F) → Prop
  | _, [] => True
  | n, op :: ops => op.Valid n ∧ ValidRun (op.countAfter n) ops

/-! ## Steps -/

theorem step_inv (inv : Inv state) {op : Op F} (valid : op.Valid state.items.length) :
    ∃ after, step state op = .ok after ∧ Inv after ∧ after.items.length = op.countAfter state.items.length := by
  have whole : InBounds state.items.length ⟨0, state.summary.count⟩ := ⟨Nat.zero_le _, le_of_eq state.summary_count⟩
  -- The operations that leave the items as they are end with an equation between lists.
  have same {after : StateInner F} (kept : Inv after ∧ after.items = state.items) :
      Inv after ∧ after.items.length = state.items.length := ⟨kept.1, congrArg List.length kept.2⟩
  cases op with
  | measureAll => exact ⟨_, rfl, ⟨inv.top, inv.pending, inv.heights⟩, rfl⟩
  | applyUniformItemHeight height => exact ⟨_, rfl, applyUniformItemHeight_inv inv valid⟩
  | reset elementCount => exact resetTo_inv inv elementCount
  | splice oldRange count => exact splice_inv inv valid count
  | spliceFocusable oldRange focusHandles => exact spliceFocusable_inv inv valid focusHandles
  | remeasure => exact remeasure_inv inv whole .proportional
  | remeasureItems range => exact remeasure_inv inv valid .absolute
  | scrollBy distance =>
    obtain ⟨after, ran, kept⟩ := scrollBy_inv inv distance
    exact ⟨after, ran, same kept⟩
  | scrollToEnd =>
    refine ⟨_, rfl, ⟨?_, ?_, inv.heights⟩, rfl⟩
    · intro top stored
      cases stored
      exact placed_end state
    · intro pending stored
      cases stored
  | setFollowMode mode =>
    cases mode with
    | normal => exact ⟨_, rfl, ⟨inv.top, inv.pending, inv.heights⟩, rfl⟩
    | tail =>
      refine ⟨_, rfl, ⟨?_, inv.pending, inv.heights⟩, rfl⟩
      intro top stored
      cases stored
      exact placed_end state
  | pauseFollowingTail => exact ⟨_, rfl, ⟨inv.top, inv.pending, inv.heights⟩, rfl⟩
  | scrollTo scrollTop => exact ⟨_, rfl, same (scrollTo_inv inv valid)⟩
  | scrollToRevealItem ix =>
    obtain ⟨after, ran, kept⟩ := scrollToRevealItem_inv inv ix
    exact ⟨after, ran, same kept⟩
  | scroll scrollTop viewportHeight deltaY =>
    exact ⟨_, rfl, same (scroll_inv inv scrollTop viewportHeight deltaY)⟩
  | scrollbarDragStarted => exact ⟨_, rfl, ⟨inv.top, inv.pending, inv.heights⟩, rfl⟩
  | scrollbarDragEnded => exact ⟨_, rfl, ⟨inv.top, inv.pending, inv.heights⟩, rfl⟩
  | setOffsetFromScrollbar pointY => exact ⟨_, rfl, same (setOffsetFromScrollbar_inv inv pointY)⟩
  | requestLayout padding renderer =>
    obtain ⟨kept, length, -⟩ := layoutItems_inv inv valid
      (state.lastLayoutBounds.elim state.overdraw fun bounds => bounds.size.height) padding
    exact ⟨_, rfl, kept, length⟩
  | prepaint bounds padding first second => exact prepaint_inv inv bounds padding valid.1 valid.2

theorem new_inv (itemCount : Nat) (alignment : ListAlignment) (overdraw : Pixels) : ∃ state : StateInner F,
    ListState.new itemCount alignment overdraw = .ok state ∧ Inv state ∧ state.items.length = itemCount := by
  have empty : Inv (⟨none, none, [], none, alignment, overdraw, false, none, .visible, none,
      .normal⟩ : StateInner F) := by
    refine ⟨?_, ?_, ?_⟩
    · intro top stored
      cases stored
    · intro pending stored
      cases stored
    · intro item member
      cases member
  have nothing : InBounds 0 ⟨0, 0⟩ := ⟨Nat.le_refl _, Nat.le_refl _⟩
  obtain ⟨state, spliced, inv, length⟩ := splice_inv empty nothing itemCount
  exact ⟨state, spliced, inv, by simpa using length⟩

/-! ## Runs -/

theorem steps_inv (inv : Inv state) {ops : List (Op F)} (valid : ValidRun state.items.length ops) : ∃ after,
    ops.foldlM step state = .ok after ∧ Inv after ∧
    after.items.length = ops.foldl Op.countAfter state.items.length := by
  induction ops generalizing state with
  | nil => exact ⟨state, rfl, inv, rfl⟩
  | cons op ops ih =>
    obtain ⟨next, ran, kept, length⟩ := step_inv inv valid.1
    obtain ⟨after, rest, inv', length'⟩ := ih kept (by rw [length]; exact valid.2)
    refine ⟨after, ?_, inv', ?_⟩
    · rw [List.foldlM_cons, ran]
      exact rest
    · rw [length', length]
      rfl

theorem run_inv (alignment : ListAlignment) (overdraw : Pixels) {itemCount : Nat} {ops : List (Op F)}
    (valid : ValidRun itemCount ops) : ∃ state, run itemCount alignment overdraw ops = .ok state ∧ Inv state ∧
    state.items.length = ops.foldl Op.countAfter itemCount := by
  obtain ⟨start, made, inv, length⟩ := new_inv (F := F) itemCount alignment overdraw
  obtain ⟨state, ran, kept, length'⟩ := steps_inv inv (by rw [length]; exact valid)
  refine ⟨state, ?_, kept, by rw [length', length]⟩
  rw [run, made]
  exact ran

theorem spliceFocusable_scrollTop {oldRange : Range} (inBounds : InBounds state.items.length oldRange)
    {focusHandles : List (Option F)} {after : StateInner F}
    (spliced : state.spliceFocusable oldRange focusHandles = .ok after) {top : ListOffset}
    (stored : state.logicalScrollTop = some top) (outside : ¬ oldRange.Contains top.itemIx) :
    after.logicalScrollTop = some ⟨survivor oldRange focusHandles.length top.itemIx, top.offsetInItem⟩ ∧
    after.items[survivor oldRange focusHandles.length top.itemIx]? = state.items[top.itemIx]? := by
  rw [spliceFocusable_eq inBounds] at spliced
  cases spliced
  constructor
  · rw [stored, Option.map_some, spliceOffset_outside outside]
  · have kept := getElem?_survivor inBounds (focusHandles.map (.unmeasured none)) outside
    rwa [List.length_map] at kept

theorem spliceFocusable_unset {oldRange : Range}
    (inBounds : InBounds state.items.length oldRange) {focusHandles : List (Option F)}
    {after : StateInner F} (spliced : state.spliceFocusable oldRange focusHandles = .ok after)
    (unset : state.logicalScrollTop = none) : after.logicalScrollTop = none := by
  rw [spliceFocusable_eq inBounds] at spliced
  cases spliced
  rw [unset]
  rfl

/-- In every run the scroll top is a place of the list, only splices change the number of items, and
a splice outside a scroll top that has been set keeps it at its item. -/
theorem run_scrollTop (alignment : ListAlignment) (overdraw : Pixels) {itemCount : Nat} {ops : List (Op F)}
    (valid : ValidRun itemCount ops) : ∃ state, run itemCount alignment overdraw ops = .ok state ∧
    Placed state.items.length state.logicalTop ∧ state.items.length = ops.foldl Op.countAfter itemCount ∧
    ∀ (oldRange : Range) (focusHandles : List (Option F)), InBounds state.items.length oldRange → ∃ after,
    state.spliceFocusable oldRange focusHandles = .ok after ∧
    after.items.length = state.items.length - (oldRange.stop - oldRange.start) + focusHandles.length ∧
    (state.logicalScrollTop = none → after.logicalScrollTop = none) ∧ ∀ top, state.logicalScrollTop = some top →
    ¬ oldRange.Contains top.itemIx →
    after.logicalScrollTop = some ⟨survivor oldRange focusHandles.length top.itemIx, top.offsetInItem⟩ ∧
    after.items[survivor oldRange focusHandles.length top.itemIx]? = state.items[top.itemIx]? := by
  obtain ⟨state, ran, inv, length⟩ := run_inv alignment overdraw valid
  refine ⟨state, ran, logicalTop_placed inv, length, ?_⟩
  intro oldRange focusHandles inBounds
  obtain ⟨after, spliced, -, length'⟩ := spliceFocusable_inv inv inBounds focusHandles
  exact ⟨after, spliced, length', spliceFocusable_unset inBounds spliced,
    fun top stored outside => spliceFocusable_scrollTop inBounds spliced stored outside⟩

/-- A frame in which every item is ten pixels high and the first painted one asks to be revealed. -/
def tenPixels : Frame Nat where
  measureAll _ := ⟨20, 10⟩
  renderer := ⟨fun _ => ⟨20, 10⟩, fun _ => false⟩
  autoscroll k := if k = 0 then some (-5, 5) else none
  measureAbove _ := ⟨20, 10⟩

theorem tenPixels_nonnegative : tenPixels.Nonnegative where
  measureAll _ := by norm_num [tenPixels]
  rendered _ := by norm_num [tenPixels]

/-- Items are replaced, the list is scrolled, laid out, and items in front of the scroll top are
measured again. -/
def scrolledOps : List (Op Nat) :=
  [.splice ⟨1, 2⟩ 4, .scrollTo ⟨3, 7⟩, .scrollBy 4,
    .prepaint ⟨⟨0, 0⟩, ⟨20, 15⟩⟩ ⟨0, 0⟩ tenPixels tenPixels, .remeasureItems ⟨0, 4⟩,
    .setOffsetFromScrollbar (-12)]

theorem scrolledOps_valid : ValidRun 3 scrolledOps := by
  have offset : (0 : Pixels) ≤ 7 := by norm_num
  exact ⟨⟨by decide, by decide⟩, offset, trivial, ⟨tenPixels_nonnegative, tenPixels_nonnegative⟩,
    ⟨by decide, by decide⟩, trivial, trivial⟩

theorem scrolledOps_scrollTop : ∃ state, run 3 .top 5 scrolledOps = .ok state ∧
    Placed state.items.length state.logicalTop ∧ state.items.length = scrolledOps.foldl Op.countAfter 3 ∧
    ∀ (oldRange : Range) (focusHandles : List (Option Nat)), InBounds state.items.length oldRange → ∃ after,
    state.spliceFocusable oldRange focusHandles = .ok after ∧
    after.items.length = state.items.length - (oldRange.stop - oldRange.start) + focusHandles.length ∧
    (state.logicalScrollTop = none → after.logicalScrollTop = none) ∧ ∀ top, state.logicalScrollTop = some top →
    ¬ oldRange.Contains top.itemIx →
    after.logicalScrollTop = some ⟨survivor oldRange focusHandles.length top.itemIx, top.offsetInItem⟩ ∧
    after.items[survivor oldRange focusHandles.length top.itemIx]? = state.items[top.itemIx]? :=
  run_scrollTop .top 5 scrolledOps_valid

/-- While no scroll top has been set, a splice in front of the first item leaves the list at its
top, which is another item then. -/
theorem splice_in_front_of_unset_scrollTop :
    ValidRun 0 [Op.spliceFocusable ⟨0, 0⟩ [some 1], .spliceFocusable ⟨0, 0⟩ [some 2]] ∧ ∃ before after : StateInner Nat,
    run 0 .top 0 [.spliceFocusable ⟨0, 0⟩ [some 1]] = .ok before ∧ before.logicalTop = ⟨0, 0⟩ ∧
    ¬ Range.Contains ⟨0, 0⟩ 0 ∧ before.items[0]? = some (.unmeasured none (some 1)) ∧
    before.spliceFocusable ⟨0, 0⟩ [some 2] = .ok after ∧ after.logicalTop = ⟨0, 0⟩ ∧ survivor ⟨0, 0⟩ 1 0 = 1 ∧
    after.items[0]? = some (.unmeasured none (some 2)) ∧ after.items[1]? = some (.unmeasured none (some 1)) := by
  refine ⟨⟨⟨by decide, by decide⟩, ⟨by decide, by decide⟩, trivial⟩,
    ⟨none, none, [.unmeasured none (some 1)], none, .top, 0, false, none, .visible, none, .normal⟩,
    ⟨none, none, [.unmeasured none (some 2), .unmeasured none (some 1)], none, .top, 0, false, none,
      .visible, none, .normal⟩, rfl, rfl, by decide, rfl, rfl, rfl, rfl, rfl, rfl⟩

end Pinrail.ListElement

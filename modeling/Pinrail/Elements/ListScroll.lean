import Pinrail.Elements.ListSeek

/-!
# The scroll top of a list element

Every operation keeps the logical scroll top at an item of the list, or at its end, with an offset
that is not negative. What the operations carry along for it: the pending scroll and the known
heights are not negative either.
-/

namespace Pinrail.ListElement
open Lib Pinrail.Geometry

variable {F : Type} {state : StateInner F} {n : Nat}

def Placed (n : Nat) (top : ListOffset) : Prop := top.itemIx ≤ n ∧ 0 ≤ top.offsetInItem

def PendingScroll.Nonnegative : PendingScroll → Prop
  | .absolute _ offset => 0 ≤ offset
  | .proportional _ fraction => 0 ≤ fraction

structure Inv (state : StateInner F) : Prop where
  top : ∀ top, state.logicalScrollTop = some top → Placed state.items.length top
  pending : ∀ pending, state.pendingScroll = some pending → pending.Nonnegative
  heights : Nonnegative state.items

namespace StateInner

theorem summary_count (state : StateInner F) : state.summary.count = state.items.length := measure_count state.items

theorem clamp_nonneg (x : Pixels) : 0 ≤ clamp x := le_max_left _ _

theorem logicalTop_placed (inv : Inv state) : Placed state.items.length state.logicalTop := by
  unfold logicalTop
  cases stored : state.logicalScrollTop with
  | some top => exact inv.top top stored
  | none =>
    cases state.alignment with
    | top => exact ⟨Nat.zero_le _, le_refl _⟩
    | bottom => exact ⟨le_of_eq state.summary_count, le_refl _⟩

theorem rebasePendingScroll_items (top : ListOffset) : (state.rebasePendingScroll top).items = state.items := by
  unfold rebasePendingScroll
  cases state.pendingScroll with
  | none => rfl
  | some pending => split_ifs <;> rfl

theorem rebasePendingScroll_pending {top : ListOffset} {pending : PendingScroll} (nonneg : 0 ≤ top.offsetInItem)
    (stored : (state.rebasePendingScroll top).pendingScroll = some pending) : pending.Nonnegative := by
  unfold rebasePendingScroll at stored
  cases old : state.pendingScroll with
  | none =>
    rw [old] at stored
    simp only at stored
    rw [old] at stored
    cases stored
  | some before =>
    rw [old] at stored
    simp only at stored
    split_ifs at stored
    cases before with
    | absolute itemIx offset =>
      cases stored
      exact nonneg
    | proportional itemIx fraction =>
      obtain ⟨size, -, stored⟩ := Option.bind_eq_some_iff.mp stored
      split_ifs at stored
      cases stored
      exact clamp_nonneg _

theorem setScrollTop_items (top : ListOffset) : (state.setScrollTop top).items = state.items :=
  rebasePendingScroll_items top

theorem setScrollTop_inv (heights : Nonnegative state.items) {top : ListOffset}
    (placed : Placed state.items.length top) : Inv (state.setScrollTop top) where
  top := by
    intro other stored
    cases stored
    rw [setScrollTop_items]
    exact placed
  pending := fun _ stored => rebasePendingScroll_pending placed.2 stored
  heights := by
    rw [setScrollTop_items]
    exact heights

/-! ## Splices -/

def InBounds (n : Nat) (range : Range) : Prop := range.start ≤ range.stop ∧ range.stop ≤ n

theorem seek_range {items : List (ListItem F)} {range : Range} (inBounds : InBounds items.length range) :
    seekCount items range.start = range.start ∧
    seekForward items range.start (count range.stop) .right = .ok range.stop := by
  obtain ⟨ordered, inside⟩ := inBounds
  constructor
  · rw [seekCount_eq]
    omega
  · rw [seekForward_count (by omega) ordered, Nat.min_eq_left inside]

def survivor (oldRange : Range) (count i : Nat) : Nat :=
  if oldRange.stop ≤ i then i - (oldRange.stop - oldRange.start) + count else i

theorem spliceFocusable_eq {oldRange : Range} (inBounds : InBounds state.items.length oldRange)
    (focusHandles : List (Option F)) :
    state.spliceFocusable oldRange focusHandles = .ok { state with
      items := state.items.take oldRange.start ++ focusHandles.map (.unmeasured none) ++ state.items.drop oldRange.stop
      logicalScrollTop := state.logicalScrollTop.map (spliceOffset oldRange focusHandles.length) } := by
  obtain ⟨start, stop⟩ := seek_range inBounds
  simp only [spliceFocusable, start, stop, ok_bind]
  rfl

theorem length_spliced {oldRange : Range} (inBounds : InBounds state.items.length oldRange) (new : List (ListItem F)) :
    (state.items.take oldRange.start ++ new ++ state.items.drop oldRange.stop).length =
      state.items.length - (oldRange.stop - oldRange.start) + new.length := by
  obtain ⟨ordered, inside⟩ := inBounds
  simp only [List.length_append, List.length_take, List.length_drop]
  omega

theorem getElem?_survivor {oldRange : Range} (inBounds : InBounds state.items.length oldRange)
    (new : List (ListItem F)) {i : Nat} (outside : ¬ oldRange.Contains i) :
    (state.items.take oldRange.start ++ new ++ state.items.drop oldRange.stop)[
      survivor oldRange new.length i]? = state.items[i]? := by
  obtain ⟨ordered, inside⟩ := inBounds
  have front : (state.items.take oldRange.start).length = oldRange.start := by
    rw [List.length_take]
    omega
  unfold survivor
  split_ifs with behind
  · rw [List.getElem?_append_right (by rw [List.length_append, front]; omega), List.length_append,
      front, List.getElem?_drop]
    congr 1
    omega
  · have before : i < oldRange.start := by
      unfold Range.Contains at outside
      omega
    rw [List.append_assoc, List.getElem?_append_left (by rw [front]; exact before), List.getElem?_take_of_lt before]

theorem spliceOffset_outside {oldRange : Range} {count : Nat} {top : ListOffset}
    (outside : ¬ oldRange.Contains top.itemIx) :
    spliceOffset oldRange count top = ⟨survivor oldRange count top.itemIx, top.offsetInItem⟩ := by
  unfold spliceOffset survivor
  rw [if_neg outside]
  split_ifs <;> rfl

theorem nonnegative_append {left right : List (ListItem F)} (first : Nonnegative left)
    (second : Nonnegative right) : Nonnegative (left ++ right) := by
  intro item member
  rcases List.mem_append.mp member with member | member
  · exact first item member
  · exact second item member

theorem nonnegative_cons {item : ListItem F} {items : List (ListItem F)}
    (first : 0 ≤ item.knownHeight) (rest : Nonnegative items) : Nonnegative (item :: items) :=
  List.forall_mem_cons.mpr ⟨first, rest⟩

theorem nonnegative_map {items : List (ListItem F)} {f : ListItem F → ListItem F}
    (each : ∀ item ∈ items, 0 ≤ (f item).knownHeight) : Nonnegative (items.map f) := by
  intro item member
  obtain ⟨other, within, rfl⟩ := List.mem_map.mp member
  exact each other within

theorem nonnegative_sublist {items others : List (ListItem F)} (nonneg : Nonnegative items)
    (sublist : others.Sublist items) : Nonnegative others :=
  fun item member => nonneg item (sublist.subset member)

theorem spliceFocusable_inv (inv : Inv state) {oldRange : Range} (inBounds : InBounds state.items.length oldRange)
    (focusHandles : List (Option F)) : ∃ after, state.spliceFocusable oldRange focusHandles = .ok after ∧ Inv after ∧
    after.items.length = state.items.length - (oldRange.stop - oldRange.start) + focusHandles.length := by
  have length := length_spliced inBounds (focusHandles.map (.unmeasured none))
  rw [List.length_map] at length
  refine ⟨_, spliceFocusable_eq inBounds focusHandles, ⟨?_, inv.pending, ?_⟩, length⟩
  · intro top stored
    obtain ⟨before, old, rfl⟩ := Option.map_eq_some_iff.mp stored
    obtain ⟨inside, nonneg⟩ := inv.top before old
    obtain ⟨ordered, within⟩ := inBounds
    rw [Placed, length]
    by_cases replaced : oldRange.Contains before.itemIx
    · rw [spliceOffset, if_pos replaced]
      exact ⟨by simp only; omega, le_refl _⟩
    · rw [spliceOffset_outside replaced]
      refine ⟨?_, nonneg⟩
      unfold Range.Contains at replaced
      simp only [survivor]
      split_ifs <;> omega
  · apply nonnegative_append
    · apply nonnegative_append
      · exact nonnegative_sublist inv.heights (List.take_sublist _ _)
      · intro item member
        obtain ⟨handle, -, rfl⟩ := List.mem_map.mp member
        exact le_refl _
    · exact nonnegative_sublist inv.heights (List.drop_sublist _ _)

theorem splice_inv (inv : Inv state) {oldRange : Range} (inBounds : InBounds state.items.length oldRange)
    (count : Nat) : ∃ after, state.splice oldRange count = .ok after ∧ Inv after ∧
    after.items.length = state.items.length - (oldRange.stop - oldRange.start) + count := by
  obtain ⟨after, spliced, kept, length⟩ := spliceFocusable_inv inv inBounds (List.replicate count none)
  rw [List.length_replicate] at length
  exact ⟨after, spliced, kept, length⟩

theorem resetTo_inv (inv : Inv state) (elementCount : Nat) :
    ∃ after, state.resetTo elementCount = .ok after ∧ Inv after ∧ after.items.length = elementCount := by
  have cleared : Inv { state with
      reset := true
      measuringBehavior := state.measuringBehavior.reset
      logicalScrollTop := none
      pendingScroll := none
      scrollbarDragStartHeight := none } := by
    refine ⟨?_, ?_, inv.heights⟩
    · intro top stored
      cases stored
    · intro pending stored
      cases stored
  have whole : InBounds state.items.length ⟨0, state.items.length⟩ := ⟨Nat.zero_le _, Nat.le_refl _⟩
  obtain ⟨after, spliced, kept, length⟩ := splice_inv cleared whole elementCount
  refine ⟨after, ?_, kept, by simpa using length⟩
  rw [resetTo, summary_count]
  exact spliced

/-! ## Measurements -/

theorem knownHeight_unmeasured (item : ListItem F) :
    (ListItem.unmeasured item.sizeHint item.focusHandle).knownHeight = item.knownHeight := rfl

theorem applyUniformItemHeight_inv (inv : Inv state) {height : Pixels} (nonneg : 0 ≤ height) :
    Inv (state.applyUniformItemHeight height) ∧
    (state.applyUniformItemHeight height).items.length = state.items.length := by
  have length : (state.applyUniformItemHeight height).items.length = state.items.length := List.length_map _
  refine ⟨⟨?_, inv.pending, ?_⟩, length⟩
  · intro top stored
    rw [length]
    exact inv.top top stored
  · apply nonnegative_map
    intro item member
    have known := inv.heights item member
    unfold ListItem.knownHeight at known ⊢
    cases hint : item.sizeHint with
    | none => exact nonneg
    | some size =>
      rw [hint] at known
      exact known

theorem anchorScroll_nonneg (inv : Inv state) {top : ListOffset} (nonneg : 0 ≤ top.offsetInItem) (anchor : ScrollAnchor)
    {pending : PendingScroll} (stored : state.anchorScroll top anchor = some pending) : pending.Nonnegative := by
  cases anchor with
  | absolute =>
    cases stored
    exact nonneg
  | proportional =>
    rcases Option.or_eq_some_iff.mp stored with measured | ⟨-, old⟩
    · obtain ⟨size, -, rfl⟩ := Option.map_eq_some_iff.mp measured
      simp only [PendingScroll.Nonnegative]
      split_ifs
      · exact clamp_nonneg _
      · exact le_refl _
    · exact inv.pending pending old

theorem remeasure_inv (inv : Inv state) {range : Range} (inBounds : InBounds state.items.length range)
    (anchor : ScrollAnchor) : ∃ after, state.remeasureItemsWithScrollAnchor range anchor = .ok after ∧ Inv after ∧
    after.items.length = state.items.length := by
  obtain ⟨start, stop⟩ := seek_range inBounds
  simp only [remeasureItemsWithScrollAnchor, start, stop, ok_bind]
  have length : (state.items.take range.start ++ ((state.items.take range.stop).drop range.start).map (fun item =>
        ListItem.unmeasured item.sizeHint item.focusHandle) ++
      state.items.drop range.stop).length = state.items.length := by
    obtain ⟨ordered, inside⟩ := inBounds
    simp only [List.length_append, List.length_take, List.length_map, List.length_drop]
    omega
  refine ⟨_, rfl, ⟨?_, ?_, ?_⟩, length⟩
  · intro top stored
    rw [Placed, length]
    exact inv.top top stored
  · intro pending stored
    simp only at stored
    cases old : state.logicalScrollTop with
    | none =>
      rw [old] at stored
      exact inv.pending pending stored
    | some top =>
      rw [old] at stored
      simp only at stored
      split_ifs at stored
      · exact anchorScroll_nonneg inv (inv.top top old).2 anchor stored
      · exact inv.pending pending stored
  · apply nonnegative_append
    · apply nonnegative_append
      · exact nonnegative_sublist inv.heights (List.take_sublist _ _)
      · apply nonnegative_map
        intro item member
        rw [knownHeight_unmeasured]
        exact inv.heights item (List.mem_of_mem_take (List.mem_of_mem_drop member))
    · exact nonnegative_sublist inv.heights (List.drop_sublist _ _)

/-! ## Scrolling -/

theorem placed_end (state : StateInner F) : Placed state.items.length ⟨state.summary.count, 0⟩ :=
  ⟨le_of_eq state.summary_count, le_refl _⟩

theorem stopFollowingIf_items (p : Prop) [Decidable p] : (state.stopFollowingIf p).items = state.items := by
  unfold stopFollowingIf
  split_ifs <;> rfl

theorem stopFollowingIf_inv (inv : Inv state) (p : Prop) [Decidable p] : Inv (state.stopFollowingIf p) := by
  unfold stopFollowingIf
  split_ifs
  · exact ⟨inv.top, inv.pending, inv.heights⟩
  · exact inv

theorem scrollBy_inv (inv : Inv state) (distance : Pixels) :
    ∃ after, state.scrollBy distance = .ok after ∧ Inv after ∧ after.items = state.items := by
  unfold scrollBy
  split_ifs with still
  · exact ⟨state, rfl, inv, rfl⟩
  · obtain ⟨inside, nonneg⟩ := logicalTop_placed inv
    have cursor : seekCount state.items state.logicalTop.itemIx = state.logicalTop.itemIx := by
      rw [seekCount_eq, Nat.min_eq_left inside]
    simp only [stopFollowingIf_items, cursor]
    generalize target_eq : max ((startAt state.items state.logicalTop.itemIx).height +
      state.logicalTop.offsetInItem + distance) 0 = target
    have positive : 0 ≤ target := target_eq ▸ le_max_right _ _
    -- The seek goes forward only when the target lies below the current scroll top.
    obtain ⟨j, sought, bound, below⟩ : ∃ j, seekForward state.items
        (if target > (startAt state.items state.logicalTop.itemIx).height +
          state.logicalTop.offsetInItem then state.logicalTop.itemIx else 0) (height target) .right =
          .ok j ∧ j ≤ state.items.length ∧ (startAt state.items j).height ≤ target := by
      split_ifs with down
      · exact seekForward_height inside (by linarith)
      · exact seekForward_height (Nat.zero_le _) positive
    simp only [sought, ok_bind]
    refine ⟨_, rfl, setScrollTop_inv ?_ ⟨?_, ?_⟩, ?_⟩
    · rw [stopFollowingIf_items]
      exact inv.heights
    · rw [stopFollowingIf_items, startAt_count bound]
      exact bound
    · exact sub_nonneg.mpr below
    · rw [setScrollTop_items, stopFollowingIf_items]

theorem scrollTo_inv (inv : Inv state) {top : ListOffset} (nonneg : 0 ≤ top.offsetInItem) :
    Inv (state.scrollTo top) ∧ (state.scrollTo top).items = state.items := by
  unfold scrollTo
  simp only [summary_count]
  refine ⟨setScrollTop_inv ?_ ?_, ?_⟩
  · rw [stopFollowingIf_items]
    exact inv.heights
  · rw [stopFollowingIf_items]
    split_ifs with beyond
    · exact ⟨Nat.le_refl _, le_refl _⟩
    · exact ⟨by omega, nonneg⟩
  · rw [setScrollTop_items, stopFollowingIf_items]

theorem scrollToRevealItem_inv (inv : Inv state) (ix : Nat) :
    ∃ after, state.scrollToRevealItem ix = .ok after ∧ Inv after ∧ after.items = state.items := by
  have placed := logicalTop_placed inv
  simp only [scrollToRevealItem]
  split_ifs with above
  · exact ⟨_, rfl, setScrollTop_inv inv.heights ⟨Nat.le_trans above placed.1, le_refl _⟩, setScrollTop_items _⟩
  · generalize goal_eq : max 0 ((startAt state.items (seekCount state.items (ix + 1))).height +
      state.padding.top - state.layoutHeight + state.padding.bottom) = goalTop
    have positive : 0 ≤ goalTop := goal_eq ▸ le_max_left _ _
    obtain ⟨j, sought, bound, below⟩ : ∃ j, seekForward state.items 0 (height goalTop) .left = .ok j ∧
        j ≤ state.items.length ∧ (startAt state.items j).height ≤ goalTop :=
      seekForward_height (Nat.zero_le _) positive
    simp only [seek, sought, ok_bind]
    refine ⟨_, rfl, setScrollTop_inv inv.heights ?_, setScrollTop_items _⟩
    rw [startAt_count bound]
    split_ifs
    · exact ⟨bound, sub_nonneg.mpr below⟩
    · exact placed

theorem scrollToPixel_inv (inv : Inv state) {target : Pixels} (nonneg : 0 ≤ target) (scrollMax : Pixels) :
    Inv (state.scrollToPixel target scrollMax) ∧ (state.scrollToPixel target scrollMax).items = state.items := by
  unfold scrollToPixel
  split_ifs
  · refine ⟨⟨?_, ?_, inv.heights⟩, rfl⟩
    · intro top stored
      cases stored
    · intro pending stored
      cases stored
  · obtain ⟨inside, below⟩ := findStart_height state.items nonneg .right
    exact ⟨setScrollTop_inv inv.heights ⟨inside, sub_nonneg.mpr below⟩, setScrollTop_items _⟩

theorem scroll_inv (inv : Inv state) (top : ListOffset) (viewportHeight deltaY : Pixels) :
    Inv (state.scroll top viewportHeight deltaY) ∧ (state.scroll top viewportHeight deltaY).items = state.items := by
  unfold scroll
  split_ifs
  · exact ⟨inv, rfl⟩
  · obtain ⟨kept, items⟩ := scrollToPixel_inv inv (le_min (le_max_right _ _) (le_max_right _ _)) _
    exact ⟨stopFollowingIf_inv kept _, (stopFollowingIf_items _).trans items⟩

theorem setOffsetFromScrollbar_inv (inv : Inv state) (pointY : Pixels) : Inv (state.setOffsetFromScrollbar pointY) ∧
    (state.setOffsetFromScrollbar pointY).items = state.items := by
  unfold setOffsetFromScrollbar
  split
  · exact ⟨inv, rfl⟩
  · simp only
    split_ifs
    · refine ⟨⟨?_, ?_, inv.heights⟩, rfl⟩
      · intro top stored
        cases stored
        exact placed_end state
      · intro pending stored
        cases stored
    · have stopped : Inv { state with followState := state.followState.stopFollowing } :=
        ⟨inv.top, inv.pending, inv.heights⟩
      exact scrollToPixel_inv stopped (le_min (le_max_right _ _) (le_max_right _ _)) _

end StateInner
end Pinrail.ListElement

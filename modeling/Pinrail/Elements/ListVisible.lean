import Pinrail.Elements.ListScrollbar

/-!
# The visible range of a list element

What a scroll handler is told about the items in the viewport. Items are painted one below the other
under the padding, so the edges between them are a monotone sequence, and the items that meet the
viewport are an interval. The range of a scroll event is the interval of the scroll top that the
event started from.
-/

namespace Pinrail.ListElement
open Lib Pinrail.Geometry

variable {F : Type} {state : StateInner F} {items : List (ListItem F)}

structure ListScrollEvent where
  visibleRange : Range
  count : Nat
  isScrolled : Bool
  isFollowingTail : Bool
deriving DecidableEq

def visibleRange (items : List (ListItem F)) (viewportHeight : Pixels) (scrollTop : ListOffset) :
    Except Panic Range := do
  let cursor := seekCount items scrollTop.itemIx
  let startY := (startAt items cursor).height + scrollTop.offsetInItem
  let cursor ← seekForward items cursor (height (startY + viewportHeight)) .left
  return ⟨scrollTop.itemIx, (startAt items cursor).count + 1⟩

/-- What `scroll` calls the scroll handler with. -/
def StateInner.scrollEvent (self : StateInner F) (scrollTop : ListOffset)
    (viewportHeight deltaY : Pixels) : Except Panic (Option ListScrollEvent) := do
  if self.reset then return none
  let after := self.scroll scrollTop viewportHeight deltaY
  let visibleRange ← visibleRange after.items viewportHeight scrollTop
  return some ⟨visibleRange, after.summary.count, after.logicalScrollTop.isSome, after.followState.isFollowing⟩

/-! ## Intervals of a monotone sequence -/

section Intervals

variable {edge : Nat → Pixels} {low high : Pixels} {first last n : Nat}

def Meets (edge : Nat → Pixels) (low high : Pixels) (i : Nat) : Prop :=
  low < edge (i + 1) ∧ edge i < high

/-- The parts from the first to the last one are those of the first `n` that meet a span. -/
structure Spans (edge : Nat → Pixels) (low high : Pixels) (first last n : Nat) : Prop where
  above : first = 0 ∨ edge first ≤ low
  firstMeets : low < edge (first + 1)
  lastMeets : edge last < high
  below : last + 1 = n ∨ high ≤ edge (last + 1)

theorem spans_iff (mono : Monotone edge) (ordered : first ≤ last) (inside : last < n) :
    (∀ i, first ≤ i ∧ i < last + 1 ↔ i < n ∧ Meets edge low high i) ↔ Spans edge low high first last n := by
  constructor
  · intro exact
    obtain ⟨-, firstMeets, -⟩ := (exact first).mp ⟨Nat.le_refl _, by omega⟩
    obtain ⟨-, -, lastMeets⟩ := (exact last).mp ⟨ordered, Nat.lt_succ_self _⟩
    refine ⟨?_, firstMeets, lastMeets, ?_⟩
    · rcases Nat.eq_zero_or_pos first with zero | positive
      · exact .inl zero
      · right
        by_contra within
        have before : edge (first - 1) < high := lt_of_le_of_lt (mono (by omega)) lastMeets
        have meets : Meets edge low high (first - 1) := by
          refine ⟨?_, before⟩
          rw [Nat.sub_add_cancel positive]
          exact lt_of_not_ge within
        have counted := (exact (first - 1)).mpr ⟨by omega, meets⟩
        omega
    · rcases Nat.eq_or_lt_of_le (Nat.succ_le_of_lt inside) with whole | short
      · exact .inl whole
      · right
        by_contra within
        have after : low < edge (last + 1 + 1) := lt_of_lt_of_le firstMeets (mono (by omega))
        have counted := (exact (last + 1)).mpr ⟨short, after, lt_of_not_ge within⟩
        omega
  · rintro ⟨above, firstMeets, lastMeets, below⟩ i
    constructor
    · rintro ⟨from_first, to_last⟩
      exact ⟨by omega, lt_of_lt_of_le firstMeets (mono (by omega)), lt_of_le_of_lt (mono (by omega)) lastMeets⟩
    · rintro ⟨counted, meetsLow, meetsHigh⟩
      constructor
      · by_contra before
        rcases above with zero | above
        · omega
        · have hidden : edge (i + 1) ≤ edge first := mono (by omega)
          exact absurd (lt_of_lt_of_le meetsLow (hidden.trans above)) (lt_irrefl _)
      · by_contra after
        rcases below with whole | below
        · omega
        · have hidden : edge (last + 1) ≤ edge i := mono (by omega)
          exact absurd (lt_of_le_of_lt (below.trans hidden) meetsHigh) (lt_irrefl _)

end Intervals

/-! ## The range of a scroll top -/

theorem monotone_startAt (nonneg : Nonnegative items) : Monotone fun i => (startAt items i).height := by
  intro i j below
  have split := List.take_append_drop i (items.take j)
  rw [List.take_take, Nat.min_eq_left below] at split
  have later : Nonnegative ((items.take j).drop i) := fun item member =>
    nonneg item (List.mem_of_mem_take (List.mem_of_mem_drop member))
  simp only [startAt]
  rw [← split]
  exact measure_height_mono later

structure Ends (items : List (ListItem F)) (viewportHeight : Pixels) (top : ListOffset) (last : Nat) :
    Prop where
  ordered : top.itemIx ≤ last
  inside : last < items.length
  ahead : 0 ≤ top.offsetInItem + viewportHeight
  reached : (startAt items top.itemIx).height + top.offsetInItem + viewportHeight ≤ (startAt items (last + 1)).height
  least : last = top.itemIx ∨
    (startAt items last).height < (startAt items top.itemIx).height + top.offsetInItem + viewportHeight

section Ranges

variable {viewportHeight : Pixels} {top : ListOffset} {last : Nat}

theorem Ends.landing (nonneg : Nonnegative items) (ends : Ends items viewportHeight top last) : ListCursor.landing items
      (height ((startAt items top.itemIx).height + top.offsetInItem + viewportHeight)) .left
      top.itemIx = last := by
  obtain ⟨ordered, inside, -, reached, least⟩ := ends
  have before : top.itemIx ≤ items.length := by omega
  have mono := monotone_startAt nonneg
  obtain ⟨low, high, passed, stops⟩ := Cursor.landing_spec items
    (height ((startAt items top.itemIx).height + top.offsetInItem + viewportHeight)) .left before
  apply Nat.le_antisymm
  · by_contra beyond
    have pass := passed last ordered (by omega)
    rw [passes_height] at pass
    rcases pass with below | ⟨-, right⟩
    · exact absurd (lt_of_lt_of_le below reached) (lt_irrefl _)
    · cases right
  · by_contra short
    have stop := stops (by omega)
    rw [← Bool.not_eq_true, passes_height] at stop
    rcases least with same | least
    · omega
    · have edges := mono (Nat.succ_le_of_lt (Nat.lt_of_not_le short))
      exact stop (.inl (lt_of_le_of_lt edges least))

theorem Ends.visibleRange (nonneg : Nonnegative items) (ends : Ends items viewportHeight top last) :
    visibleRange items viewportHeight top = .ok ⟨top.itemIx, last + 1⟩ := by
  have before : top.itemIx ≤ items.length := Nat.le_of_lt (Nat.lt_of_le_of_lt ends.ordered ends.inside)
  have forward : ((height ((startAt items top.itemIx).height + top.offsetInItem +
      viewportHeight)).cmp (startAt items top.itemIx)).isGE = true := by
    rw [isGE_height]
    linarith [ends.ahead]
  simp only [ListElement.visibleRange, seekCount_eq, Nat.min_eq_left before, seekForward]
  rw [assert_of forward, ok_bind, ends.landing nonneg]
  change Except.ok (⟨top.itemIx, (startAt items last).count + 1⟩ : Range) = _
  rw [startAt_count (Nat.le_of_lt ends.inside)]

theorem visibleRange_ends {range : Range} (found : visibleRange items viewportHeight top = .ok range)
    (inside : range.stop ≤ items.length) :
    ∃ last, Ends items viewportHeight top last ∧ range = ⟨top.itemIx, last + 1⟩ := by
  obtain ⟨last, sought, made⟩ := bind_eq_ok.mp found
  obtain ⟨_, forward, landed⟩ := bind_eq_ok.mp sought
  obtain rfl := pure_eq_ok.mp made
  have landed := pure_eq_ok.mp landed
  have start : seekCount items top.itemIx ≤ items.length := by
    rw [seekCount_eq]
    exact Nat.min_le_right _ _
  obtain ⟨low, high, passed, stops⟩ := Cursor.landing_spec items
    (height ((startAt items (seekCount items top.itemIx)).height + top.offsetInItem + viewportHeight)) .left start
  rw [landed] at low high passed stops
  simp only [startAt_count high] at inside ⊢
  rw [seekCount_eq] at low
  have first : seekCount items top.itemIx = top.itemIx := by
    rw [seekCount_eq]
    omega
  rw [first] at forward passed stops
  refine ⟨last, ⟨by omega, by omega, ?_, ?_, ?_⟩, rfl⟩
  · unfold assert at forward
    split_ifs at forward with ge
    rw [isGE_height] at ge
    linarith
  · have stop := stops (by omega)
    rw [← Bool.not_eq_true, passes_height, not_or, not_lt] at stop
    exact stop.1
  · rcases Nat.eq_or_lt_of_le (show top.itemIx ≤ last by omega) with same | moved
    · exact .inl same.symm
    · right
      have pass := passed (last - 1) (by omega) (by omega)
      rw [Nat.sub_add_cancel (by omega), passes_height] at pass
      rcases pass with below | ⟨-, right⟩
      · exact below
      · cases right

end Ranges

namespace StateInner

/-! ## Positions -/

def itemTop (self : StateInner F) (i : Nat) : Pixels := self.padding.top + (startAt self.items i).height

def contentEnd (self : StateInner F) (viewportHeight : Pixels) : Pixels :=
  self.summary.height + self.padding.top + self.padding.bottom - viewportHeight

/-- Where the viewport stands in the content. A list without a scroll top is at its start, or at its
end. -/
def position (self : StateInner F) (viewportHeight : Pixels) : Pixels :=
  self.logicalScrollTop.elim
    (match self.alignment with
      | .top => 0
      | .bottom => self.contentEnd viewportHeight)
    self.scrollTop

def scrolledTo (self : StateInner F) (scrollTop : ListOffset) (viewportHeight deltaY : Pixels) :
    Pixels :=
  let scrollMax := max (self.contentEnd viewportHeight) 0
  let target := min (max (self.scrollTop scrollTop - deltaY) 0) scrollMax
  if self.alignment = .bottom ∧ target = scrollMax then self.contentEnd viewportHeight else target

theorem monotone_itemTop (nonneg : Nonnegative state.items) : Monotone state.itemTop :=
  fun _ _ below => add_le_add_right (monotone_startAt nonneg below) _

theorem position_stopFollowingIf (p : Prop) [Decidable p] (viewportHeight : Pixels) :
    (state.stopFollowingIf p).position viewportHeight = state.position viewportHeight := by
  unfold stopFollowingIf
  split_ifs <;> rfl

theorem scrollTop_setScrollTop (target : SeekTarget ListItemSummary) (bias : Bias) (offset viewportHeight : Pixels) :
    (state.setScrollTop ⟨(findStart state.items target bias).count,
      offset - (findStart state.items target bias).height⟩).position viewportHeight = offset := by
  have found := startAt_findStart state.items target bias
  simp only [position, setScrollTop, Option.elim_some, scrollTop]
  rw [rebasePendingScroll_items]
  change (startAt state.items (seekCount state.items _)).height + _ = _
  rw [found]
  ring

theorem scroll_position (ready : state.reset = false) (scrollTop : ListOffset) (viewportHeight deltaY : Pixels) :
    (state.scroll scrollTop viewportHeight deltaY).position viewportHeight =
      state.scrolledTo scrollTop viewportHeight deltaY := by
  simp only [scroll, ready, Bool.false_eq_true, if_false, position_stopFollowingIf, scrolledTo]
  change (state.scrollToPixel (min (max (state.scrollTop scrollTop - deltaY) 0)
    (max (state.contentEnd viewportHeight) 0)) (max (state.contentEnd viewportHeight) 0)).position viewportHeight = _
  unfold scrollToPixel
  split_ifs with pinned
  · simp only [position, Option.elim_none, pinned.1]
    rfl
  · exact scrollTop_setScrollTop _ _ _ _

theorem scroll_frame (state : StateInner F) (scrollTop : ListOffset) (viewportHeight deltaY : Pixels) :
    ∃ top pending follow, state.scroll scrollTop viewportHeight deltaY =
      { state with logicalScrollTop := top, pendingScroll := pending, followState := follow } := by
  unfold scroll
  split_ifs
  · exact ⟨_, _, _, rfl⟩
  · simp only [stopFollowingIf]
    obtain ⟨top, pending, moved⟩ := state.scrollToPixel_frame
      (min (max (state.scrollTop scrollTop - deltaY) 0) (max (state.contentEnd viewportHeight) 0))
      (max (state.contentEnd viewportHeight) 0)
    unfold contentEnd at moved
    rw [moved]
    split_ifs
    · exact ⟨_, _, _, rfl⟩
    · exact ⟨_, _, _, rfl⟩

/-! ## What a scroll handler is told -/

structure ShowsViewport (state : StateInner F) (viewportHeight : Pixels) (range : Range) : Prop where
  ordered : range.start ≤ range.stop
  inside : range.stop ≤ state.summary.count
  exact : ∀ i, range.Contains i ↔ i < state.summary.count ∧ Meets state.itemTop (state.position viewportHeight)
      (state.position viewportHeight + viewportHeight) i

/-- What a viewport shows after an event is an interval of items that the scroll top which the event
started from begins, and which ends where its viewport ended. -/
def ShowsSame (self : StateInner F) (scrollTop : ListOffset) (viewportHeight deltaY : Pixels) :
    Prop :=
  ∃ last, Ends self.items viewportHeight scrollTop last ∧
    Spans self.itemTop (self.scrolledTo scrollTop viewportHeight deltaY)
      (self.scrolledTo scrollTop viewportHeight deltaY + viewportHeight) scrollTop.itemIx last
      self.items.length

/-- The event carries no edge of an item across the viewport's top or bottom: the items above its top
are those in front of the item that it starts from, and the top edges above its bottom are those that
were above it before, when the list went on to the bottom at least. -/
structure KeepsItems (self : StateInner F) (top : ListOffset) (viewportHeight deltaY : Pixels) :
    Prop where
  listed : top.itemIx < self.items.length
  ahead : 0 ≤ top.offsetInItem + viewportHeight
  reaches : (startAt self.items top.itemIx).height + top.offsetInItem + viewportHeight ≤
    (startAt self.items self.items.length).height
  above : ∀ i, self.itemTop (i + 1) ≤ self.scrolledTo top viewportHeight deltaY ↔ i < top.itemIx
  below : ∀ i < self.items.length, top.itemIx ≤ i →
    (self.itemTop i < self.scrolledTo top viewportHeight deltaY + viewportHeight ↔
      i = top.itemIx ∨ (startAt self.items i).height <
        (startAt self.items top.itemIx).height + top.offsetInItem + viewportHeight)

theorem showsSame_iff (nonneg : Nonnegative state.items) {top : ListOffset} {viewportHeight deltaY : Pixels} :
    state.ShowsSame top viewportHeight deltaY ↔ state.KeepsItems top viewportHeight deltaY := by
  have edges := monotone_startAt nonneg
  have tops := monotone_itemTop nonneg
  constructor
  · rintro ⟨last, ends, spans⟩
    refine ⟨ends.ordered.trans_lt ends.inside, ends.ahead,
      ends.reached.trans (edges (Nat.succ_le_of_lt ends.inside)), fun i => ⟨fun hidden => ?_, fun front => ?_⟩,
      fun i inside behind => ?_⟩
    · by_contra behind
      exact absurd (spans.firstMeets.trans_le (tops (by omega))) (not_lt.mpr hidden)
    · rcases spans.above with zero | above
      · omega
      · exact (tops front).trans above
    · rcases Nat.lt_or_ge last i with beyond | within
      · have whole : last + 1 ≠ state.items.length := by omega
        have under := (spans.below.resolve_left whole).trans (tops beyond)
        have past := ends.reached.trans (edges beyond)
        have order := ends.ordered
        exact iff_of_false (not_lt.mpr under) (not_or.mpr ⟨by omega, not_lt.mpr past⟩)
      · refine iff_of_true ((tops within).trans_lt spans.lastMeets) ?_
        rcases ends.least with same | least
        · exact .inl (by omega)
        · exact .inr ((edges within).trans_lt least)
  · rintro ⟨listed, ahead, reaches, above, below⟩
    have some : ∃ last, top.itemIx ≤ last ∧
        (startAt state.items top.itemIx).height + top.offsetInItem + viewportHeight ≤
          (startAt state.items (last + 1)).height := by
      refine ⟨state.items.length - 1, by omega, ?_⟩
      rwa [Nat.sub_add_cancel (by omega)]
    obtain ⟨ordered, reached⟩ := Nat.find_spec some
    have first := fun earlier => @Nat.find_min _ _ some earlier
    have inside : Nat.find some ≤ state.items.length - 1 := by
      refine Nat.find_min' some ⟨by omega, ?_⟩
      rwa [Nat.sub_add_cancel (by omega)]
    generalize Nat.find some = last at ordered reached first inside
    have least : last = top.itemIx ∨ (startAt state.items last).height <
        (startAt state.items top.itemIx).height + top.offsetInItem + viewportHeight := by
      by_cases same : last = top.itemIx
      · exact .inl same
      · have before := first (last - 1) (by omega)
        rw [Nat.sub_add_cancel (by omega), not_and, not_le] at before
        exact .inr (before (by omega))
    refine ⟨last, ⟨ordered, by omega, ahead, reached, least⟩, ?_, ?_, ?_, ?_⟩
    · rcases Nat.eq_zero_or_pos top.itemIx with zero | positive
      · exact .inl zero
      · have hidden := (above (top.itemIx - 1)).mpr (by omega)
        rw [Nat.sub_add_cancel positive] at hidden
        exact .inr hidden
    · exact not_le.mp fun hidden => absurd ((above top.itemIx).mp hidden) (Nat.lt_irrefl _)
    · exact (below last (by omega) ordered).mpr least
    · rcases Nat.eq_or_lt_of_le (show last + 1 ≤ state.items.length by omega) with whole | short
      · exact .inl whole
      · refine .inr (not_lt.mp fun meets => ?_)
        rcases (below (last + 1) short (by omega)).mp meets with same | under
        · omega
        · exact absurd under (not_lt.mpr reached)

theorem showsViewport_iff (nonneg : Nonnegative state.items) {viewportHeight : Pixels} {first last : Nat}
    (ordered : first ≤ last) (inside : last < state.items.length) :
    ShowsViewport state viewportHeight ⟨first, last + 1⟩ ↔ Spans state.itemTop (state.position viewportHeight)
    (state.position viewportHeight + viewportHeight) first last state.items.length := by
  rw [← spans_iff (monotone_itemTop nonneg) ordered inside]
  constructor
  · intro shows
    have exact := shows.exact
    rw [summary_count] at exact
    exact exact
  · intro exact
    refine ⟨Nat.le_succ_of_le ordered, ?_, ?_⟩
    · rw [summary_count]
      exact inside
    · rw [summary_count]
      exact exact

theorem scrollEvent_iff (ready : state.reset = false) (scrollTop : ListOffset) (viewportHeight deltaY : Pixels)
    (p : Range → Prop) :
    (∃ event, state.scrollEvent scrollTop viewportHeight deltaY = .ok event ∧ ∀ called ∈ event, p called.visibleRange) ↔
    ∃ range, visibleRange state.items viewportHeight scrollTop = .ok range ∧ p range := by
  have items : (state.scroll scrollTop viewportHeight deltaY).items = state.items := by
    obtain ⟨_, _, _, moved⟩ := state.scroll_frame scrollTop viewportHeight deltaY
    rw [moved]
  simp only [scrollEvent, ready, Bool.false_eq_true, if_false, items]
  cases visibleRange state.items viewportHeight scrollTop with
  | error panic =>
    constructor
    · rintro ⟨event, failed, -⟩
      cases failed
    · rintro ⟨range, failed, -⟩
      cases failed
  | ok range =>
    constructor
    · rintro ⟨event, called, told⟩
      cases called
      exact ⟨range, rfl, told _ rfl⟩
    · rintro ⟨_, found, holds⟩
      cases found
      refine ⟨_, rfl, fun called is => ?_⟩
      cases is
      exact holds

end StateInner
end Pinrail.ListElement

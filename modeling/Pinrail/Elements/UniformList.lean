import Mathlib.Algebra.Order.Floor.Semiring
import Mathlib.Data.Rat.Floor
import Mathlib.Tactic.Linarith
import Mathlib.Tactic.Ring
import Pinrail.Lib.Rust

/-!
# Uniform lists

Where `UniformList` scrolls to and which of its items it renders, along the vertical axis. Pixels are
exact. The offset of the content is minus the scroll top, so it is not positive.
-/

namespace Pinrail.UniformList
open Lib

abbrev Pixels := Rat

inductive ScrollStrategy where
  | top
  | center
  | bottom
  | nearest
deriving DecidableEq

structure DeferredScrollToItem where
  itemIndex : Nat
  strategy : ScrollStrategy
  offset : Nat
  scrollStrict : Bool
deriving DecidableEq

def usizeMax : Nat := 2 ^ 64 - 1

/-- What the layout of a list comes to. The padding of the box is also there as it is snapped to device pixels. -/
structure Layout where
  itemHeight : Pixels
  itemCount : Nat
  yFlipped : Bool
  boundsHeight : Pixels
  borderTop : Pixels
  borderBottom : Pixels
  paddingTop : Pixels
  paddingBottom : Pixels
  snappedPaddingTop : Pixels
  snappedPaddingBottom : Pixels

def scrollToItem (itemIndex : Nat) (strategy : ScrollStrategy) : DeferredScrollToItem := ⟨itemIndex, strategy, 0, false⟩

def scrollToItemStrict (itemIndex : Nat) (strategy : ScrollStrategy) : DeferredScrollToItem :=
  ⟨itemIndex, strategy, 0, true⟩

def scrollToItemWithOffset (itemIndex : Nat) (strategy : ScrollStrategy) (offset : Nat) : DeferredScrollToItem :=
  ⟨itemIndex, strategy, offset, false⟩

def scrollToItemStrictWithOffset (itemIndex : Nat) (strategy : ScrollStrategy) (offset : Nat) : DeferredScrollToItem :=
  ⟨itemIndex, strategy, offset, true⟩

def scrollToBottom : DeferredScrollToItem := scrollToItem usizeMax .bottom

namespace Layout

def contentHeight (self : Layout) : Pixels := self.itemHeight * self.itemCount

def listHeight (self : Layout) : Pixels :=
  self.boundsHeight - (self.borderTop + self.paddingTop) - (self.borderBottom + self.paddingBottom)

def round (x : Pixels) : Int := if x < 0 then -⌊-x + 1 / 2⌋ else ⌊x + 1 / 2⌋

def roundToTwoDecimals (pixels : Pixels) : Pixels := round (pixels * 100) / 100

/-- The vertical part of `clamp_scroll_position`, for the offset that the user has scrolled to. -/
def clampScrollPosition (self : Layout) (scrollToBottom : Bool) (scrollOffset : Pixels) : Pixels :=
  let paddedContentSize := self.contentHeight + (self.snappedPaddingTop + self.snappedPaddingBottom)
  let scrollMax := max (roundToTwoDecimals (paddedContentSize - self.boundsHeight)) 0
  if scrollToBottom then -scrollMax else min (max scrollOffset (-scrollMax)) 0

/-- `clamp(ZERO, max)`. -/
def clampTop (self : Layout) (target : Pixels) : Pixels :=
  min (max target 0) (max (self.contentHeight - self.listHeight) 0)

def boundOffset (self : Layout) (scrollOffset : Pixels) : Pixels :=
  let maxScrollOffset := self.listHeight - self.contentHeight
  if scrollOffset ≠ 0 ∧ scrollOffset < maxScrollOffset then maxScrollOffset else scrollOffset

def requestedRow (self : Layout) (itemIndex : Nat) : Except Panic Nat :=
  if self.yFlipped then
    if itemIndex = usizeMax then .error .addOverflow else .ok (self.itemCount - (itemIndex + 1))
  else .ok itemIndex

def scrollTo (self : Layout) (request : DeferredScrollToItem) (row : Nat) (scrollOffset : Pixels) : Pixels :=
  let itemTop := self.itemHeight * row
  let itemBottom := itemTop + self.itemHeight
  let scrollTop := -scrollOffset
  let offsetPixels := self.itemHeight * request.offset
  let isAbove := decide (itemTop < scrollTop + offsetPixels)
  let isBelow := decide (itemBottom > scrollTop + self.listHeight)
  if request.scrollStrict || isAbove || isBelow then
    let strategy :=
      if request.strategy = .nearest then
        if isAbove then .top else if isBelow then .bottom else .nearest
      else request.strategy
    match strategy with
    | .top => -self.clampTop (itemTop - offsetPixels)
    | .center =>
      let itemCenter := itemTop + self.itemHeight / 2
      let viewportHeight := self.listHeight - offsetPixels
      let viewportCenter := offsetPixels + viewportHeight / 2
      let targetScrollTop := itemCenter - viewportCenter
      Neg.neg (self.clampTop targetScrollTop)
    | .bottom => -self.clampTop (itemBottom - self.listHeight)
    | .nearest => scrollOffset
  else scrollOffset

def visibleRange (self : Layout) (scrollOffset : Pixels) : Nat × Nat :=
  (Nat.floor (-(scrollOffset + self.paddingTop) / self.itemHeight),
    min (Nat.ceil ((-scrollOffset + self.listHeight) / self.itemHeight)) self.itemCount)

def renderItems (first last : Nat) : List Nat := List.range' first (last - first)

def placedItems (self : Layout) (scrollOffset : Pixels) : List (Nat × Nat) :=
  let (first, last) := self.visibleRange scrollOffset
  let items :=
    if self.yFlipped then (renderItems (self.itemCount - last) (self.itemCount - first)).reverse
    else renderItems first last
  items.zip (renderItems first last)

/-- The offset that `prepaint` leaves, and what it places. -/
def prepaint (self : Layout) (request : Option DeferredScrollToItem) (scrollToBottom : Bool) (scrollOffset : Pixels) :
    Except Panic (Pixels × List (Nat × Nat)) := do
  let scrollOffset := self.clampScrollPosition scrollToBottom scrollOffset
  if self.itemCount > 0 then
    let scrollOffset := self.boundOffset scrollOffset
    let scrollOffset ←
      match request with
      | none => pure scrollOffset
      | some request => do
        let row ← self.requestedRow request.itemIndex
        pure (self.scrollTo request row scrollOffset)
    return (scrollOffset, self.placedItems scrollOffset)
  else return (scrollOffset, [])

/-! ## Offsets -/

def InRange (layout : Layout) (scrollOffset : Pixels) : Prop :=
  -max (layout.contentHeight - layout.listHeight) 0 ≤ scrollOffset ∧ scrollOffset ≤ 0

def Shows (layout : Layout) (scrollOffset : Pixels) (row : Nat) : Prop :=
  0 ≤ layout.itemHeight * row + scrollOffset ∧
    layout.itemHeight * row + layout.itemHeight + scrollOffset ≤ layout.listHeight

def Snapped (layout : Layout) : Prop :=
  layout.snappedPaddingTop + layout.snappedPaddingBottom ≤
    layout.borderTop + layout.paddingTop + (layout.borderBottom + layout.paddingBottom)

variable {layout : Layout} {scrollOffset : Pixels} {row : Nat}

theorem round_nonpos {x : Pixels} (nonpos : x ≤ 0) : round x ≤ 0 := by
  rw [round]
  split_ifs with negative
  · have : 0 ≤ ⌊-x + 1 / 2⌋ := Int.floor_nonneg.mpr (by linarith)
    omega
  · obtain rfl : x = 0 := le_antisymm nonpos (not_lt.mp negative)
    norm_num

theorem clampScrollPosition_short (snapped : layout.Snapped) (scrollToBottom : Bool)
    (short : layout.contentHeight < layout.listHeight) : layout.clampScrollPosition scrollToBottom scrollOffset = 0 := by
  have fits : (layout.contentHeight + (layout.snappedPaddingTop + layout.snappedPaddingBottom) - layout.boundsHeight) * 100 ≤ 0 := by
    rw [Snapped] at snapped
    rw [listHeight] at short
    linarith
  have none : max (roundToTwoDecimals
      (layout.contentHeight + (layout.snappedPaddingTop + layout.snappedPaddingBottom) - layout.boundsHeight)) 0 = 0 := by
    refine max_eq_right ?_
    rw [roundToTwoDecimals]
    have : ((round ((layout.contentHeight + (layout.snappedPaddingTop + layout.snappedPaddingBottom) -
        layout.boundsHeight) * 100) : Int) : Pixels) ≤ 0 := by exact_mod_cast round_nonpos fits
    linarith
  rw [clampScrollPosition]
  simp only [none]
  split_ifs
  · exact neg_zero
  · rw [neg_zero]
    exact min_eq_right (le_max_right _ _)

theorem clampScrollPosition_nonpos (layout : Layout) (scrollToBottom : Bool) (scrollOffset : Pixels) :
    layout.clampScrollPosition scrollToBottom scrollOffset ≤ 0 := by
  rw [clampScrollPosition]
  split_ifs
  · exact neg_nonpos.mpr (le_max_right _ _)
  · exact min_le_right _ _

theorem boundOffset_inRange (nonpos : scrollOffset ≤ 0) (short : layout.contentHeight < layout.listHeight → scrollOffset = 0) :
    layout.InRange (layout.boundOffset scrollOffset) := by
  rw [boundOffset]
  have most := le_max_left (layout.contentHeight - layout.listHeight) 0
  have none := le_max_right (layout.contentHeight - layout.listHeight) 0
  split_ifs with past
  · have long : layout.listHeight ≤ layout.contentHeight := not_lt.mp fun less => past.1 (short less)
    exact ⟨by linarith, by linarith⟩
  · refine ⟨?_, nonpos⟩
    by_cases still : scrollOffset = 0
    · linarith
    · have := not_lt.mp fun less => past ⟨still, less⟩
      linarith

theorem clampTop_inRange (layout : Layout) (target : Pixels) : layout.InRange (-layout.clampTop target) := by
  have low : 0 ≤ layout.clampTop target := le_min (le_max_right _ _) (le_max_right _ _)
  exact ⟨neg_le_neg (min_le_right _ _), by linarith⟩

theorem clampTop_shows {target : Pixels} (positive : 0 < layout.itemHeight) (inside : row < layout.itemCount)
    (above : target ≤ layout.itemHeight * row)
    (below : layout.itemHeight * row + layout.itemHeight ≤ target + layout.listHeight) :
    layout.Shows (-layout.clampTop target) row := by
  have content : layout.itemHeight * row + layout.itemHeight ≤ layout.contentHeight := by
    have : ((row : Pixels) + 1) ≤ layout.itemCount := by exact_mod_cast inside
    rw [contentHeight]
    nlinarith
  have top : 0 ≤ layout.itemHeight * row := by positivity
  rw [clampTop]
  constructor
  · have := min_le_left (max target 0) (max (layout.contentHeight - layout.listHeight) 0)
    have := max_le above top
    linarith
  · rcases min_choice (max target 0) (max (layout.contentHeight - layout.listHeight) 0) with first | second
    · rw [first]
      have := le_max_left target 0
      linarith
    · rw [second]
      have := le_max_left (layout.contentHeight - layout.listHeight) 0
      linarith

theorem scrollTo_inRange (request : DeferredScrollToItem) (inRange : layout.InRange scrollOffset) :
    layout.InRange (layout.scrollTo request row scrollOffset) := by
  rw [scrollTo]
  dsimp only
  split_ifs
  · exact clampTop_inRange layout _
  · exact clampTop_inRange layout _
  · exact inRange
  · cases request.strategy with
    | nearest => exact inRange
    | _ => exact clampTop_inRange layout _
  · exact inRange

theorem scrollTo_shows (positive : 0 < layout.itemHeight) {request : DeferredScrollToItem} (inside : row < layout.itemCount)
    (fits : layout.itemHeight * request.offset + layout.itemHeight ≤ layout.listHeight) :
    layout.Shows (layout.scrollTo request row scrollOffset) row := by
  have offset : 0 ≤ layout.itemHeight * request.offset := by positivity
  have visible (notAbove : ¬ layout.itemHeight * row < -scrollOffset + layout.itemHeight * request.offset)
      (notBelow : ¬ layout.itemHeight * row + layout.itemHeight > -scrollOffset + layout.listHeight) :
      layout.Shows scrollOffset row := by
    constructor <;> linarith
  rw [scrollTo]
  dsimp only
  split_ifs with scrolls nearest above below
  · exact clampTop_shows positive inside (by linarith) (by linarith)
  · exact clampTop_shows positive inside (by linarith) (by linarith)
  · exact visible (by simpa using above) (by simpa using below)
  · cases strategy : request.strategy with
    | top => exact clampTop_shows positive inside (by linarith) (by linarith)
    | center => exact clampTop_shows positive inside (by linarith) (by linarith)
    | bottom => exact clampTop_shows positive inside (by linarith) (by linarith)
    | nearest => exact absurd strategy nearest
  · simp only [Bool.or_eq_true, decide_eq_true_eq, not_or] at scrolls
    exact visible scrolls.1.2 scrolls.2

/-! ## Rows -/

def itemAt (layout : Layout) (row : Nat) : Nat := if layout.yFlipped then layout.itemCount - 1 - row else row

def Meets (layout : Layout) (scrollOffset : Pixels) (row : Nat) : Prop :=
  row < layout.itemCount ∧ -layout.paddingTop < layout.itemHeight * row + layout.itemHeight + scrollOffset ∧
    layout.itemHeight * row + scrollOffset < layout.listHeight

theorem meets_iff (positive : 0 < layout.itemHeight) : layout.Meets scrollOffset row ↔
    (layout.visibleRange scrollOffset).1 ≤ row ∧ row < (layout.visibleRange scrollOffset).2 := by
  have first : (layout.visibleRange scrollOffset).1 ≤ row ↔
      -layout.paddingTop < layout.itemHeight * row + layout.itemHeight + scrollOffset := by
    rw [visibleRange, ← Nat.lt_succ_iff, Nat.floor_lt' (Nat.succ_ne_zero row), div_lt_iff₀ positive]
    push_cast
    constructor <;> intro less <;> linarith
  have last : row < (layout.visibleRange scrollOffset).2 ↔
      row < layout.itemCount ∧ layout.itemHeight * row + scrollOffset < layout.listHeight := by
    rw [visibleRange, lt_min_iff, Nat.lt_ceil, lt_div_iff₀ positive, and_comm]
    refine and_congr_right fun _ => ?_
    constructor <;> intro less <;> linarith
  rw [first, last, Meets]
  tauto

theorem getElem_renderItems {first last k : Nat} (bound : k < (renderItems first last).length) :
    (renderItems first last)[k] = first + k := by
  simp [renderItems]

theorem mem_placedItems (positive : 0 < layout.itemHeight) {index : Nat} :
    (index, row) ∈ layout.placedItems scrollOffset ↔ layout.Meets scrollOffset row ∧ index = layout.itemAt row := by
  have most : (layout.visibleRange scrollOffset).2 ≤ layout.itemCount := min_le_right _ _
  rw [meets_iff positive, placedItems, itemAt]
  generalize layout.visibleRange scrollOffset = range at most ⊢
  obtain ⟨first, last⟩ := range
  dsimp only at most ⊢
  rw [List.mem_iff_getElem]
  split_ifs with flipped
  · have length : ((renderItems (layout.itemCount - last) (layout.itemCount - first)).reverse.zip (renderItems first last)).length =
        last - first := by
      simp [renderItems]
      omega
    simp only [length, List.getElem_zip, List.getElem_reverse, getElem_renderItems, Prod.mk.injEq]
    constructor
    · rintro ⟨k, bound, rfl, rfl⟩
      simp only [renderItems, List.length_range']
      omega
    · rintro ⟨⟨low, high⟩, rfl⟩
      refine ⟨row - first, by omega, ?_, by omega⟩
      simp only [renderItems, List.length_range']
      omega
  · simp only [List.length_zip, min_self, List.getElem_zip, getElem_renderItems, Prod.mk.injEq]
    constructor
    · rintro ⟨k, bound, rfl, rfl⟩
      simp only [renderItems, List.length_range'] at bound
      omega
    · rintro ⟨⟨low, high⟩, same⟩
      refine ⟨row - first, ?_, by omega, by omega⟩
      simp only [renderItems, List.length_range']
      omega

/-! ## Prepaint -/

theorem requestedRow_ok {index : Nat} (requested : layout.requestedRow index = .ok row) (inside : index < layout.itemCount) :
    row < layout.itemCount ∧ layout.itemAt row = index := by
  rw [requestedRow] at requested
  rw [itemAt]
  split_ifs at requested ⊢ with flipped
  · cases requested
    omega
  · cases requested
    exact ⟨inside, rfl⟩

theorem Shows.meets (positive : 0 < layout.itemHeight) (padded : 0 ≤ layout.paddingTop) (inside : row < layout.itemCount)
    (shows_ : layout.Shows scrollOffset row) : layout.Meets scrollOffset row := by
  obtain ⟨top, bottom⟩ := shows_
  exact ⟨inside, by linarith, by linarith⟩

/-- The only request that panics is for the last index there is, in a flipped list. Else the rows that meet the
viewport are placed with their items and no others, and an item that is asked for is shown whole if it fits. The list
is scrolled within its range unless it is short and its padding is snapped to more than it is laid out with. -/
theorem prepaint_spec (positive : 0 < layout.itemHeight) (filled : 0 < layout.itemCount) (request : Option DeferredScrollToItem) (scrollToBottom : Bool) (scrollOffset : Pixels) :
    (layout.prepaint request scrollToBottom scrollOffset = .error .addOverflow ↔
      layout.yFlipped = true ∧ ∃ asked ∈ request, asked.itemIndex = usizeMax) ∧
    (∀ error, layout.prepaint request scrollToBottom scrollOffset = .error error → error = .addOverflow) ∧
    ∀ after placed, layout.prepaint request scrollToBottom scrollOffset = .ok (after, placed) →
      (layout.Snapped ∨ layout.listHeight ≤ layout.contentHeight → layout.InRange after) ∧
      (∀ index row, (index, row) ∈ placed ↔ layout.Meets after row ∧ index = layout.itemAt row) ∧
      ∀ asked ∈ request, asked.itemIndex < layout.itemCount →
        layout.itemHeight * asked.offset + layout.itemHeight ≤ layout.listHeight →
        ∃ row, layout.itemAt row = asked.itemIndex ∧ layout.Shows after row ∧
          (0 ≤ layout.paddingTop → (asked.itemIndex, row) ∈ placed) := by
  have bounded : layout.Snapped ∨ layout.listHeight ≤ layout.contentHeight →
      layout.InRange (layout.boundOffset (layout.clampScrollPosition scrollToBottom scrollOffset)) := by
    intro fits
    refine boundOffset_inRange (clampScrollPosition_nonpos layout _ _) fun short => ?_
    rcases fits with snapped | long
    · exact clampScrollPosition_short snapped _ short
    · exact absurd short (not_lt.mpr long)
  rw [prepaint]
  simp only [gt_iff_lt, filled, if_true]
  generalize layout.boundOffset (layout.clampScrollPosition scrollToBottom scrollOffset) = offset at bounded ⊢
  cases request with
  | none =>
    refine ⟨⟨fun eq => ?_, fun asked => ?_⟩, fun error eq => ?_, fun after placed eq => ?_⟩
    · cases eq
    · simp at asked
    · cases eq
    · cases eq
      exact ⟨bounded, fun index row => mem_placedItems positive, fun asked member => (by cases member)⟩
  | some request =>
    cases requested : layout.requestedRow request.itemIndex with
    | error error =>
      have panics : error = .addOverflow ∧ layout.yFlipped = true ∧ request.itemIndex = usizeMax := by
        rw [requestedRow] at requested
        split_ifs at requested with flipped last
        cases requested
        exact ⟨rfl, flipped, last⟩
      obtain ⟨rfl, flipped, last⟩ := panics
      simp only [requested, error_bind]
      refine ⟨⟨fun _ => ⟨flipped, request, rfl, last⟩, fun _ => trivial⟩, fun error eq => ?_, fun _ _ eq => ?_⟩
      · cases eq
        rfl
      · cases eq
    | ok row =>
      simp only [requested, ok_bind]
      refine ⟨⟨fun eq => ?_, ?_⟩, fun error eq => ?_, ?_⟩
      · cases eq
      · rintro ⟨flipped, asked, member, last⟩
        cases member
        rw [requestedRow, if_pos flipped, if_pos last] at requested
        cases requested
      · cases eq
      · intro after placed eq
        cases eq
        refine ⟨fun fits => scrollTo_inRange request (bounded fits), fun index row => mem_placedItems positive, ?_⟩
        intro asked member inside fits
        cases member
        obtain ⟨below, item⟩ := requestedRow_ok requested inside
        have shows_ := @scrollTo_shows layout offset row positive request below fits
        refine ⟨row, item, shows_, fun padded => ?_⟩
        exact (mem_placedItems positive).mpr ⟨shows_.meets positive padded below, item.symm⟩

/-- A flipped list that is asked for its second item. -/
theorem prepaint_spec_flipped : ∃ after placed,
    prepaint ⟨20, 10, true, 100, 0, 0, 3.75, 0, 4, 0⟩ (some (scrollToItem 1 .center)) false 0 = .ok (after, placed) ∧
    InRange ⟨20, 10, true, 100, 0, 0, 3.75, 0, 4, 0⟩ after ∧ ∃ row,
    Shows ⟨20, 10, true, 100, 0, 0, 3.75, 0, 4, 0⟩ after row ∧ (1, row) ∈ placed := by
  obtain ⟨-, -, returns⟩ := @prepaint_spec ⟨20, 10, true, 100, 0, 0, 3.75, 0, 4, 0⟩ (by decide) (by decide)
    (some (scrollToItem 1 .center)) false 0
  obtain ⟨inRange, -, shown⟩ := returns _ _ rfl
  obtain ⟨row, -, shows_, placed⟩ := shown _ rfl (by decide) (by decide +kernel)
  exact ⟨_, _, rfl, inRange (.inr (by decide +kernel)), row, shows_, placed (by decide +kernel)⟩

end Layout

end Pinrail.UniformList

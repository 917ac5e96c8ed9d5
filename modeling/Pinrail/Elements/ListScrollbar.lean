import Pinrail.Elements.ListScroll
import Pinrail.Lib.Binary32

/-!
# The scrollbar of a list element

A scrollbar moves a list to a pixel offset, which is stored as an item and an offset in it, and reads
it back by summing the heights in front of it. The range that a scrollbar is told leaves the padding
out that the range it moves over counts. What is said of it holds where no sum of the sizes is rounded.
-/

namespace Pinrail.ListElement
open Lib Pinrail.Geometry

variable {F : Type} {state : StateInner F}

namespace StateInner

def maxScrollOffset (self : StateInner F) : Pixels :=
  max (self.scrollbarDragStartHeight.getD self.summary.height - self.layoutHeight) 0

def maxOffsetForScrollbar (self : StateInner F) : Point Pixels := ⟨0, self.maxScrollOffset⟩

def scrollPxOffsetForScrollbar (self : StateInner F) : Point Pixels :=
  if self.logicalScrollTop = none ∧ self.alignment = .bottom then ⟨0, -self.maxScrollOffset⟩
  else
    let offset := (startAt self.items (seekCount self.items self.logicalTop.itemIx)).height +
      self.logicalTop.offsetInItem
    ⟨0, -offset⟩

/-! ## Reading a position back -/

theorem scrollPxOffset_setScrollTop (state : StateInner F) (target : SeekTarget ListItemSummary)
    (bias : Bias) (offset : Pixels) :
    (state.setScrollTop ⟨(findStart state.items target bias).count,
      offset - (findStart state.items target bias).height⟩).scrollPxOffsetForScrollbar.y =
      -offset := by
  rw [scrollPxOffsetForScrollbar, if_neg (by simp [setScrollTop])]
  simp only [logicalTop, setScrollTop, Option.getD_some]
  rw [rebasePendingScroll_items, startAt_findStart]
  ring

theorem scrollPxOffset_end (stored : state.logicalScrollTop = some ⟨state.summary.count, 0⟩) :
    state.scrollPxOffsetForScrollbar.y = -state.summary.height := by
  rw [scrollPxOffsetForScrollbar, if_neg (by simp [stored])]
  simp only [logicalTop, stored, Option.getD_some]
  rw [summary_count, seekCount_eq, Nat.min_self, startAt, List.take_length, add_zero]
  rfl

theorem scrollPxOffset_pinned (state : StateInner F) (bottom : state.alignment = .bottom) (scrollMax : Pixels) :
    (state.scrollToPixel scrollMax scrollMax).scrollPxOffsetForScrollbar.y = -state.maxScrollOffset := by
  rw [scrollToPixel, if_pos ⟨bottom, rfl⟩, scrollPxOffsetForScrollbar, if_pos ⟨rfl, bottom⟩]
  rfl

theorem scrollPxOffset_free (state : StateInner F) {newScrollTop scrollMax : Pixels}
    (free : ¬ (state.alignment = .bottom ∧ newScrollTop = scrollMax)) :
    (state.scrollToPixel newScrollTop scrollMax).scrollPxOffsetForScrollbar.y = -newScrollTop := by
  rw [scrollToPixel, if_neg free]
  exact scrollPxOffset_setScrollTop state _ _ _

/-! ## Moving the list -/

def contentHeight (self : StateInner F) : Pixels :=
  self.scrollbarDragStartHeight.getD self.summary.height

def paddedRoom (self : StateInner F) : Pixels :=
  max (self.contentHeight + self.padding.top + self.padding.bottom - self.layoutHeight) 0

def requested (pointY : Pixels) : Pixels := max (-pointY) 0

def DragsToEnd (self : StateInner F) (pointY : Pixels) : Prop :=
  self.paddedRoom > 0 ∧ self.paddedRoom - 1 ≤ requested pointY ∧ self.followState ≠ .normal

instance (self : StateInner F) (pointY : Pixels) : Decidable (self.DragsToEnd pointY) :=
  inferInstanceAs (Decidable (_ ∧ _ ∧ _))

theorem requested_nonneg (pointY : Pixels) : 0 ≤ requested pointY := le_max_right _ _

theorem paddedRoom_nonneg (state : StateInner F) : 0 ≤ state.paddedRoom := le_max_right _ _

theorem dragsToEnd_iff {pointY : Pixels} : state.DragsToEnd pointY ↔
    (state.paddedRoom > 0 ∧ min (requested pointY) state.paddedRoom ≥ max (state.paddedRoom - 1) 0) ∧
    state.followState ≠ .normal := by
  have close : state.paddedRoom - 1 ≤ requested pointY ↔
      min (requested pointY) state.paddedRoom ≥ max (state.paddedRoom - 1) 0 := by
    rw [ge_iff_le, max_le_iff, le_min_iff, le_min_iff]
    have below : state.paddedRoom - 1 ≤ state.paddedRoom := by linarith
    simp only [below, requested_nonneg, paddedRoom_nonneg, and_true]
  rw [DragsToEnd, close, and_assoc]

theorem setOffsetFromScrollbar_eq {bounds : Bounds Pixels}
    (laidOut : state.lastLayoutBounds = some bounds) (pointY : Pixels) :
    state.setOffsetFromScrollbar pointY =
      if state.DragsToEnd pointY then
        { state with
          followState := .tail true
          pendingScroll := none
          logicalScrollTop := some ⟨state.summary.count, 0⟩ }
      else
        scrollToPixel { state with followState := state.followState.stopFollowing }
          (min (requested pointY) state.paddedRoom) state.paddedRoom := by
  have height : bounds.size.height = state.layoutHeight := by
    rw [layoutHeight, laidOut]
    rfl
  simp only [setOffsetFromScrollbar, laidOut, height]
  exact if_congr dragsToEnd_iff.symm rfl rfl

theorem rebasePendingScroll_frame (state : StateInner F) (top : ListOffset) :
    ∃ pending, state.rebasePendingScroll top = { state with pendingScroll := pending } := by
  unfold rebasePendingScroll
  split
  · exact ⟨state.pendingScroll, rfl⟩
  · split_ifs
    · exact ⟨_, rfl⟩
    · exact ⟨_, rfl⟩

theorem scrollToPixel_frame (state : StateInner F) (newScrollTop scrollMax : Pixels) :
    ∃ top pending, state.scrollToPixel newScrollTop scrollMax =
      { state with logicalScrollTop := top, pendingScroll := pending } := by
  unfold scrollToPixel
  split_ifs
  · exact ⟨_, _, rfl⟩
  · obtain ⟨pending, moved⟩ := state.rebasePendingScroll_frame _
    exact ⟨_, _, by rw [setScrollTop, moved]⟩

theorem setOffsetFromScrollbar_frame {bounds : Bounds Pixels}
    (laidOut : state.lastLayoutBounds = some bounds) (pointY : Pixels) :
    ∃ top pending follow, state.setOffsetFromScrollbar pointY =
      { state with logicalScrollTop := top, pendingScroll := pending, followState := follow } := by
  rw [setOffsetFromScrollbar_eq laidOut]
  split_ifs
  · exact ⟨_, _, _, rfl⟩
  · obtain ⟨top, pending, moved⟩ := scrollToPixel_frame { state with followState := state.followState.stopFollowing }
      (min (requested pointY) state.paddedRoom) state.paddedRoom
    exact ⟨top, pending, _, moved⟩

theorem scrollPxOffset_moved {bounds : Bounds Pixels}
    (laidOut : state.lastLayoutBounds = some bounds) (pointY : Pixels) :
    -(state.setOffsetFromScrollbar pointY).scrollPxOffsetForScrollbar.y =
      if state.DragsToEnd pointY then state.summary.height
      else if state.alignment = .bottom ∧ state.paddedRoom ≤ requested pointY then
        state.maxScrollOffset
      else min (requested pointY) state.paddedRoom := by
  rw [setOffsetFromScrollbar_eq laidOut]
  split_ifs with dragged pinned
  · rw [scrollPxOffset_end rfl, neg_neg]
    rfl
  · obtain ⟨bottom, beyond⟩ := pinned
    have read := scrollPxOffset_pinned
      { state with followState := state.followState.stopFollowing } bottom state.paddedRoom
    rw [min_eq_right beyond]
    exact neg_eq_iff_eq_neg.mpr read
  · rw [scrollPxOffset_free, neg_neg]
    intro atEnd
    exact pinned ⟨atEnd.1, min_eq_right_iff.mp atEnd.2⟩

/-! ## What a scrollbar is promised -/

/-- The list stands at the requested offset, in the range that the scrollbar is told, and with the
list at the end of that range the last item, which is drawn below the padding, is inside the
viewport. -/
structure InScrollbarRange (pointY : Pixels) (state : StateInner F) : Prop where
  clamped : -state.scrollPxOffsetForScrollbar.y = min (max (-pointY) 0) state.maxOffsetForScrollbar.y
  low : 0 ≤ -state.scrollPxOffsetForScrollbar.y
  high : -state.scrollPxOffsetForScrollbar.y ≤ state.maxOffsetForScrollbar.y
  lastItem : state.items ≠ [] →
    state.summary.height + state.padding.top ≤ state.maxOffsetForScrollbar.y + state.layoutHeight

/-- The requests after which a scrollbar reads back what it is promised: with a padding they stay
above the end of the range it is told. -/
def ScrollbarReads (self : StateInner F) (pointY : Pixels) : Prop :=
  let room := max (self.contentHeight - self.layoutHeight) 0
  (self.items ≠ [] → self.summary.height + self.padding.top ≤ max self.contentHeight self.layoutHeight) ∧
    if self.DragsToEnd pointY then self.summary.height = min (requested pointY) room
    else if self.alignment = .bottom ∧ self.paddedRoom ≤ requested pointY then
      room ≤ requested pointY
    else self.paddedRoom = room ∨ requested pointY ≤ min self.paddedRoom room

/-- What the sums and differences of a request are made of, with the pixel that counts as the end. -/
def sizes (self : StateInner F) (pointY : Pixels) : List Pixels :=
  [pointY, 1, self.padding.top, self.padding.bottom, self.layoutHeight, self.scrollbarDragStartHeight.getD 0] ++
    self.items.map ListItem.knownHeight

theorem min_eq_min_iff {x y z : Pixels} : min x y = min x z ↔ y = z ∨ x ≤ min y z := by
  rw [le_min_iff]
  constructor
  · intro same
    by_cases below : x ≤ y
    · rw [min_eq_left below] at same
      exact .inr ⟨below, min_eq_left_iff.mp same.symm⟩
    · rw [min_eq_right (le_of_not_ge below)] at same
      left
      rcases min_choice x z with first | second
      · rw [first] at same
        exact absurd (le_of_eq same.symm) below
      · rw [same, second]
  · rintro (rfl | ⟨first, second⟩)
    · rfl
    · rw [min_eq_left first, min_eq_left second]

theorem inScrollbarRange_iff {bounds : Bounds Pixels}
    (laidOut : state.lastLayoutBounds = some bounds) (pointY : Pixels) :
    InScrollbarRange pointY (state.setOffsetFromScrollbar pointY) ↔ state.ScrollbarReads pointY := by
  have reads := scrollPxOffset_moved laidOut pointY
  obtain ⟨top, pending, follow, moved⟩ := setOffsetFromScrollbar_frame laidOut pointY
  generalize offset : -(state.setOffsetFromScrollbar pointY).scrollPxOffsetForScrollbar.y = back at reads
  have told : (state.setOffsetFromScrollbar pointY).maxOffsetForScrollbar.y =
      max (state.contentHeight - state.layoutHeight) 0 := by
    rw [moved]
    rfl
  have visible : ((state.setOffsetFromScrollbar pointY).items ≠ [] →
      (state.setOffsetFromScrollbar pointY).summary.height + (state.setOffsetFromScrollbar pointY).padding.top ≤
      (state.setOffsetFromScrollbar pointY).maxOffsetForScrollbar.y +
        (state.setOffsetFromScrollbar pointY).layoutHeight) ↔
      (state.items ≠ [] → state.summary.height + state.padding.top ≤ max state.contentHeight state.layoutHeight) := by
    have room : max (state.contentHeight - state.layoutHeight) 0 + state.layoutHeight =
        max state.contentHeight state.layoutHeight := by
      rw [← max_add_add_right, sub_add_cancel, zero_add]
    rw [told, moved, ← room]
    rfl
  have within : InScrollbarRange pointY (state.setOffsetFromScrollbar pointY) ↔
      (state.items ≠ [] → state.summary.height + state.padding.top ≤ max state.contentHeight state.layoutHeight) ∧
      back = min (requested pointY) (max (state.contentHeight - state.layoutHeight) 0) := by
    constructor
    · rintro ⟨clamped, -, -, lastItem⟩
      rw [offset, told] at clamped
      exact ⟨visible.mp lastItem, clamped⟩
    · rintro ⟨lastItem, clamped⟩
      refine ⟨?_, ?_, ?_, visible.mpr lastItem⟩
      · rw [offset, told]
        exact clamped
      · rw [offset, clamped]
        exact le_min (requested_nonneg pointY) (le_max_right _ _)
      · rw [offset, told, clamped]
        exact min_le_right _ _
  rw [within, ScrollbarReads, reads]
  refine and_congr_right fun _ => ?_
  split_ifs with dragged pinned
  · rfl
  · rw [maxScrollOffset, contentHeight, eq_comm, min_eq_right_iff]
  · exact min_eq_min_iff

/-- Where no sum is rounded, a request is read back as promised exactly if it stays in the range. -/
theorem setOffsetFromScrollbar_inScrollbarRange {bounds : Bounds Pixels}
    (laidOut : state.lastLayoutBounds = some bounds) (pointY : Pixels) (grid : SmallGrid (state.sizes pointY)) :
    Unrounded (state.sizes pointY) ∧
    (InScrollbarRange pointY (state.setOffsetFromScrollbar pointY) ↔ state.ScrollbarReads pointY) :=
  ⟨grid.unrounded, inScrollbarRange_iff laidOut pointY⟩

def threeItems (paddingTop : Pixels) : StateInner Unit where
  lastLayoutBounds := some ⟨⟨0, 0⟩, ⟨100, 200⟩⟩
  lastPadding := some ⟨paddingTop, 0⟩
  items := List.replicate 3 (.measured ⟨100, 100⟩ none)
  logicalScrollTop := none
  alignment := .top
  overdraw := 0
  reset := false
  scrollbarDragStartHeight := none
  measuringBehavior := .visible
  pendingScroll := none
  followState := .normal

theorem setOffsetFromScrollbar_inScrollbarRange_threeItems :
    InScrollbarRange (-60) ((threeItems 0).setOffsetFromScrollbar (-60)) := by
  have grid : SmallGrid ((threeItems 0).sizes (-60)) := smallGrid_of_den (by decide +kernel) (by decide +kernel)
  exact (setOffsetFromScrollbar_inScrollbarRange rfl (-60) grid).2.mpr ⟨by decide +kernel, by decide +kernel⟩

/-- A request for the end of a list with a padding is read back behind the end of the range. -/
theorem scrollbar_passes_end : ((threeItems 20).setOffsetFromScrollbar (-120)).scrollPxOffsetForScrollbar = ⟨0, -120⟩ ∧
    ((threeItems 20).setOffsetFromScrollbar (-120)).maxOffsetForScrollbar = ⟨0, 100⟩ ∧ ¬ InScrollbarRange (-120)
    ((threeItems 20).setOffsetFromScrollbar (-120)) := by
  refine ⟨by decide +kernel, by decide +kernel, fun within => ?_⟩
  exact absurd within.high (by decide +kernel)

end StateInner
end Pinrail.ListElement

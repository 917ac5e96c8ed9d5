import Pinrail.Elements.ListScroll

/-!
# Layouts keep the scroll top

The loops of a layout measure a stretch of the items around the scroll top: as many items are put
back as were taken out, and the scroll top they leave is a place of the list.
-/

namespace Pinrail.ListElement
open Lib Pinrail.Geometry StateInner

variable {F : Type} {state : StateInner F} {n : Nat}

def Sizes (size : Nat → Size Pixels) : Prop := ∀ i, 0 ≤ (size i).height

structure Frame.Nonnegative (frame : Frame F) : Prop where
  measureAll : Sizes frame.measureAll
  rendered : Sizes frame.renderer.size

structure PassInv (n : Nat) (pass : Pass F) : Prop where
  stored : ∀ top, pass.logicalScrollTop = some top → Placed n top
  pending : ∀ pending, pass.pendingScroll = some pending → pending.Nonnegative
  heights : Nonnegative pass.measuredItems
  layouts : ∀ layout ∈ pass.itemLayouts, layout.index ≤ n

theorem knownSize_nonneg {item : ListItem F} (known : 0 ≤ item.knownHeight) {size : Size Pixels}
    (nonneg : 0 ≤ size.height) : 0 ≤ (item.size.getD size).height := by
  cases item with
  | unmeasured sizeHint focusHandle => exact nonneg
  | measured own focusHandle => exact known

namespace Pass

variable {pass : Pass F} {renderer : Renderer F}

/-! ## Down from the scroll top -/

/-- A pass that went on over at most `more` items, from the same scroll-top item. -/
structure Continues (n : Nat) (pass after : Pass F) (more : Nat) : Prop where
  inv : PassInv n after
  placed : Placed n after.scrollTop
  same : after.scrollTop.itemIx = pass.scrollTop.itemIx
  measured : after.measuredItems.length ≤ pass.measuredItems.length + more

theorem Continues.trans {second third : Pass F} {more further : Nat}
    (first : Continues n pass second more) (next : Continues n second third further) :
    Continues n pass third (more + further) where
  inv := next.inv
  placed := next.placed
  same := next.same.trans first.same
  measured := by
    have := first.measured
    have := next.measured
    omega

theorem pushMeasured_continues (inv : PassInv n pass) (placed : Placed n pass.scrollTop)
    {size : Size Pixels} (nonneg : 0 ≤ size.height) (focusHandle : Option F) :
    Continues n pass (pass.pushMeasured size focusHandle) 1 where
  inv := by
    refine ⟨inv.stored, inv.pending, nonnegative_append inv.heights ?_, inv.layouts⟩
    intro item member
    rw [List.mem_singleton.mp member]
    exact nonneg
  placed := placed
  same := rfl
  measured := by simp [pushMeasured]

theorem pushLayout_continues (inv : PassInv n pass) (placed : Placed n pass.scrollTop)
    {layout : ItemLayout} (inside : layout.index ≤ n) (focused : Bool) :
    Continues n pass (pass.pushLayout layout focused) 0 where
  inv := by
    refine ⟨inv.stored, inv.pending, inv.heights, ?_⟩
    intro other member
    rcases List.mem_append.mp member with member | member
    · exact inv.layouts other member
    · rw [List.mem_singleton.mp member]
      exact inside
  placed := placed
  same := rfl
  measured := Nat.le_refl _

theorem applyPending_cases (size : Size Pixels) : pass.applyPending size = { pass with pendingScroll := none } ∨
    ∃ pending offset, pass.pendingScroll = some pending ∧ (pending.Nonnegative → 0 ≤ size.height → 0 ≤ offset) ∧
    pass.applyPending size = ({ pass with pendingScroll := none } : Pass F).setOffset offset := by
  unfold applyPending
  cases stored : pass.pendingScroll with
  | none => exact .inl rfl
  | some pending =>
    cases pending with
    | absolute itemIx offset =>
      simp only
      split_ifs
      · exact .inr ⟨_, _, rfl, fun known positive => le_min known positive, rfl⟩
      · exact .inl rfl
    | proportional itemIx fraction =>
      simp only
      split_ifs
      · exact .inr ⟨_, _, rfl, fun known positive => mul_nonneg known positive, rfl⟩
      · exact .inl rfl

theorem applyPending_continues (inv : PassInv n pass) (placed : Placed n pass.scrollTop) {size : Size Pixels}
    (nonneg : 0 ≤ size.height) : Continues n pass (pass.applyPending size) 0 := by
  have nonePending : ∀ pending : PendingScroll, none = some pending → pending.Nonnegative := by
    intro pending stored
    cases stored
  rcases applyPending_cases size with taken | ⟨pending, offset, stored, positive, set⟩
  · rw [taken]
    exact ⟨⟨inv.stored, nonePending, inv.heights, inv.layouts⟩, placed, rfl, Nat.le_refl _⟩
  · rw [set]
    have moved : Placed n { pass.scrollTop with offsetInItem := offset } :=
      ⟨placed.1, positive (inv.pending pending stored) nonneg⟩
    refine ⟨⟨?_, nonePending, inv.heights, inv.layouts⟩, moved, rfl, Nat.le_refl _⟩
    intro top eq
    cases eq
    exact moved

theorem renderItem_continues (rendered : Sizes renderer.size) (availableHeight : Pixels) (inv : PassInv n pass)
    (placed : Placed n pass.scrollTop) {ix : Nat} (inside : pass.scrollTop.itemIx + ix ≤ n) {item : ListItem F}
    (known : 0 ≤ item.knownHeight) : Continues n pass (pass.renderItem renderer availableHeight ix item) 1 := by
  unfold renderItem
  simp only
  split
  · rename_i size cached
    have own : item.size = some size := by
      split_ifs at cached
      exact cached
    have sized : 0 ≤ (item.size.getD ⟨0, 0⟩).height := knownSize_nonneg known (le_refl _)
    rw [own] at sized
    exact pushMeasured_continues inv placed sized item.focusHandle
  · have nonneg := rendered (pass.scrollTop.itemIx + ix)
    have applied : Continues n pass (if ix = 0 then
        pass.applyPending (renderer.size (pass.scrollTop.itemIx + ix)) else pass) 0 := by
      split_ifs
      · exact applyPending_continues inv placed nonneg
      · exact ⟨inv, placed, rfl, Nat.le_refl _⟩
    generalize (if ix = 0 then pass.applyPending (renderer.size (pass.scrollTop.itemIx + ix))
      else pass) = second at applied
    split_ifs
    · have pushed : Continues n second (second.pushLayout
          ⟨pass.scrollTop.itemIx + ix, renderer.size (pass.scrollTop.itemIx + ix)⟩
          (item.containsFocused renderer.focused)) 0 :=
        pushLayout_continues applied.inv applied.placed inside _
      exact (applied.trans pushed).trans (pushMeasured_continues pushed.inv pushed.placed nonneg item.focusHandle)
    · exact applied.trans (pushMeasured_continues applied.inv applied.placed nonneg item.focusHandle)

theorem renderDown_continues (rendered : Sizes renderer.size) (availableHeight overdraw : Pixels)
    {ix : Nat} {below : List (ListItem F)} (inv : PassInv n pass) (placed : Placed n pass.scrollTop)
    (inside : pass.scrollTop.itemIx + ix + below.length ≤ n) (known : Nonnegative below) :
    Continues n pass (renderDown renderer availableHeight overdraw ix below pass) below.length := by
  induction below generalizing ix pass with
  | nil => exact ⟨inv, placed, rfl, Nat.le_refl _⟩
  | cons item below ih =>
    rw [renderDown]
    split_ifs
    · exact ⟨inv, placed, rfl, Nat.le_add_right _ _⟩
    · rw [List.length_cons] at inside
      have first := renderItem_continues rendered availableHeight inv placed
        (Nat.le_trans (by omega) inside : pass.scrollTop.itemIx + ix ≤ n) (known item (by simp))
      have others : Nonnegative below := fun other member => known other (List.mem_cons_of_mem _ member)
      have bound : (pass.renderItem renderer availableHeight ix item).scrollTop.itemIx + (ix + 1) +
          below.length ≤ n := by
        rw [first.same]
        omega
      have all := first.trans (ih first.inv first.placed bound others)
      rwa [Nat.add_comm 1] at all

/-! ## Up from the scroll top -/

structure Climbs (above above' measured measured' : List (ListItem F)) : Prop where
  suffix : above' <:+ above
  heights : Nonnegative measured'
  length : above'.length + measured'.length = above.length + measured.length

theorem renderAbove_inv (rendered : Sizes renderer.size) (inv : PassInv n pass) {index : Nat}
    (inside : index ≤ n) (item : ListItem F) : PassInv n (pass.renderAbove renderer index item) where
  stored := inv.stored
  pending := inv.pending
  heights := nonnegative_cons (rendered index) inv.heights
  layouts := by
    intro layout member
    rcases List.mem_cons.mp member with rfl | member
    · exact inside
    · exact inv.layouts layout member

theorem fillUp_climbs (rendered : Sizes renderer.size) (availableHeight : Pixels)
    {above : List (ListItem F)} (inv : PassInv n pass) (inside : above.length ≤ n) :
    PassInv n (pass.fillUp renderer availableHeight above).2 ∧
      Climbs above (pass.fillUp renderer availableHeight above).1 pass.measuredItems
        (pass.fillUp renderer availableHeight above).2.measuredItems := by
  induction above generalizing pass with
  | nil => exact ⟨inv, List.suffix_rfl, inv.heights, rfl⟩
  | cons item above ih =>
    rw [fillUp]
    split_ifs
    · have shorter : above.length ≤ n := Nat.le_of_succ_le inside
      obtain ⟨inv', climbs⟩ := ih (renderAbove_inv rendered inv shorter item) shorter
      refine ⟨inv', climbs.suffix.trans (List.suffix_cons _ _), climbs.heights, ?_⟩
      rw [climbs.length, List.length_cons, renderAbove, List.length_cons]
      omega
    · exact ⟨inv, List.suffix_rfl, inv.heights, rfl⟩

theorem moveUp_climbs (rendered : Sizes renderer.size) (availableHeight : Pixels)
    {above : List (ListItem F)} (inv : PassInv n pass) (inside : above.length ≤ n)
    (alignment : ListAlignment) :
    PassInv n (pass.moveUp renderer availableHeight alignment above).2 ∧
      Climbs above (pass.moveUp renderer availableHeight alignment above).1 pass.measuredItems
        (pass.moveUp renderer availableHeight alignment above).2.measuredItems := by
  obtain ⟨inv', climbs⟩ := fillUp_climbs rendered availableHeight inv inside
  cases alignment with
  | top =>
    refine ⟨⟨?_, inv'.pending, inv'.heights, inv'.layouts⟩, climbs⟩
    intro top stored
    cases stored
    exact ⟨Nat.le_trans climbs.suffix.length_le inside, le_max_right _ _⟩
  | bottom =>
    refine ⟨⟨?_, inv'.pending, inv'.heights, inv'.layouts⟩, climbs⟩
    intro top stored
    cases stored

theorem overdrawUp_climbs (rendered : Sizes renderer.size) (overdraw : Pixels)
    {above : List (ListItem F)} (known : Nonnegative above) (leading : Pixels) {measuredItems : List (ListItem F)}
    (heights : Nonnegative measuredItems) :
    Climbs above (overdrawUp renderer overdraw above leading measuredItems).1 measuredItems
      (overdrawUp renderer overdraw above leading measuredItems).2 := by
  induction above generalizing leading measuredItems with
  | nil => exact ⟨List.suffix_rfl, heights, rfl⟩
  | cons item above ih =>
    simp only [overdrawUp]
    split_ifs
    · have sized : 0 ≤ (ListItem.measured (item.size.getD (renderer.size above.length)) item.focusHandle).knownHeight :=
        knownSize_nonneg (known item (by simp)) (rendered above.length)
      have others : Nonnegative above := fun other member => known other (List.mem_cons_of_mem _ member)
      have climbs := ih others (leading + (item.size.getD (renderer.size above.length)).height)
        (nonnegative_cons sized heights)
      refine ⟨climbs.suffix.trans (List.suffix_cons _ _), climbs.heights, ?_⟩
      rw [climbs.length, List.length_cons, List.length_cons]
      omega
    · exact ⟨List.suffix_rfl, heights, rfl⟩

end Pass

namespace StateInner

/-! ## Layouts -/

variable {renderer : Renderer F}

theorem layoutTop_placed (inv : Inv state) : Placed state.items.length state.layoutTop.1 ∧ ∀ top,
    state.layoutTop.2 = some top → Placed state.items.length top := by
  unfold layoutTop
  split_ifs
  · refine ⟨placed_end state, ?_⟩
    intro top stored
    cases stored
    exact placed_end state
  · exact ⟨logicalTop_placed inv, inv.top⟩

theorem layoutDown_spec (inv : Inv state) (rendered : Sizes renderer.size) (availableHeight : Pixels)
    (padding : Edges) :
    PassInv state.items.length (state.layoutDown availableHeight padding renderer) ∧
      Placed state.items.length (state.layoutDown availableHeight padding renderer).scrollTop ∧
      (state.layoutDown availableHeight padding renderer).scrollTop.itemIx +
        (state.layoutDown availableHeight padding renderer).measuredItems.length ≤ state.items.length := by
  obtain ⟨placed, stored⟩ := layoutTop_placed inv
  have start : PassInv state.items.length (⟨[], [], padding.top, 0, state.layoutTop.1, false,
      state.pendingScroll, state.layoutTop.2⟩ : Pass F) :=
    ⟨stored, inv.pending, by simp [Nonnegative], by simp⟩
  have at_ : seekCount state.items state.layoutTop.1.itemIx = state.layoutTop.1.itemIx := by
    rw [seekCount_eq, Nat.min_eq_left placed.1]
  have room : state.layoutTop.1.itemIx + 0 +
      (state.items.drop state.layoutTop.1.itemIx).length ≤ state.items.length := by
    have := placed.1
    rw [List.length_drop]
    omega
  have continues := Pass.renderDown_continues rendered availableHeight state.overdraw
    start placed room (nonnegative_sublist inv.heights (List.drop_sublist _ _))
  have same := continues.same
  have measured := continues.measured
  simp only [layoutDown, at_]
  refine ⟨⟨continues.inv.stored, continues.inv.pending, continues.inv.heights,
    continues.inv.layouts⟩, continues.placed, ?_⟩
  simp only [List.length_nil, Nat.zero_add] at same measured
  omega

theorem layoutPass_spec (inv : Inv state) (rendered : Sizes renderer.size) (availableHeight : Pixels)
    (padding : Edges) :
    PassInv state.items.length (state.layoutPass availableHeight padding renderer).2.2 ∧
      Nonnegative (state.layoutPass availableHeight padding renderer).2.1 ∧
      (state.layoutPass availableHeight padding renderer).1.length +
        (state.layoutPass availableHeight padding renderer).2.1.length ≤ state.items.length := by
  obtain ⟨down, placed, bound⟩ := layoutDown_spec inv rendered availableHeight padding
  simp only [layoutPass]
  generalize state.layoutDown availableHeight padding renderer = pass at down placed bound
  rw [seekCount_eq, Nat.min_eq_left placed.1]
  have length : (state.items.take pass.scrollTop.itemIx).reverse.length = pass.scrollTop.itemIx := by
    rw [List.length_reverse, List.length_take, Nat.min_eq_left placed.1]
  have known : Nonnegative (state.items.take pass.scrollTop.itemIx).reverse := fun item member =>
    inv.heights item (List.mem_of_mem_take (List.mem_reverse.mp member))
  generalize (state.items.take pass.scrollTop.itemIx).reverse = above at length known
  -- Either way the loops up end with as many items as they began with.
  have up : ∃ above' pass', (if pass.renderedHeight - pass.scrollTop.offsetInItem < availableHeight then
      pass.moveUp renderer availableHeight state.alignment above else (above, pass)) = (above', pass') ∧
        PassInv state.items.length pass' ∧
        Pass.Climbs above above' pass.measuredItems pass'.measuredItems := by
    split_ifs
    · obtain ⟨inv', climbs⟩ := Pass.moveUp_climbs rendered availableHeight down
        (by rw [length]; exact placed.1) state.alignment
      exact ⟨_, _, rfl, inv', climbs⟩
    · exact ⟨above, pass, rfl, down, List.suffix_rfl, down.heights, rfl⟩
  obtain ⟨above', pass', eq, inv', climbs⟩ := up
  simp only [eq]
  have further := Pass.overdrawUp_climbs rendered state.overdraw
    (nonnegative_sublist known climbs.suffix.sublist) pass'.scrollTop.offsetInItem inv'.heights
  refine ⟨inv', further.heights, ?_⟩
  rw [further.length, climbs.length, length]
  exact bound

theorem refollow_items (top : ListOffset) (availableHeight : Pixels) :
    (state.refollow top availableHeight).items = state.items := by
  unfold refollow
  split_ifs <;> rfl

theorem refollow_inv (inv : Inv state) (top : ListOffset) (availableHeight : Pixels) :
    Inv (state.refollow top availableHeight) := by
  unfold refollow
  split_ifs
  · exact ⟨inv.top, inv.pending, inv.heights⟩
  · exact inv

theorem focusedItem_index {layout : ItemLayout} (found : state.focusedItem renderer = some layout) :
    layout.index ≤ state.items.length := by
  obtain ⟨⟨item, index⟩, at_, rfl⟩ := Option.map_eq_some_iff.mp found
  obtain ⟨-, inside, -⟩ := List.mem_zipIdx (List.mem_of_find?_eq_some at_)
  simp only
  omega

theorem layoutItems_inv (inv : Inv state) (rendered : Sizes renderer.size) (availableHeight : Pixels)
    (padding : Edges) : Inv (state.layoutItems availableHeight padding renderer).1 ∧
    (state.layoutItems availableHeight padding renderer).1.items.length = state.items.length ∧
    ∀ layout ∈ (state.layoutItems availableHeight padding renderer).2.itemLayouts,
    layout.index ≤ state.items.length := by
  obtain ⟨inv', heights, bound⟩ := layoutPass_spec inv rendered availableHeight padding
  unfold layoutItems
  generalize state.layoutPass availableHeight padding renderer = result at inv' heights bound
  obtain ⟨above, measuredItems, pass⟩ := result
  simp only at inv' heights bound
  simp only [seekCount_eq]
  have length : (state.items.take (min above.length state.items.length) ++ measuredItems ++
      state.items.drop (min (above.length + measuredItems.length) state.items.length)).length = state.items.length := by
    simp only [List.length_append, List.length_take, List.length_drop]
    omega
  generalize eq : state.items.take (min above.length state.items.length) ++ measuredItems ++
    state.items.drop (min (above.length + measuredItems.length) state.items.length) = items at length
  have known : Nonnegative items := by
    rw [← eq]
    apply nonnegative_append
    · exact nonnegative_append (nonnegative_sublist inv.heights (List.take_sublist _ _)) heights
    · exact nonnegative_sublist inv.heights (List.drop_sublist _ _)
  have after : Inv { state with
      items := items
      logicalScrollTop := pass.logicalScrollTop
      pendingScroll := pass.pendingScroll } := by
    refine ⟨?_, inv'.pending, known⟩
    intro top stored
    rw [Placed, length]
    exact inv'.stored top stored
  refine ⟨refollow_inv after _ _, ?_, ?_⟩
  · rw [refollow_items]
    exact length
  · intro layout member
    rcases List.mem_append.mp member with member | member
    · exact inv'.layouts layout member
    · rw [Option.mem_toList] at member
      split_ifs at member
      have inside := focusedItem_index member
      rw [refollow_items] at inside
      rw [← length]
      exact inside

theorem layoutAllItems_inv (inv : Inv state) {measureAll : Nat → Size Pixels} (sizes : Sizes measureAll) :
    Inv (state.layoutAllItems measureAll) ∧ (state.layoutAllItems measureAll).items.length = state.items.length := by
  unfold layoutAllItems
  split
  · have length : (state.items.zipIdx.map fun entry => ListItem.measured
        (entry.1.size.getD (measureAll entry.2)) entry.1.focusHandle).length = state.items.length := by
      rw [List.length_map, List.length_zipIdx]
    refine ⟨⟨?_, inv.pending, ?_⟩, length⟩
    · intro top stored
      rw [Placed, length]
      exact inv.top top stored
    · intro item member
      obtain ⟨⟨old, ix⟩, within, rfl⟩ := List.mem_map.mp member
      exact knownSize_nonneg (inv.heights old (List.fst_mem_of_mem_zipIdx within)) (sizes ix)
  · exact ⟨inv, rfl⟩

/-! ## Autoscroll -/

theorem walkAbove_placed (measureAbove : Nat → Size Pixels) {above : List (ListItem F)} (inside : above.length ≤ n)
    {top : ListOffset} (within : top.itemIx ≤ n) : Placed n (walkAbove measureAbove above top) := by
  induction above generalizing top with
  | nil =>
    rw [walkAbove]
    split_ifs with negative
    · exact ⟨within, le_refl _⟩
    · exact ⟨within, not_lt.mp negative⟩
  | cons item above ih =>
    rw [walkAbove]
    split_ifs with negative
    · have shorter : above.length ≤ n := Nat.le_of_succ_le inside
      exact ih shorter shorter
    · exact ⟨within, not_lt.mp negative⟩

theorem walkBelow_placed (measureAbove : Nat → Size Pixels) {above : List (ListItem F)} (inside : above.length ≤ n)
    (height : Pixels) : Placed n (walkBelow measureAbove above height) := by
  have clipped (height : Pixels) : 0 ≤ if height < 0 then -height else 0 := by
    split_ifs with negative
    · linarith
    · exact le_refl _
  induction above generalizing height with
  | nil => exact ⟨Nat.zero_le _, clipped height⟩
  | cons item above ih =>
    rw [walkBelow]
    by_cases positive : height > 0
    · rw [if_pos positive]
      exact ih (Nat.le_of_succ_le inside) _
    · rw [if_neg positive]
      exact ⟨inside, clipped height⟩

theorem autoscrollRequest_placed {bounds : Bounds Pixels} {padding : Edges} {frame : Frame F} {k : Nat}
    {originY : Pixels} {layouts : List ItemLayout} (inside : ∀ layout ∈ layouts, layout.index ≤ state.items.length)
    {request : ListOffset} (asked : state.autoscrollRequest bounds padding frame k originY layouts = some request) :
    Placed state.items.length request := by
  induction layouts generalizing k originY with
  | nil => cases asked
  | cons item layouts ih =>
    have within := inside item (by simp)
    have above : (state.items.take (seekCount state.items item.index)).reverse.length ≤ state.items.length := by
      rw [List.length_reverse]
      exact List.length_take_le' _ _
    have others := fun layout member => inside layout (List.mem_cons_of_mem _ member)
    rw [autoscrollRequest] at asked
    split at asked
    · split_ifs at asked
      · cases asked
        exact walkAbove_placed _ above within
      · cases asked
        exact walkBelow_placed _ above _
      · exact ih others asked
    · exact ih others asked

theorem prepaintItems_inv (inv : Inv state) {bounds : Bounds Pixels} {padding : Edges} (autoscroll : Bool)
    {frame : Frame F} (nonneg : frame.Nonnegative) {after : StateInner F}
    {response : Except ListOffset LayoutItemsResponse}
    (ran : state.prepaintItems bounds padding autoscroll frame = (after, response)) : Inv after ∧
    after.items.length = state.items.length ∧ ∀ request, response = .error request → autoscroll = true ∧
    Placed after.items.length request := by
  obtain ⟨measured, sameLength⟩ := layoutAllItems_inv inv nonneg.measureAll
  obtain ⟨laid, length, layouts⟩ := layoutItems_inv measured nonneg.rendered bounds.size.height padding
  simp only [prepaintItems] at ran
  generalize (state.layoutAllItems frame.measureAll).layoutItems bounds.size.height padding
    frame.renderer = result at ran laid length layouts
  obtain ⟨laidOut, answer⟩ := result
  simp only at ran laid length layouts
  have sameAll : laidOut.items.length = state.items.length := length.trans sameLength
  have silent {answer : LayoutItemsResponse} (ran : (laidOut, Except.ok answer) = (after, response)) : Inv after ∧
      after.items.length = state.items.length ∧ ∀ request, response = .error request → autoscroll = true ∧
      Placed after.items.length request := by
    cases ran
    refine ⟨laid, sameAll, ?_⟩
    intro request same
    cases same
  by_cases tall : bounds.size.height > padding.top + padding.bottom
  · rw [if_pos tall] at ran
    cases autoscroll with
    | false => exact silent ran
    | true =>
      simp only [if_true] at ran
      split at ran
      · rename_i request asked
        cases ran
        refine ⟨laid, sameAll, ?_⟩
        intro other same
        cases same
        rw [← length] at layouts
        exact ⟨rfl, autoscrollRequest_placed layouts asked⟩
      · exact silent ran
  · rw [if_neg tall] at ran
    exact silent ran

theorem invalidateWidth_inv (inv : Inv state) (bounds : Bounds Pixels) : Inv (state.invalidateWidth bounds) ∧
    (state.invalidateWidth bounds).items.length = state.items.length := by
  unfold invalidateWidth
  split_ifs
  · exact ⟨inv, rfl⟩
  · have length : (state.items.map fun item =>
        ListItem.unmeasured none item.focusHandle).length = state.items.length := List.length_map _
    refine ⟨⟨?_, inv.pending, ?_⟩, length⟩
    · intro top stored
      rw [Placed, length]
      exact inv.top top stored
    · apply nonnegative_map
      intro item _
      exact le_refl _

theorem prepaint_inv (inv : Inv state) (bounds : Bounds Pixels) (padding : Edges) {first second : Frame F}
    (nonneg : first.Nonnegative) (nonneg' : second.Nonnegative) : ∃ after,
    state.prepaint bounds padding first second = .ok after ∧ Inv after ∧ after.items.length = state.items.length := by
  have cleared : Inv { state with reset := false } := ⟨inv.top, inv.pending, inv.heights⟩
  obtain ⟨invalidated, length⟩ := invalidateWidth_inv cleared bounds
  simp only [prepaint]
  generalize invalidateWidth { state with reset := false } bounds = start at invalidated length
  generalize ran : start.prepaintItems bounds padding true first = result
  obtain ⟨laid, answer⟩ := result
  obtain ⟨kept, same, asked⟩ := prepaintItems_inv invalidated true nonneg ran
  cases answer with
  | ok response =>
    exact ⟨_, rfl, ⟨kept.top, kept.pending, kept.heights⟩, same.trans length⟩
  | error request =>
    have placed := (asked request rfl).2
    have moved : Inv { laid with logicalScrollTop := some request } := by
      refine ⟨?_, kept.pending, kept.heights⟩
      intro top stored
      cases stored
      exact placed
    simp only
    generalize again : prepaintItems { laid with logicalScrollTop := some request } bounds padding false second = result
    obtain ⟨relaid, answer⟩ := result
    obtain ⟨kept', same', asked'⟩ := prepaintItems_inv moved false nonneg' again
    cases answer with
    | ok response =>
      exact ⟨_, rfl, ⟨kept'.top, kept'.pending, kept'.heights⟩, same'.trans (same.trans length)⟩
    | error request => cases (asked' request rfl).1

end StateInner
end Pinrail.ListElement

import Mathlib.Algebra.Order.Ring.Int
import Mathlib.Data.List.Perm.Basic
import Mathlib.Data.List.Sort
import Mathlib.Tactic.Common
import Pinrail.Lib.Iterator
import Pinrail.Lib.Sweep

/-!
# Combined highlights

`combine_highlights`, over the colors `C` with the function that blends two of them, the font weights
`W` and the floats `F`, of whose arithmetic and order no law is used. The sort of the endpoints and the
order in which the set of active styles is iterated are parameters. The ranges that are yielded are
those of a sweep over the non-empty highlights, and the style of one is the fold over the highlights
that cover it.
-/

namespace Pinrail.Style

open Lib

inductive FontStyle where
  | normal
  | italic
  | oblique
deriving DecidableEq

structure UnderlineStyle (C F : Type) where
  thickness : F
  color : Option C
  wavy : Bool
deriving DecidableEq

structure StrikethroughStyle (C F : Type) where
  thickness : F
  color : Option C
deriving DecidableEq

structure HighlightStyle (C W F : Type) where
  color : Option C := none
  fontWeight : Option W := none
  fontStyle : Option FontStyle := none
  backgroundColor : Option C := none
  underline : Option (UnderlineStyle C F) := none
  strikethrough : Option (StrikethroughStyle C F) := none
  fadeOut : Option F := none
deriving DecidableEq

variable {C W F : Type} [Zero F] [One F] [Add F] [Mul F] [LT F] [DecidableLT F]

/-- `f32::clamp`. -/
def clamp (value low high : F) : F :=
  let value := if value < low then low else value
  if high < value then high else value

def fade (destFade sourceFade : F) : F := clamp (destFade * (1 + sourceFade)) 0 1

def HighlightStyle.highlight (blend : C → C → C) (self other : HighlightStyle C W F) : HighlightStyle C W F where
  color := (other.color.map fun otherColor =>
    match self.color with
    | some color => blend color otherColor
    | none => otherColor).or self.color
  fontWeight := other.fontWeight.or self.fontWeight
  fontStyle := other.fontStyle.or self.fontStyle
  backgroundColor := other.backgroundColor.or self.backgroundColor
  underline := other.underline.or self.underline
  strikethrough := other.strikethrough.or self.strikethrough
  fadeOut := (other.fadeOut.map fun sourceFade =>
    ((self.fadeOut.map fun destFade => fade destFade sourceFade).getD sourceFade)).or self.fadeOut

abbrev Highlighted (C W F : Type) := (Nat × Nat) × HighlightStyle C W F

abbrev Endpoint := Nat × Nat × Bool

def pushHighlight (state : List Endpoint × List (HighlightStyle C W F)) (item : Highlighted C W F) :
    List Endpoint × List (HighlightStyle C W F) :=
  if item.1.1 < item.1.2 then
    (state.1 ++ [(item.1.1, state.2.length, true), (item.1.2, state.2.length, false)], state.2 ++ [item.2])
  else state

structure Combining where
  endpoints : List Endpoint
  activeStyles : List Nat := []
  ix : Nat := 0

def currentStyle (blend : C → C → C) (highlights : List (HighlightStyle C W F)) (ids : List Nat) :
    Except Panic (HighlightStyle C W F) :=
  ids.foldlM (fun style id => do return style.highlight blend (← index highlights id)) {}

/-- The closure of `iter::from_fn`; `order` is how the set of active styles is iterated at a position. -/
def next (blend : C → C → C) (order : Nat → List Nat → List Nat) (highlights : List (HighlightStyle C W F)) :
    List Endpoint → List Nat → Nat → Except Panic (Option (Highlighted C W F) × Combining)
  | [], activeStyles, ix => return (none, ⟨[], activeStyles, ix⟩)
  | (endpointIx, id, isStart) :: endpoints, activeStyles, ix =>
    if endpointIx > ix ∧ activeStyles ≠ [] then do
      let style ← currentStyle blend highlights (order endpointIx activeStyles)
      return (some ((ix, endpointIx), style), ⟨(endpointIx, id, isStart) :: endpoints, activeStyles, endpointIx⟩)
    else
      next blend order highlights endpoints
        (if isStart then (if id ∈ activeStyles then activeStyles else activeStyles ++ [id])
          else activeStyles.filter (· ≠ id)) endpointIx

/-- All that `combine_highlights` yields. -/
def combineHighlights (blend : C → C → C) (sort : List Endpoint → List Endpoint)
    (order : Nat → List Nat → List Nat) (a b : List (Highlighted C W F)) : Except Panic (List (Highlighted C W F)) :=
  let (endpoints, highlights) := (a ++ b).foldl pushHighlight ([], [])
  drain (fun state => next blend order highlights state.endpoints state.activeStyles state.ix)
    (endpoints.length + 1) { endpoints := sort endpoints }

/-- `sort_unstable_by_key` on the positions. -/
structure LawfulSort (sort : List Endpoint → List Endpoint) : Prop where
  perm : ∀ endpoints, (sort endpoints).Perm endpoints
  sorted : ∀ endpoints, (sort endpoints).Pairwise fun first second => first.1 ≤ second.1

def LawfulOrder (order : Nat → List Nat → List Nat) : Prop := ∀ position ids, (order position ids).Perm ids

end Pinrail.Style

namespace Pinrail.Style

open Lib

variable {C W F : Type} {blend : C → C → C} {sort : List Endpoint → List Endpoint}
  {order : Nat → List Nat → List Nat} {a b inputs out : List (Highlighted C W F)}
  {highlights : List (HighlightStyle C W F)} {ids active : List Nat} {rest : List Endpoint} {ix x : Nat}

/-! ## Pushing -/

def nonEmpty (inputs : List (Highlighted C W F)) : List (Highlighted C W F) :=
  inputs.filter fun input => input.1.1 < input.1.2

theorem foldl_pushHighlight (inputs : List (Highlighted C W F)) : inputs.foldl pushHighlight ([], []) =
      (rangeEnds ((nonEmpty inputs).map Prod.fst), (nonEmpty inputs).map Prod.snd) := by
  induction inputs using List.reverseRecOn with
  | nil => rfl
  | append_singleton inputs input ih =>
    rw [List.foldl_concat, ih, pushHighlight]
    by_cases wide : input.1.1 < input.1.2
    · have kept : nonEmpty (inputs ++ [input]) = nonEmpty inputs ++ [input] := by
        simp [nonEmpty, wide]
      rw [if_pos wide, kept, List.map_append, List.map_append, List.map_singleton, rangeEnds_concat,
        List.length_map, List.length_map, List.map_singleton]
    · have dropped : nonEmpty (inputs ++ [input]) = nonEmpty inputs := by
        simp [nonEmpty, wide]
      rw [if_neg wide, dropped]

/-! ## The pieces of the sweep -/

/-- The pieces that `combine_highlights` yields, with the ids of the highlights that are active there. -/
def pieces (sort : List Endpoint → List Endpoint) (inputs : List (Highlighted C W F)) : List ((Nat × Nat) × List Nat) :=
  sweep (sort (rangeEnds ((nonEmpty inputs).map Prod.fst))) [] 0

theorem nonEmpty_wide : ∀ range ∈ (nonEmpty inputs).map Prod.fst, range.1 < range.2 := by
  intro range member
  obtain ⟨input, kept, rfl⟩ := List.mem_map.mp member
  exact of_decide_eq_true (List.mem_filter.mp kept).2

theorem pieces_swept (lawful : LawfulSort sort) (inputs : List (Highlighted C W F)) :
    Swept ((nonEmpty inputs).map Prod.fst) 0 (pieces sort inputs) :=
  sweep_swept (lawful.perm _) (lawful.sorted _) nonEmpty_wide

theorem pieces_known (lawful : LawfulSort sort) {piece : (Nat × Nat) × List Nat} (member : piece ∈ pieces sort inputs)
    {id : Nat} (active : id ∈ piece.2) : id < ((nonEmpty inputs).map Prod.snd).length := by
  have covering := ((pieces_swept lawful inputs).whole piece member).ids.mem_iff.mp active
  obtain ⟨range, found, -⟩ := mem_coveringIds.mp covering
  simpa using (List.getElem?_eq_some_iff.mp found).1

def stylesAt (inputs : List (Highlighted C W F)) (x : Nat) : List (HighlightStyle C W F) :=
  (inputs.filter fun input => input.1.1 ≤ x ∧ x < input.1.2).map Prod.snd

def stylesOver (inputs : List (Highlighted C W F)) (range : Nat × Nat) : List (HighlightStyle C W F) :=
  (inputs.filter fun input => input.1.1 ≤ range.1 ∧ range.2 ≤ input.1.2).map Prod.snd

def styleOf (highlights : List (HighlightStyle C W F)) (id : Nat) : HighlightStyle C W F := highlights[id]?.getD {}

theorem map_styleOf_coveringIds {range : Nat × Nat} (wide : range.1 < range.2) :
    (coveringIds ((nonEmpty inputs).map Prod.fst) range).map (styleOf ((nonEmpty inputs).map Prod.snd)) =
      stylesOver inputs range := by
  have fetch : ∀ entry ∈ (nonEmpty inputs).zipIdx, styleOf ((nonEmpty inputs).map Prod.snd) entry.2 = entry.1.2 := by
    intro entry member
    have found := List.mem_zipIdx_iff_getElem?.mp member
    simp [styleOf, found]
  have covering : stylesOver inputs range =
      ((nonEmpty inputs).filter fun input => input.1.1 ≤ range.1 ∧ range.2 ≤ input.1.2).map Prod.snd := by
    simp only [stylesOver, nonEmpty, List.filter_filter]
    congr 1
    apply List.filter_congr
    intro input inside
    rw [← Bool.decide_and, decide_eq_decide]
    omega
  calc (coveringIds ((nonEmpty inputs).map Prod.fst) range).map (styleOf ((nonEmpty inputs).map Prod.snd))
    _ = ((nonEmpty inputs).zipIdx.filter fun entry => entry.1.1.1 ≤ range.1 ∧ range.2 ≤ entry.1.1.2).map
        (fun entry => styleOf ((nonEmpty inputs).map Prod.snd) entry.2) := by
      rw [coveringIds, List.zipIdx_map, List.filter_map, List.map_map, List.map_map]
      rfl
    _ = ((nonEmpty inputs).zipIdx.filter fun entry => entry.1.1.1 ≤ range.1 ∧ range.2 ≤ entry.1.1.2).map
        (fun entry => entry.1.2) :=
      List.map_congr_left fun entry member => fetch entry (List.mem_of_mem_filter member)
    _ = (((nonEmpty inputs).zipIdx.map Prod.fst).filter fun input =>
        input.1.1 ≤ range.1 ∧ range.2 ≤ input.1.2).map Prod.snd := by
      rw [List.filter_map, List.map_map]
      rfl
    _ = stylesOver inputs range := by
      rw [List.zipIdx_map_fst, covering]

theorem piece_uncut (lawful : LawfulSort sort) {piece : (Nat × Nat) × List Nat}
    (member : piece ∈ pieces sort inputs) {input : Highlighted C W F} (kept : input ∈ nonEmpty inputs) :
    ∀ endpoint ∈ [input.1.1, input.1.2], endpoint ≤ piece.1.1 ∨ piece.1.2 ≤ endpoint := by
  have whole := ((pieces_swept lawful inputs).whole piece member).whole
  obtain ⟨id, found⟩ := List.getElem?_of_mem (List.mem_map_of_mem (f := Prod.fst) kept)
  have starts := whole (input.1.1, id, true) (mem_rangeEnds.mpr ⟨_, found, rfl⟩)
  have ends := whole (input.1.2, id, false) (mem_rangeEnds.mpr ⟨_, found, rfl⟩)
  intro endpoint place
  rcases List.mem_pair.mp place with rfl | rfl
  · exact starts
  · exact ends

theorem stylesAt_eq (lawful : LawfulSort sort) {piece : (Nat × Nat) × List Nat} (member : piece ∈ pieces sort inputs)
    (after : piece.1.1 ≤ x) (before : x < piece.1.2) : stylesAt inputs x = stylesOver inputs piece.1 := by
  rw [stylesAt, stylesOver]
  congr 1
  apply List.filter_congr
  intro input inside
  rw [decide_eq_decide]
  by_cases wide : input.1.1 < input.1.2
  · have kept : input ∈ nonEmpty inputs := List.mem_filter.mpr ⟨inside, decide_eq_true wide⟩
    have starts := piece_uncut lawful member kept input.1.1 (by simp)
    have ends := piece_uncut lawful member kept input.1.2 (by simp)
    omega
  · omega

theorem exists_mem_nonEmpty (inputs : List (Highlighted C W F)) (x : Nat) : (∃ range ∈ (nonEmpty inputs).map Prod.fst, range.1 ≤ x ∧ x < range.2) ↔
    ∃ input ∈ inputs, input.1.1 ≤ x ∧ x < input.1.2 := by
  constructor
  · rintro ⟨range, member, covers⟩
    obtain ⟨input, kept, rfl⟩ := List.mem_map.mp member
    exact ⟨input, List.mem_of_mem_filter kept, covers⟩
  · rintro ⟨input, member, after, before⟩
    have kept : input ∈ nonEmpty inputs :=
      List.mem_filter.mpr ⟨member, decide_eq_true (Nat.lt_of_le_of_lt after before)⟩
    exact ⟨input.1, List.mem_map_of_mem kept, after, before⟩

/-! ## The styles -/

variable [Zero F] [One F] [Add F] [Mul F] [LT F] [DecidableLT F]

/-- The fold of `HighlightStyle::highlight` over styles. -/
def layered (blend : C → C → C) (styles : List (HighlightStyle C W F)) : HighlightStyle C W F :=
  styles.foldl (fun acc style => acc.highlight blend style) {}

/-- Ascending ranges over what the highlights cover, cut at their endpoints, with the styles layered in
list order. -/
structure Combined (blend : C → C → C) (inputs out : List (Highlighted C W F)) : Prop where
  nonempty : ∀ item ∈ out, item.1.1 < item.1.2
  ascending : out.Pairwise fun first second => first.1.2 ≤ second.1.1
  union : ∀ x, (∃ item ∈ out, item.1.1 ≤ x ∧ x < item.1.2) ↔ ∃ input ∈ inputs, input.1.1 ≤ x ∧ x < input.1.2
  whole : ∀ item ∈ out, ∀ input ∈ nonEmpty inputs, ∀ endpoint ∈ [input.1.1, input.1.2],
    endpoint ≤ item.1.1 ∨ item.1.2 ≤ endpoint
  style : ∀ item ∈ out, item.2 = layered blend (stylesOver inputs item.1)

/-! ## Yielding -/

theorem foldlM_styles (known : ∀ id ∈ ids, id < highlights.length) (acc : HighlightStyle C W F) :
    ids.foldlM (fun style id => do return style.highlight blend (← index highlights id)) acc =
      Except.ok (ε := Panic) ((ids.map (styleOf highlights)).foldl (fun acc style => acc.highlight blend style) acc) := by
  induction ids generalizing acc with
  | nil => rfl
  | cons id ids ih =>
    obtain ⟨here, later⟩ := List.forall_mem_cons.mp known
    have found : index highlights id = .ok (styleOf highlights id) := by
      rw [index, styleOf, List.getElem?_eq_getElem here]
      rfl
    rw [List.foldlM_cons, found]
    exact ih later _

theorem currentStyle_eq (known : ∀ id ∈ ids, id < highlights.length) :
    currentStyle blend highlights ids = .ok (layered blend (ids.map (styleOf highlights))) :=
  foldlM_styles known {}

def styled (blend : C → C → C) (order : Nat → List Nat → List Nat) (highlights : List (HighlightStyle C W F))
    (piece : (Nat × Nat) × List Nat) : Highlighted C W F :=
  (piece.1, layered blend ((order piece.1.2 piece.2).map (styleOf highlights)))

theorem next_yields (lawful : LawfulOrder order)
    (known : ∀ piece ∈ sweep rest active ix, ∀ id ∈ piece.2, id < highlights.length) :
    Yields (fun state : Combining => next blend order highlights state.endpoints state.activeStyles state.ix)
      ⟨rest, active, ix⟩ ((sweep rest active ix).map (styled blend order highlights)) := by
  induction rest generalizing active ix with
  | nil => exact ⟨_, rfl⟩
  | cons e rest ih =>
    obtain ⟨position, id, isStart⟩ := e
    rw [sweep] at known ⊢
    have later := ih fun piece member => known piece (List.mem_append_right _ member)
    have passed : ∀ {active' ix'}, ¬ (position > ix' ∧ active' ≠ []) →
        next blend order highlights ((position, id, isStart) :: rest) active' ix' =
          next blend order highlights rest (toggle active' id isStart) position := by
      intro active' ix' none
      rw [next, if_neg none]
      rfl
    by_cases gap : position > ix ∧ active ≠ []
    · rw [if_pos gap] at known ⊢
      have inside : ∀ id ∈ order position active, id < highlights.length := fun id member =>
        known _ List.mem_cons_self id ((lawful position active).mem_iff.mp member)
      refine ⟨⟨(position, id, isStart) :: rest, active, position⟩, ?_, ?_⟩
      · show next blend order highlights ((position, id, isStart) :: rest) active ix = _
        rw [next, if_pos gap, currentStyle_eq inside]
        rfl
      · exact later.of_next_eq (passed fun again => Nat.lt_irrefl _ again.1)
    · rw [if_neg gap]
      exact later.of_next_eq (passed gap)

theorem combineHighlights_eq (lawfulSort : LawfulSort sort) (lawful : LawfulOrder order) :
    combineHighlights blend sort order a b =
      .ok ((pieces sort (a ++ b)).map (styled blend order ((nonEmpty (a ++ b)).map Prod.snd))) := by
  rw [combineHighlights, foldl_pushHighlight]
  apply Yields.drain
  · exact next_yields lawful fun piece member id active => pieces_known lawfulSort member active
  · rw [List.length_map, Nat.lt_succ_iff, ← (lawfulSort.perm _).length_eq]
    exact length_sweep_le _ _ _

theorem combined_iff (lawfulSort : LawfulSort sort) :
    Combined blend inputs ((pieces sort inputs).map (styled blend order ((nonEmpty inputs).map Prod.snd))) ↔
    ∀ piece ∈ pieces sort inputs,
    (styled blend order ((nonEmpty inputs).map Prod.snd) piece).2 = layered blend (stylesOver inputs piece.1) := by
  have swept := pieces_swept lawfulSort inputs
  constructor
  · intro combined piece member
    exact combined.style _ (List.mem_map_of_mem member)
  · intro style
    refine ⟨?_, ?_, ?_, ?_, ?_⟩
    · exact List.forall_mem_map.mpr fun piece member => (swept.whole piece member).nonempty
    · exact List.pairwise_map.mpr swept.ascending
    · intro x
      rw [← exists_mem_nonEmpty inputs, ← swept.covers x (Nat.zero_le x)]
      simp only [List.mem_map, exists_exists_and_eq_and, styled]
    · exact List.forall_mem_map.mpr fun piece member input kept => piece_uncut lawfulSort member kept
    · exact List.forall_mem_map.mpr style

/-! ## The order of the styles -/

theorem exists_perm_map {α β : Type} {f : α → β} {xs : List α} {ys : List β} (perm : ys.Perm (xs.map f)) :
    ∃ xs' : List α, xs'.Perm xs ∧ xs'.map f = ys := by
  have images : List.Forall₂ (fun y x => y = f x) (xs.map f) xs := by
    rw [List.forall₂_map_left_iff]
    exact List.forall₂_same.mpr fun _ _ => rfl
  obtain ⟨xs', related, perm'⟩ := List.perm_comp_forall₂ perm images
  refine ⟨xs', perm', ?_⟩
  have same : List.Forall₂ (fun y y' => y = y') ys (xs'.map f) := List.forall₂_map_right_iff.mpr related
  exact (List.forall₂_eq_eq_eq ▸ same).symm

/-- One value after the other taken up, each into what the values before it made. -/
def blended {α : Type} (op : α → α → α) : List α → Option α
  | [] => none
  | value :: values => some (values.foldl op value)

theorem blended_concat {α : Type} (op : α → α → α) (values : List α) (value : α) :
    blended op (values ++ [value]) = some (((blended op values).map (op · value)).getD value) := by
  cases values with
  | nil => rfl
  | cons first values => simp [blended]

/-- The values give one and the same in whatever order they are taken up. -/
def OrderFree {α : Type} (op : α → α → α) (values : List α) : Prop :=
  ∀ values', values'.Perm values → blended op values' = blended op values

theorem orderFree_overwrite_iff {α : Type} (values : List α) :
    OrderFree (fun _ value => value) values ↔ ∀ first ∈ values, ∀ second ∈ values, first = second := by
  have last : ∀ (values : List α) (value : α), blended (fun _ value => value) (values ++ [value]) = some value := by
    intro values value
    rw [blended_concat]
    cases blended (fun _ value => value) values <;> rfl
  constructor
  · intro free first mem second mem'
    have ends : ∀ value ∈ values, some value = blended (fun _ value => value) values := by
      intro value mem
      obtain ⟨before, after, rfl⟩ := List.mem_iff_append.mp mem
      rw [← free ((before ++ after) ++ [value]) (by
        rw [List.append_assoc]
        exact (List.perm_append_singleton value after).append_left before)]
      exact (last _ _).symm
    exact Option.some.inj ((ends first mem).trans (ends second mem').symm)
  · intro same values' perm
    rcases List.eq_nil_or_concat values with rfl | ⟨before, value, rfl⟩
    · rw [perm.eq_nil]
    · rcases List.eq_nil_or_concat values' with rfl | ⟨before', value', rfl⟩
      · exact absurd perm.symm.eq_nil (by simp)
      · rw [List.concat_eq_append, List.concat_eq_append, last, last]
        simp only [List.concat_eq_append] at same perm
        rw [same value' (perm.subset (by simp)) value (by simp)]

theorem exists_perm_filterMap {α β : Type} {f : α → Option β} {xs : List α} {ys : List β}
    (perm : ys.Perm (xs.filterMap f)) : ∃ xs' : List α, xs'.Perm xs ∧ xs'.filterMap f = ys := by
  have parts := (List.filter_append_perm (fun x => (f x).isSome) xs).symm
  have given : xs.filterMap f = ((xs.filter fun x => (f x).isSome).filterMap f) := by
    rw [List.filterMap_filter]
    congr 1
    funext x
    cases f x <;> rfl
  have total : ∀ (zs : List α), (∀ z ∈ zs, (f z).isSome) → (zs.filterMap f).map some = zs.map f := by
    intro zs known
    induction zs with
    | nil => rfl
    | cons z zs ih =>
      obtain ⟨y, isY⟩ := Option.isSome_iff_exists.mp (known z List.mem_cons_self)
      simp [isY, ih fun z mem => known z (List.mem_cons_of_mem _ mem)]
  have known : ∀ x ∈ xs.filter fun x => (f x).isSome, (f x).isSome := fun x mem => (List.mem_filter.mp mem).2
  have images : (ys.map some).Perm ((xs.filter fun x => (f x).isSome).map f) := by
    rw [← total _ known, ← given]
    exact perm.map some
  obtain ⟨zs, perm', same⟩ := exists_perm_map images
  refine ⟨zs ++ xs.filter fun x => !(f x).isSome, (perm'.append_right _).trans parts.symm, ?_⟩
  have none : (xs.filter fun x => !(f x).isSome).filterMap f = [] := by
    rw [List.filterMap_eq_nil_iff]
    intro x mem
    simpa using (List.mem_filter.mp mem).2
  rw [List.filterMap_append, none, List.append_nil]
  apply List.map_injective_iff.mpr (Option.some_injective β)
  rw [total zs fun z mem => known z (perm'.subset mem), same]

theorem layered_eq (blend : C → C → C) (styles : List (HighlightStyle C W F)) : layered blend styles =
    { color := blended blend (styles.filterMap (·.color))
      fontWeight := blended (fun _ value => value) (styles.filterMap (·.fontWeight))
      fontStyle := blended (fun _ value => value) (styles.filterMap (·.fontStyle))
      backgroundColor := blended (fun _ value => value) (styles.filterMap (·.backgroundColor))
      underline := blended (fun _ value => value) (styles.filterMap (·.underline))
      strikethrough := blended (fun _ value => value) (styles.filterMap (·.strikethrough))
      fadeOut := blended fade (styles.filterMap (·.fadeOut)) } := by
  have field {α : Type} (op : α → α → α) (values : List α) (value : Option α) :
      (value.map fun value => ((blended op values).map (op · value)).getD value).or (blended op values) =
        blended op (values ++ value.toList) := by
    cases value with
    | none => simp
    | some value => rw [Option.toList_some, blended_concat]; rfl
  have overwritten {α : Type} (values : List α) (value : Option α) :
      value.or (blended (fun _ value => value) values) = blended (fun _ value => value) (values ++ value.toList) := by
    rw [← field]
    cases value with
    | none => rfl
    | some value => cases blended (fun _ value => value) values <;> rfl
  have extend {α : Type} (f : HighlightStyle C W F → Option α) (styles : List (HighlightStyle C W F))
      (style : HighlightStyle C W F) : (styles ++ [style]).filterMap f = styles.filterMap f ++ (f style).toList := by
    rw [List.filterMap_append]
    cases isSome : f style <;> simp [isSome]
  induction styles using List.reverseRecOn with
  | nil => rfl
  | append_singleton styles style ih =>
    rw [layered] at ih ⊢
    rw [List.foldl_concat, ih]
    simp only [extend, HighlightStyle.highlight, HighlightStyle.mk.injEq]
    refine ⟨?_, overwritten _ _, overwritten _ _, overwritten _ _, overwritten _ _, overwritten _ _, field _ _ _⟩
    rw [← field]
    cases blended blend (styles.filterMap (·.color)) <;> rfl

/-- Highlights whose order is of no account: those that set a field that is overwritten set it to one value, and
their colors and their opacities give the same in whatever order they are blended. -/
structure Agree (blend : C → C → C) (styles : List (HighlightStyle C W F)) : Prop where
  color : OrderFree blend (styles.filterMap (·.color))
  fontWeight : ∀ first ∈ styles.filterMap (·.fontWeight), ∀ second ∈ styles.filterMap (·.fontWeight), first = second
  fontStyle : ∀ first ∈ styles.filterMap (·.fontStyle), ∀ second ∈ styles.filterMap (·.fontStyle), first = second
  backgroundColor : ∀ first ∈ styles.filterMap (·.backgroundColor), ∀ second ∈ styles.filterMap (·.backgroundColor),
    first = second
  underline : ∀ first ∈ styles.filterMap (·.underline), ∀ second ∈ styles.filterMap (·.underline), first = second
  strikethrough : ∀ first ∈ styles.filterMap (·.strikethrough), ∀ second ∈ styles.filterMap (·.strikethrough),
    first = second
  fadeOut : OrderFree fade (styles.filterMap (·.fadeOut))

theorem agree_iff (blend : C → C → C) (styles : List (HighlightStyle C W F)) :
    Agree blend styles ↔ ∀ styles', styles'.Perm styles → layered blend styles' = layered blend styles := by
  constructor
  · rintro ⟨color, weight, style, background, underline, strikethrough, fadeOut⟩ styles' perm
    rw [← orderFree_overwrite_iff] at weight style background underline strikethrough
    rw [layered_eq, layered_eq, color _ (perm.filterMap _), weight _ (perm.filterMap _), style _ (perm.filterMap _),
      background _ (perm.filterMap _), underline _ (perm.filterMap _), strikethrough _ (perm.filterMap _),
      fadeOut _ (perm.filterMap _)]
  · intro free
    have field {α : Type} (op : α → α → α) (f g : HighlightStyle C W F → Option α)
        (is : ∀ styles : List (HighlightStyle C W F), g (layered blend styles) = blended op (styles.filterMap f)) :
        OrderFree op (styles.filterMap f) := by
      intro values perm
      obtain ⟨styles', perm', rfl⟩ := exists_perm_filterMap perm
      rw [← is, ← is, free styles' perm']
    exact {
      color := field _ _ (·.color) fun styles => by rw [layered_eq]
      fontWeight := (orderFree_overwrite_iff _).mp (field _ _ (·.fontWeight) fun styles => by rw [layered_eq])
      fontStyle := (orderFree_overwrite_iff _).mp (field _ _ (·.fontStyle) fun styles => by rw [layered_eq])
      backgroundColor := (orderFree_overwrite_iff _).mp (field _ _ (·.backgroundColor) fun styles => by rw [layered_eq])
      underline := (orderFree_overwrite_iff _).mp (field _ _ (·.underline) fun styles => by rw [layered_eq])
      strikethrough := (orderFree_overwrite_iff _).mp (field _ _ (·.strikethrough) fun styles => by rw [layered_eq])
      fadeOut := field _ _ (·.fadeOut) fun styles => by rw [layered_eq] }

def byPosition (endpoints : List Endpoint) : List Endpoint :=
  endpoints.insertionSort fun first second => first.1 ≤ second.1

theorem byPosition_lawful : LawfulSort byPosition where
  perm := List.perm_insertionSort _
  sorted endpoints := by
    have total : Std.Total fun first second : Endpoint => first.1 ≤ second.1 :=
      ⟨fun first second => Nat.le_total first.1 second.1⟩
    have trans : IsTrans Endpoint fun first second => first.1 ≤ second.1 := ⟨fun _ _ _ => Nat.le_trans⟩
    exact List.pairwise_insertionSort _ endpoints

end Pinrail.Style

import Mathlib.Data.List.Nodup
import Mathlib.Data.List.TakeWhile
import Mathlib.Data.Rat.Floor
import Mathlib.Tactic.Linarith
import Pinrail.Lib.Binary32
import Pinrail.TextSystem.LineLayout

/-!
# Carets of an unwrapped line

A caret stands at a glyph's byte index or at the end of the line. `x_for_index` finds the first
glyph that is not before an index, `closest_index_for_x` scans the glyphs up to the first that is not
before a place and picks one of its two neighbours. Pixels are rationals, and `round` is how an
operation on `f32` rounds its exact result; nothing depends on it.
-/

namespace Pinrail.TextSystem
open Lib

/-! ## The code -/

/-- The glyphs of a line; `for run in runs { for glyph in run.glyphs }` passes them in this order. -/
def LineLayout.glyphs {P : Type} (self : LineLayout P) : List (ShapedGlyph P) :=
  (self.runs.map ShapedRun.glyphs).flatten

def LineLayout.indexForX (self : LineLayout ℚ) (x : ℚ) : Option Nat :=
  if self.width ≤ x then none
  else
    match self.glyphs.reverse.find? fun glyph => glyph.position.x ≤ x with
    | some glyph => some glyph.index
    | none => some 0

/-- The scan of `closest_index_for_x`, none if it passes all glyphs. -/
def closestScan (round : ℚ → ℚ) (x : ℚ) : List (ShapedGlyph ℚ) → Nat → ℚ → Option Nat
  | [], _, _ => none
  | glyph :: glyphs, prevIndex, prevX =>
    if x ≤ glyph.position.x then
      if round (glyph.position.x - x) < round (x - prevX) then some glyph.index else some prevIndex
    else closestScan round x glyphs glyph.index glyph.position.x

def LineLayout.closestIndexForX (self : LineLayout ℚ) (round : ℚ → ℚ) (x : ℚ) : Nat :=
  match closestScan round x self.glyphs 0 0 with
  | some index => index
  | none => if self.len = 1 then if round (self.width / 2) < x then 1 else 0 else self.len

def LineLayout.glyphForIndex (self : LineLayout ℚ) (index : Nat) : Option (ShapedGlyph ℚ) :=
  self.glyphs.find? fun glyph => index ≤ glyph.index

def LineLayout.xForIndex (self : LineLayout ℚ) (index : Nat) : ℚ :=
  match self.glyphForIndex index with
  | some glyph => glyph.position.x
  | none => self.width

/-! ## Carets -/

namespace LineLayout

def carets (self : LineLayout ℚ) : List Nat := self.glyphs.map (·.index) ++ [self.len]

def Ascending (self : LineLayout ℚ) : Prop :=
  self.glyphs.Pairwise fun a b => a.position.x < b.position.x

variable {self : LineLayout ℚ}

theorem mem_carets {index : Nat} :
    index ∈ self.carets ↔ (∃ glyph ∈ self.glyphs, glyph.index = index) ∨ index = self.len := by
  simp [carets]

theorem glyphForIndex_mem {index : Nat} {glyph : ShapedGlyph ℚ}
    (found : self.glyphForIndex index = some glyph) : glyph ∈ self.glyphs ∧ index ≤ glyph.index :=
  ⟨List.mem_of_find?_eq_some found, by simpa using List.find?_some found⟩

theorem xForIndex_found {index : Nat} {glyph : ShapedGlyph ℚ}
    (found : self.glyphForIndex index = some glyph) : self.xForIndex index = glyph.position.x := by
  rw [xForIndex, found]

theorem Ascending.glyphForIndex_first (ascending : self.Ascending) {index : Nat}
    {glyph : ShapedGlyph ℚ} (member : glyph ∈ self.glyphs) (notBefore : index ≤ glyph.index) :
    ∃ first, self.glyphForIndex index = some first ∧ first.position.x ≤ glyph.position.x := by
  unfold glyphForIndex Ascending at *
  generalize self.glyphs = glyphs at *
  induction glyphs with
  | nil => cases member
  | cons head rest ih =>
    rw [List.pairwise_cons] at ascending
    by_cases here : index ≤ head.index
    · refine ⟨head, by simp [here], ?_⟩
      rcases List.mem_cons.mp member with rfl | later
      · exact le_rfl
      · exact (ascending.1 glyph later).le
    · rcases List.mem_cons.mp member with rfl | later
      · exact absurd notBefore here
      · obtain ⟨first, found, least⟩ := ih ascending.2 later
        exact ⟨first, by simpa [here] using found, least⟩

theorem Ascending.inj (ascending : self.Ascending) {a b : ShapedGlyph ℚ} (inA : a ∈ self.glyphs)
    (inB : b ∈ self.glyphs) (same : a.position.x = b.position.x) : a = b := by
  have apart : (self.glyphs.map fun glyph => glyph.position.x).Nodup :=
    List.pairwise_map.mpr (ascending.imp fun less => less.ne)
  exact List.inj_on_of_nodup_map apart inA inB same

theorem Ascending.glyphForIndex_self (ascending : self.Ascending) {index : Nat} {glyph : ShapedGlyph ℚ}
    (found : self.glyphForIndex index = some glyph) : self.glyphForIndex glyph.index = some glyph := by
  obtain ⟨member, notBefore⟩ := glyphForIndex_mem found
  obtain ⟨first, isFirst, least⟩ := ascending.glyphForIndex_first member le_rfl
  obtain ⟨inFirst, after⟩ := glyphForIndex_mem isFirst
  obtain ⟨second, isSecond, below⟩ := ascending.glyphForIndex_first inFirst (notBefore.trans after)
  obtain rfl : glyph = second := Option.some.inj (found.symm.trans isSecond)
  rw [isFirst, ascending.inj inFirst member (le_antisymm least below)]

theorem Ascending.caret_cases (ascending : self.Ascending) {index : Nat}
    {found glyph : ShapedGlyph ℚ} (isFound : self.glyphForIndex index = some found)
    (member : glyph ∈ self.glyphs) :
    self.xForIndex glyph.index ≤ found.position.x ∨
    ∃ next, self.glyphForIndex (found.index + 1) = some next ∧
      next.position.x ≤ self.xForIndex glyph.index := by
  obtain ⟨first, isFirst, -⟩ := ascending.glyphForIndex_first member le_rfl
  obtain ⟨inFirst, after⟩ := glyphForIndex_mem isFirst
  rw [xForIndex_found isFirst]
  by_cases within : glyph.index ≤ found.index
  · obtain ⟨second, isSecond, least⟩ := ascending.glyphForIndex_first (glyphForIndex_mem isFound).1 within
    obtain rfl := Option.some.inj (isFirst.symm.trans isSecond)
    exact .inl least
  · have behind : found.index + 1 ≤ first.index := by omega
    obtain ⟨next, isNext, least⟩ := ascending.glyphForIndex_first inFirst behind
    exact .inr ⟨next, isNext, least⟩

theorem Ascending.next_behind (ascending : self.Ascending) {index : Nat} {found next : ShapedGlyph ℚ}
    (isFound : self.glyphForIndex index = some found) (isNext : self.glyphForIndex (found.index + 1) = some next) :
    found.position.x < next.position.x := by
  obtain ⟨inNext, after⟩ := glyphForIndex_mem isNext
  have isSelf := ascending.glyphForIndex_self isFound
  obtain ⟨first, isFirst, least⟩ := ascending.glyphForIndex_first inNext (Nat.le_of_lt after)
  obtain rfl := Option.some.inj (isSelf.symm.trans isFirst)
  refine lt_of_le_of_ne least fun same => ?_
  obtain rfl := ascending.inj (glyphForIndex_mem isFound).1 inNext same
  omega

/-! ## The scan -/

theorem closestScan_eq (round : ℚ → ℚ) (x : ℚ) (front rest : List (ShapedGlyph ℚ)) (next : ShapedGlyph ℚ)
    (before : ∀ glyph ∈ front, glyph.position.x < x) (notBefore : x ≤ next.position.x)
    (prevIndex : Nat) (prevX : ℚ) :
    closestScan round x (front ++ next :: rest) prevIndex prevX =
      match front.getLast? with
      | some prev =>
        if round (next.position.x - x) < round (x - prev.position.x) then some next.index else some prev.index
      | none => if round (next.position.x - x) < round (x - prevX) then some next.index else some prevIndex := by
  induction front generalizing prevIndex prevX with
  | nil => rw [List.nil_append, closestScan, if_pos notBefore]; rfl
  | cons head front ih =>
    rw [List.forall_mem_cons] at before
    rw [List.cons_append, closestScan, if_neg (not_le.mpr before.1), ih before.2]
    cases front with
    | nil => rfl
    | cons second front => rw [List.getLast?_cons_cons]; rfl

theorem closestScan_none (round : ℚ → ℚ) (x : ℚ) (glyphs : List (ShapedGlyph ℚ))
    (before : ∀ glyph ∈ glyphs, glyph.position.x < x) (prevIndex : Nat) (prevX : ℚ) :
    closestScan round x glyphs prevIndex prevX = none := by
  induction glyphs generalizing prevIndex prevX with
  | nil => rfl
  | cons head glyphs ih =>
    rw [List.forall_mem_cons] at before
    rw [closestScan, if_neg (not_le.mpr before.1)]
    exact ih before.2 _ _

/-! ## The nearest caret -/

theorem Ascending.caret_le (ascending : self.Ascending) {glyph : ShapedGlyph ℚ} (member : glyph ∈ self.glyphs)
    {index : Nat} (le : index ≤ glyph.index) : self.xForIndex index ≤ self.xForIndex glyph.index := by
  obtain ⟨found, isFound, -⟩ := ascending.glyphForIndex_first member le_rfl
  obtain ⟨inFound, after⟩ := glyphForIndex_mem isFound
  obtain ⟨first, isFirst, least⟩ := ascending.glyphForIndex_first inFound (le.trans after)
  rwa [xForIndex_found isFound, xForIndex_found isFirst]

theorem Ascending.mem_front (ascending : self.Ascending) {index : Nat} {found other : ShapedGlyph ℚ}
    (isFound : self.glyphForIndex index = some found) :
    other ∈ self.glyphs.takeWhile (fun glyph => glyph.index < index) ↔ other ∈ self.glyphs ∧
    other.position.x < found.position.x := by
  obtain ⟨notBefore, front, back, split, before⟩ := List.find?_eq_some_iff_append.mp isFound
  rw [decide_eq_true_eq] at notBefore
  have taken : self.glyphs.takeWhile (fun glyph => glyph.index < index) = front := by
    rw [split, List.takeWhile_append_of_pos fun glyph member => by simpa using before glyph member,
      List.takeWhile_cons_of_neg (by simpa using notBefore), List.append_nil]
  unfold Ascending at ascending
  rw [split, List.pairwise_append, List.pairwise_cons] at ascending
  rw [taken, split, List.mem_append, List.mem_cons]
  constructor
  · exact fun inFront => ⟨.inl inFront, ascending.2.2 other inFront found List.mem_cons_self⟩
  · rintro ⟨inFront | rfl | inBack, less⟩
    · exact inFront
    · exact absurd less (lt_irrefl _)
    · exact absurd less (ascending.2.1.1 other inBack).not_gt

/-- The place `x` lies no nearer to the carets next to that of `found` than to it: the last one in front of it and
the first behind it. -/
structure InCell (self : LineLayout ℚ) (found : ShapedGlyph ℚ) (x : ℚ) : Prop where
  front : ∀ last ∈ ((self.glyphs.takeWhile fun glyph => glyph.index < found.index).map (·.index)).max?,
    found.position.x - x ≤ x - self.xForIndex last
  behind : ∀ next, self.glyphForIndex (found.index + 1) = some next → x - found.position.x ≤ next.position.x - x

theorem Ascending.nearest_iff (ascending : self.Ascending) {index : Nat} {found : ShapedGlyph ℚ}
    (isFound : self.glyphForIndex index = some found) (x : ℚ) :
    (∀ caret ∈ self.carets, |found.position.x - x| ≤ |self.xForIndex caret - x|) ↔ self.InCell found x ∧
    |found.position.x - x| ≤ |self.xForIndex self.len - x| := by
  have isSelf := ascending.glyphForIndex_self isFound
  constructor
  · intro nearest
    have nearestGlyph (glyph : ShapedGlyph ℚ) (member : glyph ∈ self.glyphs) :
        |found.position.x - x| ≤ |self.xForIndex glyph.index - x| :=
      nearest glyph.index (mem_carets.mpr (.inl ⟨glyph, member, rfl⟩))
    refine ⟨⟨fun last isLast => ?_, fun next isNext => ?_⟩, nearest _ (mem_carets.mpr (.inr rfl))⟩
    · obtain ⟨glyph, inFront, rfl⟩ := List.mem_map.mp (List.max?_mem isLast)
      obtain ⟨member, before⟩ := (ascending.mem_front isSelf).mp inFront
      have closer := nearestGlyph glyph member
      obtain ⟨first, isFirst, least⟩ := ascending.glyphForIndex_first member le_rfl
      rw [xForIndex_found isFirst] at closer ⊢
      have distance := le_abs_self (found.position.x - x)
      rcases le_total x first.position.x with after | before'
      · rw [abs_of_nonneg (sub_nonneg.mpr after)] at closer
        linarith
      · rw [abs_of_nonpos (sub_nonpos.mpr before')] at closer
        linarith
    · have behind := ascending.next_behind isFound isNext
      have closer := nearestGlyph next (glyphForIndex_mem isNext).1
      rw [xForIndex_found (ascending.glyphForIndex_self isNext)] at closer
      have distance := neg_le_abs (found.position.x - x)
      rcases le_total x next.position.x with after | before
      · rw [abs_of_nonneg (sub_nonneg.mpr after)] at closer
        linarith
      · rw [abs_of_nonpos (sub_nonpos.mpr before)] at closer
        linarith
  · rintro ⟨⟨front, behind⟩, ends⟩ caret isCaret
    rcases mem_carets.mp isCaret with ⟨glyph, member, rfl⟩ | rfl
    · rcases ascending.caret_cases isFound member with before | ⟨next, isNext, after⟩
      · rcases before.eq_or_lt with same | less
        · rw [same]
        · obtain ⟨first, isFirst, -⟩ := ascending.glyphForIndex_first member le_rfl
          rw [xForIndex_found isFirst] at less ⊢
          have inFront := (ascending.mem_front isSelf).mpr ⟨(glyphForIndex_mem isFirst).1, less⟩
          obtain ⟨last, isLast⟩ := Option.isSome_iff_exists.mp
            (List.isSome_max?_of_mem (List.mem_map_of_mem (f := ShapedGlyph.index) inFront))
          obtain ⟨inLast, greatest⟩ := List.max?_eq_some_iff.mp isLast
          obtain ⟨top, topFront, rfl⟩ := List.mem_map.mp inLast
          have notBehind := ascending.caret_le ((ascending.mem_front isSelf).mp topFront).1
            (greatest _ (List.mem_map_of_mem inFront))
          rw [xForIndex_found (ascending.glyphForIndex_self isFirst)] at notBehind
          have far := front _ isLast
          have distance := neg_le_abs (first.position.x - x)
          rcases le_or_gt found.position.x x with left | right
          · rw [abs_of_nonpos (sub_nonpos.mpr left)]
            linarith
          · rw [abs_of_nonneg (by linarith)]
            linarith
      · have far := behind next isNext
        have further := ascending.next_behind isFound isNext
        have distance := le_abs_self (self.xForIndex glyph.index - x)
        rcases le_or_gt found.position.x x with left | right
        · rw [abs_of_nonpos (sub_nonpos.mpr left)]
          linarith
        · rw [abs_of_nonneg (by linarith)]
          linarith
    · exact ends

def Nearest (self : LineLayout ℚ) (x : ℚ) (index : Nat) : Prop :=
  index ∈ self.carets ∧ ∀ caret ∈ self.carets, |self.xForIndex index - x| ≤ |self.xForIndex caret - x|

/-- No caret next to that of the glyph is nearer to `x`, nor is the end of the line. -/
def NearestFor (self : LineLayout ℚ) (glyph : ShapedGlyph ℚ) (x : ℚ) : Prop :=
  ∀ found, self.glyphForIndex glyph.index = some found →
    self.InCell found x ∧ |found.position.x - x| ≤ |self.xForIndex self.len - x|

/-- When the scan finds the nearest caret: between two glyphs, in front of the first, or behind the
last. -/
def ClosestWhen (self : LineLayout ℚ) (round : ℚ → ℚ) (x : ℚ) : Prop :=
  match (self.glyphs.takeWhile fun glyph => glyph.position.x < x).getLast?,
    (self.glyphs.dropWhile fun glyph => glyph.position.x < x).head? with
  | some prev, some next =>
    if round (next.position.x - x) < round (x - prev.position.x) then self.NearestFor next x
    else self.NearestFor prev x
  | none, some first =>
    (round (first.position.x - x) < round x ∨ 0 ∈ self.carets) ∧
      |first.position.x - x| ≤ |self.xForIndex self.len - x|
  | _, none =>
    if self.len = 1 ∧ x ≤ round (self.width / 2) then
      0 ∈ self.carets ∧ (∀ last ∈ (self.glyphs.map (·.index)).max?, self.xForIndex last = self.xForIndex 0) ∧
        |self.xForIndex 0 - x| ≤ |self.xForIndex self.len - x|
    else ∀ last ∈ (self.glyphs.map (·.index)).max?, |self.xForIndex self.len - x| ≤ x - self.xForIndex last

theorem Ascending.nearest_glyph (ascending : self.Ascending) {glyph : ShapedGlyph ℚ}
    (member : glyph ∈ self.glyphs) (x : ℚ) : self.Nearest x glyph.index ↔ self.NearestFor glyph x := by
  obtain ⟨found, isFound, least⟩ := ascending.glyphForIndex_first member le_rfl
  have isCaret : glyph.index ∈ self.carets := mem_carets.mpr (.inl ⟨glyph, member, rfl⟩)
  rw [Nearest, xForIndex_found isFound, ascending.nearest_iff isFound x, NearestFor]
  simp [isCaret, isFound]

theorem Ascending.nearest_first (ascending : self.Ascending) {first : ShapedGlyph ℚ} {rest : List (ShapedGlyph ℚ)}
    (glyphs : self.glyphs = first :: rest) (x : ℚ) (right : x ≤ first.position.x) (near : Prop) [Decidable near] :
    self.Nearest x (if near then first.index else 0) ↔ (near ∨ 0 ∈ self.carets) ∧
    |first.position.x - x| ≤ |self.xForIndex self.len - x| := by
  have member : first ∈ self.glyphs := by simp [glyphs]
  have leading (index : Nat) (notBehind : index ≤ first.index) : self.glyphForIndex index = some first := by
    rw [glyphForIndex, glyphs, List.find?_cons_of_pos (by simpa using notBehind)]
  have nearest := ascending.nearest_iff (leading first.index le_rfl) x
  have cell : self.InCell first x := by
    constructor
    · simp [glyphs]
    · intro next isNext
      have behind := ascending.next_behind (leading first.index le_rfl) isNext
      linarith
  have isCaret : first.index ∈ self.carets := mem_carets.mpr (.inl ⟨first, member, rfl⟩)
  unfold Nearest
  split
  next near =>
    rw [xForIndex_found (leading first.index le_rfl), nearest, and_iff_right cell]
    simp only [near, isCaret, true_or]
  next far =>
    rw [xForIndex_found (leading 0 (Nat.zero_le _)), nearest, and_iff_right cell]
    simp only [far, false_or]

theorem Ascending.forall_glyph_iff (ascending : self.Ascending) (limit : ℚ) :
    (∀ glyph ∈ self.glyphs, self.xForIndex glyph.index ≤ limit) ↔ ∀ last ∈ (self.glyphs.map (·.index)).max?,
    self.xForIndex last ≤ limit := by
  constructor
  · intro every last isLast
    obtain ⟨glyph, member, rfl⟩ := List.mem_map.mp (List.max?_mem isLast)
    exact every glyph member
  · intro top glyph member
    obtain ⟨last, isLast⟩ := Option.isSome_iff_exists.mp
      (List.isSome_max?_of_mem (List.mem_map_of_mem (f := ShapedGlyph.index) member))
    obtain ⟨inLast, greatest⟩ := List.max?_eq_some_iff.mp isLast
    obtain ⟨other, inOther, rfl⟩ := List.mem_map.mp inLast
    exact (ascending.caret_le inOther (greatest _ (List.mem_map_of_mem member))).trans (top _ isLast)

theorem Ascending.nearest_len (ascending : self.Ascending) (x : ℚ)
    (left : ∀ glyph ∈ self.glyphs, glyph.position.x < x) : self.Nearest x self.len ↔
    ∀ last ∈ (self.glyphs.map (·.index)).max?, |self.xForIndex self.len - x| ≤ x - self.xForIndex last := by
  have before (glyph : ShapedGlyph ℚ) (member : glyph ∈ self.glyphs) :
      |self.xForIndex glyph.index - x| = x - self.xForIndex glyph.index := by
    obtain ⟨first, isFirst, least⟩ := ascending.glyphForIndex_first member le_rfl
    rw [xForIndex_found isFirst, abs_of_neg (by linarith [left glyph member]), neg_sub]
  have turned (place : ℚ) : |self.xForIndex self.len - x| ≤ x - place ↔
      place ≤ x - |self.xForIndex self.len - x| := le_sub_comm
  simp only [turned, ← ascending.forall_glyph_iff]
  simp only [← turned]
  constructor
  · rintro ⟨-, nearest⟩ glyph member
    rw [← before glyph member]
    exact nearest _ (mem_carets.mpr (.inl ⟨glyph, member, rfl⟩))
  · intro nearer
    refine ⟨mem_carets.mpr (.inr rfl), fun caret isCaret => ?_⟩
    rcases mem_carets.mp isCaret with ⟨glyph, member, rfl⟩ | rfl
    · rw [before glyph member]
      exact nearer glyph member
    · exact le_rfl

theorem Ascending.nearest_zero (ascending : self.Ascending) (x : ℚ)
    (left : ∀ glyph ∈ self.glyphs, glyph.position.x < x) :
    self.Nearest x 0 ↔
      0 ∈ self.carets ∧ (∀ last ∈ (self.glyphs.map (·.index)).max?, self.xForIndex last = self.xForIndex 0) ∧
        |self.xForIndex 0 - x| ≤ |self.xForIndex self.len - x| := by
  have between (glyph : ShapedGlyph ℚ) (member : glyph ∈ self.glyphs) :
      self.xForIndex 0 ≤ self.xForIndex glyph.index ∧ self.xForIndex glyph.index < x := by
    obtain ⟨first, isFirst, least⟩ := ascending.glyphForIndex_first member le_rfl
    rw [xForIndex_found isFirst]
    refine ⟨?_, least.trans_lt (left glyph member)⟩
    rw [← xForIndex_found isFirst]
    exact ascending.caret_le member (Nat.zero_le _)
  constructor
  · rintro ⟨isCaret, nearest⟩
    refine ⟨isCaret, fun last isLast => ?_, nearest _ (mem_carets.mpr (.inr rfl))⟩
    obtain ⟨glyph, member, rfl⟩ := List.mem_map.mp (List.max?_mem isLast)
    obtain ⟨above, below⟩ := between glyph member
    have nearer := nearest _ (mem_carets.mpr (.inl ⟨glyph, member, rfl⟩))
    rw [abs_of_neg (by linarith), abs_of_neg (by linarith)] at nearer
    linarith
  · rintro ⟨isCaret, same, ends⟩
    have below := (ascending.forall_glyph_iff (self.xForIndex 0)).mpr fun last isLast => (same last isLast).le
    refine ⟨isCaret, fun caret other => ?_⟩
    rcases mem_carets.mp other with ⟨glyph, member, rfl⟩ | rfl
    · rw [le_antisymm (below glyph member) (between glyph member).1]
    · exact ends

def twoGlyphs : LineLayout ℚ :=
  ⟨10, 20, 8, 2, [⟨0, [⟨0, ⟨0, 0⟩, 0, false⟩, ⟨0, ⟨10, 0⟩, 1, false⟩]⟩], 2⟩

theorem twoGlyphs_ascending : twoGlyphs.Ascending := by
  norm_num [Ascending, glyphs, twoGlyphs]

end LineLayout
end Pinrail.TextSystem

import Mathlib.Algebra.Group.Basic
import Mathlib.Order.MinMax

/-!
# Bounds

`Point`, `Size` and `Bounds` of `geometry.rs` over an ordered coordinate type. In an ordered commutative
group a corner is recovered from the origin and the size, which the sums and differences of floats need
not do: what is shown of unions is shown for a family of bounds that are joined exactly.
-/

namespace Pinrail.Geometry

structure Point (U : Type) where
  x : U
  y : U
deriving DecidableEq

structure Size (U : Type) where
  width : U
  height : U
deriving DecidableEq

structure Bounds (U : Type) where
  origin : Point U
  size : Size U
deriving DecidableEq

variable {U : Type} [Add U] [LinearOrder U]

namespace Point

def max (self other : Point U) : Point U where
  x := if self.x > other.x then self.x else other.x
  y := if self.y > other.y then self.y else other.y

def min (self other : Point U) : Point U where
  x := if self.x ≤ other.x then self.x else other.x
  y := if self.y ≤ other.y then self.y else other.y

end Point

namespace Bounds

def bottomRight (self : Bounds U) : Point U where
  x := self.origin.x + self.size.width
  y := self.origin.y + self.size.height

def isEmpty [Zero U] (self : Bounds U) : Bool := self.size.width ≤ 0 || self.size.height ≤ 0

def halfPerimeter (self : Bounds U) : U := self.size.width + self.size.height

def intersects (self other : Bounds U) : Bool :=
  self.origin.x < other.bottomRight.x && self.bottomRight.x > other.origin.x &&
    self.origin.y < other.bottomRight.y && self.bottomRight.y > other.origin.y

/-! ## Containment -/

/-- The corners of `inner` lie between those of `outer`. -/
structure Within (inner outer : Bounds U) : Prop where
  left : outer.origin.x ≤ inner.origin.x
  top : outer.origin.y ≤ inner.origin.y
  right : inner.bottomRight.x ≤ outer.bottomRight.x
  bottom : inner.bottomRight.y ≤ outer.bottomRight.y

variable {a b c : Bounds U}

theorem Within.refl (a : Bounds U) : a.Within a := ⟨le_rfl, le_rfl, le_rfl, le_rfl⟩

theorem Within.trans (ab : a.Within b) (bc : b.Within c) : a.Within c :=
  ⟨bc.left.trans ab.left, bc.top.trans ab.top, ab.right.trans bc.right, ab.bottom.trans bc.bottom⟩

theorem Within.intersects (inside : a.Within b) (meets : c.intersects a = true) : c.intersects b = true := by
  simp only [Bounds.intersects, Bool.and_eq_true, decide_eq_true_iff, gt_iff_lt] at meets ⊢
  obtain ⟨⟨⟨left, right⟩, top⟩, bottom⟩ := meets
  exact ⟨⟨⟨left.trans_le inside.right, inside.left.trans_lt right⟩, top.trans_le inside.bottom⟩,
    inside.top.trans_lt bottom⟩

theorem intersects_comm (a b : Bounds U) : a.intersects b = b.intersects a := by
  simp only [Bounds.intersects, gt_iff_lt]
  ac_rfl

/-- Each edge is that of a leaf which lies inside on its axis. -/
structure Spanned (leaves : List (Bounds U)) (bounds : Bounds U) : Prop where
  left : ∃ leaf ∈ leaves, leaf.origin.x = bounds.origin.x ∧ leaf.bottomRight.x ≤ bounds.bottomRight.x
  right : ∃ leaf ∈ leaves, leaf.bottomRight.x = bounds.bottomRight.x ∧ bounds.origin.x ≤ leaf.origin.x
  top : ∃ leaf ∈ leaves, leaf.origin.y = bounds.origin.y ∧ leaf.bottomRight.y ≤ bounds.bottomRight.y
  bottom : ∃ leaf ∈ leaves, leaf.bottomRight.y = bounds.bottomRight.y ∧ bounds.origin.y ≤ leaf.origin.y

omit [Add U] in
theorem exists_span {α : Type} {leaves : List α} {near far : α → U} {low low' high high' : U}
    (start : ∃ leaf ∈ leaves, near leaf = low ∧ far leaf ≤ high)
    (start' : ∃ leaf ∈ leaves, near leaf = low' ∧ far leaf ≤ high')
    (stop : ∃ leaf ∈ leaves, far leaf = high ∧ low ≤ near leaf)
    (stop' : ∃ leaf ∈ leaves, far leaf = high' ∧ low' ≤ near leaf) :
    (∃ leaf ∈ leaves, near leaf = low ⊓ low' ∧ far leaf ≤ high ⊔ high') ∧ ∃ leaf ∈ leaves, far leaf = high ⊔ high' ∧
    low ⊓ low' ≤ near leaf := by
  constructor
  · rcases min_choice low low' with is | is
    · obtain ⟨leaf, member, same, le⟩ := start
      exact ⟨leaf, member, same.trans is.symm, le.trans (le_max_left _ _)⟩
    · obtain ⟨leaf, member, same, le⟩ := start'
      exact ⟨leaf, member, same.trans is.symm, le.trans (le_max_right _ _)⟩
  · rcases max_choice high high' with is | is
    · obtain ⟨leaf, member, same, le⟩ := stop
      exact ⟨leaf, member, same.trans is.symm, (min_le_left _ _).trans le⟩
    · obtain ⟨leaf, member, same, le⟩ := stop'
      exact ⟨leaf, member, same.trans is.symm, (min_le_right _ _).trans le⟩

theorem spanned_leaf {leaves : List (Bounds U)} {leaf : Bounds U} (member : leaf ∈ leaves) : Spanned leaves leaf :=
  ⟨⟨leaf, member, rfl, le_rfl⟩, ⟨leaf, member, rfl, le_rfl⟩, ⟨leaf, member, rfl, le_rfl⟩, ⟨leaf, member, rfl, le_rfl⟩⟩

/-! ## Unions -/

variable [Sub U]

def fromCorners (topLeft bottomRight : Point U) : Bounds U where
  origin := topLeft
  size := ⟨bottomRight.x - topLeft.x, bottomRight.y - topLeft.y⟩

def union (self other : Bounds U) : Bounds U :=
  fromCorners (self.origin.min other.origin) (self.bottomRight.max other.bottomRight)

def intersect (self other : Bounds U) : Bounds U :=
  let upperLeft := self.origin.max other.origin
  fromCorners upperLeft ((self.bottomRight.min other.bottomRight).max upperLeft)

theorem origin_union : (a.union b).origin = ⟨a.origin.x ⊓ b.origin.x, a.origin.y ⊓ b.origin.y⟩ := by
  simp only [union, fromCorners, Point.min, ← min_def]

theorem bottomRight_union_of
    (x : a.origin.x ⊓ b.origin.x + (a.bottomRight.x ⊔ b.bottomRight.x - a.origin.x ⊓ b.origin.x) =
      a.bottomRight.x ⊔ b.bottomRight.x)
    (y : a.origin.y ⊓ b.origin.y + (a.bottomRight.y ⊔ b.bottomRight.y - a.origin.y ⊓ b.origin.y) =
      a.bottomRight.y ⊔ b.bottomRight.y) :
    (a.union b).bottomRight = ⟨a.bottomRight.x ⊔ b.bottomRight.x, a.bottomRight.y ⊔ b.bottomRight.y⟩ := by
  simp only [union, fromCorners, Point.min, Point.max, ← min_def, gt_iff_lt, ← max_def_lt]
  rw [bottomRight, max_comm b.bottomRight.x, max_comm b.bottomRight.y, x, y]

/-- The family is closed under unions, and their corners are recovered. -/
structure Joins (kept : Bounds U → Prop) : Prop where
  union : ∀ {a b}, kept a → kept b → kept (a.union b)
  corner : ∀ {a b}, kept a → kept b →
    (a.union b).bottomRight = ⟨a.bottomRight.x ⊔ b.bottomRight.x, a.bottomRight.y ⊔ b.bottomRight.y⟩

section Joins

variable {kept : Bounds U → Prop} (joins : Joins kept) (isA : kept a) (isB : kept b) (isC : kept c)
include joins isA isB

theorem Joins.left : a.Within (a.union b) := by
  constructor <;> simp [origin_union, joins.corner isA isB]

theorem Joins.right : b.Within (a.union b) := by
  constructor <;> simp [origin_union, joins.corner isA isB]

theorem Joins.least (ac : a.Within c) (bc : b.Within c) : (a.union b).Within c := by
  constructor
  · simp [origin_union, ac.left, bc.left]
  · simp [origin_union, ac.top, bc.top]
  · simp [joins.corner isA isB, ac.right, bc.right]
  · simp [joins.corner isA isB, ac.bottom, bc.bottom]

include isC in
theorem Joins.mono (ab : a.Within b) : (a.union c).Within (b.union c) :=
  joins.least isA isC (ab.trans (joins.left isB isC)) (joins.right isB isC)

end Joins

theorem joins_all {U : Type} [AddCommGroup U] [LinearOrder U] : Joins fun _ : Bounds U => True where
  union _ _ := trivial
  corner _ _ := bottomRight_union_of (add_sub_cancel _ _) (add_sub_cancel _ _)

/-- From the left and the right edge of two bounds, the second behind the first with both, the sum gives the right
edge back; so also of the top and the bottom ones. -/
structure Recovers (leaves : List (Bounds U)) : Prop where
  x : ∀ a ∈ leaves, ∀ b ∈ leaves, a.origin.x ≤ b.origin.x → a.bottomRight.x ≤ b.bottomRight.x →
    a.origin.x + (b.bottomRight.x - a.origin.x) = b.bottomRight.x
  y : ∀ a ∈ leaves, ∀ b ∈ leaves, a.origin.y ≤ b.origin.y → a.bottomRight.y ≤ b.bottomRight.y →
    a.origin.y + (b.bottomRight.y - a.origin.y) = b.bottomRight.y

theorem Recovers.joins {leaves : List (Bounds U)} (recovers : Recovers leaves) : Joins (Spanned leaves) := by
  have corner : ∀ {a b : Bounds U}, Spanned leaves a → Spanned leaves b →
      (a.union b).bottomRight = ⟨a.bottomRight.x ⊔ b.bottomRight.x, a.bottomRight.y ⊔ b.bottomRight.y⟩ := by
    intro a b isA isB
    obtain ⟨⟨first, inFirst, near, within⟩, ⟨last, inLast, far, behind⟩⟩ :=
      exists_span isA.left isB.left isA.right isB.right
    obtain ⟨⟨upper, inUpper, nearY, withinY⟩, ⟨lower, inLower, farY, behindY⟩⟩ :=
      exists_span isA.top isB.top isA.bottom isB.bottom
    apply bottomRight_union_of
    · rw [← near, ← far]
      exact recovers.x first inFirst last inLast (near.trans_le behind) (within.trans far.ge)
    · rw [← nearY, ← farY]
      exact recovers.y upper inUpper lower inLower (nearY.trans_le behindY) (withinY.trans farY.ge)
  refine ⟨fun isA isB => ?_, corner⟩
  obtain ⟨left, right⟩ := exists_span isA.left isB.left isA.right isB.right
  obtain ⟨top, bottom⟩ := exists_span isA.top isB.top isA.bottom isB.bottom
  constructor <;> rw [origin_union, corner isA isB] <;> assumption

end Bounds

end Pinrail.Geometry

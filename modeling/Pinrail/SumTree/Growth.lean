import Mathlib.Tactic.Ring
import Pinrail.SumTree.Append

/-!
# How high appends make a tree

A tree that only trees of height at most `base` are appended to grows like a counter: above that
height the nodes on its right edge hold between one and twelve children, an append adds at most one
child at the lowest of these levels, and a node that would hold thirteen is split, leaving six and
carrying one to the level above. In base seven a carry costs what it frees, so the height is
logarithmic in the number of appends.
-/

namespace Pinrail.SumTree
open Lib Summary

variable {T S : Type} [Summary S]

/-- The children on the right edge above height `base`, as digits in base seven. -/
def load (base : Nat) : SumTree T S → Nat
  | .leaf .. => 0
  | .internal height _ _ childTrees =>
    if height ≤ base then 0
    else childTrees.length * 7 ^ (height - base - 1) + loadOfLast childTrees
where
  loadOfLast : List (SumTree T S) → Nat
    | [] => 0
    | [last] => load base last
    | _ :: trees => loadOfLast trees

variable {base : Nat}

omit [Summary S] in
theorem loadOfLast_concat (init : List (SumTree T S)) (last : SumTree T S) :
    load.loadOfLast base (init ++ [last]) = load base last := by
  induction init with
  | nil => rfl
  | cons tree init ih =>
    cases init with
    | nil => rfl
    | cons next init => exact ih

omit [Summary S] in
theorem load_low {tree : SumTree T S} (low : tree.height ≤ base) : load base tree = 0 := by
  cases tree with
  | leaf s xs ss => rfl
  | internal h s ss trees => rw [load, if_pos (show h ≤ base from low)]

omit [Summary S] in
theorem load_internal {h : Nat} (above : base ≤ h) (s : S) (ss : List S)
    (init : List (SumTree T S)) (last : SumTree T S) :
    load base (.internal (h + 1) s ss (init ++ [last])) = (init.length + 1) * 7 ^ (h - base) + load base last := by
  rw [load, if_neg (by omega), loadOfLast_concat, List.length_append]
  rw [show h + 1 - base - 1 = h - base by omega]
  rfl

/-- A node of height `h` after an append: within `n`, or split with one carried to the next level. -/
def Carries (base h n : Nat) (self : SumTree T S) : Option (SumTree T S) → Prop
  | none => load base self ≤ n
  | some right => load base right + 7 ^ (h - base) ≤ n

theorem growInternal_none {h : Nat} {s : S} {ss more : List S} {trees : List (SumTree T S)}
    {self : SumTree T S} {split : Option (SumTree T S)} (fits : trees.length ≤ nodeCapacity)
    (grown : growInternal h s ss trees more [] = .ok (self, split)) :
    split = none ∧ ∃ ss', self = .internal h s ss' trees := by
  unfold growInternal at grown
  simp only at grown
  rw [if_neg (by simpa using fits)] at grown
  obtain ⟨summaries, -, grown⟩ := bind_eq_ok.mp grown
  obtain ⟨allTrees, collected, grown⟩ := bind_eq_ok.mp grown
  cases grown
  unfold collect at collected
  split_ifs at collected
  cases collected
  exact ⟨rfl, summaries, by simp⟩

theorem growInternal_one {h : Nat} (above : base ≤ h) {s : S} {ss more : List S} {trees : List (SumTree T S)}
    {new self : SumTree T S} {split : Option (SumTree T S)} (fits : trees.length ≤ nodeCapacity)
    (grown : growInternal (h + 1) s ss trees more [new] = .ok (self, split)) : Carries base (h + 1)
    ((trees.length + 1) * 7 ^ (h - base) + load base new) self split := by
  unfold growInternal at grown
  simp only [List.length_singleton] at grown
  split_ifs at grown with overflow
  · obtain ⟨leftSummaries, -, grown⟩ := bind_eq_ok.mp grown
    obtain ⟨rightSummaries, -, grown⟩ := bind_eq_ok.mp grown
    obtain ⟨leftTrees, -, grown⟩ := bind_eq_ok.mp grown
    obtain ⟨rightTrees, collected, grown⟩ := bind_eq_ok.mp grown
    cases grown
    unfold collect at collected
    split_ifs at collected
    cases collected
    have full : trees.length = 12 := Nat.le_antisymm fits (Nat.le_of_lt_succ overflow)
    -- Thirteen children are split into seven and six, and the new one is the last of the six.
    have right : (trees ++ [new]).drop ((trees.length + 1 + (trees.length + 1) % 2) / 2) = trees.drop 7 ++ [new] := by
      rw [full, List.drop_append_of_le_length (by omega)]
    rw [right, Carries, load_internal above, List.length_drop, full,
      show h + 1 - base = (h - base) + 1 by omega, Nat.pow_succ]
    omega
  · obtain ⟨summaries, -, grown⟩ := bind_eq_ok.mp grown
    obtain ⟨allTrees, collected, grown⟩ := bind_eq_ok.mp grown
    cases grown
    unfold collect at collected
    split_ifs at collected
    cases collected
    rw [Carries, load_internal above]

variable [Item T S] [LawfulSummary S]

theorem pushTreeRecursive_load {hs ho : Nat} {self other self' : SumTree T S} {split : Option (SumTree T S)}
    (balanced : Balanced hs self) (otherBalanced : Balanced ho other) (above : base < hs) (low : ho ≤ base)
    (pushed : pushTreeRecursive self other = .ok (self', split)) :
    Carries base hs (load base self + 1) self' split := by
  induction balanced generalizing self' split with
  | leaf nonempty fits => omega
  | @internal h trees nonempty fits below ih =>
    have otherHeight := otherBalanced.height_eq
    obtain ⟨init, last, rfl⟩ := (List.eq_nil_or_concat' trees).resolve_left nonempty
    have lastHeight := (below last (by simp)).height_eq
    have here : base ≤ h := by omega
    rw [pushTreeRecursive] at pushed
    obtain ⟨delta, deltaEq, pushed⟩ := bind_eq_ok.mp pushed
    have positive := sub_of_checkedSub deltaEq
    rw [load_internal here]
    rw [if_neg (by omega)] at pushed
    split_ifs at pushed with sibling
    · simp only [push_nil, ok_bind] at pushed
      have grown := growInternal_one here fits pushed
      rw [load_low (show other.height ≤ base by omega), List.length_append] at grown
      obtain rfl : h = base := by omega
      cases split with
      | none => simp only [Carries, List.length_singleton, Nat.sub_self] at grown ⊢; omega
      | some right => simp only [Carries, List.length_singleton, Nat.sub_self] at grown ⊢; omega
    · obtain ⟨⟨trees', res⟩, pushedLast, pushed⟩ := bind_eq_ok.mp pushed
      obtain ⟨lastChild, -, pushed⟩ := bind_eq_ok.mp pushed
      obtain ⟨summaries, -, pushed⟩ := bind_eq_ok.mp pushed
      rw [pushTreeIntoLast_concat] at pushedLast
      obtain ⟨⟨last', res'⟩, lastEq, pushedLast⟩ := bind_eq_ok.mp pushedLast
      cases pushedLast
      have carried : Carries base h (load base last + 1) last' res := by
        rcases Nat.lt_or_ge base h with higher | level
        · exact ih last (by simp) higher lastEq
        · obtain ⟨_, _, again, pieces, -⟩ := pushTreeRecursive_spec (below last (by simp)) otherBalanced (by omega)
          cases lastEq.symm.trans again
          cases res with
          | none =>
            have flat : load base last' = 0 := load_low (le_of_eq_of_le (pieces last' (by simp)).height_eq level)
            simp only [Carries]
            omega
          | some right =>
            have flat : load base right = 0 := load_low (le_of_eq_of_le (pieces right (by simp)).height_eq level)
            simp only [Carries]
            rw [show h - base = 0 by omega, Nat.pow_zero]
            omega
      have full : (init ++ [last']).length ≤ nodeCapacity := by simpa using fits
      cases res with
      | none =>
        obtain ⟨rfl, ss, rfl⟩ := growInternal_none full pushed
        simp only [Carries] at carried ⊢
        rw [load_internal here]
        omega
      | some right =>
        simp only [push_nil, ok_bind] at pushed
        have grown := growInternal_one here full pushed
        simp only [List.length_append, List.length_singleton, Nat.add_mul, Nat.one_mul] at grown ⊢
        simp only [Carries] at carried
        cases split with
        | none =>
          simp only [Carries] at grown ⊢
          omega
        | some next =>
          simp only [Carries] at grown ⊢
          omega

/-! ## Many appends -/

/-- A tree that `n` trees no higher than `base` were appended to. -/
structure Low (base n : Nat) (tree : SumTree T S) : Prop where
  wellFormed : WellFormed tree
  low : tree.height ≤ base ∨ (6 * load base tree ≤ 6 * (n + 12) + 7 ^ (tree.height - base) ∧
      5 * 7 ^ (tree.height - base - 1) ≤ 6 * (n + 13))

omit [LawfulSummary S] in
theorem Low.new : Low base 0 (.new : SumTree T S) := ⟨.inl rfl, .inl (Nat.zero_le _)⟩

omit [LawfulSummary S] in
theorem Low.height_le {n k : Nat} {tree : SumTree T S} (low : Low base n tree)
    (few : 6 * (n + 13) < 5 * 7 ^ k) : tree.height ≤ base + k := by
  rcases low.low with below | ⟨-, bound⟩
  · exact Nat.le_add_right_of_le below
  · by_contra above
    have grows : 7 ^ k ≤ 7 ^ (tree.height - base - 1) := Nat.pow_le_pow_right (by decide) (by omega)
    omega

omit [LawfulSummary S] in
theorem Low.mono {m n : Nat} (le : m ≤ n) {tree : SumTree T S} (low : Low base m tree) : Low base n tree := by
  refine ⟨low.wellFormed, low.low.imp_right ?_⟩
  rintro ⟨loaded, bound⟩
  omega

omit [LawfulSummary S] in
theorem load_level {tree : SumTree T S} (balanced : Balanced (base + 1) tree) : load base tree ≤ 12 := by
  cases balanced with
  | @internal _ trees nonempty fits below =>
    obtain ⟨init, last, rfl⟩ := (List.eq_nil_or_concat' trees).resolve_left nonempty
    have flat : load base last = 0 := load_low (Nat.le_of_eq (below last (by simp)).height_eq)
    rw [load_internal (Nat.le_refl _), Nat.sub_self, Nat.pow_zero, Nat.mul_one, flat]
    simpa [nodeCapacity, treeBase] using fits

omit [Item T S] [LawfulSummary S] in
theorem load_fromChildTrees {h : Nat} {left right tree : SumTree T S} (leftHeight : left.height = h) (above : base ≤ h)
    (joined : fromChildTrees left right = .ok tree) : load base tree = 2 * 7 ^ (h - base) + load base right := by
  obtain ⟨height, heightEq, joined⟩ := bind_eq_ok.mp joined
  obtain ⟨summaries, -, joined⟩ := bind_eq_ok.mp joined
  obtain ⟨allSummaries, -, joined⟩ := bind_eq_ok.mp joined
  obtain ⟨trees, one, joined⟩ := bind_eq_ok.mp joined
  obtain ⟨allTrees, two, joined⟩ := bind_eq_ok.mp joined
  cases joined
  cases one
  cases two
  unfold checkedAdd at heightEq
  split_ifs at heightEq
  cases heightEq
  rw [leftHeight]
  exact load_internal above _ _ [left] right

theorem append_load {ha hb : Nat} {a b tree : SumTree T S} (aBalanced : Balanced ha a)
    (bBalanced : Balanced hb b) (above : base < ha) (low : hb ≤ base)
    (appended : append a b = .ok tree) :
    (tree.height = ha ∧ load base tree ≤ load base a + 1) ∨
    (tree.height = ha + 1 ∧ 7 ^ (ha - base) ≤ load base a + 1 ∧
      load base tree ≤ load base a + 1 + 7 ^ (ha - base)) := by
  have present : (!b.isLeaf || !b.isEmpty) = true := by simp [bBalanced.isEmpty_eq]
  obtain ⟨self, split, pushed, pieces, -⟩ := pushTreeRecursive_spec aBalanced bBalanced (show hb ≤ ha by omega)
  have carries := pushTreeRecursive_load aBalanced bBalanced above low pushed
  have selfHeight := (pieces self (by simp)).height_eq
  simp only [append, aBalanced.isEmpty_eq, present, aBalanced.height_eq, bBalanced.height_eq] at appended
  rw [if_neg (by simp), if_pos trivial, if_neg (by omega), pushed, ok_bind] at appended
  cases split with
  | none =>
    cases appended
    exact .inl ⟨selfHeight, carries⟩
  | some right =>
    have joined : fromChildTrees self right = .ok tree := appended
    have doubled := load_fromChildTrees selfHeight (Nat.le_of_lt above) joined
    rcases fromChildTrees_spec (pieces self (by simp)) (pieces right (by simp)) with
      ⟨-, tree', again, balanced, -⟩ | ⟨-, failed⟩
    · cases joined.symm.trans again
      simp only [Carries] at carries
      exact .inr ⟨balanced.height_eq, by omega, by omega⟩
    · rw [joined] at failed
      cases failed

theorem append_low {n k : Nat} {a b : SumTree T S} (low : Low base n a) (bWellFormed : WellFormed b)
    (bLow : b.height ≤ base) (few : 6 * (n + 13) < 5 * 7 ^ k) (room : base + k < 255) :
    ∃ tree, append a b = .ok tree ∧ tree.toList = a.toList ++ b.toList ∧ Low base (n + 1) tree := by
  have bound := low.height_le few
  rcases append_wellFormed low.wellFormed bWellFormed with
    ⟨tree, appended, wellFormed, held, height⟩ | ⟨-, overflow⟩
  · refine ⟨tree, appended, held, wellFormed, ?_⟩
    rcases Nat.lt_or_ge base a.height with above | below
    · obtain ⟨loaded, tall⟩ := low.low.resolve_left (by omega)
      obtain ⟨ha, aBalanced⟩ : ∃ h, Balanced h a := by
        refine low.wellFormed.resolve_left ?_
        rintro rfl
        exact Nat.not_lt_zero _ above
      rcases bWellFormed with rfl | ⟨hb, bBalanced⟩
      · have same : append a .new = .ok a := by
          simp only [append, aBalanced.isEmpty_eq]
          rfl
        cases appended.symm.trans same
        exact (low.mono (Nat.le_succ n)).low
      · rw [aBalanced.height_eq] at above loaded
        rw [bBalanced.height_eq] at bLow
        rcases append_load aBalanced bBalanced above bLow appended with
          ⟨level, more⟩ | ⟨level, most, more⟩
        · rw [aBalanced.height_eq] at tall
          rw [level]
          exact .inr ⟨by omega, by omega⟩
        · rw [level, show ha + 1 - base = (ha - base) + 1 by omega, Nat.pow_succ, Nat.add_sub_cancel]
          exact .inr ⟨by omega, by omega⟩
    · rcases Nat.lt_or_ge base tree.height with above | flat
      · have level : tree.height = base + 1 := by omega
        obtain ⟨h, balanced⟩ : ∃ h, Balanced h tree := by
          refine wellFormed.resolve_left ?_
          rintro rfl
          exact Nat.not_lt_zero _ above
        obtain rfl : h = base + 1 := balanced.height_eq.symm.trans level
        have full := load_level balanced
        rw [level, show base + 1 - base = 1 by omega]
        exact .inr ⟨by omega, by omega⟩
      · exact .inl flat
  · omega

end Pinrail.SumTree

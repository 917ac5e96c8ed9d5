import Mathlib.Algebra.Order.BigOperators.Group.Finset
import Mathlib.Data.Fintype.BigOperators
import Mathlib.Logic.Function.Iterate

/-!
# Levels raised on collisions

Every item has a description at each level. In a round the items whose description changed, and those
still at level 0, are compared, and those that share a description are raised by one level. Items are
of any type.
-/

namespace Pinrail.Lib

universe u v
variable {ι : Type u} {δ : Type v}

def Settles (f : ℕ → δ) : Prop := ∃ k, (∀ n < k, f (n + 1) ≠ f n) ∧ ∀ n ≥ k, f n = f k

def Fixed (f : ℕ → δ) (n : ℕ) : Prop := f (n + 1) = f n

theorem Settles.fixed_of_le {f : ℕ → δ} (settles : Settles f) {m n : ℕ} (fixed : Fixed f m) (le : m ≤ n) :
    f n = f m ∧ Fixed f n := by
  obtain ⟨k, changes, constant⟩ := settles
  have reached : k ≤ m := Nat.le_of_not_lt fun less => changes m less fixed
  rw [Fixed, constant n (by omega), constant m reached, constant (n + 1) (by omega)]
  exact ⟨rfl, rfl⟩

structure Levels (ι : Type u) (δ : Type v) where
  level : ι → ℕ
  shown : ι → δ

namespace Levels

variable (describe : ι → ℕ → δ) (s : Levels ι δ) (i j : ι)

def now : δ := describe i (s.level i)

def Active : Prop := s.level i = 0 ∨ s.now describe i ≠ s.shown i

def Skipped : Prop := s.level i ≠ 0 ∧ s.now describe i = s.shown i

def Collides : Prop := s.Active describe i ∧ ∃ j ≠ i, s.Active describe j ∧ s.now describe j = s.now describe i

open Classical in
noncomputable def raise : Levels ι δ where
  level i := s.level i + if s.Collides describe i then 1 else 0
  shown i := s.now describe i

def start : Levels ι δ where
  level _ := 0
  shown i := describe i 0

noncomputable def after (rounds : ℕ) : Levels ι δ := (raise describe)^[rounds] (start describe)

/-- An item whose description changed comes to that of a skipped item only where neither changes any
more, or where it also shares it with a compared item and leaves it. -/
def Clear : Prop :=
  ∀ i j, s.Skipped describe i → s.level j ≠ 0 → s.Active describe j → s.now describe j = s.now describe i →
    s.Collides describe j ∧ ¬ Fixed (describe j) (s.level j) ∨
      Fixed (describe i) (s.level i) ∧ Fixed (describe j) (s.level j)

def Told : Prop :=
  ∀ i j, i ≠ j → s.now describe i = s.now describe j → Fixed (describe i) (s.level i) ∧ Fixed (describe j) (s.level j)

variable {describe} {s} {i j}

theorem not_active : ¬ s.Active describe i ↔ s.Skipped describe i := by
  rw [Active, Skipped, not_or, not_not]

/-! ## One round -/

theorem level_of_collides (collides : s.Collides describe i) : (s.raise describe).level i = s.level i + 1 := by
  rw [raise]
  dsimp only
  rw [if_pos collides]

theorem level_of_not_collides (apart : ¬ s.Collides describe i) : (s.raise describe).level i = s.level i := by
  rw [raise]
  dsimp only
  rw [if_neg apart, Nat.add_zero]

theorem Skipped.not_collides (skipped : s.Skipped describe i) : ¬ s.Collides describe i := fun collides =>
  not_active.mpr skipped collides.1

theorem Skipped.level_raise (skipped : s.Skipped describe i) : (s.raise describe).level i = s.level i :=
  level_of_not_collides skipped.not_collides

theorem Skipped.raise (skipped : s.Skipped describe i) : (s.raise describe).Skipped describe i := by
  rw [Skipped, now, skipped.level_raise]
  exact ⟨skipped.1, rfl⟩

theorem skipped_raise (skipped : (s.raise describe).Skipped describe i) : s.Skipped describe i ∨ s.level i ≠ 0 ∧
    s.Active describe i ∧ ¬ s.Collides describe i ∨ s.Collides describe i ∧ Fixed (describe i) (s.level i) := by
  obtain ⟨raised, same⟩ := skipped
  by_cases collides : s.Collides describe i
  · rw [now, level_of_collides collides] at same
    exact .inr (.inr ⟨collides, same⟩)
  · rw [level_of_not_collides collides] at raised
    by_cases active : s.Active describe i
    · exact .inr (.inl ⟨raised, active, collides⟩)
    · exact .inl (not_active.mp active)

theorem now_raise (skipped : (s.raise describe).Skipped describe i) :
    (s.raise describe).now describe i = s.now describe i := skipped.2

theorem fixed_raise (settles : Settles (describe i)) (fixed : Fixed (describe i) (s.level i)) :
    Fixed (describe i) ((s.raise describe).level i) :=
  (settles.fixed_of_le fixed (Nat.le_add_right _ _)).2

/-! ## Invariants of a run -/

variable (describe) (s) in
structure Valid : Prop where
  /-- What was compared last is the description at this level, or at the one before it. -/
  recent : ∀ i, s.shown i = s.now describe i ∨ s.level i ≠ 0 ∧ s.shown i = describe i (s.level i - 1)
  /-- An item at level 0 never has the description of a skipped one. -/
  apart : ∀ i j, s.Skipped describe i → s.level j = 0 → s.now describe j ≠ s.now describe i

theorem valid_start : (start describe).Valid describe where
  recent _ := .inl rfl
  apart _ _ skipped _ := absurd rfl skipped.1

theorem Collides.of_same (active : s.Active describe i) (other : s.Active describe j) (ne : i ≠ j)
    (same : s.now describe i = s.now describe j) : s.Collides describe i ∧ s.Collides describe j :=
  ⟨⟨active, j, ne.symm, other, same.symm⟩, other, i, ne, active, same⟩

theorem Valid.raise (valid : s.Valid describe) : (s.raise describe).Valid describe where
  recent i := by
    by_cases collides : s.Collides describe i
    · refine .inr ⟨?_, ?_⟩
      · rw [level_of_collides collides]
        exact Nat.succ_ne_zero _
      · rw [level_of_collides collides]
        rfl
    · rw [now, level_of_not_collides collides]
      exact .inl rfl
  apart i j skipped zero same := by
    have still : ¬ s.Collides describe j := fun collides => by
      rw [level_of_collides collides] at zero
      omega
    rw [level_of_not_collides still] at zero
    rw [now_raise skipped, now, level_of_not_collides still] at same
    have active : s.Active describe j := .inl zero
    obtain before | ⟨raised, compared, alone⟩ | ⟨collides, -⟩ := skipped_raise skipped
    · exact valid.apart i j before zero same
    · have ne : i ≠ j := fun eq => raised (eq ▸ zero)
      exact alone (Collides.of_same compared active ne same.symm).1
    · have ne : i ≠ j := fun eq => still (eq ▸ collides)
      exact still (Collides.of_same collides.1 active ne same.symm).2

variable (describe) (s) in
def Agree : Prop :=
  ∀ i j, i ≠ j → s.Skipped describe i → s.Skipped describe j → s.now describe i = s.now describe j →
    Fixed (describe i) (s.level i) ∧ Fixed (describe j) (s.level j)

theorem Clear.fixed (clear : s.Clear describe) (valid : s.Valid describe) (skipped : s.Skipped describe i)
    (active : s.Active describe j) (stays : ¬ (s.Collides describe j ∧ ¬ Fixed (describe j) (s.level j)))
    (same : s.now describe i = s.now describe j) : Fixed (describe i) (s.level i) ∧ Fixed (describe j) (s.level j) := by
  by_cases zero : s.level j = 0
  · exact absurd same.symm (valid.apart i j skipped zero)
  · exact (clear i j skipped zero active same.symm).resolve_left stays

theorem Agree.raise (agree : s.Agree describe) (clear : s.Clear describe) (valid : s.Valid describe)
    (settles : ∀ i, Settles (describe i)) : (s.raise describe).Agree describe := by
  intro i j ne skipped skipped' same
  rw [now_raise skipped, now_raise skipped'] at same
  -- It is enough that neither changed at the levels before the round.
  suffices before : Fixed (describe i) (s.level i) ∧ Fixed (describe j) (s.level j) from
    ⟨fixed_raise (settles i) before.1, fixed_raise (settles j) before.2⟩
  have stays : ∀ k, (s.raise describe).Skipped describe k →
      ¬ (s.Collides describe k ∧ ¬ Fixed (describe k) (s.level k)) := by
    rintro k skipped ⟨collides, changes⟩
    have later := skipped.2
    rw [now, level_of_collides collides] at later
    exact changes later
  by_cases active : s.Active describe i
  · by_cases active' : s.Active describe j
    · obtain ⟨collides, collides'⟩ := Collides.of_same active active' ne same
      exact ⟨not_not.mp fun changes => stays i skipped ⟨collides, changes⟩,
        not_not.mp fun changes => stays j skipped' ⟨collides', changes⟩⟩
    · exact (clear.fixed valid (not_active.mp active') active (stays i skipped) same.symm).symm
  · by_cases active' : s.Active describe j
    · exact clear.fixed valid (not_active.mp active) active' (stays j skipped') same
    · exact agree i j ne (not_active.mp active) (not_active.mp active') same

/-! ## Whole runs -/

theorem after_succ (n : ℕ) : after describe (n + 1) = (after describe n).raise describe :=
  Function.iterate_succ_apply' _ _ _

theorem valid_after (n : ℕ) : (after describe n).Valid describe := by
  induction n with
  | zero => exact valid_start
  | succ n ih =>
    rw [after_succ]
    exact ih.raise

theorem agree_after (settles : ∀ i, Settles (describe i)) (clear : ∀ n, (after describe n).Clear describe) (n : ℕ) :
    (after describe n).Agree describe := by
  induction n with
  | zero => exact fun i j _ skipped => absurd rfl skipped.1
  | succ n ih =>
    rw [after_succ]
    exact ih.raise (clear n) (valid_after n) settles

theorem skipped_after {n m : ℕ} (le : n ≤ m) (skipped : (after describe n).Skipped describe i) :
    (after describe m).Skipped describe i ∧ (after describe m).level i = (after describe n).level i := by
  induction le with
  | refl => exact ⟨skipped, rfl⟩
  | step le ih =>
    rw [after_succ]
    exact ⟨ih.1.raise, ih.1.level_raise.trans ih.2⟩

variable (describe) (s) in
def Quiet : Prop := ∀ i, ¬ s.Collides describe i

theorem Quiet.level_raise (quiet : s.Quiet describe) : (s.raise describe).level = s.level :=
  funext fun i => level_of_not_collides (quiet i)

theorem Quiet.raise (quiet : s.Quiet describe) : (s.raise describe).Quiet describe := by
  have active : ∀ k, (s.raise describe).Active describe k → s.level k = 0 := by
    intro k active
    rw [Active, now, quiet.level_raise] at active
    exact active.resolve_right fun changed => changed rfl
  rintro i ⟨first, j, ne, second, same⟩
  rw [now, now, quiet.level_raise] at same
  exact quiet i ⟨.inl (active i first), j, ne, .inl (active j second), same⟩

theorem Quiet.after {n m : ℕ} (quiet : (after describe n).Quiet describe) (le : n ≤ m) :
    (Levels.after describe m).Quiet describe ∧ (Levels.after describe m).level = (Levels.after describe n).level := by
  induction le with
  | refl => exact ⟨quiet, rfl⟩
  | step le ih =>
    rw [after_succ]
    exact ⟨ih.1.raise, ih.1.level_raise.trans ih.2⟩

theorem skipped_of_stays (raised : s.level j ≠ 0)
    (stays : ¬ (s.Collides describe j ∧ ¬ Fixed (describe j) (s.level j))) : (s.raise describe).Skipped describe j := by
  by_cases collides : s.Collides describe j
  · have fixed : Fixed (describe j) (s.level j) := not_not.mp fun changes => stays ⟨collides, changes⟩
    rw [Skipped, now, level_of_collides collides]
    exact ⟨Nat.succ_ne_zero _, fixed⟩
  · rw [Skipped, now, level_of_not_collides collides]
    exact ⟨raised, rfl⟩

theorem Told.fixed {n m : ℕ} (told : (after describe n).Told describe) (quiet : (after describe n).Quiet describe)
    (skipped : (after describe m).Skipped describe i) (skipped' : (after describe m).Skipped describe j)
    (ne : i ≠ j) (same : (after describe m).now describe i = (after describe m).now describe j) :
    Fixed (describe i) ((after describe m).level i) ∧ Fixed (describe j) ((after describe m).level j) := by
  have final := (quiet.after (le_max_left n m)).2
  have kept := (skipped_after (le_max_right n m) skipped).2
  have kept' := (skipped_after (le_max_right n m) skipped').2
  rw [final] at kept kept'
  have fixed := told i j ne (by rw [now, now, kept, kept']; exact same)
  rw [kept, kept'] at fixed
  exact fixed

theorem told_iff (settles : ∀ i, Settles (describe i)) {n : ℕ} (quiet : (after describe n).Quiet describe) :
    (after describe n).Told describe ↔ ∀ m, (after describe m).Clear describe := by
  constructor
  · intro told m i j skipped raised active same
    by_cases moves : (after describe m).Collides describe j ∧ ¬ Fixed (describe j) ((after describe m).level j)
    · exact .inl moves
    · have ne : i ≠ j := fun eq => not_active.mpr skipped (eq ▸ active)
      have settled := skipped_of_stays raised moves
      have end' := @Told.fixed _ _ describe i j n (m + 1) told quiet
      rw [after_succ] at end'
      obtain ⟨fixed, fixed'⟩ := end' skipped.raise settled ne (by rw [now_raise skipped.raise, now_raise settled, same])
      rw [skipped.level_raise] at fixed
      refine .inr ⟨fixed, ?_⟩
      by_cases collides : (after describe m).Collides describe j
      · exact not_not.mp fun changes => moves ⟨collides, changes⟩
      · rw [level_of_not_collides collides] at fixed'
        exact fixed'
  · intro clear i j ne same
    by_cases active : (after describe n).Active describe i
    · by_cases active' : (after describe n).Active describe j
      · exact absurd (Collides.of_same active active' ne same).1 (quiet i)
      · exact ((clear n).fixed (valid_after n) (not_active.mp active') active (fun moves => quiet i moves.1)
          same.symm).symm
    · by_cases active' : (after describe n).Active describe j
      · exact (clear n).fixed (valid_after n) (not_active.mp active) active' (fun moves => quiet j moves.1) same
      · exact agree_after settles clear n i j ne (not_active.mp active) (not_active.mp active') same

/-! ## The rounds in terms of the descriptions -/

variable (describe) in
/-- Item `i` is compared at level `n` in the round: at level 0 until it meets another item, and above it
where it met one in the round before and its description changed. -/
def Compared : ℕ → ι → ℕ → Prop
  | 0, _, n => n = 0
  | round + 1, i, 0 => Compared round i 0 ∧ ¬ ∃ j ≠ i, ∃ m, Compared round j m ∧ describe j m = describe i 0
  | round + 1, i, n + 1 =>
    (Compared round i n ∧ ∃ j ≠ i, ∃ m, Compared round j m ∧ describe j m = describe i n) ∧ ¬ Fixed (describe i) n

variable (describe) in
def Meets (round : ℕ) (i : ι) (n : ℕ) : Prop :=
  ∃ j ≠ i, ∃ m, Compared describe round j m ∧ describe j m = describe i n

variable (describe) in
/-- The round is the last that compares the item: it is alone above level 0, or its description changes no more. -/
def Rests (round : ℕ) (i : ι) (n : ℕ) : Prop :=
  Compared describe round i n ∧ (n ≠ 0 ∧ ¬ Meets describe round i n ∨ Meets describe round i n ∧ Fixed (describe i) n)

variable (describe) in
/-- No item is raised to the description of one that rests, unless it meets a third there and leaves it, or neither
changes any more. -/
def Undisturbed : Prop :=
  ∀ round later, round < later → ∀ i n j m, Rests describe round i n → m ≠ 0 → Compared describe later j m →
    describe j m = describe i n →
    Meets describe later j m ∧ ¬ Fixed (describe j) m ∨ Fixed (describe i) n ∧ Fixed (describe j) m

theorem collides_iff {round : ℕ} (compared : ∀ j m, Compared describe round j m ↔
      (after describe round).Active describe j ∧ (after describe round).level j = m)
    (active : (after describe round).Active describe i) :
    (after describe round).Collides describe i ↔ Meets describe round i ((after describe round).level i) := by
  simp only [Collides, Meets, compared, and_assoc, exists_and_left, exists_eq_left', active, true_and]
  rfl

theorem compared_iff {round : ℕ} (i : ι) (n : ℕ) : Compared describe round i n ↔
    (after describe round).Active describe i ∧ (after describe round).level i = n := by
  induction round generalizing i n with
  | zero => exact ⟨fun zero => ⟨.inl rfl, zero.symm⟩, fun stands => stands.2.symm⟩
  | succ round ih =>
    rw [after_succ]
    by_cases collides : (after describe round).Collides describe i
    · have meets := (collides_iff ih collides.1).mp collides
      rw [level_of_collides collides, Active, now, level_of_collides collides]
      cases n with
      | zero =>
        refine iff_of_false (fun waits => waits.2 ?_) (fun stands => Nat.succ_ne_zero _ stands.2)
        rwa [((ih i 0).mp waits.1).2] at meets
      | succ n =>
        constructor
        · rintro ⟨⟨before, -⟩, changes⟩
          obtain ⟨-, rfl⟩ := (ih i n).mp before
          exact ⟨.inr changes, rfl⟩
        · rintro ⟨changed, same⟩
          obtain rfl := Nat.succ.inj same
          exact ⟨⟨(ih i _).mpr ⟨collides.1, rfl⟩, meets⟩, changed.resolve_left (Nat.succ_ne_zero _)⟩
    · rw [level_of_not_collides collides, Active, now, level_of_not_collides collides]
      cases n with
      | zero =>
        constructor
        · rintro ⟨before, -⟩
          exact ⟨.inl ((ih i 0).mp before).2, ((ih i 0).mp before).2⟩
        · rintro ⟨-, zero⟩
          refine ⟨(ih i 0).mpr ⟨.inl zero, zero⟩, fun meets => collides ?_⟩
          exact (collides_iff ih (.inl zero)).mpr (zero.symm ▸ meets)
      | succ n =>
        refine iff_of_false ?_ ?_
        · rintro ⟨⟨before, meets⟩, -⟩
          obtain ⟨active, rfl⟩ := (ih i n).mp before
          exact collides ((collides_iff ih active).mpr meets)
        · rintro ⟨zero | changed, same⟩
          · omega
          · exact changed rfl

theorem meets_iff {round n : ℕ} (compared : Compared describe round i n) :
    Meets describe round i n ↔ (after describe round).Collides describe i := by
  obtain ⟨active, rfl⟩ := (compared_iff i n).mp compared
  exact (collides_iff compared_iff active).symm

theorem Rests.skipped (settles : Settles (describe i)) {round later n : ℕ} (rests : Rests describe round i n)
    (less : round < later) : (after describe later).Skipped describe i ∧
    (after describe later).now describe i = describe i n ∧
    (Fixed (describe i) ((after describe later).level i) ↔ Fixed (describe i) n) := by
  obtain ⟨compared, rest⟩ := rests
  rw [meets_iff compared] at rest
  obtain ⟨-, rfl⟩ := (compared_iff i n).mp compared
  suffices next : (after describe (round + 1)).Skipped describe i ∧
      (Fixed (describe i) ((after describe (round + 1)).level i) ↔
        Fixed (describe i) ((after describe round).level i)) ∧
      (after describe (round + 1)).now describe i = (after describe round).now describe i by
    obtain ⟨skipped, same⟩ := skipped_after less next.1
    rw [now, same]
    exact ⟨skipped, next.2.2, next.2.1⟩
  rw [after_succ]
  obtain ⟨raised, alone⟩ | ⟨collides, fixed⟩ := rest
  · have same := level_of_not_collides alone
    refine ⟨⟨by rwa [same], ?_⟩, by rw [same], by rw [now, same, now]⟩
    rw [now, same]
    rfl
  · have same := level_of_collides collides
    refine ⟨⟨by rw [same]; exact Nat.succ_ne_zero _, ?_⟩, ?_, ?_⟩
    · rw [now, same]
      exact fixed
    · rw [same]
      exact iff_of_true (settles.fixed_of_le fixed (Nat.le_succ _)).2 fixed
    · rw [now, same]
      exact fixed

theorem exists_rests {later : ℕ} (skipped : (after describe later).Skipped describe i) :
    ∃ round < later, ∃ n, Rests describe round i n := by
  induction later with
  | zero => exact absurd rfl skipped.1
  | succ round ih =>
    rw [after_succ] at skipped
    have here (active : (after describe round).Active describe i) :
        Compared describe round i ((after describe round).level i) := (compared_iff i _).mpr ⟨active, rfl⟩
    obtain before | ⟨raised, active, alone⟩ | ⟨collides, fixed⟩ := skipped_raise skipped
    · obtain ⟨round', less, rests⟩ := ih before
      exact ⟨round', Nat.lt_succ_of_lt less, rests⟩
    · exact ⟨round, Nat.lt_succ_self _, _, here active, .inl ⟨raised, mt (meets_iff (here active)).mp alone⟩⟩
    · exact ⟨round, Nat.lt_succ_self _, _, here collides.1, .inr ⟨(meets_iff (here collides.1)).mpr collides, fixed⟩⟩

theorem clear_iff (settles : ∀ i, Settles (describe i)) :
    (∀ n, (after describe n).Clear describe) ↔ Undisturbed describe := by
  constructor
  · intro clear round later less i n j m rests raised compared same
    obtain ⟨skipped, shows, fixed⟩ := rests.skipped (settles i) less
    rw [meets_iff compared, ← fixed]
    obtain ⟨active, rfl⟩ := (compared_iff j m).mp compared
    exact clear later i j skipped raised active (same.trans shows.symm)
  · intro undisturbed later i j skipped raised active same
    obtain ⟨round, less, n, rests⟩ := exists_rests skipped
    obtain ⟨-, shows, fixed⟩ := rests.skipped (settles i) less
    have compared := (compared_iff j _).mpr ⟨active, rfl⟩
    rw [fixed, ← meets_iff compared]
    exact undisturbed round later less i n j _ rests raised compared (same.trans shows)

/-! ## The end of a run -/

theorem level_le (limit : ι → ℕ) (constant : ∀ i, ∀ n ≥ limit i, describe i n = describe i (limit i)) (n : ℕ) (i : ι) :
    (after describe n).level i ≤ limit i + 1 := by
  induction n with
  | zero => exact Nat.zero_le _
  | succ n ih =>
    rw [after_succ]
    by_cases collides : (after describe n).Collides describe i
    · rw [level_of_collides collides]
      obtain zero | changed := collides.1
      · omega
      · obtain same | ⟨raised, before⟩ := (valid_after n).recent i
        · exact absurd same.symm changed
        · by_contra more
          rw [before, now, constant i ((after describe n).level i) (by omega),
            constant i ((after describe n).level i - 1) (by omega)] at changed
          exact changed rfl
    · rw [level_of_not_collides collides]
      exact ih

theorem exists_quiet [Finite ι] (settles : ∀ i, Settles (describe i)) : ∃ n, (after describe n).Quiet describe := by
  let _ := Fintype.ofFinite ι
  choose limit changes constant using settles
  by_contra never
  -- While items collide, the levels add up to at least the number of rounds.
  have grows : ∀ n, n ≤ ∑ i, (after describe n).level i := by
    intro n
    induction n with
    | zero => exact Nat.zero_le _
    | succ n ih =>
      rw [not_exists] at never
      have loud := never n
      rw [Quiet, not_forall] at loud
      obtain ⟨i, collides⟩ := loud
      rw [not_not] at collides
      rw [after_succ]
      have more : ∑ i, (after describe n).level i < ∑ i, ((after describe n).raise describe).level i := by
        apply Finset.sum_lt_sum (fun k _ => Nat.le_add_right _ _) ⟨i, Finset.mem_univ i, ?_⟩
        exact (Nat.lt_succ_self _).trans_eq (level_of_collides collides).symm
      omega
  have bound : ∑ i, (after describe ((∑ i, (limit i + 1)) + 1)).level i ≤ ∑ i, (limit i + 1) :=
    Finset.sum_le_sum fun i _ => level_le limit constant _ i
  exact absurd ((grows _).trans bound) (Nat.not_succ_le_self _)

end Levels
end Pinrail.Lib

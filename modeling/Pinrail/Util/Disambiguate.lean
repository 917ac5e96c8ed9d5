import Mathlib.Algebra.GroupWithZero.Nat
import Mathlib.Data.List.FinRange
import Pinrail.Lib.Assoc
import Pinrail.Lib.Collisions

/-!
# Disambiguation

`compute_disambiguation_details`, with the vectors of details and of current descriptions as functions
of the index.
-/

namespace Pinrail.Util

open Lib

variable {T D : Type} [DecidableEq D] (items : List T) (getDescription : T → Nat → D)

structure Disambiguation (items : List T) (D : Type) where
  details : Fin items.length → Nat
  currentDescriptions : Fin items.length → D

abbrev Descriptions (items : List T) (D : Type) := List (D × List (Fin items.length))

def describe (index : Fin items.length) (detail : Nat) : D := getDescription (items.get index) detail

variable {items} in
/-- The description under which an item is entered; `none` where the loop continues before that. -/
def examine (state : Disambiguation items D) (index : Fin items.length) : Option D :=
  let detail := state.details index
  if 0 < detail then
    let newDescription := describe items getDescription index detail
    if newDescription = state.currentDescriptions index then none else some newDescription
  else some (state.currentDescriptions index)

variable {items} in
/-- `entry(description).or_insert_with(Vec::new).push(index)`. -/
def pushEntry (description : D) (index : Fin items.length) (descriptions : Descriptions items D) :
    Descriptions items D :=
  upsert description ((valueOf description descriptions).getD [] ++ [index]) descriptions

variable {items} in
def enterOne (state : Disambiguation items D) (descriptions : Descriptions items D) (index : Fin items.length) :
    Descriptions items D :=
  match examine getDescription state index with
  | some description => pushEntry description index descriptions
  | none => descriptions

variable {items} in
def enter (state : Disambiguation items D) : Descriptions items D :=
  (List.finRange items.length).foldl (enterOne getDescription state) []

variable {items} in
def raiseDetail (details : Fin items.length → Nat) (index : Fin items.length) : Fin items.length → Nat :=
  Function.update details index (details index + 1)

variable {items} in
/-- The body of the loop over the drained map: the details, and `any_collisions`. -/
def raiseGroup (raised : (Fin items.length → Nat) × Bool) (entry : D × List (Fin items.length)) :
    (Fin items.length → Nat) × Bool :=
  if 1 < entry.2.length then (entry.2.foldl raiseDetail raised.1, true) else raised

variable {items} in
/-- One pass through the loop; `drain` is the order in which the map gives up its entries. -/
def round (drain : Descriptions items D → Descriptions items D) (state : Disambiguation items D) :
    Disambiguation items D × Bool :=
  let currentDescriptions index := (examine getDescription state index).getD (state.currentDescriptions index)
  let (details, anyCollisions) := (drain (enter getDescription state)).foldl raiseGroup (state.details, false)
  (⟨details, currentDescriptions⟩, anyCollisions)

def start : Disambiguation items D where
  details _ := 0
  currentDescriptions index := describe items getDescription index 0

variable {items} in
def roundsFrom (drain : Nat → Descriptions items D → Descriptions items D) :
    Nat → Nat → Disambiguation items D → Option (List Nat)
  | _, 0, _ => none
  | count, fuel + 1, state =>
    let (state, anyCollisions) := round getDescription (drain count) state
    if anyCollisions then roundsFrom drain (count + 1) fuel state
    else some (List.ofFn state.details)

def computeDisambiguationDetails (drain : Nat → Descriptions items D → Descriptions items D) (fuel : Nat) :
    Option (List Nat) :=
  roundsFrom getDescription drain 0 fuel (start items getDescription)

/-- The state before a round. A round without collisions is the last; after it nothing changes. -/
def stateBefore (drain : Nat → Descriptions items D → Descriptions items D) : Nat → Disambiguation items D
  | 0 => start items getDescription
  | count + 1 => (round getDescription (drain count) (stateBefore drain count)).1

variable {items getDescription}
variable {state : Disambiguation items D} {index other : Fin items.length} {description : D}

/-! ## The entries of a round -/

variable (getDescription) in
theorem valueOf_entered (state : Disambiguation items D) (indices : List (Fin items.length)) (description : D) :
    (valueOf description (indices.foldl (enterOne getDescription state) [])).getD [] =
      indices.filter fun index => examine getDescription state index = some description := by
  induction indices using List.reverseRecOn with
  | nil => rfl
  | append_singleton indices index ih =>
    rw [List.foldl_append, List.foldl_cons, List.foldl_nil, List.filter_append, ← ih, enterOne]
    cases entered : examine getDescription state index with
    | none => simp [entered]
    | some description' =>
      dsimp only
      rw [pushEntry, valueOf_upsert]
      by_cases same : description' = description
      · subst same
        simp [entered]
      · simp [entered, same]

theorem nodup_entered (state : Disambiguation items D) (indices : List (Fin items.length)) :
    ((indices.foldl (enterOne getDescription state) []).map Prod.fst).Nodup := by
  induction indices using List.reverseRecOn with
  | nil => exact List.nodup_nil
  | append_singleton indices index ih =>
    rw [List.foldl_append, List.foldl_cons, List.foldl_nil, enterOne]
    cases examine getDescription state index with
    | none => exact ih
    | some description => exact nodup_keys_upsert ih

theorem nodup_enter (state : Disambiguation items D) : ((enter getDescription state).map Prod.fst).Nodup :=
  nodup_entered state _

theorem group_of_mem {entry : D × List (Fin items.length)} (inside : entry ∈ enter getDescription state) :
    entry.2 = (List.finRange items.length).filter fun index => examine getDescription state index = some entry.1 := by
  have found := valueOf_of_mem (nodup_enter state) inside
  rw [← valueOf_entered getDescription state, ← enter, found]
  rfl

theorem mem_group {entry : D × List (Fin items.length)} (inside : entry ∈ enter getDescription state) :
    index ∈ entry.2 ↔ examine getDescription state index = some entry.1 := by
  rw [group_of_mem inside, List.mem_filter, decide_eq_true_eq]
  exact and_iff_right (List.mem_finRange index)

theorem nodup_group {entry : D × List (Fin items.length)} (inside : entry ∈ enter getDescription state) :
    entry.2.Nodup := by
  rw [group_of_mem inside]
  exact (List.nodup_finRange _).filter _

theorem exists_group (entered : examine getDescription state index = some description) :
    ∃ indices, (description, indices) ∈ enter getDescription state := by
  cases found : valueOf description (enter getDescription state) with
  | some indices => exact ⟨indices, mem_of_valueOf found⟩
  | none =>
    have group := valueOf_entered getDescription state (List.finRange items.length) description
    rw [← enter, found, Option.getD_none] at group
    have inside : index ∈ (List.finRange items.length).filter
        fun index => examine getDescription state index = some description :=
      List.mem_filter.mpr ⟨List.mem_finRange index, decide_eq_true entered⟩
    rw [← group] at inside
    cases inside

variable (getDescription) (state) (index) in
def Shares : Prop :=
  ∃ description, examine getDescription state index = some description ∧
    ∃ other ≠ index, examine getDescription state other = some description

theorem one_lt_length_iff {α : Type} {xs : List α} {x : α} (nodup : xs.Nodup) (inside : x ∈ xs) :
    1 < xs.length ↔ ∃ y ∈ xs, y ≠ x := by
  constructor
  · intro longer
    by_contra none
    push Not at none
    rw [List.eq_replicate_of_mem none, List.nodup_replicate] at nodup
    omega
  · rintro ⟨y, inside', ne⟩
    have pair : [x, y].Nodup := by simp [ne.symm]
    exact (List.subperm_of_subset pair (by simp [inside, inside'])).length_le

theorem shares_iff {entry : D × List (Fin items.length)} (inside : entry ∈ enter getDescription state)
    (within : index ∈ entry.2) : Shares getDescription state index ↔ 1 < entry.2.length := by
  have entered := (mem_group inside).mp within
  rw [one_lt_length_iff (nodup_group inside) within]
  constructor
  · rintro ⟨description, found, other, ne, found'⟩
    rw [entered] at found
    cases found
    exact ⟨other, (mem_group inside).mpr found', ne⟩
  · rintro ⟨other, among, ne⟩
    exact ⟨entry.1, entered, other, ne, (mem_group inside).mp among⟩

/-! ## The levels after a round -/

theorem foldl_raiseDetail (indices : List (Fin items.length)) (details : Fin items.length → Nat)
    (index : Fin items.length) : (indices.foldl raiseDetail details) index = details index + indices.count index := by
  induction indices generalizing details with
  | nil => rfl
  | cons first indices ih =>
    rw [List.foldl_cons, ih, raiseDetail, List.count_cons]
    by_cases same : first = index
    · subst same
      rw [Function.update_self, if_pos (beq_self_eq_true _)]
      omega
    · rw [Function.update_of_ne (Ne.symm same), if_neg (by simpa using same), Nat.add_zero]

def raises (index : Fin items.length) (entry : D × List (Fin items.length)) : Nat :=
  if 1 < entry.2.length then entry.2.count index else 0

omit [DecidableEq D] in
theorem foldl_raiseGroup (entries : Descriptions items D) (raised : (Fin items.length → Nat) × Bool) :
    (∀ index, (entries.foldl raiseGroup raised).1 index = raised.1 index + (entries.map (raises index)).sum) ∧
      (entries.foldl raiseGroup raised).2 = (raised.2 || entries.any fun entry => 1 < entry.2.length) := by
  induction entries generalizing raised with
  | nil => exact ⟨fun _ => rfl, (Bool.or_false _).symm⟩
  | cons entry entries ih =>
    obtain ⟨levels, any⟩ := ih (raiseGroup raised entry)
    rw [List.foldl_cons]
    refine ⟨fun index => ?_, ?_⟩
    · rw [levels, List.map_cons, List.sum_cons, raiseGroup, raises]
      split_ifs
      · dsimp only
        rw [foldl_raiseDetail, Nat.add_assoc]
      · rw [Nat.zero_add]
    · rw [any, List.any_cons, raiseGroup]
      split_ifs with longer <;> simp [longer]

open Classical in
theorem sum_raises (state : Disambiguation items D) (index : Fin items.length) :
    ((enter getDescription state).map (raises index)).sum = if Shares getDescription state index then 1 else 0 := by
  have absent : ∀ entry ∈ enter getDescription state, examine getDescription state index ≠ some entry.1 →
      raises index entry = 0 := by
    intro entry inside other
    rw [raises, List.count_eq_zero_of_not_mem (mt (mem_group inside).mp other), ite_self]
  cases entered : examine getDescription state index with
  | none =>
    rw [List.sum_eq_zero, if_neg]
    · rintro ⟨description, found, -⟩
      rw [entered] at found
      cases found
    · rintro _ raised
      obtain ⟨entry, inside, rfl⟩ := List.mem_map.mp raised
      exact absent entry inside (by rw [entered]; simp)
  | some description =>
    obtain ⟨indices, inside⟩ := exists_group entered
    have within : index ∈ indices := (mem_group inside).mpr entered
    have perm := (perm_cons_filter (nodup_enter state) inside).map (raises index)
    have rest : (((enter getDescription state).filter fun pair => pair.1 ≠ description).map (raises index)).sum = 0 := by
      apply List.sum_eq_zero
      rintro _ raised
      obtain ⟨entry, inside, rfl⟩ := List.mem_map.mp raised
      obtain ⟨inside, other⟩ := List.mem_filter.mp inside
      apply absent entry inside
      rw [entered]
      rintro ⟨⟩
      simp at other
    rw [perm.sum_eq, List.map_cons, List.sum_cons, rest, Nat.add_zero, raises,
      List.count_eq_one_of_mem (nodup_group inside) within]
    simp only [shares_iff inside within]

variable {drain : Descriptions items D → Descriptions items D}

open Classical in
theorem round_details (order : ∀ descriptions, (drain descriptions).Perm descriptions)
    (state : Disambiguation items D) (index : Fin items.length) :
    (round getDescription drain state).1.details index =
      state.details index + if Shares getDescription state index then 1 else 0 := by
  have raised := (foldl_raiseGroup (drain (enter getDescription state)) (state.details, false)).1 index
  rw [((order _).map (raises index)).sum_eq, sum_raises] at raised
  exact raised

theorem round_current (state : Disambiguation items D) (index : Fin items.length) :
    (round getDescription drain state).1.currentDescriptions index =
      (examine getDescription state index).getD (state.currentDescriptions index) := rfl

variable (getDescription) in
theorem round_anyCollisions (order : ∀ descriptions, (drain descriptions).Perm descriptions)
    (state : Disambiguation items D) :
    (round getDescription drain state).2 = true ↔ ∃ index, Shares getDescription state index := by
  have any := (foldl_raiseGroup (drain (enter getDescription state)) (state.details, false)).2
  rw [Bool.false_or] at any
  rw [show (round getDescription drain state).2 = _ from any, List.any_eq_true]
  constructor
  · rintro ⟨entry, inside, longer⟩
    rw [decide_eq_true_eq] at longer
    have entered := (order _).subset inside
    obtain ⟨index, within⟩ := List.exists_mem_of_length_pos (Nat.zero_lt_of_lt longer)
    exact ⟨index, (shares_iff entered within).mpr longer⟩
  · rintro ⟨index, shares⟩
    have ⟨description, found, _⟩ := shares
    obtain ⟨indices, entered⟩ := exists_group found
    have within : index ∈ indices := (mem_group entered).mpr found
    exact ⟨_, (order _).symm.subset entered, decide_eq_true ((shares_iff entered within).mp shares)⟩

/-! ## The rounds as rounds of levels -/

def Disambiguation.levels (state : Disambiguation items D) : Levels (Fin items.length) D :=
  ⟨state.details, state.currentDescriptions⟩

variable (items getDescription) in
theorem examine_eq_some (valid : state.levels.Valid (describe items getDescription)) :
    examine getDescription state index = some description ↔ state.levels.Active (describe items getDescription) index ∧
    state.levels.now (describe items getDescription) index = description := by
  rw [examine, Levels.Active, Levels.now]
  change _ ↔ (state.details index = 0 ∨ _ ≠ state.currentDescriptions index) ∧
    describe items getDescription index (state.details index) = description
  dsimp only [Disambiguation.levels]
  split_ifs with raised same
  · simp [same, Nat.ne_of_gt raised]
  · simp [same]
  · have zero : state.details index = 0 := Nat.eq_zero_of_not_pos raised
    have shown : state.currentDescriptions index = describe items getDescription index (state.details index) :=
      (valid.recent index).resolve_right fun above => above.1 zero
    rw [shown]
    simp [zero]

theorem examine_eq_none (valid : state.levels.Valid (describe items getDescription)) :
    examine getDescription state index = none ↔ state.levels.Skipped (describe items getDescription) index := by
  rw [← Levels.not_active, Option.eq_none_iff_forall_ne_some]
  constructor
  · exact fun none active => none _ ((examine_eq_some items getDescription valid).mpr ⟨active, rfl⟩)
  · exact fun none description entered => none ((examine_eq_some items getDescription valid).mp entered).1

theorem shares_iff_collides (valid : state.levels.Valid (describe items getDescription)) :
    Shares getDescription state index ↔ state.levels.Collides (describe items getDescription) index := by
  simp only [Shares, Levels.Collides, examine_eq_some items getDescription valid]
  constructor
  · rintro ⟨description, ⟨active, rfl⟩, other, ne, active', same⟩
    exact ⟨active, other, ne, active', same⟩
  · rintro ⟨active, other, ne, active', same⟩
    exact ⟨_, ⟨active, rfl⟩, other, ne, active', same⟩

open Classical in
theorem round_levels (order : ∀ descriptions, (drain descriptions).Perm descriptions)
    (valid : state.levels.Valid (describe items getDescription)) :
    (round getDescription drain state).1.levels = state.levels.raise (describe items getDescription) := by
  have details : (round getDescription drain state).1.details =
      (state.levels.raise (describe items getDescription)).level := by
    funext index
    rw [round_details order, if_congr (shares_iff_collides valid) rfl rfl]
    rfl
  have current : (round getDescription drain state).1.currentDescriptions =
      (state.levels.raise (describe items getDescription)).shown := by
    funext index
    rw [round_current]
    cases entered : examine getDescription state index with
    | none => exact ((examine_eq_none valid).mp entered).2.symm
    | some description => exact ((examine_eq_some items getDescription valid).mp entered).2.symm
  rw [Disambiguation.levels, details, current]

variable {drain : Nat → Descriptions items D → Descriptions items D}

theorem stateBefore_levels (order : ∀ count descriptions, (drain count descriptions).Perm descriptions) (count : Nat) :
    (stateBefore items getDescription drain count).levels = Levels.after (describe items getDescription) count := by
  induction count with
  | zero => rfl
  | succ count ih =>
    have valid := @Levels.valid_after _ _ (describe items getDescription) count
    rw [← ih] at valid
    rw [stateBefore, round_levels (order count) valid, ih, Levels.after_succ]

theorem valid_stateBefore (order : ∀ count descriptions, (drain count descriptions).Perm descriptions) (count : Nat) :
    (stateBefore items getDescription drain count).levels.Valid (describe items getDescription) := by
  rw [stateBefore_levels order]
  exact Levels.valid_after count

/-! ## When the items are told apart -/

variable (items getDescription) in
/-- Different items have equal descriptions at their levels only where no higher level changes them. -/
def ToldApart (details : Fin items.length → Nat) : Prop :=
  ∀ i j, i ≠ j → describe items getDescription i (details i) = describe items getDescription j (details j) →
    (∀ detail ≥ details i, describe items getDescription i detail = describe items getDescription i (details i)) ∧
      ∀ detail ≥ details j, describe items getDescription j detail = describe items getDescription j (details j)

omit [DecidableEq D] in
theorem constant_iff {f : Nat → D} (settles : Settles f) {n : Nat} : (∀ m ≥ n, f m = f n) ↔ Fixed f n :=
  ⟨fun constant => constant (n + 1) (Nat.le_succ n), fun fixed _ le => (settles.fixed_of_le fixed le).1⟩

omit [DecidableEq D] in
theorem toldApart_iff (settles : ∀ item ∈ items, Settles (getDescription item)) :
    ToldApart items getDescription state.details ↔ state.levels.Told (describe items getDescription) := by
  have each : ∀ index, Settles (describe items getDescription index) := fun index => settles _ (List.get_mem _ _)
  simp only [ToldApart, Levels.Told, constant_iff (each _)]
  rfl

theorem roundsFrom_eq (order : ∀ count descriptions, (drain count descriptions).Perm descriptions) {last : Nat}
    (quiet : ∀ index, ¬ Shares getDescription (stateBefore items getDescription drain last) index)
    (loud : ∀ count < last, ∃ index, Shares getDescription (stateBefore items getDescription drain count) index)
    (count fuel : Nat) (le : count ≤ last) (enough : last - count < fuel) :
    roundsFrom getDescription drain count fuel (stateBefore items getDescription drain count) =
      some (List.ofFn (stateBefore items getDescription drain last).details) := by
  induction fuel generalizing count with
  | zero => exact absurd enough (Nat.not_lt_zero _)
  | succ fuel ih =>
    rw [roundsFrom]
    have collisions := round_anyCollisions getDescription (order count) (stateBefore items getDescription drain count)
    obtain less | rfl := Nat.lt_or_eq_of_le le
    · dsimp only
      rw [if_pos (collisions.mpr (loud count less))]
      exact ih (count + 1) less (by omega)
    · dsimp only
      rw [if_neg (mt collisions.mp (not_exists.mpr quiet))]
      have same : (round getDescription (drain count) (stateBefore items getDescription drain count)).1.details =
          (stateBefore items getDescription drain count).details := by
        classical
        funext index
        rw [round_details (order count), if_neg (quiet index), Nat.add_zero]
      rw [same]

def clampedDescription (item : List Nat) (detail : Nat) : Nat := item.getD (min detail (item.length - 1)) 0

theorem settles_clamped {item : List Nat}
    (changes : ∀ n < item.length - 1, clampedDescription item (n + 1) ≠ clampedDescription item n) :
    Settles (clampedDescription item) := by
  refine ⟨item.length - 1, changes, fun n past => ?_⟩
  rw [clampedDescription, clampedDescription, min_eq_right past, min_self]

end Pinrail.Util

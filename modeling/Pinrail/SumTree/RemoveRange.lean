import Pinrail.SumTree.TreeMap

/-!
# Removing a range of keys

`remove_range` puts the entries below its first bound in front of the entries from its second bound
on. With the bounds the wrong way round the entries between them are there twice.
-/

namespace Pinrail
open Lib SumTree Cursor

/-- `MapSeekTarget::cmp_cursor`. -/
structure MapSeekTarget (K : Type) where
  cmpCursor : K → Ordering

namespace MapSeekTarget
variable {K : Type}

def ofKey [LinearOrder K] (key : K) : MapSeekTarget K := ⟨compare key⟩

/-- `MapSeekTargetAdaptor`: every target is after the start of the map. -/
def adaptor (self : MapSeekTarget K) : SeekTarget (MapKey K) where
  cmp location :=
    match (location : Option K) with
    | some key => self.cmpCursor key
    | none => .gt

theorem adaptor_ofKey [LinearOrder K] (key : K) : (ofKey key).adaptor = .ofOrd (MapKey.some key) := by
  have same : ∀ location : WithBot K,
      (ofKey key).adaptor.cmp location = compare (MapKey.some key) (location : MapKey K) := by
    intro location
    cases location with
    | bot => exact (compare_gt_iff_gt.mpr (WithBot.bot_lt_coe key)).symm
    | coe other =>
      change compare key other = compare (MapKey.some key) (MapKey.some other)
      rcases lt_trichotomy key other with less | rfl | greater
      · rw [compare_lt_iff_lt.mpr less, compare_lt_iff_lt.mpr (MapKey.some_lt.mpr less)]
      · rw [compare_eq_iff_eq.mpr rfl, compare_eq_iff_eq.mpr rfl]
      · rw [compare_gt_iff_gt.mpr greater, compare_gt_iff_gt.mpr (MapKey.some_lt.mpr greater)]
  exact congrArg SeekTarget.mk (funext same)

end MapSeekTarget

/-! ## Trees that are too high for a seek -/

namespace Cursor

variable {T S D A : Type} [Summary S] [Item T S] [Dimension S D] {target : SeekTarget D} {bias : Bias}
  {aggregate : SeekAggregate T S A} [LawfulSummary S] [LawfulDimension S D]

theorem seekChildren_stops {h : Nat} (trees : List (SumTree T S)) (before : List T) (i : Nat) (a : A)
    (balanced : ∀ tree ∈ trees, Balanced h tree) (nonempty : trees ≠ [])
    (inside : target.passes bias (measure (before ++ toLists trees) : D) = false) :
    (∃ e, seekChildren target bias aggregate (trees.map fun tree => (tree, tree.summary)) i
      (measure before) (measure before) a = .error e) ∨
    ∃ left child right a', trees = left ++ child :: right ∧
      seekChildren target bias aggregate (trees.map fun tree => (tree, tree.summary)) i
        (measure before) (measure before) a = .ok (some child, i + left.length,
          measure (before ++ toLists left), measure (before ++ toLists left), a') ∧
      target.passes bias (measure (before ++ toLists left ++ child.toList) : D) = false := by
  induction trees generalizing before i a with
  | nil => exact absurd rfl nonempty
  | cons tree trees ih =>
    simp only [List.map_cons, seekChildren, measure_tree before (balanced tree (by simp))]
    cases pass : target.passes bias (measure (before ++ tree.toList) : D) with
    | false =>
      refine .inr ⟨[], tree, trees, a, rfl, ?_, by simpa using pass⟩
      simp [pure, Except.pure]
    | true =>
      rw [if_pos rfl]
      cases pushed : aggregate.pushTree a tree tree.summary with
      | error e => exact .inl ⟨e, rfl⟩
      | ok a' =>
        rw [toLists_cons, ← List.append_assoc] at inside
        cases trees with
        | nil =>
          rw [toLists_nil, List.append_nil, pass] at inside
          cases inside
        | cons next trees =>
          rcases ih (before ++ tree.toList) (i + 1) a' (fun t mem => balanced t (by simp [mem]))
            (by simp) inside with ⟨e, failed⟩ | ⟨left, child, right, a'', split, stops, stays⟩
          · exact .inl ⟨e, failed⟩
          · refine .inr ⟨tree :: left, child, right, a'', by rw [split]; rfl, ?_, ?_⟩
            · rw [ok_bind, stops]
              simp only [toLists_cons, List.append_assoc, List.length_cons]
              rw [show i + 1 + left.length = i + (left.length + 1) by omega]
            · simpa using stays

theorem seek_loop_tooTall (root : SumTree T S) (aggregate : SeekAggregate T S A)
    {tree : SumTree T S} {h : Nat} (balanced : Balanced h tree)
    (stack : List (StackEntry T S D)) (before : List T) (a : A) (didSeek atEnd : Bool)
    (tall : stackCapacity ≤ stack.length + h) (room : stack.length < stackCapacity)
    (inside : target.passes bias (measure (before ++ tree.toList) : D) = false) (fuel : Nat) :
    ∃ e, loopFor (seekStep target bias aggregate) fuel
      (⟨root, ⟨tree, 0, measure before⟩ :: stack, measure before, didSeek, atEnd⟩, false, a) = .error e := by
  induction balanced generalizing stack before a fuel with
  | leaf nonempty fits => omega
  | @internal h trees nonempty fits below ih =>
    cases fuel with
    | zero => exact ⟨_, rfl⟩
    | succ fuel =>
      have all : sliceFrom trees 0 = .ok trees := by simp [sliceFrom]
      have sums : sliceFrom (trees.map SumTree.summary) 0 = .ok (trees.map SumTree.summary) := by
        simp [sliceFrom]
      simp only [loopFor, seekStep, Bool.false_eq_true, if_false, all, sums, ok_bind, zip_map_self]
      rcases seekChildren_stops trees before 0 a below nonempty inside with
        ⟨e, failed⟩ | ⟨left, child, right, a', rfl, stops, stays⟩
      · exact ⟨e, by rw [failed]; rfl⟩
      · rw [stops, ok_bind]
        rcases Nat.lt_or_ge (stack.length + 1) stackCapacity with more | full
        · simp only
          rw [insertFront_of_lt (by simpa using more), ok_bind]
          refine ih child (by simp) _ _ a' ?_ (by simpa using more) stays fuel
          rw [List.length_cons]
          omega
        · refine ⟨.capacity, ?_⟩
          simp only
          rw [insertFront, if_neg (by simpa using full)]
          rfl

theorem seekInternal_tooTall (aggregate : SeekAggregate T S A) {root : SumTree T S} (wellFormed : WellFormed root)
    (tall : ¬ Shallow root) (inside : target.passes bias (measure root.toList : D) = false) (a : A) :
    ∃ e, (new root : Cursor T S D).seekInternal target bias aggregate a = .error e := by
  rcases wellFormed with rfl | ⟨h, balanced⟩
  · exact absurd (Nat.zero_lt_succ 15) tall
  · have high : stackCapacity ≤ h := by
      rw [Shallow, balanced.height_eq] at tall
      exact Nat.le_of_not_lt tall
    rw [Cursor.seekInternal]
    by_cases forward : (target.cmp (new root : Cursor T S D).position).isGE = true
    · have entered : (new root : Cursor T S D).enterSeek =
          .ok ⟨root, [⟨root, 0, measure ([] : List T)⟩], measure ([] : List T), true, root.isEmpty⟩ := rfl
      have full := fun fuel => seek_loop_tooTall (D := D) root aggregate balanced [] [] a true
        root.isEmpty (by simpa using high) (Nat.zero_lt_succ 15) inside fuel
      rw [assert_of forward, ok_bind, entered, ok_bind, loop]
      obtain ⟨e, failed⟩ := full _
      exact ⟨e, by rw [failed]; rfl⟩
    · exact ⟨.assertion, by rw [assert, if_neg forward]; rfl⟩

end Cursor

namespace TreeMap

variable {K V : Type}

def removeRange (self : TreeMap K V) (start stop : MapSeekTarget K) :
    Except Panic (TreeMap K V) := do
  let (newTree, cursor) ← (Cursor.new self.tree : Cursor _ _ (MapKey K)).slice start.adaptor .left
  let (_, cursor) ← cursor.seek stop.adaptor .left
  let (rest, _) ← cursor.suffix
  return ⟨← newTree.append rest⟩

end TreeMap

variable {K V : Type} [LinearOrder K] {map : TreeMap K V} {entries : AssocList K V}

def AssocList.removeRange (entries : AssocList K V) (start stop : K) : AssocList K V :=
  entries.filter fun entry => !(start ≤ entry.key && entry.key < stop)

/-! ## Ranges in ascending lists -/

omit [LinearOrder K] in
theorem length_filter_add (entries : AssocList K V) (p q : MapEntry K V → Bool) :
    (entries.filter p).length + (entries.filter q).length = (entries.filter fun entry => p entry || q entry).length +
        (entries.filter fun entry => p entry && q entry).length := by
  induction entries with
  | nil => rfl
  | cons entry entries ih =>
    simp only [List.filter_cons]
    cases p entry <;> cases q entry <;> simp <;> omega

theorem below_append_filter_ge (ascending : Ascending MapEntry.key entries) (start stop : K) :
    below MapEntry.key start entries ++ (entries.filter fun entry => stop ≤ entry.key) =
        entries.removeRange start stop ↔
      ∀ entry ∈ entries, ¬ (stop ≤ entry.key ∧ entry.key < start) := by
  constructor
  · intro same entry mem between
    have outside : entries.removeRange start stop = entries.filter fun entry =>
        decide (entry.key < start) || decide (stop ≤ entry.key) := by
      refine List.filter_congr fun entry _ => ?_
      rw [Bool.not_and, ← decide_not, ← decide_not, decide_eq_decide.mpr not_le, decide_eq_decide.mpr not_lt]
    -- An entry that is both makes the left side longer.
    have twice := length_filter_add entries (fun entry => decide (entry.key < start))
      fun entry => decide (stop ≤ entry.key)
    have lengths := congrArg List.length same
    rw [List.length_append, outside, below] at lengths
    have both : entry ∈ entries.filter fun entry =>
        decide (entry.key < start) && decide (stop ≤ entry.key) :=
      List.mem_filter.mpr ⟨mem, by simp [between]⟩
    have some := List.length_pos_of_mem both
    omega
  · intro apart
    induction entries with
    | nil => rfl
    | cons entry entries ih =>
      obtain ⟨first, rest⟩ := List.pairwise_cons.mp ascending
      by_cases less : entry.key < start
      · have past : ¬ stop ≤ entry.key := fun le => apart entry (by simp) ⟨le, less⟩
        have tail := ih rest fun e mem => apart e (by simp [mem])
        simp only [below, AssocList.removeRange, List.filter_cons] at tail ⊢
        simp [less, past, tail]
      · have ge : start ≤ entry.key := not_lt.mp less
        have none : below MapEntry.key start (entry :: entries) = [] := by
          refine below_eq_nil fun e mem => ?_
          rcases List.mem_cons.mp mem with rfl | mem
          · exact ge
          · exact ge.trans (first e mem).le
        rw [none, List.nil_append, AssocList.removeRange]
        refine List.filter_congr fun e mem => ?_
        have high : start ≤ e.key := by
          rcases List.mem_cons.mp mem with rfl | mem
          · exact ge
          · exact ge.trans (first e mem).le
        rw [decide_eq_true high, Bool.true_and, ← decide_not, decide_eq_decide.mpr not_lt]

namespace TreeMap

theorem Holds.removeRange_tree (holds : Holds map entries) (shallow : Shallow map.tree) (start stop : K) :
    ∃ tree, map.removeRange (.ofKey start) (.ofKey stop) = .ok ⟨tree⟩ ∧ WellFormed tree ∧
      tree.toList = below MapEntry.key start entries ++ entries.filter fun entry => stop ≤ entry.key := by
  obtain ⟨slice, cursor, at_⟩ := holds.slice shallow start
  obtain ⟨found, moved, sought, rests⟩ := seek_new holds.wellFormed shallow
    (monotone_key holds.ordered (MapKey.some stop) .left)
    (isGE_ofOrd (LawfulKeyedItem.zero_le (MapEntry K V) _))
  rw [passed_left holds.ordered, drop_below holds.ordered, holds.items, below_some, entryAt_some,
    above_some, ← holds.ascending.filter_ge] at rests
  obtain ⟨rest, last, suffixEq, restWellFormed, restLow, restItems⟩ := rests.suffix shallow
  have low := at_.low
  obtain ⟨tree, appended, wellFormed, items, -⟩ := append_below at_.wellFormed restWellFormed (by omega) (by omega)
  refine ⟨tree, ?_, wellFormed, by rw [items, at_.held, restItems]⟩
  have restarted : cursor.seek (.ofOrd (MapKey.some stop)) .left =
      (Cursor.new map.tree : Cursor _ _ (MapKey K)).seek (.ofOrd (MapKey.some stop)) .left := by
    rw [Cursor.seek, Cursor.seek, Cursor.reset, at_.rests.tree_eq]
    rfl
  simp only [removeRange, MapSeekTarget.adaptor_ofKey, at_.sliced, ok_bind, restarted, sought, suffixEq, appended]
  rfl

theorem Holds.not_passes (holds : Holds map entries) {key : K} {entry : MapEntry K V} (mem : entry ∈ entries)
    (ge : key ≤ entry.key) : (SeekTarget.ofOrd (MapKey.some key)).passes .left (measure map.tree.toList) = false := by
  obtain ⟨init, last, split⟩ := (List.eq_nil_or_concat' entries).resolve_left fun none => by
    rw [none] at mem
    cases mem
  have ascending := holds.ascending
  rw [holds.items, split, measure_key, passes_ofOrd]
  rw [split] at mem ascending
  have high : key ≤ last.key := by
    rcases List.mem_append.mp mem with mem | mem
    · exact ge.trans ((List.pairwise_append.mp ascending).2.2 entry mem last (by simp)).le
    · rwa [List.mem_singleton.mp mem] at ge
  exact decide_eq_false fun less => high.not_gt (MapKey.some_lt.mp less)

theorem Holds.removeRange_tooTall (holds : Holds map entries) (tall : ¬ Shallow map.tree) (start stop : K)
    {entry : MapEntry K V} (mem : entry ∈ entries) (reached : start ≤ entry.key ∨ stop ≤ entry.key) : ∃ e,
    map.removeRange (.ofKey start) (.ofKey stop) = .error e := by
  simp only [removeRange, MapSeekTarget.adaptor_ofKey]
  cases sliced : (Cursor.new map.tree : Cursor _ _ (MapKey K)).slice (.ofOrd (MapKey.some start)) .left with
  | error e => exact ⟨e, rfl⟩
  | ok both =>
    obtain ⟨slice, cursor⟩ := both
    rcases reached with ge | ge
    · obtain ⟨e, failed⟩ := seekInternal_tooTall collectSlice holds.wellFormed tall (holds.not_passes mem ge) .empty
      rw [Cursor.slice, failed] at sliced
      cases sliced
    · have same : cursor.tree = map.tree := (slice_sound _ _ holds.wellFormed ⟨rfl, by simp [Cursor.new]⟩ sliced).1.1
      have reset : cursor.reset = (Cursor.new map.tree : Cursor _ _ (MapKey K)) := by
        rw [Cursor.reset, same]
        rfl
      obtain ⟨e, failed⟩ := seekInternal_tooTall ignore holds.wellFormed tall (holds.not_passes mem ge) ⟨⟩
      refine ⟨e, ?_⟩
      rw [ok_bind, Cursor.seek, reset, failed]
      rfl

/-- `remove_range` removes the keys of a range exactly if no key is at or above its second bound and
below its first one: such entries are there twice afterwards. -/
theorem removeRange_iff (holds : Holds map entries) (start stop : K) :
    (Shallow map.tree → ((∃ map', map.removeRange (.ofKey start) (.ofKey stop) = .ok map' ∧
        Holds map' (entries.removeRange start stop)) ↔ ∀ entry ∈ entries, ¬ (stop ≤ entry.key ∧ entry.key < start))) ∧
    (¬ Shallow map.tree → (∃ entry ∈ entries, start ≤ entry.key ∨ stop ≤ entry.key) →
      ∃ e, map.removeRange (.ofKey start) (.ofKey stop) = .error e) := by
  refine ⟨fun shallow => ?_, fun tall ⟨_, mem, reached⟩ =>
    holds.removeRange_tooTall tall start stop mem reached⟩
  obtain ⟨tree, removed, wellFormed, items⟩ := holds.removeRange_tree shallow start stop
  rw [← below_append_filter_ge holds.ascending, ← items]
  constructor
  · rintro ⟨map', removed', holds'⟩
    cases removed.symm.trans removed'
    exact holds'.items
  · intro same
    refine ⟨⟨tree⟩, removed, wellFormed, same, ?_⟩
    exact holds.ascending.filter _

theorem onlyOne_holds : Holds onlyOne [⟨1, 10⟩] :=
  ⟨.inr ⟨0, balanced_leaf [(⟨1, 10⟩ : MapEntry Nat Nat)] (by simp) (by decide)⟩, rfl, List.pairwise_singleton _ _⟩

def tens (keys : List Nat) : AssocList Nat Nat := keys.map fun key => ⟨key, 10 * key⟩

theorem removeRange_iff_twoLeaves : ∃ map',
    (⟨ofLeaves [tens [0, 1, 2], tens [3, 4, 5]]⟩ : TreeMap Nat Nat).removeRange (.ofKey 2) (.ofKey 5) = .ok map' ∧
    Holds map' (tens [0, 1, 5]) := by
  have holds : Holds (⟨ofLeaves [tens [0, 1, 2], tens [3, 4, 5]]⟩ : TreeMap Nat Nat) (tens [0, 1, 2, 3, 4, 5]) :=
    ⟨ofLeaves_wellFormed (by decide) (by decide) (by decide), rfl, by simp [Ascending, tens]⟩
  exact ((removeRange_iff holds 2 5).1 (by decide)).mpr (by decide)

/-- With the bounds the wrong way round the entry between them is there twice. -/
theorem removeRange_duplicates : Holds onlyOne [⟨1, 10⟩] ∧
    (∃ map', onlyOne.removeRange (.ofKey 2) (.ofKey 1) = .ok map' ∧ map'.tree.toList = [⟨1, 10⟩, ⟨1, 10⟩]) ∧ ¬ ∃ map',
    onlyOne.removeRange (.ofKey 2) (.ofKey 1) = .ok map' ∧ Holds map' (AssocList.removeRange [⟨1, 10⟩] 2 1) := by
  refine ⟨onlyOne_holds, ⟨_, rfl, rfl⟩, ?_⟩
  rintro ⟨map', removed, holds⟩
  cases removed
  cases holds.items

end TreeMap
end Pinrail

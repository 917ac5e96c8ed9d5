import Pinrail.SumTree.Search

/-!
# Seeking

One specification of the loop of `seek_internal` for every aggregate: it moves past exactly the
items that a scan of the item sequence moves past, and feeds them to the aggregate in order. A seek
decides at whole subtrees, so the comparison with the target has to be monotone along the items.

Feeding a slice may panic when its tree becomes too high. A specification of an aggregate therefore
counts how often it may still be fed, and the loop stays within `feedBudget`: on the way up it feeds
at most one node's children per level, and once it has gone down it never comes up again.
-/

namespace Pinrail.Cursor
open Lib SumTree

variable {T S D : Type} [Summary S] [Item T S] [Dimension S D]

/-- The items that a seek moves past when it looks at them one at a time from position `d`. -/
def passed (target : SeekTarget D) (bias : Bias) (d : D) : List T → List T
  | [] => []
  | item :: items =>
    let itemEnd := Dimension.addSummary d (Item.summary item : S)
    if target.passes bias itemEnd then item :: passed target bias itemEnd items else []

def Monotone (target : SeekTarget D) (bias : Bias) (items : List T) : Prop :=
  ∀ before between : List T, before ++ between <+: items → target.passes bias (measure (before ++ between)) = true →
    target.passes bias (measure before) = true

variable {target : SeekTarget D} {bias : Bias}

omit [Summary S] in
theorem passed_isPrefix (target : SeekTarget D) (bias : Bias) (d : D) (items : List T) :
    passed target bias d items <+: items := by
  induction items generalizing d with
  | nil => exact List.prefix_rfl
  | cons item items ih =>
    rw [passed]
    split_ifs
    · exact (List.prefix_cons_inj item).mpr (ih _)
    · exact List.nil_prefix

omit [Summary S] in
theorem passed_append {items : List T} (mono : Monotone target bias items) (before stretch rest : List T)
    (within : before ++ stretch <+: items)
    (pass : stretch ≠ [] → target.passes bias (measure (before ++ stretch)) = true) :
    passed target bias (measure before : D)
    (stretch ++ rest) = stretch ++ passed target bias (measure (before ++ stretch)) rest := by
  induction stretch generalizing before with
  | nil => simp
  | cons item stretch ih =>
    have regroup : before ++ item :: stretch = (before ++ [item]) ++ stretch := by simp
    rw [regroup] at within pass
    have passItem := mono _ _ within (pass (by simp))
    rw [List.cons_append, passed, measure_concat, if_pos passItem,
      ih (before ++ [item]) within fun _ => pass (by simp), regroup]
    rfl

/-! ## Aggregates -/

variable {A : Type}

def feedLeaf (aggregate : SeekAggregate T S A) (a : A) (items : List T) : Except Panic A := do
  aggregate.endLeaf (← items.foldlM (fun a item => aggregate.pushItem a item (Item.summary item))
    (aggregate.beginLeaf a))

/-- `holds n items a`: the aggregate `a` stands for `items` and can be fed `n` more times. -/
structure Collects (aggregate : SeekAggregate T S A) (holds : Nat → List T → A → Prop) : Prop where
  tree : ∀ (n : Nat) (items : List T) (a : A) (h : Nat) (tree : SumTree T S),
    holds (n + 1) items a → Balanced h tree → h < stackCapacity →
    ∃ a', aggregate.pushTree a tree tree.summary = .ok a' ∧ holds n (items ++ tree.toList) a'
  leaf : ∀ (n : Nat) (items : List T) (a : A) (more : List T), holds (n + 1) items a → more.length ≤ nodeCapacity →
    ∃ a', feedLeaf aggregate a more = .ok a' ∧ holds n (items ++ more) a'

variable {aggregate : SeekAggregate T S A} {holds : Nat → List T → A → Prop}

/-! ## The inner loops -/

theorem seekChildren_spec [LawfulSummary S] [LawfulDimension S D]
    (collects : Collects aggregate holds) (target : SeekTarget D) (bias : Bias) {n h : Nat}
    {items : List T} {a : A} (trees : List (SumTree T S)) (before : List T) (i : Nat)
    (balanced : ∀ tree ∈ trees, Balanced h tree) (low : h < stackCapacity)
    (enough : trees.length ≤ n) (held : holds n items a) :
    ∃ left right a', trees = left ++ right ∧
      seekChildren target bias aggregate (trees.map fun tree => (tree, tree.summary)) i
          (measure before) (measure before) a =
        .ok (right.head?, i + left.length, measure (before ++ toLists left), measure (before ++ toLists left), a') ∧
      holds (n - left.length) (items ++ toLists left) a' ∧
      (left ≠ [] → target.passes bias (measure (before ++ toLists left)) = true) ∧
      ∀ tree ∈ right.head?, target.passes bias (measure (before ++ toLists left ++ tree.toList)) = false := by
  induction trees generalizing n items a before i with
  | nil => exact ⟨[], [], a, rfl, by simp [seekChildren], by simpa using held, by simp, by simp⟩
  | cons tree trees ih =>
    have treeBalanced := balanced tree (by simp)
    simp only [List.map_cons, seekChildren, measure_tree before treeBalanced]
    cases pass : target.passes bias (measure (before ++ tree.toList)) with
    | false =>
      refine ⟨[], tree :: trees, a, rfl, ?_, by simpa using held, by simp, ?_⟩
      · simp [pure, Except.pure]
      · simpa using pass
    | true =>
      obtain ⟨n, rfl⟩ : ∃ m, n = m + 1 := ⟨n - 1, by simp at enough; omega⟩
      obtain ⟨a', pushed, held'⟩ := collects.tree n items a h tree held treeBalanced low
      obtain ⟨left, right, a'', rfl, rest, held'', passes, stops⟩ :=
        ih (before ++ tree.toList) (i + 1) (fun t mem => balanced t (by simp [mem])) (by simpa using enough) held'
      refine ⟨tree :: left, right, a'', rfl, ?_, by simpa using held'', fun _ => ?_, ?_⟩
      · rw [if_pos rfl, pushed, ok_bind, rest]
        simp only [toLists_cons, List.append_assoc, List.length_cons]
        congr 3
        omega
      · rcases List.eq_nil_or_concat' left with rfl | ⟨init, last, rfl⟩
        · simpa using pass
        · simpa using passes (by simp)
      · simpa using stops

omit [Summary S] in
theorem seekItems_spec (aggregate : SeekAggregate T S A) (target : SeekTarget D) (bias : Bias)
    (items before : List T) (i : Nat) :
    ∃ left right, items = left ++ right ∧
      (∀ a, seekItems target bias aggregate (items.map fun item => (item, Item.summary item)) i
          (measure before) a = (do
        let a ← left.foldlM (fun a item => aggregate.pushItem a item (Item.summary item)) a
        return (!right.isEmpty, i + left.length, measure (before ++ left), a))) ∧
      (left ≠ [] → target.passes bias (measure (before ++ left)) = true) ∧
      ∀ item ∈ right.head?, target.passes bias (measure (before ++ left ++ [item])) = false := by
  induction items generalizing before i with
  | nil => exact ⟨[], [], rfl, fun a => by simp [seekItems, pure, Except.pure, ok_bind], by simp, by simp⟩
  | cons item items ih =>
    simp only [List.map_cons, seekItems, measure_concat before item]
    cases pass : target.passes bias (measure (before ++ [item])) with
    | false =>
      refine ⟨[], item :: items, rfl, fun a => ?_, by simp, by simpa using pass⟩
      simp [pure, Except.pure, ok_bind]
    | true =>
      obtain ⟨left, right, rfl, rest, passes, stops⟩ := ih (before ++ [item]) (i + 1)
      refine ⟨item :: left, right, rfl, fun a => ?_, fun _ => ?_, by simpa using stops⟩
      · rw [if_pos rfl, List.foldlM_cons]
        cases aggregate.pushItem a item (Item.summary item) with
        | error e => rfl
        | ok a' =>
          simp only [ok_bind, rest]
          simp only [List.append_assoc, List.singleton_append, List.length_cons]
          rw [show i + 1 + left.length = i + (left.length + 1) by omega]
      · rcases List.eq_nil_or_concat' left with rfl | ⟨init, last, rfl⟩
        · simpa using pass
        · simpa using passes (by simp)

/-! ## The outer loop -/

def feedBudget : Nat := 2 * nodeCapacity * stackCapacity

/-- What is left of the budget at a node of height `h` below `depth` others. Either the seek is on
its way up, or the node ends behind the target and the seek will stop inside it. -/
def Affords (target : SeekTarget D) (bias : Bias) (depth h : Nat) (end_ : List T) (n : Nat) : Prop :=
  nodeCapacity * (depth + 1) + nodeCapacity * stackCapacity ≤ n ∨
    (target.passes bias (measure end_) = false ∧ nodeCapacity * (h + 1) ≤ n)

/-- `Place … stack ascending before after n`: where the loop of `seek_internal` is, with the items
`before` behind it and `after` ahead. -/
inductive Place (target : SeekTarget D) (bias : Bias) (root : SumTree T S) :
    List (StackEntry T S D) → Bool → List T → List T → Nat → Prop where
  | enter {stack : List (StackEntry T S D)} {h : Nat} {tree : SumTree T S} {before after : List T}
      {n : Nat} (trail : Trail root stack h tree before after)
      (affords : Affords target bias stack.length h (before ++ tree.toList) n) :
      Place target bias root (⟨tree, 0, measure before⟩ :: stack) false before (tree.toList ++ after) n
  | resting {stack : List (StackEntry T S D)} {s : S} {ss : List S} {left right : List T}
      {before after : List T} {n : Nat}
      (trail : Trail root stack 0 (.leaf s (left ++ right) ss) before after) (p : D)
      (affords : nodeCapacity * (stack.length + 1) + nodeCapacity * stackCapacity ≤ n) :
      Place target bias root (⟨.leaf s (left ++ right) ss, left.length, p⟩ :: stack) false
        (before ++ left) (right ++ after) n
  | ascend {stack : List (StackEntry T S D)} {h : Nat} {s : S} {ss : List S}
      {left right : List (SumTree T S)} {tree : SumTree T S} {before after : List T} {n : Nat}
      (trail : Trail root stack (h + 1) (.internal (h + 1) s ss (left ++ tree :: right)) before after) (p : D)
      (affords : nodeCapacity * (stack.length + 1) + nodeCapacity * stackCapacity ≤ n) :
      Place target bias root (⟨.internal (h + 1) s ss (left ++ tree :: right), left.length, p⟩ ::
        stack) true (before ++ toLists left ++ tree.toList) (toLists right ++ after) n
  | empty {n : Nat} (empty : root = SumTree.new) (p : D) : Place target bias root [⟨root, 0, p⟩] false [] [] (n + 1)
  | past {ascending : Bool} {n : Nat} : Place target bias root [] ascending root.toList [] n

/-- A state of the loop of `seek_internal` that started behind `start` and will pass `goal`. -/
def Seeking (target : SeekTarget D) (bias : Bias) (root : SumTree T S)
    (holds : Nat → List T → A → Prop) (start goal : List T) (state : Cursor T S D × Bool × A) :
    Prop :=
  ∃ stack items after n atEnd,
    state.1 = ⟨root, stack, measure (start ++ items), true, atEnd⟩ ∧ holds n items state.2.2 ∧
    items ++ passed target bias (measure (start ++ items)) after = goal ∧
    Place target bias root stack state.2.1 (start ++ items) after n

/-- How the loop of `seek_internal` ends. -/
def Sought (root : SumTree T S) (holds : Nat → List T → A → Prop) (start goal : List T)
    (result : Cursor T S D × A) : Prop :=
  ∃ n after, holds n goal result.2 ∧ Rests root { result.1 with atEnd := result.1.stack.isEmpty } (start ++ goal) after

variable {root tree : SumTree T S} {stack : List (StackEntry T S D)} {h : Nat}
  {before after start goal : List T}

theorem seek_leave {items : List T} {a : A} (n : Nat) (atEnd : Bool) (trail : Trail root stack h tree before after)
    (affords : nodeCapacity * stack.length + nodeCapacity * stackCapacity ≤ n)
    (behind : start ++ items = before ++ tree.toList) (held : holds n items a)
    (reaches : items ++ passed target bias (measure (start ++ items)) after = goal) :
    Seeking target bias root holds start goal
      (⟨root, stack, measure (before ++ tree.toList), true, atEnd⟩, true, a) := by
  refine ⟨stack, items, after, n, atEnd, by rw [behind], held, reaches, ?_⟩
  rw [behind]
  cases trail with
  | root balanced => exact .past
  | child parent => exact .ascend parent _ (by simpa using affords)

variable [LawfulSummary S] [LawfulDimension S D]

theorem seek_internal_node (collects : Collects aggregate holds) {s : S} {ss : List S}
    (left : List (SumTree T S)) {right : List (SumTree T S)} {items : List T} {a : A} {n : Nat}
    (i : Nat) (p : D) (ascending atEnd : Bool) (shallow : Shallow root)
    (mono : Monotone target bias root.toList)
    (trail : Trail root stack (h + 1) (.internal (h + 1) s ss (left ++ right)) before after)
    (entered : (if ascending then (i + 1, measure (before ++ toLists left)) else (i, p)) =
      (left.length, measure (before ++ toLists left)))
    (affords : Affords target bias stack.length (h + 1) (before ++ toLists (left ++ right)) n)
    (behind : start ++ items = before ++ toLists left) (held : holds n items a)
    (reaches : items ++ passed target bias (measure (start ++ items)) (toLists right ++ after) = goal)
    (unfinished : right = [] → nodeCapacity * (stack.length + 1) + nodeCapacity * stackCapacity ≤ n) :
    ∃ next, seekStep target bias aggregate (⟨root, ⟨.internal (h + 1) s ss (left ++ right), i, p⟩ ::
        stack, measure (before ++ toLists left), true, atEnd⟩, ascending, a) = .ok (.inl next) ∧
      Seeking target bias root holds start goal next := by
  obtain rfl := trail.balanced.childSummaries_eq
  have below := trail.balanced.child
  have depth := trail.depth
  have fits := trail.balanced.childTrees_fit
  have capacity : nodeCapacity = 12 := rfl
  have levels : stackCapacity = 16 := rfl
  rw [Shallow, levels] at shallow
  rw [Affords, capacity, levels] at affords
  rw [capacity, levels] at unfinished
  rw [capacity, List.length_append] at fits
  obtain ⟨skipped, remaining, a', rfl, sought, held', passes, stops⟩ :=
    seekChildren_spec collects target bias right (before ++ toLists left) left.length
      (fun t mem => below t (by simp [mem])) (show h < stackCapacity by omega)
      (show right.length ≤ n by omega) held
  rw [List.length_append] at fits
  have moved : start ++ (items ++ toLists skipped) = before ++ toLists left ++ toLists skipped := by
    rw [← List.append_assoc, behind]
  have within : before ++ toLists left ++ toLists skipped <+: root.toList :=
    ⟨toLists remaining ++ after, by simp [trail.held]⟩
  -- The scan of the items passes what is below the children that were passed.
  rw [behind, toLists_append, List.append_assoc,
    passed_append mono _ _ _ within fun some => passes fun none => some (by simp [none]),
    ← moved, ← List.append_assoc] at reaches
  have trees : sliceFrom (left ++ (skipped ++ remaining)) left.length = .ok (skipped ++ remaining) :=
    sliceFrom_append _ _
  have summaries : sliceFrom ((left ++ (skipped ++ remaining)).map SumTree.summary) left.length =
      .ok ((skipped ++ remaining).map SumTree.summary) := by simp [sliceFrom]
  simp only [seekStep, entered, trees, summaries, ok_bind, zip_map_self, sought]
  cases remaining with
  | nil =>
    have up : 12 * (stack.length + 1) + 12 * 16 ≤ n := by
      rcases affords with up | ⟨stops, -⟩
      · exact up
      · by_cases none : skipped = []
        · exact unfinished (by simp [none])
        · have pass := passes none
          simp only [List.append_nil, toLists_append, ← List.append_assoc] at stops
          rw [stops] at pass
          cases pass
    refine ⟨_, rfl, ?_⟩
    have gone := seek_leave (n - skipped.length) atEnd trail
      (by rw [capacity, levels]; omega) (by simpa using moved) held' (by simpa using reaches)
    simpa using gone
  | cons next remaining =>
    have regroup : left ++ (skipped ++ next :: remaining) = (left ++ skipped) ++ next :: remaining := by simp
    have stop := stops next rfl
    rw [regroup] at trail ⊢
    simp only [List.head?_cons]
    rw [insertFront_of_lt (trail.room (by rwa [Shallow]) _), ok_bind]
    refine ⟨_, rfl, _, items ++ toLists skipped, next.toList ++ (toLists remaining ++ after),
      n - skipped.length, atEnd, by rw [moved], held', by simpa using reaches, ?_⟩
    have child := trail.child
    simp only [toLists_append, ← List.append_assoc, List.length_append] at child
    rw [moved]
    refine .enter child (.inr ⟨stop, ?_⟩)
    rw [capacity]
    omega

omit [LawfulSummary S] [LawfulDimension S D] in
theorem seek_leaf_node (collects : Collects aggregate holds) {s : S} {ss : List S}
    (left : List T) {right items : List T} {a : A} {n : Nat} (p : D) (ascending atEnd : Bool)
    (mono : Monotone target bias root.toList)
    (trail : Trail root stack 0 (.leaf s (left ++ right) ss) before after)
    (affords : Affords target bias stack.length 0 (before ++ (left ++ right)) n)
    (behind : start ++ items = before ++ left) (held : holds n items a)
    (reaches : items ++ passed target bias (measure (start ++ items)) (right ++ after) = goal)
    (unfinished : right = [] → nodeCapacity * (stack.length + 1) + nodeCapacity * stackCapacity ≤ n) :
    (∃ next, seekStep target bias aggregate (⟨root, ⟨.leaf s (left ++ right) ss, left.length, p⟩ ::
        stack, measure (before ++ left), true, atEnd⟩, ascending, a) = .ok (.inl next) ∧
      Seeking target bias root holds start goal next) ∨
    ∃ result, seekStep target bias aggregate (⟨root, ⟨.leaf s (left ++ right) ss, left.length, p⟩ ::
        stack, measure (before ++ left), true, atEnd⟩, ascending, a) = .ok (.inr result) ∧
      Sought root holds start goal result := by
  obtain rfl := trail.balanced.itemSummaries_eq
  have fits := trail.balanced.items_fit
  have capacity : nodeCapacity = 12 := rfl
  have levels : stackCapacity = 16 := rfl
  rw [Affords, capacity, levels] at affords
  rw [capacity, levels] at unfinished
  obtain ⟨skipped, remaining, rfl, sought, passes, stops⟩ :=
    seekItems_spec aggregate target bias right (before ++ left) left.length
  obtain ⟨n, rfl⟩ : ∃ m, n = m + 1 := ⟨n - 1, by omega⟩
  obtain ⟨a', fed, held'⟩ := collects.leaf n items a skipped held (by simp at fits; omega)
  have moved : start ++ (items ++ skipped) = before ++ left ++ skipped := by
    rw [← List.append_assoc, behind]
  have within : before ++ left ++ skipped <+: root.toList := ⟨remaining ++ after, by simp [trail.held]⟩
  rw [behind, List.append_assoc, passed_append mono _ _ _ within passes, ← moved, ← List.append_assoc] at reaches
  have sliced : sliceFrom (left ++ (skipped ++ remaining)) left.length = .ok (skipped ++ remaining) :=
    sliceFrom_append _ _
  have summaries : sliceFrom ((left ++ (skipped ++ remaining)).map Item.summary) left.length =
      .ok ((skipped ++ remaining).map (Item.summary : T → S)) := by simp [sliceFrom]
  obtain ⟨filled, folded, ended⟩ := bind_eq_ok.mp fed
  simp only [seekStep, sliced, summaries, ok_bind, zip_map_self, sought, folded, pure_bind, ended]
  cases remaining with
  | nil =>
    have up : 12 * (stack.length + 1) + 12 * 16 ≤ n + 1 := by
      rcases affords with up | ⟨stops, -⟩
      · exact up
      · by_cases none : skipped = []
        · exact unfinished (by simp [none])
        · have pass := passes none
          simp only [List.append_nil, ← List.append_assoc] at stops
          rw [stops] at pass
          cases pass
    refine .inl ⟨_, rfl, ?_⟩
    have gone := seek_leave n atEnd trail
      (by rw [capacity, levels]; omega) (by simpa using moved) held' (by simpa using reaches)
    simpa using gone
  | cons item remaining =>
    have stop := stops item rfl
    refine .inr ⟨_, rfl, n, item :: remaining ++ after, ?_, ?_⟩
    · rw [List.cons_append, passed, measure_concat, moved, stop] at reaches
      simpa [← reaches] using held'
    · rw [List.cons_append, passed, measure_concat, moved, stop] at reaches
      have regroup : left ++ (skipped ++ item :: remaining) = (left ++ skipped) ++ item :: remaining := by simp
      rw [regroup] at trail ⊢
      have rests := Rests.item trail p
      simpa [← reaches, moved] using rests

theorem seekStep_spec (collects : Collects aggregate holds) (shallow : Shallow root)
    (mono : Monotone target bias root.toList) (state : Cursor T S D × Bool × A)
    (seeking : Seeking target bias root holds start goal state) :
    (∃ next, seekStep target bias aggregate state = .ok (.inl next) ∧ Seeking target bias root holds start goal next) ∨
    ∃ result, seekStep target bias aggregate state = .ok (.inr result) ∧ Sought root holds start goal result := by
  obtain ⟨self, ascending, a⟩ := state
  obtain ⟨stack, items, after, n, atEnd, rfl, held, reaches, place⟩ := seeking
  obtain ⟨before, behind⟩ : ∃ before, start ++ items = before := ⟨_, rfl⟩
  rw [behind] at place ⊢
  cases place with
  | @enter stack h tree before after n trail affords =>
    cases tree with
    | internal h' s ss trees =>
      obtain ⟨nonempty, h, rfl, rfl⟩ := trail.balanced.internal_eq
      have step := seek_internal_node collects [] 0 (measure before) false atEnd shallow mono
        trail (by simp) affords (by simpa using behind) held reaches
        (fun none => absurd none nonempty)
      simp only [toLists_nil, List.append_nil, List.nil_append] at step
      exact .inl step
    | leaf s xs ss =>
      obtain rfl : h = 0 := by
        cases trail.balanced with
        | leaf nonempty fits => rfl
      have nonempty : xs ≠ [] := trail.balanced.toList_ne_nil
      have step := seek_leaf_node collects [] (measure before) false atEnd mono trail affords
        (by simpa using behind) held reaches (fun none => absurd none nonempty)
      simpa using step
  | @resting stack s ss left right before after n trail p affords =>
    exact seek_leaf_node collects left p false atEnd mono trail (.inl affords) behind held reaches fun _ => affords
  | @ascend stack h s ss left right tree before after n trail p affords =>
    have regroup : left ++ tree :: right = (left ++ [tree]) ++ right := by simp
    rw [regroup] at trail ⊢
    have moved : before ++ toLists left ++ tree.toList = before ++ toLists (left ++ [tree]) := by
      simp
    rw [moved] at behind ⊢
    exact .inl (seek_internal_node collects (left ++ [tree]) left.length p true atEnd shallow mono
      trail (by simp) (.inl affords) behind held reaches fun _ => affords)
  | @empty n empty p =>
    obtain ⟨a', fed, held'⟩ := collects.leaf n items a [] held (Nat.zero_le _)
    obtain ⟨filled, folded, ended⟩ := bind_eq_ok.mp fed
    obtain rfl := pure_eq_ok.mp folded
    subst empty
    refine .inl ⟨(⟨SumTree.new, [], measure ([] : List T), true, atEnd⟩, true, a'), ?_, [], items, [],
      n, atEnd, by rw [behind], by simpa using held', reaches, by rw [behind]; exact .past⟩
    simp only [seekStep, SumTree.new, sliceFrom, List.length_nil, Nat.le_refl, if_true,
      List.drop_nil, ok_bind, List.zip_nil_left, seekItems, ended]
    rfl
  | @past ascending n =>
    rw [passed, List.append_nil] at reaches
    refine .inr ⟨_, rfl, n, [], reaches ▸ held, ?_⟩
    rw [← reaches, behind]
    exact .atEnd

theorem seek_loop (collects : Collects aggregate holds) (shallow : Shallow root)
    (mono : Monotone target bias root.toList) {state : Cursor T S D × Bool × A}
    (seeking : Seeking target bias root holds start goal state) : ∃ result, loop (fun s => workAhead s.1.stack (!s.2.1))
    (seekStep target bias aggregate) state = .ok result ∧ Sought root holds start goal result :=
  loop_returns_of_decreases (seekStep_decreases target bias aggregate)
    (Seeking target bias root holds start goal) _ (seekStep_spec collects shallow mono) _ seeking

/-! ## `seek_internal` -/

/-- The location that a seek compares with its target at the end, for a cursor between `before` and
`after`. -/
def foundLocation (bias : Bias) (before after : List T) : D :=
  if bias = .left then measure (before ++ after.take 1) else measure before

omit [LawfulSummary S] [LawfulDimension S D] in
theorem Rests.foundAt_eq {self : Cursor T S D} (rests : Rests root self before after) :
    self.foundAt bias = .ok (foundLocation bias before after) := by
  rw [foundAt, foundLocation]
  split_ifs
  · exact rests.endPosition_eq
  · rw [rests.position_eq]

theorem seekInternal_spec (collects : Collects aggregate holds) (shallow : Shallow root)
    (mono : Monotone target bias root.toList) {self entered : Cursor T S D} {a : A}
    (forward : (target.cmp self.position).isGE = true) (enters : self.enterSeek = .ok entered)
    (whole : root.toList = before ++ after)
    (seeking : Seeking target bias root holds before (passed target bias (measure before) after) (entered, false, a)) :
    ∃ next a' n,  self.seekInternal target bias aggregate a = .ok (target.cmp (foundLocation bias
        (before ++ passed target bias (measure before) after)
        (after.drop (passed target bias (measure before : D) after).length)) == .eq, next, a') ∧
      holds n (passed target bias (measure before) after) a' ∧
      Rests root next (before ++ passed target bias (measure before) after)
        (after.drop (passed target bias (measure before : D) after).length) := by
  obtain ⟨⟨stopped, a'⟩, looped, n, rest, held, rests⟩ := seek_loop collects shallow mono seeking
  obtain ⟨suffix, split⟩ := passed_isPrefix target bias (measure before : D) after
  have restEq : rest = after.drop (passed target bias (measure before : D) after).length := by
    have both := rests.held
    rw [whole, List.append_assoc] at both
    have same := List.append_cancel_left both
    generalize passed target bias (measure before : D) after = gone at same
    rw [same]
    simp
  rw [← restEq]
  refine ⟨_, a', n, ?_, held, rests⟩
  rw [seekInternal, assert_of forward, ok_bind, enters, ok_bind, looped, ok_bind]
  simp only
  rw [assert_of rests.restsOnLeaf_eq, ok_bind, rests.foundAt_eq, ok_bind]
  rfl

theorem Rests.seekInternal {self : Cursor T S D} (collects : Collects aggregate holds)
    (shallow : Shallow root) (mono : Monotone target bias root.toList) {a : A}
    (forward : (target.cmp (measure before)).isGE = true) (held : holds feedBudget [] a)
    (rests : Rests root self before after) :
    ∃ next a' n, self.seekInternal target bias aggregate a = .ok (target.cmp (foundLocation bias
        (before ++ passed target bias (measure before) after)
        (after.drop (passed target bias (measure before : D) after).length)) == .eq, next, a') ∧
      holds n (passed target bias (measure before) after) a' ∧
      Rests root next (before ++ passed target bias (measure before) after)
        (after.drop (passed target bias (measure before : D) after).length) := by
  refine seekInternal_spec collects shallow mono (by rwa [rests.position_eq]) (if_pos rests.didSeek_eq) rests.held ?_
  cases rests with
  | @item stack s ss left right item before after trail p =>
    have depth := trail.depth
    have levels : stackCapacity = 16 := rfl
    rw [Shallow, levels] at shallow
    refine ⟨_, [], item :: right ++ after, feedBudget, false, by rw [List.append_nil], held, by simp, ?_⟩
    rw [List.append_nil]
    refine .resting trail p ?_
    rw [feedBudget, levels, show nodeCapacity = 12 from rfl]
    omega
  | atEnd => exact ⟨[], [], [], feedBudget, true, by simp, held, by simp, by simpa using .past⟩

theorem seekInternal_fresh (collects : Collects aggregate holds) (shallow : Shallow root)
    (wellFormed : WellFormed root) (mono : Monotone target bias root.toList) {a : A}
    (forward : (target.cmp (Dimension.zero S)).isGE = true) (held : holds feedBudget [] a) :
    ∃ next a' n, (new root : Cursor T S D).seekInternal target bias aggregate a =
        .ok (target.cmp (foundLocation bias (passed target bias (Dimension.zero S) root.toList)
          (root.toList.drop (passed target bias (Dimension.zero S : D) root.toList).length)) == .eq,
          next, a') ∧
      holds n (passed target bias (Dimension.zero S) root.toList) a' ∧
      Rests root next (passed target bias (Dimension.zero S) root.toList)
        (root.toList.drop (passed target bias (Dimension.zero S : D) root.toList).length) := by
  have whole : root.toList = [] ++ root.toList := rfl
  refine seekInternal_spec collects shallow mono forward rfl whole ?_
  rcases wellFormed with rfl | ⟨h, balanced⟩
  · exact ⟨_, [], [], feedBudget - 1 + 1, true, rfl, held, rfl, .empty rfl _⟩
  · have place : Place target bias root [⟨root, 0, (measure ([] : List T) : D)⟩] false []
        (root.toList ++ []) feedBudget := .enter (.root balanced) (.inl (by simp [feedBudget, nodeCapacity, treeBase,
          stackCapacity]))
    rw [List.append_nil] at place
    exact ⟨_, [], root.toList, feedBudget, root.isEmpty, rfl, held, rfl, place⟩

end Pinrail.Cursor

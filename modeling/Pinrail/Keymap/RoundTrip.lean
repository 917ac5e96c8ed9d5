import Pinrail.Keymap.Printing

/-!
# Predicates that are read back with their meaning

The tree that is read back has the meaning of the printed one when the missing parentheses do not
matter: `&&`, `||` and, where no `!` sees the stack around it, `>` are associative.
-/

namespace Pinrail.Keymap
open Lib

namespace KeyBindingContextPredicate

/-! ## Predicates with one meaning -/

def Equivalent (p q : KeyBindingContextPredicate) : Prop :=
  ∀ contexts allContexts, p.evalInner contexts allContexts = q.evalInner contexts allContexts

namespace Equivalent
variable {p q r p' q' : KeyBindingContextPredicate}

theorem refl : Equivalent p p := fun _ _ => rfl

theorem symm (same : Equivalent p q) : Equivalent q p := fun contexts allContexts => (same contexts allContexts).symm

theorem trans (first : Equivalent p q) (second : Equivalent q r) : Equivalent p r :=
  fun contexts allContexts => (first contexts allContexts).trans (second contexts allContexts)

theorem not (same : Equivalent p q) : Equivalent (.not p) (.not q) := by
  intro contexts allContexts
  simp only [evalInner_not, same _ _]

theorem and (left : Equivalent p p') (right : Equivalent q q') : Equivalent (.and p q) (.and p' q') := by
  intro contexts allContexts
  simp only [evalInner_and, left _ _, right _ _]

theorem or (left : Equivalent p p') (right : Equivalent q q') : Equivalent (.or p q) (.or p' q') := by
  intro contexts allContexts
  simp only [evalInner_or, left _ _, right _ _]

theorem descendant (left : Equivalent p p') (right : Equivalent q q') :
    Equivalent (.descendant p q) (.descendant p' q') := by
  intro contexts allContexts
  simp only [evalInner_descendant, left _ _, right _ _]

theorem and_assoc : Equivalent (.and (.and p q) r) (.and p (.and q r)) := by
  intro contexts allContexts
  simp only [evalInner_and, Bool.and_assoc]

theorem or_assoc : Equivalent (.or (.or p q) r) (.or p (.or q r)) := by
  intro contexts allContexts
  simp only [evalInner_or, Bool.or_assoc]

theorem eval (same : Equivalent p q) (contexts : List KeyContext) : p.eval contexts = q.eval contexts :=
  same contexts contexts

theorem depthOf (same : Equivalent p q) (contexts : List KeyContext) : p.depthOf contexts = q.depthOf contexts := by
  unfold KeyBindingContextPredicate.depthOf
  congr 1
  funext depth
  exact same _ contexts

end Equivalent

end KeyBindingContextPredicate

namespace KeyBindingContextPredicate

def selfContained : KeyBindingContextPredicate → Bool
  | identifier _ | equal _ _ | notEqual _ _ => true
  | .not _ => false
  | descendant parent _ => parent.selfContained
  | .and left right | .or left right => left.selfContained && right.selfContained

def testsDeepest : KeyBindingContextPredicate → Bool
  | identifier _ | equal _ _ | notEqual _ _ => true
  | .not _ | descendant _ _ => false
  | .and left right | .or left right => left.testsDeepest && right.testsDeepest

theorem evalInner_selfContained {p : KeyBindingContextPredicate} (contained : p.selfContained = true)
    (contexts allContexts otherContexts : List KeyContext) :
    p.evalInner contexts allContexts = p.evalInner contexts otherContexts := by
  induction p generalizing contexts with
  | not pred => cases contained
  | descendant parent child ihParent =>
    simp only [evalInner_descendant, ihParent contained]
  | and left right ihLeft ihRight =>
    rw [selfContained, Bool.and_eq_true] at contained
    rw [evalInner_and, evalInner_and, ihLeft contained.1, ihRight contained.2]
  | or left right ihLeft ihRight =>
    rw [selfContained, Bool.and_eq_true] at contained
    rw [evalInner_or, evalInner_or, ihLeft contained.1, ihRight contained.2]
  | _ => simp only [evalInner]

theorem evalInner_testsDeepest {p : KeyBindingContextPredicate} (tests : p.testsDeepest = true)
    {contexts otherContexts : List KeyContext} (deepest : contexts.getLast? = otherContexts.getLast?)
    (allContexts others : List KeyContext) : p.evalInner contexts allContexts = p.evalInner otherContexts others := by
  induction p with
  | not pred => cases tests
  | descendant parent child => cases tests
  | and left right ihLeft ihRight =>
    rw [testsDeepest, Bool.and_eq_true] at tests
    rw [evalInner_and, evalInner_and, ihLeft tests.1, ihRight tests.2]
  | or left right ihLeft ihRight =>
    rw [testsDeepest, Bool.and_eq_true] at tests
    rw [evalInner_or, evalInner_or, ihLeft tests.1, ihRight tests.2]
  | _ => rw [evalInner, evalInner, deepest]

section Descendant
variable {p q r : KeyBindingContextPredicate} {contexts allContexts : List KeyContext}

theorem evalInner_descendant_take (contained : q.selfContained = true) {i j : Nat}
    (within : i + 1 + j < contexts.length)
    (parent : p.evalInner (contexts.take (i + 1)) allContexts = true)
    (first : ∀ k < i, p.evalInner (contexts.take (k + 1)) allContexts = false) :
    (descendant p q).evalInner (contexts.take (i + 1 + j + 1)) allContexts =
      q.evalInner ((contexts.drop (i + 1)).take (j + 1)) (contexts.drop (i + 1)) := by
  have slice : (contexts.take (i + 1 + j + 1)).drop (i + 1) = (contexts.drop (i + 1)).take (j + 1) := by
    rw [List.drop_take]
    congr 1
    omega
  have front {k : Nat} (le : k ≤ i + 1 + j) : (contexts.take (i + 1 + j + 1)).take (k + 1) = contexts.take (k + 1) := by
    rw [List.take_take, Nat.min_eq_left (by omega)]
  rw [Bool.eq_iff_iff, evalInner_descendant_iff]
  constructor
  · rintro ⟨k, before, parentAt, firstAt, child⟩
    rw [List.length_take] at before
    rw [front (by omega)] at parentAt
    have same : k = i := by
      rcases Nat.lt_trichotomy k i with less | same | greater
      · rw [first k less] at parentAt
        cases parentAt
      · exact same
      · have none := firstAt i greater
        rw [front (by omega), parent] at none
        cases none
    subst same
    rw [slice] at child
    rwa [evalInner_selfContained contained _ _ ((contexts.drop (k + 1)).take (j + 1))]
  · intro child
    refine ⟨i, by rw [List.length_take]; omega, by rwa [front (by omega)], fun k less => ?_, ?_⟩
    · rw [front (by omega)]
      exact first k less
    · rw [slice]
      rwa [evalInner_selfContained contained _ _ (contexts.drop (i + 1))]

theorem evalInner_descendant_early {i k : Nat} (early : k ≤ i)
    (first : ∀ k < i, p.evalInner (contexts.take (k + 1)) allContexts = false) :
    (descendant p q).evalInner (contexts.take (k + 1)) allContexts = false := by
  by_contra holds
  rw [Bool.not_eq_false, evalInner_descendant_iff] at holds
  obtain ⟨other, before, parentAt, -, -⟩ := holds
  rw [List.length_take] at before
  rw [List.take_take, Nat.min_eq_left (by omega), first other (by omega)] at parentAt
  cases parentAt

theorem Equivalent.descendant_assoc (contained : q.selfContained = true) :
    Equivalent (.descendant (.descendant p q) r) (.descendant p (.descendant q r)) := by
  intro contexts allContexts
  rw [Bool.eq_iff_iff, evalInner_descendant_iff, evalInner_descendant_iff]
  constructor
  · rintro ⟨m, within, both, firstBoth, child⟩
    have inner := both
    rw [evalInner_descendant_iff] at inner
    obtain ⟨i, before, parent, first, -⟩ := inner
    rw [List.length_take] at before
    obtain ⟨j, rfl⟩ : ∃ j, m = i + 1 + j := ⟨m - (i + 1), by omega⟩
    have front {k : Nat} (le : k ≤ i) : (contexts.take (i + 1 + j + 1)).take (k + 1) = contexts.take (k + 1) := by
      rw [List.take_take, Nat.min_eq_left (by omega)]
    rw [front (Nat.le_refl i)] at parent
    have firstHere : ∀ k < i, p.evalInner (contexts.take (k + 1)) allContexts = false := by
      intro k less
      rw [← front (Nat.le_of_lt less)]
      exact first k less
    refine ⟨i, by omega, parent, firstHere, ?_⟩
    rw [evalInner_descendant_iff]
    refine ⟨j, by rw [List.length_drop]; omega, ?_, fun k less => ?_, ?_⟩
    · rwa [evalInner_descendant_take contained (by omega) parent firstHere] at both
    · rw [← evalInner_descendant_take contained (by omega) parent firstHere]
      exact firstBoth _ (by omega)
    · rw [List.drop_drop]
      exact child
  · rintro ⟨i, within, parent, first, child⟩
    rw [evalInner_descendant_iff] at child
    obtain ⟨j, before, middle, firstMiddle, child⟩ := child
    rw [List.length_drop] at before
    refine ⟨i + 1 + j, by omega, ?_, fun k less => ?_, ?_⟩
    · rwa [evalInner_descendant_take contained (by omega) parent first]
    · rcases Nat.lt_or_ge i k with late | early
      · obtain ⟨l, rfl⟩ : ∃ l, k = i + 1 + l := ⟨k - (i + 1), by omega⟩
        rw [evalInner_descendant_take contained (by omega) parent first]
        exact firstMiddle l (by omega)
      · exact evalInner_descendant_early early first
    · rw [List.drop_drop] at child
      exact child

theorem Equivalent.and_descendant (tests : r.testsDeepest = true) :
    Equivalent (.and (.descendant p q) r) (.descendant p (.and q r)) := by
  intro contexts allContexts
  have deepest {i : Nat} (within : i + 1 < contexts.length) :
      r.evalInner contexts allContexts = r.evalInner (contexts.drop (i + 1)) (contexts.drop (i + 1)) := by
    refine evalInner_testsDeepest tests ?_ _ _
    rw [List.getLast?_drop, if_neg (by omega)]
  rw [Bool.eq_iff_iff, evalInner_and, Bool.and_eq_true, evalInner_descendant_iff, evalInner_descendant_iff]
  constructor
  · rintro ⟨⟨i, within, parent, first, child⟩, beside⟩
    refine ⟨i, within, parent, first, ?_⟩
    rw [evalInner_and, child, ← deepest within, beside]
    rfl
  · rintro ⟨i, within, parent, first, child⟩
    rw [evalInner_and, Bool.and_eq_true, ← deepest within] at child
    exact ⟨⟨i, within, parent, first, child.1⟩, child.2⟩

end Descendant

/-! ## What may be printed without parentheses -/

/-- The text has a `>` outside parentheses. -/
def bareChild : KeyBindingContextPredicate → Bool
  | descendant _ _ => true
  | .and left right => !LogicalOperator.and.needsParens left && left.bareChild ||
      !LogicalOperator.and.needsParens right && right.bareChild
  | .or left right => !LogicalOperator.or.needsParens left && left.bareChild ||
      !LogicalOperator.or.needsParens right && right.bareChild
  | _ => false

/-- The operand of the operator is written with a `>` outside parentheses. -/
def LogicalOperator.bare (operator : LogicalOperator) (p : KeyBindingContextPredicate) : Bool :=
  !operator.needsParens p && p.bareChild

/-- What is written after the last `>` is an `||`. -/
def endsInOr : KeyBindingContextPredicate → Bool
  | .or _ _ => true
  | descendant _ child => child.endsInOr
  | _ => false

/-- The missing parentheses do not matter: a `>` outside parentheses stands in no operand of `||` and
in no right operand of `&&`; in a left operand of `&&` it stands with no `||` after it, beside a test
of the deepest context; and in a right operand of `>`, with no negation before it. -/
def printable : KeyBindingContextPredicate → Bool
  | identifier _ | equal _ _ | notEqual _ _ => true
  | .not pred => pred.printable
  | descendant parent child =>
    parent.printable && child.printable && (!child.bareChild || child.selfContained)
  | .and left right => left.printable && right.printable && !LogicalOperator.and.bare right &&
      (!LogicalOperator.and.bare left || right.testsDeepest && !left.endsInOr)
  | .or left right => left.printable && right.printable && !LogicalOperator.or.bare left &&
      !LogicalOperator.or.bare right

/-! ## The meaning of what is read -/

/-- The same up to the meaning of the operands of `&&`. -/
structure Reading.Same (reading other : Reading) : Prop where
  child : reading.child = other.child
  or : reading.or = other.or
  and : Equivalent reading.and other.and

/-- The same up to the meaning of what stands after the last `>`. -/
structure Reading.Alike (reading other : Reading) : Prop where
  child : reading.child = other.child
  alternatives : Equivalent reading.alternatives other.alternatives

theorem Equivalent.joinLeft
    {build : KeyBindingContextPredicate → KeyBindingContextPredicate → KeyBindingContextPredicate}
    (congruent : ∀ p q q', Equivalent q q' → Equivalent (build p q) (build p q'))
    (left : Option KeyBindingContextPredicate) {p q : KeyBindingContextPredicate}
    (same : Equivalent p q) : Equivalent (joinLeft build left p) (joinLeft build left q) := by
  cases left with
  | none => exact same
  | some left => exact congruent left p q same

theorem Reading.Same.alike {reading other : Reading} (same : reading.Same other) : reading.Alike other := by
  refine ⟨same.child, ?_⟩
  rw [Reading.alternatives, Reading.alternatives, same.or]
  exact .joinLeft (fun p _ _ same => Equivalent.or (@Equivalent.refl p) same) _ same.and

theorem Reading.Alike.tree {reading other : Reading} (alike : reading.Alike other) :
    Equivalent reading.tree other.tree := by
  rw [Reading.tree, Reading.tree, alike.child]
  exact .joinLeft (fun p _ _ same => Equivalent.descendant (@Equivalent.refl p) same) _ alike.alternatives

theorem Reading.same_put {p q : KeyBindingContextPredicate} (same : Equivalent p q)
    (before : Option (Reading × Connective)) : (Reading.put p before).Same (Reading.put q before) := by
  cases before with
  | none => exact ⟨rfl, rfl, same⟩
  | some pair =>
    obtain ⟨reading, connective⟩ := pair
    cases connective with
    | child => exact ⟨rfl, rfl, same⟩
    | or => exact ⟨rfl, rfl, same⟩
    | and => exact ⟨rfl, rfl, Equivalent.and .refl same⟩

/-- What the reading of a predicate means: of one without a `>` outside parentheses, with or without
an `||`; of any one, alone and after a `>`; and of one with a `>`, where the last operand of `&&`
stands. -/
structure Meant (p : KeyBindingContextPredicate) : Prop where
  same (before : Option (Reading × Connective)) (bare : p.bareChild = false) (chain : p.endsInOr = false) :
    (p.reading before).Same (.put p before)
  alike (before : Option (Reading × Connective)) (loose : ∀ reading, before ≠ some (reading, .and))
    (bare : p.bareChild = false) : (p.reading before).Alike (.put p before)
  alone : Equivalent p.reread p
  below (reading : Reading) (contained : p.bareChild = true → p.selfContained = true) :
    Equivalent (p.reading (some (reading, .child))).tree (.descendant reading.tree p)
  ends (before : Option (Reading × Connective)) (bare : p.bareChild = true) (chain : p.endsInOr = false) :
    (∃ left, (p.reading before).child = some left) ∧ (p.reading before).or = none

theorem Meant.of_alike {p : KeyBindingContextPredicate} (bare : p.bareChild = false)
    (same : p.endsInOr = false → ∀ before, (p.reading before).Same (.put p before))
    (alike : ∀ before, (∀ reading, before ≠ some (reading, .and)) →
      (p.reading before).Alike (.put p before)) : Meant p where
  same before _ chain := same chain before
  alike before loose _ := alike before loose
  alone := (alike none nofun).tree
  below reading _ := (alike (some (reading, .child)) nofun).tree
  ends _ spine := absurd spine (by rw [bare]; decide)

theorem Meant.of_same {p : KeyBindingContextPredicate} (bare : p.bareChild = false)
    (same : ∀ before, (p.reading before).Same (.put p before)) : Meant p :=
  .of_alike bare (fun _ => same) fun before _ => (same before).alike

section Links
variable {operator : LogicalOperator} {p left right : KeyBindingContextPredicate}

theorem Meant.link_same (meant : Meant p) (bare : LogicalOperator.and.bare p = false)
    (before : Option (Reading × Connective)) : (LogicalOperator.and.linkReading p before).Same (.put p before) := by
  unfold LogicalOperator.linkReading
  split
  · exact Reading.same_put meant.alone before
  · rename_i parens
    rw [LogicalOperator.bare, (Bool.not_eq_true _).mp parens] at bare
    cases p with
    | or left right => exact absurd rfl parens
    | descendant parent child => cases bare
    | _ => exact meant.same before bare rfl

theorem Meant.link_alike (meant : Meant p) (bare : LogicalOperator.or.bare p = false)
    (before : Option (Reading × Connective)) (loose : ∀ reading, before ≠ some (reading, .and)) :
    (LogicalOperator.or.linkReading p before).Alike (.put p before) := by
  unfold LogicalOperator.linkReading
  split
  · exact (Reading.same_put meant.alone before).alike
  · rename_i parens
    rw [LogicalOperator.bare, (Bool.not_eq_true _).mp parens] at bare
    exact meant.alike before loose bare

theorem Meant.or (first : Meant left) (second : Meant right) (bareLeft : LogicalOperator.or.bare left = false)
    (bareRight : LogicalOperator.or.bare right = false) : Meant (.or left right) := by
  have bare : (KeyBindingContextPredicate.or left right).bareChild = false := by
    rw [bareChild, Bool.or_eq_false_iff]
    exact ⟨bareLeft, bareRight⟩
  refine .of_alike bare nofun fun before loose => ?_
  have start := first.link_alike bareLeft before loose
  have rest := second.link_alike bareRight (some (LogicalOperator.or.linkReading left before, .or))
    fun reading other => by cases other
  refine ⟨(rest.child.trans start.child).trans ?_, rest.alternatives.trans ?_⟩
  · cases before with
    | none => rfl
    | some pair =>
      obtain ⟨reading, connective⟩ := pair
      cases connective with
      | and => exact absurd rfl (loose reading)
      | _ => rfl
  · refine (Equivalent.or start.alternatives .refl).trans ?_
    cases before with
    | none => exact .refl
    | some pair =>
      obtain ⟨reading, connective⟩ := pair
      cases connective with
      | and => exact absurd rfl (loose reading)
      | or => exact .or_assoc
      | child => exact .refl

theorem Meant.and (first : Meant left) (second : Meant right) (bareLeft : LogicalOperator.and.bare left = false)
    (bareRight : LogicalOperator.and.bare right = false) : Meant (.and left right) := by
  have bare : (KeyBindingContextPredicate.and left right).bareChild = false := by
    rw [bareChild, Bool.or_eq_false_iff]
    exact ⟨bareLeft, bareRight⟩
  refine .of_same bare fun before => ?_
  have start := first.link_same bareLeft before
  have rest := second.link_same bareRight (some (LogicalOperator.and.linkReading left before, .and))
  have joined := rest.and.trans (Equivalent.and start.and .refl)
  refine ⟨(rest.child.trans start.child).trans ?_, (rest.or.trans start.or).trans ?_, joined.trans ?_⟩
  · cases before with
    | none => rfl
    | some pair =>
      obtain ⟨reading, connective⟩ := pair
      cases connective <;> rfl
  · cases before with
    | none => rfl
    | some pair =>
      obtain ⟨reading, connective⟩ := pair
      cases connective <;> rfl
  · cases before with
    | none => exact .refl
    | some pair =>
      obtain ⟨reading, connective⟩ := pair
      cases connective with
      | and => exact .and_assoc
      | _ => exact .refl

theorem Meant.and_below (first : Meant left) (second : Meant right)
    (bareLeft : LogicalOperator.and.bare left = true) (bareRight : LogicalOperator.and.bare right = false)
    (tests : right.testsDeepest = true) (chain : left.endsInOr = false) : Meant (.and left right) := by
  obtain ⟨parens, bare⟩ := (Bool.and_eq_true _ _).mp bareLeft
  have spine : (KeyBindingContextPredicate.and left right).bareChild = true := by
    rw [bareChild, Bool.or_eq_true]
    exact .inl bareLeft
  have step (before : Option (Reading × Connective)) : ((KeyBindingContextPredicate.and left right).reading before).Same
        (.put right (some (left.reading before, .and))) := by
    have starts : LogicalOperator.and.linkReading left before = left.reading before := by
      rw [LogicalOperator.linkReading, if_neg (by simpa using parens)]
    have joined : (KeyBindingContextPredicate.and left right).reading before =
        LogicalOperator.and.linkReading right (some (left.reading before, .and)) := by
      rw [← starts]
      exact reading_join .and left right before
    rw [joined]
    exact second.link_same bareRight _
  have tree (before : Option (Reading × Connective)) :
      Equivalent ((KeyBindingContextPredicate.and left right).reading before).tree
        (.and (left.reading before).tree right) := by
    obtain ⟨⟨above, child⟩, or⟩ := first.ends before bare chain
    refine (step before).alike.tree.trans ?_
    have whole : (left.reading before).tree = .descendant above (left.reading before).and := by
      rw [Reading.tree, Reading.alternatives, child, or]
      rfl
    have put : (Reading.put right (some (left.reading before, .and))).tree =
        .descendant above (.and (left.reading before).and right) := by
      rw [Reading.put, Reading.tree, Reading.alternatives, child, or]
      rfl
    rw [whole, put]
    exact (Equivalent.and_descendant tests).symm
  refine ⟨fun _ none => ?_, fun _ _ none => ?_, ?_, fun reading contained => ?_, fun before _ _ => ?_⟩
  · rw [spine] at none
    cases none
  · rw [spine] at none
    cases none
  · exact (tree none).trans (Equivalent.and first.alone .refl)
  · have containedLeft := ((Bool.and_eq_true _ _).mp (contained spine)).1
    refine (tree (some (reading, .child))).trans ?_
    exact (Equivalent.and (first.below reading fun _ => containedLeft) .refl).trans (.and_descendant tests)
  · obtain ⟨child, or⟩ := first.ends before bare chain
    have same := step before
    rw [same.child, same.or]
    exact ⟨child, or⟩

theorem Meant.descendant (first : Meant left) (second : Meant right)
    (contained : right.bareChild = true → right.selfContained = true) : Meant (.descendant left right) := by
  refine ⟨nofun, nofun, ?_, fun reading around => ?_, fun before _ chain => ?_⟩
  · exact (second.below _ contained).trans (Equivalent.descendant first.alone .refl)
  · have containedLeft : left.selfContained = true := around rfl
    refine (second.below _ contained).trans ?_
    refine (Equivalent.descendant (first.below reading fun _ => containedLeft) .refl).trans ?_
    exact .descendant_assoc containedLeft
  · cases bare : right.bareChild with
    | true => exact second.ends _ bare chain
    | false =>
      have same := second.same (some (left.reading before, .child)) bare chain
      rw [KeyBindingContextPredicate.reading, same.child, same.or]
      exact ⟨⟨_, rfl⟩, rfl⟩

end Links

theorem meant {p : KeyBindingContextPredicate} (printable : p.printable = true) : Meant p := by
  induction p with
  | identifier name => exact .of_same rfl fun _ => ⟨rfl, rfl, .refl⟩
  | equal left right => exact .of_same rfl fun _ => ⟨rfl, rfl, .refl⟩
  | notEqual left right => exact .of_same rfl fun _ => ⟨rfl, rfl, .refl⟩
  | not pred ih => exact .of_same rfl (Reading.same_put (ih printable).alone.not)
  | descendant parent child ihParent ihChild =>
    rw [KeyBindingContextPredicate.printable, Bool.and_eq_true, Bool.and_eq_true, Bool.or_eq_true,
      Bool.not_eq_true'] at printable
    obtain ⟨⟨printableParent, printableChild⟩, around⟩ := printable
    refine .descendant (ihParent printableParent) (ihChild printableChild) fun bare => ?_
    rw [bare] at around
    exact around.resolve_left nofun
  | and left right ihLeft ihRight =>
    rw [KeyBindingContextPredicate.printable, Bool.and_eq_true, Bool.and_eq_true, Bool.and_eq_true,
      Bool.or_eq_true, Bool.and_eq_true, Bool.not_eq_true', Bool.not_eq_true', Bool.not_eq_true'] at printable
    obtain ⟨⟨⟨printableLeft, printableRight⟩, bareRight⟩, bareLeft⟩ := printable
    cases bare : LogicalOperator.and.bare left with
    | false => exact .and (ihLeft printableLeft) (ihRight printableRight) bare bareRight
    | true =>
      rw [bare] at bareLeft
      obtain ⟨tests, chain⟩ := bareLeft.resolve_left nofun
      exact .and_below (ihLeft printableLeft) (ihRight printableRight) bare bareRight tests chain
  | or left right ihLeft ihRight =>
    rw [KeyBindingContextPredicate.printable, Bool.and_eq_true, Bool.and_eq_true, Bool.and_eq_true,
      Bool.not_eq_true', Bool.not_eq_true'] at printable
    obtain ⟨⟨⟨printableLeft, printableRight⟩, bareLeft⟩, bareRight⟩ := printable
    exact .or (ihLeft printableLeft) (ihRight printableRight) bareLeft bareRight

end KeyBindingContextPredicate

open KeyBindingContextPredicate

/-- What is printed of a parsed predicate is parsed, and where the missing parentheses do not matter,
as a predicate of the same meaning. -/
theorem parse_display_parse [Alphabet] {source : Str} {p : KeyBindingContextPredicate} (parsed : parse source = .ok p) :
    ∃ q, parse (display p) = .ok q ∧
    (p.printable = true → ∀ contexts, q.eval contexts = p.eval contexts ∧ q.depthOf contexts = p.depthOf contexts) := by
  refine ⟨p.reread, parse_display (named_of_parse parsed), fun printable contexts => ?_⟩
  have alone := (meant printable).alone
  exact ⟨alone.eval contexts, alone.depthOf contexts⟩

/-- `a > (b > c)` is printed without its parentheses, which do not matter. -/
theorem parse_display_nested : ∃ q, @parse asciiAlphabet (display (descendant (identifier ['a'])
      (descendant (identifier ['b']) (identifier ['c'])))) = .ok q ∧ ∀ contexts,
        q.eval contexts = (descendant (identifier ['a'])
          (descendant (identifier ['b']) (identifier ['c']))).eval contexts ∧
        q.depthOf contexts = (descendant (identifier ['a'])
          (descendant (identifier ['b']) (identifier ['c']))).depthOf contexts := by
  have parsed : @parse asciiAlphabet ['a', ' ', '>', ' ', '(', 'b', ' ', '>', ' ', 'c', ')'] =
      .ok (descendant (identifier ['a']) (descendant (identifier ['b']) (identifier ['c']))) := by
    rfl
  obtain ⟨q, again, same⟩ := @parse_display_parse asciiAlphabet _ _ parsed
  exact ⟨q, again, same rfl⟩

/-- `(a > b) || c` is printed without its parentheses, and where only `c` is there, what is read back
is false. -/
theorem parse_display_or :
    let p := KeyBindingContextPredicate.or (descendant (identifier ['a']) (identifier ['b'])) (identifier ['c'])
    let q := descendant (identifier ['a']) (.or (identifier ['b']) (identifier ['c']))
    let contexts : List KeyContext := [⟨[⟨['c'], none⟩]⟩]
    @parse asciiAlphabet ['(', 'a', ' ', '>', ' ', 'b', ')', ' ', '|', '|', ' ', 'c'] = .ok p ∧
      @parse asciiAlphabet (display p) = .ok q ∧ p.eval contexts = true ∧ q.eval contexts = false := by
  refine ⟨rfl, ?_, by decide, by decide⟩
  have named : @Named asciiAlphabet (.or (descendant (identifier ['a']) (identifier ['b'])) (identifier ['c'])) :=
    ⟨⟨.inl ⟨'a', [], rfl, rfl, nofun⟩, .inl ⟨'b', [], rfl, rfl, nofun⟩⟩, .inl ⟨'c', [], rfl, rfl, nofun⟩⟩
  exact @parse_display asciiAlphabet _ named

end Pinrail.Keymap

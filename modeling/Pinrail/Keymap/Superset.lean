import Pinrail.Keymap.Context

/-!
# Supersets of predicates

`is_superset` compares two predicates by their syntax: it looks for an operand of the one among the
parts of the other, at its own depth and below its ancestors. A part below an ancestor is true of the
inner contexts only, where the ancestors are taken away.
-/

namespace Pinrail.Keymap
namespace KeyBindingContextPredicate

def isSuperset (self other : KeyBindingContextPredicate) : Bool :=
  if self = other then true
  else
    match self with
    | .or left right => left.isSuperset other || right.isSuperset other
    | self =>
      match other with
      | descendant _ child => self.isSuperset child
      | .and left right => self.isSuperset left || self.isSuperset right
      | _ => false
termination_by (sizeOf self, sizeOf other)

theorem isSuperset_refl (p : KeyBindingContextPredicate) : p.isSuperset p = true := by
  rw [isSuperset.eq_def, if_pos rfl]

/-! ## The parts that are compared -/

/-- The predicate and the operands of the `||` at its top. -/
def alternatives : KeyBindingContextPredicate → List KeyBindingContextPredicate
  | .or left right => .or left right :: (left.alternatives ++ right.alternatives)
  | p => [p]

/-- The operands of the `||` at the top that are none themselves. -/
def disjuncts : KeyBindingContextPredicate → List KeyBindingContextPredicate
  | .or left right => left.disjuncts ++ right.disjuncts
  | p => [p]

/-- The predicate and the operands of the `&&` at its top. -/
def conjuncts : KeyBindingContextPredicate → List KeyBindingContextPredicate
  | .and left right => .and left right :: (left.conjuncts ++ right.conjuncts)
  | p => [p]

/-- The parts that stand below an ancestor. -/
def lowered : KeyBindingContextPredicate → List KeyBindingContextPredicate
  | descendant _ child => child.conjuncts ++ child.lowered
  | .and left right => left.lowered ++ right.lowered
  | _ => []

def parts (p : KeyBindingContextPredicate) : List KeyBindingContextPredicate := p.conjuncts ++ p.lowered

theorem mem_alternatives_self (p : KeyBindingContextPredicate) : p ∈ p.alternatives := by
  cases p <;> exact List.mem_cons_self

theorem mem_conjuncts_self (p : KeyBindingContextPredicate) : p ∈ p.conjuncts := by
  cases p <;> exact List.mem_cons_self

theorem evalInner_of_alternative {p part : KeyBindingContextPredicate} (member : part ∈ p.alternatives)
    {contexts allContexts : List KeyContext} (holds : part.evalInner contexts allContexts = true) :
    p.evalInner contexts allContexts = true := by
  induction p with
  | or left right ihLeft ihRight =>
    rw [alternatives, List.mem_cons, List.mem_append] at member
    rcases member with rfl | member | member
    · exact holds
    · rw [evalInner_or, ihLeft member, Bool.true_or]
    · rw [evalInner_or, ihRight member, Bool.or_true]
  | _ => rwa [← List.mem_singleton.mp member]

theorem evalInner_of_conjunct {q part : KeyBindingContextPredicate} (member : part ∈ q.conjuncts)
    {contexts allContexts : List KeyContext} (holds : q.evalInner contexts allContexts = true) :
    part.evalInner contexts allContexts = true := by
  induction q with
  | and left right ihLeft ihRight =>
    rw [conjuncts, List.mem_cons, List.mem_append] at member
    rcases member with rfl | member
    · exact holds
    · rw [evalInner_and, Bool.and_eq_true] at holds
      rcases member with member | member
      · exact ihLeft member holds.1
      · exact ihRight member holds.2
  | _ => rwa [List.mem_singleton.mp member]

theorem exists_inner {q part : KeyBindingContextPredicate} (member : part ∈ q.lowered)
    {contexts allContexts : List KeyContext} (holds : q.evalInner contexts allContexts = true) :
    ∃ outer inner, contexts = outer ++ inner ∧ part.eval inner = true := by
  induction q generalizing contexts allContexts with
  | descendant parent child _ ih =>
    rw [evalInner_descendant_iff] at holds
    obtain ⟨i, -, -, -, holds⟩ := holds
    rcases List.mem_append.mp member with member | member
    · exact ⟨_, _, (List.take_append_drop (i + 1) contexts).symm, evalInner_of_conjunct member holds⟩
    · obtain ⟨outer, inner, cut, inside⟩ := ih member holds
      refine ⟨contexts.take (i + 1) ++ outer, inner, ?_, inside⟩
      rw [List.append_assoc, ← cut, List.take_append_drop]
  | and left right ihLeft ihRight =>
    rw [evalInner_and, Bool.and_eq_true] at holds
    rcases List.mem_append.mp member with member | member
    · exact ihLeft member holds.1
    · exact ihRight member holds.2
  | _ => cases member

theorem isSuperset_parts {p q : KeyBindingContextPredicate} (superset : p.isSuperset q = true) :
    (∃ part ∈ p.alternatives, part ∈ q.conjuncts) ∨ ∃ part ∈ p.disjuncts, part ∈ q.lowered := by
  induction p, q using isSuperset.induct with
  | case1 p => exact .inl ⟨p, mem_alternatives_self p, mem_conjuncts_self p⟩
  | case2 q left right different ihLeft ihRight =>
    rw [isSuperset, if_neg different, Bool.or_eq_true] at superset
    rcases superset with superset | superset
    · refine (ihLeft superset).imp ?_ ?_
      · rintro ⟨part, member, found⟩
        exact ⟨part, List.mem_cons_of_mem _ (List.mem_append_left _ member), found⟩
      · rintro ⟨part, member, found⟩
        exact ⟨part, List.mem_append_left _ member, found⟩
    · refine (ihRight superset).imp ?_ ?_
      · rintro ⟨part, member, found⟩
        exact ⟨part, List.mem_cons_of_mem _ (List.mem_append_right _ member), found⟩
      · rintro ⟨part, member, found⟩
        exact ⟨part, List.mem_append_right _ member, found⟩
  | case3 p notOr parent child different ih =>
    have same : p.alternatives = p.disjuncts := by
      cases p <;> first | rfl | exact absurd rfl (notOr _ _)
    rw [isSuperset, if_neg different] at superset
    · rcases ih superset with ⟨part, member, found⟩ | ⟨part, member, found⟩
      · exact .inr ⟨part, same ▸ member, List.mem_append_left _ found⟩
      · exact .inr ⟨part, member, List.mem_append_right _ found⟩
    · exact notOr
  | case4 p notOr left right different ihLeft ihRight =>
    rw [isSuperset, if_neg different, Bool.or_eq_true] at superset
    · rcases superset with superset | superset
      · refine (ihLeft superset).imp ?_ ?_
        · rintro ⟨part, member, found⟩
          exact ⟨part, member, List.mem_cons_of_mem _ (List.mem_append_left _ found)⟩
        · rintro ⟨part, member, found⟩
          exact ⟨part, member, List.mem_append_left _ found⟩
      · refine (ihRight superset).imp ?_ ?_
        · rintro ⟨part, member, found⟩
          exact ⟨part, member, List.mem_cons_of_mem _ (List.mem_append_right _ found)⟩
        · rintro ⟨part, member, found⟩
          exact ⟨part, member, List.mem_append_right _ found⟩
    · exact notOr
  | case5 q p notOr notDescendant notAnd different =>
    rw [isSuperset, if_neg different] at superset
    · cases superset
    · exact notOr
    · exact notDescendant
    · exact notAnd

theorem isSuperset_of_part {p q : KeyBindingContextPredicate} (notOr : ∀ left right, p = .or left right → False)
    (member : p ∈ q.parts) : p.isSuperset q = true := by
  by_cases same : p = q
  · rw [same]
    exact isSuperset_refl q
  · induction q with
    | descendant parent child _ ih =>
      rw [isSuperset, if_neg same]
      · have below : p ∈ child.parts := by
          simpa [parts, conjuncts, lowered, same] using member
        by_cases here : p = child
        · rw [here]
          exact isSuperset_refl child
        · exact ih below here
      · exact notOr
    | and left right ihLeft ihRight =>
      have below : p ∈ left.parts ∨ p ∈ right.parts := by
        simp only [parts, conjuncts, lowered, List.mem_append, List.mem_cons, same, false_or] at member ⊢
        tauto
      rw [isSuperset, if_neg same, Bool.or_eq_true]
      · refine below.imp (fun below => ?_) fun below => ?_
        · by_cases here : p = left
          · rw [here]
            exact isSuperset_refl left
          · exact ihLeft below here
        · by_cases here : p = right
          · rw [here]
            exact isSuperset_refl right
          · exact ihRight below here
      · exact notOr
    | _ => exact absurd (by simpa [parts, conjuncts, lowered] using member) same

theorem isSuperset_of_lowered {p q part : KeyBindingContextPredicate} (operand : part ∈ p.disjuncts)
    (member : part ∈ q.lowered) : p.isSuperset q = true := by
  have below : part ∈ q.parts := List.mem_append_right _ member
  induction p with
  | or left right ihLeft ihRight =>
    rw [isSuperset]
    split_ifs with same
    · rfl
    · rw [Bool.or_eq_true]
      exact (List.mem_append.mp operand).imp ihLeft ihRight
  | _ =>
    obtain rfl := List.mem_singleton.mp operand
    exact isSuperset_of_part nofun below

/-! ## When a superset is one -/

/-- Where an operand of `p` stands below an ancestor in `q`, contexts that `q` allows around a stack
on which the operand is true leave `p` true. -/
def Encloses (p q : KeyBindingContextPredicate) : Prop :=
  ∀ part ∈ p.disjuncts, part ∈ q.lowered → ∀ outer inner, q.eval (outer ++ inner) = true →
    part.eval inner = true → p.eval (outer ++ inner) = true

end KeyBindingContextPredicate
end Pinrail.Keymap

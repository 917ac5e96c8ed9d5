import Pinrail.Keymap.Parsing
import Pinrail.Lib.Loop

/-!
# Acceptance

The parser runs to its end on every string, and accepts what the grammar derives.
-/

namespace Pinrail.Keymap
open Lib KeyBindingContextPredicate

section Accepted
variable [Alphabet]

/-! ## Fuel -/

abbrev outOfFuel : Failure := .panic .outOfFuel

structure Stable (fuel : Nat) : Prop where
  primary (source : Str) : Approximates outOfFuel (parsePrimaryFor fuel source) (parsePrimaryFor (fuel + 1) source)
  expr (source : Str) (minPrecedence : Nat) : Approximates outOfFuel
    (parseExprFor fuel source minPrecedence) (parseExprFor (fuel + 1) source minPrecedence)
  again (p : KeyBindingContextPredicate) (source : Str) (minPrecedence : Nat) : Approximates outOfFuel
    (parseLoopFor fuel p source minPrecedence) (parseLoopFor (fuel + 1) p source minPrecedence)

theorem stable_primary {fuel : Nat} (stable : Stable fuel) (source : Str) :
    Approximates outOfFuel (parsePrimaryFor (fuel + 1) source) (parsePrimaryFor (fuel + 2) source) := by
  cases source with
  | nil => exact .refl
  | cons c tail =>
    by_cases isOpen : c = '('
    · subst isOpen
      rw [parsePrimaryFor_open, parsePrimaryFor_open]
      exact (stable.expr _ _).bind fun _ => .refl
    · by_cases isNot : c = '!'
      · subst isNot
        rw [parsePrimaryFor_not, parsePrimaryFor_not]
        exact (stable.expr _ _).bind fun _ => .refl
      · rw [parsePrimaryFor, parsePrimaryFor, if_neg isOpen, if_neg isNot, if_neg isOpen, if_neg isNot]
        exact .refl

theorem stable (fuel : Nat) : Stable fuel := by
  induction fuel with
  | zero => exact ⟨fun _ => .stopped, fun _ _ => .stopped, fun _ _ _ => .stopped⟩
  | succ fuel ih =>
    refine ⟨stable_primary ih, ?_, ?_⟩
    · intro source minPrecedence
      rw [parseExprFor, parseExprFor]
      exact (ih.primary source).bind fun result => ih.again result.1 result.2 minPrecedence
    · intro p source minPrecedence
      rcases noOperator_or minPrecedence source with nothing | ⟨operator, member, le, tail, at_⟩
      · rw [parseLoopFor_of_noOperator _ nothing, parseLoopFor_of_noOperator _ nothing]
        exact .refl
      · rw [parseLoopFor_of_at _ member at_ le, parseLoopFor_of_at _ member at_ le]
        exact (ih.expr _ _).bind fun right => Approximates.refl.bind fun made => ih.again _ _ _

theorem parsePrimaryFor_mono {less more : Nat} (le : less ≤ more) {source : Str}
    {result : KeyBindingContextPredicate × Str} (parsed : parsePrimaryFor less source = .ok result) :
    parsePrimaryFor more source = .ok result :=
  (Approximates.of_le (fun fuel => (stable fuel).primary source) le).eq_ok parsed

theorem parseExprFor_mono {less more : Nat} (le : less ≤ more) {source : Str} {minPrecedence : Nat} :
    Approximates outOfFuel (parseExprFor less source minPrecedence) (parseExprFor more source minPrecedence) :=
  Approximates.of_le (fun fuel => (stable fuel).expr source minPrecedence) le

theorem parseLoopFor_mono {less more : Nat} (le : less ≤ more) {p : KeyBindingContextPredicate}
    {source : Str} {minPrecedence : Nat} {result : KeyBindingContextPredicate × Str}
    (parsed : parseLoopFor less p source minPrecedence = .ok result) :
    parseLoopFor more p source minPrecedence = .ok result :=
  (Approximates.of_le (fun fuel => (stable fuel).again p source minPrecedence) le).eq_ok parsed

/-! ## Termination -/

/-- No panic, and fewer than `bound` characters are left. -/
def Leaves (bound : Nat) : Parsed (KeyBindingContextPredicate × Str) → Prop
  | .ok result => result.2.length < bound
  | .error (.error _) => True
  | .error (.panic _) => False

omit [Alphabet] in
theorem Leaves.bind {bound smaller : Nat} {x : Parsed (KeyBindingContextPredicate × Str)}
    {next : KeyBindingContextPredicate × Str → Parsed (KeyBindingContextPredicate × Str)} (first : Leaves smaller x)
    (then_ : ∀ result, result.2.length < smaller → Leaves bound (next result)) : Leaves bound (x >>= next) := by
  cases x with
  | ok result => exact then_ result first
  | error failure =>
    cases failure with
    | error e => trivial
    | panic panic => exact first.elim

omit [Alphabet] in
theorem Leaves.mono {bound larger : Nat} {x : Parsed (KeyBindingContextPredicate × Str)}
    (leaves : Leaves bound x) (le : bound ≤ larger) : Leaves larger x := by
  cases x with
  | ok result => exact Nat.lt_of_lt_of_le leaves le
  | error failure =>
    cases failure with
    | error e => trivial
    | panic panic => exact leaves.elim

omit [Alphabet] in
theorem construct_fails {operator : Operator} (member : operator ∈ operators) (p q : KeyBindingContextPredicate) :
    (∃ made, operator.construct p q = .ok made) ∨ ∃ e, operator.construct p q = .error (.error e) := by
  simp only [operators, List.mem_cons, List.not_mem_nil, or_false] at member
  rcases member with rfl | rfl | rfl | rfl | rfl
  · exact .inl ⟨_, rfl⟩
  · exact .inl ⟨_, rfl⟩
  · exact .inl ⟨_, rfl⟩
  · cases p with
    | identifier left =>
      cases q with
      | identifier right => exact .inl ⟨_, rfl⟩
      | _ => exact .inr ⟨_, rfl⟩
    | _ => exact .inr ⟨_, rfl⟩
  · cases p with
    | identifier left =>
      cases q with
      | identifier right => exact .inl ⟨_, rfl⟩
      | _ => exact .inr ⟨_, rfl⟩
    | _ => exact .inr ⟨_, rfl⟩

omit [Alphabet] in
theorem skip_length_le (source : Str) : (skip source).length ≤ source.length := List.length_dropWhile_le _ _

omit [Alphabet] in
theorem close_leaves {result : KeyBindingContextPredicate × Str} {bound : Nat}
    (shorter : result.2.length < bound) : Leaves bound (close result) := by
  unfold close
  split
  · rename_i stripped same
    have bounded := skip_length_le stripped
    rw [same, List.length_cons] at shorter
    simp only [Leaves]
    omega
  · trivial

structure Terminates (fuel : Nat) : Prop where
  primary (source : Str) (enough : 2 * source.length + 1 ≤ fuel) : Leaves source.length (parsePrimaryFor fuel source)
  expr (source : Str) (minPrecedence : Nat) (enough : 2 * source.length + 2 ≤ fuel) :
    Leaves source.length (parseExprFor fuel source minPrecedence)
  again (p : KeyBindingContextPredicate) (source : Str) (minPrecedence : Nat) (enough : 2 * source.length + 1 ≤ fuel) :
    Leaves (source.length + 1) (parseLoopFor fuel p source minPrecedence)

theorem terminates_primary {fuel : Nat} (terminates : Terminates fuel) (source : Str)
    (enough : 2 * source.length + 1 ≤ fuel + 1) : Leaves source.length (parsePrimaryFor (fuel + 1) source) := by
  cases source with
  | nil => trivial
  | cons c tail =>
    have skipped := skip_length_le tail
    rw [List.length_cons] at enough ⊢
    by_cases isOpen : c = '('
    · subst isOpen
      rw [parsePrimaryFor_open]
      refine (terminates.expr (skip tail) 0 (by omega)).bind fun result shorter => ?_
      exact close_leaves (by omega)
    · by_cases isNot : c = '!'
      · subst isNot
        rw [parsePrimaryFor_not]
        refine (terminates.expr (skip tail) _ (by omega)).bind fun result shorter => ?_
        simp only [Leaves]
        omega
      · by_cases starts : isIdentifierChar c = true
        · rw [parsePrimaryFor_identifier fuel starts]
          have named : inName c = true := by rw [inName, starts, Bool.true_or]
          have bounded := skip_length_le (List.dropWhile inName tail)
          have rest := List.length_dropWhile_le inName tail
          rw [List.dropWhile_cons, if_pos named]
          simp only [Leaves]
          omega
        · by_cases vim : isVimOperatorChar c = true
          · rw [parsePrimaryFor_vim fuel vim]
            simp only [Leaves]
            omega
          · rw [parsePrimaryFor, if_neg isOpen, if_neg isNot, if_neg starts, if_neg vim]
            trivial

omit [Alphabet] in
theorem KeyBindingContextPredicate.Operator.At.length {operator : Operator} (member : operator ∈ operators) {source tail : Str}
    (at_ : operator.At source tail) : tail.length < source.length := by
  obtain rfl := at_
  simp only [operators, List.mem_cons, List.not_mem_nil, or_false] at member
  rcases member with rfl | rfl | rfl | rfl | rfl <;> simp only [List.length_append, List.length_cons] <;> omega

theorem terminates (fuel : Nat) : Terminates fuel := by
  induction fuel with
  | zero => exact ⟨nofun, nofun, nofun⟩
  | succ fuel ih =>
    refine ⟨terminates_primary ih, ?_, ?_⟩
    · intro source minPrecedence enough
      rw [parseExprFor]
      refine (ih.primary source (by omega)).bind fun result shorter => ?_
      refine (ih.again result.1 result.2 minPrecedence (by omega)).mono ?_
      omega
    · intro p source minPrecedence enough
      rcases noOperator_or minPrecedence source with nothing | ⟨operator, member, le, tail, at_⟩
      · rw [parseLoopFor_of_noOperator _ nothing]
        exact Nat.lt_succ_self _
      · rw [parseLoopFor_of_at _ member at_ le]
        have shorter := at_.length member
        have skipped := skip_length_le tail
        refine (ih.expr (skip tail) _ (by omega)).bind fun right bounded => ?_
        rcases construct_fails member p right.1 with ⟨made, constructed⟩ | ⟨e, failed⟩
        · rw [constructed, ok_bind]
          refine (ih.again made right.2 minPrecedence (by omega)).mono ?_
          omega
        · rw [failed]
          trivial

/-! ## Completeness -/

omit [Alphabet] in
theorem NoOperator.of_at {operator : Operator} (member : operator ∈ operators) {source tail : Str}
    (at_ : operator.At source tail) {level : Nat} (above : operator.precedence < level) : NoOperator level source := by
  intro other memberOther le tailOther atOther
  obtain ⟨rfl, -⟩ := operator_eq_of_at member memberOther at_ atOther
  omega

omit [Alphabet] in
theorem NoOperator.mono {less more : Nat} {source : Str} (nothing : NoOperator less source)
    (le : less ≤ more) : NoOperator more source :=
  fun operator member atLeast => nothing operator member (le.trans atLeast)

omit [Alphabet] in
theorem noOperator_close {level : Nat} (tail : Str) : NoOperator level (')' :: tail) := by
  intro operator member _ rest at_
  unfold Operator.At at at_
  simp only [operators, List.mem_cons, List.not_mem_nil, or_false] at member
  rcases member with rfl | rfl | rfl | rfl | rfl <;> cases at_

omit [Alphabet] in
theorem noOperator_nil {level : Nat} : NoOperator level [] := by
  intro operator member _ rest at_
  unfold Operator.At at at_
  simp only [operators, List.mem_cons, List.not_mem_nil, or_false] at member
  rcases member with rfl | rfl | rfl | rfl | rfl <;> cases at_

/-- With some fuel, `parse_expr` returns the result. -/
def Parses (source : Str) (minPrecedence : Nat) (result : KeyBindingContextPredicate × Str) : Prop :=
  ∃ fuel, parseExprFor fuel source minPrecedence = .ok result

/-- With some fuel, the loop of `parse_expr` returns the result. -/
def Continues (p : KeyBindingContextPredicate) (source : Str) (minPrecedence : Nat)
    (result : KeyBindingContextPredicate × Str) : Prop :=
  ∃ fuel, parseLoopFor fuel p source minPrecedence = .ok result

theorem Continues.done {p : KeyBindingContextPredicate} {source : Str} {minPrecedence : Nat}
    (nothing : NoOperator minPrecedence source) : Continues p source minPrecedence (p, source) :=
  ⟨1, parseLoopFor_of_noOperator 0 nothing⟩

theorem Continues.operator {operator : Operator} (member : operator ∈ operators) {source tail middle : Str}
    {minPrecedence : Nat} {p q made : KeyBindingContextPredicate} {result : KeyBindingContextPredicate × Str}
    (at_ : operator.At source tail) (le : minPrecedence ≤ operator.precedence)
    (right : Parses (skip tail) (operator.precedence + 1) (q, middle)) (constructed : operator.construct p q = .ok made)
    (continues : Continues made middle minPrecedence result) : Continues p source minPrecedence result := by
  obtain ⟨fuelRight, right⟩ := right
  obtain ⟨fuelRest, continues⟩ := continues
  refine ⟨max fuelRight fuelRest + 1, ?_⟩
  rw [parseLoopFor_of_at _ member at_ le,
    (parseExprFor_mono (le_max_left fuelRight fuelRest)).eq_ok right, ok_bind, constructed, ok_bind]
  exact parseLoopFor_mono (le_max_right fuelRight fuelRest) continues

theorem Parses.of_primary (fuel : Nat) {source middle : Str} {minPrecedence : Nat} {p : KeyBindingContextPredicate}
    {result : KeyBindingContextPredicate × Str} (primary : parsePrimaryFor fuel source = .ok (p, middle))
    (continues : Continues p middle minPrecedence result) : Parses source minPrecedence result := by
  obtain ⟨fuelRest, continues⟩ := continues
  refine ⟨max fuel fuelRest + 1, ?_⟩
  rw [parseExprFor, parsePrimaryFor_mono (le_max_left fuel fuelRest) primary, ok_bind]
  exact parseLoopFor_mono (le_max_right fuel fuelRest) continues

/-- Where the tokens of a tree are read, `parse_expr` comes to the end of them with the tree made. -/
def Reached (level : Nat) (tokens : List Token) (p : KeyBindingContextPredicate) : Prop :=
  ∀ source rest minPrecedence result, Reads tokens source rest → minPrecedence ≤ level →
    NoOperator (level + 1) rest → Continues p rest minPrecedence result → Parses source minPrecedence result

theorem Reached.looser {loose tight : Nat} {tokens : List Token} {p : KeyBindingContextPredicate}
    (reached : Reached tight tokens p) (le : loose ≤ tight) : Reached loose tokens p :=
  fun source rest minPrecedence result reads atMost tighter continues =>
    reached source rest minPrecedence result reads (atMost.trans le) (tighter.mono (by omega)) continues

theorem Reached.parses {level : Nat} {tokens : List Token} {p : KeyBindingContextPredicate}
    (reached : Reached level tokens p) {source rest : Str} (reads : Reads tokens source rest) {minPrecedence : Nat}
    (le : minPrecedence ≤ level) (nothing : NoOperator minPrecedence rest) : Parses source minPrecedence (p, rest) :=
  reached source rest minPrecedence (p, rest) reads le (nothing.mono (by omega)) (.done nothing)

theorem Reads.token {token : Token} {tokens : List Token} {source rest : Str}
    (reads : Reads (token :: tokens) source rest) :
    ∃ tail, source = token.text ++ tail ∧ token.Valid ∧ token.EndsAt tail ∧ Reads tokens (skip tail) rest := by
  cases reads with
  | cons valid ends reads => exact ⟨_, rfl, valid, ends, reads⟩

theorem Reached.operator {operator : Operator} (member : operator ∈ operators) {token : Token}
    (text : token.text = operator.text) {front back : List Token} {p q made : KeyBindingContextPredicate}
    (left : Reached operator.precedence front p) (right : Reached (operator.precedence + 1) back q)
    (constructed : operator.construct p q = .ok made) : Reached operator.precedence (front ++ token :: back) made := by
  intro source rest minPrecedence result reads atMost tighter continues
  obtain ⟨middle, first, second⟩ := reads.split
  obtain ⟨tail, same, -, -, second⟩ := second.token
  have at_ : operator.At middle tail := by rw [Operator.At, same, text]
  refine left source middle minPrecedence result first atMost (.of_at member at_ (Nat.lt_succ_self _)) ?_
  exact .operator member at_ atMost (right.parses second (Nat.le_refl _) tighter) constructed continues

theorem identifier_read {name tail : Str} (valid : (Token.identifier name).Valid)
    (ends : (Token.identifier name).EndsAt tail) :
    parsePrimaryFor 1 (name ++ tail) = .ok (identifier name, skip tail) := by
  rcases valid with ⟨c, rest, rfl, starts, named⟩ | ⟨c, rfl, vim⟩
  · have stops := ends fun d first => by
      obtain rfl := Option.some.inj first
      exact starts
    have all : ∀ d ∈ c :: rest, inName d = true := by
      intro d member
      rcases List.mem_cons.mp member with rfl | member
      · rw [inName, starts, Bool.true_or]
      · exact named d member
    have none : tail.takeWhile inName = [] ∧ tail.dropWhile inName = tail := by
      cases tail with
      | nil => exact ⟨rfl, rfl⟩
      | cons d tail =>
        have stop := stops d rfl
        exact ⟨by rw [List.takeWhile_cons, if_neg (by simp [stop])],
          by rw [List.dropWhile_cons, if_neg (by simp [stop])]⟩
    rw [List.cons_append, parsePrimaryFor_identifier 0 starts, ← List.cons_append,
      List.takeWhile_append_of_pos all, List.dropWhile_append_of_pos all, none.1, none.2, List.append_nil]
  · exact parsePrimaryFor_vim 0 vim tail

theorem reached_identifier (name : Str) : Reached PRECEDENCE_NOT [.identifier name] (identifier name) := by
  intro source rest minPrecedence result reads _ _ continues
  obtain ⟨tail, rfl, valid, ends, reads⟩ := reads.token
  cases reads
  exact .of_primary 1 (identifier_read valid ends) continues

theorem reached_paren {tokens : List Token} {p : KeyBindingContextPredicate}
    (inner : Reached PRECEDENCE_CHILD tokens p) : Reached PRECEDENCE_NOT (.openParen :: tokens ++ [.closeParen]) p := by
  intro source rest minPrecedence result reads _ _ continues
  obtain ⟨tail, rfl, -, -, reads⟩ := reads.token
  obtain ⟨middle, inside, last⟩ := reads.split
  obtain ⟨stripped, rfl, -, -, last⟩ := last.token
  cases last
  obtain ⟨fuel, parsed⟩ := inner.parses inside (Nat.zero_le _) (noOperator_close stripped)
  refine .of_primary (fuel + 1) ?_ continues
  rw [Token.text, List.singleton_append, parsePrimaryFor_open, parsed, ok_bind]
  rfl

theorem reached_not {tokens : List Token} {p : KeyBindingContextPredicate}
    (operand : Reached PRECEDENCE_NOT tokens p) : Reached PRECEDENCE_NOT (.not :: tokens) (not p) := by
  intro source rest minPrecedence result reads _ _ continues
  obtain ⟨tail, rfl, -, -, reads⟩ := reads.token
  obtain ⟨fuel, parsed⟩ := operand.parses reads (Nat.le_refl _) (noOperator_of_lt (by decide) rest)
  refine .of_primary (fuel + 1) ?_ continues
  rw [Token.text, List.singleton_append, parsePrimaryFor_not, parsed, ok_bind]

theorem Operand.reached {tokens : List Token} {name : Str} (operand : Operand tokens name) :
    Reached PRECEDENCE_NOT tokens (.identifier name) := by
  induction operand with
  | identifier => exact reached_identifier _
  | paren operand ih => exact reached_paren (ih.looser (by decide))

theorem Derives.reached {nonterminal : Nonterminal} {tokens : List Token} {p : KeyBindingContextPredicate}
    (derives : Derives nonterminal tokens p) : Reached nonterminal.precedence tokens p := by
  induction derives with
  | childOr first ih => exact ih.looser (by decide)
  | child left right first second => exact .operator (.head _) rfl first second rfl
  | orAnd first ih => exact ih.looser (by decide)
  | or left right first second => exact .operator (.tail _ (.tail _ (.head _))) rfl first second rfl
  | andEq first ih => exact ih.looser (by decide)
  | and left right first second => exact .operator (.tail _ (.head _)) rfl first second rfl
  | eq first second =>
    exact .operator (.tail _ (.tail _ (.tail _ (.head _)))) rfl (first.reached.looser (by decide)) second.reached rfl
  | neq first second =>
    exact .operator (.tail _ (.tail _ (.tail _ (.tail _ (.head _))))) rfl
      (first.reached.looser (by decide)) second.reached rfl
  | eqUnary first ih => exact ih.looser (by decide)
  | not operand ih => exact reached_not ih
  | paren inner ih => exact reached_paren ih
  | identifier => exact reached_identifier _

/-! ## The whole string -/

theorem parseExpr_iff {source : Str} {minPrecedence : Nat} {result : KeyBindingContextPredicate × Str} :
    parseExpr source minPrecedence = .ok result ↔ Parses source minPrecedence result := by
  constructor
  · intro parsed
    exact ⟨parseFuel source, parsed⟩
  · rintro ⟨fuel, parsed⟩
    have most := (parseExprFor_mono (Nat.le_add_right fuel (parseFuel source))).eq_ok parsed
    have ends := (terminates (parseFuel source)).expr source minPrecedence (Nat.le_refl _)
    have less : Approximates outOfFuel (parseExprFor (parseFuel source) source minPrecedence)
        (parseExprFor (fuel + parseFuel source) source minPrecedence) :=
      parseExprFor_mono (Nat.le_add_left _ _)
    rcases less with stopped | same
    · rw [stopped] at ends
      exact ends.elim
    · rw [parseExpr, same, most]

theorem parseExpr_ne_panic (source : Str) (minPrecedence : Nat) (panic : Panic) :
    parseExpr source minPrecedence ≠ .error (.panic panic) := by
  intro panics
  have ends := (terminates (parseFuel source)).expr source minPrecedence (Nat.le_refl _)
  rw [parseExpr] at panics
  rw [panics] at ends
  exact ends.elim

theorem parse_eq_ok {source : Str} {p : KeyBindingContextPredicate} :
    parse source = .ok p ↔ parseExpr (skip source) 0 = .ok (p, []) := by
  rw [parse, skipWhitespace_eq, ok_bind]
  constructor
  · intro parsed
    obtain ⟨⟨made, rest⟩, expr, parsed⟩ := bind_eq_ok.mp parsed
    cases rest with
    | cons next rest => cases parsed
    | nil =>
      cases parsed
      exact expr
  · intro expr
    rw [expr]
    rfl

theorem parse_ne_panic (source : Str) (panic : Panic) : parse source ≠ .error (.panic panic) := by
  intro panics
  rw [parse, skipWhitespace_eq, ok_bind] at panics
  cases expr : parseExpr (skip source) 0 with
  | ok result =>
    rw [expr, ok_bind] at panics
    obtain ⟨made, rest⟩ := result
    cases rest with
    | nil => cases panics
    | cons next rest => cases panics
  | error failure =>
    rw [expr] at panics
    cases panics
    exact parseExpr_ne_panic _ _ panic expr

theorem parse_ok_iff {source : Str} {p : KeyBindingContextPredicate} :
    parse source = .ok p ↔ ∃ tokens, Spells True tokens source ∧ Derives .child tokens p := by
  rw [parse_eq_ok]
  constructor
  · intro parsed
    obtain ⟨tokens, reads, derives, -⟩ := (sound (parseFuel (skip source))).expr (Nat.zero_le _) parsed
    exact ⟨tokens, spells_iff.mpr reads, derives⟩
  · rintro ⟨tokens, spells, derives⟩
    exact parseExpr_iff.mpr (derives.reached.parses (spells_iff.mp spells) (Nat.zero_le _) noOperator_nil)

/-- `parse` accepts exactly the strings whose tokens, with identifiers read as far as they go, the
grammar derives, and returns the tree of the grammar; it panics on no string. -/
theorem parse_grammar (source : Str) :
    (∀ p, parse source = .ok p ↔ ∃ tokens, Spells True tokens source ∧ Derives .child tokens p) ∧ ∀ panic,
    parse source ≠ .error (.panic panic) :=
  ⟨fun _ => parse_ok_iff, parse_ne_panic source⟩

end Accepted

/-- Without a space before it, `>` is read as a part of the identifier. -/
theorem parse_childAfterIdentifier : (∃ tokens, @Spells asciiAlphabet False tokens ['a', '>', ' ', 'b'] ∧
      Derives .child tokens (descendant (identifier ['a']) (identifier ['b']))) ∧
      @parse asciiAlphabet ['a', '>', ' ', 'b'] = .error (.error (.unexpectedCharacter 'b')) := by
  let _ := asciiAlphabet
  refine ⟨⟨[.identifier ['a'], .child, .identifier ['b']], ?_, ?_⟩, rfl⟩
  · have last : @Spells asciiAlphabet False [.identifier ['b']] ([' '] ++ ['b'] ++ []) :=
      .cons (by simp [isWhitespace]) (.inl ⟨'b', [], rfl, by decide, by simp⟩) (by simp) (.nil (by simp))
    have middle : @Spells asciiAlphabet False [.child, .identifier ['b']] ([] ++ ['>'] ++ [' ', 'b']) :=
      .cons (by simp) trivial (by simp) last
    have valid : (Token.identifier ['a']).Valid := .inl ⟨'a', [], rfl, by decide, by simp⟩
    have whole : @Spells asciiAlphabet False [.identifier ['a'], .child, .identifier ['b']]
        ([] ++ ['a'] ++ ['>', ' ', 'b']) := .cons (by simp) valid (by simp) middle
    exact whole
  · have left : Derives .child [.identifier ['a']] (identifier ['a']) :=
      .childOr (.orAnd (.andEq (.eqUnary .identifier)))
    exact .child left (.orAnd (.andEq (.eqUnary .identifier)))

end Pinrail.Keymap

import Mathlib.Data.List.TakeWhile
import Pinrail.Keymap.Grammar
import Pinrail.Lib.Loop

/-!
# What the parser accepts

The precedence climber reads what the grammar derives, with identifiers as long as they can be, and
returns the tree of the grammar.
-/

namespace Pinrail.Keymap
open Lib KeyBindingContextPredicate

variable [Alphabet]

/-! ## The parts of the parser -/

abbrev skip (source : Str) : Str := source.dropWhile isWhitespace

omit [Alphabet] in
theorem skipWhitespace_eq (source : Str) : skipWhitespace source = .ok (skip source) := by
  rw [skipWhitespace, sliceFromByte, splitAtByte_findByte]
  simp only [Bool.not_not]
  rfl

omit [Alphabet] in
theorem slice_operator {operator tail : Str} :
    unwinding (sliceFromByte (operator ++ tail) (byteLen operator)) = .ok tail := by
  rw [sliceFromByte_append]
  rfl

omit [Alphabet] in
theorem slice_char {c : Char} {tail : Str} (size : c.utf8Size = 1) :
    unwinding (sliceFromByte (c :: tail) 1) = .ok tail := by
  have slice : unwinding (sliceFromByte ([c] ++ tail) (byteLen [c])) = .ok tail := slice_operator
  rwa [byteLen, byteLen, size] at slice

def close (inner : KeyBindingContextPredicate × Str) : Parsed (KeyBindingContextPredicate × Str) :=
  match inner.2 with
  | ')' :: stripped => .ok (inner.1, skip stripped)
  | _ => .error (.error .expectedClosing)

theorem parsePrimaryFor_open (fuel : Nat) (tail : Str) :
    parsePrimaryFor (fuel + 1) ('(' :: tail) = parseExprFor fuel (skip tail) 0 >>= close := by
  rw [parsePrimaryFor, if_pos rfl, slice_char (by decide), ok_bind, skipWhitespace_eq, ok_bind]
  simp only [skipWhitespace_eq]
  rfl

theorem parsePrimaryFor_not (fuel : Nat) (tail : Str) :
    parsePrimaryFor (fuel + 1) ('!' :: tail) = parseExprFor fuel (skip tail) PRECEDENCE_NOT >>=
      fun result => .ok (not result.1, result.2) := by
  rw [parsePrimaryFor, if_neg (by decide), if_pos rfl, slice_char (by decide), ok_bind, skipWhitespace_eq, ok_bind]
  rfl

theorem isIdentifierChar_ascii {c : Char} (ascii : c.toNat < 128) :
    isIdentifierChar c = (c.isAlphanum || c == '_' || c == '-') := by
  rw [isIdentifierChar, Alphabet.ascii c ascii]

theorem parsePrimaryFor_identifier (fuel : Nat) {c : Char} (starts : isIdentifierChar c = true) (tail : Str) :
    parsePrimaryFor (fuel + 1)
    (c :: tail) = .ok (identifier ((c :: tail).takeWhile inName), skip ((c :: tail).dropWhile inName)) := by
  have notOpen : c ≠ '(' := by
    rintro rfl
    rw [isIdentifierChar_ascii (by decide)] at starts
    exact absurd starts (by decide)
  have notNot : c ≠ '!' := by
    rintro rfl
    rw [isIdentifierChar_ascii (by decide)] at starts
    exact absurd starts (by decide)
  have stops : (fun c => !(!isIdentifierChar c && !isVimOperatorChar c)) = inName := by
    funext d
    rw [inName, Bool.not_and, Bool.not_not, Bool.not_not]
  rw [parsePrimaryFor, if_neg notOpen, if_neg notNot, if_pos starts]
  simp only [splitAtByte_findByte, stops, unwinding, ok_bind, skipWhitespace_eq]
  rfl

theorem parsePrimaryFor_vim (fuel : Nat) {c : Char} (starts : isVimOperatorChar c = true)
    (tail : Str) : parsePrimaryFor (fuel + 1) (c :: tail) = .ok (identifier [c], skip tail) := by
  have known : c = '>' ∨ c = '<' ∨ c = '~' ∨ c = '"' ∨ c = '?' := by
    simpa [isVimOperatorChar, or_assoc] using starts
  have ascii : c.toNat < 128 := by
    rcases known with rfl | rfl | rfl | rfl | rfl <;> decide
  have size : c.utf8Size = 1 := by
    rcases known with rfl | rfl | rfl | rfl | rfl <;> decide
  have other : isIdentifierChar c = false := by
    rw [isIdentifierChar_ascii ascii]
    rcases known with rfl | rfl | rfl | rfl | rfl <;> decide
  have notOpen : c ≠ '(' := by
    rcases known with rfl | rfl | rfl | rfl | rfl <;> decide
  have notNot : c ≠ '!' := by
    rcases known with rfl | rfl | rfl | rfl | rfl <;> decide
  have split := splitAtByte_append [c] tail
  rw [byteLen, byteLen, size, List.singleton_append] at split
  rw [parsePrimaryFor, if_neg notOpen, if_neg notNot, if_neg (Bool.eq_false_iff.mp other), if_pos starts, split]
  simp only [unwinding, ok_bind, skipWhitespace_eq]
  rfl

def KeyBindingContextPredicate.Operator.At (operator : Operator) (source tail : Str) : Prop :=
  source = operator.text ++ tail

def NoOperator (minPrecedence : Nat) (source : Str) : Prop :=
  ∀ operator ∈ operators, minPrecedence ≤ operator.precedence → ∀ tail, ¬ operator.At source tail

omit [Alphabet] in
theorem isPrefixOf_iff {operator : Operator} {source : Str} :
    operator.text.isPrefixOf source = true ↔ ∃ tail, operator.At source tail := by
  rw [List.isPrefixOf_iff_prefix]
  exact exists_congr fun tail => eq_comm

theorem parseLoopFor_of_noOperator (fuel : Nat) {predicate : KeyBindingContextPredicate}
    {source : Str} {minPrecedence : Nat} (nothing : NoOperator minPrecedence source) :
    parseLoopFor (fuel + 1) predicate source minPrecedence = .ok (predicate, source) := by
  have notFound : operators.find? (fun operator => operator.text.isPrefixOf source &&
      minPrecedence ≤ operator.precedence) = none := by
    rw [List.find?_eq_none]
    intro operator member starts
    rw [Bool.and_eq_true, decide_eq_true_eq, isPrefixOf_iff] at starts
    obtain ⟨⟨tail, at_⟩, le⟩ := starts
    exact nothing operator member le tail at_
  rw [parseLoopFor, notFound]
  rfl

omit [Alphabet] in
theorem operator_eq_of_at {first second : Operator} (memberFirst : first ∈ operators)
    (memberSecond : second ∈ operators) {source tailFirst tailSecond : Str} (atFirst : first.At source tailFirst)
    (atSecond : second.At source tailSecond) : first = second ∧ tailFirst = tailSecond := by
  unfold Operator.At at atFirst atSecond
  subst atFirst
  simp only [operators, List.mem_cons, List.not_mem_nil, or_false] at memberFirst memberSecond
  rcases memberFirst with rfl | rfl | rfl | rfl | rfl <;>
    rcases memberSecond with rfl | rfl | rfl | rfl | rfl <;> simp_all

theorem parseLoopFor_of_at (fuel : Nat) {predicate : KeyBindingContextPredicate} {source tail : Str}
    {minPrecedence : Nat} {operator : Operator} (member : operator ∈ operators)
    (at_ : operator.At source tail) (le : minPrecedence ≤ operator.precedence) :
    parseLoopFor (fuel + 1) predicate source minPrecedence =
      parseExprFor fuel (skip tail) (operator.precedence + 1) >>= fun right =>
        operator.construct predicate right.1 >>= fun predicate =>
          parseLoopFor fuel predicate right.2 minPrecedence := by
  have found : operators.find? (fun operator => operator.text.isPrefixOf source &&
      minPrecedence ≤ operator.precedence) = some operator := by
    cases result : operators.find? (fun operator => operator.text.isPrefixOf source &&
        minPrecedence ≤ operator.precedence) with
    | none =>
      rw [List.find?_eq_none] at result
      exact absurd (by rw [Bool.and_eq_true, decide_eq_true_eq, isPrefixOf_iff]; exact ⟨⟨tail, at_⟩, le⟩)
        (result operator member)
    | some other =>
      have starts := List.find?_some result
      rw [Bool.and_eq_true, isPrefixOf_iff] at starts
      obtain ⟨⟨_, atOther⟩, -⟩ := starts
      rw [(operator_eq_of_at (List.mem_of_find?_eq_some result) member atOther at_).1]
  obtain rfl := at_
  rw [parseLoopFor, found]
  simp only [slice_operator, ok_bind, skipWhitespace_eq]

/-! ## Readings -/

/-- The tokens are what stands before `rest`, with white space skipped after each of them and
identifiers as long as they can be. -/
inductive Reads : List Token → Str → Str → Prop where
  | nil {source : Str} : Reads [] source source
  | cons {token : Token} {tokens : List Token} {tail rest : Str} (valid : token.Valid)
      (ends : token.EndsAt tail) (reads : Reads tokens (skip tail) rest) :
      Reads (token :: tokens) (token.text ++ tail) rest

theorem Reads.append {front back : List Token} {source middle rest : Str} (first : Reads front source middle)
    (second : Reads back middle rest) : Reads (front ++ back) source rest := by
  induction first with
  | nil => exact second
  | cons valid ends reads ih => exact .cons valid ends (ih second)

theorem Reads.split {front back : List Token} {source rest : Str} (reads : Reads (front ++ back) source rest) :
    ∃ middle, Reads front source middle ∧ Reads back middle rest := by
  induction front generalizing source with
  | nil => exact ⟨source, .nil, reads⟩
  | cons token front ih =>
    cases reads with
    | cons valid ends reads =>
      obtain ⟨middle, first, second⟩ := ih reads
      exact ⟨middle, .cons valid ends first, second⟩

theorem Reads.single {token : Token} {tail : Str} (valid : token.Valid) (ends : token.EndsAt tail) :
    Reads [token] (token.text ++ tail) (skip tail) :=
  .cons valid ends .nil

theorem isWhitespace_of_isIdentifierChar {c : Char} (word : isIdentifierChar c = true) : isWhitespace c = false := by
  by_contra blank
  rw [Bool.not_eq_false] at blank
  have other := Alphabet.not_whitespace c blank
  rw [isIdentifierChar, other, Bool.false_or, Bool.or_eq_true, beq_iff_eq, beq_iff_eq] at word
  rcases word with rfl | rfl <;> exact absurd blank (by decide)

theorem Token.Valid.skip_text {token : Token} (valid : token.Valid) (tail : Str) :
    skip (token.text ++ tail) = token.text ++ tail := by
  cases token with
  | identifier name =>
    rcases valid with ⟨c, rest, rfl, starts, -⟩ | ⟨c, rfl, starts⟩
    · have visible := isWhitespace_of_isIdentifierChar starts
      rw [Token.text, List.cons_append, skip, List.dropWhile_cons, if_neg (by simp [visible])]
    · have known : c = '>' ∨ c = '<' ∨ c = '~' ∨ c = '"' ∨ c = '?' := by
        simpa [isVimOperatorChar, or_assoc] using starts
      rcases known with rfl | rfl | rfl | rfl | rfl <;> rfl
  | _ => rfl

omit [Alphabet] in
theorem skip_blank {blank : Str} (blanks : ∀ c ∈ blank, isWhitespace c = true) (tail : Str) :
    skip (blank ++ tail) = skip tail := by
  induction blank with
  | nil => rfl
  | cons c blank ih =>
    rw [List.cons_append, skip, List.dropWhile_cons, if_pos (blanks c List.mem_cons_self)]
    exact ih fun d member => blanks d (List.mem_cons_of_mem c member)

theorem spells_iff {tokens : List Token} {source : Str} :
    Spells True tokens source ↔ Reads tokens (skip source) [] := by
  constructor
  · intro spells
    induction spells with
    | nil blanks =>
      have none := skip_blank blanks []
      rw [List.append_nil] at none
      rw [none]
      exact .nil
    | cons blanks valid ends spells ih =>
      rw [List.append_assoc, skip_blank blanks, valid.skip_text]
      exact .cons valid (ends trivial) ih
  · intro reads
    generalize left : skip source = start at reads
    generalize done : ([] : Str) = rest at reads
    induction reads generalizing source with
    | nil =>
      subst done
      refine .nil fun c member => ?_
      exact List.dropWhile_eq_nil_iff.mp left c member
    | @cons token tokens tail rest valid ends reads ih =>
      have whole : source = source.takeWhile isWhitespace ++ token.text ++ tail := by
        rw [List.append_assoc, ← left]
        exact List.takeWhile_append_dropWhile.symm
      rw [whole]
      exact .cons (fun c member => List.mem_takeWhile_imp member) valid (fun _ => ends) (ih rfl done)

/-! ## Soundness -/

/-- What `parse_expr` reads for a least precedence. -/
def nonterminal : Nat → Nonterminal
  | 0 | 1 => .child
  | 2 => .or
  | 3 => .and
  | 4 => .eq
  | _ => .unary

theorem takeWhile_inName {c : Char} (starts : isIdentifierChar c = true) (tail : Str) :
    (Token.identifier ((c :: tail).takeWhile inName)).Valid ∧
    (Token.identifier ((c :: tail).takeWhile inName)).EndsAt ((c :: tail).dropWhile inName) := by
  have first : inName c = true := by rw [inName, starts, Bool.true_or]
  constructor
  · rw [List.takeWhile_cons, if_pos first]
    exact .inl ⟨c, _, rfl, starts, fun d member => List.mem_takeWhile_imp member⟩
  · intro _ d next
    have stops := List.head?_dropWhile_not inName (c :: tail)
    rw [Option.mem_def.mp next] at stops
    simpa using stops

theorem construct_sound {operator : Operator} (member : operator ∈ operators) {front back : List Token}
    {p q made : KeyBindingContextPredicate} (left : Derives (nonterminal operator.precedence) front p)
    (right : Derives (nonterminal (operator.precedence + 1)) back q) (constructed : operator.construct p q = .ok made) :
    ∃ token : Token, token.text = operator.text ∧ token.Valid ∧ (∀ tail, token.EndsAt tail) ∧
    Derives (nonterminal operator.precedence) (front ++ token :: back) made := by
  simp only [operators, List.mem_cons, List.not_mem_nil, or_false] at member
  rcases member with rfl | rfl | rfl | rfl | rfl
  · cases constructed
    exact ⟨.child, rfl, trivial, fun _ => trivial, .child left right⟩
  · cases constructed
    exact ⟨.and, rfl, trivial, fun _ => trivial, .and left right⟩
  · cases constructed
    exact ⟨.or, rfl, trivial, fun _ => trivial, .or left right⟩
  · cases p with
    | identifier first =>
      cases q with
      | identifier second =>
        cases constructed
        exact ⟨.eq, rfl, trivial, fun _ => trivial, .eq (left.operand rfl) (right.operand rfl)⟩
      | _ => cases constructed
    | _ => cases constructed
  · cases p with
    | identifier first =>
      cases q with
      | identifier second =>
        cases constructed
        exact ⟨.neq, rfl, trivial, fun _ => trivial, .neq (left.operand rfl) (right.operand rfl)⟩
      | _ => cases constructed
    | _ => cases constructed

omit [Alphabet] in
theorem precedence_nonterminal (level : Nat) : (nonterminal level).precedence = max 1 (min level PRECEDENCE_NOT) := by
  match level with
  | 0 => rfl
  | 1 => rfl
  | 2 => rfl
  | 3 => rfl
  | 4 => rfl
  | level + 5 =>
    simp only [nonterminal, Nonterminal.precedence, PRECEDENCE_NOT]
    omega

omit [Alphabet] in
theorem Derives.loosen {tight loose : Nat} {tokens : List Token} {p : KeyBindingContextPredicate}
    (derives : Derives (nonterminal tight) tokens p) (le : loose ≤ tight) : Derives (nonterminal loose) tokens p := by
  refine derives.weaken ?_
  rw [precedence_nonterminal, precedence_nonterminal]
  omega

omit [Alphabet] in
theorem precedence_le {operator : Operator} (member : operator ∈ operators) :
    operator.precedence + 1 ≤ PRECEDENCE_NOT := by
  simp only [operators, List.mem_cons, List.not_mem_nil, or_false] at member
  rcases member with rfl | rfl | rfl | rfl | rfl <;> decide

omit [Alphabet] in
theorem noOperator_of_lt {level : Nat} (above : PRECEDENCE_EQ < level) (source : Str) : NoOperator level source := by
  intro operator member le
  have bound := precedence_le member
  simp only [PRECEDENCE_EQ, PRECEDENCE_NOT] at above bound
  omega

omit [Alphabet] in
theorem noOperator_or (minPrecedence : Nat) (source : Str) : NoOperator minPrecedence source ∨ ∃ operator ∈ operators,
    minPrecedence ≤ operator.precedence ∧ ∃ tail, operator.At source tail := by
  by_contra! found
  obtain ⟨starts, nothing⟩ := found
  exact starts fun operator member le tail at_ => nothing operator member le tail at_

structure Sound (fuel : Nat) : Prop where
  primary {source rest : Str} {p : KeyBindingContextPredicate} (parsed : parsePrimaryFor fuel source = .ok (p, rest)) :
    ∃ tokens, Reads tokens source rest ∧ Derives .unary tokens p
  expr {source rest : Str} {minPrecedence : Nat} {p : KeyBindingContextPredicate}
    (atMost : minPrecedence ≤ PRECEDENCE_NOT)
    (parsed : parseExprFor fuel source minPrecedence = .ok (p, rest)) :
    ∃ tokens, Reads tokens source rest ∧ Derives (nonterminal minPrecedence) tokens p ∧ NoOperator minPrecedence rest
  /-- `level` is that of the last operator that was taken. -/
  again {start source rest : Str} {minPrecedence level : Nat} {front : List Token}
    {p q : KeyBindingContextPredicate} (atLeast : minPrecedence ≤ level)
    (read : Reads front start source) (left : Derives (nonterminal level) front p)
    (tighter : NoOperator (level + 1) source)
    (parsed : parseLoopFor fuel p source minPrecedence = .ok (q, rest)) :
    ∃ tokens, Reads tokens start rest ∧ Derives (nonterminal minPrecedence) tokens q ∧ NoOperator minPrecedence rest

theorem sound_primary {fuel : Nat} (sound : Sound fuel) {source rest : Str}
    {p : KeyBindingContextPredicate} (parsed : parsePrimaryFor (fuel + 1) source = .ok (p, rest)) :
    ∃ tokens, Reads tokens source rest ∧ Derives .unary tokens p := by
  cases source with
  | nil => cases parsed
  | cons c tail =>
    by_cases isOpen : c = '('
    · subst isOpen
      rw [parsePrimaryFor_open] at parsed
      obtain ⟨⟨inner, middle⟩, innerParsed, closed⟩ := bind_eq_ok.mp parsed
      obtain ⟨tokens, reads, derives, -⟩ := sound.expr (Nat.zero_le _) innerParsed
      unfold close at closed
      split at closed
      · rename_i stripped same
        cases closed
        simp only at same
        rw [same] at reads
        have closed : Reads [.closeParen] (')' :: stripped) (skip stripped) :=
          @Reads.single _ .closeParen _ trivial trivial
        have whole : Reads (.openParen :: tokens ++ [.closeParen]) ('(' :: tail) (skip stripped) :=
          @Reads.cons _ .openParen _ _ _ trivial trivial (reads.append closed)
        exact ⟨_, whole, .paren derives⟩
      · cases closed
    · by_cases isNot : c = '!'
      · subst isNot
        rw [parsePrimaryFor_not] at parsed
        obtain ⟨⟨inner, middle⟩, innerParsed, made⟩ := bind_eq_ok.mp parsed
        cases made
        obtain ⟨tokens, reads, derives, -⟩ := sound.expr (Nat.le_refl _) innerParsed
        exact ⟨.not :: tokens, @Reads.cons _ .not _ _ _ trivial trivial reads, .not derives⟩
      · by_cases starts : isIdentifierChar c = true
        · rw [parsePrimaryFor_identifier fuel starts] at parsed
          cases parsed
          obtain ⟨valid, ends⟩ := takeWhile_inName starts tail
          have single := Reads.single valid ends
          rw [Token.text, List.takeWhile_append_dropWhile] at single
          exact ⟨_, single, .identifier⟩
        · by_cases vim : isVimOperatorChar c = true
          · rw [parsePrimaryFor_vim fuel vim] at parsed
            cases parsed
            have ends : (Token.identifier [c]).EndsAt tail := fun first => by
              exact absurd (first c rfl) starts
            exact ⟨[.identifier [c]], Reads.single (.inr ⟨c, rfl, vim⟩) ends, .identifier⟩
          · rw [parsePrimaryFor, if_neg isOpen, if_neg isNot, if_neg starts, if_neg vim] at parsed
            cases parsed

theorem sound (fuel : Nat) : Sound fuel := by
  induction fuel with
  | zero => exact ⟨nofun, nofun, nofun⟩
  | succ fuel ih =>
    refine ⟨sound_primary ih, ?_, ?_⟩
    · intro source rest minPrecedence p atMost parsed
      rw [parseExprFor] at parsed
      obtain ⟨⟨first, middle⟩, primary, parsed⟩ := bind_eq_ok.mp parsed
      obtain ⟨tokens, reads, derives⟩ := ih.primary primary
      have tighter : NoOperator (PRECEDENCE_NOT + 1) middle := noOperator_of_lt (by decide) middle
      exact ih.again atMost reads derives tighter parsed
    · intro start source rest minPrecedence level front p q atLeast read left tighter parsed
      rcases noOperator_or minPrecedence source with nothing | ⟨operator, member, le, tail, at_⟩
      · rw [parseLoopFor_of_noOperator fuel nothing] at parsed
        cases parsed
        exact ⟨front, read, left.loosen atLeast, nothing⟩
      · rw [parseLoopFor_of_at fuel member at_ le] at parsed
        obtain ⟨⟨right, middle⟩, rightParsed, parsed⟩ := bind_eq_ok.mp parsed
        obtain ⟨made, constructed, parsed⟩ := bind_eq_ok.mp parsed
        -- The operator is not tighter than the last one, or its operand would have taken it.
        have notTighter : operator.precedence ≤ level := by
          by_contra above
          exact tighter operator member (by omega) tail at_
        obtain ⟨back, reads, derives, tighter'⟩ := ih.expr (precedence_le member) rightParsed
        obtain ⟨token, text, valid, ends, derived⟩ :=
          construct_sound member (left.loosen notTighter) derives constructed
        obtain rfl := at_
        rw [← text] at read
        exact ih.again le (read.append (.cons valid (ends tail) reads)) derived tighter' parsed

end Pinrail.Keymap

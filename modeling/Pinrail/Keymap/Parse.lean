import Pinrail.Keymap.Context
import Pinrail.Lib.Utf8

/-!
# Parsing and printing context predicates

`KeyBindingContextPredicate::parse` and its `Display`. A string is read by byte offsets, and a slice
that is not between two characters panics.
-/

namespace Pinrail.Keymap
open Lib

/-- `char::is_alphanumeric`, of which the ASCII part is fixed and which no white space has. -/
class Alphabet where
  isAlphanumeric : Char → Bool
  ascii (c : Char) : c.toNat < 128 → isAlphanumeric c = c.isAlphanum
  not_whitespace (c : Char) : isWhitespace c = true → isAlphanumeric c = false

theorem isWhitespace_of_isAlphanum {c : Char} (named : c.isAlphanum = true) : isWhitespace c = false := by
  have named : (decide ('A'.val ≤ c.val ∧ c.val ≤ 'Z'.val) || (decide ('a'.val ≤ c.val) && decide (c.val ≤ 'z'.val)) ||
      (decide ('0'.val ≤ c.val) && decide (c.val ≤ '9'.val))) = true := named
  simp only [Bool.or_eq_true, Bool.and_eq_true, decide_eq_true_eq, UInt32.le_iff_toNat_le] at named
  change ((65 ≤ c.toNat ∧ c.toNat ≤ 90) ∨ (97 ≤ c.toNat ∧ c.toNat ≤ 122)) ∨ (48 ≤ c.toNat ∧ c.toNat ≤ 57) at named
  simp only [isWhitespace, Bool.or_eq_false_iff, Bool.and_eq_false_iff, decide_eq_false_iff_not, beq_eq_false_iff_ne]
  omega

@[reducible] def asciiAlphabet : Alphabet where
  isAlphanumeric := Char.isAlphanum
  ascii _ _ := rfl
  not_whitespace c blank := by
    by_contra named
    rw [Bool.not_eq_false] at named
    rw [isWhitespace_of_isAlphanum named] at blank
    cases blank

inductive ParseError where
  | unexpectedEnd
  | unexpectedCharacter (next : Char)
  | expectedClosing
  /-- The operands of `==` or `!=` must be identifiers. -/
  | operandsMustBeIdentifiers (operator : Str)
deriving DecidableEq

inductive Failure where
  | error (error : ParseError)
  | panic (panic : Panic)
deriving DecidableEq

abbrev Parsed := Except Failure

def unwinding {α : Type} : Except Panic α → Parsed α
  | .ok a => .ok a
  | .error panic => .error (.panic panic)

def PRECEDENCE_CHILD : Nat := 1
def PRECEDENCE_OR : Nat := 2
def PRECEDENCE_AND : Nat := 3
def PRECEDENCE_EQ : Nat := 4
def PRECEDENCE_NOT : Nat := 5

def isIdentifierChar [Alphabet] (c : Char) : Bool :=
  Alphabet.isAlphanumeric c || c == '_' || c == '-'

def isVimOperatorChar (c : Char) : Bool := c == '>' || c == '<' || c == '~' || c == '"' || c == '?'

def skipWhitespace (source : Str) : Parsed Str :=
  let len := (findByte (fun c => !isWhitespace c) source).getD (byteLen source)
  unwinding (sliceFromByte source len)

namespace KeyBindingContextPredicate

def newOr (self other : KeyBindingContextPredicate) : Parsed KeyBindingContextPredicate :=
  return or self other

def newAnd (self other : KeyBindingContextPredicate) : Parsed KeyBindingContextPredicate :=
  return and self other

def newChild (self other : KeyBindingContextPredicate) : Parsed KeyBindingContextPredicate :=
  return descendant self other

def newEq : KeyBindingContextPredicate → KeyBindingContextPredicate → Parsed KeyBindingContextPredicate
  | identifier left, identifier right => return equal left right
  | _, _ => throw (.error (.operandsMustBeIdentifiers ['=', '=']))

def newNeq : KeyBindingContextPredicate → KeyBindingContextPredicate → Parsed KeyBindingContextPredicate
  | identifier left, identifier right => return notEqual left right
  | _, _ => throw (.error (.operandsMustBeIdentifiers ['!', '=']))

/-- An operator of the table in `parse_expr`. -/
structure Operator where
  text : Str
  precedence : Nat
  construct : KeyBindingContextPredicate → KeyBindingContextPredicate → Parsed KeyBindingContextPredicate

def operators : List Operator := [
  ⟨['>'], PRECEDENCE_CHILD, newChild⟩,
  ⟨['&', '&'], PRECEDENCE_AND, newAnd⟩,
  ⟨['|', '|'], PRECEDENCE_OR, newOr⟩,
  ⟨['=', '='], PRECEDENCE_EQ, newEq⟩,
  ⟨['!', '='], PRECEDENCE_EQ, newNeq⟩]

section Parser
variable [Alphabet]

mutual

def parseExprFor : Nat → Str → Nat → Parsed (KeyBindingContextPredicate × Str)
  | 0, _, _ => throw (.panic .outOfFuel)
  | fuel + 1, source, minPrecedence => do
    let (predicate, source) ← parsePrimaryFor fuel source
    parseLoopFor fuel predicate source minPrecedence

/-- The loop `'parse` of `parse_expr`. -/
def parseLoopFor :
    Nat → KeyBindingContextPredicate → Str → Nat → Parsed (KeyBindingContextPredicate × Str)
  | 0, _, _, _ => throw (.panic .outOfFuel)
  | fuel + 1, predicate, source, minPrecedence =>
    match operators.find? fun operator =>
        operator.text.isPrefixOf source && minPrecedence ≤ operator.precedence with
    | none => return (predicate, source)
    | some operator => do
      let source ← unwinding (sliceFromByte source (byteLen operator.text))
      let source ← skipWhitespace source
      let (right, rest) ← parseExprFor fuel source (operator.precedence + 1)
      let predicate ← operator.construct predicate right
      parseLoopFor fuel predicate rest minPrecedence

def parsePrimaryFor : Nat → Str → Parsed (KeyBindingContextPredicate × Str)
  | 0, _ => throw (.panic .outOfFuel)
  | _ + 1, [] => throw (.error .unexpectedEnd)
  | fuel + 1, next :: tail =>
    let source := next :: tail
    if next = '(' then do
      let source ← unwinding (sliceFromByte source 1)
      let source ← skipWhitespace source
      let (predicate, rest) ← parseExprFor fuel source 0
      match rest with
      | ')' :: stripped => return (predicate, ← skipWhitespace stripped)
      | _ => throw (.error .expectedClosing)
    else if next = '!' then do
      let source ← unwinding (sliceFromByte source 1)
      let source ← skipWhitespace source
      let (predicate, source) ← parseExprFor fuel source PRECEDENCE_NOT
      return (not predicate, source)
    else if isIdentifierChar next then do
      let len := (findByte (fun c => !isIdentifierChar c && !isVimOperatorChar c) source).getD
        (byteLen source)
      let (name, rest) ← unwinding (splitAtByte source len)
      return (identifier name, ← skipWhitespace rest)
    else if isVimOperatorChar next then do
      let (operator, rest) ← unwinding (splitAtByte source 1)
      return (identifier operator, ← skipWhitespace rest)
    else throw (.error (.unexpectedCharacter next))

end

/-- Enough for every call: `parse_primary` takes a character before it recurs. -/
def parseFuel (source : Str) : Nat := 2 * source.length + 2

def parseExpr (source : Str) (minPrecedence : Nat) : Parsed (KeyBindingContextPredicate × Str) :=
  parseExprFor (parseFuel source) source minPrecedence

def parse (source : Str) : Parsed KeyBindingContextPredicate := do
  let source ← skipWhitespace source
  let (predicate, rest) ← parseExpr source 0
  match rest with
  | next :: _ => throw (.error (.unexpectedCharacter next))
  | [] => return predicate

end Parser

/-! ## Display -/

inductive LogicalOperator where
  | and
  | or
deriving DecidableEq

def LogicalOperator.separator : LogicalOperator → Str
  | and => [' ', '&', '&', ' ']
  | or => [' ', '|', '|', ' ']

def LogicalOperator.needsParens : LogicalOperator → KeyBindingContextPredicate → Bool
  | and, .or _ _ => true
  | or, .and _ _ => true
  | _, _ => false

mutual

/-- `Display::fmt`; the first step of `fmt_joined` is taken in it. -/
def display : KeyBindingContextPredicate → Str
  | identifier name => name
  | equal left right => left ++ [' ', '=', '=', ' '] ++ right
  | notEqual left right => left ++ [' ', '!', '=', ' '] ++ right
  | descendant parent child => display parent ++ [' ', '>', ' '] ++ display child
  | not (identifier name) => '!' :: name
  | not pred => ['!', '('] ++ display pred ++ [')']
  | and left right =>
    let (front, first) := fmtJoinedInner .and left true
    let (back, _) := fmtJoinedInner .and right first
    front ++ back
  | or left right =>
    let (front, first) := fmtJoinedInner .or left true
    let (back, _) := fmtJoinedInner .or right first
    front ++ back
termination_by pred => (sizeOf pred, 0)

/-- What `fmt_joined_inner` writes, and `first` after it. -/
def fmtJoinedInner (operator : LogicalOperator) (node : KeyBindingContextPredicate) (first : Bool) :
    Str × Bool :=
  match operator, node with
  | .and, and left right | .or, or left right =>
    let (front, first) := fmtJoinedInner operator left first
    let (back, first) := fmtJoinedInner operator right first
    (front ++ back, first)
  | _, node =>
    let separator := if first then [] else operator.separator
    if operator.needsParens node then (separator ++ ['('] ++ display node ++ [')'], false)
    else (separator ++ display node, false)
termination_by (sizeOf node, 1)

end

end KeyBindingContextPredicate

end Pinrail.Keymap

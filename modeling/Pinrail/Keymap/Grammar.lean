import Pinrail.Keymap.Parse

/-!
# The grammar of context predicates

The tokens of a predicate, the strings that spell a list of tokens, and the trees that the grammar
gives to a list of tokens.
-/

namespace Pinrail.Keymap
open Lib

/-! ## Tokens -/

inductive Token where
  | identifier (name : Str)
  | child
  | and
  | or
  | eq
  | neq
  | not
  | openParen
  | closeParen
deriving DecidableEq

def Token.text : Token → Str
  | identifier name => name
  | child => ['>']
  | and => ['&', '&']
  | or => ['|', '|']
  | eq => ['=', '=']
  | neq => ['!', '=']
  | not => ['!']
  | openParen => ['(']
  | closeParen => [')']

section Tokens
variable [Alphabet]

def inName (c : Char) : Bool := isIdentifierChar c || isVimOperatorChar c

def IsIdentifier (name : Str) : Prop :=
  (∃ c rest, name = c :: rest ∧ isIdentifierChar c = true ∧ ∀ d ∈ rest, inName d = true) ∨
    ∃ c, name = [c] ∧ isVimOperatorChar c = true

namespace Token

def Valid : Token → Prop
  | identifier name => IsIdentifier name
  | _ => True

def EndsAt (token : Token) (tail : Str) : Prop :=
  match token with
  | identifier name => (∀ c ∈ name.head?, isIdentifierChar c = true) → ∀ d ∈ tail.head?, inName d = false
  | _ => True

end Token

/-- The string consists of the tokens, with white space between them and around them; if `longest`
holds, identifiers are as long as they can be. -/
inductive Spells (longest : Prop) : List Token → Str → Prop where
  | nil {blank : Str} (blanks : ∀ c ∈ blank, isWhitespace c = true) : Spells longest [] blank
  | cons {blank tail : Str} {token : Token} {tokens : List Token}
      (blanks : ∀ c ∈ blank, isWhitespace c = true) (valid : token.Valid)
      (ends : longest → token.EndsAt tail) (spells : Spells longest tokens tail) :
      Spells longest (token :: tokens) (blank ++ token.text ++ tail)

end Tokens

/-! ## Trees -/

/-- An operand of `==` or `!=`: an identifier, which may be in parentheses. -/
inductive Operand : List Token → Str → Prop where
  | identifier {name : Str} : Operand [.identifier name] name
  | paren {tokens : List Token} {name : Str} (operand : Operand tokens name) :
      Operand (.openParen :: tokens ++ [.closeParen]) name

inductive Nonterminal where
  | child
  | or
  | and
  | eq
  | unary
deriving DecidableEq

open KeyBindingContextPredicate in
/-- `Child := Or ('>' Or)*`, `Or := And ('||' And)*`, `And := Eq ('&&' Eq)*`,
`Eq := Ident ('==' | '!=') Ident | Unary` and `Unary := '!' Unary | '(' Child ')' | Ident`, with the
trees that repetitions give when they are associated to the left. -/
inductive Derives : Nonterminal → List Token → KeyBindingContextPredicate → Prop where
  | childOr {tokens : List Token} {p : KeyBindingContextPredicate} (first : Derives .or tokens p) :
      Derives .child tokens p
  | child {front back : List Token} {p q : KeyBindingContextPredicate} (left : Derives .child front p)
      (right : Derives .or back q) : Derives .child (front ++ .child :: back) (descendant p q)
  | orAnd {tokens : List Token} {p : KeyBindingContextPredicate} (first : Derives .and tokens p) : Derives .or tokens p
  | or {front back : List Token} {p q : KeyBindingContextPredicate} (left : Derives .or front p)
      (right : Derives .and back q) : Derives .or (front ++ .or :: back) (or p q)
  | andEq {tokens : List Token} {p : KeyBindingContextPredicate} (first : Derives .eq tokens p) : Derives .and tokens p
  | and {front back : List Token} {p q : KeyBindingContextPredicate} (left : Derives .and front p)
      (right : Derives .eq back q) : Derives .and (front ++ .and :: back) (and p q)
  | eq {front back : List Token} {left right : Str} (first : Operand front left)
      (second : Operand back right) : Derives .eq (front ++ .eq :: back) (equal left right)
  | neq {front back : List Token} {left right : Str} (first : Operand front left)
      (second : Operand back right) : Derives .eq (front ++ .neq :: back) (notEqual left right)
  | eqUnary {tokens : List Token} {p : KeyBindingContextPredicate} (first : Derives .unary tokens p) :
      Derives .eq tokens p
  | not {tokens : List Token} {p : KeyBindingContextPredicate} (operand : Derives .unary tokens p) :
      Derives .unary (.not :: tokens) (not p)
  | paren {tokens : List Token} {p : KeyBindingContextPredicate} (inner : Derives .child tokens p) :
      Derives .unary (.openParen :: tokens ++ [.closeParen]) p
  | identifier {name : Str} : Derives .unary [.identifier name] (identifier name)

theorem Derives.operand {nonterminal : Nonterminal} {tokens : List Token} {p : KeyBindingContextPredicate}
    (derives : Derives nonterminal tokens p) {name : Str} (same : p = .identifier name) : Operand tokens name := by
  induction derives with
  | childOr first ih => exact ih same
  | orAnd first ih => exact ih same
  | andEq first ih => exact ih same
  | eqUnary first ih => exact ih same
  | paren inner ih => exact .paren (ih same)
  | identifier =>
    cases same
    exact .identifier
  | _ => cases same

/-! ## Levels -/

/-- The least precedence of the operators that `parse_expr` takes for the nonterminal. -/
def Nonterminal.precedence : Nonterminal → Nat
  | child => PRECEDENCE_CHILD
  | or => PRECEDENCE_OR
  | and => PRECEDENCE_AND
  | eq => PRECEDENCE_EQ
  | unary => PRECEDENCE_NOT

theorem Derives.weaken {tight loose : Nonterminal} {tokens : List Token} {p : KeyBindingContextPredicate}
    (derives : Derives tight tokens p) (le : loose.precedence ≤ tight.precedence) : Derives loose tokens p := by
  cases tight with
  | unary =>
    cases loose with
    | unary => exact derives
    | eq => exact .eqUnary derives
    | and => exact .andEq (.eqUnary derives)
    | or => exact .orAnd (.andEq (.eqUnary derives))
    | child => exact .childOr (.orAnd (.andEq (.eqUnary derives)))
  | eq =>
    cases loose with
    | unary => exact absurd le (by decide)
    | eq => exact derives
    | and => exact .andEq derives
    | or => exact .orAnd (.andEq derives)
    | child => exact .childOr (.orAnd (.andEq derives))
  | and =>
    cases loose with
    | unary => exact absurd le (by decide)
    | eq => exact absurd le (by decide)
    | and => exact derives
    | or => exact .orAnd derives
    | child => exact .childOr (.orAnd derives)
  | or =>
    cases loose with
    | or => exact derives
    | child => exact .childOr derives
    | _ => exact absurd le (by decide)
  | child =>
    cases loose with
    | child => exact derives
    | _ => exact absurd le (by decide)

end Pinrail.Keymap

import Pinrail.Keymap.Accepted

/-!
# Reading back what is printed

What `Display` writes is always a predicate again. `reread` is the tree that the grammar gives to it:
as no parentheses are written around `>`, it need not be the tree that was printed.
-/

namespace Pinrail.Keymap
open Lib

open KeyBindingContextPredicate

section Printing
variable [Alphabet]

/-! ## Spelled tokens -/

def Spelled (tokens : List Token) (text : Str) : Prop :=
  ∀ following tail, (∀ d ∈ tail.head?, inName d = false) → Spells True following tail →
    Spells True (tokens ++ following) (text ++ tail)

theorem inName_ascii {c : Char} (ascii : c.toNat < 128) :
    inName c = (c.isAlphanum || c == '_' || c == '-' || isVimOperatorChar c) := by
  rw [inName, isIdentifierChar_ascii ascii]

theorem Spelled.token {token : Token} (valid : token.Valid) : Spelled [token] token.text := by
  intro following tail ends spells
  have started : Spells True (token :: following) ([] ++ token.text ++ tail) := by
    refine .cons nofun valid (fun _ => ?_) spells
    cases token with
    | identifier name => exact fun _ => ends
    | _ => trivial
  exact started

theorem Spelled.identifier {name : Str} (valid : IsIdentifier name) : Spelled [.identifier name] name :=
  @Spelled.token _ (.identifier name) valid

theorem Spelled.mark {token : Token} (valid : token.Valid) (closed : ∀ tail, token.EndsAt tail) {tokens : List Token}
    {text : Str} (spelled : Spelled tokens text) : Spelled (token :: tokens) (token.text ++ text) := by
  intro following tail ends spells
  have started : Spells True (token :: (tokens ++ following)) ([] ++ token.text ++ (text ++ tail)) :=
    .cons nofun valid (fun _ => closed _) (spelled following tail ends spells)
  rwa [List.nil_append, ← List.append_assoc] at started

theorem Spelled.append {front back : List Token} {first second : Str} (left : Spelled front first)
    (right : Spelled back second) (starts : ∃ d rest, second = d :: rest ∧ inName d = false) :
    Spelled (front ++ back) (first ++ second) := by
  intro following tail ends spells
  rw [List.append_assoc, List.append_assoc]
  refine left _ _ ?_ (right following tail ends spells)
  obtain ⟨d, rest, rfl, stops⟩ := starts
  intro e next
  cases next
  exact stops

theorem Spelled.blank {tokens : List Token} {text : Str} (spelled : Spelled tokens text)
    (nonempty : tokens ≠ []) : Spelled tokens (' ' :: text) := by
  intro following tail ends spells
  have inside := spelled following tail ends spells
  cases tokens with
  | nil => exact absurd rfl nonempty
  | cons token tokens =>
    rw [List.cons_append] at inside ⊢
    rw [List.cons_append]
    generalize text ++ tail = source at inside ⊢
    cases inside with
    | @cons blank rest _ _ blanks valid ends spells =>
      have started : Spells True (token :: (tokens ++ following)) ((' ' :: blank) ++ token.text ++ rest) := by
        refine .cons ?_ valid ends spells
        intro c member
        rcases List.mem_cons.mp member with rfl | member
        · decide
        · exact blanks c member
      exact started

theorem Spelled.spells {tokens : List Token} {text : Str} (spelled : Spelled tokens text) :
    Spells True tokens text := by
  have whole := spelled [] [] nofun (.nil nofun)
  rwa [List.append_nil, List.append_nil] at whole

theorem Spelled.operator {token : Token} (valid : token.Valid) (closed : ∀ tail, token.EndsAt tail)
    {first second : List Token} {front back : Str} (nonempty : second ≠ []) (left : Spelled first front)
    (right : Spelled second back) :
    Spelled (first ++ [token] ++ second) (front ++ ([' '] ++ token.text ++ [' ']) ++ back) := by
  have marked : Spelled (token :: second) (' ' :: (token.text ++ (' ' :: back))) :=
    ((right.blank nonempty).mark valid closed).blank (List.cons_ne_nil _ _)
  have whole := left.append marked ⟨' ', _, rfl, by rw [inName_ascii (by decide)]; decide⟩
  simpa only [List.append_assoc, List.cons_append, List.nil_append] using whole

theorem Spelled.paren {tokens : List Token} {text : Str} (spelled : Spelled tokens text) :
    Spelled (.openParen :: tokens ++ [.closeParen]) (['('] ++ text ++ [')']) := by
  have closed : Spelled (tokens ++ [.closeParen]) (text ++ [')']) :=
    spelled.append (@Spelled.token _ .closeParen trivial) ⟨')', [], rfl, by rw [inName_ascii (by decide)]; decide⟩
  exact @Spelled.mark _ .openParen trivial (fun _ => trivial) _ _ closed

end Printing

/-! ## The tree that is read back -/

namespace KeyBindingContextPredicate

inductive Connective where
  | child
  | or
  | and
deriving DecidableEq

def Connective.token : Connective → Token
  | child => .child
  | or => .or
  | and => .and

/-- What has been read of a chain of operators: what stands before the last `>`, what stands before
the last `||` after it, and the operands of `&&` since then. -/
structure Reading where
  child : Option KeyBindingContextPredicate
  or : Option KeyBindingContextPredicate
  and : KeyBindingContextPredicate
deriving DecidableEq

def joinLeft (operator : KeyBindingContextPredicate → KeyBindingContextPredicate → KeyBindingContextPredicate) :
    Option KeyBindingContextPredicate → KeyBindingContextPredicate → KeyBindingContextPredicate
  | none, right => right
  | some left, right => operator left right

namespace Reading

def alternatives (reading : Reading) : KeyBindingContextPredicate := joinLeft .or reading.or reading.and

def tree (reading : Reading) : KeyBindingContextPredicate :=
  joinLeft descendant reading.child reading.alternatives

def put (operand : KeyBindingContextPredicate) : Option (Reading × Connective) → Reading
  | none => ⟨none, none, operand⟩
  | some (reading, .and) => { reading with and := .and reading.and operand }
  | some (reading, .or) => { reading with or := some reading.alternatives, and := operand }
  | some (reading, .child) => ⟨some reading.tree, none, operand⟩

end Reading

def reading : KeyBindingContextPredicate → Option (Reading × Connective) → Reading
  | .not pred, before => .put (.not (pred.reading none).tree) before
  | descendant parent child, before => child.reading (some (parent.reading before, .child))
  | .and left right, before =>
    let before := if LogicalOperator.and.needsParens left then .put (left.reading none).tree before
      else left.reading before
    if LogicalOperator.and.needsParens right then .put (right.reading none).tree (some (before, .and))
    else right.reading (some (before, .and))
  | .or left right, before =>
    let before := if LogicalOperator.or.needsParens left then .put (left.reading none).tree before
      else left.reading before
    if LogicalOperator.or.needsParens right then .put (right.reading none).tree (some (before, .or))
    else right.reading (some (before, .or))
  | leaf, before => .put leaf before

def reread (p : KeyBindingContextPredicate) : KeyBindingContextPredicate := (p.reading none).tree

namespace LogicalOperator

def connective : LogicalOperator → Connective
  | .and => .and
  | .or => .or

def join : LogicalOperator → KeyBindingContextPredicate → KeyBindingContextPredicate →
    KeyBindingContextPredicate
  | .and => .and
  | .or => .or

def linkText (operator : LogicalOperator) (p : KeyBindingContextPredicate) : Str :=
  if operator.needsParens p then ['('] ++ display p ++ [')'] else display p

def linkReading (operator : LogicalOperator) (p : KeyBindingContextPredicate)
    (before : Option (Reading × Connective)) : Reading :=
  if operator.needsParens p then .put p.reread before else p.reading before

end LogicalOperator

theorem reading_join (operator : LogicalOperator) (left right : KeyBindingContextPredicate)
    (before : Option (Reading × Connective)) : (operator.join left right).reading before =
      operator.linkReading right (some (operator.linkReading left before, operator.connective)) := by
  cases operator <;> rfl

theorem fmtJoinedInner_eq (operator : LogicalOperator) (p : KeyBindingContextPredicate) (first : Bool) :
    fmtJoinedInner operator p first = ((if first then [] else operator.separator) ++ operator.linkText p, false) := by
  induction p generalizing first with
  | and left right ihLeft ihRight =>
    cases operator with
    | and =>
      have bare : LogicalOperator.and.linkText (.and left right) = display (.and left right) := rfl
      simp [bare, fmtJoinedInner, display, ihLeft, ihRight]
    | or => simp [fmtJoinedInner, LogicalOperator.needsParens, LogicalOperator.linkText]
  | or left right ihLeft ihRight =>
    cases operator with
    | and => simp [fmtJoinedInner, LogicalOperator.needsParens, LogicalOperator.linkText]
    | or =>
      have bare : LogicalOperator.or.linkText (.or left right) = display (.or left right) := rfl
      simp [bare, fmtJoinedInner, display, ihLeft, ihRight]
  | _ => cases operator <;> simp [fmtJoinedInner, LogicalOperator.needsParens, LogicalOperator.linkText]

theorem display_join (operator : LogicalOperator) (left right : KeyBindingContextPredicate) :
    display (operator.join left right) = operator.linkText left ++ operator.separator ++ operator.linkText right := by
  cases operator <;> simp [LogicalOperator.join, display, fmtJoinedInner_eq]

end KeyBindingContextPredicate

/-! ## What is read is derived -/

open KeyBindingContextPredicate

def LeftOperand (nonterminal : Nonterminal) (operator : Token) :
    Option KeyBindingContextPredicate → List Token → Prop
  | none, tokens => tokens = []
  | some left, tokens => ∃ front, tokens = front ++ [operator] ∧ Derives nonterminal front left

theorem joinLeft_derives {nonterminal tighter : Nonterminal} {operator : Token}
    {build : KeyBindingContextPredicate → KeyBindingContextPredicate → KeyBindingContextPredicate}
    (alone : ∀ tokens p, Derives tighter tokens p → Derives nonterminal tokens p)
    (joined : ∀ front back p q, Derives nonterminal front p → Derives tighter back q →
      Derives nonterminal (front ++ operator :: back) (build p q))
    {left : Option KeyBindingContextPredicate} {front back : List Token} {right : KeyBindingContextPredicate}
    (operand : LeftOperand nonterminal operator left front) (derives : Derives tighter back right) :
    Derives nonterminal (front ++ back) (joinLeft build left right) := by
  cases left with
  | none =>
    obtain rfl := operand
    exact alone _ _ derives
  | some left =>
    obtain ⟨start, rfl, derivesLeft⟩ := operand
    rw [List.append_assoc]
    exact joined _ _ _ _ derivesLeft derives

namespace KeyBindingContextPredicate

def Reading.Derived (reading : Reading) (tokens : List Token) : Prop :=
  ∃ outer middle inner, tokens = outer ++ (middle ++ inner) ∧ LeftOperand .child .child reading.child outer ∧
    LeftOperand .or .or reading.or middle ∧ Derives .and inner reading.and

def Started (before : Option (Reading × Connective)) (tokens : List Token) : Prop :=
  match before with
  | none => tokens = []
  | some (reading, connective) => ∃ front, tokens = front ++ [connective.token] ∧ reading.Derived front

theorem alternatives_derives {left : Option KeyBindingContextPredicate} {right : KeyBindingContextPredicate}
    {middle inner : List Token} (operand : LeftOperand .or .or left middle) (derives : Derives .and inner right) :
    Derives .or (middle ++ inner) (joinLeft .or left right) :=
  joinLeft_derives (fun _ _ => .orAnd) (fun _ _ _ _ => .or) operand derives

theorem Reading.Derived.tree {reading : Reading} {tokens : List Token} (derived : reading.Derived tokens) :
    Derives .child tokens reading.tree := by
  obtain ⟨outer, middle, inner, rfl, child, or, and⟩ := derived
  exact joinLeft_derives (fun _ _ => .childOr) (fun _ _ _ _ => .child) child (alternatives_derives or and)

theorem Reading.derived_put {before : Option (Reading × Connective)} {front back : List Token}
    {p : KeyBindingContextPredicate} (started : Started before front) (derives : Derives .eq back p) :
    (Reading.put p before).Derived (front ++ back) := by
  cases before with
  | none =>
    obtain rfl := started
    exact ⟨[], [], back, rfl, rfl, rfl, .andEq derives⟩
  | some pair =>
    obtain ⟨reading, connective⟩ := pair
    obtain ⟨tokens, rfl, derived⟩ := started
    cases connective with
    | child =>
      exact ⟨tokens ++ [.child], [], back, rfl, ⟨tokens, rfl, derived.tree⟩, rfl, .andEq derives⟩
    | or =>
      obtain ⟨outer, middle, inner, rfl, child, or, and⟩ := derived
      refine ⟨outer, middle ++ inner ++ [.or], back, ?_, child, ⟨_, rfl, alternatives_derives or and⟩, .andEq derives⟩
      simp only [Connective.token, List.append_assoc]
    | and =>
      obtain ⟨outer, middle, inner, rfl, child, or, and⟩ := derived
      refine ⟨outer, middle, inner ++ .and :: back, ?_, child, or, .and and derives⟩
      simp only [Connective.token, List.append_assoc, List.singleton_append]

end KeyBindingContextPredicate

section Printing
variable [Alphabet]

def Named : KeyBindingContextPredicate → Prop
  | identifier name => IsIdentifier name
  | equal left right | notEqual left right => IsIdentifier left ∧ IsIdentifier right
  | .not pred => Named pred
  | descendant left right | .and left right | .or left right => Named left ∧ Named right

def ReadAs (text : Str) (next : Option (Reading × Connective) → Reading) : Prop :=
  ∃ tokens, tokens ≠ [] ∧ Spelled tokens text ∧
    ∀ before front, Started before front → (next before).Derived (front ++ tokens)

theorem ReadAs.put {tokens : List Token} {text : Str} {p : KeyBindingContextPredicate} (nonempty : tokens ≠ [])
    (spelled : Spelled tokens text) (derives : Derives .eq tokens p) : ReadAs text (Reading.put p) :=
  ⟨tokens, nonempty, spelled, fun _ _ started => Reading.derived_put started derives⟩

theorem ReadAs.tree {text : Str} {next : Option (Reading × Connective) → Reading} (readAs : ReadAs text next) :
    ∃ tokens, Spelled tokens text ∧ Derives .child tokens (next none).tree := by
  obtain ⟨tokens, -, spelled, derived⟩ := readAs
  exact ⟨tokens, spelled, (derived none [] rfl).tree⟩

theorem ReadAs.paren {text : Str} {next : Option (Reading × Connective) → Reading}
    (readAs : ReadAs text next) : ReadAs (['('] ++ text ++ [')']) (Reading.put (next none).tree) := by
  obtain ⟨tokens, spelled, derives⟩ := readAs.tree
  exact .put (List.cons_ne_nil _ _) spelled.paren (.eqUnary (.paren derives))

theorem ReadAs.connect {connective : Connective} {front back : Str}
    {first second : Option (Reading × Connective) → Reading} (left : ReadAs front first) (right : ReadAs back second) :
    ReadAs (front ++ ([' '] ++ connective.token.text ++ [' ']) ++ back)
    (fun before => second (some (first before, connective))) := by
  obtain ⟨tokens, -, spelledLeft, derivedLeft⟩ := left
  obtain ⟨others, nonempty, spelledRight, derivedRight⟩ := right
  have valid : connective.token.Valid := by cases connective <;> trivial
  have closed (tail : Str) : connective.token.EndsAt tail := by cases connective <;> trivial
  refine ⟨tokens ++ [connective.token] ++ others, ?_,
    .operator valid closed nonempty spelledLeft spelledRight, fun before start started => ?_⟩
  · rw [List.append_assoc]
    exact List.append_ne_nil_of_right_ne_nil _ (List.cons_ne_nil _ _)
  · have whole := derivedRight (some (first before, connective)) (start ++ tokens ++ [connective.token])
      ⟨_, rfl, derivedLeft before start started⟩
    simpa only [List.append_assoc] using whole

theorem ReadAs.link (operator : LogicalOperator) {p : KeyBindingContextPredicate}
    (readAs : ReadAs (display p) p.reading) : ReadAs (operator.linkText p) (operator.linkReading p) := by
  unfold LogicalOperator.linkText LogicalOperator.linkReading
  split
  · exact readAs.paren
  · exact readAs

theorem ReadAs.join (operator : LogicalOperator) {left right : KeyBindingContextPredicate}
    (first : ReadAs (display left) left.reading) (second : ReadAs (display right) right.reading) :
    ReadAs (display (operator.join left right)) (operator.join left right).reading := by
  have same : (operator.join left right).reading = fun before =>
      operator.linkReading right (some (operator.linkReading left before, operator.connective)) :=
    funext (reading_join operator left right)
  have separator : operator.separator = [' '] ++ operator.connective.token.text ++ [' '] := by
    cases operator <;> rfl
  rw [display_join, same, separator]
  exact (first.link operator).connect (second.link operator)

theorem readAs_display {p : KeyBindingContextPredicate} (named : Named p) : ReadAs (display p) p.reading := by
  induction p with
  | identifier name =>
    rw [display]
    exact .put (List.cons_ne_nil _ _) (.identifier named) (.eqUnary .identifier)
  | equal left right =>
    rw [display]
    exact .put (List.cons_ne_nil _ _) (@Spelled.operator _ .eq trivial (fun _ => trivial) _ _ _ _
      (List.cons_ne_nil _ _) (.identifier named.1) (.identifier named.2)) (.eq .identifier .identifier)
  | notEqual left right =>
    rw [display]
    exact .put (List.cons_ne_nil _ _) (@Spelled.operator _ .neq trivial (fun _ => trivial) _ _ _ _
      (List.cons_ne_nil _ _) (.identifier named.1) (.identifier named.2)) (.neq .identifier .identifier)
  | not pred ih =>
    obtain ⟨tokens, spelled, derives⟩ := (ih named).tree
    by_cases isName : ∃ name, pred = .identifier name
    · obtain ⟨name, rfl⟩ := isName
      rw [display]
      have marked : Spelled (.not :: [.identifier name]) ('!' :: name) :=
        @Spelled.mark _ .not trivial (fun _ => trivial) _ _ (.identifier named)
      exact .put (List.cons_ne_nil _ _) marked (.eqUnary (.not .identifier))
    · have shown : display (.not pred) = '!' :: (['('] ++ display pred ++ [')']) := by
        rw [display]
        · rfl
        · exact fun other same => isName ⟨other, same⟩
      have marked : Spelled (.not :: (.openParen :: tokens ++ [.closeParen]))
          ('!' :: (['('] ++ display pred ++ [')'])) :=
        @Spelled.mark _ .not trivial (fun _ => trivial) _ _ spelled.paren
      rw [shown]
      exact .put (List.cons_ne_nil _ _) marked (.eqUnary (.not (.paren derives)))
  | descendant parent child ihParent ihChild =>
    rw [display]
    exact @ReadAs.connect _ .child _ _ _ _ (ihParent named.1) (ihChild named.2)
  | and left right ihLeft ihRight => exact .join .and (ihLeft named.1) (ihRight named.2)
  | or left right ihLeft ihRight => exact .join .or (ihLeft named.1) (ihRight named.2)

theorem parse_display {p : KeyBindingContextPredicate} (named : Named p) : parse (display p) = .ok p.reread := by
  obtain ⟨tokens, spelled, derives⟩ := (readAs_display named).tree
  exact parse_ok_iff.mpr ⟨tokens, spelled.spells, derives⟩

/-! ## The names of a parsed predicate -/

theorem Spells.valid {longest : Prop} {tokens : List Token} {source : Str}
    (spells : Spells longest tokens source) : ∀ token ∈ tokens, token.Valid := by
  induction spells with
  | nil => exact nofun
  | cons blanks valid ends spells ih =>
    intro token member
    rcases List.mem_cons.mp member with rfl | member
    · exact valid
    · exact ih token member

theorem Operand.named {tokens : List Token} {name : Str} (operand : Operand tokens name)
    (valid : ∀ token ∈ tokens, token.Valid) : IsIdentifier name := by
  induction operand with
  | identifier => exact valid _ List.mem_cons_self
  | paren operand ih =>
    exact ih fun token member => valid token (List.mem_cons_of_mem _ (List.mem_append_left _ member))

theorem Derives.named {nonterminal : Nonterminal} {tokens : List Token} {p : KeyBindingContextPredicate}
    (derives : Derives nonterminal tokens p) (valid : ∀ token ∈ tokens, token.Valid) : Named p := by
  have left {front back : List Token} {token : Token} (all : ∀ t ∈ front ++ token :: back, t.Valid) :
      ∀ t ∈ front, t.Valid := fun t member => all t (List.mem_append_left _ member)
  have right {front back : List Token} {token : Token} (all : ∀ t ∈ front ++ token :: back, t.Valid) :
      ∀ t ∈ back, t.Valid :=
    fun t member => all t (List.mem_append_right _ (List.mem_cons_of_mem _ member))
  induction derives with
  | childOr first ih => exact ih valid
  | orAnd first ih => exact ih valid
  | andEq first ih => exact ih valid
  | eqUnary first ih => exact ih valid
  | child first second ihFirst ihSecond => exact ⟨ihFirst (left valid), ihSecond (right valid)⟩
  | or first second ihFirst ihSecond => exact ⟨ihFirst (left valid), ihSecond (right valid)⟩
  | and first second ihFirst ihSecond => exact ⟨ihFirst (left valid), ihSecond (right valid)⟩
  | eq first second => exact ⟨first.named (left valid), second.named (right valid)⟩
  | neq first second => exact ⟨first.named (left valid), second.named (right valid)⟩
  | not operand ih => exact ih fun token member => valid token (List.mem_cons_of_mem _ member)
  | paren inner ih =>
    exact ih fun token member => valid token (List.mem_cons_of_mem _ (List.mem_append_left _ member))
  | identifier => exact valid _ List.mem_cons_self

theorem named_of_parse {source : Str} {p : KeyBindingContextPredicate} (parsed : parse source = .ok p) : Named p := by
  obtain ⟨tokens, spells, derives⟩ := parse_ok_iff.mp parsed
  exact derives.named spells.valid

end Printing

end Pinrail.Keymap

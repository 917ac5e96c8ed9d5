import Mathlib.Data.List.TakeWhile
import Pinrail.Lib.Rust

/-!
# Code in Markdown

How CommonMark reads backticks: a code span within a line, and a fenced block of lines.
-/

namespace Pinrail.Lib

def ticks (n : Nat) : Str := List.replicate n '`'

variable {n run : Nat} {s text content line front back : Str} {c : Char}

/-! ## Runs of backticks -/

theorem ticks_cons_append (n : Nat) (s : Str) : ticks (n + 1) ++ s = ticks n ++ '`' :: s := by
  rw [ticks, List.replicate_succ', List.append_assoc]
  rfl

theorem takeWhile_ticks (n : Nat) (s : Str) (ends : s.head? ≠ some '`') :
    (ticks n ++ s).takeWhile (· == '`') = ticks n ∧ (ticks n ++ s).dropWhile (· == '`') = s := by
  induction n with
  | zero =>
    cases s with
    | nil => exact ⟨rfl, rfl⟩
    | cons c s =>
      have other : (c == '`') = false := beq_false_of_ne fun tick => ends (congrArg some tick)
      exact ⟨List.takeWhile_cons_of_neg (by simp [other]), List.dropWhile_cons_of_neg (by simp [other])⟩
  | succ n ih =>
    show ('`' :: (ticks n ++ s)).takeWhile _ = '`' :: ticks n ∧ ('`' :: (ticks n ++ s)).dropWhile _ = s
    rw [List.takeWhile_cons_of_pos (by decide), List.dropWhile_cons_of_pos (by decide), ih.1, ih.2]
    exact ⟨rfl, rfl⟩

theorem infix_of_not_mem {α : Type*} {l front back : List α} {a : α} (within : l <:+: front ++ a :: back)
    (other : a ∉ l) : l <:+: front ∨ l <:+: back := by
  obtain ⟨before, after, same⟩ := within
  rw [List.append_assoc] at same
  obtain ⟨middle, rfl, rest⟩ | ⟨middle, rfl, rest⟩ := List.append_eq_append_iff.mp same
  · obtain ⟨more, rfl, -⟩ | ⟨more, split, rest'⟩ := List.append_eq_append_iff.mp rest
    · exact .inl ⟨before, more, by rw [List.append_assoc]⟩
    · cases more with
      | nil =>
        rw [List.append_nil] at split
        exact .inl ⟨before, [], by rw [split, List.append_nil]⟩
      | cons b more =>
        obtain ⟨rfl, -⟩ := List.cons.inj rest'
        exact absurd (split ▸ List.mem_append_right _ List.mem_cons_self) other
  · cases middle with
    | nil =>
      cases l with
      | nil => exact .inr (List.nil_infix)
      | cons b l =>
        obtain ⟨rfl, -⟩ := List.cons.inj rest
        exact absurd List.mem_cons_self other
    | cons b middle =>
      obtain ⟨rfl, rfl⟩ := List.cons.inj rest
      exact .inr ⟨middle, after, List.append_assoc middle l after⟩

/-! ## Code spans -/

inductive Inline where
  | text (s : Str)
  | code (content : Str)
deriving DecidableEq

/-- What is before the first run of exactly `n` backticks and what is after it; `run` backticks have
been read just before. -/
def cutAtRun (n : Nat) : Nat → Str → Option (Str × Str)
  | run, [] => if run = n then some ([], []) else none
  | run, c :: s =>
    if c = '`' then cutAtRun n (run + 1) s
    else if run = n then some ([], c :: s)
    else do
      let (content, rest) ← cutAtRun n 0 s
      return (ticks run ++ c :: content, rest)

/-- One space is stripped from both ends when there is one at both and something else in between. -/
def stripSpan (content : Str) : Str :=
  if 2 ≤ content.length ∧ content.head? = some ' ' ∧ content.getLast? = some ' ' ∧
      content.any (· != ' ') then content.tail.dropLast
  else content

def readInline : Nat → Str → List Inline
  | 0, _ => []
  | _, [] => []
  | fuel + 1, c :: s =>
    if c = '`' then
      let run := (c :: s).takeWhile (· == '`')
      let after := (c :: s).dropWhile (· == '`')
      match cutAtRun run.length 0 after with
      | some (content, rest) => .code (stripSpan content) :: readInline fuel rest
      | none => .text run :: readInline fuel after
    else .text [c] :: readInline fuel s

def inlines (s : Str) : List Inline := readInline s.length s

theorem cutAtRun_append (run : Nat) (positive : 0 < n) (short : ¬ ticks n <:+: ticks run ++ s)
    (last : (ticks run ++ s).getLast? ≠ some '`') : cutAtRun n run (s ++ ticks n) = some (ticks run ++ s, []) := by
  induction s generalizing run with
  | nil =>
    cases run with
    | zero =>
      have counted : ∀ run k, cutAtRun n run (ticks k) = if run + k = n then some ([], []) else none := by
        intro run k
        induction k generalizing run with
        | zero => rfl
        | succ k ih =>
          show cutAtRun n run ('`' :: ticks k) = _
          rw [cutAtRun, if_pos rfl, ih, Nat.add_assoc, Nat.add_comm 1]
      rw [List.nil_append, counted, if_pos (Nat.zero_add n)]
      rfl
    | succ run =>
      rw [List.append_nil, ticks, List.getLast?_replicate, if_neg (Nat.succ_ne_zero run)] at last
      exact absurd rfl last
  | cons c s ih =>
    rw [List.cons_append, cutAtRun]
    by_cases tick : c = '`'
    · subst tick
      rw [← ticks_cons_append] at short last ⊢
      rw [if_pos rfl]
      exact ih (run + 1) short last
    · have other : run ≠ n := by
        rintro rfl
        exact short (List.prefix_append _ _).isInfix
      rw [if_neg tick, if_neg other, ih 0]
      · rfl
      · exact fun within => short (within.trans ⟨ticks run ++ [c], [], by simp [ticks]⟩)
      · cases s with
        | nil => simp [ticks]
        | cons d s => simpa [ticks, List.getLast?_append, List.getLast?_cons_cons] using last

theorem inlines_span (positive : 0 < n) (nonempty : content ≠ []) (short : ¬ ticks n <:+: content)
    (first : content.head? ≠ some '`') (last : content.getLast? ≠ some '`') :
    inlines (ticks n ++ content ++ ticks n) = [.code (stripSpan content)] := by
  obtain ⟨n, rfl⟩ := Nat.exists_eq_succ_of_ne_zero (Nat.ne_of_gt positive)
  have head : (content ++ ticks (n + 1)).head? ≠ some '`' := by
    cases content with
    | nil => exact absurd rfl nonempty
    | cons c content => exact first
  obtain ⟨opening, after⟩ := takeWhile_ticks (n + 1) (content ++ ticks (n + 1)) head
  have cut := cutAtRun_append 0 positive short last
  rw [List.append_assoc]
  rw [show ticks (n + 1) ++ (content ++ ticks (n + 1)) = '`' :: (ticks n ++ (content ++ ticks (n + 1))) from rfl]
    at opening after ⊢
  rw [inlines, List.length_cons, readInline, if_pos rfl]
  dsimp only
  rw [opening, after, ticks, List.length_replicate, ← ticks, cut]
  cases ticks n ++ (content ++ ticks (n + 1)) <;> rfl

/-! ## Fenced blocks -/

inductive LineEndings where
  | newline
  | newlineOrReturn
deriving DecidableEq

def LineEndings.has (endings : LineEndings) (c : Char) : Bool :=
  match endings with
  | .newline => c == '\n'
  | .newlineOrReturn => c == '\n' || c == '\r'

def LineEndings.lines (endings : LineEndings) : Str → List Str
  | [] => []
  | c :: s =>
    if endings.has c then [c] :: endings.lines s
    else
      match endings.lines s with
      | [] => [[c]]
      | line :: rest => (c :: line) :: rest

inductive LeafBlock where
  | code (info content : Str)
  | line (s : Str)
deriving DecidableEq

structure Fence where
  indent : Nat
  length : Nat
  info : Str

def LineEndings.body (endings : LineEndings) (line : Str) : Str := line.takeWhile fun c => !endings.has c

def LineEndings.openingFence (endings : LineEndings) (line : Str) : Option Fence :=
  let body := endings.body line
  let indent := (body.takeWhile (· == ' ')).length
  let fence := body.dropWhile (· == ' ')
  let length := (fence.takeWhile (· == '`')).length
  let info := fence.dropWhile (· == '`')
  if indent ≤ 3 ∧ 3 ≤ length ∧ '`' ∉ info then some ⟨indent, length, info⟩ else none

/-- Up to three spaces, at least as many backticks as the opening fence has, and blanks after them. -/
def LineEndings.isClosingFence (endings : LineEndings) (opening : Fence) (line : Str) : Bool :=
  let body := endings.body line
  let fence := body.dropWhile (· == ' ')
  (body.takeWhile (· == ' ')).length ≤ 3 && opening.length ≤ (fence.takeWhile (· == '`')).length &&
    (fence.dropWhile (· == '`')).all fun c => c == ' ' || c == '\t'

def withoutIndent (indent : Nat) (line : Str) : Str :=
  line.drop (min indent (line.takeWhile (· == ' ')).length)

def LineEndings.readLines (endings : LineEndings) : Option (Fence × Str) → List Str → List LeafBlock
  | none, [] => []
  | some (opening, content), [] => [.code opening.info content]
  | none, line :: rest =>
    match endings.openingFence line with
    | some opening => endings.readLines (some (opening, [])) rest
    | none => .line line :: endings.readLines none rest
  | some (opening, content), line :: rest =>
    if endings.isClosingFence opening line then .code opening.info content :: endings.readLines none rest
    else endings.readLines (some (opening, content ++ withoutIndent opening.indent line)) rest

def LineEndings.blocks (endings : LineEndings) (s : Str) : List LeafBlock := endings.readLines none (endings.lines s)

variable {endings : LineEndings}

theorem LineEndings.lines_line (line rest : Str) (ends : endings.has c = true)
    (within : ∀ d ∈ line, endings.has d = false) :
    endings.lines (line ++ c :: rest) = (line ++ [c]) :: endings.lines rest := by
  induction line with
  | nil => rw [List.nil_append, lines, if_pos ends, List.nil_append]
  | cons d line ih =>
    obtain ⟨other, later⟩ := List.forall_mem_cons.mp within
    rw [List.cons_append, lines, other, if_neg Bool.false_ne_true, ih later]
    rfl

theorem LineEndings.lines_flatten (s : Str) : (endings.lines s).flatten = s := by
  induction s with
  | nil => rfl
  | cons c s ih =>
    rw [lines]
    split_ifs
    · rw [List.flatten_cons, ih]
      rfl
    · cases lines : endings.lines s with
      | nil =>
        rw [lines] at ih
        rw [← ih]
        rfl
      | cons line others =>
        rw [lines] at ih
        rw [← ih]
        rfl

theorem LineEndings.lines_append (front rest : Str) (ends : endings.has c = true) :
    endings.lines (front ++ c :: rest) = endings.lines (front ++ [c]) ++ endings.lines rest := by
  induction front with
  | nil =>
    rw [List.nil_append, List.nil_append, lines, lines, if_pos ends, if_pos ends]
    rfl
  | cons d front ih =>
    rw [List.cons_append, List.cons_append, lines, lines, ih]
    split_ifs with own
    · rfl
    · cases lines : endings.lines (front ++ [c]) with
      | nil =>
        have whole := endings.lines_flatten (front ++ [c])
        rw [lines] at whole
        exact absurd whole.symm (List.append_ne_nil_of_right_ne_nil _ (List.cons_ne_nil _ _))
      | cons line others => rfl

theorem LineEndings.infix_of_mem_lines (inside : line ∈ endings.lines s) : line <:+: s := by
  rw [← endings.lines_flatten s]
  exact List.infix_of_mem_flatten inside

theorem LineEndings.body_line (line : Str) (ends : endings.has c = true)
    (within : ∀ d ∈ line, endings.has d = false) : endings.body (line ++ [c]) = line := by
  rw [body, List.takeWhile_append_of_pos fun d inside => by simp [within d inside],
    List.takeWhile_cons_of_neg (by simp [ends]), List.append_nil]

theorem LineEndings.has_newline (endings : LineEndings) : endings.has '\n' = true := by
  cases endings <;> rfl

theorem LineEndings.has_ticks (endings : LineEndings) {n : Nat} : ∀ c ∈ ticks n, endings.has c = false := by
  intro c inside
  rw [List.eq_of_mem_replicate inside]
  cases endings <;> rfl

theorem dropWhile_spaces_ticks (positive : 0 < n) (s : Str) :
    (ticks n ++ s).takeWhile (· == ' ') = [] ∧ (ticks n ++ s).dropWhile (· == ' ') = ticks n ++ s := by
  obtain ⟨n, rfl⟩ := Nat.exists_eq_succ_of_ne_zero (Nat.ne_of_gt positive)
  exact ⟨rfl, rfl⟩

theorem LineEndings.openingFence_ticks {info : Str} (three : 3 ≤ n) (plain : '`' ∉ info)
    (within : ∀ c ∈ info, endings.has c = false) :
    endings.openingFence (ticks n ++ info ++ ['\n']) = some ⟨0, n, info⟩ := by
  have inside : ∀ c ∈ ticks n ++ info, endings.has c = false := by
    intro c inside
    exact (List.mem_append.mp inside).elim (endings.has_ticks c) (within c)
  have first : info.head? ≠ some '`' := fun first => plain (List.mem_of_head? first)
  obtain ⟨blank, fence⟩ := dropWhile_spaces_ticks (n := n) (by omega) info
  obtain ⟨run, after⟩ := takeWhile_ticks n info first
  rw [openingFence, body_line _ endings.has_newline inside]
  rw [blank, fence, run, after, ticks, List.length_replicate]
  exact if_pos ⟨Nat.zero_le 3, three, plain⟩

theorem LineEndings.isClosingFence_ticks (opening : Fence) (positive : 0 < opening.length) :
    endings.isClosingFence opening (ticks opening.length ++ ['\n']) = true := by
  obtain ⟨blank, fence⟩ := dropWhile_spaces_ticks positive []
  obtain ⟨run, after⟩ := takeWhile_ticks opening.length [] (by simp)
  rw [List.append_nil] at blank fence run after
  rw [isClosingFence, body_line _ endings.has_newline endings.has_ticks]
  rw [blank, fence, run, after, ticks, List.length_replicate]
  simp

theorem LineEndings.infix_of_isClosingFence {opening : Fence} (closes : endings.isClosingFence opening line = true) :
    ticks opening.length <:+: line := by
  simp only [isClosingFence, Bool.and_eq_true, decide_eq_true_eq] at closes
  obtain ⟨⟨-, long⟩, -⟩ := closes
  set fence := (endings.body line).dropWhile (· == ' ')
  have run : fence.takeWhile (· == '`') = ticks (fence.takeWhile (· == '`')).length := by
    apply List.eq_replicate_of_mem
    intro c inside
    have tick : (c == '`') = true := List.mem_takeWhile_imp (p := (· == '`')) inside
    exact eq_of_beq tick
  have short : ticks opening.length <+: fence.takeWhile (· == '`') := by
    rw [run]
    exact ⟨ticks ((fence.takeWhile (· == '`')).length - opening.length), by
      rw [ticks, ticks, ticks, List.replicate_append_replicate, Nat.add_sub_cancel' long]⟩
  have within : fence <:+: line := (List.dropWhile_suffix _).isInfix.trans (List.takeWhile_prefix _).isInfix
  exact (short.trans (List.takeWhile_prefix _)).isInfix.trans within

theorem LineEndings.readLines_content {opening : Fence} (flush : opening.indent = 0) (lines rest : List Str)
    (content : Str) (inside : ∀ line ∈ lines, endings.isClosingFence opening line = false) :
    endings.readLines (some (opening, content))
    (lines ++ rest) = endings.readLines (some (opening, content ++ lines.flatten)) rest := by
  induction lines generalizing content with
  | nil => rw [List.nil_append, List.flatten_nil, List.append_nil]
  | cons line lines ih =>
    obtain ⟨other, later⟩ := List.forall_mem_cons.mp inside
    rw [List.cons_append, readLines, other, if_neg Bool.false_ne_true, ih _ later, withoutIndent, flush,
      Nat.zero_min, List.drop_zero, List.flatten_cons, List.append_assoc]

theorem LineEndings.blocks_fenced {info : Str} (three : 3 ≤ n) (short : ¬ ticks n <:+: text)
    (plain : '`' ∉ info) (within : ∀ c ∈ info, endings.has c = false) :
    endings.blocks (ticks n ++ info ++ '\n' :: (text ++ '\n' :: (ticks n ++ ['\n']))) =
      [.code info (text ++ ['\n'])] := by
  have inside : ∀ c ∈ ticks n ++ info, endings.has c = false := by
    intro c inside
    exact (List.mem_append.mp inside).elim (endings.has_ticks c) (within c)
  have content : ∀ line ∈ endings.lines (text ++ ['\n']), endings.isClosingFence ⟨0, n, info⟩ line = false := by
    intro line inside
    by_contra closes
    rw [Bool.not_eq_false] at closes
    have run := (infix_of_isClosingFence closes).trans (infix_of_mem_lines inside)
    have other : '\n' ∉ ticks n := fun newline => absurd (List.eq_of_mem_replicate newline) (by decide)
    obtain early | late := infix_of_not_mem run other
    · exact short early
    · have none := congrArg List.length (List.infix_nil.mp late)
      rw [ticks, List.length_replicate, List.length_nil] at none
      dsimp only at none
      omega
  have last : endings.lines (ticks n ++ ['\n']) = [ticks n ++ ['\n']] :=
    lines_line (ticks n) [] endings.has_newline endings.has_ticks
  rw [blocks, lines_line _ _ endings.has_newline inside, lines_append _ _ endings.has_newline, last, readLines,
    openingFence_ticks three plain within]
  dsimp only
  rw [readLines_content rfl _ _ _ content, lines_flatten, readLines,
    isClosingFence_ticks ⟨0, n, info⟩ (show 0 < n by omega), if_pos rfl]
  rfl

end Pinrail.Lib

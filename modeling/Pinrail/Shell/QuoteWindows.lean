import Pinrail.Lib.Rust

/-!
# Quoting for the C runtime

`ShellKind::quote_windows`, and the rules by which `CommandLineToArgvW` and the C runtime cut a
command line into arguments.
-/

namespace Pinrail.Shell

def backslashes (n : Nat) : Str := List.replicate n '\\'

/-- The `while` loop, with `numBackslashes` those of the run that is being read. -/
def quoteLoop : Nat → Str → Str
  | numBackslashes, [] => backslashes (numBackslashes * 2)
  | numBackslashes, c :: chars =>
    if c = '\\' then quoteLoop (numBackslashes + 1) chars
    else if c = '"' then backslashes (numBackslashes * 2 + 1) ++ '"' :: quoteLoop 0 chars
    else backslashes numBackslashes ++ c :: quoteLoop 0 chars

def quoteWindows (arg : Str) (enclose : Bool) : Str :=
  if arg.isEmpty then ['"', '"']
  else
    let needsQuoting := arg.any fun c => c == ' ' || c == '\t' || c == '"'
    if !needsQuoting then arg
    else
      let quote := if enclose then ['"'] else []
      quote ++ quoteLoop 0 arg ++ quote

/-! ## The argument rules -/

/-- The argument that is being read, with the backslashes that turned out to be literal. -/
def withBackslashes (current : Option Str) (n : Nat) : Option Str :=
  if n = 0 then current else some (current.getD [] ++ backslashes n)

/-- What is left of a command line, with the argument begun, whether the place is quoted, and the
number of backslashes just before it. -/
def readArguments : Option Str → Bool → Nat → Str → List Str
  | current, _, n, [] => (withBackslashes current n).toList
  | current, quoted, n, c :: line =>
    if c = '\\' then readArguments current quoted (n + 1) line
    else if c = '"' then
      let read := current.getD [] ++ backslashes (n / 2)
      if n % 2 = 0 then readArguments (some read) (!quoted) 0 line
      else readArguments (some (read ++ ['"'])) quoted 0 line
    else if (c = ' ' ∨ c = '\t') ∧ quoted = false then
      (withBackslashes current n).toList ++ readArguments none false 0 line
    else readArguments (some (current.getD [] ++ backslashes n ++ [c])) quoted 0 line

def argumentsOf (line : Str) : List Str := readArguments none false 0 line

def commandLine (args : List Str) : Str := [' '].intercalate (args.map fun arg => quoteWindows arg true)

variable {current : Option Str} {n : Nat} {rest : Str} {others : List Str}

theorem backslashes_succ_append (n : Nat) (arg : Str) : backslashes (n + 1) ++ arg = backslashes n ++ '\\' :: arg := by
  rw [backslashes, List.replicate_succ', List.append_assoc]
  rfl

/-! ## A quoted argument is read back -/

theorem readArguments_backslashes (current : Option Str) (quoted : Bool) (n k : Nat) (line : Str) :
    readArguments current quoted n (backslashes k ++ line) = readArguments current quoted (n + k) line := by
  induction k generalizing n with
  | zero => rfl
  | succ k ih =>
    have moved := ih (n + 1)
    rw [Nat.add_right_comm] at moved
    rw [← Nat.add_assoc, ← moved]
    show readArguments current quoted n ('\\' :: (backslashes k ++ line)) = _
    rw [readArguments, if_pos rfl]

theorem readArguments_toggle (current : Option Str) (quoted : Bool) (n : Nat) (line : Str) :
    readArguments current quoted (n * 2) ('"' :: line) =
      readArguments (some (current.getD [] ++ backslashes n)) (!quoted) 0 line := by
  rw [readArguments, if_neg (by decide), if_pos rfl]
  dsimp only
  rw [if_pos (by omega), Nat.mul_div_cancel n (by omega)]

theorem readArguments_literal (current : Option Str) (quoted : Bool) (n : Nat) (line : Str) :
    readArguments current quoted (n * 2 + 1) ('"' :: line) =
      readArguments (some (current.getD [] ++ backslashes n ++ ['"'])) quoted 0 line := by
  rw [readArguments, if_neg (by decide), if_pos rfl]
  dsimp only
  rw [if_neg (by omega), show (n * 2 + 1) / 2 = n from by omega]

theorem readArguments_quoteLoop (arg : Str) (current : Option Str) (n : Nat) (line : Str) :
    readArguments current true 0 (quoteLoop n arg ++ '"' :: line) =
      readArguments (some (current.getD [] ++ backslashes n ++ arg)) false 0 line := by
  induction arg generalizing current n with
  | nil =>
    rw [quoteLoop, readArguments_backslashes, Nat.zero_add, readArguments_toggle, List.append_nil]
    rfl
  | cons c arg ih =>
    rw [quoteLoop]
    split_ifs with slash quote
    · subst slash
      rw [ih, List.append_assoc, backslashes_succ_append, List.append_assoc]
    · subst quote
      rw [List.append_assoc, readArguments_backslashes, Nat.zero_add, List.cons_append, readArguments_literal, ih]
      simp [backslashes]
    · rw [List.append_assoc, readArguments_backslashes, Nat.zero_add, List.cons_append, readArguments,
        if_neg slash, if_neg quote, if_neg (by simp), ih]
      simp [backslashes]

def EndsArgument (rest : Str) (others : List Str) : Prop :=
  ∀ current n, readArguments current false n rest = (withBackslashes current n).toList ++ others

theorem endsArgument_nil : EndsArgument [] [] := by
  intro current n
  rw [readArguments, List.append_nil]

theorem endsArgument_space (line : Str) : EndsArgument (' ' :: line) (argumentsOf line) := by
  intro current n
  rw [readArguments, if_neg (by decide), if_neg (by decide), if_pos ⟨.inl rfl, rfl⟩]
  rfl

theorem EndsArgument.after (ends : EndsArgument rest others) (arg : Str) :
    readArguments (some arg) false 0 rest = arg :: others := ends (some arg) 0

theorem withBackslashes_of_begun (begun : n ≠ 0 ∨ current.isSome) :
    withBackslashes current n = some (current.getD [] ++ backslashes n) := by
  rw [withBackslashes]
  split_ifs with zero
  · subst zero
    obtain ⟨read, rfl⟩ := Option.isSome_iff_exists.mp (begun.resolve_left (· rfl))
    simp [backslashes]
  · rfl

theorem EndsArgument.plain (ends : EndsArgument rest others) (arg : Str)
    (plain : ∀ c ∈ arg, c ≠ ' ' ∧ c ≠ '\t' ∧ c ≠ '"') (current : Option Str) (n : Nat)
    (begun : arg ≠ [] ∨ n ≠ 0 ∨ current.isSome) :
    readArguments current false n (arg ++ rest) = (current.getD [] ++ backslashes n ++ arg) :: others := by
  induction arg generalizing current n with
  | nil =>
    rw [List.nil_append, List.append_nil, ends, withBackslashes_of_begun (begun.resolve_left (· rfl))]
    rfl
  | cons c arg ih =>
    obtain ⟨⟨space, tab, quote⟩, later⟩ := List.forall_mem_cons.mp plain
    rw [List.cons_append, readArguments]
    split_ifs with slash separator
    · subst slash
      rw [ih later current (n + 1) (.inr (.inl (Nat.succ_ne_zero n))), List.append_assoc,
        backslashes_succ_append, List.append_assoc]
    · exact absurd separator.1 (not_or.mpr ⟨space, tab⟩)
    · rw [ih later _ 0 (.inr (.inr rfl))]
      simp [backslashes]

theorem EndsArgument.quoted (ends : EndsArgument rest others) (arg : Str) :
    readArguments none false 0 (quoteWindows arg true ++ rest) = arg :: others := by
  simp only [quoteWindows, if_true]
  split_ifs with empty unquoted
  · rw [List.isEmpty_iff.mp empty]
    exact ends.after []
  · have plain : ∀ c ∈ arg, c ≠ ' ' ∧ c ≠ '\t' ∧ c ≠ '"' := by
      intro c inside
      simp only [Bool.not_eq_true', List.any_eq_false, Bool.or_eq_true, beq_iff_eq] at unquoted
      simpa only [not_or, and_assoc] using unquoted c inside
    exact ends.plain arg plain none 0 (.inl fun none => empty (List.isEmpty_iff.mpr none))
  · have opened := readArguments_toggle none false 0 (quoteLoop 0 arg ++ '"' :: rest)
    have closed := readArguments_quoteLoop arg (some []) 0 rest
    simp only [List.append_assoc, List.cons_append, List.nil_append]
    exact opened.trans (closed.trans (ends.after arg))

/-- The arguments of a line of quoted arguments are the arguments that were quoted. -/
theorem argumentsOf_commandLine (args : List Str) : argumentsOf (commandLine args) = args := by
  induction args with
  | nil => rfl
  | cons arg args ih =>
    cases args with
    | nil => exact endsArgument_nil.quoted arg
    | cons next args =>
      have first := (endsArgument_space (commandLine (next :: args))).quoted arg
      rw [ih] at first
      exact first

example : commandLine ["a\\\" ".toList, [], "c\\".toList] = "\"a\\\\\\\" \" \"\" c\\".toList := by decide

end Pinrail.Shell

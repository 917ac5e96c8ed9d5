import Mathlib.Data.List.TakeWhile
import Pinrail.Lib.Utf8

/-!
# Quoting for PowerShell

`ShellKind::quote_pwsh`, and how PowerShell cuts what follows a command name into arguments. The
characters that force quotes, those that are doubled inside them and those that PowerShell takes for
quotes are three tables.
-/

namespace Pinrail.Shell

open Lib

def needsQuotingPowershell (s : Str) : Bool :=
  s.isEmpty || s.any fun c => isWhitespace c ||
    ['"', '`', '$', '&', '|', '<', '>', ';', '(', ')', '[', ']', '{', '}', ',', '\'', '@'].contains c

def escapePowershellQuotes (s : Str) : Str :=
  '\'' :: s.flatMap (fun c => if c = '\'' then ['\'', c] else [c]) ++ ['\'']

def quotePwsh (arg : Str) : Str :=
  if arg.isEmpty then ['\'', '\'']
  else if !needsQuotingPowershell arg then arg
  else escapePowershellQuotes arg

/-! ## PowerShell's words -/

def isCurlySingle (c : Char) : Bool := 0x2018 ≤ c.toNat && c.toNat ≤ 0x201B

def isCurlyDouble (c : Char) : Bool := 0x201C ≤ c.toNat && c.toNat ≤ 0x201E

def isSingleQuote (c : Char) : Bool := c == '\'' || isCurlySingle c

def isDoubleQuote (c : Char) : Bool := c == '"' || isCurlyDouble c

def hasMeaning (c : Char) : Bool :=
  ['`', '$', '&', '|', '<', '>', ';', '(', ')', '{', '}', ','].contains c

def isNewline (c : Char) : Bool := c == '\n' || c == '\r'

/-- A string after its opening quote: its value and the text after the closing quote. Two quotes in a
row stand for the second one. -/
def quotedString (quote expands : Char → Bool) : Str → Option (Str × Str)
  | [] => none
  | c :: text =>
    if quote c then
      match text with
      | [] => some ([], [])
      | next :: text =>
        if quote next then do
          let (value, rest) ← quotedString quote expands text
          return (next :: value, rest)
        else some ([], next :: text)
    else if expands c then none
    else do
      let (value, rest) ← quotedString quote expands text
      return (c :: value, rest)

def singleString : Str → Option (Str × Str) := quotedString isSingleQuote fun _ => false

def doubleString : Str → Option (Str × Str) := quotedString isDoubleQuote fun c => c == '$' || c == '`'

def bareWord : Nat → Str → Option (Str × Str)
  | 0, _ => none
  | _ + 1, [] => some ([], [])
  | fuel + 1, c :: text =>
    if isWhitespace c then some ([], c :: text)
    else if isSingleQuote c then do
      let (value, text) ← singleString text
      let (word, rest) ← bareWord fuel text
      return (value ++ word, rest)
    else if isDoubleQuote c then do
      let (value, text) ← doubleString text
      let (word, rest) ← bareWord fuel text
      return (value ++ word, rest)
    else if hasMeaning c then none
    else do
      let (word, rest) ← bareWord fuel text
      return (c :: word, rest)

/-- The word that starts with `c`. A string at the start of a word is an argument of its own. -/
def firstWord (c : Char) (text : Str) : Option (Str × Str) :=
  if isSingleQuote c then singleString text
  else if isDoubleQuote c then doubleString text
  else bareWord (text.length + 2) (c :: text)

/-- The words of one command; `none` when the text is more than that. At the start of a word `#` begins
a comment. -/
def readWords : Nat → Str → Option (List Str)
  | 0, _ => none
  | _ + 1, [] => some []
  | fuel + 1, c :: text =>
    if isNewline c then none
    else if isWhitespace c then readWords fuel text
    else if c = '#' then readWords fuel (text.dropWhile fun c => !isNewline c)
    else do
      let (word, rest) ← firstWord c text
      return word :: (← readWords fuel rest)

def arguments (text : Str) : Option (List Str) := readWords (text.length + 1) text

/-! ## A string read loses quotes -/

variable {quote expands : Char → Bool} {text value word rest s arg : Str}

def isQuote (c : Char) : Bool := isSingleQuote c || isDoubleQuote c

theorem quotedString_countP {p : Char → Bool} {b : Bool} (same : ∀ c, quote c → p c = b)
    (read : quotedString quote expands text = some (value, rest)) :
    text.countP p = value.countP p + rest.countP p + b.toNat * (value.countP quote + 1) := by
  fun_induction quotedString quote expands text generalizing value rest with
  | case1 => cases read
  | case2 c closes =>
    cases read
    cases b <;> simp [same c closes]
  | case3 c first next text second ih =>
    simp only [Option.bind_eq_bind, Option.bind_eq_some_iff, Option.pure_def] at read
    obtain ⟨⟨inner, rest⟩, read, returned⟩ := read
    cases returned
    have counted := ih read
    cases b <;> simp [same c first, same next second, second, counted]
    omega
  | case4 c closes next text other =>
    cases read
    cases b <;> simp [same c closes]
  | case5 => cases read
  | case6 c text plain unexpanded ih =>
    simp only [Option.bind_eq_bind, Option.bind_eq_some_iff, Option.pure_def] at read
    obtain ⟨⟨inner, rest⟩, read, returned⟩ := read
    cases returned
    have counted := ih read
    dsimp only
    rw [List.countP_cons, List.countP_cons, List.countP_cons_of_neg plain, counted]
    omega

theorem singleString_countP (read : singleString text = some (value, rest)) :
    text.countP isSingleQuote = 2 * value.countP isSingleQuote + rest.countP isSingleQuote + 1 := by
  have counted := quotedString_countP (b := true) (fun _ single => single) read
  rw [Bool.toNat_true] at counted
  omega

theorem quotedString_isQuote (same : ∀ c, quote c → isQuote c = true)
    (read : quotedString quote expands text = some (value, rest)) :
    value.countP isQuote + rest.countP isQuote < text.countP isQuote := by
  have counted := quotedString_countP same read
  rw [Bool.toNat_true] at counted
  omega

theorem singleString_isQuote (read : singleString text = some (value, rest)) :
    value.countP isQuote + rest.countP isQuote < text.countP isQuote := by
  apply quotedString_isQuote _ read
  intro c single
  rw [isQuote, single, Bool.true_or]

theorem doubleString_isQuote (read : doubleString text = some (value, rest)) :
    value.countP isQuote + rest.countP isQuote < text.countP isQuote := by
  apply quotedString_isQuote _ read
  intro c double
  rw [isQuote, double, Bool.or_true]

def LosesQuotes (text word rest : Str) : Prop :=
  rest.countP isQuote ≤ text.countP isQuote ∧
    (word.countP isQuote ≠ 0 → word.countP isQuote + rest.countP isQuote < text.countP isQuote)

theorem LosesQuotes.of_lt (less : value.countP isQuote + rest.countP isQuote < text.countP isQuote) :
    LosesQuotes text value rest := ⟨by omega, fun _ => less⟩

theorem LosesQuotes.cons {c : Char} (loses : LosesQuotes text word rest) : LosesQuotes (c :: text) word rest := by
  have le : text.countP isQuote ≤ (c :: text).countP isQuote := (List.sublist_cons_self c text).countP_le
  exact ⟨Nat.le_trans loses.1 le, fun some => Nat.lt_of_lt_of_le (loses.2 some) le⟩

theorem LosesQuotes.append {middle : Str} (first : LosesQuotes text value middle)
    (second : LosesQuotes middle word rest) : LosesQuotes text (value ++ word) rest := by
  obtain ⟨before, fewer⟩ := first
  obtain ⟨after, fewer'⟩ := second
  refine ⟨Nat.le_trans after before, fun some => ?_⟩
  rw [List.countP_append] at some ⊢
  by_cases none : word.countP isQuote = 0
  · have := fewer (by omega)
    omega
  · have := fewer' none
    by_cases none' : value.countP isQuote = 0
    · omega
    · have := fewer none'
      omega

theorem bareWord_loses {fuel : Nat} (read : bareWord fuel text = some (word, rest)) : LosesQuotes text word rest := by
  fun_induction bareWord fuel text generalizing word rest with
  | case1 => cases read
  | case2 =>
    cases read
    exact ⟨le_rfl, fun some => absurd rfl some⟩
  | case3 =>
    cases read
    exact ⟨le_rfl, fun some => absurd rfl some⟩
  | case4 fuel c text _ single ih =>
    simp only [Option.bind_eq_bind, Option.bind_eq_some_iff, Option.pure_def] at read
    obtain ⟨⟨value, middle⟩, string, ⟨later, rest⟩, read, returned⟩ := read
    cases returned
    exact ((LosesQuotes.of_lt (singleString_isQuote string)).append (ih middle read)).cons
  | case5 fuel c text _ _ double ih =>
    simp only [Option.bind_eq_bind, Option.bind_eq_some_iff, Option.pure_def] at read
    obtain ⟨⟨value, middle⟩, string, ⟨later, rest⟩, read, returned⟩ := read
    cases returned
    exact ((LosesQuotes.of_lt (doubleString_isQuote string)).append (ih middle read)).cons
  | case6 => cases read
  | case7 fuel c text _ single double _ ih =>
    simp only [Option.bind_eq_bind, Option.bind_eq_some_iff, Option.pure_def] at read
    obtain ⟨⟨later, rest⟩, read, returned⟩ := read
    cases returned
    have plain : ¬ isQuote c = true := by
      rw [isQuote, Bool.or_eq_true]
      exact not_or.mpr ⟨single, double⟩
    rw [LosesQuotes, List.countP_cons_of_neg plain, List.countP_cons_of_neg plain]
    exact ih read

theorem firstWord_loses {c : Char} (read : firstWord c text = some (word, rest)) :
    LosesQuotes (c :: text) word rest := by
  rw [firstWord] at read
  split_ifs at read
  · exact (LosesQuotes.of_lt (singleString_isQuote read)).cons
  · exact (LosesQuotes.of_lt (doubleString_isQuote read)).cons
  · exact bareWord_loses read

theorem readWords_loses {fuel : Nat} {words : List Str} (read : readWords fuel text = some words) :
    LosesQuotes text words.flatten [] := by
  fun_induction readWords fuel text generalizing words with
  | case1 => cases read
  | case2 =>
    cases read
    exact ⟨le_rfl, fun some => absurd rfl some⟩
  | case3 => cases read
  | case4 fuel c text _ _ ih => exact (ih read).cons
  | case5 fuel text _ _ ih =>
    obtain ⟨-, fewer⟩ := ih read
    have le : (text.dropWhile fun c => !isNewline c).countP isQuote ≤ text.countP isQuote :=
      (List.dropWhile_sublist _).countP_le
    exact LosesQuotes.cons ⟨Nat.zero_le _, fun some => Nat.lt_of_lt_of_le (fewer some) le⟩
  | case6 fuel c text _ _ _ ih =>
    simp only [Option.bind_eq_bind, Option.bind_eq_some_iff, Option.pure_def] at read
    obtain ⟨⟨word, middle⟩, first, later, read, returned⟩ := read
    cases returned
    exact (firstWord_loses first).append (ih middle read)

/-! ## What is read as it was written -/

theorem arguments_no_quotes (read : arguments arg = some [arg]) : arg.countP isQuote = 0 := by
  obtain ⟨-, fewer⟩ := readWords_loses read
  rw [List.flatten_singleton] at fewer
  by_contra some
  exact lt_irrefl _ (fewer some)

theorem bareWord_plain {fuel : Nat} (enough : text.length < fuel)
    (plain : ∀ c ∈ text, isWhitespace c = false ∧ isQuote c = false ∧ hasMeaning c = false) :
    bareWord fuel text = some (text, []) := by
  induction text generalizing fuel with
  | nil =>
    obtain ⟨fuel, rfl⟩ := Nat.exists_eq_succ_of_ne_zero (Nat.ne_zero_of_lt enough)
    rfl
  | cons c text ih =>
    obtain ⟨fuel, rfl⟩ := Nat.exists_eq_succ_of_ne_zero (Nat.ne_zero_of_lt enough)
    obtain ⟨⟨space, quote, meaning⟩, later⟩ := List.forall_mem_cons.mp plain
    obtain ⟨single, double⟩ := Bool.or_eq_false_iff.mp quote
    rw [bareWord, space, single, double, meaning, ih (Nat.lt_of_succ_lt_succ enough) later]
    rfl

theorem quotedString_escaped (s : Str) (plain : ∀ c ∈ s, isCurlySingle c = false) :
    singleString (s.flatMap (fun c => if c = '\'' then ['\'', c] else [c]) ++ ['\'']) = some (s, []) := by
  induction s with
  | nil => rfl
  | cons c s ih =>
    obtain ⟨straight, later⟩ := List.forall_mem_cons.mp plain
    have read := ih later
    rw [singleString] at read ⊢
    rw [List.flatMap_cons]
    split_ifs with ascii
    · subst ascii
      simp only [List.cons_append, List.nil_append]
      rw [quotedString, if_pos (by decide)]
      dsimp only
      rw [if_pos (by decide), read]
      rfl
    · have other : isSingleQuote c = false := by
        rw [isSingleQuote, straight, Bool.or_false]
        exact beq_false_of_ne ascii
      simp only [List.cons_append, List.nil_append]
      rw [quotedString.eq_def]
      dsimp only
      rw [other, read]
      rfl

theorem arguments_plain (nonempty : arg ≠ []) (comment : arg.head? ≠ some '#')
    (plain : ∀ c ∈ arg, isWhitespace c = false ∧ isQuote c = false ∧ hasMeaning c = false) :
    arguments arg = some [arg] := by
  cases arg with
  | nil => exact absurd rfl nonempty
  | cons c arg =>
    obtain ⟨space, quote, -⟩ := plain c List.mem_cons_self
    obtain ⟨single, double⟩ := Bool.or_eq_false_iff.mp quote
    have line : ¬ isNewline c = true := by
      intro newline
      rw [isNewline, Bool.or_eq_true, beq_iff_eq, beq_iff_eq] at newline
      obtain rfl | rfl := newline <;> exact absurd space (by decide)
    have word : firstWord c arg = some (c :: arg, []) := by
      rw [firstWord, single, double, if_neg (by decide), if_neg (by decide)]
      exact bareWord_plain (Nat.lt_succ_self _) plain
    rw [arguments, readWords, if_neg line, space, if_neg (by decide),
      if_neg fun hash => comment (congrArg _ hash), word]
    rfl

theorem arguments_string {first : Str} (read : arguments ('\'' :: text) = some [first]) :
    ∃ rest, singleString text = some (first, rest) := by
  rw [arguments, readWords, if_neg (by decide), if_neg (by decide), if_neg (by decide), firstWord,
    if_pos (by decide)] at read
  simp only [Option.bind_eq_bind, Option.bind_eq_some_iff, Option.pure_def] at read
  obtain ⟨⟨value, rest⟩, string, later, -, returned⟩ := read
  cases returned
  exact ⟨rest, string⟩

theorem arguments_of_string (read : singleString text = some (value, [])) :
    arguments ('\'' :: text) = some [value] := by
  rw [arguments, readWords, if_neg (by decide), if_neg (by decide), if_neg (by decide), firstWord,
    if_pos (by decide), read]
  cases text with
  | nil => cases read
  | cons c text => rfl

theorem arguments_comment (line : ∀ c ∈ text, isNewline c = false) : arguments ('#' :: text) = some [] := by
  have skipped : (text.dropWhile fun c => !isNewline c) = [] := by
    apply List.dropWhile_eq_nil_iff.mpr
    intro c inside
    rw [line c inside, Bool.not_false]
  rw [arguments, readWords, if_neg (by decide), if_neg (by decide), if_pos rfl, skipped]
  rfl

/-! ## When the argument arrives -/

theorem countP_isSingleQuote (s : Str) : s.countP isSingleQuote = s.count '\'' + s.countP isCurlySingle := by
  induction s with
  | nil => rfl
  | cons c s ih =>
    rw [List.countP_cons, List.countP_cons, List.count_cons, ih, isSingleQuote]
    by_cases ascii : c = '\''
    · subst ascii
      rw [show isCurlySingle '\'' = false from by decide, if_pos (by decide), if_pos (by decide), if_neg (by decide)]
      omega
    · rw [beq_false_of_ne ascii, Bool.false_or, if_neg Bool.false_ne_true]
      omega

theorem countP_escaped (s : Str) :
    (s.flatMap fun c => if c = '\'' then ['\'', c] else [c]).countP isSingleQuote =
      s.countP isSingleQuote + s.count '\'' := by
  induction s with
  | nil => rfl
  | cons c s ih =>
    rw [List.flatMap_cons, List.countP_append, List.countP_cons, List.count_cons, ih]
    by_cases ascii : c = '\''
    · subst ascii
      rw [if_pos rfl, if_pos (by decide), if_pos (by decide),
        show List.countP isSingleQuote ['\'', '\''] = 2 from by decide]
      omega
    · rw [if_neg ascii, List.countP_singleton, beq_false_of_ne ascii, if_neg Bool.false_ne_true]
      omega

theorem arguments_escaped_iff (arg : Str) :
    arguments (escapePowershellQuotes arg) = some [arg] ↔ ∀ c ∈ arg, isCurlySingle c = false := by
  rw [escapePowershellQuotes, List.cons_append]
  constructor
  · intro read
    obtain ⟨rest, string⟩ := arguments_string read
    have counted := singleString_countP string
    rw [List.countP_append, countP_escaped, countP_isSingleQuote,
      show List.countP isSingleQuote ['\''] = 1 from rfl] at counted
    have curly : arg.countP isCurlySingle = 0 := by omega
    simpa only [List.countP_eq_zero, Bool.not_eq_true] using curly
  · exact fun plain => arguments_of_string (quotedString_escaped arg plain)

theorem plain_of_not_needsQuoting (bare : needsQuotingPowershell arg = false) :
    arg ≠ [] ∧ ∀ c ∈ arg, isWhitespace c = false ∧ c ≠ '\'' ∧ c ≠ '"' ∧ hasMeaning c = false := by
  rw [needsQuotingPowershell, Bool.or_eq_false_iff, List.any_eq_false] at bare
  refine ⟨fun none => absurd bare.1 (by rw [none]; decide), fun c inside => ?_⟩
  obtain ⟨space, listed⟩ := not_or.mp (mt (Bool.or_eq_true _ _).mpr (bare.2 c inside))
  simp only [List.contains_eq_mem, List.mem_cons, List.not_mem_nil, decide_eq_true_eq, not_or] at listed
  simp only [hasMeaning, List.contains_eq_mem, List.mem_cons, List.not_mem_nil, decide_eq_false_iff_not, not_or]
  refine ⟨Bool.eq_false_iff.mpr space, ?_⟩
  tauto

theorem arguments_bare_iff (bare : needsQuotingPowershell arg = false) : arguments arg = some [arg] ↔
    (∀ c ∈ arg, isCurlySingle c = false) ∧ (∀ c ∈ arg, isCurlyDouble c = false) ∧ arg.head? ≠ some '#' := by
  obtain ⟨nonempty, plain⟩ := plain_of_not_needsQuoting bare
  have quote_iff : ∀ c ∈ arg, isQuote c = false ↔ isCurlySingle c = false ∧ isCurlyDouble c = false := by
    intro c inside
    obtain ⟨-, single, double, -⟩ := plain c inside
    rw [isQuote, isSingleQuote, isDoubleQuote, beq_false_of_ne single, beq_false_of_ne double,
      Bool.false_or, Bool.false_or, Bool.or_eq_false_iff]
  constructor
  · intro read
    have quotes := arguments_no_quotes read
    simp only [List.countP_eq_zero, Bool.not_eq_true] at quotes
    refine ⟨fun c inside => ((quote_iff c inside).mp (quotes c inside)).1,
      fun c inside => ((quote_iff c inside).mp (quotes c inside)).2, fun comment => ?_⟩
    obtain ⟨text, rfl⟩ := List.head?_eq_some_iff.mp comment
    rw [arguments_comment] at read
    · cases read
    · intro c inside
      by_contra newline
      rw [Bool.not_eq_false, isNewline, Bool.or_eq_true, beq_iff_eq, beq_iff_eq] at newline
      have space := (plain c (List.mem_cons_of_mem _ inside)).1
      obtain rfl | rfl := newline <;> exact absurd space (by decide)
  · rintro ⟨single, double, comment⟩
    apply arguments_plain nonempty comment
    intro c inside
    exact ⟨(plain c inside).1, (quote_iff c inside).mpr ⟨single c inside, double c inside⟩, (plain c inside).2.2.2⟩

/-- The argument arrives as it is exactly when it has no curly single quotes and, if it was not quoted,
no curly double quotes and no `#` in front. -/
theorem arguments_quotePwsh_iff (arg : Str) : arguments (quotePwsh arg) = some [arg] ↔
    (∀ c ∈ arg, isCurlySingle c = false) ∧
    (needsQuotingPowershell arg = false → (∀ c ∈ arg, isCurlyDouble c = false) ∧ arg.head? ≠ some '#') := by
  rw [quotePwsh]
  split_ifs with empty bare
  · obtain rfl := List.isEmpty_iff.mp empty
    simp [show arguments ['\'', '\''] = some [[]] from by decide, needsQuotingPowershell]
  · rw [Bool.not_eq_true'] at bare
    rw [arguments_bare_iff bare]
    tauto
  · rw [Bool.not_eq_true', Bool.not_eq_false] at bare
    rw [arguments_escaped_iff, bare]
    tauto

/-- A curly quote in the argument closes the string, and what follows it is a command. -/
theorem quotePwsh_escapes :
    let arg := ['\u2019', ';', 'c', 'a', 'l', 'c', ';', '\u2019']
    quotePwsh arg = '\'' :: arg ++ ['\''] ∧
      singleString (arg ++ ['\'']) = some ([], [';', 'c', 'a', 'l', 'c', ';', '\u2019', '\'']) ∧
      arguments (quotePwsh arg) ≠ some [arg] := by
  decide

end Pinrail.Shell

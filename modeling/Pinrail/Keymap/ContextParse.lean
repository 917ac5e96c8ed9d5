import Pinrail.Keymap.Parsing

/-!
# Parsing key contexts

`KeyContext::parse` of `keymap/context.rs`: identifiers and pairs of a key and a value, separated by
white space. A character that neither an entry nor white space can take is never consumed, and
`parse_expr` then calls itself on the same remainder for ever.
-/

namespace Pinrail.Keymap
open Lib

namespace KeyContext

def add (self : KeyContext) (identifier : SharedString) : KeyContext :=
  if self.contains identifier then self else ⟨self.entries ++ [⟨identifier, none⟩]⟩

def set (self : KeyContext) (key value : SharedString) : KeyContext :=
  if self.contains key then self else ⟨self.entries ++ [⟨key, some value⟩]⟩

variable [Alphabet]

def parseExprFor : Nat → Str → KeyContext → Parsed KeyContext
  | 0, _, _ => throw (.panic .outOfFuel)
  | _ + 1, [], context => return context
  | fuel + 1, next :: tail, context => do
    let source := next :: tail
    let key := source.takeWhile isIdentifierChar
    let source ← skipWhitespace (← unwinding (sliceFromByte source (byteLen key)))
    match source with
    | '=' :: suffix => do
      let source ← skipWhitespace suffix
      let value := source.takeWhile isIdentifierChar
      let source ← skipWhitespace (← unwinding (sliceFromByte source (byteLen value)))
      parseExprFor fuel source (context.set key value)
    | source => parseExprFor fuel source (context.add key)

/-- `KeyContext::parse`, with at most `fuel` calls of `parse_expr`. -/
def parseFor (fuel : Nat) (source : Str) : Parsed KeyContext := do
  let source ← skipWhitespace source
  parseExprFor fuel source ⟨[]⟩

/-! ## What a context says -/

/-- The entries of an input in order: identifiers that no `=` follows, and pairs, of which either side
may be empty. Words are as long as they can be. -/
inductive Lists : List ContextEntry → Str → Prop where
  | nil {blank : Str} (blanks : ∀ c ∈ blank, isWhitespace c = true) : Lists [] blank
  | identifier {blank key tail : Str} {entries : List ContextEntry}
      (blanks : ∀ c ∈ blank, isWhitespace c = true) (nonempty : key ≠ [])
      (word : ∀ c ∈ key, isIdentifierChar c = true)
      (ends : ∀ c ∈ tail.head?, isIdentifierChar c = false) (bare : '=' ∉ (skip tail).head?)
      (rest : Lists entries tail) : Lists (⟨key, none⟩ :: entries) (blank ++ key ++ tail)
  | pair {blank key gap gap' value tail : Str} {entries : List ContextEntry}
      (blanks : ∀ c ∈ blank, isWhitespace c = true)
      (keyWord : ∀ c ∈ key, isIdentifierChar c = true)
      (gapBlanks : ∀ c ∈ gap ++ gap', isWhitespace c = true)
      (full : ∀ c ∈ (value ++ tail).head?, isWhitespace c = false)
      (word : ∀ c ∈ value, isIdentifierChar c = true)
      (ends : ∀ c ∈ tail.head?, isIdentifierChar c = false)
      (rest : Lists entries tail) :
      Lists (⟨key, some value⟩ :: entries) (blank ++ key ++ gap ++ '=' :: gap' ++ value ++ tail)

def keepFirst : List ContextEntry → List ContextEntry
  | [] => []
  | entry :: entries => entry :: (keepFirst entries).filter fun other => other.key ≠ entry.key

/-! ## One entry -/

/-- What one call of `parse_expr` reads, and what it leaves. -/
def readEntry (source : Str) : ContextEntry × Str :=
  let key := source.takeWhile isIdentifierChar
  match skip (source.dropWhile isIdentifierChar) with
  | '=' :: suffix =>
    (⟨key, some ((skip suffix).takeWhile isIdentifierChar)⟩, skip ((skip suffix).dropWhile isIdentifierChar))
  | source => (⟨key, none⟩, source)

/-- `add` or `set`. -/
def insert (self : KeyContext) (entry : ContextEntry) : KeyContext :=
  if self.contains entry.key then self else ⟨self.entries ++ [entry]⟩

theorem slice_word (source : Str) : unwinding (sliceFromByte source (byteLen (source.takeWhile isIdentifierChar))) =
      .ok (source.dropWhile isIdentifierChar) := by
  have slice : unwinding (sliceFromByte (source.takeWhile isIdentifierChar ++
      source.dropWhile isIdentifierChar) (byteLen (source.takeWhile isIdentifierChar))) =
      .ok (source.dropWhile isIdentifierChar) := slice_operator
  rwa [List.takeWhile_append_dropWhile] at slice

theorem parseExprFor_succ (fuel : Nat) {source : Str} (nonempty : source ≠ [])
    (context : KeyContext) : parseExprFor (fuel + 1) source context =
      parseExprFor fuel (readEntry source).2 (context.insert (readEntry source).1) := by
  obtain ⟨next, tail, rfl⟩ := List.exists_cons_of_ne_nil nonempty
  rw [parseExprFor]
  simp only [slice_word, skipWhitespace_eq, ok_bind, readEntry]
  split
  · rfl
  · rfl

/-! ## Repeated keys -/

omit [Alphabet] in
theorem keepFirst_filter (p : SharedString → Bool) (entries : List ContextEntry) :
    keepFirst (entries.filter fun entry => p entry.key) = (keepFirst entries).filter fun entry => p entry.key := by
  induction entries with
  | nil => rfl
  | cons entry entries ih =>
    cases kept : p entry.key with
    | true =>
      rw [List.filter_cons_of_pos (by simpa using kept), keepFirst, keepFirst, ih,
        List.filter_cons_of_pos (by simpa using kept), List.filter_filter, List.filter_filter]
      simp only [Bool.and_comm]
    | false =>
      rw [List.filter_cons_of_neg (by simp [kept]), keepFirst, List.filter_cons_of_neg (by simp [kept]),
        ih, List.filter_filter]
      refine List.filter_congr fun other _ => ?_
      cases held : p other.key with
      | false => rfl
      | true =>
        have apart : other.key ≠ entry.key := by
          intro same
          rw [same, kept] at held
          cases held
        simp [apart]

omit [Alphabet] in
theorem insert_entries (context : KeyContext) (entries : List ContextEntry) : (entries.foldl insert context).entries =
      context.entries ++ keepFirst (entries.filter fun entry => !context.contains entry.key) := by
  induction entries generalizing context with
  | nil => simp [keepFirst]
  | cons entry entries ih =>
    rw [List.foldl_cons, ih]
    cases known : context.contains entry.key with
    | true =>
      rw [insert, if_pos known, List.filter_cons_of_neg (by simp [known])]
    | false =>
      rw [List.filter_cons_of_pos (by simp [known]), keepFirst, insert, if_neg (by simp [known]),
        List.append_assoc, List.singleton_append]
      have fresh : (entries.filter fun other =>
          !(⟨context.entries ++ [entry]⟩ : KeyContext).contains other.key) =
          (entries.filter fun other => !context.contains other.key).filter fun other =>
            decide (other.key ≠ entry.key) := by
        rw [List.filter_filter]
        refine List.filter_congr fun other _ => ?_
        have same : (entry.key == other.key) = decide (other.key = entry.key) := by
          rw [Bool.eq_iff_iff, beq_iff_eq, decide_eq_true_iff, eq_comm]
        simp only [contains, List.any_append, List.any_cons, List.any_nil, Bool.or_false, Bool.not_or, same, decide_not]
        exact Bool.and_comm _ _
      rw [fresh, keepFirst_filter fun key => decide (key ≠ entry.key)]

/-! ## What is read -/

def Readable (c : Char) : Prop :=
  isWhitespace c = true ∨ isIdentifierChar c = true ∨ c = '='

omit [Alphabet] in
theorem not_head_dropWhile (p : Char → Bool) (source : Str) : ∀ c ∈ (source.dropWhile p).head?, p c = false := by
  intro c found
  have stops := List.head?_dropWhile_not p source
  rw [Option.mem_def.mp found] at stops
  exact stops

omit [Alphabet] in
theorem mem_dropWhile {p : Char → Bool} {source : Str} {c : Char} (member : c ∈ source)
    (fails : p c = false) : c ∈ source.dropWhile p := by
  rw [← List.takeWhile_append_dropWhile (p := p) (l := source)] at member
  rcases List.mem_append.mp member with taken | dropped
  · rw [List.mem_takeWhile_imp taken] at fails
    cases fails
  · exact dropped

omit [Alphabet] in
theorem mem_of_mem_dropWhile {p : Char → Bool} {source : Str} {c : Char}
    (member : c ∈ source.dropWhile p) : c ∈ source :=
  (List.dropWhile_sublist p).subset member

theorem readEntry_cases (source : Str) : (∃ suffix, skip (source.dropWhile isIdentifierChar) = '=' :: suffix ∧
      readEntry source = (⟨source.takeWhile isIdentifierChar, some ((skip suffix).takeWhile isIdentifierChar)⟩,
        skip ((skip suffix).dropWhile isIdentifierChar))) ∨
    ('=' ∉ (skip (source.dropWhile isIdentifierChar)).head? ∧
      readEntry source = (⟨source.takeWhile isIdentifierChar, none⟩, skip (source.dropWhile isIdentifierChar))) := by
  unfold readEntry
  simp only
  split
  · rename_i suffix found
    exact .inl ⟨suffix, found, rfl⟩
  · rename_i other
    refine .inr ⟨fun found => ?_, rfl⟩
    obtain ⟨suffix, eq⟩ := List.head?_eq_some_iff.mp (Option.mem_def.mp found)
    exact other suffix eq

theorem readEntry_trimmed (source : Str) : ∀ c ∈ (readEntry source).2.head?, isWhitespace c = false := by
  rcases readEntry_cases source with ⟨suffix, -, eq⟩ | ⟨-, eq⟩
  · rw [eq]
    exact not_head_dropWhile _ _
  · rw [eq]
    exact not_head_dropWhile _ _

theorem mem_of_mem_readEntry {source : Str} {c : Char} (member : c ∈ (readEntry source).2) : c ∈ source := by
  rcases readEntry_cases source with ⟨suffix, found, eq⟩ | ⟨-, eq⟩
  · rw [eq] at member
    have inSuffix := mem_of_mem_dropWhile (mem_of_mem_dropWhile (mem_of_mem_dropWhile member))
    have inSkipped : c ∈ skip (source.dropWhile isIdentifierChar) := by
      rw [found]
      exact List.mem_cons_of_mem _ inSuffix
    exact mem_of_mem_dropWhile (mem_of_mem_dropWhile inSkipped)
  · rw [eq] at member
    exact mem_of_mem_dropWhile (mem_of_mem_dropWhile member)

theorem mem_readEntry {source : Str} {c : Char} (member : c ∈ source) (unreadable : ¬ Readable c) :
    c ∈ (readEntry source).2 := by
  simp only [Readable, not_or, Bool.not_eq_true] at unreadable
  obtain ⟨visible, notWord, notEqual⟩ := unreadable
  have left : c ∈ skip (source.dropWhile isIdentifierChar) := mem_dropWhile (mem_dropWhile member notWord) visible
  rcases readEntry_cases source with ⟨suffix, found, eq⟩ | ⟨-, eq⟩
  · rw [eq]
    rw [found] at left
    have inSuffix : c ∈ suffix := (List.mem_cons.mp left).resolve_left notEqual
    exact mem_dropWhile (mem_dropWhile (mem_dropWhile inSuffix visible) notWord) visible
  · rw [eq]
    exact left

theorem skip_dropWhile_equal (tail : Str) : skip (('=' :: tail).dropWhile isIdentifierChar) = '=' :: tail := by
  have notWord : isIdentifierChar '=' = false := by
    rw [isIdentifierChar, Alphabet.ascii _ (by decide)]
    rfl
  rw [List.dropWhile_cons, if_neg (by simp [notWord]), skip, List.dropWhile_cons, if_neg (by decide)]

theorem readEntry_length {next : Char} {tail : Str} (starts : isIdentifierChar next = true ∨ next = '=') :
    (readEntry (next :: tail)).2.length < (next :: tail).length := by
  have skipped : ∀ s : Str, (skip s).length ≤ s.length := fun s => (List.dropWhile_sublist _).length_le
  have dropped : ∀ s : Str, (s.dropWhile isIdentifierChar).length ≤ s.length :=
    fun s => (List.dropWhile_sublist _).length_le
  have pair : ∀ suffix : Str, (skip ((skip suffix).dropWhile isIdentifierChar)).length ≤
      suffix.length := fun suffix => ((skipped _).trans (dropped _)).trans (skipped _)
  rcases readEntry_cases (next :: tail) with ⟨suffix, found, eq⟩ | ⟨bare, eq⟩
  · rw [eq]
    have shorter := (skipped ((next :: tail).dropWhile isIdentifierChar)).trans (dropped _)
    rw [found, List.length_cons] at shorter
    have rest := pair suffix
    exact Nat.lt_of_le_of_lt rest (Nat.lt_of_succ_le shorter)
  · rw [eq]
    rcases starts with word | rfl
    · rw [List.dropWhile_cons, if_pos word]
      exact Nat.lt_succ_of_le ((skipped _).trans (dropped tail))
    · rw [skip_dropWhile_equal] at bare
      exact absurd rfl bare

theorem Lists.blank {entries : List ContextEntry} {front source : Str} (blanks : ∀ c ∈ front, isWhitespace c = true)
    (lists : Lists entries source) : Lists entries (front ++ source) := by
  have both : ∀ blank : Str, (∀ c ∈ blank, isWhitespace c = true) → ∀ c ∈ front ++ blank, isWhitespace c = true := by
    intro blank more c member
    rcases List.mem_append.mp member with member | member
    · exact blanks c member
    · exact more c member
  cases lists with
  | nil more => exact .nil (both _ more)
  | identifier more nonempty word ends bare rest =>
    simpa only [List.append_assoc] using Lists.identifier (both _ more) nonempty word ends bare rest
  | pair more keyWord gaps full word ends rest =>
    simpa only [List.append_assoc] using Lists.pair (both _ more) keyWord gaps full word ends rest

theorem Lists.of_skip {entries : List ContextEntry} {source : Str}
    (lists : Lists entries (skip source)) : Lists entries source := by
  have blanks : ∀ c ∈ source.takeWhile isWhitespace, isWhitespace c = true :=
    fun c member => List.mem_takeWhile_imp member
  have whole := lists.blank blanks
  rwa [List.takeWhile_append_dropWhile] at whole

theorem Lists.readEntry {entries : List ContextEntry} {next : Char} {tail : Str}
    (starts : isIdentifierChar next = true ∨ next = '=') (rest : Lists entries (readEntry (next :: tail)).2) :
    Lists ((readEntry (next :: tail)).1 :: entries) (next :: tail) := by
  have word : ∀ s : Str, ∀ c ∈ s.takeWhile isIdentifierChar, isIdentifierChar c = true :=
    fun s c member => List.mem_takeWhile_imp member
  have blanks : ∀ s : Str, ∀ c ∈ s.takeWhile isWhitespace, isWhitespace c = true :=
    fun s c member => List.mem_takeWhile_imp member
  have none : ∀ c ∈ ([] : Str), isWhitespace c = true := nofun
  rcases readEntry_cases (next :: tail) with ⟨suffix, found, eq⟩ | ⟨bare, eq⟩
  · rw [eq] at rest ⊢
    have gaps : ∀ c ∈ ((next :: tail).dropWhile isIdentifierChar).takeWhile isWhitespace ++
        suffix.takeWhile isWhitespace, isWhitespace c = true := by
      intro c member
      rcases List.mem_append.mp member with member | member
      · exact blanks _ c member
      · exact blanks _ c member
    have full : ∀ c ∈ ((skip suffix).takeWhile isIdentifierChar ++
        (skip suffix).dropWhile isIdentifierChar).head?, isWhitespace c = false := by
      rw [List.takeWhile_append_dropWhile]
      exact not_head_dropWhile _ _
    have lists := Lists.pair none (word (next :: tail)) gaps full (word (skip suffix))
      (not_head_dropWhile _ _) rest.of_skip
    simp only [List.nil_append, List.append_assoc, List.cons_append, List.takeWhile_append_dropWhile] at lists
    rwa [← found, List.takeWhile_append_dropWhile, List.takeWhile_append_dropWhile] at lists
  · rw [eq] at rest ⊢
    have nonempty : (next :: tail).takeWhile isIdentifierChar ≠ [] := by
      rcases starts with starts | rfl
      · rw [List.takeWhile_cons, if_pos starts]
        exact List.cons_ne_nil _ _
      · rw [skip_dropWhile_equal] at bare
        exact absurd rfl bare
    have lists := Lists.identifier none nonempty (word (next :: tail)) (not_head_dropWhile _ _) bare rest.of_skip
    rwa [List.nil_append, List.takeWhile_append_dropWhile] at lists

omit [Alphabet] in
theorem takeWhile_append_stop {p : Char → Bool} {word tail : Str} (all : ∀ c ∈ word, p c = true)
    (ends : ∀ c ∈ tail.head?, p c = false) : (word ++ tail).takeWhile p = word ∧ (word ++ tail).dropWhile p = tail := by
  have stops : tail.takeWhile p = [] ∧ tail.dropWhile p = tail := by
    cases tail with
    | nil => exact ⟨rfl, rfl⟩
    | cons c tail =>
      have fails := ends c rfl
      exact ⟨by simp [fails], by simp [fails]⟩
  constructor
  · rw [List.takeWhile_append_of_pos all, stops.1, List.append_nil]
  · rw [List.dropWhile_append_of_pos all, stops.2]

omit [Alphabet] in
theorem skip_of_visible {source : Str} (visible : ∀ c ∈ source.head?, isWhitespace c = false) :
    skip source = source := by
  have none : ∀ c ∈ ([] : Str), isWhitespace c = true := nofun
  exact (takeWhile_append_stop none visible).2

theorem Lists.next {entry : ContextEntry} {entries : List ContextEntry} {source : Str}
    (lists : Lists (entry :: entries) source) :
    skip source ≠ [] ∧ ∃ tail, KeyContext.readEntry (skip source) = (entry, skip tail) ∧ Lists entries tail := by
  have notEqual : isIdentifierChar '=' = false := by
    rw [isIdentifierChar, Alphabet.ascii _ (by decide)]
    rfl
  cases lists with
  | @identifier blank key tail entries blanks nonempty word ends bare rest =>
    have visible : ∀ c ∈ (key ++ tail).head?, isWhitespace c = false := by
      obtain ⟨c, key, rfl⟩ := List.exists_cons_of_ne_nil nonempty
      intro d found
      cases found
      exact isWhitespace_of_isIdentifierChar (word c List.mem_cons_self)
    rw [List.append_assoc, skip_blank blanks, skip_of_visible visible]
    refine ⟨by simp [nonempty], tail, ?_, rest⟩
    obtain ⟨taken, dropped⟩ := takeWhile_append_stop word ends
    rcases readEntry_cases (key ++ tail) with ⟨suffix, found, -⟩ | ⟨-, eq⟩
    · rw [dropped] at found
      rw [found] at bare
      exact absurd rfl bare
    · rw [eq, taken, dropped]
  | @pair blank key gap gap' value tail entries blanks keyWord gaps full word ends rest =>
    refine ⟨?_, tail, ?_, rest⟩
    · intro none
      have all := List.dropWhile_eq_nil_iff.mp none '=' (by simp)
      cases all
    · have gapBlanks : ∀ c ∈ gap, isWhitespace c = true := fun c member =>
        gaps c (List.mem_append_left _ member)
      have gapBlanks' : ∀ c ∈ gap', isWhitespace c = true := fun c member =>
        gaps c (List.mem_append_right _ member)
      have equal : ∀ rest : Str, skip ('=' :: rest) = '=' :: rest := fun _ => rfl
      -- With an empty key the blanks on both of its sides are skipped at once.
      have skipped : ∃ left, (∀ c ∈ left, isWhitespace c = true) ∧
          skip (blank ++ key ++ gap ++ '=' :: gap' ++ value ++ tail) =
            key ++ (left ++ '=' :: (gap' ++ (value ++ tail))) := by
        simp only [List.append_assoc, List.cons_append, skip_blank blanks]
        cases key with
        | nil => exact ⟨[], by simp, by rw [List.nil_append, skip_blank gapBlanks, equal]; rfl⟩
        | cons c key =>
          have visible := isWhitespace_of_isIdentifierChar (keyWord c List.mem_cons_self)
          refine ⟨gap, gapBlanks, skip_of_visible ?_⟩
          intro d found
          cases found
          exact visible
      obtain ⟨left, leftBlanks, skipped⟩ := skipped
      have stops : ∀ c ∈ (left ++ '=' :: (gap' ++ (value ++ tail))).head?, isIdentifierChar c = false := by
        intro c found
        cases left with
        | nil =>
          cases found
          exact notEqual
        | cons d left =>
          cases found
          by_contra word
          rw [Bool.not_eq_false] at word
          have visible := isWhitespace_of_isIdentifierChar word
          rw [leftBlanks c List.mem_cons_self] at visible
          cases visible
      obtain ⟨taken, dropped⟩ := takeWhile_append_stop keyWord stops
      obtain ⟨takenValue, droppedValue⟩ := takeWhile_append_stop word ends
      rw [skipped]
      simp only [KeyContext.readEntry, taken, dropped, skip_blank leftBlanks, equal,
        skip_blank gapBlanks', skip_of_visible full, takenValue, droppedValue]

theorem Lists.eq_nil {source : Str} (lists : Lists [] source) : skip source = [] := by
  cases lists with
  | nil blanks => exact List.dropWhile_eq_nil_iff.mpr blanks

theorem Lists.unique {entries others : List ContextEntry} {source : Str}
    (lists : Lists entries source) (same : Lists others source) : others = entries := by
  suffices all : ∀ source source' : Str, skip source = skip source' → Lists entries source →
      Lists others source' → others = entries from all source source rfl lists same
  clear lists same source
  induction entries generalizing others with
  | nil =>
    intro source source' eq lists same
    cases others with
    | nil => rfl
    | cons other others => exact absurd (eq ▸ lists.eq_nil) same.next.1
  | cons entry entries ih =>
    intro source source' eq lists same
    obtain ⟨nonempty, tail, read, rest⟩ := lists.next
    cases others with
    | nil => exact absurd (eq.trans same.eq_nil) nonempty
    | cons other others =>
      obtain ⟨-, tail', read', rest'⟩ := same.next
      rw [eq, read'] at read
      obtain ⟨rfl, tails⟩ := Prod.mk.inj read
      rw [ih tail tail' tails.symm rest rest']

/-! ## All calls -/

theorem parseExprFor_diverges {source : Str} {c : Char} (member : c ∈ source) (unreadable : ¬ Readable c) (fuel : Nat)
    (context : KeyContext) : parseExprFor fuel source context = .error (.panic .outOfFuel) := by
  induction fuel generalizing source context with
  | zero => rfl
  | succ fuel ih =>
    rw [parseExprFor_succ fuel (List.ne_nil_of_mem member)]
    exact ih (mem_readEntry member unreadable) _

theorem starts_of_readable {next : Char} {tail : Str} (trimmed : ∀ c ∈ (next :: tail).head?, isWhitespace c = false)
    (readable : ∀ c ∈ next :: tail, Readable c) : isIdentifierChar next = true ∨ next = '=' := by
  refine (readable next List.mem_cons_self).resolve_left fun blank => ?_
  rw [trimmed next rfl] at blank
  cases blank

theorem parseExprFor_reads (n : Nat) {source : Str} (short : source.length < n)
    (trimmed : ∀ c ∈ source.head?, isWhitespace c = false) (readable : ∀ c ∈ source, Readable c) : ∃ entries,
    Lists entries source ∧ (∀ context, parseExprFor n source context = .ok (entries.foldl insert context)) ∧
    ∀ fuel context result, parseExprFor fuel source context = .ok result → result = entries.foldl insert context := by
  induction n generalizing source with
  | zero => exact absurd short (Nat.not_lt_zero _)
  | succ n ih =>
    cases source with
    | nil =>
      refine ⟨[], .nil nofun, fun context => rfl, ?_⟩
      intro fuel context result returned
      cases fuel with
      | zero => cases returned
      | succ fuel =>
        cases returned
        rfl
    | cons next tail =>
      have starts := starts_of_readable trimmed readable
      have shorter : (readEntry (next :: tail)).2.length < n :=
        Nat.lt_of_lt_of_le (readEntry_length starts) (Nat.le_of_lt_succ short)
      obtain ⟨entries, lists, returns, only⟩ := ih shorter (readEntry_trimmed _)
        fun c member => readable c (mem_of_mem_readEntry member)
      refine ⟨_ :: entries, lists.readEntry starts, ?_, ?_⟩
      · intro context
        rw [parseExprFor_succ n (List.cons_ne_nil _ _), returns]
        rfl
      · intro fuel context result returned
        cases fuel with
        | zero => cases returned
        | succ fuel =>
          rw [parseExprFor_succ fuel (List.cons_ne_nil _ _)] at returned
          exact only fuel _ result returned

theorem parseFor_eq (fuel : Nat) (source : Str) : parseFor fuel source = parseExprFor fuel (skip source) ⟨[]⟩ := by
  rw [parseFor, skipWhitespace_eq, ok_bind]

/-- `parse` returns exactly where every character of the input belongs to an entry or is white space,
and the context then has the entries of the input, each key once. -/
theorem parse_iff (source : Str) : ((∃ fuel context, parseFor fuel source = .ok context) ∧
      ∀ fuel context, parseFor fuel source = .ok context →
        ∃ entries, (∀ others, Lists others source ↔ others = entries) ∧ context.entries = keepFirst entries) ↔
      ∀ c ∈ source, Readable c := by
  constructor
  · rintro ⟨⟨fuel, context, returned⟩, -⟩ c member
    by_contra unreadable
    have visible : isWhitespace c = false := by
      simp only [Readable, not_or, Bool.not_eq_true] at unreadable
      exact unreadable.1
    rw [parseFor_eq, parseExprFor_diverges (mem_dropWhile member visible) unreadable] at returned
    cases returned
  · intro readable
    obtain ⟨entries, lists, returns, only⟩ := parseExprFor_reads _ (Nat.lt_succ_self _)
      (not_head_dropWhile isWhitespace source) fun c member => readable c (mem_of_mem_dropWhile member)
    refine ⟨⟨_, _, (parseFor_eq _ _).trans (returns _)⟩, ?_⟩
    intro fuel context returned
    rw [parseFor_eq] at returned
    refine ⟨entries, fun others => ⟨lists.of_skip.unique, fun same => same ▸ lists.of_skip⟩, ?_⟩
    have all : entries.filter (fun entry => !(⟨[]⟩ : KeyContext).contains entry.key) = entries :=
      List.filter_eq_self.mpr fun _ _ => rfl
    rw [only fuel _ context returned, insert_entries, all, List.nil_append]

example : @parseFor asciiAlphabet 4 ['a', ' ', '=', 'b', ' ', 'c', ' ', 'a'] =
    .ok ⟨[⟨['a'], some ['b']⟩, ⟨['c'], none⟩]⟩ := rfl

omit [Alphabet] in
/-- `!` is never consumed. -/
theorem parse_unreadable : ¬ ((∃ fuel context, @parseFor asciiAlphabet fuel ['!'] = .ok context) ∧
      ∀ fuel context, @parseFor asciiAlphabet fuel ['!'] = .ok context →
        ∃ entries, (∀ others, @Lists asciiAlphabet others ['!'] ↔ others = entries) ∧
          context.entries = keepFirst entries) := by
  rintro ⟨⟨fuel, context, returned⟩, -⟩
  have unreadable : ¬ @Readable asciiAlphabet '!' := by
    rintro (blank | word | equal)
    · cases blank
    · cases word
    · cases equal
  rw [@parseFor_eq asciiAlphabet, @parseExprFor_diverges asciiAlphabet _ '!' (by decide) unreadable] at returned
  cases returned

end KeyContext
end Pinrail.Keymap

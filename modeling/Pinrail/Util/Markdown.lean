import Pinrail.Lib.CommonMark
import Pinrail.Lib.Utf8

/-!
# Markdown code

`MarkdownInlineCode` and `MarkdownCodeBlock`: text is put between more backticks than any run of its
own has.
-/

namespace Pinrail.Util

open Lib

/-- The loop of `count_max_consecutive_chars`. -/
def countLoop (search : Char) : Bool → Nat → Nat → Str → Nat
  | _, maxCount, curCount, [] => max maxCount curCount
  | inSearchChars, maxCount, curCount, ch :: text =>
    if ch = search then countLoop search true maxCount (curCount + 1) text
    else if inSearchChars then countLoop search false (max maxCount curCount) 0 text
    else countLoop search inSearchChars maxCount curCount text

def countMaxConsecutiveChars (text : Str) (search : Char) : Nat := countLoop search false 0 0 text

/-- What `MarkdownInlineCode` writes. -/
def markdownInlineCode (code : Str) : Str :=
  let text := code.map fun c => if isWhitespace c then ' ' else c
  let allWhitespace := code.all isWhitespace
  if allWhitespace then ticks 1 ++ text ++ ticks 1
  else
    let backticks := ticks (countMaxConsecutiveChars text '`' + 1)
    let space :=
      if text.head? = some '`' ∨ text.getLast? = some '`' then [' ']
      else if 2 ≤ text.length ∧ text.head? = some ' ' ∧ text.getLast? = some ' ' then [' ']
      else []
    backticks ++ space ++ text ++ space ++ backticks

structure MarkdownCodeBlock where
  tag : Str
  text : Str

/-- What `MarkdownCodeBlock` writes. -/
def MarkdownCodeBlock.display (block : MarkdownCodeBlock) : Str :=
  let backticks := ticks (max 3 (countMaxConsecutiveChars block.text '`' + 1))
  backticks ++ block.tag ++ '\n' :: block.text ++ '\n' :: backticks ++ ['\n']

variable {n maxCount curCount : Nat} {inSearchChars : Bool} {search : Char} {text content : Str}

/-! ## The longest run -/

theorem le_countLoop (search : Char) (text : Str) (inSearchChars : Bool) (maxCount curCount : Nat) :
    maxCount ≤ countLoop search inSearchChars maxCount curCount text ∧
    curCount ≤ countLoop search inSearchChars maxCount curCount text := by
  induction text generalizing inSearchChars maxCount curCount with
  | nil => exact ⟨le_max_left _ _, le_max_right _ _⟩
  | cons ch text ih =>
    rw [countLoop]
    split_ifs with found inside
    · have later := ih true maxCount (curCount + 1)
      exact ⟨later.1, (Nat.le_succ _).trans later.2⟩
    · have later := (ih false (max maxCount curCount) 0).1
      exact ⟨(le_max_left _ _).trans later, (le_max_right _ _).trans later⟩
    · exact ih inSearchChars maxCount curCount

theorem run_le_countLoop (closed : inSearchChars = false → curCount = 0)
    (run : List.replicate n search <:+: List.replicate curCount search ++ text) :
    n ≤ countLoop search inSearchChars maxCount curCount text := by
  induction text generalizing inSearchChars maxCount curCount with
  | nil =>
    have short := run.length_le
    rw [List.append_nil, List.length_replicate, List.length_replicate] at short
    exact short.trans (le_max_right _ _)
  | cons ch text ih =>
    rw [countLoop]
    by_cases found : ch = search
    · subst found
      rw [if_pos rfl]
      apply ih (by simp)
      rw [List.replicate_succ', List.append_assoc]
      exact run
    · rw [if_neg found]
      have other : ch ∉ List.replicate n search := fun inside => found (List.eq_of_mem_replicate inside)
      obtain before | after := infix_of_not_mem run other
      · have short := before.length_le
        rw [List.length_replicate, List.length_replicate] at short
        apply short.trans
        split_ifs
        · exact (le_max_right _ _).trans (le_countLoop _ _ _ _ _).1
        · exact (le_countLoop _ _ _ _ _).2
      · split_ifs with inside
        · exact ih (fun _ => rfl) after
        · have none := closed (Bool.eq_false_iff.mpr inside)
          subst none
          exact ih closed after

theorem no_longer_run (text : Str) (more : countMaxConsecutiveChars text '`' < n) : ¬ ticks n <:+: text := by
  intro run
  exact absurd (run_le_countLoop (fun _ => rfl) run) (Nat.not_le.mpr more)

/-! ## The text is read back -/

theorem map_spaces (plain : ∀ c ∈ text, isWhitespace c = true → c = ' ') :
    (text.map fun c => if isWhitespace c then ' ' else c) = text := by
  have same : ∀ c ∈ text, (if isWhitespace c then ' ' else c) = c := by
    intro c inside
    split_ifs with blank
    · exact (plain c inside blank).symm
    · rfl
  rw [List.map_congr_left same, List.map_id']

theorem stripSpan_padded (text : Str) (some : text.any (· != ' ') = true) :
    stripSpan ([' '] ++ text ++ [' ']) = text := by
  rw [stripSpan, if_pos]
  · simp
  · refine ⟨by simp, rfl, List.getLast?_concat, ?_⟩
    rw [List.any_append, List.any_append, some, Bool.or_true, Bool.true_or]

theorem stripSpan_unpadded (ends : ¬ (2 ≤ text.length ∧ text.head? = some ' ' ∧ text.getLast? = some ' ')) :
    stripSpan text = text := by
  rw [stripSpan, if_neg]
  exact fun both => ends ⟨both.1, both.2.1, both.2.2.1⟩

theorem stripSpan_blank (blank : text.any (· != ' ') = false) : stripSpan text = text := by
  rw [stripSpan, if_neg]
  rintro ⟨-, -, -, some⟩
  rw [blank] at some
  cases some

theorem any_not_space (mixed : ¬ text.all isWhitespace = true) : text.any (· != ' ') = true := by
  rw [List.all_eq_true] at mixed
  push Not at mixed
  obtain ⟨c, inside, black⟩ := mixed
  refine List.any_eq_true.mpr ⟨c, inside, bne_iff_ne.mpr ?_⟩
  rintro rfl
  exact black rfl

theorem inlines_padded (positive : 0 < n) (short : ¬ ticks n <:+: text) (some : text.any (· != ' ') = true) :
    inlines (ticks n ++ [' '] ++ text ++ [' '] ++ ticks n) = [.code text] := by
  have other : ' ' ∉ ticks n := fun space => absurd (List.eq_of_mem_replicate space) (by decide)
  have empty : ¬ ticks n <:+: [] := fun none => short (none.trans List.nil_infix)
  have short' : ¬ ticks n <:+: [' '] ++ text ++ [' '] := by
    intro run
    obtain early | late := infix_of_not_mem run other
    · rw [← List.nil_append ([' '] ++ text)] at early
      exact (infix_of_not_mem early other).elim empty short
    · exact empty late
  have last : ([' '] ++ text ++ [' ']).getLast? = .some ' ' := List.getLast?_concat
  rw [List.append_assoc (ticks n), List.append_assoc (ticks n),
    inlines_span positive (by simp) short' (by simp) (by rw [last]; simp), stripSpan_padded text some]

theorem inlines_markdownInlineCode (nonempty : text ≠ []) (plain : ∀ c ∈ text, isWhitespace c = true → c = ' ') :
    inlines (markdownInlineCode text) = [.code text] := by
  simp only [markdownInlineCode, map_spaces plain]
  have short := no_longer_run text (Nat.lt_succ_self (countMaxConsecutiveChars text '`'))
  split_ifs with blank backtick spaces
  · have spaces : ∀ c ∈ text, c = ' ' := fun c inside => plain c inside (List.all_eq_true.mp blank c inside)
    have other : '`' ∉ text := fun inside => absurd (spaces _ inside) (by decide)
    rw [inlines_span Nat.one_pos nonempty, stripSpan_blank]
    · rw [List.any_eq_false]
      intro c inside
      simp [spaces c inside]
    · exact fun run => other (run.subset List.mem_cons_self)
    · exact fun first => other (List.mem_of_head? first)
    · exact fun last => other (List.mem_of_getLast? last)
  · exact inlines_padded (Nat.succ_pos _) short (any_not_space blank)
  · exact inlines_padded (Nat.succ_pos _) short (any_not_space blank)
  · obtain ⟨first, last⟩ := not_or.mp backtick
    rw [List.append_nil, List.append_nil, inlines_span (Nat.succ_pos _) nonempty short first last,
      stripSpan_unpadded spaces]

/-- What the two writers put between backticks is read as code, whole and alone. -/
theorem markdown_code_round_trips : (∀ text : Str, text ≠ [] → (∀ c ∈ text, isWhitespace c = true → c = ' ') →
      inlines (markdownInlineCode text) = [.code text]) ∧
    ∀ (endings : LineEndings) (tag text : Str), '`' ∉ tag → (∀ c ∈ tag, endings.has c = false) →
      endings.blocks (MarkdownCodeBlock.display ⟨tag, text⟩) = [.code tag (text ++ ['\n'])] := by
  refine ⟨fun text => inlines_markdownInlineCode, fun endings tag text plain within => ?_⟩
  have short := no_longer_run text (Nat.lt_of_lt_of_le (Nat.lt_succ_self _) (le_max_right 3 _))
  have read := endings.blocks_fenced (le_max_left 3 _) short plain within
  simp only [MarkdownCodeBlock.display, List.append_assoc, List.cons_append] at read ⊢
  exact read

theorem markdown_code_round_trips_ticks :
    inlines (markdownInlineCode [' ', '`', '`', 'a', ' ']) = [.code [' ', '`', '`', 'a', ' ']] ∧
      LineEndings.newlineOrReturn.blocks (MarkdownCodeBlock.display ⟨['r', 's'], ['`', '`', '`', '\n']⟩) =
        [.code ['r', 's'] ['`', '`', '`', '\n', '\n']] :=
  ⟨markdown_code_round_trips.1 _ (by decide) (by
      intro c member white
      simp only [List.mem_cons, List.not_mem_nil, or_false] at member
      rcases member with rfl | rfl | rfl | rfl | rfl
      all_goals first | rfl | exact absurd white (by decide)),
    markdown_code_round_trips.2 _ _ _ (by decide) (by simp [LineEndings.has])⟩

end Pinrail.Util

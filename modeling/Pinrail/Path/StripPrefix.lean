import Pinrail.Path.LexicalResolution
import Pinrail.Path.Normalize

/-!
# Joining and stripping

`PathStyle::join` puts the primary separator between a base and a relative path, and
`PathStyle::strip_prefix` takes one separator of any kind off the base and one off what is behind it.
-/

namespace Pinrail

variable {style : PathStyle}

namespace PathStyle

def join (self : PathStyle) (left right : Str) : Option Str :=
  if isAbsolute right self then none
  else if left.isEmpty then some right
  else some (left ++
    (if left.getLast? = some self.primarySeparator then [] else [self.primarySeparator]) ++ right)

def stripSuffixCh (text : Str) (c : Char) : Option Str :=
  if text.getLast? = some c then some text.dropLast else none

def stripPrefixCh (text : Str) (c : Char) : Option Str :=
  if text.head? = some c then some (text.drop 1) else none

/-- `str::strip_prefix` of a string. -/
def stripStr (text start : Str) : Option Str :=
  if start.isPrefixOf text then some (text.drop start.length) else none

/-- The rest of `child` behind `parent`; the letters of two drives may differ in their case. -/
def stripParent (self : PathStyle) (child parent : Str) : Option Str :=
  match child, parent with
  | c :: ':' :: childRest, p :: ':' :: parentRest =>
    if self = .windows ∧ c.toNat < 128 ∧ p.toNat < 128 ∧ c.toLower = p.toLower then
      stripStr childRest parentRest
    else stripStr child parent
  | _, _ => stripStr child parent

def stripPrefixOf (self : PathStyle) (child parent : Str) : Option (Cow Str) :=
  if parent.isEmpty then (RelPath.new child self).toOption
  else
    let parent := (self.separatorsCh.findSome? (stripSuffixCh parent)).getD parent
    match stripParent self child parent with
    | none => none
    | some stripped =>
      match self.separatorsCh.findSome? (stripPrefixCh stripped) with
      | some relative => (RelPath.new relative self).toOption
      | none => if stripped.isEmpty then some (.borrowed []) else none

end PathStyle

def StripUndoesJoin (style : PathStyle) (base relPath : Str) : Prop :=
  ∃ child cow, style.join base (RelPath.display relPath style).asRef = some child ∧
    style.stripPrefixOf child base = some cow ∧ cow.asRef = relPath

/-! ## Stripping -/

theorem stripStr_append (start rest : Str) : PathStyle.stripStr (start ++ rest) start = some rest := by
  rw [PathStyle.stripStr, if_pos (by simp), List.drop_left]

theorem stripParent_append (parent rest : Str) : style.stripParent (parent ++ rest) parent = some rest := by
  have plain := stripStr_append parent rest
  rw [PathStyle.stripParent.eq_def]
  split
  · rename_i c childRest p parentRest eq
    split_ifs with drives
    · simp only [List.cons_append, List.cons.injEq, true_and] at eq
      rw [← eq.2, stripStr_append]
    · exact plain
  · exact plain

theorem findSome_separator {c : Char} (separator : c ∈ style.separatorsCh) (rest : Str) :
    style.separatorsCh.findSome? (PathStyle.stripPrefixCh (c :: rest)) = some rest := by
  cases style with
  | unix =>
    rw [List.mem_singleton.mp separator]
    rfl
  | windows => rcases windows_separator_cases.mp separator with rfl | rfl <;> rfl

theorem findSome_suffix {c : Char} (separator : c ∈ style.separatorsCh) (base : Str) :
    style.separatorsCh.findSome? (PathStyle.stripSuffixCh (base ++ [c])) = some base := by
  cases style with
  | unix =>
    rw [List.mem_singleton.mp separator]
    simp [PathStyle.separatorsCh, PathStyle.stripSuffixCh]
  | windows =>
    rcases windows_separator_cases.mp separator with rfl | rfl <;>
      simp [PathStyle.separatorsCh, PathStyle.stripSuffixCh]

theorem findSome_suffix_none {base : Str} (ends : ∀ c ∈ base.getLast?, c ∉ style.separatorsCh) :
    style.separatorsCh.findSome? (PathStyle.stripSuffixCh base) = none := by
  rw [List.findSome?_eq_none_iff]
  intro c separator
  rw [PathStyle.stripSuffixCh, if_neg]
  intro last
  exact ends c last separator

theorem parent_cases (style : PathStyle) (base : Str) : (∃ before c, base = before ++ [c] ∧ c ∈ style.separatorsCh ∧
      (style.separatorsCh.findSome? (PathStyle.stripSuffixCh base)).getD base = before) ∨
    ((∀ c ∈ base.getLast?, c ∉ style.separatorsCh) ∧
      (style.separatorsCh.findSome? (PathStyle.stripSuffixCh base)).getD base = base) := by
  by_cases ends : ∀ c ∈ base.getLast?, c ∉ style.separatorsCh
  · refine .inr ⟨ends, ?_⟩
    rw [findSome_suffix_none ends]
    rfl
  · push Not at ends
    obtain ⟨c, last, separator⟩ := ends
    obtain ⟨before, rfl⟩ := List.getLast?_eq_some_iff.mp last
    refine .inl ⟨before, c, rfl, separator, ?_⟩
    rw [findSome_suffix separator]
    rfl

theorem stripPrefixOf_separator {base parent : Str} (nonempty : base ≠ [])
    (found : (style.separatorsCh.findSome? (PathStyle.stripSuffixCh base)).getD base = parent)
    {c : Char} (separator : c ∈ style.separatorsCh) (rest : Str) :
    style.stripPrefixOf (parent ++ c :: rest) base = (RelPath.new rest style).toOption := by
  rw [PathStyle.stripPrefixOf, if_neg (by simpa using nonempty)]
  simp only [found, stripParent_append, findSome_separator separator]

theorem isAbsolute_display (path : Str) :
    isAbsolute (RelPath.display path style).asRef style = isAbsolute path style := by
  rw [Bool.eq_iff_iff, isAbsolute_iff, isAbsolute_iff, pieces_display]

theorem new_display_toOption {names : List Str} (clean : ∀ name ∈ names, Clean style name)
    (relative : isAbsolute (RelPath.display (join names) style).asRef style = false) : ∃ cow,
    (RelPath.new (RelPath.display (join names) style).asRef style).toOption = some cow ∧ cow.asRef = join names := by
  rw [isAbsolute_display] at relative
  obtain ⟨cow, accepted, text⟩ := new_display clean relative
  exact ⟨cow, by rw [accepted]; rfl, text⟩

theorem new_separator {c : Char} (separator : c ∈ style.separatorsCh) (rest : Str) :
    (RelPath.new (c :: rest) style).toOption = none := by
  obtain ⟨second, others, cut⟩ := List.exists_cons_of_ne_nil (pieces_ne_nil style rest)
  have ahead : RootAhead style (pieces style (c :: rest)) :=
    ⟨[], second, others, by rw [pieces_separator separator, cut], .inl rfl⟩
  have absolute := absolute_trim_iff.mpr ⟨[], _, rfl, by simp, ahead⟩
  cases outcome : RelPath.new (c :: rest) style with
  | error => rfl
  | ok cow =>
    rw [(new_eq_ok outcome).1] at absolute
    cases absolute

/-- Stripping gives back what was joined, except to a Windows base that ends with a slash: there
`join` puts a backslash behind the slash, and only one of them is stripped. -/
theorem stripUndoesJoin_iff {names : List Str} (clean : ∀ name ∈ names, Clean style name)
    (relative : isAbsolute (RelPath.display (join names) style).asRef style = false) (base : Str) :
    StripUndoesJoin style base (join names) ↔ ¬ (style = .windows ∧ base.getLast? = some '/') := by
  obtain ⟨cow, read, text⟩ := new_display_toOption clean relative
  by_cases empty : base = []
  · subst empty
    refine iff_of_true ⟨_, cow, ?_, read, text⟩ (by simp)
    rw [PathStyle.join, if_neg (by simp [relative])]
    rfl
  have joins : style.join base (RelPath.display (join names) style).asRef =
      some (base ++ (if base.getLast? = some style.primarySeparator then []
        else [style.primarySeparator]) ++ (RelPath.display (join names) style).asRef) := by
    rw [PathStyle.join, if_neg (by simp [relative]), if_neg (by simpa using empty)]
  have primary := primarySeparator_mem style
  rcases parent_cases style base with ⟨before, c, rfl, separator, found⟩ | ⟨ends, found⟩
  · by_cases same : c = style.primarySeparator
    · subst same
      refine iff_of_true ⟨_, cow, joins, ?_, text⟩ ?_
      · rw [if_pos (by simp), List.append_nil, List.append_assoc, List.singleton_append,
          stripPrefixOf_separator empty found separator, read]
      · rintro ⟨rfl, last⟩
        simp [PathStyle.primarySeparator] at last
    · -- The base ends with a separator that is not the primary one.
      obtain ⟨rfl, rfl⟩ : style = .windows ∧ c = '/' := by
        cases style with
        | unix => exact absurd (List.mem_singleton.mp separator) same
        | windows =>
          rcases windows_separator_cases.mp separator with rfl | rfl
          · exact absurd rfl same
          · exact ⟨rfl, rfl⟩
      refine iff_of_false ?_ (by simp)
      rintro ⟨child, cow', joined, stripped, -⟩
      rw [joins, if_neg (by simp [PathStyle.primarySeparator])] at joined
      cases joined
      rw [List.append_assoc, List.append_assoc, List.singleton_append,
        stripPrefixOf_separator empty found separator, List.singleton_append,
        new_separator primary] at stripped
      cases stripped
  · refine iff_of_true ⟨_, cow, joins, ?_, text⟩ ?_
    · have other : base.getLast? ≠ some style.primarySeparator := fun last => ends _ last primary
      rw [if_neg other, List.append_assoc, List.singleton_append, stripPrefixOf_separator empty found primary, read]
    · rintro ⟨rfl, last⟩
      exact ends '/' last (slash_mem .windows)

/-- The path `x` below `C:/a`, without and with a slash at the end. -/
theorem stripUndoesJoin_drive : (StripUndoesJoin .windows ['C', ':', '/', 'a'] ['x'] ↔ True) ∧
    (StripUndoesJoin .windows ['C', ':', '/', 'a', '/'] ['x'] ↔ False) := by
  have clean : ∀ name ∈ [['x']], Clean .windows name := by
    intro name member
    rw [List.mem_singleton.mp member]
    exact ⟨by simp, by simp, by simp, by simp [PathStyle.separatorsCh]⟩
  refine ⟨(stripUndoesJoin_iff clean rfl _).trans ?_, (stripUndoesJoin_iff clean rfl _).trans ?_⟩
  · simp
  · simp

/-- Joined to `C:/a/`, the path `x` stands behind a slash and a backslash. -/
theorem stripPrefix_misses_join : PathStyle.windows.join ['C', ':', '/', 'a', '/']
    ['x'] = some ['C', ':', '/', 'a', '/', '\\', 'x'] ∧
    PathStyle.windows.stripPrefixOf ['C', ':', '/', 'a', '/', '\\', 'x'] ['C', ':', '/', 'a', '/'] = none ∧
    ¬ StripUndoesJoin .windows ['C', ':', '/', 'a', '/'] ['x'] := by
  refine ⟨rfl, rfl, ?_⟩
  rintro ⟨child, cow, joined, stripped, -⟩
  cases joined
  cases stripped

end Pinrail

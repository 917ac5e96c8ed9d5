import Pinrail.Path.Pieces

/-!
# What `RelPath::new` accepts

The result of `new` is relative and normalized unless, in the Windows style, names that cancel out
hide a drive letter behind them.
-/

namespace Pinrail

variable {style : PathStyle} {path : Str}

/-! ## The outcome of `new` -/

theorem trimReversed_head {reversed : Str} {c : Char} (first : (RelPath.trimReversed style reversed).head? = some c)
    (separator : c ∈ style.suffixes) : RelPath.trimReversed style reversed = [c] := by
  induction reversed using RelPath.trimReversed.induct style with
  | case1 d e rest removed ih =>
    rw [RelPath.trimReversed, if_pos removed] at first ⊢
    exact ih first
  | case2 d e rest kept =>
    rw [RelPath.trimReversed, if_neg kept] at first
    cases first
    exact absurd separator kept
  | case3 reversed short =>
    rcases reversed with _ | ⟨d, _ | ⟨e, rest⟩⟩
    · cases first
    · cases first
      rfl
    · exact absurd rfl (short d e rest)

theorem trim_last (relative : isAbsolute (RelPath.trim style path) style = false) :
    ∀ c ∈ (RelPath.trim style path).getLast?, c ∉ style.separatorsCh := by
  intro c last separator
  rw [RelPath.trim, List.getLast?_reverse] at last
  have single := trimReversed_head last (mem_suffixes.mpr separator)
  have absolute : isAbsolute [c] style = true := isAbsolute_iff.mpr ⟨[], [], [], pieces_eq_cons_cons.mpr
      ⟨c, [], rfl, by simp, separator, rfl⟩, .inl rfl⟩
  rw [RelPath.trim, single] at relative
  rw [List.reverse_singleton, absolute] at relative
  cases relative

theorem slashed_last (relative : isAbsolute (RelPath.trim style path) style = false) :
    ∀ c ∈ (slashed style (RelPath.trim style path)).getLast?, c ≠ '/' := by
  intro c last slash
  subst slash
  have ends := trim_last relative
  cases style with
  | unix => exact ends '/' last (by decide)
  | windows =>
    rw [slashed_windows, List.getLast?_map] at last
    obtain ⟨d, there, replaced⟩ := Option.map_eq_some_iff.mp last
    refine ends d there ?_
    split_ifs at replaced with backslash
    · rw [backslash]
      decide
    · rw [replaced]
      decide

theorem resolve_components (style : PathStyle) (path : Str) :
    resolve (RelPath.components (slashed style (RelPath.trim style path))) = resolve (pieces style path) := by
  obtain ⟨blanks, all, eq⟩ := pieces_components (slashed style (RelPath.trim style path))
  have padded : resolve ([] ++ RelPath.components (slashed style (RelPath.trim style path)) ++
      blanks) = _ := resolve_padded (by simp) fun piece member => .inl (all piece member)
  rw [List.nil_append, ← eq, pieces_slashed, resolve_trim] at padded
  exact padded.symm

theorem new_spec (style : PathStyle) (path : Str) :
    if isAbsolute (RelPath.trim style path) style = true then
      RelPath.new path style = .error (.absolute (RelPath.trim style path))
    else match resolve (pieces style path) with
      | some names => ∃ cow, RelPath.new path style = .ok cow ∧ cow.asRef = join names
      | none => RelPath.new path style = .error (.notRelative (slashed style (RelPath.trim style path))) := by
  split_ifs with absolute
  · simp [RelPath.new, absolute]
    rfl
  · rw [Bool.not_eq_true] at absolute
    generalize made : (if style = .windows ∧ '\\' ∈ RelPath.trim style path then
      Cow.owned ((RelPath.trim style path).map fun c => if c = '\\' then '/' else c)
      else .borrowed (RelPath.trim style path)) = result
    have text : result.asRef = slashed style (RelPath.trim style path) := by
      rw [← made, slashed]
      split_ifs <;> rfl
    have whole : ∀ component ∈ RelPath.components result.asRef, ∀ c ∈ component, c ∉ PathStyle.unix.separatorsCh := by
      intro component member
      obtain ⟨blanks, -, eq⟩ := pieces_components result.asRef
      exact pieces_whole .unix result.asRef component (by rw [eq]; simp [member])
    rw [← resolve_components, ← text]
    simp only [RelPath.new, absolute, made]
    cases unusual : (RelPath.components result.asRef).any fun component =>
        component == [] || component == ['.'] || component == ['.', '.'] with
    | true =>
      have looped : (RelPath.components result.asRef).foldlM (RelPath.normalizeStep result.asRef) (join []) =
          match resolve (RelPath.components result.asRef) with
          | some names => .ok (join names)
          | none => .error (.notRelative result.asRef) :=
        foldlM_normalizeStep result.asRef (by simp) whole
      cases resolved : resolve (RelPath.components result.asRef) with
      | none =>
        rw [resolved] at looped
        change (do return Cow.owned (← (RelPath.components result.asRef).foldlM
          (RelPath.normalizeStep result.asRef) (join []))) = _
        rw [looped]
        rfl
      | some names =>
        rw [resolved] at looped
        refine ⟨.owned (join names), ?_, rfl⟩
        change (do return Cow.owned (← (RelPath.components result.asRef).foldlM
          (RelPath.normalizeStep result.asRef) (join []))) = _
        rw [looped]
        rfl
    | false =>
      have clean : ∀ name ∈ RelPath.components result.asRef, Clean .unix name := by
        intro name member
        have usual := List.any_eq_false.mp unusual name member
        simp only [Bool.or_eq_true, beq_iff_eq, not_or] at usual
        exact ⟨usual.1.1, usual.1.2, usual.2, whole name member⟩
      have names : resolve (RelPath.components result.asRef) =
          some (RelPath.components result.asRef) := foldlM_names clean
      rw [names]
      refine ⟨result, rfl, ?_⟩
      have joined : join (RelPath.components _) = _ := join_componentsFrom (slashed_last absolute)
      rw [← text] at joined
      exact joined.symm

theorem new_eq_ok {cow : Cow Str} (accepted : RelPath.new path style = .ok cow) :
    isAbsolute (RelPath.trim style path) style = false ∧ ∃ names, resolve (pieces style path) = some names ∧
    cow.asRef = join names := by
  have spec := new_spec style path
  split_ifs at spec with absolute
  · rw [spec] at accepted
    cases accepted
  · refine ⟨by simpa using absolute, ?_⟩
    cases resolved : resolve (pieces style path) with
    | none =>
      rw [resolved] at spec
      rw [accepted] at spec
      cases spec
    | some names =>
      rw [resolved] at spec
      obtain ⟨cow', accepted', text⟩ := spec
      cases accepted.symm.trans accepted'
      exact ⟨names, rfl, text⟩

theorem new_ok {names : List Str} (relative : isAbsolute (RelPath.trim style path) style = false)
    (resolved : resolve (pieces style path) = some names) :
    ∃ cow, RelPath.new path style = .ok cow ∧ cow.asRef = join names := by
  have spec := new_spec style path
  rwa [if_neg (by simpa using relative), resolved] at spec

/-! ## Normalized paths -/

/-- What the type promises about the result of `new`. -/
def Kept (path : Str) (style : PathStyle) : Prop :=
  ∀ cow, RelPath.new path style = .ok cow → (∀ component ∈ RelPath.components cow.asRef, Clean style component) ∧
    isAbsolute cow.asRef style = false ∧
    ∃ again, RelPath.new (RelPath.display cow.asRef style).asRef style = .ok again ∧ again.asRef = cow.asRef

/-- A drive letter with something below it, behind names that cancel out; the path itself starts
with neither a separator nor a drive. -/
def Smuggled (pieces : List Str) : Prop :=
  ∃ dots first front drive back, pieces = dots ++ first :: front ++ drive :: back ∧
    (∀ piece ∈ dots, piece = ['.']) ∧ first ≠ [] ∧ first ≠ ['.'] ∧ ¬ IsDrive first ∧
    IsDrive drive ∧ Grounded (first :: front) ∧ level (first :: front) = 0 ∧
    Grounded back ∧ 0 < level back

theorem Clean.unix {name : Str} (clean : Clean style name) : Clean .unix name where
  nonempty := clean.nonempty
  notDot := clean.notDot
  notDotDot := clean.notDotDot
  noSeparator c member slash := by
    rw [List.mem_singleton.mp slash] at member
    exact clean.noSlash member

theorem IsDrive.resolveStep_eq {drive : Str} (isDrive : IsDrive drive) : resolveStep [] drive = some [drive] := by
  obtain ⟨letter, -, rfl⟩ := isDrive
  rw [resolveStep, if_neg (by simp), if_neg (by simp)]
  rfl

theorem resolve_clean {names : List Str} (resolved : resolve (pieces style path) = some names) :
    ∀ name ∈ names, Clean style name :=
  foldlM_clean (by simp) (pieces_whole style path) resolved

theorem isAbsolute_join {names : List Str} (clean : ∀ name ∈ names, Clean style name) :
    isAbsolute (join names) style = true ↔ style = .windows ∧ ∃ drive second rest, names = drive :: second :: rest ∧
    IsDrive drive := by
  by_cases empty : names = []
  · subst empty
    refine iff_of_false ?_ (by simp)
    cases style <;> decide
  · rw [isAbsolute_iff, pieces_join clean empty]
    constructor
    · rintro ⟨first, second, rest, rfl, nothing | ⟨windows, drive⟩⟩
      · exact absurd nothing (clean first (by simp)).nonempty
      · exact ⟨windows, first, second, rest, rfl, drive⟩
    · rintro ⟨windows, drive, second, rest, rfl, isDrive⟩
      exact ⟨drive, second, rest, rfl, .inr ⟨windows, isDrive⟩⟩

theorem new_display {names : List Str} (clean : ∀ name ∈ names, Clean style name)
    (relative : isAbsolute (join names) style = false) :
    ∃ again, RelPath.new (RelPath.display (join names) style).asRef style = .ok again ∧ again.asRef = join names := by
  by_cases empty : names = []
  · subst empty
    cases style <;> exact ⟨.borrowed [], rfl, rfl⟩
  · have cut : pieces style (RelPath.display (join names) style).asRef = names :=
      (pieces_display style (join names)).trans (pieces_join clean empty)
    refine new_ok ?_ ?_
    · obtain ⟨⟨dots, blanks, allDots, allBlank, eq⟩, -⟩ := pieces_trim style (RelPath.display (join names) style).asRef
      rw [cut] at eq
      -- Clean names are neither dots nor empty, so nothing was trimmed.
      have noDots : dots = [] := List.eq_nil_iff_forall_not_mem.mpr fun piece member =>
        (clean piece (by rw [eq]; simp [member])).notDot (allDots piece member)
      have noBlanks : blanks = [] := List.eq_nil_iff_forall_not_mem.mpr fun piece member =>
        (clean piece (by rw [eq]; simp [member])).nonempty (allBlank piece member)
      rw [noDots, noBlanks, List.nil_append, List.append_nil] at eq
      rw [Bool.eq_false_iff, Ne, isAbsolute_iff, ← eq, ← pieces_join clean empty, ← isAbsolute_iff, relative]
      simp
    · rw [cut]
      exact foldlM_names clean

theorem smuggled_iff : Smuggled (pieces .windows path) ↔ isAbsolute (RelPath.trim .windows path) .windows = false ∧
    ∃ drive second rest, resolve (pieces .windows path) = some (drive :: second :: rest) ∧ IsDrive drive := by
  obtain ⟨⟨dots', blanks, allDots, allBlank, eq⟩, noDot⟩ := pieces_trim .windows path
  constructor
  · rintro ⟨dots, first, front, drive, back, split, all, nonempty, notDot, notDrive, isDrive,
      frontGrounded, frontLevel, backGrounded, backLevel⟩
    -- Without the leading dots, both ways to cut the path start with the same piece.
    have start : pieces .windows (RelPath.trim .windows path) ++ blanks =
        first :: front ++ drive :: back := by
      have left : (pieces .windows path).dropWhile (· = ['.']) =
          first :: front ++ drive :: back := by
        rw [split, List.append_assoc, List.dropWhile_append_of_pos (by simpa using all),
          List.cons_append, List.dropWhile_cons_of_neg (by simpa using notDot)]
      have right : (pieces .windows path).dropWhile (· = ['.']) =
          (pieces .windows (RelPath.trim .windows path) ++ blanks).dropWhile (· = ['.']) := by
        rw [eq, List.append_assoc, List.dropWhile_append_of_pos (by simpa using allDots)]
      obtain ⟨head, others, cut⟩ := List.exists_cons_of_ne_nil (pieces_ne_nil .windows (RelPath.trim .windows path))
      by_cases dot : head = ['.']
      · cases others with
        | nil =>
          -- A single dot is left, and only empty pieces behind it.
          rw [left, cut, List.singleton_append, dot, List.dropWhile_cons_of_pos (by simp)] at right
          have blank : first ∈ blanks := by
            have member : first ∈ blanks.dropWhile (· = ['.']) := by
              rw [← right]
              simp
            exact (List.dropWhile_sublist _).subset member
          exact absurd (allBlank first blank) nonempty
        | cons second others => exact absurd dot (noDot head second others cut)
      · rw [cut, List.cons_append, List.dropWhile_cons_of_neg (by simpa using dot)] at right
        rw [cut, List.cons_append, ← right, left]
    have front' : resolve (dots ++ first :: front) = some [] := by
      have padded : resolve (dots ++ (first :: front) ++ []) = _ :=
        resolve_padded (fun piece member => .inr (all piece member)) (by simp)
      rw [List.append_nil] at padded
      obtain ⟨names, resolved⟩ := resolve_iff.mpr frontGrounded
      have length := resolve_length resolved
      rw [frontLevel] at length
      have none : names = [] := List.length_eq_zero_iff.mp (by omega)
      rw [padded, resolved, none]
    obtain ⟨names, backResolved⟩ := resolve_iff.mpr backGrounded
    have length := resolve_length backResolved
    obtain ⟨second, rest, rfl⟩ : ∃ second rest, names = second :: rest := by
      refine List.exists_cons_of_ne_nil ?_
      rintro rfl
      simp only [List.length_nil] at length
      omega
    refine ⟨?_, drive, second, rest, ?_, isDrive⟩
    · rw [Bool.eq_false_iff, Ne, isAbsolute_iff]
      rintro ⟨p, q, others, cut, kind⟩
      rw [cut, List.cons_append, List.cons_append, List.cons_append, List.cons_eq_cons] at start
      rcases kind with empty | ⟨-, isDrive'⟩
      · exact nonempty (start.1.symm.trans empty)
      · exact notDrive (start.1 ▸ isDrive')
    · rw [split]
      exact resolve_append_cons front' isDrive.resolveStep_eq backResolved
  · rintro ⟨relative, drive, second, rest, resolved, isDrive⟩
    rw [← resolve_trim] at resolved
    obtain ⟨front, back, cut, frontNone, backRest⟩ := resolve_eq_cons resolved
    have backNonempty : back ≠ [] := by
      rintro rfl
      cases backRest
    have notAbsolute : ∀ first second rest, pieces .windows (RelPath.trim .windows path) =
        first :: second :: rest → first ≠ [] ∧ ¬ IsDrive first := by
      intro first second rest eq
      have is := isAbsolute_iff.not.mp (by simpa using relative)
      exact ⟨fun empty => is ⟨first, second, rest, eq, .inl empty⟩,
        fun drive => is ⟨first, second, rest, eq, .inr ⟨rfl, drive⟩⟩⟩
    obtain ⟨next, more, rfl⟩ := List.exists_cons_of_ne_nil backNonempty
    cases front with
    | nil => exact absurd isDrive (notAbsolute drive next more cut).2
    | cons first front =>
      obtain ⟨other, others, tail⟩ : ∃ other others, front ++ drive :: next :: more =
          other :: others := List.exists_cons_of_ne_nil (by simp)
      have starts : pieces .windows (RelPath.trim .windows path) = first :: other :: others := by
        rw [cut, List.cons_append, tail]
      obtain ⟨nonempty, notDrive⟩ := notAbsolute first other others starts
      have frontLength := resolve_length frontNone
      have backLength := resolve_length backRest
      have backPadded : resolve ([] ++ (next :: more) ++ blanks) = some (second :: rest) :=
        (resolve_padded (by simp) fun piece member => .inl (allBlank piece member)).trans backRest
      refine ⟨dots', first, front, drive, next :: more ++ blanks, ?_, allDots, nonempty,
        noDot first other others starts, notDrive, isDrive, resolve_iff.mp ⟨[], frontNone⟩, ?_,
        resolve_iff.mp ⟨_, backPadded⟩, ?_⟩
      · rw [eq, cut]
        simp
      · simpa using frontLength.symm
      · have total := resolve_length backPadded
        rw [List.nil_append, List.length_cons] at total
        omega

/-- The result of `new` is relative and normalized exactly when no drive letter is smuggled in. -/
theorem new_keeps_iff (path : Str) (style : PathStyle) :
    Kept path style ↔ ¬ (style = .windows ∧ Smuggled (pieces .windows path)) := by
  constructor
  · rintro kept ⟨rfl, smuggled⟩
    obtain ⟨relative, drive, second, rest, resolved, isDrive⟩ := smuggled_iff.mp smuggled
    obtain ⟨cow, accepted, text⟩ := new_ok relative resolved
    have notAbsolute := (kept cow accepted).2.1
    rw [text, Bool.eq_false_iff, Ne, isAbsolute_join (resolve_clean resolved)] at notAbsolute
    exact notAbsolute ⟨rfl, drive, second, rest, rfl, isDrive⟩
  · intro honest cow accepted
    obtain ⟨relative, names, resolved, text⟩ := new_eq_ok accepted
    have clean := resolve_clean resolved
    have notAbsolute : isAbsolute (join names) style = false := by
      rw [Bool.eq_false_iff, Ne, isAbsolute_join clean]
      rintro ⟨rfl, drive, second, rest, rfl, isDrive⟩
      exact honest ⟨rfl, smuggled_iff.mpr ⟨relative, drive, second, rest, resolved, isDrive⟩⟩
    rw [text]
    refine ⟨?_, notAbsolute, new_display clean notAbsolute⟩
    rw [components_join fun name member => (clean name member).unix]
    exact clean

/-- Below a directory that is left again, an absolute Windows path is accepted. -/
theorem new_smuggles_drive : RelPath.new ['a', '/', '.', '.', '/', 'C', ':', '/', 'b'] .windows =
      .ok (.owned ['C', ':', '/', 'b']) ∧
    isAbsolute ['C', ':', '/', 'b'] .windows = true ∧
    RelPath.new (RelPath.display ['C', ':', '/', 'b'] .windows).asRef .windows =
      .error (.absolute ['C', ':', '\\', 'b']) ∧
    ¬ Kept ['a', '/', '.', '.', '/', 'C', ':', '/', 'b'] .windows := by
  refine ⟨rfl, rfl, rfl, fun kept => ?_⟩
  have notAbsolute := (kept (.owned ['C', ':', '/', 'b']) rfl).2.1
  cases notAbsolute

end Pinrail

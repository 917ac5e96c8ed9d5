import Pinrail.Path.Resolve

/-!
# Pieces of a path

A path is cut at the separators of its style. Whether it is absolute, what is trimmed off its ends
and which components an iterator yields are all read off the pieces.
-/

namespace Pinrail

variable {style : PathStyle} {path : Str}

/-! ## Pieces -/

theorem pieces_cons (c : Char) (path : Str) : pieces style (c :: path) =
      if c ∈ style.separatorsCh then [] :: pieces style path
      else (pieces style path).modifyHead (List.cons c) := by
  rw [pieces, List.splitOnP_cons_eq_if_modifyHead]
  simp only [decide_eq_true_eq]
  rfl

theorem pieces_ne_nil (style : PathStyle) (path : Str) : pieces style path ≠ [] := List.splitOnP_ne_nil _ _

theorem pieces_append_separator (before after : Str) {c : Char} (separator : c ∈ style.separatorsCh) :
    pieces style (before ++ c :: after) = pieces style before ++ pieces style after :=
  List.splitOnP_append_cons before after (by simpa using separator)

theorem pieces_whole (style : PathStyle) (path : Str) :
    ∀ piece ∈ pieces style path, ∀ c ∈ piece, c ∉ style.separatorsCh := by
  induction path with
  | nil => simp [pieces]
  | cons c path ih =>
    intro piece member
    rw [pieces_cons] at member
    split_ifs at member with separator
    · rcases List.mem_cons.mp member with rfl | member
      · simp
      · exact ih piece member
    · obtain ⟨first, rest, eq⟩ := List.exists_cons_of_ne_nil (pieces_ne_nil style path)
      rw [eq, List.modifyHead_cons] at member
      rcases List.mem_cons.mp member with rfl | member
      · intro d within
        rcases List.mem_cons.mp within with rfl | within
        · exact separator
        · exact ih first (by simp [eq]) d within
      · exact ih piece (by simp [eq, member])

theorem pieces_eq_cons_cons {first second : Str} {rest : List Str} : pieces style path = first :: second :: rest ↔
    ∃ c after, path = first ++ c :: after ∧ (∀ d ∈ first, d ∉ style.separatorsCh) ∧ c ∈ style.separatorsCh ∧
    pieces style after = second :: rest := by
  constructor
  · intro eq
    have whole := pieces_whole style path first (by simp [eq])
    induction path generalizing first with
    | nil => simp [pieces] at eq
    | cons c path ih =>
      rw [pieces_cons] at eq
      split_ifs at eq with separator
      · obtain ⟨rfl, later⟩ := List.cons_eq_cons.mp eq
        exact ⟨c, path, rfl, by simp, separator, later⟩
      · obtain ⟨head, others, split⟩ := List.exists_cons_of_ne_nil (pieces_ne_nil style path)
        rw [split, List.modifyHead_cons] at eq
        cases eq
        obtain ⟨d, after, rfl, -, separator', later⟩ := ih split fun d member => whole d (by simp [member])
        exact ⟨d, after, rfl, whole, separator', later⟩
  · rintro ⟨c, after, rfl, whole, separator, later⟩
    rw [pieces, List.splitOnP_append_cons_of_forall_mem (by simpa using whole) c (by simpa using separator), ← later]
    rfl

theorem pieces_join {names : List Str} (clean : ∀ name ∈ names, Clean style name)
    (nonempty : names ≠ []) : pieces style (join names) = names := by
  induction names with
  | nil => exact absurd rfl nonempty
  | cons name names ih =>
    have whole := (clean name (by simp)).noSeparator
    cases names with
    | nil =>
      rw [show join [name] = name by simp [join], pieces, List.splitOnP_eq_singleton (by simpa using whole)]
    | cons second names =>
      have rest := ih (fun other member => clean other (by simp [member])) (by simp)
      rw [join_cons _ (by simp)]
      exact pieces_eq_cons_cons.mpr ⟨'/', _, rfl, whole, slash_mem style, rest⟩

/-! ## Absolute paths -/

def IsDrive (piece : Str) : Prop := ∃ letter : Char, letter.isAlpha = true ∧ piece = [letter, ':']

theorem alpha_not_separator {letter : Char} (alpha : letter.isAlpha = true) : letter ∉ style.separatorsCh := by
  intro member
  cases style with
  | unix =>
    rw [List.mem_singleton.mp member] at alpha
    cases alpha
  | windows =>
    rcases List.mem_cons.mp member with rfl | member
    · cases alpha
    · rw [List.mem_singleton.mp member] at alpha
      cases alpha

theorem isAbsolute_iff : isAbsolute path style = true ↔ ∃ first second rest, pieces style path = first :: second ::
    rest ∧ (first = [] ∨ style = .windows ∧ IsDrive first) := by
  constructor
  · intro absolute
    have separatorFirst : ∀ c, c ∈ style.separatorsCh → startsWith path c = true →
        ∃ second rest, pieces style path = [] :: second :: rest := by
      intro c separator starts
      cases path with
      | nil => simp [startsWith] at starts
      | cons d path =>
        obtain rfl : d = c := by simpa [startsWith] using starts
        obtain ⟨second, rest, eq⟩ := List.exists_cons_of_ne_nil (pieces_ne_nil style path)
        exact ⟨second, rest, pieces_eq_cons_cons.mpr ⟨d, path, rfl, by simp, separator, eq⟩⟩
    rw [isAbsolute, Bool.or_eq_true, Bool.and_eq_true, Bool.or_eq_true, Bool.and_eq_true] at absolute
    rcases absolute with slash | ⟨windows, backslash | ⟨letter, drive⟩⟩
    · obtain ⟨second, rest, eq⟩ := separatorFirst '/' (slash_mem style) slash
      exact ⟨[], second, rest, eq, .inl rfl⟩
    · obtain rfl : style = .windows := by simpa using windows
      obtain ⟨second, rest, eq⟩ := separatorFirst '\\' (by decide) backslash
      exact ⟨[], second, rest, eq, .inl rfl⟩
    · obtain rfl : style = .windows := by simpa using windows
      match path with
      | [] => simp at letter
      | [_] => simp [followsDrive] at drive
      | [_, c] =>
        simp only [List.drop_succ_cons, List.drop_zero, followsDrive] at drive
        split at drive
        · rename_i rest eq
          cases eq
          simp [startsWith] at drive
        · cases drive
      | l :: c :: d :: after =>
        simp only [List.head?_cons, Option.any_some] at letter
        simp only [List.drop_succ_cons, List.drop_zero, followsDrive] at drive
        split at drive
        · rename_i rest eq
          cases eq
          have separator : d ∈ PathStyle.windows.separatorsCh := by
            simp only [startsWith, List.head?_cons, Bool.or_eq_true, beq_iff_eq, Option.some.injEq] at drive
            rcases drive with rfl | rfl <;> decide
          obtain ⟨second, rest, eq⟩ := List.exists_cons_of_ne_nil (pieces_ne_nil .windows after)
          refine ⟨[l, ':'], second, rest, pieces_eq_cons_cons.mpr
            ⟨d, after, rfl, ?_, separator, eq⟩, .inr ⟨rfl, l, letter, rfl⟩⟩
          intro x member
          rcases List.mem_cons.mp member with rfl | member
          · exact alpha_not_separator letter
          · rw [List.mem_singleton.mp member]
            decide
        · cases drive
  · rintro ⟨first, second, rest, eq, kind⟩
    obtain ⟨c, after, rfl, -, separator, -⟩ := pieces_eq_cons_cons.mp eq
    rcases kind with rfl | ⟨rfl, letter, alpha, rfl⟩
    · cases style with
      | unix =>
        rw [List.mem_singleton.mp separator]
        rfl
      | windows =>
        rcases List.mem_cons.mp separator with rfl | separator
        · rfl
        · rw [List.mem_singleton.mp separator]
          rfl
    · have sep : startsWith (c :: after) '/' || startsWith (c :: after) '\\' := by
        rcases List.mem_cons.mp separator with rfl | separator
        · rfl
        · rw [List.mem_singleton.mp separator]
          rfl
      simp [isAbsolute, followsDrive, alpha, sep]

/-! ## Trimming -/

theorem mem_suffixes {c : Char} : c ∈ style.suffixes ↔ c ∈ style.separatorsCh := by
  cases style with
  | unix => rfl
  | windows => simp [PathStyle.suffixes, PathStyle.separatorsCh, or_comm]

theorem any_prefixes {c d : Char} {rest : Str} :
    (style.prefixes.any fun start => start.isPrefixOf (c :: d :: rest)) = true ↔ c = '.' ∧ d ∈ style.separatorsCh := by
  cases style with
  | unix =>
    simp only [PathStyle.prefixes, PathStyle.separatorsCh, List.any_cons, List.any_nil,
      List.isPrefixOf, Bool.and_true, Bool.or_false, Bool.and_eq_true, beq_iff_eq,
      List.mem_singleton]
    constructor
    · rintro ⟨rfl, rfl⟩
      exact ⟨rfl, rfl⟩
    · rintro ⟨rfl, rfl⟩
      exact ⟨rfl, rfl⟩
  | windows =>
    simp only [PathStyle.prefixes, PathStyle.separatorsCh, List.any_cons, List.any_nil,
      List.isPrefixOf, Bool.and_true, Bool.or_false, Bool.or_eq_true, Bool.and_eq_true,
      beq_iff_eq, List.mem_cons, List.not_mem_nil, or_false]
    constructor
    · rintro (⟨rfl, rfl⟩ | ⟨rfl, rfl⟩) <;> simp
    · rintro ⟨rfl, rfl | rfl⟩ <;> simp

theorem pieces_trimStart (style : PathStyle) (path : Str) : (∃ dots, (∀ piece ∈ dots, piece = ['.']) ∧
      pieces style path = dots ++ pieces style (RelPath.trimStart style path)) ∧
    ∀ first second rest, pieces style (RelPath.trimStart style path) = first :: second :: rest → first ≠ ['.'] := by
  induction path using RelPath.trimStart.induct style with
  | case1 c d rest starts ih =>
    obtain ⟨rfl, separator⟩ := any_prefixes.mp starts
    obtain ⟨⟨dots, all, eq⟩, clear⟩ := ih
    rw [RelPath.trimStart, if_pos starts]
    refine ⟨⟨['.'] :: dots, by simpa using all, ?_⟩, clear⟩
    have dot : ∀ x ∈ ['.'], x ∉ style.separatorsCh := by cases style <;> simp [PathStyle.separatorsCh]
    obtain ⟨second, others, split⟩ := List.exists_cons_of_ne_nil (pieces_ne_nil style rest)
    have cut := pieces_eq_cons_cons.mpr ⟨d, rest, rfl, dot, separator, split⟩
    rw [List.singleton_append] at cut
    rw [cut, List.cons_append, ← eq, split]
  | case2 c d rest starts =>
    rw [RelPath.trimStart, if_neg starts]
    refine ⟨⟨[], by simp, rfl⟩, ?_⟩
    rintro first second others split rfl
    obtain ⟨x, after, eq, -, separator, -⟩ := pieces_eq_cons_cons.mp split
    cases eq
    exact starts (any_prefixes.mpr ⟨rfl, separator⟩)
  | case3 path short =>
    have kept : RelPath.trimStart style path = path := by
      match path with
      | [] => rfl
      | [_] => rfl
      | c :: d :: rest => exact absurd rfl (short c d rest)
    rw [kept]
    refine ⟨⟨[], by simp, rfl⟩, ?_⟩
    rintro first second others split rfl
    obtain ⟨x, after, rfl, -⟩ := pieces_eq_cons_cons.mp split
    exact short _ _ _ rfl

theorem pieces_trimReversed (style : PathStyle) (reversed : Str) : ∃ blanks, (∀ piece ∈ blanks, piece = []) ∧
    pieces style reversed.reverse = pieces style (RelPath.trimReversed style reversed).reverse ++ blanks := by
  induction reversed using RelPath.trimReversed.induct style with
  | case1 c d rest separator ih =>
    obtain ⟨blanks, all, eq⟩ := ih
    refine ⟨blanks ++ [[]], ?_, ?_⟩
    · intro piece member
      rcases List.mem_append.mp member with member | member
      · exact all piece member
      · exact List.mem_singleton.mp member
    · rw [RelPath.trimReversed, if_pos separator, List.reverse_cons,
        pieces_append_separator _ _ (mem_suffixes.mp separator), eq, List.append_assoc]
      rfl
  | case2 c d rest separator =>
    rw [RelPath.trimReversed, if_neg separator]
    exact ⟨[], by simp, by simp⟩
  | case3 path short =>
    have kept : RelPath.trimReversed style path = path := by
      match path with
      | [] => rfl
      | [_] => rfl
      | c :: d :: rest => exact absurd rfl (short c d rest)
    rw [kept]
    exact ⟨[], by simp, by simp⟩

theorem pieces_trim (style : PathStyle) (path : Str) :
    (∃ dots blanks, (∀ piece ∈ dots, piece = ['.']) ∧ (∀ piece ∈ blanks, piece = []) ∧
      pieces style path = dots ++ pieces style (RelPath.trim style path) ++ blanks) ∧
    ∀ first second rest, pieces style (RelPath.trim style path) = first :: second :: rest → first ≠ ['.'] := by
  obtain ⟨⟨dots, allDots, starts⟩, clear⟩ := pieces_trimStart style path
  obtain ⟨blanks, allBlank, ends⟩ := pieces_trimReversed style (RelPath.trimStart style path).reverse
  rw [List.reverse_reverse] at ends
  refine ⟨⟨dots, blanks, allDots, allBlank, ?_⟩, fun first second rest split => ?_⟩
  · rw [starts, ends, List.append_assoc]
    rfl
  · rw [RelPath.trim] at split
    refine clear first second (rest ++ blanks) ?_
    rw [ends, split]
    rfl

theorem resolve_trim (style : PathStyle) (path : Str) :
    resolve (pieces style (RelPath.trim style path)) = resolve (pieces style path) := by
  obtain ⟨⟨dots, blanks, allDots, allBlank, eq⟩, -⟩ := pieces_trim style path
  rw [eq, resolve_padded (fun piece member => .inr (allDots piece member))
    (fun piece member => .inl (allBlank piece member))]

/-! ## Components -/

/-- A path that `new` goes on with: the separators of the style have become slashes. -/
def slashed (style : PathStyle) (path : Str) : Str :=
  if style = .windows ∧ '\\' ∈ path then path.map fun c => if c = '\\' then '/' else c else path

theorem pieces_map {style' : PathStyle} (f : Char → Char)
    (separators : ∀ c, f c ∈ style'.separatorsCh ↔ c ∈ style.separatorsCh)
    (kept : ∀ c, c ∉ style.separatorsCh → f c = c) (path : Str) : pieces style' (path.map f) = pieces style path := by
  induction path with
  | nil => rfl
  | cons c path ih =>
    rw [List.map_cons, pieces_cons, pieces_cons, ih]
    by_cases separator : c ∈ style.separatorsCh
    · rw [if_pos separator, if_pos ((separators c).mpr separator)]
    · rw [if_neg separator, if_neg fun is => separator ((separators c).mp is), kept c separator]

theorem map_replace_of_not_mem {old new : Char} {path : Str} (absent : old ∉ path) :
    (path.map fun c => if c = old then new else c) = path := by
  have same : ∀ c ∈ path, (if c = old then new else c) = id c := by
    intro c member
    rw [if_neg]
    · rfl
    · rintro rfl
      exact absent member
  rw [List.map_congr_left same, List.map_id]

theorem slashed_windows (path : Str) :
    slashed .windows path = path.map fun c => if c = '\\' then '/' else c := by
  rw [slashed]
  split_ifs with replaced
  · rfl
  · rw [map_replace_of_not_mem fun member => replaced ⟨rfl, member⟩]

theorem pieces_slashed (style : PathStyle) (path : Str) : pieces .unix (slashed style path) = pieces style path := by
  cases style with
  | unix => rfl
  | windows =>
    rw [slashed_windows]
    refine pieces_map _ (fun c => ?_) (fun c other => ?_) path
    · by_cases backslash : c = '\\' <;> simp [PathStyle.separatorsCh, backslash]
    · rw [if_neg]
      rintro rfl
      exact other (by decide)

theorem display_windows (path : Str) :
    (RelPath.display path .windows).asRef = path.map fun c => if c = '/' then '\\' else c := by
  rw [RelPath.display]
  split_ifs with replaced
  · rfl
  · rw [map_replace_of_not_mem replaced]
    rfl

theorem pieces_display (style : PathStyle) (path : Str) :
    pieces style (RelPath.display path style).asRef = pieces style path := by
  cases style with
  | unix => rfl
  | windows =>
    rw [display_windows]
    refine pieces_map _ (fun c => ?_) (fun c other => ?_) path
    · by_cases slash : c = '/' <;> simp [PathStyle.separatorsCh, slash]
    · rw [if_neg]
      rintro rfl
      exact other (by decide)

theorem pieces_components (path : Str) : ∃ blanks, (∀ piece ∈ blanks, piece = []) ∧
    pieces .unix path = RelPath.components path ++ blanks := by
  have from_ : ∀ (rest current : Str), ∃ blanks, (∀ piece ∈ blanks, piece = []) ∧
      (pieces .unix rest).modifyHead (current ++ ·) = RelPath.componentsFrom current rest ++ blanks := by
    intro rest
    induction rest with
    | nil =>
      intro current
      cases current with
      | nil => exact ⟨[[]], by simp, rfl⟩
      | cons c current => exact ⟨[], by simp, by simp [pieces, RelPath.componentsFrom]⟩
    | cons c rest ih =>
      intro current
      rw [pieces_cons, RelPath.componentsFrom]
      by_cases slash : c = '/'
      · obtain ⟨blanks, all, eq⟩ := ih []
        refine ⟨blanks, all, ?_⟩
        rw [if_pos (by simp [slash, PathStyle.separatorsCh]), if_pos slash, List.cons_append, ← eq]
        obtain ⟨first, others, split⟩ := List.exists_cons_of_ne_nil (pieces_ne_nil .unix rest)
        simp [split]
      · obtain ⟨blanks, all, eq⟩ := ih (current ++ [c])
        refine ⟨blanks, all, ?_⟩
        rw [if_neg (by simp [slash, PathStyle.separatorsCh]), if_neg slash, ← eq]
        obtain ⟨first, others, split⟩ := List.exists_cons_of_ne_nil (pieces_ne_nil .unix rest)
        simp [split]
  obtain ⟨blanks, all, eq⟩ := from_ path []
  refine ⟨blanks, all, ?_⟩
  rw [RelPath.components, ← eq]
  obtain ⟨first, others, split⟩ := List.exists_cons_of_ne_nil (pieces_ne_nil .unix path)
  simp [split]

theorem components_join {names : List Str} (clean : ∀ name ∈ names, Clean .unix name) :
    RelPath.components (join names) = names := by
  by_cases empty : names = []
  · subst empty
    rfl
  · obtain ⟨blanks, all, eq⟩ := pieces_components (join names)
    rw [pieces_join clean empty] at eq
    cases blanks with
    | nil => simpa using eq.symm
    | cons blank blanks =>
      have member : blank ∈ names := by
        rw [eq]
        simp
      exact absurd (all blank (by simp)) (clean blank member).nonempty

theorem componentsFrom_ne_nil {current rest : Str} (nonempty : current ≠ [] ∨ rest ≠ []) :
    RelPath.componentsFrom current rest ≠ [] := by
  induction rest generalizing current with
  | nil => simpa [RelPath.componentsFrom] using nonempty
  | cons c rest ih =>
    rw [RelPath.componentsFrom]
    split_ifs
    · simp
    · exact ih (.inl (by simp))

theorem join_componentsFrom {current rest : Str} (ends : ∀ c ∈ rest.getLast?, c ≠ '/') :
    join (RelPath.componentsFrom current rest) = current ++ rest := by
  induction rest generalizing current with
  | nil =>
    rw [RelPath.componentsFrom]
    split_ifs with empty
    · rw [List.isEmpty_iff.mp empty]
      rfl
    · simp [join]
  | cons c rest ih =>
    have ends' : ∀ c ∈ rest.getLast?, c ≠ '/' := by
      intro d last
      refine ends d ?_
      rw [List.getLast?_cons, Option.mem_def.mp last]
      rfl
    rw [RelPath.componentsFrom]
    split_ifs with slash
    · have more : rest ≠ [] := by
        rintro rfl
        exact ends c rfl slash
      rw [join_cons _ (componentsFrom_ne_nil (.inr more)), ih ends', slash]
      rfl
    · rw [ih ends']
      simp

end Pinrail

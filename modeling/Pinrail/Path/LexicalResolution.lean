import Pinrail.Path.Normalized

/-!
# `RelPath::new` as lexical resolution

`new` trims its argument before it asks whether that is absolute, so what it accepts differs from
the relative paths that never lead above their start in two places: dots in front of a root are
removed and the root comes to light, and the root of a drive loses its separator.
-/

namespace Pinrail

variable {style : PathStyle} {path : Str}

/-- What `new` promises: it accepts the relative paths that never lead above their start, and the
result has the components that are left. -/
structure Resolves (path : Str) (style : PathStyle) : Prop where
  accepts : (∃ cow, RelPath.new path style = .ok cow) ↔ isAbsolute path style = false ∧ Grounded (pieces style path)
  components : ∀ cow, RelPath.new path style = .ok cow →
    resolve (pieces style path) = some (RelPath.components cow.asRef)

/-- What makes a path absolute: an empty component at the front, or a drive with a name below. -/
def RootAhead (style : PathStyle) (pieces : List Str) : Prop :=
  ∃ first second rest, pieces = first :: second :: rest ∧
    (first = [] ∨ style = .windows ∧ IsDrive first ∧ ∃ piece ∈ second :: rest, piece ≠ [])

def DotsBeforeRoot (style : PathStyle) (pieces : List Str) : Prop :=
  ∃ dots rooted, pieces = dots ++ rooted ∧ dots ≠ [] ∧ (∀ piece ∈ dots, piece = ['.']) ∧ RootAhead style rooted

def BareDriveRoot (style : PathStyle) (pieces : List Str) : Prop :=
  style = .windows ∧ ∃ drive blanks, pieces = drive :: blanks ∧ IsDrive drive ∧ blanks ≠ [] ∧
    ∀ piece ∈ blanks, piece = []

/-! ## The trimmed path -/

theorem separators_of_blank (blank : ∀ piece ∈ pieces style path, piece = []) : ∀ c ∈ path, c ∈ style.separatorsCh := by
  induction path with
  | nil => simp
  | cons c path ih =>
    rw [pieces_cons] at blank
    split_ifs at blank with separator
    · intro d member
      rcases List.mem_cons.mp member with rfl | member
      · exact separator
      · exact ih (fun piece within => blank piece (List.mem_cons_of_mem _ within)) d member
    · obtain ⟨first, rest, split⟩ := List.exists_cons_of_ne_nil (pieces_ne_nil style path)
      rw [split, List.modifyHead_cons] at blank
      exact absurd (blank (c :: first) (by simp)) (by simp)

theorem trimReversed_ne_nil {reversed : Str} (nonempty : reversed ≠ []) : RelPath.trimReversed style reversed ≠ [] := by
  induction reversed using RelPath.trimReversed.induct style with
  | case1 c d rest separator ih =>
    rw [RelPath.trimReversed, if_pos separator]
    exact ih (by simp)
  | case2 c d rest kept =>
    rw [RelPath.trimReversed, if_neg kept]
    simp
  | case3 reversed short =>
    rcases reversed with _ | ⟨c, _ | ⟨d, rest⟩⟩
    · exact absurd rfl nonempty
    · simp [RelPath.trimReversed]
    · exact absurd rfl (short c d rest)

theorem drive_below {drive second : Str} {rest : List Str} (isDrive : IsDrive drive)
    (cut : pieces style (RelPath.trim style path) = drive :: second :: rest) :
    ∃ piece ∈ second :: rest, piece ≠ [] := by
  by_contra blank
  push Not at blank
  obtain ⟨c, after, text, -, separator, later⟩ := pieces_eq_cons_cons.mp cut
  have all : ∀ d ∈ c :: after, d ∈ style.separatorsCh := by
    intro d member
    rcases List.mem_cons.mp member with rfl | member
    · exact separator
    · exact separators_of_blank (later ▸ blank) d member
  have last : (c :: after).getLast (by simp) ∈ style.suffixes := mem_suffixes.mpr (all _ (List.getLast_mem _))
  have single : RelPath.trimReversed style (RelPath.trimStart style path).reverse =
      [(c :: after).getLast (by simp)] := by
    refine trimReversed_head ?_ last
    rw [← List.getLast?_reverse]
    change (RelPath.trim style path).getLast? = _
    rw [text, List.getLast?_append, List.getLast?_eq_some_getLast (by simp)]
    rfl
  have short : RelPath.trim style path = [(c :: after).getLast (by simp)] := by
    rw [RelPath.trim, single, List.reverse_singleton]
  obtain ⟨letter, -, rfl⟩ := isDrive
  rw [text] at short
  simpa using congrArg List.length short

theorem rootAhead_trimStart : isAbsolute (RelPath.trim style path) style = true ↔
    RootAhead style (pieces style (RelPath.trimStart style path)) := by
  obtain ⟨blanks, allBlank, ends⟩ := pieces_trimReversed style (RelPath.trimStart style path).reverse
  rw [List.reverse_reverse] at ends
  change _ = pieces style (RelPath.trim style path) ++ blanks at ends
  rw [isAbsolute_iff]
  constructor
  · rintro ⟨first, second, rest, cut, kind⟩
    refine ⟨first, second, rest ++ blanks, by rw [ends, cut]; rfl, ?_⟩
    rcases kind with empty | ⟨windows, isDrive⟩
    · exact .inl empty
    · obtain ⟨piece, member, nonempty⟩ := drive_below isDrive cut
      exact .inr ⟨windows, isDrive, piece, List.mem_append_left blanks member, nonempty⟩
  · rintro ⟨first, second, rest, cut, kind⟩
    obtain ⟨head, others, start⟩ := List.exists_cons_of_ne_nil (pieces_ne_nil style (RelPath.trim style path))
    rw [ends, start, List.cons_append, List.cons_eq_cons] at cut
    obtain ⟨rfl, behind⟩ := cut
    cases others with
    | cons next others =>
      exact ⟨head, next, others, start, kind.imp_right fun drive => ⟨drive.1, drive.2.1⟩⟩
    | nil =>
      exfalso
      rcases kind with rfl | ⟨-, -, piece, member, nonempty⟩
      · -- Only an empty path has a single empty piece, and trimming does not empty a path.
        have empty : RelPath.trim style path = [] := by
          cases text : RelPath.trim style path with
          | nil => rfl
          | cons c rest' =>
            rw [text, pieces_cons] at start
            split_ifs at start with separator
            · exact absurd (List.cons_eq_cons.mp start).2 (pieces_ne_nil style rest')
            · obtain ⟨p, ps, split⟩ := List.exists_cons_of_ne_nil (pieces_ne_nil style rest')
              rw [split, List.modifyHead_cons] at start
              cases start
        have nothing : RelPath.trimStart style path = [] := by
          by_contra some
          refine @trimReversed_ne_nil style _ (List.reverse_ne_nil_iff.mpr some) ?_
          exact List.reverse_eq_nil_iff.mp empty
        rw [nothing, start] at ends
        rw [List.nil_append] at behind
        rw [behind] at ends
        cases ends
      · rw [← behind, List.nil_append] at member
        exact nonempty (allBlank piece member)

theorem RootAhead.absolute (ahead : RootAhead style (pieces style path)) : isAbsolute path style = true := by
  obtain ⟨first, second, rest, cut, kind⟩ := ahead
  exact isAbsolute_iff.mpr ⟨first, second, rest, cut, kind.imp_right fun drive => ⟨drive.1, drive.2.1⟩⟩

theorem RootAhead.head_ne_dot {pieces : List Str} (ahead : RootAhead style pieces) : pieces.head? ≠ some ['.'] := by
  obtain ⟨first, second, rest, rfl, rfl | ⟨-, ⟨letter, -, rfl⟩, -⟩⟩ := ahead
  · simp
  · simp

theorem absolute_trim_iff : isAbsolute (RelPath.trim style path) style = true ↔ ∃ dots rooted,
    pieces style path = dots ++ rooted ∧ (∀ piece ∈ dots, piece = ['.']) ∧ RootAhead style rooted := by
  obtain ⟨⟨dots, allDots, starts⟩, clear⟩ := pieces_trimStart style path
  rw [rootAhead_trimStart]
  constructor
  · intro ahead
    exact ⟨dots, _, starts, allDots, ahead⟩
  · rintro ⟨dots', rooted, cut, allDots', ahead⟩
    -- Both ways to cut off dots end before the first piece that is none.
    have left : (pieces style path).dropWhile (· = ['.']) = rooted := by
      rw [cut, List.dropWhile_append_of_pos (by simpa using allDots')]
      have first := ahead.head_ne_dot
      obtain ⟨head, second, rest, rfl, -⟩ := ahead
      rw [List.dropWhile_cons_of_neg (by simpa using first)]
    have right : (pieces style path).dropWhile (· = ['.']) =
        (pieces style (RelPath.trimStart style path)).dropWhile (· = ['.']) := by
      rw [starts, List.dropWhile_append_of_pos (by simpa using allDots)]
    have same : (pieces style (RelPath.trimStart style path)).dropWhile (· = ['.']) = rooted := right.symm.trans left
    obtain ⟨head, others, split⟩ := List.exists_cons_of_ne_nil (pieces_ne_nil style (RelPath.trimStart style path))
    rw [split] at same ⊢
    cases others with
    | nil =>
      have short : rooted.length ≤ [head].length := same ▸ (List.dropWhile_sublist _).length_le
      obtain ⟨first, second, rest, rfl, -⟩ := ahead
      simp at short
    | cons next others =>
      rw [List.dropWhile_cons_of_neg (by simpa using clear head next others split)] at same
      rwa [same]

/-! ## Where trimming changes the answer -/

theorem dotsBeforeRoot_iff : DotsBeforeRoot style (pieces style path) ↔
    isAbsolute (RelPath.trim style path) style = true ∧ isAbsolute path style = false := by
  constructor
  · rintro ⟨dots, rooted, cut, nonempty, allDots, ahead⟩
    refine ⟨absolute_trim_iff.mpr ⟨dots, rooted, cut, allDots, ahead⟩, ?_⟩
    rw [Bool.eq_false_iff, Ne, isAbsolute_iff]
    rintro ⟨first, second, rest, eq, kind⟩
    obtain ⟨dot, dots, rfl⟩ := List.exists_cons_of_ne_nil nonempty
    rw [cut, List.cons_append, List.cons_eq_cons] at eq
    have isDot : first = ['.'] := eq.1 ▸ allDots dot (by simp)
    rcases kind with rfl | ⟨-, letter, -, rfl⟩
    · cases isDot
    · simp at isDot
  · rintro ⟨absolute, relative⟩
    obtain ⟨dots, rooted, cut, allDots, ahead⟩ := absolute_trim_iff.mp absolute
    refine ⟨dots, rooted, cut, ?_, allDots, ahead⟩
    rintro rfl
    rw [List.nil_append] at cut
    rw [RootAhead.absolute (cut ▸ ahead)] at relative
    cases relative

theorem bareDriveRoot_iff : BareDriveRoot style (pieces style path) ↔
    isAbsolute (RelPath.trim style path) style = false ∧ isAbsolute path style = true := by
  constructor
  · rintro ⟨windows, drive, blanks, cut, isDrive, nonempty, blank⟩
    obtain ⟨second, rest, rfl⟩ := List.exists_cons_of_ne_nil nonempty
    refine ⟨?_, isAbsolute_iff.mpr ⟨drive, second, rest, cut, .inr ⟨windows, isDrive⟩⟩⟩
    rw [Bool.eq_false_iff, Ne, absolute_trim_iff]
    rintro ⟨dots, rooted, eq, allDots, first, next, others, rfl, kind⟩
    obtain ⟨letter, -, rfl⟩ := isDrive
    cases dots with
    | cons dot dots =>
      rw [cut, List.cons_append, List.cons_eq_cons] at eq
      have isDot := allDots dot (by simp)
      rw [← eq.1] at isDot
      simp at isDot
    | nil =>
      rw [cut, List.nil_append, List.cons_eq_cons] at eq
      obtain ⟨rfl, same⟩ := eq
      rcases kind with empty | ⟨-, -, piece, member, name⟩
      · cases empty
      · exact name (blank piece (same ▸ member))
  · rintro ⟨relative, absolute⟩
    rw [Bool.eq_false_iff, Ne, absolute_trim_iff] at relative
    obtain ⟨first, second, rest, cut, kind⟩ := isAbsolute_iff.mp absolute
    have notAhead : ¬ RootAhead style (first :: second :: rest) := fun ahead => relative ⟨[], _, cut, by simp, ahead⟩
    rcases kind with empty | ⟨windows, isDrive⟩
    · exact absurd ⟨first, second, rest, rfl, .inl empty⟩ notAhead
    · refine ⟨windows, first, second :: rest, cut, isDrive, by simp, ?_⟩
      intro piece member
      by_contra name
      exact notAhead ⟨first, second, rest, rfl, .inr ⟨windows, isDrive, piece, member, name⟩⟩

theorem BareDriveRoot.grounded {pieces : List Str} (bare : BareDriveRoot style pieces) : Grounded pieces := by
  obtain ⟨-, drive, blanks, rfl, isDrive, -, blank⟩ := bare
  have padded : resolve ([] ++ [drive] ++ blanks) = resolve [drive] :=
    resolve_padded (by simp) fun piece member => .inl (blank piece member)
  refine resolve_iff.mp ⟨[drive], padded.trans ?_⟩
  rw [resolve, List.foldlM_cons, isDrive.resolveStep_eq]
  rfl

/-! ## What is accepted -/

theorem new_ok_iff : (∃ cow, RelPath.new path style = .ok cow) ↔
    isAbsolute (RelPath.trim style path) style = false ∧ Grounded (pieces style path) := by
  constructor
  · rintro ⟨cow, accepted⟩
    obtain ⟨relative, names, resolved, -⟩ := new_eq_ok accepted
    exact ⟨relative, resolve_iff.mp ⟨names, resolved⟩⟩
  · rintro ⟨relative, grounded⟩
    obtain ⟨names, resolved⟩ := resolve_iff.mpr grounded
    obtain ⟨cow, accepted, -⟩ := new_ok relative resolved
    exact ⟨cow, accepted⟩

theorem components_new {cow : Cow Str} (accepted : RelPath.new path style = .ok cow) :
    resolve (pieces style path) = some (RelPath.components cow.asRef) := by
  obtain ⟨-, names, resolved, text⟩ := new_eq_ok accepted
  rw [resolved, text, components_join fun name member => (resolve_clean resolved name member).unix]

/-- `new` resolves a path lexically unless dots hide a root or the path is the root of a drive. -/
theorem new_resolves_iff (path : Str) (style : PathStyle) : Resolves path style ↔
    ¬ (Grounded (pieces style path) ∧ DotsBeforeRoot style (pieces style path)) ∧
    ¬ BareDriveRoot style (pieces style path) := by
  constructor
  · intro resolves
    have accepts := resolves.accepts
    rw [new_ok_iff] at accepts
    refine ⟨?_, ?_⟩
    · rintro ⟨grounded, hidden⟩
      obtain ⟨absolute, relative⟩ := dotsBeforeRoot_iff.mp hidden
      have contrary := (accepts.mpr ⟨relative, grounded⟩).1
      rw [absolute] at contrary
      cases contrary
    · intro bare
      obtain ⟨relative, absolute⟩ := bareDriveRoot_iff.mp bare
      have contrary := (accepts.mp ⟨relative, bare.grounded⟩).1
      rw [absolute] at contrary
      cases contrary
  · rintro ⟨noHidden, noBare⟩
    refine ⟨?_, fun cow => components_new⟩
    rw [new_ok_iff]
    rw [dotsBeforeRoot_iff] at noHidden
    rw [bareDriveRoot_iff] at noBare
    refine and_congr_left fun grounded => ⟨fun trimmed => ?_, fun whole => ?_⟩
    · by_contra absolute
      exact noBare ⟨trimmed, by simpa using absolute⟩
    · by_contra absolute
      exact noHidden ⟨grounded, by simpa using absolute, whole⟩

/-- A dot in front of two slashes makes a relative path absolute, and the root of a drive is taken
for a name. -/
theorem new_trims_roots : isAbsolute ['.', '/', '/', 'f', 'o', 'o'] .unix = false ∧
    RelPath.new ['.', '/', '/', 'f', 'o', 'o'] .unix = .error (.absolute ['/', 'f', 'o', 'o']) ∧
    isAbsolute ['C', ':', '\\'] .windows = true ∧ RelPath.new ['C', ':', '\\'] .windows = .ok (.borrowed ['C', ':']) ∧
    ¬ Resolves ['.', '/', '/', 'f', 'o', 'o'] .unix ∧ ¬ Resolves ['C', ':', '\\'] .windows := by
  refine ⟨rfl, rfl, rfl, rfl, fun resolves => ?_, fun resolves => ?_⟩
  · obtain ⟨cow, accepted⟩ := resolves.accepts.mpr ⟨rfl, resolve_iff.mp ⟨[['f', 'o', 'o']], rfl⟩⟩
    cases accepted
  · have relative := (resolves.accepts.mp ⟨_, rfl⟩).1
    cases relative

end Pinrail

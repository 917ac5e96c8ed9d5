import Pinrail.Path.Normalize

/-!
# Normal forms

A normalized path is in normal form, and stays absolute or relative, unless it is a relative Windows
path in which names that cancel out let a component come to the front that reads as a drive.
-/

namespace Pinrail

variable {style : PathStyle} {path : Str}

def DriveLike (piece : Str) : Prop :=
  ∃ letter rest, letter.isAlpha = true ∧ piece = letter :: ':' :: rest

def ComesToFront (piece : Str) (back : List Str) (pieces : List Str) : Prop :=
  ∃ first front, pieces = first :: front ++ piece :: back ∧ first ≠ [] ∧ ¬ DriveLike first ∧
    Grounded (first :: front) ∧ level (first :: front) = 0 ∧ Grounded back

def DriveComesToFront (pieces : List Str) : Prop :=
  ∃ piece back, ComesToFront piece back pieces ∧ (IsDrive piece ∧ 0 < level back ∨ ∃ letter, letter.isAlpha = true ∧
        (piece = [letter, ':', '.'] ∨ piece = [letter, ':', '.', '.']))

/-! ## Pieces at the front -/

theorem pieces_drive {letter : Char} (alpha : letter.isAlpha = true) (rest : Str) : ∃ more others,
    pieces .windows rest = more :: others ∧ pieces .windows (letter :: ':' :: rest) = (letter :: ':' :: more) ::
    others := by
  obtain ⟨more, others, cut⟩ := List.exists_cons_of_ne_nil (pieces_ne_nil .windows rest)
  refine ⟨more, others, cut, ?_⟩
  rw [pieces_cons, if_neg (alpha_not_separator alpha), pieces_cons, if_neg (by simp [PathStyle.separatorsCh]), cut]
  rfl

theorem drive_of_pieces {letter : Char} {more : Str} {others : List Str}
    (cut : pieces style path = (letter :: ':' :: more) :: others) : ∃ rest, path = letter :: ':' :: rest := by
  have start : ∀ {c : Char} {more : Str} {path : Str}, pieces style path = (c :: more) :: others → ∃ rest, path = c ::
      rest ∧ pieces style rest = more :: others := by
    intro c more path cut
    cases path with
    | nil => simp [pieces] at cut
    | cons d rest =>
      rw [pieces_cons] at cut
      split_ifs at cut with separator
      · simp at cut
      · obtain ⟨head, tail, split⟩ := List.exists_cons_of_ne_nil (pieces_ne_nil style rest)
        rw [split, List.modifyHead_cons] at cut
        cases cut
        exact ⟨rest, rfl, split⟩
  obtain ⟨rest, rfl, cut'⟩ := start cut
  obtain ⟨rest', rfl, -⟩ := start cut'
  exact ⟨rest', rfl⟩

theorem relative_iff : WindowsStart path (.ok ([], path)) ↔ ∀ first rest, pieces .windows path = first :: rest →
    ¬ DriveLike first ∧ (first = [] → rest = []) := by
  constructor
  · intro start first rest cut
    cases start with
    | relative noDrive ends =>
      refine ⟨?_, ?_⟩
      · rintro ⟨letter, more, alpha, rfl⟩
        obtain ⟨rest', rfl⟩ := drive_of_pieces cut
        exact noDrive letter rest' rfl alpha
      · rintro rfl
        cases path with
        | nil =>
          cases cut
          rfl
        | cons c rest' =>
          rw [pieces_cons, if_neg (ends c rfl)] at cut
          obtain ⟨head, tail, split⟩ := List.exists_cons_of_ne_nil (pieces_ne_nil .windows rest')
          rw [split, List.modifyHead_cons] at cut
          cases cut
  · intro plain
    refine .relative ?_ ?_
    · rintro letter rest rfl alpha
      obtain ⟨more, others, -, cut⟩ := pieces_drive alpha rest
      exact (plain _ _ cut).1 ⟨letter, more, alpha, rfl⟩
    · intro c head separator
      cases path with
      | nil => cases head
      | cons d rest =>
        cases head
        have alone := (plain _ _ (pieces_separator separator rest)).2 rfl
        exact pieces_ne_nil .windows rest alone

theorem ComesToFront.relative {piece : Str} {back : List Str} (comes : ComesToFront piece back (pieces .windows path)) :
    WindowsStart path (.ok ([], path)) := by
  obtain ⟨first, front, cut, nonempty, notDrive, -⟩ := comes
  refine relative_iff.mpr fun first' rest cut' => ?_
  rw [cut, List.cons_append, List.cons_eq_cons] at cut'
  obtain ⟨rfl, -⟩ := cut'
  exact ⟨notDrive, fun empty => absurd empty nonempty⟩

theorem DriveLike.resolveStep_eq {piece : Str} (drive : DriveLike piece) : resolveStep [] piece = some [piece] := by
  obtain ⟨letter, rest, alpha, rfl⟩ := drive
  rw [resolveStep, if_neg (by simp), if_neg]
  · rfl
  · intro dots
    cases dots

theorem ComesToFront.resolve_eq {piece : Str} {back components : List Str}
    (comes : ComesToFront piece back components) (drive : DriveLike piece) :
    ∃ rest, resolve components = some (piece :: rest) ∧ (rest.length : Int) = level back := by
  obtain ⟨first, front, rfl, -, -, frontGrounded, frontLevel, backGrounded⟩ := comes
  obtain ⟨names, frontResolved⟩ := resolve_iff.mpr frontGrounded
  have length := resolve_length frontResolved
  rw [frontLevel] at length
  obtain rfl : names = [] := List.length_eq_zero_iff.mp (by exact_mod_cast length)
  obtain ⟨rest, backResolved⟩ := resolve_iff.mpr backGrounded
  exact ⟨rest, resolve_append_cons frontResolved drive.resolveStep_eq backResolved, resolve_length backResolved⟩

theorem comesToFront_of_resolve {piece : Str} {rest : List Str} (start : WindowsStart path (.ok ([], path)))
    (drive : DriveLike piece) (resolved : resolve (pieces .windows path) = some (piece :: rest)) : ∃ back,
    ComesToFront piece back (pieces .windows path) ∧ (rest.length : Int) = level back := by
  obtain ⟨front, back, cut, frontNone, backRest⟩ := resolve_eq_cons resolved
  have plain := relative_iff.mp start
  cases front with
  | nil => exact absurd drive (plain piece back cut).1
  | cons first front =>
    obtain ⟨notDrive, alone⟩ := plain first (front ++ piece :: back) cut
    have frontLength := resolve_length frontNone
    refine ⟨back, ⟨first, front, cut, fun empty => ?_, notDrive, resolve_iff.mp ⟨[], frontNone⟩,
      frontLength.symm, resolve_iff.mp ⟨rest, backRest⟩⟩, resolve_length backRest⟩
    simpa using alone empty

/-! ## The Unix style -/

theorem startsWith_slash (rest : Str) : startsWith ('/' :: rest) '/' = true := rfl

theorem unix_normalize_absolute (rest : Str) : ∃ names, (∀ name ∈ names, Clean .unix name) ∧
    normalize .unix ('/' :: rest) = '/' :: joined .unix names := by
  obtain ⟨-, names, clean, rooted, -⟩ := settle_spec (pieces_whole .unix (('/' :: rest).dropWhile (· = '/')))
  exact ⟨names, clean, by rw [normalize, if_pos (startsWith_slash rest), rooted]⟩

theorem whole_ups (count : Nat) {names : List Str} (clean : ∀ name ∈ names, Clean style name) :
    (∀ component ∈ List.replicate count dotDot ++ names, ∀ c ∈ component, c ∉ style.separatorsCh) ∧
    ∀ component ∈ List.replicate count dotDot ++ names, component ≠ [] := by
  refine ⟨fun component member c within => ?_, fun component member => ?_⟩
  · rcases List.mem_append.mp member with up | name
    · rw [List.eq_of_mem_replicate up] at within
      cases style <;> simp_all [PathStyle.separatorsCh]
    · exact (clean component name).noSeparator c within
  · rcases List.mem_append.mp member with up | name
    · rw [List.eq_of_mem_replicate up]
      simp
    · exact (clean component name).nonempty

theorem dropWhile_joined {names : List Str} (clean : ∀ name ∈ names, Clean .unix name) :
    ('/' :: joined .unix names).dropWhile (· = '/') = joined .unix names := by
  rw [List.dropWhile_cons_of_pos (by simp)]
  cases text : joined .unix names with
  | nil => rfl
  | cons c rest =>
    have other := joined_head (fun name member => (clean name member).noSeparator)
      (fun name member => (clean name member).nonempty) c (by rw [text]; rfl)
    rw [List.dropWhile_cons_of_neg]
    simpa [PathStyle.separatorsCh] using other

theorem unix_normalize_stable (path : Str) : normalize .unix (normalize .unix path) = normalize .unix path ∧
    isAbsolute (normalize .unix path) .unix = isAbsolute path .unix := by
  have unixAbsolute : ∀ path : Str, isAbsolute path .unix = startsWith path '/' := by
    intro path
    rw [isAbsolute]
    simp
  rw [unixAbsolute, unixAbsolute]
  cases starts : startsWith path '/' with
  | true =>
    obtain ⟨rest, rfl⟩ : ∃ rest, path = '/' :: rest := by
      cases path with
      | nil => cases starts
      | cons c rest => exact ⟨rest, by simpa [startsWith] using starts⟩
    obtain ⟨names, clean, eq⟩ := unix_normalize_absolute rest
    rw [eq]
    refine ⟨?_, rfl⟩
    rw [normalize, if_pos (startsWith_slash _), dropWhile_joined clean,
      settle_pieces_joined (fun name member => (clean name member).noSeparator) (settle_clean clean)]
  | false =>
    obtain ⟨count, names, clean, -, unrooted, -⟩ := settle_spec (pieces_whole .unix path)
    have eq : normalize .unix path = joined .unix (List.replicate count dotDot ++ names) := by
      rw [normalize, if_neg (by simp [starts]), unrooted]
    obtain ⟨whole, some⟩ := whole_ups count clean
    have relative : startsWith (joined .unix (List.replicate count dotDot ++ names)) '/' =
        false := by
      rw [Bool.eq_false_iff, startsWith]
      intro slash
      exact joined_head whole some '/' (by simpa using slash) (slash_mem .unix)
    rw [eq]
    refine ⟨?_, relative⟩
    rw [normalize, if_neg (by simp [relative]), settle_pieces_joined whole (settle_ups count clean)]

/-! ## The Windows style -/

theorem windows_normalize {start remainder : Str} (split : WindowsStart path (.ok (start, remainder))) :
    normalize .windows path = start ++ joined .windows (settle (!start.isEmpty) (pieces .windows remainder)) := by
  rw [normalize, split.eq]

theorem windows_normalize_early {text : Str} (early : WindowsStart path (.error text)) :
    normalize .windows path = text := by
  rw [normalize, early.eq]

theorem windows_normalize_names {start remainder : Str} (nonempty : start ≠ [])
    (split : WindowsStart path (.ok (start, remainder))) :
    ∃ names, (∀ name ∈ names, Clean .windows name) ∧ normalize .windows path = start ++ joined .windows names := by
  obtain ⟨-, names, clean, rooted, -⟩ := settle_spec (pieces_whole .windows remainder)
  refine ⟨names, clean, ?_⟩
  have some : (!start.isEmpty) = true := by simpa using nonempty
  rw [windows_normalize split, some, rooted]

theorem windows_normalize_fixed {start : Str} {names : List Str} (nonempty : start ≠ [])
    (clean : ∀ name ∈ names, Clean .windows name)
    (split : WindowsStart (start ++ joined .windows names) (.ok (start, joined .windows names))) :
    normalize .windows (start ++ joined .windows names) = start ++ joined .windows names := by
  have some : (!start.isEmpty) = true := by simpa using nonempty
  rw [windows_normalize split, some,
    settle_pieces_joined (fun name member => (clean name member).noSeparator) (settle_clean clean)]

theorem isAbsolute_separator {c : Char} (separator : c ∈ PathStyle.windows.separatorsCh)
    (rest : Str) : isAbsolute (c :: rest) .windows = true := by
  rcases windows_separator_cases.mp separator with rfl | rfl <;> rfl

theorem isAbsolute_driveRoot {letter c : Char} (alpha : letter.isAlpha = true)
    (separator : c ∈ PathStyle.windows.separatorsCh) (rest : Str) :
    isAbsolute (letter :: ':' :: c :: rest) .windows = true := by
  obtain ⟨second, others, cut⟩ := List.exists_cons_of_ne_nil (pieces_ne_nil .windows rest)
  refine isAbsolute_iff.mpr ⟨[letter, ':'], second, others, ?_, .inr ⟨rfl, letter, alpha, rfl⟩⟩
  refine pieces_eq_cons_cons.mpr ⟨c, rest, rfl, fun d member => ?_, separator, cut⟩
  rcases List.mem_cons.mp member with rfl | member
  · exact alpha_not_separator alpha
  · rw [List.mem_singleton.mp member]
    simp [PathStyle.separatorsCh]

theorem isAbsolute_drive {letter : Char} {rest : Str} (alpha : letter.isAlpha = true)
    (ends : ∀ c ∈ rest.head?, c ∉ PathStyle.windows.separatorsCh) :
    isAbsolute (letter :: ':' :: rest) .windows = false := by
  rw [Bool.eq_false_iff, Ne, isAbsolute_iff]
  rintro ⟨first, second, others, cut, kind⟩
  obtain ⟨more, tail, split, cut'⟩ := pieces_drive alpha rest
  rw [cut', List.cons_eq_cons] at cut
  obtain ⟨rfl, rfl⟩ := cut
  rcases kind with empty | ⟨-, letter', -, drive⟩
  · cases empty
  · obtain rfl : more = [] := by simpa using congrArg (List.drop 2) drive
    obtain ⟨c, after, rfl, -, separator, -⟩ := pieces_eq_cons_cons.mp split
    exact ends c rfl separator

theorem isAbsolute_relative (start : WindowsStart path (.ok ([], path))) : isAbsolute path .windows = false := by
  rw [Bool.eq_false_iff, Ne, isAbsolute_iff]
  rintro ⟨first, second, others, cut, kind⟩
  obtain ⟨notDrive, alone⟩ := relative_iff.mp start first _ cut
  rcases kind with empty | ⟨-, letter, alpha, rfl⟩
  · cases alone empty
  · exact notDrive ⟨letter, [], alpha, rfl⟩

structure Stable (style : PathStyle) (path : Str) : Prop where
  idempotent : normalize style (normalize style path) = normalize style path
  absolute : isAbsolute (normalize style path) style = isAbsolute path style

theorem stable_of_start {start remainder : Str} (nonempty : start ≠ [])
    (split : WindowsStart path (.ok (start, remainder)))
    (again : ∀ names, (∀ name ∈ names, Clean .windows name) →
      WindowsStart (start ++ joined .windows names) (.ok (start, joined .windows names)) ∧
      isAbsolute (start ++ joined .windows names) .windows = isAbsolute path .windows) :
    Stable .windows path := by
  obtain ⟨names, clean, eq⟩ := windows_normalize_names nonempty split
  obtain ⟨split', absolute⟩ := again names clean
  rw [← eq] at absolute
  refine ⟨?_, absolute⟩
  rw [eq, windows_normalize_fixed nonempty clean split']

theorem joined_names_head {names : List Str} (clean : ∀ name ∈ names, Clean style name) :
    ∀ c ∈ (joined style names).head?, c ∉ style.separatorsCh :=
  joined_head (fun name member => (clean name member).noSeparator) fun name member => (clean name member).nonempty

theorem stable_of_started {result : Except Str (Str × Str)} (split : WindowsStart path result)
    (started : ∀ remainder, result ≠ .ok ([], remainder)) : Stable .windows path := by
  have backslash : '\\' ∈ PathStyle.windows.separatorsCh := primarySeparator_mem .windows
  have twice : ∀ rest, startAndRemainder path = .error rest → WindowsStart rest (.error rest) →
      isAbsolute rest .windows = true → isAbsolute path .windows = true → Stable .windows path := by
    intro rest early again here before
    have eq : normalize .windows path = rest := by rw [normalize, early]
    exact ⟨by rw [eq, windows_normalize_early again], by rw [eq, here, before]⟩
  cases split with
  | driveRoot alpha separator =>
    refine stable_of_start (by simp) (.driveRoot alpha separator) fun names clean => ?_
    refine ⟨.driveRoot alpha backslash, ?_⟩
    rw [isAbsolute_driveRoot alpha separator]
    exact isAbsolute_driveRoot alpha backslash _
  | drive alpha ends =>
    refine stable_of_start (by simp) (.drive alpha ends) fun names clean => ?_
    refine ⟨.drive alpha (joined_names_head clean), ?_⟩
    rw [isAbsolute_drive alpha ends]
    exact isAbsolute_drive alpha (joined_names_head clean)
  | server separator whole =>
    exact twice _ (WindowsStart.server separator whole).eq (.server separator whole)
      (isAbsolute_separator separator _) (isAbsolute_separator separator _)
  | @shareEnd c d server share separator separator' whole whole' =>
    have again := WindowsStart.shareEnd backslash backslash whole whole'
    have text : '\\' :: '\\' :: (server ++ '\\' :: share) = ['\\', '\\'] ++ server ++ ['\\'] ++ share := by simp
    rw [text] at again
    exact twice _ (WindowsStart.shareEnd separator separator' whole whole').eq again
      (isAbsolute_separator backslash _) (isAbsolute_separator separator _)
  | @share c d e server share rest separator separator' separator'' whole whole' =>
    refine stable_of_start (by simp) (.share separator separator' separator'' whole whole') fun names clean => ⟨?_, ?_⟩
    · have again : WindowsStart ('\\' :: '\\' :: (server ++ '\\' :: (share ++ '\\' :: joined .windows names))) _ :=
        .share backslash backslash backslash whole whole'
      have text : '\\' :: '\\' :: (server ++ '\\' :: (share ++ '\\' :: joined .windows names)) =
          ['\\', '\\'] ++ server ++ ['\\'] ++ share ++ ['\\'] ++ joined .windows names := by simp
      rwa [text] at again
    · rw [isAbsolute_separator separator]
      exact isAbsolute_separator backslash _
  | rooted separator once =>
    refine stable_of_start (by simp) (.rooted separator once) fun names clean => ⟨?_, ?_⟩
    · exact .rooted backslash fun head => joined_names_head clean '\\' head backslash
    · rw [isAbsolute_separator separator]
      exact isAbsolute_separator backslash _
  | relative noDrive ends => exact absurd rfl (started path)

theorem relative_joined {components : List Str}
    (whole : ∀ component ∈ components, ∀ c ∈ component, c ∉ PathStyle.windows.separatorsCh)
    (some : ∀ component ∈ components, component ≠ []) (plain : ∀ component ∈ components.head?, ¬ DriveLike component) :
    WindowsStart (joined .windows components) (.ok ([], joined .windows components)) := by
  rw [relative_iff]
  intro first rest cut
  by_cases empty : components = []
  · subst empty
    obtain ⟨rfl, rfl⟩ := List.cons_eq_cons.mp (show [[]] = first :: rest from cut)
    refine ⟨?_, fun _ => rfl⟩
    rintro ⟨letter, more, -, eq⟩
    cases eq
  · rw [pieces_joined whole empty] at cut
    subst cut
    exact ⟨plain first rfl, fun nothing => absurd nothing (some first (by simp))⟩

theorem relative_stable_of_plain {components : List Str} (start : WindowsStart path (.ok ([], path)))
    (eq : normalize .windows path = joined .windows components) (settled : settle false components = components)
    (whole : ∀ component ∈ components, ∀ c ∈ component, c ∉ PathStyle.windows.separatorsCh)
    (some : ∀ component ∈ components, component ≠ []) (plain : ∀ component ∈ components.head?, ¬ DriveLike component) :
    Stable .windows path := by
  have again := relative_joined whole some plain
  constructor
  · rw [eq, windows_normalize again]
    exact congrArg (joined .windows) (settle_pieces_joined whole settled)
  · rw [eq, isAbsolute_relative again, isAbsolute_relative start]

theorem windows_normalize_relative (start : WindowsStart path (.ok ([], path))) :
    normalize .windows path = joined .windows (settle false (pieces .windows path)) :=
  windows_normalize start

/-! ## Drives at the front -/

theorem joined_drive (letter : Char) (more : Str) (rest : List Str) :
    joined .windows ((letter :: ':' :: more) :: rest) =
      letter :: ':' :: joined .windows (more :: rest) := by
  by_cases empty : rest = []
  · subst empty
    simp [joined]
  · rw [joined_cons _ empty, joined_cons _ empty]
    rfl

theorem length_joined_lt {more : Str} (nonempty : more ≠ []) (rest : List Str) :
    (joined .windows rest).length < (joined .windows (more :: rest)).length := by
  have some := List.length_pos_iff.mpr nonempty
  by_cases empty : rest = []
  · subst empty
    simpa [joined] using some
  · rw [joined_cons _ empty, List.length_append, List.length_cons]
    omega

theorem drive_front_stable_iff {letter : Char} {more : Str} {rest : List Str}
    (start : WindowsStart path (.ok ([], path))) (alpha : letter.isAlpha = true)
    (clean : ∀ name ∈ (letter :: ':' :: more) :: rest, Clean .windows name)
    (eq : normalize .windows path = joined .windows ((letter :: ':' :: more) :: rest)) :
    Stable .windows path ↔ ¬ (more = [] ∧ rest ≠ [] ∨ more = ['.'] ∨ more = dotDot) := by
  rw [joined_drive] at eq
  have restClean : ∀ name ∈ rest, Clean .windows name := fun name member => clean name (by simp [member])
  have here := clean (letter :: ':' :: more) (by simp)
  have whole : ∀ c ∈ more, c ∉ PathStyle.windows.separatorsCh := fun c member => here.noSeparator c (by simp [member])
  have relative := isAbsolute_relative start
  by_cases empty : more = []
  · subst empty
    by_cases alone : rest = []
    · subst alone
      refine iff_of_true ?_ (by simp)
      have bare : WindowsStart [letter, ':'] (.ok ([letter, ':'], [])) := .drive alpha (by simp)
      constructor
      · rw [eq]
        exact windows_normalize bare
      · rw [eq, relative]
        exact isAbsolute_drive alpha (by simp [joined])
    · refine iff_of_false (fun stable => ?_) (by simp [alone])
      have kept := stable.absolute
      rw [eq, relative, joined_cons _ alone, List.nil_append,
        isAbsolute_driveRoot alpha (primarySeparator_mem .windows)] at kept
      cases kept
  · have wholeAll : ∀ component ∈ more :: rest, ∀ c ∈ component, c ∉ PathStyle.windows.separatorsCh := by
      intro component member
      rcases List.mem_cons.mp member with rfl | member
      · exact whole
      · exact (restClean component member).noSeparator
    have someAll : ∀ component ∈ more :: rest, component ≠ [] := by
      intro component member
      rcases List.mem_cons.mp member with rfl | member
      · exact empty
      · exact (restClean component member).nonempty
    have ends := joined_head wholeAll someAll
    have again : normalize .windows (letter :: ':' :: joined .windows (more :: rest)) =
        letter :: ':' :: joined .windows (settle true (more :: rest)) := by
      rw [windows_normalize (.drive alpha ends), pieces_joined wholeAll (by simp)]
      rfl
    have dropped : ∀ dots, normalizeComponent true [] dots = [] → more = dots → ¬ Stable .windows path := by
      rintro dots gone rfl stable
      have same := stable.idempotent
      have short : settle true (more :: rest) = rest := by
        rw [settle, List.foldl_cons, gone]
        exact settle_clean restClean
      rw [eq, again, short] at same
      have shorter := length_joined_lt empty rest
      rw [List.cons_eq_cons.mp (List.cons_eq_cons.mp same).2 |>.2] at shorter
      exact Nat.lt_irrefl _ shorter
    rcases piece_cases whole with nothing | dots | name
    · obtain dot := nothing.resolve_left empty
      exact iff_of_false (dropped ['.'] rfl dot) (by simp [dot])
    · exact iff_of_false (dropped dotDot rfl dots) (by simp [dots])
    · refine iff_of_true ?_ (by simp [empty, name.notDot, name.notDotDot])
      have settled : settle true (more :: rest) = more :: rest := settle_clean fun component member => by
        rcases List.mem_cons.mp member with rfl | member
        · exact name
        · exact restClean component member
      exact ⟨by rw [eq, again, settled], by rw [eq, relative]; exact isAbsolute_drive alpha ends⟩

theorem DriveComesToFront.resolve_eq (comes : DriveComesToFront (pieces .windows path)) :
    WindowsStart path (.ok ([], path)) ∧ ∃ letter more rest, letter.isAlpha = true ∧
    resolve (pieces .windows path) = some ((letter :: ':' :: more) :: rest) ∧
    (more = [] ∧ rest ≠ [] ∨ more = ['.'] ∨ more = dotDot) := by
  obtain ⟨piece, back, comes, kind⟩ := comes
  refine ⟨comes.relative, ?_⟩
  rcases kind with ⟨⟨letter, alpha, rfl⟩, below⟩ | ⟨letter, alpha, rfl | rfl⟩
  · obtain ⟨rest, resolved, length⟩ := comes.resolve_eq ⟨letter, [], alpha, rfl⟩
    refine ⟨letter, [], rest, alpha, resolved, .inl ⟨rfl, ?_⟩⟩
    rintro rfl
    rw [← length] at below
    exact absurd below (Int.lt_irrefl 0)
  · obtain ⟨rest, resolved, -⟩ := comes.resolve_eq ⟨letter, ['.'], alpha, rfl⟩
    exact ⟨letter, ['.'], rest, alpha, resolved, .inr (.inl rfl)⟩
  · obtain ⟨rest, resolved, -⟩ := comes.resolve_eq ⟨letter, dotDot, alpha, rfl⟩
    exact ⟨letter, dotDot, rest, alpha, resolved, .inr (.inr rfl)⟩

theorem driveComesToFront_of_resolve {letter : Char} {more : Str} {rest : List Str}
    (start : WindowsStart path (.ok ([], path))) (alpha : letter.isAlpha = true)
    (resolved : resolve (pieces .windows path) = some ((letter :: ':' :: more) :: rest))
    (kind : more = [] ∧ rest ≠ [] ∨ more = ['.'] ∨ more = dotDot) : DriveComesToFront (pieces .windows path) := by
  obtain ⟨back, comes, length⟩ := comesToFront_of_resolve start ⟨letter, more, alpha, rfl⟩ resolved
  refine ⟨_, back, comes, ?_⟩
  rcases kind with ⟨rfl, below⟩ | rfl | rfl
  · refine .inl ⟨⟨letter, alpha, rfl⟩, ?_⟩
    rw [← length]
    exact_mod_cast List.length_pos_iff.mpr below
  · exact .inr ⟨letter, alpha, .inl rfl⟩
  · exact .inr ⟨letter, alpha, .inr rfl⟩

theorem drive_of_head {count : Nat} {names : List Str}
    (drive : ¬ ∀ component ∈ (List.replicate count dotDot ++ names).head?, ¬ DriveLike component) :
    count = 0 ∧ ∃ letter more rest, letter.isAlpha = true ∧ names = (letter :: ':' :: more) :: rest := by
  push Not at drive
  obtain ⟨component, head, letter, more, alpha, rfl⟩ := drive
  cases count with
  | succ count =>
    rw [List.replicate_succ, List.cons_append, List.head?_cons] at head
    cases head
  | zero =>
    cases names with
    | nil => cases head
    | cons first rest =>
      cases head
      exact ⟨rfl, letter, more, rest, alpha, rfl⟩

theorem relative_stable_iff (start : WindowsStart path (.ok ([], path))) :
    Stable .windows path ↔ ¬ DriveComesToFront (pieces .windows path) := by
  obtain ⟨count, names, clean, -, unrooted, resolved⟩ := settle_spec (pieces_whole .windows path)
  have eq := windows_normalize_relative start
  rw [unrooted] at eq
  obtain ⟨whole, some⟩ := whole_ups count clean
  by_cases plain : ∀ component ∈ (List.replicate count dotDot ++ names).head?, ¬ DriveLike component
  · refine iff_of_true (relative_stable_of_plain start eq (settle_ups count clean) whole some plain) ?_
    intro comes
    obtain ⟨-, letter, more, rest, alpha, resolved', -⟩ := comes.resolve_eq
    rw [resolved] at resolved'
    split_ifs at resolved' with grounded
    cases resolved'
    subst grounded
    exact plain _ rfl ⟨letter, more, alpha, rfl⟩
  · obtain ⟨rfl, letter, more, rest, alpha, rfl⟩ := drive_of_head plain
    rw [if_pos rfl] at resolved
    rw [drive_front_stable_iff start alpha clean eq, not_iff_not]
    constructor
    · exact driveComesToFront_of_resolve start alpha resolved
    · intro comes
      obtain ⟨-, letter', more', rest', -, resolved', kind⟩ := comes.resolve_eq
      rw [resolved] at resolved'
      cases resolved'
      exact kind

/-- Normalizing is stable except for relative Windows paths in which a drive comes to the front. -/
theorem normalize_stable_iff (style : PathStyle) (path : Str) :
    Stable style path ↔ ¬ (style = .windows ∧ DriveComesToFront (pieces .windows path)) := by
  cases style with
  | unix =>
    obtain ⟨idempotent, absolute⟩ := unix_normalize_stable path
    exact iff_of_true ⟨idempotent, absolute⟩ (by simp)
  | windows =>
    obtain ⟨result, start⟩ := exists_windowsStart path
    by_cases relative : ∃ remainder, result = .ok ([], remainder)
    · obtain ⟨remainder, rfl⟩ := relative
      obtain rfl : remainder = path := by
        cases start with
        | relative => rfl
      rw [relative_stable_iff start]
      simp
    · refine iff_of_true (stable_of_started start fun remainder eq => relative ⟨remainder, eq⟩) ?_
      rintro ⟨-, comes⟩
      have same := comes.resolve_eq.1.eq.symm.trans start.eq
      exact relative ⟨path, same.symm⟩

/-- Below a directory that is left again stands an absolute path, and a drive with dots behind it
loses them at the second pass. -/
theorem normalize_uncovers_drive :
    normalize .windows ['a', '\\', '.', '.', '\\', 'C', ':', '\\', 'b'] = ['C', ':', '\\', 'b'] ∧
    isAbsolute ['a', '\\', '.', '.', '\\', 'C', ':', '\\', 'b'] .windows = false ∧
    isAbsolute ['C', ':', '\\', 'b'] .windows = true ∧
    normalize .windows ['.', '\\', 'C', ':', '.', '.'] = ['C', ':', '.', '.'] ∧
    normalize .windows ['C', ':', '.', '.'] = ['C', ':'] ∧
    ¬ Stable .windows ['a', '\\', '.', '.', '\\', 'C', ':', '\\', 'b'] ∧
    ¬ Stable .windows ['.', '\\', 'C', ':', '.', '.'] := by
  have first : normalize .windows ['a', '\\', '.', '.', '\\', 'C', ':', '\\', 'b'] = ['C', ':', '\\', 'b'] := by decide
  have second : normalize .windows ['.', '\\', 'C', ':', '.', '.'] = ['C', ':', '.', '.'] := by
    decide
  have third : normalize .windows ['C', ':', '.', '.'] = ['C', ':'] := by decide
  refine ⟨first, rfl, rfl, second, third, fun stable => ?_, fun stable => ?_⟩
  · have kept := stable.absolute
    rw [first] at kept
    cases kept
  · have same := stable.idempotent
    rw [second, third] at same
    cases same

end Pinrail

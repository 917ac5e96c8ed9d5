import Pinrail.Path.NormalForm

/-!
# Where paths lead

A path leads from a current location to another: a root with the directories below it. Windows keeps
a directory for every drive. Normalizing a path keeps where it leads, except for the paths that are
found here.
-/

namespace Pinrail

variable {style : PathStyle} {path : Str}

inductive Root where
  | drive (letter : Char)
  | share (server share : Str)
deriving DecidableEq

structure Location where
  root : Root
  directories : List Str
deriving DecidableEq

structure Current (style : PathStyle) where
  root : Root
  directories : Root → List Str
  clean : ∀ root, ∀ name ∈ directories root, Clean style name

inductive Start where
  | relative
  | rooted
  | drive (letter : Char)
  | root (root : Root)

/-- One component: `..` leads to the parent, if there is one. -/
def walkStep (directories : List Str) (component : Str) : List Str :=
  if component = [] ∨ component = ['.'] then directories
  else if component = dotDot then directories.dropLast
  else directories ++ [component]

def walk (directories components : List Str) : List Str := components.foldl walkStep directories

/-- What a Windows path starts from, and its components. Two separators stand in front of a server
and a share. -/
def readWindows : Str → Start × List Str
  | first :: second :: rest =>
    if first.isAlpha ∧ second = ':' then
      if rest.head?.any isWindowsSeparator then
        (.root (.drive first), pieces .windows (rest.drop 1))
      else (.drive first, pieces .windows rest)
    else if isWindowsSeparator first ∧ isWindowsSeparator second then
      let parts := pieces .windows rest
      (.root (.share (parts.headD []) ((parts.drop 1).headD [])), parts.drop 2)
    else if isWindowsSeparator first then (.rooted, pieces .windows (second :: rest))
    else (.relative, pieces .windows (first :: second :: rest))
  | [c] => if isWindowsSeparator c then (.rooted, [[]]) else (.relative, pieces .windows [c])
  | [] => (.relative, [[]])

def read (style : PathStyle) (path : Str) : Start × List Str :=
  match style with
  | .windows => readWindows path
  | .unix => (if startsWith path '/' then .rooted else .relative, pieces .unix path)

def lead (current : Current style) (start : Start) (components : List Str) : Location :=
  match start with
  | .relative => ⟨current.root, walk (current.directories current.root) components⟩
  | .rooted => ⟨current.root, walk [] components⟩
  | .drive letter => ⟨.drive letter, walk (current.directories (.drive letter)) components⟩
  | .root root => ⟨root, walk [] components⟩

def locate (current : Current style) (path : Str) : Location :=
  lead current (read style path).1 (read style path).2

/-! ## Walking -/

theorem walk_append (directories front back : List Str) :
    walk directories (front ++ back) = walk (walk directories front) back := List.foldl_append ..

theorem walk_concat (directories components : List Str) (component : Str) :
    walk directories (components ++ [component]) = walkStep (walk directories components) component :=
  walk_append ..

theorem walkStep_name {directories : List Str} {name : Str} (clean : Clean style name) :
    walkStep directories name = directories ++ [name] := by
  rw [walkStep, if_neg, if_neg clean.notDotDot]
  rintro (empty | dot)
  · exact clean.nonempty empty
  · exact clean.notDot dot

theorem walk_names {names : List Str} (clean : ∀ name ∈ names, Clean style name)
    (directories : List Str) : walk directories names = directories ++ names := by
  induction names generalizing directories with
  | nil => simp [walk]
  | cons name names ih =>
    change walk (walkStep directories name) names = _
    rw [walkStep_name (clean name (by simp)),
      ih (fun other member => clean other (by simp [member])), List.append_assoc]
    rfl

theorem walk_root {components : List Str} (whole : ∀ component ∈ components, ∀ c ∈ component, c ∉ style.separatorsCh) :
    walk [] components = settle true components := by
  induction components using List.reverseRecOn with
  | nil => rfl
  | append_singleton components piece ih =>
    have before : ∀ component ∈ components, ∀ c ∈ component, c ∉ style.separatorsCh :=
      fun component member => whole component (by simp [member])
    obtain ⟨-, names, clean, rooted, -⟩ := settle_spec before
    rw [walk_concat, settle_concat, ih before, rooted]
    rcases piece_cases (whole piece (by simp)) with skipped | rfl | name
    · rw [normalizeComponent_skip skipped]
      exact if_pos skipped
    · rcases List.eq_nil_or_concat' names with rfl | ⟨init, last, rfl⟩
      · rfl
      · rw [normalizeComponent_back (clean last (by simp)).notDotDot]
        simp [walkStep]
    · rw [walkStep_name name, normalizeComponent_name name]

theorem walk_settle {components : List Str} (whole : ∀ component ∈ components, ∀ c ∈ component, c ∉ style.separatorsCh)
    (directories : List Str) : walk directories (settle false components) = walk directories components := by
  induction components using List.reverseRecOn with
  | nil => rfl
  | append_singleton components piece ih =>
    have before : ∀ component ∈ components, ∀ c ∈ component, c ∉ style.separatorsCh :=
      fun component member => whole component (by simp [member])
    obtain ⟨count, names, clean, -, unrooted, -⟩ := settle_spec before
    rw [walk_concat, settle_concat, ← ih before, unrooted]
    rcases piece_cases (whole piece (by simp)) with skipped | rfl | name
    · rw [normalizeComponent_skip skipped]
      exact (if_pos skipped).symm
    · rcases List.eq_nil_or_concat' names with rfl | ⟨init, last, rfl⟩
      · rw [List.append_nil, normalizeComponent_up (by simp)]
        exact walk_concat ..
      · have name := clean last (by simp)
        rw [← List.append_assoc, normalizeComponent_back name.notDotDot, walk_concat, walkStep_name name]
        simp [walkStep]
    · rw [normalizeComponent_name name]
      exact walk_concat ..

theorem walk_settle_rooted_iff {components : List Str}
    (whole : ∀ component ∈ components, ∀ c ∈ component, c ∉ style.separatorsCh) :
    (∀ directories, (∀ name ∈ directories, Clean style name) →
      walk directories (settle true components) = walk directories components) ↔
      Grounded components := by
  obtain ⟨count, names, clean, rooted, unrooted, resolved⟩ := settle_spec whole
  have ends : ∀ directories, walk directories components =
      walk (walk directories (List.replicate count dotDot)) names := by
    intro directories
    rw [← walk_settle whole, unrooted, walk_append]
  rw [rooted, ← resolve_iff, resolved]
  constructor
  · intro kept
    cases count with
    | zero => exact ⟨names, rfl⟩
    | succ count =>
      have name : Clean style ['a'] := ⟨by simp, by simp, by simp, by
        cases style <;> simp [PathStyle.separatorsCh]⟩
      have above : walk [['a']] (List.replicate (count + 1) dotDot) = [] := by
        have stays : ∀ count, walk [] (List.replicate count dotDot) = [] := by
          intro count
          induction count with
          | zero => rfl
          | succ count ih => exact ih
        exact stays count
      have same := kept [['a']] fun other member => by rwa [List.mem_singleton.mp member]
      rw [ends, above, walk_names clean, walk_names clean] at same
      simp at same
  · rintro ⟨names', grounded⟩ directories -
    split_ifs at grounded with none
    rw [ends, none]
    rfl

/-! ## Reading -/

theorem walk_pieces_joined {components : List Str}
    (whole : ∀ component ∈ components, ∀ c ∈ component, c ∉ style.separatorsCh) (directories : List Str) :
    walk directories (pieces style (joined style components)) = walk directories components := by
  by_cases empty : components = []
  · subst empty
    rfl
  · rw [pieces_joined whole empty]

theorem walk_pieces_separator {c : Char} (separator : c ∈ style.separatorsCh) (directories : List Str) (rest : Str) :
    walk directories (pieces style (c :: rest)) = walk directories (pieces style rest) := by
  rw [pieces_separator separator]
  rfl

theorem pieces_whole_append {front : Str} (whole : ∀ c ∈ front, c ∉ style.separatorsCh) {c : Char}
    (separator : c ∈ style.separatorsCh) (rest : Str) :
    pieces style (front ++ c :: rest) = front :: pieces style rest := by
  rw [pieces_append_separator _ _ separator, pieces, List.splitOnP_eq_singleton (by simpa using whole)]
  rfl

theorem pieces_of_whole {text : Str} (whole : ∀ c ∈ text, c ∉ style.separatorsCh) : pieces style text = [text] := by
  rw [pieces, List.splitOnP_eq_singleton (by simpa using whole)]

theorem readWindows_driveRoot {letter c : Char} (alpha : letter.isAlpha = true)
    (separator : c ∈ PathStyle.windows.separatorsCh) (rest : Str) :
    readWindows (letter :: ':' :: c :: rest) = (.root (.drive letter), pieces .windows rest) := by
  rw [readWindows, if_pos ⟨alpha, rfl⟩, if_pos]
  · rfl
  · simpa using isWindowsSeparator_eq_true.mpr separator

theorem readWindows_drive {letter : Char} {rest : Str} (alpha : letter.isAlpha = true)
    (ends : ∀ c ∈ rest.head?, c ∉ PathStyle.windows.separatorsCh) :
    readWindows (letter :: ':' :: rest) = (.drive letter, pieces .windows rest) := by
  rw [readWindows, if_pos ⟨alpha, rfl⟩, if_neg]
  cases rest with
  | nil => simp
  | cons c rest => simpa using isWindowsSeparator_eq_false.mpr (ends c rfl)

theorem readWindows_share {c d : Char} (separator : c ∈ PathStyle.windows.separatorsCh)
    (separator' : d ∈ PathStyle.windows.separatorsCh) (rest : Str) :
    readWindows (c :: d :: rest) =
      (.root (.share ((pieces .windows rest).headD []) (((pieces .windows rest).drop 1).headD [])),
        (pieces .windows rest).drop 2) := by
  rw [readWindows, if_neg, if_pos]
  · exact ⟨isWindowsSeparator_eq_true.mpr separator, isWindowsSeparator_eq_true.mpr separator'⟩
  · rintro ⟨alpha, -⟩
    exact alpha_not_separator alpha separator

theorem readWindows_rooted {c : Char} {rest : Str} (separator : c ∈ PathStyle.windows.separatorsCh)
    (ends : ∀ d ∈ rest.head?, d ∉ PathStyle.windows.separatorsCh) :
    readWindows (c :: rest) = (.rooted, pieces .windows rest) := by
  have is := isWindowsSeparator_eq_true.mpr separator
  cases rest with
  | nil =>
    rw [readWindows, if_pos is]
    rfl
  | cons d rest =>
    have other := isWindowsSeparator_eq_false.mpr (ends d rfl)
    rw [readWindows, if_neg, if_neg, if_pos is]
    · simp [other]
    · rintro ⟨alpha, -⟩
      exact alpha_not_separator alpha separator

theorem readWindows_relative (start : WindowsStart path (.ok ([], path))) :
    readWindows path = (.relative, pieces .windows path) := by
  cases start with
  | relative noDrive ends =>
    rcases path with _ | ⟨c, _ | ⟨d, rest⟩⟩
    · rfl
    · rw [readWindows, if_neg]
      simpa using isWindowsSeparator_eq_false.mpr (ends c rfl)
    · have other := isWindowsSeparator_eq_false.mpr (ends c rfl)
      rw [readWindows, if_neg, if_neg, if_neg]
      · simp [other]
      · simp [other]
      · rintro ⟨alpha, rfl⟩
        exact noDrive c rest rfl alpha

/-! ## Normalizing -/

def LeadsTheSame (style : PathStyle) (path : Str) : Prop :=
  ∀ current : Current style, locate current (normalize style path) = locate current path

def LeavesDrive (path : Str) : Prop :=
  ∃ letter rest, path = letter :: ':' :: rest ∧ letter.isAlpha = true ∧
    (∀ c ∈ rest.head?, c ∉ PathStyle.windows.separatorsCh) ∧ ¬ Grounded (pieces .windows rest)

/-- A path without a start in which a component that reads as a drive comes to the front. -/
def ReadsAsDrive (path : Str) : Prop :=
  ∃ piece back, ComesToFront piece back (pieces .windows path) ∧ DriveLike piece

def MixedShare (path : Str) : Prop :=
  ∃ c d rest, path = c :: d :: rest ∧ c ∈ PathStyle.windows.separatorsCh ∧ d ∈ PathStyle.windows.separatorsCh ∧ c ≠ d

def Current.everywhere (root : Root) (directories : List Str)
    (clean : ∀ name ∈ directories, Clean style name) : Current style where
  root := root
  directories _ := directories
  clean _ := clean

theorem unix_leads (path : Str) : LeadsTheSame .unix path := by
  intro current
  cases starts : startsWith path '/' with
  | true =>
    obtain ⟨-, names, clean, rooted, -⟩ := settle_spec (pieces_whole .unix (path.dropWhile (· = '/')))
    have whole : ∀ name ∈ names, ∀ c ∈ name, c ∉ PathStyle.unix.separatorsCh :=
      fun name member => (clean name member).noSeparator
    have passed : walk [] (pieces .unix path) = walk [] (pieces .unix (path.dropWhile (· = '/'))) := by
      clear starts rooted
      induction path with
      | nil => rfl
      | cons c rest ih =>
        by_cases slash : c = '/'
        · subst slash
          rw [walk_pieces_separator (slash_mem .unix), ih, List.dropWhile_cons_of_pos (by simp)]
        · rw [List.dropWhile_cons_of_neg (by simpa using slash)]
    have eq : normalize .unix path = '/' :: joined .unix names := by
      rw [normalize, if_pos starts, rooted]
    rw [eq, locate, locate, read, read, if_pos starts, if_pos (startsWith_slash _)]
    simp only [lead]
    rw [walk_pieces_separator (slash_mem .unix), walk_pieces_joined whole, passed,
      walk_root (pieces_whole .unix _), rooted, walk_names clean, List.nil_append]
  | false =>
    obtain ⟨count, names, clean, -, unrooted, -⟩ := settle_spec (pieces_whole .unix path)
    obtain ⟨whole, some⟩ := whole_ups count clean
    have eq : normalize .unix path = joined .unix (List.replicate count dotDot ++ names) := by
      rw [normalize, if_neg (by simp [starts]), unrooted]
    have relative : startsWith (joined .unix (List.replicate count dotDot ++ names)) '/' =
        false := by
      rw [Bool.eq_false_iff, startsWith]
      intro slash
      exact joined_head whole some '/' (by simpa using slash) (slash_mem .unix)
    rw [eq, locate, locate, read, read, if_neg (by simp [relative]), if_neg (by simp [starts])]
    simp only [lead]
    rw [walk_pieces_joined whole, ← unrooted, walk_settle (pieces_whole .unix path)]

theorem leads_of_root {start remainder : Str} {root : Root} (nonempty : start ≠ [])
    (split : WindowsStart path (.ok (start, remainder)))
    (before : readWindows path = (.root root, pieces .windows remainder))
    (after : ∀ names, (∀ name ∈ names, Clean .windows name) → readWindows (start ++ joined .windows names) =
        (.root root, pieces .windows (joined .windows names))) : LeadsTheSame .windows path := by
  intro current
  obtain ⟨-, names, clean, rooted, -⟩ := settle_spec (pieces_whole .windows remainder)
  have some : (!start.isEmpty) = true := by simpa using nonempty
  rw [windows_normalize split, some, rooted, locate, locate, read, read, before, after names clean]
  simp only [lead]
  rw [walk_pieces_joined fun name member => (clean name member).noSeparator, walk_names clean,
    walk_root (pieces_whole .windows remainder), rooted, List.nil_append]

theorem drive_leads_iff {letter : Char} {rest : Str} (alpha : letter.isAlpha = true)
    (ends : ∀ c ∈ rest.head?, c ∉ PathStyle.windows.separatorsCh) :
    LeadsTheSame .windows (letter :: ':' :: rest) ↔ Grounded (pieces .windows rest) := by
  have whole := pieces_whole .windows rest
  obtain ⟨-, names, clean, rooted, -⟩ := settle_spec whole
  have eq : normalize .windows (letter :: ':' :: rest) =
      letter :: ':' :: joined .windows names := by
    rw [windows_normalize (.drive alpha ends)]
    change [letter, ':'] ++ joined .windows (settle true _) = _
    rw [rooted]
    rfl
  have steps (current : Current .windows) :
      locate current (normalize .windows (letter :: ':' :: rest)) = locate current (letter :: ':' :: rest) ↔
      walk (current.directories (.drive letter))
      (settle true (pieces .windows rest)) = walk (current.directories (.drive letter)) (pieces .windows rest) := by
    rw [eq, locate, locate, read, read, readWindows_drive alpha ends, readWindows_drive alpha (joined_names_head clean)]
    simp only [lead, Location.mk.injEq, true_and]
    rw [walk_pieces_joined fun name member => (clean name member).noSeparator, rooted]
  rw [← walk_settle_rooted_iff whole]
  constructor
  · intro leads directories clean
    exact (steps (.everywhere (.drive letter) directories clean)).mp (leads _)
  · intro kept current
    exact (steps current).mpr (kept _ (current.clean _))

theorem relative_leads_iff (start : WindowsStart path (.ok ([], path))) :
    LeadsTheSame .windows path ↔ ¬ ReadsAsDrive path := by
  obtain ⟨count, names, clean, -, unrooted, resolved⟩ := settle_spec (pieces_whole .windows path)
  have eq := windows_normalize_relative start
  rw [unrooted] at eq
  obtain ⟨whole, some⟩ := whole_ups count clean
  by_cases plain : ∀ component ∈ (List.replicate count dotDot ++ names).head?, ¬ DriveLike component
  · refine iff_of_true (fun current => ?_) ?_
    · rw [eq, locate, locate, read, read, readWindows_relative start,
        readWindows_relative (relative_joined whole some plain)]
      simp only [lead]
      rw [walk_pieces_joined whole, ← unrooted, walk_settle (pieces_whole .windows path)]
    · rintro ⟨piece, back, comes, drive⟩
      obtain ⟨rest, resolved', -⟩ := comes.resolve_eq drive
      rw [resolved] at resolved'
      split_ifs at resolved' with grounded
      cases resolved'
      subst grounded
      exact plain _ rfl drive
  · obtain ⟨rfl, letter, more, rest, alpha, rfl⟩ := drive_of_head plain
    rw [if_pos rfl] at resolved
    obtain ⟨back, comes, -⟩ := comesToFront_of_resolve start ⟨letter, more, alpha, rfl⟩ resolved
    refine iff_of_false (fun leads => ?_) fun plain =>
      plain ⟨_, back, comes, letter, more, alpha, rfl⟩
    -- From a share, the path stays at the share, and its normalization leads to the drive.
    have same := leads (.everywhere (.share [] []) [] (by simp))
    have onDrive : ∀ current : Current .windows, (locate current (normalize .windows path)).root = .drive letter := by
      intro current
      rw [eq, List.replicate_zero, List.nil_append, joined_drive, locate, read]
      by_cases ends : ∀ c ∈ (joined .windows (more :: rest)).head?, c ∉ PathStyle.windows.separatorsCh
      · rw [readWindows_drive alpha ends]
        rfl
      · push Not at ends
        obtain ⟨c, head, separator⟩ := ends
        obtain ⟨behind, text⟩ : ∃ behind, joined .windows (more :: rest) = c :: behind := by
          cases text : joined .windows (more :: rest) with
          | nil =>
            rw [text] at head
            cases head
          | cons d behind =>
            rw [text] at head
            cases head
            exact ⟨behind, rfl⟩
        rw [text, readWindows_driveRoot alpha separator]
        rfl
    have atShare : (locate (.everywhere (.share [] []) [] (by simp) : Current .windows) path).root = .share [] [] := by
      rw [locate, read, readWindows_relative start]
      rfl
    have roots := congrArg Location.root same
    rw [onDrive, atShare] at roots
    cases roots

theorem ReadsAsDrive.start_nil {start remainder : Str} (reads : ReadsAsDrive path)
    (split : WindowsStart path (.ok (start, remainder))) : start = [] := by
  obtain ⟨piece, back, comes, -⟩ := reads
  have same := comes.relative.eq.symm.trans split.eq
  cases same
  rfl

theorem ReadsAsDrive.not_early {text : Str} (reads : ReadsAsDrive path)
    (early : WindowsStart path (.error text)) : False := by
  obtain ⟨piece, back, comes, -⟩ := reads
  have same := comes.relative.eq.symm.trans early.eq
  cases same

theorem not_leavesDrive_of_separator {c : Char} (separator : c ∈ PathStyle.windows.separatorsCh)
    (rest : Str) : ¬ LeavesDrive (c :: rest) := by
  rintro ⟨letter, rest', eq, alpha, -⟩
  cases eq
  exact alpha_not_separator alpha separator

theorem not_mixedShare_of_drive {letter : Char} (alpha : letter.isAlpha = true) (rest : Str) :
    ¬ MixedShare (letter :: rest) := by
  rintro ⟨c, d, rest', eq, separator, -⟩
  cases eq
  exact alpha_not_separator alpha separator

theorem not_mixedShare_twice {c : Char} (rest : Str) : ¬ MixedShare (c :: c :: rest) := by
  rintro ⟨d, e, rest', eq, -, -, other⟩
  cases eq
  exact other rfl

theorem readWindows_shareText {c d e : Char} {server share : Str}
    (first : c ∈ PathStyle.windows.separatorsCh) (second : d ∈ PathStyle.windows.separatorsCh)
    (third : e ∈ PathStyle.windows.separatorsCh)
    (whole : ∀ e ∈ server, e ∉ PathStyle.windows.separatorsCh) :
    (∀ (_ : ∀ e ∈ share, e ∉ PathStyle.windows.separatorsCh),
      readWindows (c :: d :: (server ++ e :: share)) = (.root (.share server share), [])) ∧
    ∀ (f : Char) (rest : Str) (_ : f ∈ PathStyle.windows.separatorsCh)
      (_ : ∀ e ∈ share, e ∉ PathStyle.windows.separatorsCh),
      readWindows (c :: d :: (server ++ e :: (share ++ f :: rest))) =
        (.root (.share server share), pieces .windows rest) := by
  constructor
  · intro whole'
    rw [readWindows_share first second, pieces_whole_append whole third, pieces_of_whole whole']
    rfl
  · intro f rest fourth whole'
    rw [readWindows_share first second, pieces_whole_append whole third, pieces_whole_append whole' fourth]
    rfl

/-- Normalizing keeps where a path leads, except for three kinds of Windows paths. -/
theorem normalize_leads_iff (style : PathStyle) (path : Str) : LeadsTheSame style path ↔
    ¬ (style = .windows ∧ (LeavesDrive path ∨ ReadsAsDrive path ∨ MixedShare path)) := by
  cases style with
  | unix => exact iff_of_true (unix_leads path) (by simp)
  | windows =>
    have backslash : '\\' ∈ PathStyle.windows.separatorsCh := primarySeparator_mem .windows
    have fine : LeadsTheSame .windows path → ¬ LeavesDrive path → ¬ ReadsAsDrive path →
        ¬ MixedShare path → (LeadsTheSame .windows path ↔ ¬ (PathStyle.windows = .windows ∧
          (LeavesDrive path ∨ ReadsAsDrive path ∨ MixedShare path))) := by
      intro leads stays plain same
      refine iff_of_true leads ?_
      rintro ⟨-, leaves | reads | mixed⟩
      · exact stays leaves
      · exact plain reads
      · exact same mixed
    obtain ⟨result, split⟩ := exists_windowsStart path
    cases split with
    | @driveRoot letter c rest alpha separator =>
      have split : WindowsStart (letter :: ':' :: c :: rest) _ := .driveRoot alpha separator
      refine fine (leads_of_root (by simp) split (readWindows_driveRoot alpha separator rest)
        fun names clean => readWindows_driveRoot alpha backslash _) ?_ ?_
        (not_mixedShare_of_drive alpha _)
      · rintro ⟨letter', rest', eq, -, ends, -⟩
        cases eq
        exact ends c rfl separator
      · intro reads
        cases reads.start_nil split
    | @drive letter rest alpha ends =>
      rw [drive_leads_iff alpha ends]
      constructor
      · rintro grounded ⟨-, ⟨letter', rest', eq, -, -, above⟩ | reads | mixed⟩
        · cases eq
          exact above grounded
        · cases reads.start_nil (.drive alpha ends)
        · exact not_mixedShare_of_drive alpha _ mixed
      · intro none
        by_contra above
        exact none ⟨rfl, .inl ⟨letter, rest, rfl, alpha, ends, above⟩⟩
    | @server c server separator whole =>
      have split := WindowsStart.server separator whole
      refine fine (fun current => ?_) (not_leavesDrive_of_separator separator _)
        (fun reads => reads.not_early split) (not_mixedShare_twice server)
      rw [windows_normalize_early split]
    | @shareEnd c d server share separator separator' whole whole' =>
      have split := WindowsStart.shareEnd separator separator' whole whole'
      refine fine (fun current => ?_) (not_leavesDrive_of_separator separator _)
        (fun reads => reads.not_early split) (not_mixedShare_twice _)
      have text : ['\\', '\\'] ++ server ++ ['\\'] ++ share = '\\' :: '\\' :: (server ++ '\\' :: share) := by simp
      rw [windows_normalize_early split, text, locate, locate, read, read,
        (readWindows_shareText backslash backslash backslash whole).1 whole',
        (readWindows_shareText separator separator separator' whole).1 whole']
    | @share c d e server share rest separator separator' separator'' whole whole' =>
      have split : WindowsStart (c :: c :: (server ++ d :: (share ++ e :: rest))) _ :=
        .share separator separator' separator'' whole whole'
      refine fine (leads_of_root (by simp) split
        ((readWindows_shareText separator separator separator' whole).2 e rest separator'' whole')
        fun names clean => ?_) (not_leavesDrive_of_separator separator _) (fun reads => ?_)
        (not_mixedShare_twice _)
      · have text : ['\\', '\\'] ++ server ++ ['\\'] ++ share ++ ['\\'] ++ joined .windows names =
            '\\' :: '\\' :: (server ++ '\\' :: (share ++ '\\' :: joined .windows names)) := by simp
        rw [text]
        exact (readWindows_shareText backslash backslash backslash whole).2 _ _ backslash whole'
      · cases reads.start_nil split
    | @rooted c rest separator once =>
      have split := WindowsStart.rooted separator once
      by_cases ends : ∀ d ∈ rest.head?, d ∉ PathStyle.windows.separatorsCh
      · refine fine (fun current => ?_) (not_leavesDrive_of_separator separator _)
          (fun reads => by cases reads.start_nil split) ?_
        · obtain ⟨-, names, clean, rooted, -⟩ := settle_spec (pieces_whole .windows rest)
          have eq : normalize .windows (c :: rest) = '\\' :: joined .windows names := by
            rw [windows_normalize split]
            change ['\\'] ++ joined .windows (settle true _) = _
            rw [rooted]
            rfl
          rw [eq, locate, locate, read, read, readWindows_rooted separator ends,
            readWindows_rooted backslash (joined_names_head clean)]
          simp only [lead]
          rw [walk_pieces_joined fun name member => (clean name member).noSeparator,
            walk_names clean, walk_root (pieces_whole .windows rest), rooted, List.nil_append]
        · rintro ⟨c', d, rest', eq, -, separator', -⟩
          cases eq
          exact ends d rfl separator'
      · push Not at ends
        obtain ⟨d, head, separator'⟩ := ends
        obtain ⟨behind, rfl⟩ : ∃ behind, rest = d :: behind := by
          cases rest with
          | nil => cases head
          | cons d' behind =>
            cases head
            exact ⟨behind, rfl⟩
        have other : c ≠ d := fun same => once (by rw [same]; rfl)
        refine iff_of_false (fun leads => ?_) fun none =>
          none ⟨rfl, .inr (.inr ⟨c, d, behind, rfl, separator, separator', other⟩)⟩
        -- On a drive, the normalization leads to that drive and the path to a share.
        have same := leads (.everywhere (.drive 'a') [] (by simp))
        obtain ⟨names, clean, eq⟩ := windows_normalize_names (by simp) split
        rw [eq, locate, locate, read, read, readWindows_share separator separator'] at same
        have single : ['\\'] ++ joined .windows names = '\\' :: joined .windows names := rfl
        rw [single, readWindows_rooted backslash (joined_names_head clean)] at same
        cases congrArg Location.root same
    | relative noDrive ends =>
      have split := WindowsStart.relative noDrive ends
      rw [relative_leads_iff split]
      constructor
      · rintro plain ⟨-, ⟨letter, rest, rfl, alpha, -⟩ | reads | ⟨c, d, rest, rfl, separator, -⟩⟩
        · exact noDrive letter rest rfl alpha
        · exact plain reads
        · exact ends c rfl separator
      · intro none reads
        exact none ⟨rfl, .inr (.inl reads)⟩

/-- From the directory `d` of the drive, one of the paths leads to `x` at the root and one to `x` in
`d`; a share behind two kinds of separators becomes a directory; a name becomes a drive. -/
theorem normalize_leads_astray : normalize .windows ['C', ':', '.', '.', '\\', 'x'] = ['C', ':', 'x'] ∧
    normalize .windows ['\\', '/', 's', '\\', 't'] = ['\\', 's', '\\', 't'] ∧
    normalize .windows ['a', '\\', '.', '.', '\\', 'C', ':', 'x'] = ['C', ':', 'x'] ∧
    ¬ LeadsTheSame .windows ['C', ':', '.', '.', '\\', 'x'] := by
  have text : normalize .windows ['C', ':', '.', '.', '\\', 'x'] = ['C', ':', 'x'] := by decide
  refine ⟨text, by decide, by decide, fun leads => ?_⟩
  have clean : ∀ name ∈ [['d']], Clean .windows name := by
    intro name member
    rw [List.mem_singleton.mp member]
    exact ⟨by simp, by simp, by simp, by simp [PathStyle.separatorsCh]⟩
  have same := leads (.everywhere (.drive 'C') [['d']] clean)
  rw [text] at same
  cases congrArg Location.directories same

end Pinrail

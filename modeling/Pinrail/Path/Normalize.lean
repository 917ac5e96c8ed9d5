import Mathlib.Data.List.TakeWhile
import Pinrail.Path.Normalized

/-!
# `PathStyle::normalize`

A path is a start (a root, a drive, a share or nothing) and components. `normalize` keeps the start
and settles the components: what is empty or `.` goes, and `..` takes back the name before it or,
behind nothing, stays where the path is relative and goes where it has a start.
-/

namespace Pinrail

/-! ## The code -/

namespace PathStyle

def primarySeparator : PathStyle → Char
  | .unix => '/'
  | .windows => '\\'

end PathStyle

/-- `str::split_once` at a character of some kind. -/
def splitOnce (isSeparator : Char → Bool) (text : Str) : Option (Str × Str) :=
  match text.dropWhile (!isSeparator ·) with
  | [] => none
  | _ :: remainder => some (text.takeWhile (!isSeparator ·), remainder)

/-- One round of the loop; `rooted` says that there is a start. -/
def normalizeComponent (rooted : Bool) (components : List Str) (component : Str) : List Str :=
  if component = [] ∨ component = ['.'] then components
  else if component = ['.', '.'] then
    if components.getLast?.any (· ≠ ['.', '.']) then components.dropLast
    else if rooted then components else components ++ [component]
  else components ++ [component]

def settle (rooted : Bool) (components : List Str) : List Str :=
  components.foldl (normalizeComponent rooted) []

def joined (style : PathStyle) (components : List Str) : Str :=
  [style.primarySeparator].intercalate components

def isWindowsSeparator (c : Char) : Bool := c ∈ PathStyle.windows.separatorsCh

def stripSeparator : Str → Option Str
  | '\\' :: remainder => some remainder
  | '/' :: remainder => some remainder
  | _ => none

def driveAndRemainder (pathLike : Str) : Option (Str × Str) :=
  (splitOnce (· = ':') pathLike).filter fun (drive, _) =>
    drive.head?.any Char.isAlpha && (drive.drop 1).isEmpty

def uncRemainder : Str → Option Str
  | '\\' :: '\\' :: remainder => some remainder
  | '/' :: '/' :: remainder => some remainder
  | _ => none

/-- The start of a Windows path and what comes behind it, or as an error what is returned early. -/
def startAndRemainder (pathLike : Str) : Except Str (Str × Str) :=
  match driveAndRemainder pathLike with
  | some (drive, remainder) =>
    match stripSeparator remainder with
    | some remainder => .ok (drive ++ [':', '\\'], remainder)
    | none => .ok (drive ++ [':'], remainder)
  | none =>
    match uncRemainder pathLike with
    | some remainder =>
      match splitOnce isWindowsSeparator remainder with
      | none => .error pathLike
      | some (server, remainder) =>
        match splitOnce isWindowsSeparator remainder with
        | none => .error (['\\', '\\'] ++ server ++ ['\\'] ++ remainder)
        | some (share, remainder) =>
          .ok (['\\', '\\'] ++ server ++ ['\\'] ++ share ++ ['\\'], remainder)
    | none =>
      match stripSeparator pathLike with
      | some remainder => .ok (['\\'], remainder)
      | none => .ok ([], pathLike)

def normalize (style : PathStyle) (pathLike : Str) : Str :=
  match style with
  | .windows =>
    match startAndRemainder pathLike with
    | .error text => text
    | .ok (start, remainder) =>
      start ++ joined .windows (settle (!start.isEmpty) (pieces .windows remainder))
  | .unix =>
    if startsWith pathLike '/' then
      '/' :: joined .unix (settle true (pieces .unix (pathLike.dropWhile (· = '/'))))
    else joined .unix (settle false (pieces .unix pathLike))

variable {style : PathStyle} {path : Str}

/-! ## Settled components -/

abbrev dotDot : Str := ['.', '.']

theorem settle_concat (rooted : Bool) (components : List Str) (component : Str) :
    settle rooted (components ++ [component]) = normalizeComponent rooted (settle rooted components) component := by
  rw [settle, List.foldl_append]
  rfl

theorem resolve_concat (components : List Str) (component : Str) : resolve (components ++ [component]) =
      (resolve components).bind fun names => resolveStep names component := by
  rw [resolve, List.foldlM_append]
  change (resolve components >>= fun names => [component].foldlM resolveStep names) = _
  cases resolve components with
  | none => rfl
  | some names =>
    change (resolveStep names component >>= fun names => some names) = resolveStep names component
    cases resolveStep names component <;> rfl

theorem normalizeComponent_skip {rooted : Bool} {components : List Str} {component : Str}
    (skipped : component = [] ∨ component = ['.']) :
    normalizeComponent rooted components component = components := if_pos skipped

theorem normalizeComponent_name {rooted : Bool} {components : List Str} {name : Str} (clean : Clean style name) :
    normalizeComponent rooted components name = components ++ [name] := by
  rw [normalizeComponent, if_neg, if_neg clean.notDotDot]
  rintro (empty | dot)
  · exact clean.nonempty empty
  · exact clean.notDot dot

theorem normalizeComponent_back {rooted : Bool} {components : List Str} {last : Str} (name : last ≠ dotDot) :
    normalizeComponent rooted (components ++ [last]) dotDot = components := by
  simp [normalizeComponent, name]

theorem normalizeComponent_up {rooted : Bool} {components : List Str}
    (ups : ∀ component ∈ components, component = dotDot) :
    normalizeComponent rooted components dotDot =
      if rooted then components else components ++ [dotDot] := by
  have none : components.getLast?.any (· ≠ dotDot) = false := by
    cases last : components.getLast? with
    | none => rfl
    | some component => simp [ups component (List.mem_of_getLast? last)]
  rw [normalizeComponent, if_neg (by simp), if_pos rfl]
  simp only [none]
  rfl

theorem settle_spec {components : List Str}
    (whole : ∀ component ∈ components, ∀ c ∈ component, c ∉ style.separatorsCh) :
    ∃ count names, (∀ name ∈ names, Clean style name) ∧ settle true components = names ∧
      settle false components = List.replicate count dotDot ++ names ∧
      resolve components = if count = 0 then some names else none := by
  induction components using List.reverseRecOn with
  | nil => exact ⟨0, [], by simp, rfl, rfl, rfl⟩
  | append_singleton components piece ih =>
    obtain ⟨count, names, clean, rooted, unrooted, resolved⟩ :=
      ih fun component member => whole component (by simp [member])
    rw [settle_concat, settle_concat, resolve_concat, rooted, unrooted, resolved]
    rcases piece_cases (whole piece (by simp)) with skipped | rfl | name
    · refine ⟨count, names, clean, normalizeComponent_skip skipped, normalizeComponent_skip skipped, ?_⟩
      split_ifs with grounded
      · exact resolveStep_skip skipped
      · rfl
    · rcases List.eq_nil_or_concat' names with rfl | ⟨init, last, rfl⟩
      · refine ⟨count + 1, [], by simp, normalizeComponent_up (by simp), ?_, ?_⟩
        · rw [List.append_nil, List.append_nil, normalizeComponent_up (by simp), List.replicate_succ']
          rfl
        · rw [if_neg (Nat.succ_ne_zero count)]
          split_ifs with grounded
          · rfl
          · rfl
      · have notUp := (clean last (by simp)).notDotDot
        refine ⟨count, init, fun name member => clean name (by simp [member]), normalizeComponent_back notUp, ?_, ?_⟩
        · rw [← List.append_assoc, normalizeComponent_back notUp]
        · split_ifs with grounded
          · rw [Option.bind_some, resolveStep_dots, if_neg (by simp), List.dropLast_concat]
          · rfl
    · refine ⟨count, names ++ [piece], ?_, normalizeComponent_name name, ?_, ?_⟩
      · intro other member
        rcases List.mem_append.mp member with member | member
        · exact clean other member
        · rwa [List.mem_singleton.mp member]
      · rw [normalizeComponent_name name, List.append_assoc]
      · split_ifs with grounded
        · rw [Option.bind_some, resolveStep_name name]
        · rfl

theorem settle_names {rooted : Bool} {names : List Str} (clean : ∀ name ∈ names, Clean style name)
    (front : List Str) : names.foldl (normalizeComponent rooted) front = front ++ names := by
  induction names generalizing front with
  | nil => simp
  | cons name names ih =>
    rw [List.foldl_cons, normalizeComponent_name (clean name (by simp)),
      ih (fun other member => clean other (by simp [member])), List.append_assoc]
    rfl

theorem settle_clean {rooted : Bool} {names : List Str} (clean : ∀ name ∈ names, Clean style name) :
    settle rooted names = names := settle_names clean []

theorem settle_ups (count : Nat) {names : List Str} (clean : ∀ name ∈ names, Clean style name) :
    settle false (List.replicate count dotDot ++ names) = List.replicate count dotDot ++ names := by
  have ups : (List.replicate count dotDot).foldl (normalizeComponent false) [] = List.replicate count dotDot := by
    induction count with
    | zero => rfl
    | succ count ih =>
      rw [List.replicate_succ', List.foldl_append, ih]
      exact normalizeComponent_up (by simp)
  rw [settle, List.foldl_append, ups, settle_names clean]

/-! ## Joined components -/

theorem primarySeparator_mem (style : PathStyle) : style.primarySeparator ∈ style.separatorsCh := by
  cases style with
  | unix => simp [PathStyle.primarySeparator, PathStyle.separatorsCh]
  | windows => simp [PathStyle.primarySeparator, PathStyle.separatorsCh]

theorem joined_cons (first : Str) {components : List Str} (nonempty : components ≠ []) :
    joined style (first :: components) = first ++ style.primarySeparator :: joined style components := by
  rw [joined, List.intercalate_cons_of_ne_nil nonempty, joined]
  simp

theorem pieces_joined {components : List Str}
    (whole : ∀ component ∈ components, ∀ c ∈ component, c ∉ style.separatorsCh)
    (nonempty : components ≠ []) : pieces style (joined style components) = components := by
  induction components with
  | nil => exact absurd rfl nonempty
  | cons first components ih =>
    have here := whole first (by simp)
    cases components with
    | nil =>
      have single : joined style [first] = first := by simp [joined]
      rw [single, pieces, List.splitOnP_eq_singleton (by simpa using here)]
    | cons second components =>
      have rest := ih (fun component member => whole component (by simp [member])) (by simp)
      rw [joined_cons _ (by simp)]
      exact pieces_eq_cons_cons.mpr ⟨_, _, rfl, here, primarySeparator_mem style, rest⟩

theorem pieces_separator {c : Char} (separator : c ∈ style.separatorsCh) (rest : Str) :
    pieces style (c :: rest) = [] :: pieces style rest := by
  rw [pieces_cons, if_pos separator]

theorem joined_head {components : List Str} (whole : ∀ component ∈ components, ∀ c ∈ component, c ∉ style.separatorsCh)
    (some : ∀ component ∈ components, component ≠ []) :
    ∀ c ∈ (joined style components).head?, c ∉ style.separatorsCh := by
  intro c head separator
  by_cases empty : components = []
  · subst empty
    cases head
  · have cut := pieces_joined whole empty
    cases text : joined style components with
    | nil =>
      rw [text] at head
      cases head
    | cons d rest =>
      rw [text] at head cut
      cases head
      rw [pieces_separator separator] at cut
      exact some [] (by rw [← cut]; simp) rfl

theorem settle_pieces_joined {rooted : Bool} {components : List Str}
    (whole : ∀ component ∈ components, ∀ c ∈ component, c ∉ style.separatorsCh)
    (settled : settle rooted components = components) :
    settle rooted (pieces style (joined style components)) = components := by
  by_cases empty : components = []
  · subst empty
    rfl
  · rw [pieces_joined whole empty, settled]

/-! ## Windows starts -/

theorem splitOnce_append {isSeparator : Char → Bool} {front : Str} {c : Char}
    (whole : ∀ d ∈ front, isSeparator d = false) (separator : isSeparator c = true) (rest : Str) :
    splitOnce isSeparator (front ++ c :: rest) = some (front, rest) := by
  have passed : ∀ d ∈ front, (!isSeparator d) = true := by simpa using whole
  rw [splitOnce, List.dropWhile_append_of_pos passed, List.takeWhile_append_of_pos passed,
    List.dropWhile_cons_of_neg (by simpa using separator),
    List.takeWhile_cons_of_neg (by simpa using separator), List.append_nil]

theorem splitOnce_none {isSeparator : Char → Bool} {text : Str}
    (whole : ∀ d ∈ text, isSeparator d = false) : splitOnce isSeparator text = none := by
  rw [splitOnce, List.dropWhile_eq_nil_iff.mpr (by simpa using whole)]

theorem split_cases (isSeparator : Char → Bool) (text : Str) : (∀ d ∈ text, isSeparator d = false) ∨ ∃ front c rest,
    text = front ++ c :: rest ∧ (∀ d ∈ front, isSeparator d = false) ∧ isSeparator c = true := by
  induction text with
  | nil => exact .inl (by simp)
  | cons d text ih =>
    cases separator : isSeparator d with
    | true => exact .inr ⟨[], d, text, rfl, by simp, separator⟩
    | false =>
      rcases ih with whole | ⟨front, c, rest, rfl, whole, here⟩
      · refine .inl fun e member => ?_
        rcases List.mem_cons.mp member with rfl | member
        · exact separator
        · exact whole e member
      · refine .inr ⟨d :: front, c, rest, rfl, fun e member => ?_, here⟩
        rcases List.mem_cons.mp member with rfl | member
        · exact separator
        · exact whole e member

theorem isWindowsSeparator_eq_true {c : Char} : isWindowsSeparator c = true ↔ c ∈ PathStyle.windows.separatorsCh := by
  rw [isWindowsSeparator, decide_eq_true_iff]

theorem isWindowsSeparator_eq_false {c : Char} : isWindowsSeparator c = false ↔ c ∉ PathStyle.windows.separatorsCh := by
  rw [isWindowsSeparator, decide_eq_false_iff_not]

theorem windows_separator_cases {c : Char} : c ∈ PathStyle.windows.separatorsCh ↔ c = '\\' ∨ c = '/' := by
  simp [PathStyle.separatorsCh]

theorem stripSeparator_cons {c : Char} (separator : c ∈ PathStyle.windows.separatorsCh)
    (rest : Str) : stripSeparator (c :: rest) = some rest := by
  rcases windows_separator_cases.mp separator with rfl | rfl <;> rfl

theorem stripSeparator_none {path : Str}
    (ends : ∀ c ∈ path.head?, c ∉ PathStyle.windows.separatorsCh) : stripSeparator path = none := by
  rw [stripSeparator.eq_def]
  split
  · exact absurd (windows_separator_cases.mpr (.inl rfl)) (ends '\\' rfl)
  · exact absurd (windows_separator_cases.mpr (.inr rfl)) (ends '/' rfl)
  · rfl

theorem driveAndRemainder_drive {letter : Char} (alpha : letter.isAlpha = true) (rest : Str) :
    driveAndRemainder (letter :: ':' :: rest) = some ([letter], rest) := by
  have notColon : decide (letter = ':') = false := by
    rw [decide_eq_false_iff_not]
    rintro rfl
    cases alpha
  have cut := @splitOnce_append (· = ':') [letter] ':' (by simpa using notColon) (by simp) rest
  rw [List.singleton_append] at cut
  rw [driveAndRemainder, cut, Option.filter_some, if_pos]
  simpa using alpha

theorem driveAndRemainder_none (noDrive : ∀ letter rest, path = letter :: ':' :: rest → ¬ letter.isAlpha = true) :
    driveAndRemainder path = none := by
  rcases split_cases (· = ':') path with whole | ⟨front, c, rest, rfl, whole, colon⟩
  · rw [driveAndRemainder, splitOnce_none whole]
    rfl
  · rw [driveAndRemainder, splitOnce_append whole colon, Option.filter_some, if_neg]
    obtain rfl : c = ':' := by simpa using colon
    intro single
    obtain ⟨alpha, short⟩ := Bool.and_eq_true_iff.mp single
    cases front with
    | nil => cases alpha
    | cons letter front =>
      obtain rfl : front = [] := by simpa using short
      exact noDrive letter rest rfl (by simpa using alpha)

/-- How a Windows path starts, and what `normalize` makes of its start. -/
inductive WindowsStart : Str → Except Str (Str × Str) → Prop where
  | driveRoot {letter c : Char} {rest : Str} (alpha : letter.isAlpha = true)
      (separator : c ∈ PathStyle.windows.separatorsCh) :
      WindowsStart (letter :: ':' :: c :: rest) (.ok ([letter, ':', '\\'], rest))
  | drive {letter : Char} {rest : Str} (alpha : letter.isAlpha = true)
      (ends : ∀ c ∈ rest.head?, c ∉ PathStyle.windows.separatorsCh) :
      WindowsStart (letter :: ':' :: rest) (.ok ([letter, ':'], rest))
  | server {c : Char} {server : Str} (separator : c ∈ PathStyle.windows.separatorsCh)
      (whole : ∀ d ∈ server, d ∉ PathStyle.windows.separatorsCh) :
      WindowsStart (c :: c :: server) (.error (c :: c :: server))
  | shareEnd {c d : Char} {server share : Str} (separator : c ∈ PathStyle.windows.separatorsCh)
      (separator' : d ∈ PathStyle.windows.separatorsCh)
      (whole : ∀ e ∈ server, e ∉ PathStyle.windows.separatorsCh)
      (whole' : ∀ e ∈ share, e ∉ PathStyle.windows.separatorsCh) :
      WindowsStart (c :: c :: (server ++ d :: share)) (.error (['\\', '\\'] ++ server ++ ['\\'] ++ share))
  | share {c d e : Char} {server share rest : Str} (separator : c ∈ PathStyle.windows.separatorsCh)
      (separator' : d ∈ PathStyle.windows.separatorsCh)
      (separator'' : e ∈ PathStyle.windows.separatorsCh)
      (whole : ∀ e ∈ server, e ∉ PathStyle.windows.separatorsCh)
      (whole' : ∀ e ∈ share, e ∉ PathStyle.windows.separatorsCh) :
      WindowsStart (c :: c :: (server ++ d :: (share ++ e :: rest)))
        (.ok (['\\', '\\'] ++ server ++ ['\\'] ++ share ++ ['\\'], rest))
  | rooted {c : Char} {rest : Str} (separator : c ∈ PathStyle.windows.separatorsCh)
      (once : rest.head? ≠ some c) : WindowsStart (c :: rest) (.ok (['\\'], rest))
  | relative {path : Str} (noDrive : ∀ letter rest, path = letter :: ':' :: rest → ¬ letter.isAlpha = true)
      (ends : ∀ c ∈ path.head?, c ∉ PathStyle.windows.separatorsCh) :
      WindowsStart path (.ok ([], path))

theorem separator_noDrive {c : Char} (separator : c ∈ PathStyle.windows.separatorsCh) (rest : Str) :
    ∀ letter rest', c :: rest = letter :: ':' :: rest' → ¬ letter.isAlpha = true := by
  intro letter rest' eq alpha
  cases eq
  exact alpha_not_separator alpha separator

theorem uncRemainder_twice {c : Char} (separator : c ∈ PathStyle.windows.separatorsCh)
    (rest : Str) : uncRemainder (c :: c :: rest) = some rest := by
  rcases windows_separator_cases.mp separator with rfl | rfl <;> rfl

theorem uncRemainder_once {c : Char} {rest : Str} (once : rest.head? ≠ some c) : uncRemainder (c :: rest) = none := by
  rw [uncRemainder.eq_def]
  split
  · rename_i eq
    cases eq
    exact absurd rfl once
  · rename_i eq
    cases eq
    exact absurd rfl once
  · rfl

theorem WindowsStart.eq {result : Except Str (Str × Str)} (start : WindowsStart path result) :
    startAndRemainder path = result := by
  have split : ∀ {front : Str} {c : Char} (rest : Str), (∀ d ∈ front, d ∉ PathStyle.windows.separatorsCh) →
      c ∈ PathStyle.windows.separatorsCh → splitOnce isWindowsSeparator (front ++ c :: rest) = some (front, rest) := by
    intro front c rest whole separator
    exact splitOnce_append (fun d member => isWindowsSeparator_eq_false.mpr (whole d member))
      (isWindowsSeparator_eq_true.mpr separator) rest
  have uncut : ∀ {text : Str}, (∀ d ∈ text, d ∉ PathStyle.windows.separatorsCh) →
      splitOnce isWindowsSeparator text = none := by
    intro text whole
    exact splitOnce_none fun d member => isWindowsSeparator_eq_false.mpr (whole d member)
  rw [startAndRemainder]
  cases start with
  | driveRoot alpha separator =>
    rw [driveAndRemainder_drive alpha]
    simp only [stripSeparator_cons separator]
    rfl
  | drive alpha ends =>
    rw [driveAndRemainder_drive alpha]
    simp only [stripSeparator_none ends]
    rfl
  | server separator whole =>
    rw [driveAndRemainder_none (separator_noDrive separator _)]
    simp only [uncRemainder_twice separator, uncut whole]
  | shareEnd separator separator' whole whole' =>
    rw [driveAndRemainder_none (separator_noDrive separator _)]
    simp only [uncRemainder_twice separator, split _ whole separator', uncut whole']
  | share separator separator' separator'' whole whole' =>
    rw [driveAndRemainder_none (separator_noDrive separator _)]
    simp only [uncRemainder_twice separator, split _ whole separator', split _ whole' separator'']
  | rooted separator once =>
    rw [driveAndRemainder_none (separator_noDrive separator _)]
    simp only [uncRemainder_once once, stripSeparator_cons separator]
  | relative noDrive ends =>
    have notTwice : uncRemainder path = none := by
      cases path with
      | nil => rfl
      | cons c rest =>
        have other := ends c rfl
        rw [windows_separator_cases, not_or] at other
        rw [uncRemainder.eq_def]
        split
        · rename_i eq
          cases eq
          exact absurd rfl other.1
        · rename_i eq
          cases eq
          exact absurd rfl other.2
        · rfl
    rw [driveAndRemainder_none noDrive]
    simp only [notTwice, stripSeparator_none ends]

theorem exists_windowsStart (path : Str) : ∃ result, WindowsStart path result := by
  by_cases drive : ∃ letter rest, path = letter :: ':' :: rest ∧ letter.isAlpha = true
  · obtain ⟨letter, rest, rfl, alpha⟩ := drive
    cases rest with
    | nil => exact ⟨_, .drive alpha (by simp)⟩
    | cons c rest =>
      by_cases separator : c ∈ PathStyle.windows.separatorsCh
      · exact ⟨_, .driveRoot alpha separator⟩
      · exact ⟨_, .drive alpha (by simpa using separator)⟩
  · push Not at drive
    have noDrive : ∀ letter rest, path = letter :: ':' :: rest → ¬ letter.isAlpha = true :=
      fun letter rest eq => by simpa using drive letter rest eq
    cases path with
    | nil => exact ⟨_, .relative noDrive (by simp)⟩
    | cons c rest =>
      by_cases separator : c ∈ PathStyle.windows.separatorsCh
      · by_cases twice : rest.head? = some c
        · cases rest with
          | nil => cases twice
          | cons d rest =>
            cases twice
            rcases split_cases isWindowsSeparator rest with whole | ⟨server, d, rest, rfl, whole, separator'⟩
            · exact ⟨_, .server separator fun d member =>
                isWindowsSeparator_eq_false.mp (whole d member)⟩
            · rw [isWindowsSeparator_eq_true] at separator'
              simp only [isWindowsSeparator_eq_false] at whole
              rcases split_cases isWindowsSeparator rest with
                whole' | ⟨share, e, rest, rfl, whole', separator''⟩
              · simp only [isWindowsSeparator_eq_false] at whole'
                exact ⟨_, .shareEnd separator separator' whole whole'⟩
              · rw [isWindowsSeparator_eq_true] at separator''
                simp only [isWindowsSeparator_eq_false] at whole'
                exact ⟨_, .share separator separator' separator'' whole whole'⟩
        · exact ⟨_, .rooted separator twice⟩
      · exact ⟨_, .relative noDrive (by simpa using separator)⟩

end Pinrail

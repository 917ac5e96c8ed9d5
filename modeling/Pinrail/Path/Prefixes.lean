import Pinrail.Path.Normalize
import Pinrail.Path.Parent

/-!
# Prefixes of Windows paths

The standard library reads a prefix with every separator as `\`, `PathStyle::parent` compares with
the characters themselves. They find prefixes of one length except in three kinds of paths.
-/

namespace Pinrail
open Lib

/-! ## What the parser sees -/

namespace StdPath

variable {path rest : Str} {c : Char}

theorem asBackslash_eq_backslash : asBackslash c = '\\' ↔ c ∈ PathStyle.windows.separatorsCh := by
  rw [asBackslash, windows_separator_cases]
  split_ifs with slash
  · simp [slash]
  · simp [slash]

theorem asBackslash_eq {d : Char} (plain : d ∉ PathStyle.windows.separatorsCh) : asBackslash c = d ↔ c = d := by
  rw [windows_separator_cases, not_or] at plain
  rw [asBackslash]
  split_ifs with slash
  · subst slash
    simp [Ne.symm plain.1, Ne.symm plain.2]
  · rfl

theorem stripsAt_iff {index : Nat} {text : Str} (fits : index + text.length ≤ 8) : stripsAt path index text = true ↔
    ((path.drop index).take text.length).map asBackslash = text := by
  have least : min text.length (8 - index) = text.length := by omega
  rw [stripsAt, List.isPrefixOf_iff_prefix, List.prefix_iff_eq_take, parserHead, ← List.map_drop,
    ← List.map_take, List.drop_take, List.take_take, least]
  exact eq_comm

theorem stripsAt_two {index : Nat} {d : Char} (fits : index ≤ 6) (plain : d ∉ PathStyle.windows.separatorsCh) :
    stripsAt path index [d, '\\'] = true ↔ ∃ c more, path.drop index = d :: c :: more ∧
    c ∈ PathStyle.windows.separatorsCh := by
  rw [stripsAt_iff (by simp; omega)]
  generalize path.drop index = rest
  constructor
  · intro same
    rcases rest with _ | ⟨a, _ | ⟨c, more⟩⟩
    · cases same
    · simp at same
    · simp only [List.length_cons, List.length_nil, List.take_succ_cons, List.take_zero,
        List.map_cons, List.map_nil, List.cons.injEq, and_true] at same
      rw [asBackslash_eq plain, asBackslash_eq_backslash] at same
      exact ⟨c, more, by rw [same.1], same.2⟩
  · rintro ⟨c, more, rfl, separator⟩
    simp [(asBackslash_eq plain).mpr rfl, asBackslash_eq_backslash.mpr separator]

theorem stripsAt_start : stripsAt path 0 ['\\', '\\'] = true ↔ ∃ c d more, path = c :: d :: more ∧
    c ∈ PathStyle.windows.separatorsCh ∧ d ∈ PathStyle.windows.separatorsCh := by
  rw [stripsAt_iff (by decide), List.drop_zero]
  constructor
  · intro same
    rcases path with _ | ⟨c, _ | ⟨d, more⟩⟩
    · cases same
    · simp at same
    · simp only [List.length_cons, List.length_nil, List.take_succ_cons, List.take_zero,
        List.map_cons, List.map_nil, List.cons.injEq, and_true] at same
      rw [asBackslash_eq_backslash, asBackslash_eq_backslash] at same
      exact ⟨c, d, more, rfl, same⟩
  · rintro ⟨c, d, more, rfl, first, second⟩
    simp [asBackslash_eq_backslash.mpr first, asBackslash_eq_backslash.mpr second]

theorem stripsAt_unc : stripsAt path 4 ['U', 'N', 'C', '\\'] = true ↔ ∃ c more, path.drop 4 = 'U' :: 'N' :: 'C' :: c ::
    more ∧ c ∈ PathStyle.windows.separatorsCh := by
  rw [stripsAt_iff (by decide)]
  generalize path.drop 4 = rest
  constructor
  · intro same
    rcases rest with _ | ⟨u, _ | ⟨n, _ | ⟨d, _ | ⟨c, more⟩⟩⟩⟩
    · cases same
    · simp at same
    · simp at same
    · simp at same
    · simp only [List.length_cons, List.length_nil, List.take_succ_cons, List.take_zero,
        List.map_cons, List.map_nil, List.cons.injEq, and_true] at same
      rw [asBackslash_eq (by decide), asBackslash_eq (by decide), asBackslash_eq (by decide),
        asBackslash_eq_backslash] at same
      obtain ⟨rfl, rfl, rfl, separator⟩ := same
      exact ⟨c, more, rfl, separator⟩
  · rintro ⟨c, more, rfl, separator⟩
    have letters : asBackslash 'U' = 'U' ∧ asBackslash 'N' = 'N' ∧ asBackslash 'C' = 'C' := by decide
    simp [asBackslash_eq_backslash.mpr separator, letters]

/-! ## Prefixes by the shape of a path -/

theorem parsePrefix_verbatimUnc (separator : c ∈ PathStyle.windows.separatorsCh) (rest : Str) :
    parsePrefix ('\\' :: '\\' :: '?' :: '\\' :: 'U' :: 'N' :: 'C' :: c :: rest) =
      some (.verbatimUnc (parseNextComponent rest true).1
        (parseNextComponent (parseNextComponent rest true).2 true).1) := by
  rw [parsePrefix, if_pos (stripsAt_start.mpr ⟨_, _, _, rfl, by decide, by decide⟩), if_pos,
    if_pos (stripsAt_unc.mpr ⟨c, rest, rfl, separator⟩)]
  · rfl
  · rw [(stripsAt_two (by decide) (by decide)).mpr ⟨'\\', _, rfl, by decide⟩]
    rfl

theorem parsePrefix_verbatim
    (other : ∀ c more, rest = 'U' :: 'N' :: 'C' :: c :: more → c ∉ PathStyle.windows.separatorsCh) :
    parsePrefix ('\\' :: '\\' :: '?' :: '\\' :: rest) =
      match parseDriveExact rest with
      | some letter => some (.verbatimDisk letter)
      | none => some (.verbatim (parseNextComponent rest true).1) := by
  rw [parsePrefix, if_pos (stripsAt_start.mpr ⟨_, _, _, rfl, by decide, by decide⟩), if_pos, if_neg]
  · rfl
  · rw [stripsAt_unc]
    rintro ⟨c, more, same, separator⟩
    exact other c more same separator
  · rw [(stripsAt_two (by decide) (by decide)).mpr ⟨'\\', _, rfl, by decide⟩]
    rfl

variable {a b : Char}

theorem parsePrefix_device (first : a ∈ PathStyle.windows.separatorsCh) (second : b ∈ PathStyle.windows.separatorsCh)
    (third : c ∈ PathStyle.windows.separatorsCh) (rest : Str) :
    parsePrefix (a :: b :: '.' :: c :: rest) = some (.deviceNs (parseNextComponent rest false).1) := by
  rw [parsePrefix, if_pos (stripsAt_start.mpr ⟨_, _, _, rfl, first, second⟩), if_neg,
    if_pos ((stripsAt_two (by decide) (by decide)).mpr ⟨c, rest, rfl, third⟩)]
  · rfl
  · rw [Bool.and_eq_true, stripsAt_two (by decide) (by decide)]
    rintro ⟨⟨d, more, same, -⟩, -⟩
    simp at same

theorem parsePrefix_unc (first : a ∈ PathStyle.windows.separatorsCh) (second : b ∈ PathStyle.windows.separatorsCh)
    (noVerbatim : ∀ more, a :: b :: rest ≠ '\\' :: '\\' :: '?' :: '\\' :: more)
    (noDevice : ∀ c more, rest = '.' :: c :: more → c ∉ PathStyle.windows.separatorsCh) :
    parsePrefix (a :: b :: rest) =
      if !(parseNextComponent rest false).1.isEmpty &&
          !(parseNextComponent (parseNextComponent rest false).2 false).1.isEmpty then
        some (.unc (parseNextComponent rest false).1 (parseNextComponent (parseNextComponent rest false).2 false).1)
      else none := by
  rw [parsePrefix, if_pos (stripsAt_start.mpr ⟨_, _, _, rfl, first, second⟩), if_neg, if_neg]
  · rfl
  · rw [stripsAt_two (by decide) (by decide)]
    rintro ⟨c, more, same, separator⟩
    exact noDevice c more same separator
  · rw [Bool.and_eq_true, stripsAt_two (by decide) (by decide)]
    rintro ⟨⟨d, more, same, separator⟩, noSlash⟩
    change rest = _ at same
    subst same
    rw [windows_separator_cases] at first second separator
    rcases first with rfl | rfl
    · rcases second with rfl | rfl
      · rcases separator with rfl | rfl
        · exact noVerbatim more rfl
        · cases noSlash
      · cases noSlash
    · cases noSlash

theorem parsePrefix_plain (noStart : ∀ c d more, path = c :: d :: more → c ∈ PathStyle.windows.separatorsCh →
      d ∉ PathStyle.windows.separatorsCh) :
    parsePrefix path = (parseDrive path).map .disk := by
  rw [parsePrefix, if_neg]
  rw [stripsAt_start]
  rintro ⟨c, d, more, same, first, second⟩
  exact noStart c d more same first second

def componentSeparator (verbatim : Bool) (c : Char) : Bool :=
  if verbatim then isVerbatimSep .windows c else isSepByte .windows c

theorem parseNextComponent_eq (verbatim : Bool) {name : Str} (whole : ∀ c ∈ name, componentSeparator verbatim c = false)
    (ends : ∀ c ∈ rest.head?, componentSeparator verbatim c = true) :
    parseNextComponent (name ++ rest) verbatim = (name, rest.drop 1) := by
  have separators : (if verbatim then isVerbatimSep .windows else isSepByte .windows) =
      componentSeparator verbatim := by
    funext c
    cases verbatim <;> rfl
  rw [parseNextComponent, separators, takeWhile_first whole ends, dropWhile_first whole ends]

theorem parseDrive_isSome (path : Str) :
    (parseDrive path).isSome = ((path[0]?).any Char.isAlpha && path[1]? == some ':') := by
  rcases path with _ | ⟨letter, _ | ⟨c, more⟩⟩
  · rfl
  · simp [parseDrive]
  · rw [parseDrive.eq_def]
    split
    · rename_i same
      cases same
      split_ifs with alpha <;> simp [alpha]
    · rename_i other
      have colon : c ≠ ':' := by
        rintro rfl
        exact other _ _ rfl
      simp [colon]

theorem parseDriveExact_isSome (path : Str) : (parseDriveExact path).isSome =
      ((path[0]?).any Char.isAlpha && path[1]? == some ':' && (path[2]?).all (isSepByte .windows)) := by
  rw [parseDriveExact]
  split_ifs with ends
  · rw [parseDrive_isSome, ends, Bool.and_true]
  · rw [Bool.eq_false_iff.mpr ends, Bool.and_false]
    rfl

def prefixLen (path : Str) : Nat := ((parsePrefix path).map Prefix.len).getD 0

end StdPath

namespace PathStyle

open StdPath

variable {self : PathStyle} {path front name rest : Str} {a b c : Char}

theorem componentEnd_eq (name rest : Str) {start : Nat} (behind : path.drop start = name ++ rest)
    (inside : start ≤ path.length) (whole : ∀ c ∈ name, self.isBodySeparator path c = false)
    (ends : ∀ c ∈ rest.head?, self.isBodySeparator path c = true) :
    self.componentEnd path start = start + name.length := by
  rw [componentEnd, behind]
  cases rest with
  | nil =>
    have none : (name ++ []).findIdx? (self.isBodySeparator path) = none := by
      simpa using whole
    have length := congrArg List.length behind
    rw [List.append_nil, List.length_drop] at length
    rw [none]
    dsimp only
    omega
  | cons c rest =>
    have none : name.findIdx? (self.isBodySeparator path) = none := by simpa using whole
    have found : (name ++ c :: rest).findIdx? (self.isBodySeparator path) = some name.length := by
      rw [List.findIdx?_append, none, List.findIdx?_cons, ends c rfl]
      simp
    rw [found]

theorem isBodySeparator_windows (path : Str) (c : Char) :
    windows.isBodySeparator path c = componentSeparator (windows.isVerbatim path) c := by
  rw [isBodySeparator, componentSeparator, isSeparator_eq]
  rfl

theorem isVerbatim_false (other : ∀ more, path ≠ '\\' :: '\\' :: '?' :: '\\' :: more) :
    windows.isVerbatim path = false := by
  rw [isVerbatim, Bool.and_eq_false_iff]
  refine .inr (Bool.eq_false_iff.mpr fun starts => ?_)
  obtain ⟨more, rfl⟩ := List.isPrefixOf_iff_prefix.mp starts
  exact other more rfl

/-! ## The prefix that `parent` finds -/

theorem windows_separator_mem {c : Char} : windows.isSeparator c = true ↔ c ∈ windows.separatorsCh := by
  rw [isSeparator_eq, decide_eq_true_iff]

theorem isPrefixOf_false {start : Str} (other : ∀ more, path ≠ start ++ more) : start.isPrefixOf path = false := by
  refine Bool.eq_false_iff.mpr fun starts => ?_
  obtain ⟨more, rfl⟩ := List.isPrefixOf_iff_prefix.mp starts
  exact other more rfl

theorem head_eq {p : Char → Bool} {c : Char} {rest : Str} (holds : p c = true) :
    ∀ d ∈ (c :: rest).head?, p d = true := by
  intro d member
  obtain rfl : c = d := Option.some.inj member
  exact holds

theorem prefixEnd_server {server : Str} (whole : ∀ c ∈ server, (c == '\\') = false) :
    windows.prefixEnd ('\\' :: '\\' :: '?' :: '\\' :: 'U' :: 'N' :: 'C' :: '\\' :: server) = 8 + server.length := by
  set path : Str := '\\' :: '\\' :: '?' :: '\\' :: 'U' :: 'N' :: 'C' :: '\\' :: server with same
  have length : path.length = 8 + server.length := by
    simp only [same, List.length_cons]
    omega
  have serverEnd : windows.componentEnd path 8 = 8 + server.length :=
    componentEnd_eq server [] (by rw [List.append_nil, same]; rfl) (by omega) whole (by simp)
  rw [prefixEnd, if_neg (by simp), if_pos (by rw [same]; rfl), serverEnd]
  dsimp only
  rw [if_neg (by omega)]

theorem prefixEnd_share {server : Str} (share rest : Str) (whole : ∀ c ∈ server, (c == '\\') = false)
    (wholeShare : ∀ c ∈ share, (c == '\\') = false) (ends : ∀ c ∈ rest.head?, (c == '\\') = true) :
    windows.prefixEnd ('\\' :: '\\' :: '?' :: '\\' :: 'U' :: 'N' :: 'C' :: '\\' ::
      (server ++ '\\' :: (share ++ rest))) =
      if share ++ rest = [] then 8 + server.length else 9 + server.length + share.length := by
  set path : Str := '\\' :: '\\' :: '?' :: '\\' :: 'U' :: 'N' :: 'C' :: '\\' ::
    (server ++ '\\' :: (share ++ rest)) with same
  have length : path.length = 9 + server.length + (share ++ rest).length := by
    simp only [same, List.length_cons, List.length_append]
    omega
  have serverEnd : windows.componentEnd path 8 = 8 + server.length :=
    componentEnd_eq server ('\\' :: (share ++ rest)) (by rw [same]; rfl) (by omega) whole (head_eq rfl)
  have behind : path.drop (9 + server.length) = share ++ rest := by
    have cut : path = (['\\', '\\', '?', '\\', 'U', 'N', 'C', '\\'] ++ server ++ ['\\']) ++
        (share ++ rest) := by simp [same]
    have front : (['\\', '\\', '?', '\\', 'U', 'N', 'C', '\\'] ++ server ++ ['\\']).length = 9 + server.length := by
      simp only [List.length_append, List.length_cons, List.length_nil]
      omega
    rw [cut, ← front, List.drop_left]
  have shareEnd : windows.componentEnd path (9 + server.length) = 9 + server.length + share.length :=
    componentEnd_eq share rest behind (by omega) wholeShare ends
  have start : min (8 + server.length + 1) path.length = 9 + server.length := by omega
  rw [prefixEnd, if_neg (by simp), if_pos (by rw [same]; rfl), serverEnd]
  dsimp only
  rw [start, shareEnd]
  by_cases empty : share ++ rest = []
  · rw [if_pos empty, if_neg]
    rw [length, empty]
    simp
  · have positive := List.length_pos_of_ne_nil empty
    rw [if_neg empty, if_pos (by omega)]

theorem prefixEnd_verbatim {name : Str} (rest : Str) (whole : ∀ c ∈ name, (c == '\\') = false)
    (ends : ∀ c ∈ rest.head?, (c == '\\') = true)
    (other : ∀ more, name ++ rest ≠ 'U' :: 'N' :: 'C' :: '\\' :: more) :
    windows.prefixEnd ('\\' :: '\\' :: '?' :: '\\' :: (name ++ rest)) =
      if (parseDriveExact (name ++ rest)).isSome then 6 else 4 + name.length := by
  set path : Str := '\\' :: '\\' :: '?' :: '\\' :: (name ++ rest) with same
  have nameEnd : windows.componentEnd path 4 = 4 + name.length :=
    componentEnd_eq name rest (by rw [same]; rfl) (by simp [same]) whole ends
  have separators : windows.isSeparator = isSepByte .windows := by
    funext c
    exact isSeparator_eq _ c
  have drive : ((path[4]?).any Char.isAlpha && path[5]? == some ':' &&
      (path[6]?).all windows.isSeparator) = (parseDriveExact (name ++ rest)).isSome := by
    rw [parseDriveExact_isSome, separators]
    rfl
  rw [prefixEnd, if_neg (by simp), if_neg, if_pos (by rw [same]; rfl), drive, nameEnd]
  rw [Bool.not_eq_true]
  apply isPrefixOf_false
  intro more equal
  rw [same] at equal
  simp only [List.cons_append, List.nil_append, List.cons.injEq, true_and] at equal
  exact other more equal

theorem prefixEnd_device {name : Str} (whole : ∀ c ∈ name, isSepByte .windows c = false)
    (ends : ∀ c ∈ rest.head?, isSepByte .windows c = true) :
    windows.prefixEnd ('\\' :: '\\' :: '.' :: '\\' :: (name ++ rest)) = 4 + name.length := by
  set path : Str := '\\' :: '\\' :: '.' :: '\\' :: (name ++ rest) with same
  have plain : windows.isVerbatim path = false := rfl
  have separators : ∀ c, windows.isBodySeparator path c = isSepByte .windows c := by
    intro c
    rw [isBodySeparator_windows, plain]
    rfl
  have nameEnd : windows.componentEnd path 4 = 4 + name.length :=
    componentEnd_eq name rest (by rw [same]; rfl) (by simp [same])
      (fun c member => (separators c).trans (whole c member))
      (fun c member => (separators c).trans (ends c member))
  rw [prefixEnd, if_neg (by simp), if_neg (by rw [same]; simp), if_neg (by rw [plain]; simp),
    if_pos (by rw [same]; rfl), nameEnd]

theorem prefixEnd_unc (server rest : Str) (first : a ∈ windows.separatorsCh) (second : b ∈ windows.separatorsCh)
    (noVerbatim : ∀ more, a :: b :: (server ++ rest) ≠ '\\' :: '\\' :: '?' :: '\\' :: more)
    (noDevice : ∀ more, a :: b :: (server ++ rest) ≠ '\\' :: '\\' :: '.' :: '\\' :: more)
    (whole : ∀ c ∈ server, isSepByte .windows c = false)
    (ends : ∀ c ∈ rest.head?, isSepByte .windows c = true) {share tail : Str}
    (shares : rest.drop 1 = share ++ tail) (wholeShare : ∀ c ∈ share, isSepByte .windows c = false)
    (endsShare : ∀ c ∈ tail.head?, isSepByte .windows c = true) :
    windows.prefixEnd (a :: b :: (server ++ rest)) =
      if server ≠ [] ∧ share ≠ [] then 3 + server.length + share.length else 0 := by
  set path : Str := a :: b :: (server ++ rest) with same
  have plain : windows.isVerbatim path = false := isVerbatim_false noVerbatim
  have separators : ∀ c, windows.isBodySeparator path c = isSepByte .windows c := by
    intro c
    rw [isBodySeparator_windows, plain]
    rfl
  have length : path.length = 2 + server.length + rest.length := by
    simp only [same, List.length_cons, List.length_append]
    omega
  have serverEnd : windows.componentEnd path 2 = 2 + server.length :=
    componentEnd_eq server rest (by rw [same]; rfl) (by omega) (fun c member => (separators c).trans (whole c member))
      (fun c member => (separators c).trans (ends c member))
  have behind : path.drop (min (2 + server.length + 1) path.length) = share ++ tail := by
    cases rest with
    | nil =>
      rw [min_eq_right (by rw [length, List.length_nil]; omega), List.drop_length, ← shares]
      rfl
    | cons c rest =>
      have cut : path = (a :: b :: (server ++ [c])) ++ rest := by simp [same]
      have front : (a :: b :: (server ++ [c])).length = 2 + server.length + 1 := by
        simp only [List.length_append, List.length_cons, List.length_nil]
        omega
      rw [min_eq_left (by rw [length, List.length_cons]; omega), cut, ← front, List.drop_left, ← shares]
      rfl
  have shareEnd : windows.componentEnd path (min (2 + server.length + 1) path.length) =
      min (2 + server.length + 1) path.length + share.length :=
    componentEnd_eq share tail behind (min_le_right _ _) (fun c member => (separators c).trans (wholeShare c member))
      (fun c member => (separators c).trans (endsShare c member))
  have noUnc : ¬ ['\\', '\\', '?', '\\', 'U', 'N', 'C', '\\'].isPrefixOf path = true := by
    rw [Bool.not_eq_true]
    exact isPrefixOf_false fun more => noVerbatim _
  have noDev : ¬ ['\\', '\\', '.', '\\'].isPrefixOf path = true := by
    rw [Bool.not_eq_true]
    exact isPrefixOf_false noDevice
  have unc : windows.hasUncPrefix path = true := by
    rw [same, hasUncPrefix, windows_separator_mem.mpr first, windows_separator_mem.mpr second]
    rfl
  rw [prefixEnd, if_neg (by simp), if_neg noUnc, if_neg (by rw [plain]; simp), if_neg noDev, if_pos unc, serverEnd]
  dsimp only
  rw [shareEnd]
  by_cases both : server ≠ [] ∧ share ≠ []
  · have someServer := List.length_pos_of_ne_nil both.1
    have someShare := List.length_pos_of_ne_nil both.2
    have more : rest ≠ [] := by
      rintro rfl
      exact both.2 (List.append_eq_nil_iff.mp shares.symm).1
    have positive := List.length_pos_of_ne_nil more
    rw [if_pos both, if_pos (by omega)]
    omega
  · rw [if_neg both, if_neg]
    rintro ⟨someServer, someShare⟩
    refine both ⟨?_, ?_⟩
    · rintro rfl
      exact absurd someServer (by simp)
    · rintro rfl
      exact absurd someShare (by simp)

theorem prefixEnd_plain (noStart : ∀ c d more, path = c :: d :: more → c ∈ windows.separatorsCh →
      d ∉ windows.separatorsCh) :
    windows.prefixEnd path = if (parseDrive path).isSome then 2 else 0 := by
  have starts : ∀ more, path ≠ '\\' :: '\\' :: more := by
    rintro more rfl
    exact noStart _ _ _ rfl (by decide) (by decide)
  have noUnc : ¬ ['\\', '\\', '?', '\\', 'U', 'N', 'C', '\\'].isPrefixOf path = true := by
    rw [Bool.not_eq_true]
    exact isPrefixOf_false fun more => starts _
  have plain : windows.isVerbatim path = false := isVerbatim_false fun more => starts _
  have noDev : ¬ ['\\', '\\', '.', '\\'].isPrefixOf path = true := by
    rw [Bool.not_eq_true]
    exact isPrefixOf_false fun more => starts _
  have noServer : windows.hasUncPrefix path = false := by
    rcases path with _ | ⟨c, _ | ⟨d, more⟩⟩
    · rfl
    · rfl
    · rw [hasUncPrefix, Bool.and_eq_false_iff]
      by_cases first : c ∈ windows.separatorsCh
      · right
        rw [Bool.eq_false_iff, ne_eq, windows_separator_mem]
        exact noStart c d more rfl first
      · left
        rw [Bool.eq_false_iff, ne_eq, windows_separator_mem]
        exact first
  rw [prefixEnd, if_neg (by simp), if_neg noUnc, if_neg (by rw [plain]; simp), if_neg noDev,
    if_neg (by rw [noServer]; simp), parseDrive_isSome, List.head?_eq_getElem?]

end PathStyle
end Pinrail

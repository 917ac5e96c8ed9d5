import Pinrail.Path.Prefixes

/-!
# Parents on every host

Where both find the same prefix and no `.` stands behind a drive, `PathStyle::parent` and the standard
library of a host of that style agree. Elsewhere they agree when enough components follow.
-/

namespace Pinrail
open Lib

variable {style host : PathStyle} {path front body above name : Str}

def HostIndependent (style : PathStyle) (path : Str) : Prop :=
  ∀ host, PathStyle.parent host style path = PathStyle.parent style style path ∧
    PathStyle.fileName host style path = PathStyle.fileName style style path

theorem hostIndependent_windows : HostIndependent .windows path ↔
    PathStyle.parent .unix .windows path = StdPath.parent .windows path ∧
    PathStyle.fileName .unix .windows path = StdPath.fileName .windows path := by
  have own : PathStyle.parent .windows .windows path = StdPath.parent .windows path := if_pos rfl
  have ownName : PathStyle.fileName .windows .windows path = StdPath.fileName .windows path := if_pos rfl
  rw [HostIndependent, own, ownName]
  constructor
  · exact fun all => all .unix
  · intro same host
    cases host with
    | unix => exact same
    | windows => exact ⟨own, ownName⟩

/-! ## Where the prefixes agree -/

open StdPath (components)

theorem hasRoot_eq (lens : style.prefixEnd path = (components style path).prefixLen) :
    style.hasRoot path = (components style path).hasPhysicalRoot := by
  have separators : style.isSeparator = StdPath.isSepByte style := by
    funext c
    exact PathStyle.isSeparator_eq _ c
  rw [PathStyle.hasRoot, lens, ← List.head?_drop, separators]
  rfl

theorem separators_eq (verbatim : style.isVerbatim path = (components style path).prefixVerbatim) :
    style.isBodySeparator path = (components style path).isSepByte := by
  funext c
  rw [PathStyle.isBodySeparator, StdPath.Components.isSepByte, ← verbatim, PathStyle.isSeparator_eq]
  cases style <;> rfl

theorem bodyStart_le (bounded : style.prefixEnd path ≤ path.length) : style.bodyStart path ≤ path.length := by
  rw [PathStyle.bodyStart]
  cases dot : style.startsWithCurrentDirectory path with
  | true =>
    obtain ⟨body, rfl, -, one, -⟩ := PathStyle.startsWithCurrentDirectory_spec dot
    rw [PathStyle.bodyStart, dot] at one
    rw [one]
    simp
  | false =>
    cases root : style.hasRoot path with
    | false => exact bounded
    | true =>
      rw [PathStyle.hasRoot] at root
      have inside : style.prefixEnd path < path.length := by
        by_contra outside
        rw [List.getElem?_eq_none (not_lt.mp outside)] at root
        cases root
      exact inside

theorem agree_of_prefix (foreign : style ≠ host) (lens : style.prefixEnd path = (components style path).prefixLen)
    (verbatim : style.isVerbatim path = (components style path).prefixVerbatim)
    (dots : style.startsWithCurrentDirectory path = (components style path).includeCurDir)
    (bounded : style.prefixEnd path ≤ path.length) : PathStyle.parent host style path = StdPath.parent style path ∧
    PathStyle.fileName host style path = StdPath.fileName style path := by
  have start : style.bodyStart path = (components style path).lenBeforeBody := by
    rw [PathStyle.bodyStart, hasRoot_eq lens, lens, dots]
    rfl
  have split : path = path.take (style.bodyStart path) ++ path.drop (style.bodyStart path) :=
    (List.take_append_drop _ _).symm
  have length : (path.take (style.bodyStart path)).length = style.bodyStart path := by
    rw [List.length_take]
    exact min_eq_left (bodyStart_le bounded)
  generalize path.take (style.bodyStart path) = front at split length
  generalize path.drop (style.bodyStart path) = body at split
  have separators := separators_eq verbatim
  by_cases none : named (style.isBodySeparator path) (blankPiece (style.isVerbatim path)) body = []
  · rw [PathStyle.parent_of_none foreign split length.symm none,
      PathStyle.fileName_of_none foreign split length.symm none]
    rw [separators, verbatim] at none
    obtain ⟨parents, names⟩ := StdPath.parent_of_none split (length.trans start) none
    rw [parents, names, dots]
    refine ⟨?_, rfl⟩
    split_ifs with dot
    · rw [← dots] at dot
      obtain ⟨-, -, -, one, -⟩ := PathStyle.startsWithCurrentDirectory_spec dot
      rw [one] at length
      obtain ⟨c, rfl⟩ := List.length_eq_one_iff.mp length
      rfl
    · rfl
  · obtain ⟨above, name, last⟩ := exists_lastName (blankPiece_nil _) none
    rw [PathStyle.parent_of_lastName foreign split length.symm last,
      PathStyle.fileName_of_lastName foreign split length.symm last]
    rw [separators, verbatim] at last
    obtain ⟨parents, names⟩ := StdPath.parent_of_lastName split (length.trans start) last
    rw [parents, names]
    exact ⟨rfl, rfl⟩

theorem startsWithDot_eq (separator : Char → Bool) (path : Str) :
    (path.head? == some '.' && (path.length == 1 || (path[1]?).any separator)) =
      StdPath.Components.startsWithDot separator path := by
  rw [StdPath.Components.startsWithDot]
  rcases path with _ | ⟨c, _ | ⟨d, path⟩⟩
  · rfl
  · rfl
  · simp

theorem dots_of_none (lens : style.prefixEnd path = 0) (noPrefix : (components style path).start = none) :
    style.startsWithCurrentDirectory path = (components style path).includeCurDir := by
  have zero : (components style path).prefixLen = 0 := by
    rw [StdPath.Components.prefixLen, noPrefix]
    rfl
  have plain : (components style path).prefixVerbatim = false := by
    rw [StdPath.Components.prefixVerbatim, noPrefix]
    rfl
  have separators : style.isSeparator = (components style path).isSepByte := by
    funext c
    rw [StdPath.Components.isSepByte, plain, PathStyle.isSeparator_eq]
    rfl
  have root : style.hasRoot path = (components style path).hasRoot := by
    rw [hasRoot_eq (lens.trans zero.symm), StdPath.Components.hasRoot, noPrefix]
    exact (Bool.or_false _).symm
  rw [PathStyle.startsWithCurrentDirectory, StdPath.Components.includeCurDir, lens, zero, root,
    List.drop_zero, ← separators, ← startsWithDot_eq]
  simp only [beq_self_eq_true, Bool.true_and, Bool.and_assoc]
  rfl

theorem hostIndependent_unix (path : Str) : HostIndependent .unix path := by
  intro host
  by_cases same : PathStyle.unix = host
  · subst same
    exact ⟨rfl, rfl⟩
  · have zero : PathStyle.unix.prefixEnd path = 0 := if_pos (by decide)
    have own : PathStyle.parent .unix .unix path = StdPath.parent .unix path := if_pos rfl
    have ownName : PathStyle.fileName .unix .unix path = StdPath.fileName .unix path := if_pos rfl
    rw [own, ownName]
    exact agree_of_prefix same zero rfl (dots_of_none zero rfl) (by rw [zero]; exact Nat.zero_le _)

/-! ## Which prefixes are found -/

inductive PrefixCase : Str → Prop where
  | same {path : Str} (lens : PathStyle.windows.prefixEnd path = StdPath.prefixLen path)
      (verbatim : PathStyle.windows.isVerbatim path =
        (StdPath.parsePrefix path).any StdPath.Prefix.isVerbatim) : PrefixCase path
  | emptyShare {server tail : Str} (whole : ∀ c ∈ server, (c == '\\') = false) :
      PrefixCase ('\\' :: '\\' :: '?' :: '\\' :: 'U' :: 'N' :: 'C' :: '\\' :: (server ++ '\\' :: '\\' :: tail))
  | slash {server share tail : Str} (whole : ∀ c ∈ server, (c == '\\') = false)
      (wholeShare : ∀ c ∈ share, (c == '\\') = false) (nonempty : share ≠ [])
      (ends : ∀ c ∈ tail.head?, (c == '\\') = true) :
      PrefixCase ('\\' :: '\\' :: '?' :: '\\' :: 'U' :: 'N' :: 'C' :: '/' :: (server ++ '\\' :: (share ++ tail)))
  | device {a b c : Char} {tail : Str} (first : a ∈ PathStyle.windows.separatorsCh)
      (second : b ∈ PathStyle.windows.separatorsCh) (third : c ∈ PathStyle.windows.separatorsCh)
      (slashed : ¬ (a = '\\' ∧ b = '\\' ∧ c = '\\'))
      (ends : ∀ d ∈ tail.head?, d ∈ PathStyle.windows.separatorsCh) :
      PrefixCase (a :: b :: '.' :: c :: tail)

open StdPath in
theorem prefixCase_verbatimUnc {c : Char} (separator : c ∈ PathStyle.windows.separatorsCh)
    (rest : Str) : PrefixCase ('\\' :: '\\' :: '?' :: '\\' :: 'U' :: 'N' :: 'C' :: c :: rest) := by
  obtain ⟨server, behind, rfl, whole, ends⟩ := exists_first (· == '\\') rest
  have read := parsePrefix_verbatimUnc separator (server ++ behind)
  rw [parseNextComponent_eq true whole ends] at read
  obtain ⟨share, tail, cut, wholeShare, endsShare⟩ := exists_first (· == '\\') (behind.drop 1)
  dsimp only at read
  rw [cut, parseNextComponent_eq true wholeShare endsShare] at read
  dsimp only at read
  rw [windows_separator_cases] at separator
  rcases separator with rfl | rfl
  · cases behind with
    | nil =>
      obtain ⟨rfl, rfl⟩ := List.append_eq_nil_iff.mp cut.symm
      rw [List.append_nil] at read ⊢
      refine .same ?_ (by rw [read]; rfl)
      rw [PathStyle.prefixEnd_server whole, prefixLen, read]
      rfl
    | cons d behind =>
      obtain rfl : d = '\\' := by simpa using ends
      obtain rfl : behind = share ++ tail := cut
      by_cases empty : share = []
      · subst empty
        rw [List.nil_append] at read ⊢
        cases tail with
        | nil =>
          refine .same ?_ (by rw [read]; rfl)
          have found := PathStyle.prefixEnd_share _ _ whole wholeShare endsShare
          rw [List.append_nil, if_pos rfl] at found
          rw [found, prefixLen, read]
          rfl
        | cons e tail =>
          obtain rfl : e = '\\' := by simpa using endsShare
          exact .emptyShare whole
      · refine .same ?_ (by rw [read]; rfl)
        have someShare : share.isEmpty = false := by simpa using empty
        rw [PathStyle.prefixEnd_share _ _ whole wholeShare endsShare, if_neg (by simp [empty]),
          prefixLen, read, Option.map_some, Option.getD_some, Prefix.len, someShare,
          if_neg (by decide)]
        omega
  · by_cases empty : share = []
    · subst empty
      refine .same ?_ (by rw [read]; rfl)
      have wholeName : ∀ c ∈ 'U' :: 'N' :: 'C' :: '/' :: server, (c == '\\') = false := by
        simpa using whole
      have found := PathStyle.prefixEnd_verbatim _ wholeName ends fun more same => by simp at same
      have noDrive : (parseDriveExact ('U' :: 'N' :: 'C' :: '/' :: server ++ behind)).isSome = false := by
        rw [parseDriveExact_isSome]
        rfl
      rw [noDrive, if_neg (by decide)] at found
      rw [List.cons_append, List.cons_append, List.cons_append, List.cons_append] at found
      rw [found, prefixLen, read]
      change 4 + (server.length + 1 + 1 + 1 + 1) = 8 + server.length + 0
      omega
    · cases behind with
      | nil => exact absurd (List.append_eq_nil_iff.mp cut.symm).1 empty
      | cons d behind =>
        obtain rfl : d = '\\' := by simpa using ends
        obtain rfl : behind = share ++ tail := cut
        exact .slash whole wholeShare empty endsShare

open StdPath in
theorem prefixCase_verbatim {rest : Str}
    (other : ∀ c more, rest = 'U' :: 'N' :: 'C' :: c :: more → c ∉ PathStyle.windows.separatorsCh) :
    PrefixCase ('\\' :: '\\' :: '?' :: '\\' :: rest) := by
  have read := parsePrefix_verbatim other
  obtain ⟨name, behind, rfl, whole, ends⟩ := exists_first (· == '\\') rest
  have found := PathStyle.prefixEnd_verbatim _ whole ends fun more same =>
    other '\\' more same (by decide)
  rw [parseNextComponent_eq true whole ends] at read
  refine .same ?_ ?_
  · rw [found, prefixLen, read]
    cases parseDriveExact (name ++ behind) <;> rfl
  · rw [read]
    cases parseDriveExact (name ++ behind) <;> rfl

open StdPath in
theorem prefixCase_unc {a b : Char} {rest : Str} (first : a ∈ PathStyle.windows.separatorsCh)
    (second : b ∈ PathStyle.windows.separatorsCh)
    (noVerbatim : ∀ more, a :: b :: rest ≠ '\\' :: '\\' :: '?' :: '\\' :: more) : PrefixCase (a :: b :: rest) := by
  have plain := PathStyle.isVerbatim_false noVerbatim
  by_cases device : ∃ c more, rest = '.' :: c :: more ∧ c ∈ PathStyle.windows.separatorsCh
  · obtain ⟨c, more, rfl, third⟩ := device
    have read := parsePrefix_device first second third more
    obtain ⟨name, tail, rfl, whole, ends⟩ := exists_first (isSepByte .windows) more
    rw [parseNextComponent_eq false whole ends] at read
    by_cases slashed : a = '\\' ∧ b = '\\' ∧ c = '\\'
    · obtain ⟨rfl, rfl, rfl⟩ := slashed
      refine .same ?_ (by rw [plain, read]; rfl)
      rw [PathStyle.prefixEnd_device whole ends, prefixLen, read]
      rfl
    · by_cases empty : name = []
      · subst empty
        exact .device first second third slashed fun d member => by simpa [isSepByte] using ends d member
      · refine .same ?_ (by rw [plain, read]; rfl)
        have found := PathStyle.prefixEnd_unc ['.'] (c :: (name ++ tail)) first second noVerbatim (by
            rintro more same
            simp only [List.singleton_append, List.cons.injEq, true_and] at same
            exact slashed ⟨same.1, same.2.1, same.2.2.1⟩)
          (List.forall_mem_singleton.mpr rfl) (PathStyle.head_eq (by simpa [isSepByte] using third)) rfl whole
          ends
        rw [if_pos ⟨by simp, empty⟩] at found
        rw [List.singleton_append] at found
        rw [found, prefixLen, read]
        rfl
  · have noDevice : ∀ c more, rest = '.' :: c :: more → c ∉ PathStyle.windows.separatorsCh :=
      fun c more same third => device ⟨c, more, same, third⟩
    have read := parsePrefix_unc first second noVerbatim noDevice
    obtain ⟨server, behind, rfl, whole, ends⟩ := exists_first (isSepByte .windows) rest
    obtain ⟨share, tail, cut, wholeShare, endsShare⟩ := exists_first (isSepByte .windows) (behind.drop 1)
    have found := PathStyle.prefixEnd_unc server behind first second noVerbatim (by
        intro more same
        simp only [List.cons.injEq] at same
        exact noDevice '\\' more same.2.2 (by decide))
      whole ends cut wholeShare endsShare
    rw [parseNextComponent_eq false whole ends] at read
    dsimp only at read
    rw [cut, parseNextComponent_eq false wholeShare endsShare] at read
    dsimp only at read
    refine .same ?_ ?_
    · rw [found, prefixLen, read]
      by_cases both : server ≠ [] ∧ share ≠ []
      · have someShare : share.isEmpty = false := by simpa using both.2
        rw [if_pos both, if_pos (by simpa using both), Option.map_some, Option.getD_some, Prefix.len,
          someShare, if_neg (by decide)]
        omega
      · rw [if_neg both, if_neg (by simpa using both)]
        rfl
    · rw [plain, read]
      split_ifs <;> rfl

open StdPath in
theorem prefixCase (path : Str) : PrefixCase path := by
  by_cases raw : ∃ rest, path = '\\' :: '\\' :: '?' :: '\\' :: rest
  · obtain ⟨rest, rfl⟩ := raw
    by_cases unc : ∃ c more, rest = 'U' :: 'N' :: 'C' :: c :: more ∧ c ∈ PathStyle.windows.separatorsCh
    · obtain ⟨c, more, rfl, separator⟩ := unc
      exact prefixCase_verbatimUnc separator more
    · exact prefixCase_verbatim fun c more same separator => unc ⟨c, more, same, separator⟩
  · have noVerbatim : ∀ more, path ≠ '\\' :: '\\' :: '?' :: '\\' :: more := fun more same =>
      raw ⟨more, same⟩
    by_cases two : ∃ a b rest, path = a :: b :: rest ∧ a ∈ PathStyle.windows.separatorsCh ∧
        b ∈ PathStyle.windows.separatorsCh
    · obtain ⟨a, b, rest, rfl, first, second⟩ := two
      exact prefixCase_unc first second noVerbatim
    · have noStart : ∀ c d more, path = c :: d :: more → c ∈ PathStyle.windows.separatorsCh →
          d ∉ PathStyle.windows.separatorsCh := fun c d more same first second =>
        two ⟨c, d, more, same, first, second⟩
      refine .same ?_ ?_
      · rw [PathStyle.prefixEnd_plain noStart, prefixLen, parsePrefix_plain noStart]
        cases parseDrive path <;> rfl
      · rw [PathStyle.isVerbatim_false noVerbatim, parsePrefix_plain noStart]
        cases parseDrive path <;> rfl

end Pinrail

import Pinrail.Path.HostAgreement

/-!
# Paths that depend on the host

Four kinds of Windows paths are read differently by `PathStyle::parent` and by the standard library:
a `.` behind a drive, a device without a name behind slashes, and two kinds of verbatim servers. Of all
other paths every host finds the same parent and the same file name.
-/

namespace Pinrail
open Lib StdPath

variable {path front body above name : Str} {verbatim : Bool}

def bodyNames (verbatim : Bool) (body : Str) : List Str :=
  named (componentSeparator verbatim) (blankPiece verbatim) body

abbrev LastOf (verbatim : Bool) (body above name : Str) : Prop :=
  LastName (componentSeparator verbatim) (blankPiece verbatim) body above name

inductive Misread : Str → Prop where
  /-- `C:.` and `C:.\name`. -/
  | drive {letter : Char} {tail : Str} (alpha : letter.isAlpha = true)
      (ends : ∀ c ∈ tail.head?, componentSeparator false c = true)
      (few : (bodyNames false tail).length < 2) : Misread (letter :: ':' :: '.' :: tail)
  /-- `//.//name`. -/
  | device {a b c : Char} {tail : Str} (first : a ∈ PathStyle.windows.separatorsCh)
      (second : b ∈ PathStyle.windows.separatorsCh) (third : c ∈ PathStyle.windows.separatorsCh)
      (slashed : ¬ (a = '\\' ∧ b = '\\' ∧ c = '\\'))
      (ends : ∀ d ∈ tail.head?, d ∈ PathStyle.windows.separatorsCh)
      (single : (bodyNames false tail).length = 1) : Misread (a :: b :: '.' :: c :: tail)
  /-- `\\?\UNC\server\\name`. -/
  | emptyShare {server tail : Str} (whole : ∀ c ∈ server, (c == '\\') = false)
      (single : (bodyNames true tail).length = 1) :
      Misread ('\\' :: '\\' :: '?' :: '\\' :: 'U' :: 'N' :: 'C' :: '\\' :: (server ++ '\\' :: '\\' :: tail))
  /-- `\\?\UNC/server\share` and `\\?\UNC/server\share\name`. -/
  | slash {server share tail : Str} (whole : ∀ c ∈ server, (c == '\\') = false)
      (wholeShare : ∀ c ∈ share, (c == '\\') = false) (nonempty : share ≠ [])
      (ends : ∀ c ∈ tail.head?, (c == '\\') = true) (few : (bodyNames true tail).length < 2) :
      Misread ('\\' :: '\\' :: '?' :: '\\' :: 'U' :: 'N' :: 'C' :: '/' :: (server ++ '\\' :: (share ++ tail)))

/-! ## What is read behind a front -/

theorem isBodySeparator_eq (reads : PathStyle.windows.isVerbatim path = verbatim) :
    PathStyle.windows.isBodySeparator path = componentSeparator verbatim := by
  funext c
  rw [PathStyle.isBodySeparator_windows, reads]

theorem isSepByte_eq (reads : (parsePrefix path).any Prefix.isVerbatim = verbatim) :
    (components .windows path).isSepByte = componentSeparator verbatim := by
  funext c
  have same : (components .windows path).prefixVerbatim = verbatim := reads
  rw [Components.isSepByte, same]
  rfl

theorem foreign_of_last (reads : PathStyle.windows.isVerbatim path = verbatim) (split : path = front ++ body)
    (start : PathStyle.windows.bodyStart path = front.length) (last : LastOf verbatim body above name) :
    PathStyle.parent .unix .windows path = some (front ++ above) ∧
    PathStyle.fileName .unix .windows path = fileNameOf name := by
  have foreign : PathStyle.windows ≠ .unix := by decide
  rw [LastOf, ← isBodySeparator_eq reads, ← reads] at last
  exact ⟨PathStyle.parent_of_lastName foreign split start last, PathStyle.fileName_of_lastName foreign split start last⟩

theorem foreign_of_none (reads : PathStyle.windows.isVerbatim path = verbatim) (split : path = front ++ body)
    (start : PathStyle.windows.bodyStart path = front.length)
    (plain : PathStyle.windows.startsWithCurrentDirectory path = false) (none : bodyNames verbatim body = []) :
    PathStyle.parent .unix .windows path = Option.none ∧ PathStyle.fileName .unix .windows path = Option.none := by
  have foreign : PathStyle.windows ≠ .unix := by decide
  rw [bodyNames, ← isBodySeparator_eq reads, ← reads] at none
  rw [PathStyle.parent_of_none foreign split start none, PathStyle.fileName_of_none foreign split start none, plain]
  exact ⟨rfl, rfl⟩

theorem std_of_last (reads : (parsePrefix path).any Prefix.isVerbatim = verbatim) (split : path = front ++ body)
    (length : front.length = (components .windows path).lenBeforeBody) (last : LastOf verbatim body above name) :
    StdPath.parent .windows path = some (front ++ above) ∧ StdPath.fileName .windows path = fileNameOf name := by
  have same : (components .windows path).prefixVerbatim = verbatim := reads
  rw [LastOf, ← isSepByte_eq reads, ← same] at last
  exact parent_of_lastName split length last

theorem std_of_none (reads : (parsePrefix path).any Prefix.isVerbatim = verbatim)
    (split : path = front ++ body) (length : front.length = (components .windows path).lenBeforeBody)
    (none : bodyNames verbatim body = []) :
    StdPath.parent .windows path = (if (components .windows path).includeCurDir then
      some front.dropLast else Option.none) ∧ StdPath.fileName .windows path = Option.none := by
  have same : (components .windows path).prefixVerbatim = verbatim := reads
  rw [bodyNames, ← isSepByte_eq reads, ← same] at none
  exact parent_of_none split length none

theorem foreign_rooted (front : Str) (c : Char) (body : Str) (found : PathStyle.windows.prefixEnd path = front.length)
    (split : path = front ++ c :: body) (separator : c ∈ PathStyle.windows.separatorsCh) :
    PathStyle.windows.bodyStart path = (front ++ [c]).length ∧
    PathStyle.windows.startsWithCurrentDirectory path = false := by
  have root : PathStyle.windows.hasRoot path = true := by
    rw [PathStyle.hasRoot, found, split, PathStyle.getElem?_front]
    exact PathStyle.windows_separator_mem.mpr separator
  have plain : PathStyle.windows.startsWithCurrentDirectory path = false := by
    rw [PathStyle.startsWithCurrentDirectory, root, Bool.not_true, Bool.and_false, Bool.false_and, Bool.false_and]
  refine ⟨?_, plain⟩
  rw [PathStyle.bodyStart, found, root, plain, List.length_append]
  rfl

theorem std_rooted (front : Str) (c : Char) (body : Str) (found : prefixLen path = front.length)
    (split : path = front ++ c :: body) (separator : c ∈ PathStyle.windows.separatorsCh) :
    (front ++ [c]).length = (components .windows path).lenBeforeBody ∧
    (components .windows path).includeCurDir = false := by
  have physical : (components .windows path).hasPhysicalRoot = true := by
    change (path.drop (prefixLen path)).head?.any (isSepByte .windows) = true
    rw [found, split, List.drop_left]
    simpa [isSepByte] using separator
  have plain : (components .windows path).includeCurDir = false := by
    rw [Components.includeCurDir, Components.hasRoot, physical]
    rfl
  refine ⟨?_, plain⟩
  have length : (components .windows path).prefixLen = front.length := found
  rw [Components.lenBeforeBody, length, physical, plain, List.length_append]
  rfl

theorem std_end (len : prefixLen path = path.length) (implicit : (parsePrefix path).any Prefix.hasImplicitRoot = true) :
    path.length = (components .windows path).lenBeforeBody ∧ (components .windows path).includeCurDir = false := by
  have noRoot : (components .windows path).hasPhysicalRoot = false := by
    change (path.drop (prefixLen path)).head?.any _ = false
    rw [len, List.drop_length]
    rfl
  have rooted : (components .windows path).hasRoot = true := by
    rw [Components.hasRoot, noRoot, Bool.false_or]
    exact implicit
  have noDot : (components .windows path).includeCurDir = false := by
    rw [Components.includeCurDir, rooted]
    rfl
  have length : (components .windows path).prefixLen = path.length := len
  rw [Components.lenBeforeBody, length, noRoot, noDot]
  exact ⟨rfl, rfl⟩

/-! ## The four kinds -/

theorem bodyNames_cons {c : Char} (separator : componentSeparator verbatim c = true) (body : Str) :
    bodyNames verbatim (c :: body) = bodyNames verbatim body :=
  named_cons (blankPiece_nil _) body separator

def BlankFront (verbatim : Bool) (lead : Str) : Prop :=
  lead = [] ∨ ∃ init c, lead = init ++ [c] ∧ componentSeparator verbatim c = true ∧ bodyNames verbatim init = []

theorem BlankFront.names {lead : Str} (blank : BlankFront verbatim lead) (body : Str) :
    bodyNames verbatim (lead ++ body) = bodyNames verbatim body := by
  rcases blank with rfl | ⟨init, c, rfl, separator, none⟩
  · rfl
  · rw [List.append_assoc, List.singleton_append, bodyNames, named_append _ _ separator]
    exact congrArg (· ++ bodyNames verbatim body) none

theorem BlankFront.single {lead : Str} (blank : BlankFront verbatim lead)
    (last : LastOf verbatim body [] name) : LastOf verbatim (lead ++ body) [] name := by
  rcases blank with rfl | ⟨init, c, rfl, separator, none⟩
  · exact last
  · rw [List.append_assoc]
    exact last.append_single (blankPiece_nil _) separator (trimmed_of_named (blankPiece_nil _) none)

theorem BlankFront.more {lead : Str} (blank : BlankFront verbatim lead) (last : LastOf verbatim body above name)
    (nonempty : above ≠ []) : LastOf verbatim (lead ++ body) (lead ++ above) name := by
  rcases blank with rfl | ⟨init, c, rfl, separator, none⟩
  · exact last
  · rw [List.append_assoc, List.append_assoc]
    exact last.append nonempty separator init

theorem names_cases (verbatim : Bool) (body : Str) :
    bodyNames verbatim body = [] ∨ (∃ name, (bodyNames verbatim body).length = 1 ∧ LastOf verbatim body [] name) ∨
    ∃ above name, 2 ≤ (bodyNames verbatim body).length ∧ above ≠ [] ∧ LastOf verbatim body above name := by
  by_cases none : bodyNames verbatim body = []
  · exact .inl none
  · obtain ⟨above, name, last⟩ := exists_lastName (blankPiece_nil _) none
    have single := last.above_nil_iff (blankPiece_nil _)
    have positive := List.length_pos_of_ne_nil none
    by_cases empty : above = []
    · subst empty
      have few := single.mp rfl
      refine .inr (.inl ⟨name, ?_, last⟩)
      rw [bodyNames] at positive ⊢
      omega
    · refine .inr (.inr ⟨above, name, ?_, empty, last⟩)
      rw [single] at empty
      exact not_lt.mp empty

structure Reads (read : Option Str × Option Str) (verbatim : Bool) (front body : Str) : Prop where
  none : bodyNames verbatim body = [] → read = (none, none)
  last : ∀ above name, LastOf verbatim body above name → read = (some (front ++ above), fileNameOf name)

theorem Reads.eq_iff {foreign std : Option Str × Option Str} {otherFront lead otherLead tail : Str}
    (reads : Reads foreign verbatim front (lead ++ tail)) (others : Reads std verbatim otherFront (otherLead ++ tail))
    (same : front ++ lead = otherFront ++ otherLead) (differ : front ≠ otherFront) (blank : BlankFront verbatim lead)
    (otherBlank : BlankFront verbatim otherLead) : foreign = std ↔ (bodyNames verbatim tail).length ≠ 1 := by
  rcases names_cases verbatim tail with none | ⟨name, one, last⟩ | ⟨above, name, many, nonempty, last⟩
  · rw [reads.none ((blank.names tail).trans none), others.none ((otherBlank.names tail).trans none), none]
    simp
  · rw [reads.last _ _ (blank.single last), others.last _ _ (otherBlank.single last), one]
    simpa using differ
  · rw [reads.last _ _ (blank.more last nonempty), others.last _ _ (otherBlank.more last nonempty),
      ← List.append_assoc, ← List.append_assoc, same]
    refine iff_of_true rfl ?_
    omega

theorem foreign_reads (verbatim : Bool) (body : Str) (reads : PathStyle.windows.isVerbatim path = verbatim)
    (split : path = front ++ body) (start : PathStyle.windows.bodyStart path = front.length)
    (plain : PathStyle.windows.startsWithCurrentDirectory path = false) :
    Reads (PathStyle.parent .unix .windows path, PathStyle.fileName .unix .windows path) verbatim front body where
  none empty := by
    obtain ⟨parents, names⟩ := foreign_of_none reads split start plain empty
    rw [parents, names]
  last above name last := by
    obtain ⟨parents, names⟩ := foreign_of_last reads split start last
    rw [parents, names]

theorem std_reads (verbatim : Bool) (body : Str) (reads : (parsePrefix path).any Prefix.isVerbatim = verbatim)
    (split : path = front ++ body) (length : front.length = (components .windows path).lenBeforeBody)
    (plain : (components .windows path).includeCurDir = false) :
    Reads (StdPath.parent .windows path, StdPath.fileName .windows path) verbatim front body where
  none empty := by
    obtain ⟨parents, names⟩ := std_of_none reads split length empty
    rw [parents, names, plain]
    rfl
  last above name last := by
    obtain ⟨parents, names⟩ := std_of_last reads split length last
    rw [parents, names]

theorem hostIndependent_iff_eq : HostIndependent .windows path ↔
      (PathStyle.parent .unix .windows path, PathStyle.fileName .unix .windows path) =
        (StdPath.parent .windows path, StdPath.fileName .windows path) := by
  rw [hostIndependent_windows, Prod.mk.injEq]

theorem parsePrefix_emptyShare {server : Str} (whole : ∀ c ∈ server, (c == '\\') = false) (tail : Str) :
    parsePrefix ('\\' :: '\\' :: '?' :: '\\' :: 'U' :: 'N' :: 'C' :: '\\' ::
      (server ++ '\\' :: '\\' :: tail)) = some (.verbatimUnc server []) := by
  have backslash : '\\' ∈ PathStyle.windows.separatorsCh := by decide
  have parsed := parsePrefix_verbatimUnc backslash (server ++ '\\' :: '\\' :: tail)
  rw [parseNextComponent_eq true whole (PathStyle.head_eq rfl)] at parsed
  exact parsed

theorem parsePrefix_slash {server share tail : Str} (whole : ∀ c ∈ server, (c == '\\') = false)
    (wholeShare : ∀ c ∈ share, (c == '\\') = false) (ends : ∀ c ∈ tail.head?, (c == '\\') = true) :
    parsePrefix ('\\' :: '\\' :: '?' :: '\\' :: 'U' :: 'N' :: 'C' :: '/' ::
      (server ++ '\\' :: (share ++ tail))) = some (.verbatimUnc server share) := by
  have slash : '/' ∈ PathStyle.windows.separatorsCh := by decide
  have parsed := parsePrefix_verbatimUnc slash (server ++ '\\' :: (share ++ tail))
  rw [parseNextComponent_eq true whole (PathStyle.head_eq rfl)] at parsed
  rw [List.drop_one, List.tail_cons, parseNextComponent_eq true wholeShare ends] at parsed
  exact parsed

theorem parsePrefix_emptyDevice {a b c : Char} {tail : Str} (first : a ∈ PathStyle.windows.separatorsCh)
    (second : b ∈ PathStyle.windows.separatorsCh) (third : c ∈ PathStyle.windows.separatorsCh)
    (ends : ∀ d ∈ tail.head?, isSepByte .windows d = true) :
    parsePrefix (a :: b :: '.' :: c :: tail) = some (.deviceNs []) := by
  have name : parseNextComponent ([] ++ tail) false = ([], tail.drop 1) := parseNextComponent_eq false (by simp) ends
  rw [List.nil_append] at name
  rw [parsePrefix_device first second third tail, name]

theorem emptyShare_iff {server tail : Str} (whole : ∀ c ∈ server, (c == '\\') = false) :
    HostIndependent .windows ('\\' :: '\\' :: '?' :: '\\' :: 'U' :: 'N' :: 'C' :: '\\' ::
      (server ++ '\\' :: '\\' :: tail)) ↔ (bodyNames true tail).length ≠ 1 := by
  set start : Str := '\\' :: '\\' :: '?' :: '\\' :: 'U' :: 'N' :: 'C' :: '\\' :: server with front
  have startLength : start.length = 8 + server.length := by
    simp only [front, List.length_cons]
    omega
  change HostIndependent .windows (start ++ '\\' :: '\\' :: tail) ↔ _
  have found : PathStyle.windows.prefixEnd (start ++ '\\' :: '\\' :: tail) = (start ++ ['\\']).length := by
    have ends := PathStyle.prefixEnd_share [] ('\\' :: tail) whole (by simp) (PathStyle.head_eq rfl)
    rw [if_neg (by simp)] at ends
    rw [List.length_append, startLength]
    refine ends.trans ?_
    simp only [List.length_nil, List.length_singleton]
    omega
  have read : parsePrefix (start ++ '\\' :: '\\' :: tail) = some (.verbatimUnc server []) :=
    parsePrefix_emptyShare whole tail
  have len : prefixLen (start ++ '\\' :: '\\' :: tail) = start.length := by
    rw [prefixLen, read, startLength]
    rfl
  obtain ⟨bodyStart, plain⟩ := foreign_rooted _ '\\' tail found (by simp) (by decide)
  obtain ⟨before, noDot⟩ := std_rooted _ '\\' ('\\' :: tail) len rfl (by decide)
  have foreign := foreign_reads true ([] ++ tail) rfl (by simp) bodyStart plain
  have std := std_reads true (['\\'] ++ tail) (by rw [read]; rfl) (by simp) before noDot
  rw [hostIndependent_iff_eq]
  exact foreign.eq_iff std (by simp) (by simp) (.inl rfl) (.inr ⟨[], '\\', rfl, rfl, named_nil rfl⟩)

theorem bodyNames_dot {rest : Str} (ends : ∀ c ∈ rest.head?, componentSeparator false c = true) :
    bodyNames false ('.' :: rest) = bodyNames false rest := by
  have whole : ∀ c ∈ ['.'], componentSeparator false c = false := List.forall_mem_singleton.mpr rfl
  exact named_blank (blankPiece_nil _) whole rfl ends

theorem componentSeparator_false {c : Char} : componentSeparator false c = true ↔ c ∈ PathStyle.windows.separatorsCh :=
  decide_eq_true_iff

theorem device_iff {a b c : Char} {tail : Str} (first : a ∈ PathStyle.windows.separatorsCh)
    (second : b ∈ PathStyle.windows.separatorsCh) (third : c ∈ PathStyle.windows.separatorsCh)
    (slashed : ¬ (a = '\\' ∧ b = '\\' ∧ c = '\\')) (ends : ∀ d ∈ tail.head?, d ∈ PathStyle.windows.separatorsCh) :
    HostIndependent .windows (a :: b :: '.' :: c :: tail) ↔ (bodyNames false tail).length ≠ 1 := by
  have endsComponent : ∀ d ∈ tail.head?, isSepByte .windows d = true := fun d member =>
    componentSeparator_false.mpr (ends d member)
  have blanks : bodyNames false [b, '.', c] = [] := by
    have separator := componentSeparator_false.mpr third
    rw [bodyNames_cons (componentSeparator_false.mpr second), bodyNames_dot (PathStyle.head_eq separator),
      bodyNames_cons separator]
    exact named_nil (blankPiece_nil _)
  have read := parsePrefix_emptyDevice first second third endsComponent
  have found : PathStyle.windows.prefixEnd (a :: b :: '.' :: c :: tail) = 0 := by
    have noVerbatim : ∀ more, a :: b :: '.' :: c :: tail ≠ '\\' :: '\\' :: '?' :: '\\' :: more := by
      intro more same
      simp at same
    have noDevice : ∀ more, a :: b :: '.' :: c :: tail ≠ '\\' :: '\\' :: '.' :: '\\' :: more := by
      intro more same
      simp only [List.cons.injEq, true_and] at same
      exact slashed ⟨same.1, same.2.1, same.2.2.1⟩
    have ends := PathStyle.prefixEnd_unc ['.'] (c :: tail) first second noVerbatim noDevice
      (List.forall_mem_singleton.mpr rfl)
      (PathStyle.head_eq (componentSeparator_false.mpr third)) (List.nil_append tail).symm (by simp)
      endsComponent
    exact ends.trans (if_neg (by simp))
  have plainVerbatim : PathStyle.windows.isVerbatim (a :: b :: '.' :: c :: tail) = false :=
    PathStyle.isVerbatim_false fun more same => by simp at same
  have noVerbatim : (parsePrefix (a :: b :: '.' :: c :: tail)).any Prefix.isVerbatim = false := by
    rw [read]
    rfl
  have len : prefixLen (a :: b :: '.' :: c :: tail) = [a, b, '.', c].length := by
    rw [prefixLen, read]
    rfl
  obtain ⟨bodyStart, plain⟩ := foreign_rooted [] a (b :: '.' :: c :: tail) found rfl first
  have foreign := foreign_reads false (b :: '.' :: c :: tail) plainVerbatim rfl bodyStart plain
  rw [hostIndependent_iff_eq]
  cases tail with
  | nil =>
    obtain ⟨before, noDot⟩ := std_end len (by rw [read]; rfl)
    have std := std_reads false [] noVerbatim (List.append_nil _).symm before noDot
    have nothing : bodyNames false [] = [] := named_nil (blankPiece_nil _)
    rw [foreign.none blanks, std.none nothing, nothing]
    simp
  | cons d tail =>
    have fourth := ends d rfl
    have separator := componentSeparator_false.mpr fourth
    obtain ⟨before, noDot⟩ := std_rooted _ d tail len rfl fourth
    have std := std_reads false ([] ++ tail) noVerbatim rfl before noDot
    rw [bodyNames_cons separator]
    have foreign' : Reads _ false ([] ++ [a]) ([b, '.', c, d] ++ tail) := foreign
    exact foreign'.eq_iff std rfl (by simp) (.inr ⟨[b, '.', c], d, rfl, separator, blanks⟩) (.inl rfl)

theorem slash_iff {server share tail : Str} (whole : ∀ c ∈ server, (c == '\\') = false)
    (wholeShare : ∀ c ∈ share, (c == '\\') = false) (nonempty : share ≠ [])
    (ends : ∀ c ∈ tail.head?, (c == '\\') = true) :
    HostIndependent .windows ('\\' :: '\\' :: '?' :: '\\' :: 'U' :: 'N' :: 'C' :: '/' ::
      (server ++ '\\' :: (share ++ tail))) ↔ 2 ≤ (bodyNames true tail).length := by
  set start : Str := '\\' :: '\\' :: '?' :: '\\' :: 'U' :: 'N' :: 'C' :: '/' :: server with front
  have startLength : start.length = 8 + server.length := by
    simp only [front, List.length_cons]
    omega
  change HostIndependent .windows (start ++ '\\' :: (share ++ tail)) ↔ _
  have counts : blankPiece true share = false := by
    rw [blankPiece, Bool.not_true, Bool.false_and, Bool.or_false]
    simpa using nonempty
  have shareLast : LastOf true share [] share :=
    ⟨counts, share, [], .keep (.alone wholeShare) counts, .alone wholeShare, .nil⟩
  have shareTrimmed : Trimmed (componentSeparator true) (blankPiece true) share share :=
    .keep (.alone wholeShare) counts
  have found : PathStyle.windows.prefixEnd (start ++ '\\' :: (share ++ tail)) = start.length := by
    have wholeName : ∀ c ∈ 'U' :: 'N' :: 'C' :: '/' :: server, (c == '\\') = false := by
      simpa using whole
    have ends := PathStyle.prefixEnd_verbatim ('\\' :: (share ++ tail)) wholeName
      (PathStyle.head_eq rfl) fun more same => by simp at same
    have noDrive : (parseDriveExact ('U' :: 'N' :: 'C' :: '/' :: server ++
        '\\' :: (share ++ tail))).isSome = false := by
      rw [parseDriveExact_isSome]
      rfl
    rw [noDrive, if_neg (by decide)] at ends
    refine ends.trans ?_
    rw [startLength]
    simp only [List.length_cons]
    omega
  have read : parsePrefix (start ++ '\\' :: (share ++ tail)) = some (.verbatimUnc server share) :=
    parsePrefix_slash whole wholeShare ends
  have noVerbatim : (parsePrefix (start ++ '\\' :: (share ++ tail))).any Prefix.isVerbatim = true := by
    rw [read]
    rfl
  have len : prefixLen (start ++ '\\' :: (share ++ tail)) = (start ++ '\\' :: share).length := by
    have some : share.isEmpty = false := by simpa using nonempty
    rw [prefixLen, read, Option.map_some, Option.getD_some, Prefix.len, some, if_neg (by decide),
      List.length_append, startLength, List.length_cons]
    omega
  obtain ⟨bodyStart, plain⟩ := foreign_rooted _ '\\' (share ++ tail) found rfl (by decide)
  have foreign := foreign_reads true (share ++ tail) rfl (by simp) bodyStart plain
  rw [hostIndependent_iff_eq]
  cases tail with
  | nil =>
    rw [List.append_nil] at *
    obtain ⟨before, noDot⟩ := std_end len (by rw [read]; rfl)
    have std := std_reads true [] noVerbatim (List.append_nil _).symm before noDot
    have nothing : bodyNames true [] = [] := named_nil (blankPiece_nil _)
    rw [foreign.last _ _ shareLast, std.none nothing, nothing]
    simp
  | cons c tail =>
    obtain rfl : c = '\\' := by simpa using ends
    obtain ⟨before, noDot⟩ := std_rooted _ '\\' tail len (by simp) (by decide)
    have std := std_reads true tail noVerbatim (by simp) before noDot
    rw [bodyNames_cons rfl]
    rcases names_cases true tail with none | ⟨name, one, last⟩ | ⟨above, name, many, more, last⟩
    · rw [foreign.last _ _ (shareLast.append_blank (blankPiece_nil _) rfl none), std.none none, none]
      simp
    · rw [foreign.last _ _ (last.append_single (blankPiece_nil _) rfl shareTrimmed), std.last _ _ last, one]
      simp
    · rw [foreign.last _ _ (last.append more rfl share), std.last _ _ last]
      refine iff_of_true ?_ many
      simp

theorem parseDrive_eq_some {letter : Char} (read : parseDrive path = some letter) :
    ∃ first rest, path = first :: ':' :: rest ∧ first.isAlpha = true := by
  rw [parseDrive.eq_def] at read
  split at read
  · rename_i first rest
    split_ifs at read with alpha
    exact ⟨first, rest, rfl, alpha⟩
  · cases read

theorem drive_plain {letter : Char} (alpha : letter.isAlpha = true) (rest : Str) : ∀ c d more, letter :: ':' ::
    rest = c :: d :: more → c ∈ PathStyle.windows.separatorsCh → d ∉ PathStyle.windows.separatorsCh := by
  intro c d more same separator
  cases same
  exact absurd separator (alpha_not_separator alpha)

theorem drive_iff {letter : Char} {tail : Str} (alpha : letter.isAlpha = true)
    (ends : ∀ c ∈ tail.head?, componentSeparator false c = true) :
    HostIndependent .windows (letter :: ':' :: '.' :: tail) ↔ 2 ≤ (bodyNames false tail).length := by
  have drive : parseDrive (letter :: ':' :: '.' :: tail) = some letter.toUpper := if_pos alpha
  have read : parsePrefix (letter :: ':' :: '.' :: tail) = some (.disk letter.toUpper) := by
    rw [parsePrefix_plain (drive_plain alpha _), drive]
    rfl
  have found : PathStyle.windows.prefixEnd (letter :: ':' :: '.' :: tail) = 2 := by
    rw [PathStyle.prefixEnd_plain (drive_plain alpha _), drive]
    rfl
  have plainVerbatim : PathStyle.windows.isVerbatim (letter :: ':' :: '.' :: tail) = false :=
    PathStyle.isVerbatim_false fun more same => by simp at same
  have noVerbatim : (parsePrefix (letter :: ':' :: '.' :: tail)).any Prefix.isVerbatim = false := by
    rw [read]
    rfl
  have noRoot : PathStyle.windows.hasRoot (letter :: ':' :: '.' :: tail) = false := by
    rw [PathStyle.hasRoot, found]
    rfl
  have plain : PathStyle.windows.startsWithCurrentDirectory (letter :: ':' :: '.' :: tail) = false := by
    rw [PathStyle.startsWithCurrentDirectory, found]
    rfl
  have bodyStart : PathStyle.windows.bodyStart (letter :: ':' :: '.' :: tail) = [letter, ':'].length := by
    rw [PathStyle.bodyStart, found, noRoot, plain]
    rfl
  have len : (components .windows (letter :: ':' :: '.' :: tail)).prefixLen = 2 := by
    change ((parsePrefix (letter :: ':' :: '.' :: tail)).map Prefix.len).getD 0 = 2
    rw [read]
    rfl
  have noPhysical : (components .windows (letter :: ':' :: '.' :: tail)).hasPhysicalRoot = false := by
    change (List.drop (((parsePrefix (letter :: ':' :: '.' :: tail)).map Prefix.len).getD 0) _).head?.any _ = false
    rw [read]
    rfl
  have dot : (components .windows (letter :: ':' :: '.' :: tail)).includeCurDir = true := by
    have rooted : (components .windows (letter :: ':' :: '.' :: tail)).hasRoot = false := by
      rw [Components.hasRoot, noPhysical, Bool.false_or]
      change (parsePrefix (letter :: ':' :: '.' :: tail)).any _ = false
      rw [read]
      rfl
    rw [Components.includeCurDir, rooted, len, isSepByte_eq noVerbatim]
    change (true && Components.startsWithDot (componentSeparator false) ('.' :: tail)) = true
    rw [Bool.true_and, Components.startsWithDot]
    simpa [Option.all_eq_true, List.head?_eq_getElem?] using ends
  have before : [letter, ':', '.'].length = (components .windows (letter :: ':' :: '.' :: tail)).lenBeforeBody := by
    rw [Components.lenBeforeBody, len, noPhysical, dot]
    rfl
  have foreign := foreign_reads false ('.' :: tail) plainVerbatim rfl bodyStart plain
  have blanks := bodyNames_dot ends
  rw [hostIndependent_iff_eq]
  by_cases none : bodyNames false tail = []
  · obtain ⟨parents, -⟩ := std_of_none noVerbatim rfl before none
    rw [foreign.none (blanks.trans none), parents, dot, none]
    simp
  · cases tail with
    | nil => exact absurd (named_nil (blankPiece_nil _)) none
    | cons c tail =>
      have separator := ends c rfl
      rw [bodyNames_cons separator] at none ⊢
      rcases names_cases false tail with empty | ⟨name, one, last⟩ | ⟨above, name, many, more, last⟩
      · exact absurd empty none
      · have alone : LastOf false (['.'] ++ c :: tail) [] name :=
          last.append_single (blankPiece_nil _) separator (trimmed_of_named (blankPiece_nil _) rfl)
        have std : LastOf false ([] ++ c :: tail) [] name := last.append_single (blankPiece_nil _) separator .nil
        obtain ⟨parents, -⟩ := std_of_last noVerbatim rfl before std
        rw [foreign.last _ _ alone, parents, one]
        simp
      · have longer : LastOf false (['.'] ++ c :: tail) (['.'] ++ c :: above) name := last.append more separator ['.']
        have std : LastOf false ([] ++ c :: tail) ([] ++ c :: above) name := last.append more separator []
        obtain ⟨parents, names⟩ := std_of_last noVerbatim rfl before std
        rw [foreign.last _ _ longer, parents, names]
        exact iff_of_true rfl many

/-! ## All paths -/

theorem componentEnd_le (path : Str) (start : Nat) : PathStyle.windows.componentEnd path start ≤ path.length := by
  rw [PathStyle.componentEnd]
  split
  · rename_i position found
    obtain ⟨inside, -⟩ := List.findIdx?_eq_some_iff_getElem.mp found
    rw [List.length_drop] at inside
    omega
  · exact le_rfl

theorem prefixEnd_le (path : Str) : PathStyle.windows.prefixEnd path ≤ path.length := by
  have inside : ∀ place, path[place]? = some ':' → place < path.length := by
    intro place colon
    by_contra outside
    rw [List.getElem?_eq_none (not_lt.mp outside)] at colon
    cases colon
  rw [PathStyle.prefixEnd]
  dsimp only
  split_ifs with unix unc share verbatim drive device server some letter
  · exact Nat.zero_le _
  · exact componentEnd_le _ _
  · exact componentEnd_le _ _
  · rw [Bool.and_eq_true, Bool.and_eq_true, beq_iff_eq] at drive
    exact inside 5 drive.1.2
  · exact componentEnd_le _ _
  · exact componentEnd_le _ _
  · exact componentEnd_le _ _
  · exact Nat.zero_le _
  · rw [Bool.and_eq_true, beq_iff_eq] at letter
    exact inside 1 letter.2
  · exact Nat.zero_le _

theorem prefixLen_le (path : Str) : prefixLen path ≤ path.length := by
  cases prefixCase path with
  | same lens verbatim => exact lens ▸ prefixEnd_le path
  | emptyShare whole =>
    rw [prefixLen, parsePrefix_emptyShare whole]
    simp [Prefix.len]
    omega
  | slash whole wholeShare nonempty ends =>
    rw [prefixLen, parsePrefix_slash whole wholeShare ends, Option.map_some, Option.getD_some, Prefix.len]
    simp only [List.length_cons, List.length_append]
    split_ifs <;> omega
  | device first second third slashed ends =>
    have endsComponent : ∀ d ∈ _, isSepByte .windows d = true := fun d member =>
      componentSeparator_false.mpr (ends d member)
    rw [prefixLen, parsePrefix_emptyDevice first second third endsComponent]
    simp [Prefix.len]

theorem parsePrefix_disk {letter : Char} (read : parsePrefix path = some (.disk letter)) :
    ∃ first rest, path = first :: ':' :: rest ∧ first.isAlpha = true := by
  rw [parsePrefix] at read
  dsimp only at read
  split_ifs at read
  · simp at read
  · split at read <;> simp at read
  · simp at read
  · simp at read
  · obtain ⟨found, drive, -⟩ := Option.map_eq_some_iff.mp read
    exact parseDrive_eq_some drive

theorem dots_or_drive (lens : PathStyle.windows.prefixEnd path = prefixLen path)
    (verbatim : PathStyle.windows.isVerbatim path = (parsePrefix path).any Prefix.isVerbatim) :
    PathStyle.windows.startsWithCurrentDirectory path = (components .windows path).includeCurDir ∨ ∃ letter tail,
    path = letter :: ':' :: '.' :: tail ∧ letter.isAlpha = true ∧ ∀ c ∈ tail.head?,
    componentSeparator false c = true := by
  cases read : parsePrefix path with
  | none =>
    have zero : prefixLen path = 0 := by
      rw [prefixLen, read]
      rfl
    exact .inl (dots_of_none (lens.trans zero) read)
  | some found =>
    have long : 2 ≤ PathStyle.windows.prefixEnd path := by
      rw [lens, prefixLen, read, Option.map_some, Option.getD_some]
      cases found <;> simp only [Prefix.len] <;> omega
    have plain : PathStyle.windows.startsWithCurrentDirectory path = false := by
      have notZero : (PathStyle.windows.prefixEnd path == 0) = false := by
        rw [beq_eq_false_iff_ne]
        omega
      rw [PathStyle.startsWithCurrentDirectory, notZero]
      rfl
    cases dot : (components .windows path).includeCurDir with
    | false => exact .inl plain
    | true =>
      right
      have start : (components .windows path).start = some found := read
      rw [Components.includeCurDir, Bool.and_eq_true, Bool.not_eq_true', Components.hasRoot,
        Bool.or_eq_false_iff, start, Option.any_some] at dot
      obtain ⟨⟨-, noRoot⟩, dotted⟩ := dot
      cases found with
      | disk letter =>
        obtain ⟨first, rest, rfl, alpha⟩ := parsePrefix_disk read
        have len : (components .windows (first :: ':' :: rest)).prefixLen = 2 := by
          rw [Components.prefixLen, start]
          rfl
        have none : (parsePrefix (first :: ':' :: rest)).any Prefix.isVerbatim = false := by
          rw [read]
          rfl
        have whole : (components .windows (first :: ':' :: rest)).path = first :: ':' :: rest := rfl
        rw [len, isSepByte_eq none, whole, List.drop_succ_cons, List.drop_succ_cons, List.drop_zero,
          Components.startsWithDot, Bool.and_eq_true, beq_iff_eq] at dotted
        obtain ⟨tail, rfl⟩ := List.head?_eq_some_iff.mp dotted.1
        refine ⟨first, tail, rfl, alpha, ?_⟩
        simpa [Option.all_eq_true, List.head?_eq_getElem?] using dotted.2
      | verbatim name => cases noRoot
      | verbatimUnc server share => cases noRoot
      | verbatimDisk letter => cases noRoot
      | deviceNs name => cases noRoot
      | unc server share => cases noRoot

/-- Every host finds the same parent and the same file name of a path exactly when it is not one of the
four kinds. -/
theorem hostIndependent_iff (style : PathStyle) (path : Str) :
    HostIndependent style path ↔ style = .unix ∨ ¬ Misread path := by
  cases style with
  | unix => exact iff_of_true (hostIndependent_unix path) (.inl rfl)
  | windows =>
    rw [or_iff_right (by decide)]
    constructor
    · intro same misread
      cases misread with
      | drive alpha ends few =>
        rw [drive_iff alpha ends] at same
        omega
      | device first second third slashed ends single =>
        exact (device_iff first second third slashed ends).mp same single
      | emptyShare whole single => exact (emptyShare_iff whole).mp same single
      | slash whole wholeShare nonempty ends few =>
        rw [slash_iff whole wholeShare nonempty ends] at same
        omega
    · intro read
      cases prefixCase path with
      | same lens verbatim =>
        rcases dots_or_drive lens verbatim with dots | ⟨letter, tail, rfl, alpha, ends⟩
        · rw [hostIndependent_windows]
          exact agree_of_prefix (by decide) lens verbatim dots (prefixEnd_le path)
        · rw [drive_iff alpha ends]
          by_contra few
          exact read (.drive alpha ends (not_le.mp few))
      | emptyShare whole =>
        rw [emptyShare_iff whole]
        exact fun single => read (.emptyShare whole single)
      | slash whole wholeShare nonempty ends =>
        rw [slash_iff whole wholeShare nonempty ends]
        by_contra few
        exact read (.slash whole wholeShare nonempty ends (not_le.mp few))
      | device first second third slashed ends =>
        rw [device_iff first second third slashed ends]
        exact fun single => read (.device first second third slashed ends single)

/-- The parent of `C:.` is `C:` on a Windows host, and on other hosts there is none. -/
theorem hostIndependent_drive_dot : ¬ HostIndependent .windows ['C', ':', '.'] := by
  rw [drive_iff (by decide) (by simp)]
  decide

end Pinrail

import Pinrail.Path.Components
import Pinrail.Path.CompareRelPaths
import Pinrail.Path.Misread

/-!
# Mutations of relative paths

The operations of `RelPathBuf`. `set_extension` hands the last component to `PathBuf::set_extension` of
the standard library and pushes what comes back.
-/

namespace Pinrail
open Lib

namespace StdPath

def rsplitFileAtDot (file : Str) : Option Str × Option Str :=
  if file = ['.', '.'] then (some file, none)
  else
    match Paths.rsplitOnce '.' file with
    | none => (none, some file)
    | some (before, after) => if before.isEmpty then (some file, none) else (some before, some after)

def fileStem (host : PathStyle) (path : Str) : Option Str :=
  (fileName host path).bind fun file => (rsplitFileAtDot file).1.or (rsplitFileAtDot file).2

def fileNameStart (host : PathStyle) (path : Str) : Nat :=
  let left := (components host path).nextBack.1.path.length
  left + ((path[left]?).any (components host path).isSepByte).toNat

/-- `PathBuf::set_extension`: the path is cut off behind the stem. -/
def setExtension (host : PathStyle) (path extension : Str) : Bool × Str :=
  match fileStem host path with
  | none => (false, path)
  | some stem =>
    let kept := path.take (fileNameStart host path + stem.length)
    (true, if extension.isEmpty then kept else kept ++ '.' :: extension)

end StdPath

namespace RelPathBuf

/-- "invalid relative path component" of `push_component`. -/
structure InvalidComponent where
  component : Str

def pushComponent (self component : Str) : Except InvalidComponent Str :=
  if !component.isEmpty && !component.contains '/' && component != ['.'] && component != ['.', '.'] then
    .ok ((if self.isEmpty then self else self ++ ['/']) ++ component)
  else .error ⟨component⟩

def setExtension (host : PathStyle) (self extension : Str) : Bool × Str :=
  match RelPath.fileName self with
  | none => (false, self)
  | some filename => (true, push (pop self).2 (StdPath.setExtension host filename extension).2)

inductive Mutation where
  | push (path : Str)
  | pushComponent (component : Str)
  | pop
  | setExtension (extension : Str)

/-- The buffer after an operation, which a component that is not allowed leaves as it was. -/
def apply (host : PathStyle) (self : Str) : Mutation → Str
  | .push path => push self path
  | .pushComponent component => (pushComponent self component).toOption.getD self
  | .pop => (pop self).2
  | .setExtension extension => (setExtension host self extension).2

end RelPathBuf

/-- Names joined with slashes, none of them empty, `.` or `..`. -/
def NormalizedPath (path : Str) : Prop := ∃ names, (∀ name ∈ names, Clean .unix name) ∧ path = join names

open RelPathBuf

def RelPathBuf.Mutation.Allowed (host : PathStyle) : Mutation → Prop
  | .push path => NormalizedPath path
  | .pushComponent _ => True
  | .pop => True
  | .setExtension extension => ∀ c ∈ extension, c ∉ host.separatorsCh

/-- A name whose stem is `.` or `..`, possibly with a separator of the host and blank pieces behind. -/
def DotStem (host : PathStyle) (name : Str) : Prop :=
  ∃ stem tail rest, (stem = ['.'] ∧ tail ≠ [] ∨ stem = ['.', '.']) ∧ name = stem ++ '.' :: (tail ++ rest) ∧
    '.' ∉ tail ∧ (∀ c ∈ tail, c ∉ host.separatorsCh) ∧ (∀ c ∈ rest.head?, c ∈ host.separatorsCh) ∧
    named (StdPath.isSepByte host) (blankPiece false) rest = []

def UncoversDots (host : PathStyle) (self : Str) (operation : Mutation) : Prop :=
  operation = .setExtension [] ∧ ∃ names name, (∀ other ∈ names ++ [name], Clean .unix other) ∧
    self = join (names ++ [name]) ∧ DotStem host name

variable {host : PathStyle} {path name : Str} {names : List Str}

/-! ## Where a file name is -/

namespace StdPath

open Components

theorem isSepByte_dot (c : Components) : c.isSepByte '.' = false := by
  rw [Components.isSepByte]
  cases c.prefixVerbatim <;> cases c.host <;> rfl

theorem Prefix.len_ne_one (found : Option Prefix) : (found.map Prefix.len).getD 0 ≠ 1 := by
  cases found with
  | none => decide
  | some found =>
    rw [Option.map_some, Option.getD_some]
    cases found <;> simp only [Prefix.len] <;> omega

structure NameAt (host : PathStyle) (path lead name rest : Str) : Prop where
  split : path = lead ++ (name ++ rest)
  start : fileNameStart host path = lead.length
  lead_ne : lead ≠ ['.']
  whole : ∀ c ∈ name, (components host path).isSepByte c = false
  ends : ∀ c ∈ rest.head?, (components host path).isSepByte c = true
  blanks : named (components host path).isSepByte (components host path).blank rest = []
  nonempty : name ≠ []
  notDot : name ≠ ['.']
  notDots : name ≠ ['.', '.']

theorem components_prefixLen_le (host : PathStyle) (path : Str) : (components host path).prefixLen ≤ path.length := by
  cases host with
  | unix => exact Nat.zero_le _
  | windows => exact prefixLen_le path

theorem lenBeforeBody_le (host : PathStyle) (path : Str) : (components host path).lenBeforeBody ≤ path.length := by
  have bounded := components_prefixLen_le host path
  have own : (components host path).path = path := rfl
  have physical : (components host path).hasPhysicalRoot =
      (path.drop (components host path).prefixLen).head?.any (isSepByte host) := rfl
  have dot : (components host path).includeCurDir = (!(components host path).hasRoot &&
      startsWithDot (components host path).isSepByte (path.drop (components host path).prefixLen)) := rfl
  rw [lenBeforeBody]
  cases behind : path.drop (components host path).prefixLen with
  | nil =>
    rw [behind] at physical dot
    rw [physical, dot]
    simpa [startsWithDot] using bounded
  | cons c rest =>
    have inside := congrArg List.length behind
    rw [List.length_drop, List.length_cons] at inside
    cases root : (components host path).hasPhysicalRoot with
    | false =>
      have one := Bool.toNat_le (components host path).includeCurDir
      rw [Bool.toNat_false]
      omega
    | true =>
      have noDot : (components host path).includeCurDir = false := by
        rw [includeCurDir, hasRoot, root]
        rfl
      rw [noDot, Bool.toNat_true, Bool.toNat_false]
      omega

theorem exists_nameAt (found : fileName host path = some name) : ∃ lead rest, NameAt host path lead name rest := by
  have split : path = path.take (components host path).lenBeforeBody ++
      path.drop (components host path).lenBeforeBody := (List.take_append_drop _ _).symm
  have length : (path.take (components host path).lenBeforeBody).length = (components host path).lenBeforeBody := by
    rw [List.length_take]
    exact min_eq_left (lenBeforeBody_le host path)
  generalize path.take (components host path).lenBeforeBody = front at split length
  generalize path.drop (components host path).lenBeforeBody = body at split
  by_cases none : named (components host path).isSepByte (components host path).blank body = []
  · rw [(parent_of_none split length none).2] at found
    cases found
  · obtain ⟨above, last, isLast⟩ := exists_lastName (blankPiece_nil _) none
    rw [(parent_of_lastName split length isLast).2, fileNameOf] at found
    split_ifs at found with dots
    obtain rfl := Option.some.inj found
    rw [not_or] at dots
    obtain ⟨kept, before, trimmed, behind, -⟩ := isLast.split
    have read := nextBack_of_trimmed split length trimmed behind isLast.counts
    have nonempty : last ≠ [] := by
      rintro rfl
      cases isLast.counts
    have start : fileNameStart host path = (front ++ before).length +
        ((path[(front ++ before).length]?).any (components host path).isSepByte).toNat := by
      rw [fileNameStart, read]
      rfl
    cases behind with
    | alone whole =>
      obtain ⟨rest, rfl, blanks, ends⟩ := trimmed.rest (blankPiece_nil _) nonempty
      refine ⟨front, rest, split, ?_, ?_, whole, ends, blanks, nonempty, dots.1, dots.2⟩
      · obtain ⟨c, more, rfl⟩ := List.exists_cons_of_ne_nil nonempty
        rw [start, List.append_nil, split, List.cons_append, PathStyle.getElem?_front, ← List.cons_append,
          ← split, Option.any_some, whole c (by simp)]
        rfl
      · rintro rfl
        have zero : (components host path).prefixLen = 0 := by
          have notOne := Prefix.len_ne_one (components host path).start
          change (components host path).prefixLen ≠ 1 at notOne
          rw [lenBeforeBody, List.length_singleton] at length
          omega
        have noRoot : (components host path).hasPhysicalRoot = false := by
          change (path.drop (components host path).prefixLen).head?.any (isSepByte host) = false
          rw [zero, split]
          cases host <;> rfl
        have noDot : (components host path).includeCurDir = false := by
          have here : (components host path).path = '.' :: (last ++ rest) := split
          obtain ⟨c, more, rfl⟩ := List.exists_cons_of_ne_nil nonempty
          rw [includeCurDir, zero, here, List.drop_zero, startsWithDot]
          simp [whole c (by simp)]
        rw [lenBeforeBody, zero, noRoot, noDot] at length
        cases length
    | @after _ _ c separator whole =>
      obtain ⟨rest, rfl, blanks, ends⟩ := trimmed.rest (blankPiece_nil _) (by simp)
      have cut : path = (front ++ before) ++ c :: (last ++ rest) := by simpa using split
      have here : path[(front ++ before).length]? = some c := by
        rw [cut]
        exact PathStyle.getElem?_front _ _ _
      refine ⟨front ++ before ++ [c], rest, by simpa using cut, ?_, ?_, whole, ends, blanks, nonempty, dots.1, dots.2⟩
      · rw [start, here, Option.any_some, separator]
        simp [Nat.add_assoc]
      · intro same
        have last := congrArg List.getLast? same
        rw [List.getLast?_append, List.getLast?_singleton, Option.some_or] at last
        obtain rfl : c = '.' := by simpa using last
        rw [isSepByte_dot] at separator
        cases separator

/-! ## Stems -/

theorem fileStem_spec (found : fileName host path = some name) (nonempty : name ≠ []) (notDots : name ≠ ['.', '.']) :
    ∃ stem, fileStem host path = some stem ∧ stem ≠ [] ∧
    (stem = name ∨ ∃ tail, name = stem ++ '.' :: tail ∧ '.' ∉ tail) := by
  rw [fileStem, found, Option.bind_some, rsplitFileAtDot, if_neg notDots]
  cases split : Paths.rsplitOnce '.' name with
  | none => exact ⟨name, rfl, nonempty, .inl rfl⟩
  | some parts =>
    obtain ⟨before, after⟩ := parts
    dsimp only
    split_ifs with empty
    · exact ⟨name, rfl, nonempty, .inl rfl⟩
    · exact ⟨before, rfl, by simpa using empty,
        .inr ⟨after, Paths.rsplitOnce_eq_some split, Paths.rsplitOnce_after split⟩⟩

theorem setExtension_eq {lead rest stem tail : Str} (nameAt : NameAt host path lead (stem ++ tail) rest)
    (found : fileStem host path = some stem) (extension : Str) :
    setExtension host path extension =
      (true, if extension.isEmpty then lead ++ stem else lead ++ stem ++ '.' :: extension) := by
  have kept : path.take (fileNameStart host path + stem.length) = lead ++ stem := by
    have cut : path = (lead ++ stem) ++ (tail ++ rest) := by simpa using nameAt.split
    rw [nameAt.start, ← List.length_append, cut, List.take_left]
  rw [setExtension, found]
  dsimp only
  rw [kept]

theorem isSepByte_noStart (noStart : (components host path).start = none) :
    (components host path).isSepByte = isSepByte host := by
  funext c
  rw [Components.isSepByte, prefixVerbatim, noStart]
  rfl

theorem prefixVerbatim_noStart (noStart : (components host path).start = none) :
    (components host path).prefixVerbatim = false := by
  rw [prefixVerbatim, noStart]
  rfl

theorem start_dot (host : PathStyle) (more : Str) : (components host ('.' :: more)).start = none := by
  cases host with
  | unix => rfl
  | windows =>
    have plain : ∀ c d rest, '.' :: more = c :: d :: rest →
        c ∈ PathStyle.windows.separatorsCh → d ∉ PathStyle.windows.separatorsCh := by
      rintro c d rest same separator
      rw [List.cons_eq_cons] at same
      rw [← same.1] at separator
      exact absurd separator (by decide)
    have noDrive : parseDrive ('.' :: more) = none := by
      rw [← Option.isNone_iff_eq_none, ← Option.not_isSome, parseDrive_isSome]
      rfl
    change parsePrefix ('.' :: more) = none
    rw [parsePrefix_plain plain, noDrive]
    rfl

theorem fileName_first {file rest : Str} (noStart : (components host (file ++ rest)).start = none)
    (whole : ∀ c ∈ file, isSepByte host c = false) (nonempty : file ≠ []) (notDot : file ≠ ['.'])
    (notDots : file ≠ ['.', '.']) (ends : ∀ c ∈ rest.head?, isSepByte host c = true)
    (blanks : named (isSepByte host) (blankPiece false) rest = []) :
    fileName host (file ++ rest) = some file ∧ fileNameStart host (file ++ rest) = 0 := by
  have separators := isSepByte_noStart noStart
  have plain := prefixVerbatim_noStart noStart
  have zero : (components host (file ++ rest)).prefixLen = 0 := by
    rw [Components.prefixLen, noStart]
    rfl
  have here : (components host (file ++ rest)).path = file ++ rest := rfl
  obtain ⟨first, more, rfl⟩ := List.exists_cons_of_ne_nil nonempty
  have firstPlain := whole first (by simp)
  have noRoot : (components host (first :: more ++ rest)).hasPhysicalRoot = false := by
    change (List.drop (components host (first :: more ++ rest)).prefixLen
      (first :: more ++ rest)).head?.any (isSepByte host) = false
    rw [zero]
    exact firstPlain
  have noDot : (components host (first :: more ++ rest)).includeCurDir = false := by
    rw [includeCurDir, zero, here, List.drop_zero, separators, startsWithDot]
    cases more with
    | nil =>
      have other : first ≠ '.' := by
        rintro rfl
        exact notDot rfl
      simp [other]
    | cons second more => simp [whole second (by simp)]
  have length : ([] : Str).length = (components host (first :: more ++ rest)).lenBeforeBody := by
    rw [lenBeforeBody, zero, noRoot, noDot]
    rfl
  have counts : blankPiece false (first :: more) = false := by
    rw [blankPiece, beq_eq_false_iff_ne.mpr notDot]
    rfl
  have trimmed : Trimmed (isSepByte host) (blankPiece false) (first :: more ++ rest) (first :: more) := by
    have keep : Trimmed (isSepByte host) (blankPiece false) (first :: more) (first :: more) :=
      .keep (.alone whole) counts
    cases rest with
    | nil => simpa using keep
    | cons c rest =>
      have separator := ends c rfl
      rw [named_cons (blankPiece_nil _) _ separator] at blanks
      exact keep.append_blank (blankPiece_nil _) separator blanks
  have behind : Behind (isSepByte host) (first :: more) [] (first :: more) := .alone whole
  have last : LastName (isSepByte host) (blankPiece false) (first :: more ++ rest) []
      (first :: more) := ⟨counts, _, [], trimmed, behind, .nil⟩
  have counts' : (components host (first :: more ++ rest)).blank (first :: more) = false := by
    rw [blank, plain]
    exact counts
  rw [← separators, ← plain] at last trimmed
  rw [← separators] at behind
  have read := nextBack_of_trimmed (List.nil_append _).symm length trimmed behind counts'
  refine ⟨?_, ?_⟩
  · rw [(parent_of_lastName (List.nil_append _).symm length last).2, fileNameOf, if_neg]
    rw [not_or]
    exact ⟨notDot, notDots⟩
  · rw [fileNameStart, read]
    change 0 + ((first :: more ++ rest)[0]?.any _).toNat = 0
    rw [separators]
    simp [firstPlain]

theorem setExtension_dotStem (dots : DotStem host name) :
    ∃ stem, (stem = ['.'] ∨ stem = ['.', '.']) ∧ setExtension host name [] = (true, stem) := by
  obtain ⟨stem, tail, rest, kind, rfl, noDot, whole, ends, blanks⟩ := dots
  have noStart : (components host (stem ++ '.' :: tail ++ rest)).start = none := by
    rcases kind with ⟨rfl, -⟩ | rfl <;> exact start_dot host _
  have wholeFile : ∀ c ∈ stem ++ '.' :: tail, isSepByte host c = false := by
    have dotSep : isSepByte host '.' = false := by cases host <;> rfl
    have tailSep : ∀ c ∈ tail, isSepByte host c = false := by
      intro c member
      simpa [isSepByte] using whole c member
    rcases kind with ⟨rfl, -⟩ | rfl <;> simpa [dotSep] using tailSep
  have notDots : stem ++ '.' :: tail ≠ ['.', '.'] := by
    rcases kind with ⟨rfl, some⟩ | rfl
    · simpa using some
    · simp
  have stem_ne : stem ≠ [] := by
    rcases kind with ⟨rfl, -⟩ | rfl <;> simp
  have notDot : stem ++ '.' :: tail ≠ ['.'] := by
    intro same
    obtain ⟨first, more, rfl⟩ := List.exists_cons_of_ne_nil stem_ne
    simp at same
  have endsSep : ∀ c ∈ rest.head?, isSepByte host c = true := by
    intro c member
    simpa [isSepByte] using ends c member
  obtain ⟨found, start⟩ := fileName_first noStart wholeFile (by simp) notDot notDots endsSep blanks
  have stemFound : fileStem host (stem ++ '.' :: tail ++ rest) = some stem := by
    have some : stem.isEmpty = false := by simpa using stem_ne
    rw [fileStem, found, Option.bind_some, rsplitFileAtDot, if_neg notDots, Paths.rsplitOnce_append _ noDot]
    dsimp only
    rw [some]
    rfl
  refine ⟨stem, ?_, ?_⟩
  · rcases kind with ⟨rfl, -⟩ | rfl
    · exact .inl rfl
    · exact .inr rfl
  · have cut : stem ++ '.' :: (tail ++ rest) = stem ++ '.' :: tail ++ rest := by simp
    rw [cut, setExtension, stemFound]
    dsimp only
    rw [start, Nat.zero_add, List.append_assoc, List.take_left]
    rfl

end StdPath

theorem not_clean_dots {stem : Str} (dots : stem = ['.'] ∨ stem = ['.', '.']) : ¬ Clean .unix stem := by
  intro clean
  rcases dots with rfl | rfl
  · exact clean.notDot rfl
  · exact clean.notDotDot rfl

theorem clean_stem {lead file rest stem : Str} (clean : Clean .unix name)
    (nameAt : StdPath.NameAt host name lead file rest) (stem_ne : stem ≠ [])
    (cut : stem = file ∨ ∃ tail, file = stem ++ '.' :: tail ∧ '.' ∉ tail)
    (safe : ¬ DotStem host name) : Clean .unix (lead ++ stem) := by
  have noDots : ¬ (lead ++ stem = ['.'] ∨ lead ++ stem = ['.', '.']) := by
    intro dots
    obtain rfl : lead = [] := by
      rcases lead with _ | ⟨c, lead⟩
      · rfl
      · have other := nameAt.lead_ne
        rcases dots with dots | dots
        · simp [stem_ne] at dots
        · obtain ⟨rfl, rest⟩ := List.cons_eq_cons.mp dots
          rcases lead with _ | ⟨d, lead⟩
          · exact absurd rfl other
          · simp [stem_ne] at rest
    rw [List.nil_append] at dots
    rcases cut with rfl | ⟨tail, rfl, noDot⟩
    · exact dots.elim nameAt.notDot nameAt.notDots
    · have split := nameAt.split
      have noStart : (StdPath.components host name).start = none := by
        rw [split]
        rcases dots with rfl | rfl <;> exact StdPath.start_dot host _
      have separators := StdPath.isSepByte_noStart noStart
      have plain := StdPath.prefixVerbatim_noStart noStart
      have whole := nameAt.whole
      have ends := nameAt.ends
      have blanks := nameAt.blanks
      rw [separators] at whole ends blanks
      rw [StdPath.Components.blank, plain] at blanks
      refine safe ⟨stem, tail, rest, ?_, by simpa using split, noDot, ?_, ?_, blanks⟩
      · rcases dots with rfl | rfl
        · refine .inl ⟨rfl, ?_⟩
          rintro rfl
          exact nameAt.notDots rfl
        · exact .inr rfl
      · intro c member
        simpa [StdPath.isSepByte] using whole c (by simp [member])
      · intro c member
        simpa [StdPath.isSepByte] using ends c member
  rw [not_or] at noDots
  refine ⟨by simp [stem_ne], noDots.1, noDots.2, ?_⟩
  intro c member slash
  rw [List.mem_singleton.mp slash] at member
  refine clean.noSlash ?_
  rw [nameAt.split]
  rcases List.mem_append.mp member with member | member
  · exact List.mem_append_left _ member
  · rcases cut with rfl | ⟨tail, rfl, -⟩ <;> simp [member]

theorem clean_setExtension {extension : Str} (clean : Clean .unix name)
    (allowed : ∀ c ∈ extension, c ∉ host.separatorsCh) :
    Clean .unix (StdPath.setExtension host name extension).2 ↔ ¬ (extension = [] ∧ DotStem host name) := by
  constructor
  · rintro kept ⟨rfl, dots⟩
    obtain ⟨stem, isDots, same⟩ := StdPath.setExtension_dotStem dots
    rw [same] at kept
    exact not_clean_dots isDots kept
  · intro safe
    cases found : StdPath.fileName host name with
    | none =>
      have same : StdPath.setExtension host name extension = (false, name) := by
        rw [StdPath.setExtension, StdPath.fileStem, found]
        rfl
      rw [same]
      exact clean
    | some file =>
      obtain ⟨lead, rest, nameAt⟩ := StdPath.exists_nameAt found
      obtain ⟨stem, stemFound, stem_ne, cut⟩ := StdPath.fileStem_spec found nameAt.nonempty nameAt.notDots
      obtain ⟨tail, rfl⟩ : ∃ tail, file = stem ++ tail := by
        rcases cut with rfl | ⟨tail, rfl, -⟩
        · exact ⟨[], (List.append_nil _).symm⟩
        · exact ⟨_, rfl⟩
      rw [StdPath.setExtension_eq nameAt stemFound]
      cases extension with
      | nil => exact clean_stem clean nameAt stem_ne cut fun dots => safe ⟨rfl, dots⟩
      | cons c extension =>
        have noSlash : '/' ∉ lead ++ stem ++ '.' :: c :: extension := by
          intro slash
          rcases List.mem_append.mp slash with member | member
          · refine clean.noSlash ?_
            rw [nameAt.split]
            rw [List.mem_append] at member ⊢
            rcases member with member | member
            · exact .inl member
            · exact .inr (by simp [member])
          · rcases List.mem_cons.mp member with same | member
            · cases same
            · exact allowed '/' member (slash_mem host)
        have positive := List.length_pos_of_ne_nil stem_ne
        have long : 3 ≤ (lead ++ stem ++ '.' :: c :: extension).length := by
          simp only [List.length_append, List.length_cons]
          omega
        have other : ∀ short : Str, short.length < 3 → lead ++ stem ++ '.' :: c :: extension ≠ short := by
          rintro short less rfl
          omega
        change Clean .unix (lead ++ stem ++ '.' :: c :: extension)
        refine ⟨other [] (by decide), other ['.'] (by decide), other ['.', '.'] (by decide), ?_⟩
        intro d member slash
        rw [List.mem_singleton.mp slash] at member
        exact noSlash member

/-! ## Operations -/

theorem names_of_join {others : List Str} (clean : ∀ name ∈ names, Clean .unix name)
    (othersClean : ∀ name ∈ others, Clean .unix name) (same : join names = join others) : names = others := by
  rw [← components_join clean, ← components_join othersClean, same]

theorem normalized_concat (clean : ∀ name ∈ names, Clean .unix name) (nonempty : name ≠ [])
    (noSlash : '/' ∉ name) (normalized : NormalizedPath (join (names ++ [name]))) : Clean .unix name := by
  obtain ⟨others, othersClean, same⟩ := normalized
  have whole : ∀ c ∈ name, decide (c ∈ PathStyle.unix.separatorsCh) = false := by
    intro c member
    rw [decide_eq_false_iff_not]
    intro slash
    rw [List.mem_singleton.mp slash] at member
    exact noSlash member
  have cut : pieces .unix (join (names ++ [name])) = names ++ [name] := by
    have single : pieces .unix name = [name] := List.splitOnP_eq_singleton whole
    by_cases empty : names = []
    · subst empty
      rw [List.nil_append, show join [name] = name by simp [join], single]
    · rw [join_concat empty, pieces_append_separator _ _ (slash_mem .unix), pieces_join clean empty, single]
  have some : others ≠ [] := by
    rintro rfl
    rw [same] at cut
    have empty := congrArg List.getLast? cut
    rw [List.getLast?_append, List.getLast?_singleton, Option.some_or] at empty
    change some [] = some name at empty
    exact nonempty (Option.some.inj empty).symm
  rw [same, pieces_join othersClean some] at cut
  exact othersClean name (by rw [cut]; simp)

theorem push_normalized {self : Str} (normalized : NormalizedPath self) (other : NormalizedPath path) :
    NormalizedPath (push self path) := by
  obtain ⟨names, clean, rfl⟩ := normalized
  obtain ⟨others, othersClean, rfl⟩ := other
  have both : ∀ name ∈ names ++ others, Clean .unix name := by
    intro name member
    rcases List.mem_append.mp member with member | member
    · exact clean name member
    · exact othersClean name member
  refine ⟨names ++ others, both, ?_⟩
  by_cases none : others = []
  · subst none
    rw [List.append_nil]
    rfl
  · have some : (join others).isEmpty = false := by
      simpa [join_eq_nil othersClean] using none
    rw [RelPathBuf.push, some, if_neg (by decide)]
    by_cases empty : names = []
    · subst empty
      rfl
    · have someNames : (join names).isEmpty = false := by
        simpa [join_eq_nil clean] using empty
      rw [someNames, if_neg (by decide), join_append _ _ empty none]
      simp

theorem pop_normalized {self : Str} (normalized : NormalizedPath self) : NormalizedPath (pop self).2 := by
  obtain ⟨names, clean, rfl⟩ := normalized
  rcases List.eq_nil_or_concat' names with rfl | ⟨init, last, rfl⟩
  · exact ⟨[], by simp, rfl⟩
  · have before : ∀ name ∈ init, Clean .unix name := fun name member => clean name (by simp [member])
    rw [pop_join before (clean last (by simp))]
    exact ⟨init, before, rfl⟩

theorem pushComponent_normalized {self : Str} (normalized : NormalizedPath self) (component : Str) :
    NormalizedPath ((pushComponent self component).toOption.getD self) := by
  rw [pushComponent]
  split
  · rename_i valid
    simp only [Bool.and_eq_true, Bool.not_eq_true', bne_iff_ne, List.isEmpty_eq_false_iff] at valid
    obtain ⟨⟨⟨nonempty, noSlash⟩, notDot⟩, notDots⟩ := valid
    have clean : Clean .unix component := by
      refine ⟨nonempty, notDot, notDots, ?_⟩
      intro c member slash
      rw [List.mem_singleton.mp slash] at member
      rw [List.contains_eq_mem, decide_eq_false_iff_not] at noSlash
      exact noSlash member
    have pushed := push_normalized normalized ⟨[component], by simpa using clean, rfl⟩
    have single : join [component] = component := by simp [join]
    have some : component.isEmpty = false := by simpa using nonempty
    rw [single, RelPathBuf.push, some, if_neg (by decide)] at pushed
    exact pushed
  · exact normalized

/-- Every operation keeps a path normalized except one that takes the extension off a name whose stem
is `.` or `..`. -/
theorem normalized_apply_iff (host : PathStyle) {self : Str} (normalized : NormalizedPath self)
    {operation : Mutation} (allowed : operation.Allowed host) :
    NormalizedPath (apply host self operation) ↔ ¬ UncoversDots host self operation := by
  cases operation with
  | push path => exact iff_of_true (push_normalized normalized allowed) (by rintro ⟨same, -⟩; cases same)
  | pushComponent component =>
    exact iff_of_true (pushComponent_normalized normalized component) (by rintro ⟨same, -⟩; cases same)
  | pop => exact iff_of_true (pop_normalized normalized) (by rintro ⟨same, -⟩; cases same)
  | setExtension extension =>
    obtain ⟨names, clean, rfl⟩ := normalized
    rcases List.eq_nil_or_concat' names with rfl | ⟨init, name, rfl⟩
    · refine iff_of_true ⟨[], by simp, rfl⟩ ?_
      rintro ⟨-, names, name, namesClean, same, -⟩
      have none := names_of_join clean namesClean same
      simp at none
    · have before : ∀ name ∈ init, Clean .unix name := fun name member => clean name (by simp [member])
      have last := clean name (by simp)
      have result : apply host (join (init ++ [name])) (.setExtension extension) =
          RelPathBuf.push (join init) (StdPath.setExtension host name extension).2 := by
        rw [apply, RelPathBuf.setExtension, RelPath.fileName_join clean, List.getLast?_append,
          List.getLast?_singleton, Option.some_or]
        dsimp only
        rw [pop_join before last]
      have uncovers : UncoversDots host (join (init ++ [name])) (.setExtension extension) ↔
          extension = [] ∧ DotStem host name := by
        constructor
        · rintro ⟨none, names, other, namesClean, same, dots⟩
          have lists := names_of_join clean namesClean same
          obtain ⟨-, same⟩ := List.append_inj' lists rfl
          obtain rfl : name = other := by simpa using same
          exact ⟨by simpa using none, dots⟩
        · rintro ⟨rfl, dots⟩
          exact ⟨rfl, init, name, clean, rfl, dots⟩
      rw [result, uncovers, ← clean_setExtension last allowed]
      constructor
      · intro normalized
        by_contra bad
        rw [clean_setExtension last allowed, not_not] at bad
        obtain ⟨rfl, dots⟩ := bad
        obtain ⟨stem, isDots, same⟩ := StdPath.setExtension_dotStem dots
        rw [same] at normalized
        have nonempty : stem ≠ [] := by rcases isDots with rfl | rfl <;> simp
        have noSlash : '/' ∉ stem := by rcases isDots with rfl | rfl <;> decide
        rw [push_join before nonempty] at normalized
        exact not_clean_dots isDots (normalized_concat before nonempty noSlash normalized)
      · intro kept
        rw [push_join before kept.nonempty]
        refine ⟨init ++ [_], ?_, rfl⟩
        intro other member
        rcases List.mem_append.mp member with member | member
        · exact before other member
        · rw [List.mem_singleton.mp member]
          exact kept

theorem normalized_apply_push_setExtension : NormalizedPath (apply .unix ['a'] (.push ['b'])) ∧
    NormalizedPath (apply .unix ['a', '.', 'b'] (.setExtension ['c'])) := by
  have normalized : ∀ name : Str, Clean .unix name → NormalizedPath name := by
    intro name clean
    refine ⟨[name], ?_, by simp [join]⟩
    intro other member
    rw [List.mem_singleton.mp member]
    exact clean
  have a : Clean .unix ['a'] := ⟨by decide, by decide, by decide, by simp [PathStyle.separatorsCh]⟩
  have b : Clean .unix ['b'] := ⟨by decide, by decide, by decide, by simp [PathStyle.separatorsCh]⟩
  have dotted : Clean .unix ['a', '.', 'b'] := ⟨by decide, by decide, by decide, by simp [PathStyle.separatorsCh]⟩
  have pushed : (Mutation.push ['b']).Allowed .unix := normalized _ b
  have extension : (Mutation.setExtension ['c']).Allowed .unix := by
    simp [Mutation.Allowed, PathStyle.separatorsCh]
  refine ⟨(normalized_apply_iff .unix (normalized _ a) pushed).mpr ?_,
    (normalized_apply_iff .unix (normalized _ dotted) extension).mpr ?_⟩
  · rintro ⟨same, -⟩
    cases same
  · rintro ⟨same, -⟩
    cases same

/-- Without its extension `..a` is `.`. -/
theorem setExtension_uncovers :
    NormalizedPath ['.', '.', 'a'] ∧ ¬ NormalizedPath (apply .unix ['.', '.', 'a'] (.setExtension [])) := by
  have clean : ∀ name ∈ [['.', '.', 'a']], Clean .unix name := by
    intro name member
    rw [List.mem_singleton.mp member]
    exact ⟨by decide, by decide, by decide, by simp [PathStyle.separatorsCh]⟩
  have single : join [['.', '.', 'a']] = ['.', '.', 'a'] := by simp [join]
  refine ⟨⟨_, clean, single.symm⟩, ?_⟩
  have dots : DotStem .unix ['.', '.', 'a'] := ⟨['.'], ['a'], [], .inl ⟨rfl, by decide⟩, rfl, by decide,
      by simp [PathStyle.separatorsCh], by simp, named_nil (blankPiece_nil _)⟩
  obtain ⟨stem, isDots, same⟩ := StdPath.setExtension_dotStem dots
  have result : apply .unix ['.', '.', 'a'] (.setExtension []) = RelPathBuf.push (join []) stem := by
    have found : RelPath.fileName ['.', '.', 'a'] = some ['.', '.', 'a'] := by
      rw [← single, RelPath.fileName_join clean, single]
      rfl
    rw [apply, RelPathBuf.setExtension, found]
    dsimp only
    rw [same]
    rfl
  have nonempty : stem ≠ [] := by rcases isDots with rfl | rfl <;> simp
  have noSlash : '/' ∉ stem := by rcases isDots with rfl | rfl <;> decide
  have none : ∀ name ∈ ([] : List Str), Clean .unix name := by simp
  rw [result, push_join none nonempty]
  exact fun normalized => not_clean_dots isDots (normalized_concat none nonempty noSlash normalized)

end Pinrail

import Pinrail.Lib.LastPiece
import Pinrail.Path.RelPath

/-!
# Paths of the standard library

`Path::parent` and `Path::file_name` of `std::path` on hosts of both styles. A path has a prefix (on
Windows), a root and components, and both functions read one component from the back.
-/

namespace Pinrail
open Lib

namespace StdPath

/-! ## Prefixes -/

inductive Prefix where
  | verbatim (name : Str)
  | verbatimUnc (server share : Str)
  | verbatimDisk (letter : Char)
  | deviceNs (name : Str)
  | unc (server share : Str)
  | disk (letter : Char)
deriving DecidableEq

namespace Prefix

def len : Prefix → Nat
  | verbatim name => 4 + name.length
  | verbatimUnc server share => 8 + server.length + if share.isEmpty then 0 else 1 + share.length
  | verbatimDisk _ => 6
  | deviceNs name => 4 + name.length
  | unc server share => 2 + server.length + if share.isEmpty then 0 else 1 + share.length
  | disk _ => 2

def isVerbatim : Prefix → Bool
  | verbatim _ => true
  | verbatimUnc _ _ => true
  | verbatimDisk _ => true
  | deviceNs _ => false
  | unc _ _ => false
  | disk _ => false

def isDrive : Prefix → Bool
  | disk _ => true
  | _ => false

def hasImplicitRoot (self : Prefix) : Bool := !self.isDrive

end Prefix

def isSepByte (host : PathStyle) (c : Char) : Bool := c ∈ host.separatorsCh

def isVerbatimSep : PathStyle → Char → Bool
  | .unix, c => c == '/'
  | .windows, c => c == '\\'

def parseNextComponent (path : Str) (verbatim : Bool) : Str × Str :=
  let separator := if verbatim then isVerbatimSep .windows else isSepByte .windows
  (path.takeWhile (!separator ·), (path.dropWhile (!separator ·)).drop 1)

def parseDrive : Str → Option Char
  | letter :: ':' :: _ => if letter.isAlpha then some letter.toUpper else none
  | _ => none

def parseDriveExact (path : Str) : Option Char :=
  if (path[2]?).all (isSepByte .windows) then parseDrive path else none

def asBackslash (c : Char) : Char := if c = '/' then '\\' else c

/-- The parser sees the first characters of a path with every `/` as a `\`. -/
def parserHead (path : Str) : Str := (path.take 8).map asBackslash

def stripsAt (path : Str) (index : Nat) (text : Str) : Bool :=
  text.isPrefixOf ((parserHead path).drop index)

def parsePrefix (path : Str) : Option Prefix :=
  if stripsAt path 0 ['\\', '\\'] then
    if stripsAt path 2 ['?', '\\'] && !(path.take 4).contains '/' then
      if stripsAt path 4 ['U', 'N', 'C', '\\'] then
        let (server, rest) := parseNextComponent (path.drop 8) true
        let (share, _) := parseNextComponent rest true
        some (.verbatimUnc server share)
      else
        match parseDriveExact (path.drop 4) with
        | some letter => some (.verbatimDisk letter)
        | none => some (.verbatim (parseNextComponent (path.drop 4) true).1)
    else if stripsAt path 2 ['.', '\\'] then
      some (.deviceNs (parseNextComponent (path.drop 4) false).1)
    else
      let (server, rest) := parseNextComponent (path.drop 2) false
      let (share, _) := parseNextComponent rest false
      if !server.isEmpty && !share.isEmpty then some (.unc server share) else none
  else (parseDrive path).map .disk

/-! ## Components -/

inductive Component where
  | pathPrefix
  | rootDir
  | curDir
  | parentDir
  | normal (name : Str)
deriving DecidableEq

inductive State where
  | pathPrefix
  | startDir
  | body
  | done
deriving DecidableEq

def State.rank : State → Nat
  | .done => 0
  | .pathPrefix => 1
  | .startDir => 2
  | .body => 3

structure Components where
  host : PathStyle
  path : Str
  start : Option Prefix
  hasPhysicalRoot : Bool
  back : State

namespace Components

def prefixLen (self : Components) : Nat := (self.start.map Prefix.len).getD 0

def prefixVerbatim (self : Components) : Bool := self.start.any Prefix.isVerbatim

def isSepByte (self : Components) (c : Char) : Bool :=
  if self.prefixVerbatim then isVerbatimSep self.host c else StdPath.isSepByte self.host c

def hasRoot (self : Components) : Bool :=
  self.hasPhysicalRoot || self.start.any Prefix.hasImplicitRoot

/-- Whether a path begins with a component `.` -/
def startsWithDot (separator : Char → Bool) (path : Str) : Bool :=
  path.head? == some '.' && (path[1]?).all separator

def includeCurDir (self : Components) : Bool :=
  !self.hasRoot && startsWithDot self.isSepByte (self.path.drop self.prefixLen)

def lenBeforeBody (self : Components) : Nat :=
  self.prefixLen + self.hasPhysicalRoot.toNat + self.includeCurDir.toNat

def parseSingleComponent (self : Components) (comp : Str) : Option Component :=
  if comp = ['.'] then if self.prefixVerbatim then some .curDir else none
  else if comp = ['.', '.'] then some .parentDir
  else if comp = [] then none
  else some (.normal comp)

/-- The last component of the body, with how many characters it takes with its separator. -/
def parseNextComponentBack (self : Components) : Nat × Option Component :=
  let rest := self.path.drop self.lenBeforeBody
  let comp := rest.rtakeWhile (!self.isSepByte ·)
  (comp.length + (rest.any self.isSepByte).toNat, self.parseSingleComponent comp)

def shorten (self : Components) (size : Nat) : Components :=
  { self with path := self.path.take (self.path.length - size) }

theorem size_pos (self : Components) (longer : self.lenBeforeBody < self.path.length) :
    0 < self.parseNextComponentBack.1 := by
  rw [parseNextComponentBack]
  dsimp only
  have nonempty : self.path.drop self.lenBeforeBody ≠ [] := by
    rw [ne_eq, List.drop_eq_nil_iff]
    omega
  by_cases separated : (self.path.drop self.lenBeforeBody).any self.isSepByte = true
  · rw [separated]
    exact Nat.succ_pos _
  · have whole : (self.path.drop self.lenBeforeBody).rtakeWhile (!self.isSepByte ·) =
        self.path.drop self.lenBeforeBody := by
      rw [List.rtakeWhile_eq_self_iff]
      simpa using separated
    rw [whole]
    have positive := List.length_pos_of_ne_nil nonempty
    omega

theorem shorten_lt (self : Components) (longer : self.lenBeforeBody < self.path.length) :
    (self.shorten self.parseNextComponentBack.1).path.length < self.path.length := by
  have positive := self.size_pos longer
  rw [shorten, List.length_take]
  omega

def trimRight (self : Components) : Components :=
  if _longer : self.lenBeforeBody < self.path.length then
    if self.parseNextComponentBack.2.isSome then self
    else trimRight (self.shorten self.parseNextComponentBack.1)
  else self
termination_by self.path.length
decreasing_by exact self.shorten_lt _longer

def asPath (self : Components) : Str :=
  if self.back = .body then self.trimRight.path else self.path

def nextBack (self : Components) : Components × Option Component :=
  match _back : self.back with
  | .body =>
    if _longer : self.lenBeforeBody < self.path.length then
      let shorter := self.shorten self.parseNextComponentBack.1
      if self.parseNextComponentBack.2.isSome then (shorter, self.parseNextComponentBack.2)
      else nextBack shorter
    else nextBack { self with back := .startDir }
  | .startDir =>
    let self' := { self with back := .pathPrefix }
    if self.hasPhysicalRoot then (self'.shorten 1, some .rootDir)
    else if self.start.any fun p => p.hasImplicitRoot && !p.isVerbatim then
      (self', some .rootDir)
    else if self.includeCurDir then (self'.shorten 1, some .curDir)
    else nextBack self'
  | .pathPrefix =>
    let self' := { self with back := .done }
    if 0 < self.prefixLen then (self', some .pathPrefix) else (self', none)
  | .done => (self, none)
termination_by self.path.length + self.back.rank
decreasing_by
  · have shorter := self.shorten_lt _longer
    change _ + self.back.rank < _
    omega
  · rw [_back]
    exact Nat.lt_succ_self _
  · rw [_back]
    exact Nat.lt_succ_self _

end Components

def components (host : PathStyle) (path : Str) : Components :=
  let start := match host with
    | .unix => none
    | .windows => parsePrefix path
  { host
    path
    start
    hasPhysicalRoot := (path.drop ((start.map Prefix.len).getD 0)).head?.any (isSepByte host)
    back := .body }

def parent (host : PathStyle) (path : Str) : Option Str :=
  let (comps, comp) := (components host path).nextBack
  match comp with
  | some (.normal _) => some comps.asPath
  | some .curDir => some comps.asPath
  | some .parentDir => some comps.asPath
  | _ => none

def fileName (host : PathStyle) (path : Str) : Option Str :=
  match (components host path).nextBack.2 with
  | some (.normal name) => some name
  | _ => none

end StdPath
end Pinrail

import Mathlib
import Mathlib.Data.List.Sort
import Pinrail.Lib.Assoc
import Pinrail.Lib.Worklist

/-!
# The projection of a lock

The gate of `pinrail_import.py` over `Cargo.lock`: which locked packages the selected source needs, and
whether a pruned lock has only those.
-/

namespace Pinrail.Import

open Lib

inductive Failure where
  | unsafePath (value : Str)
  | foreignPath (value : Str)
  | duplicateIdentity
  | unsupportedReference (reference : Str)
  | ambiguousReference (reference : Str)
  | unreviewedSections
  | formatVersion
  | newIdentity
  | lostPackage
  | metadataChanged
  | newEdge (name : Str)
  | replacePolicy
  | lockFormat
  | workspaceVersion
  | inTreePackage (directory : Str)
  | escapesClosure (name : Str)
  | patchSpecification (patch : Str)
  | patchOutside (path : Str)
  | patchRefs (patch : Str)
  | patchRefEncoding (patch : Str)
  | patchKind (patch : Str)
  | keyError
  /-- The bound of the loop is used up; nothing the program does. -/
  | outOfFuel
deriving DecidableEq

def require (condition : Prop) [Decidable condition] (failure : Failure) : Except Failure Unit :=
  if condition then .ok () else .error failure

/-! ## Paths -/

/-- `posixpath.join` of two paths. -/
def joinPath (base value : Str) : Str :=
  if value.head? = some '/' then value
  else if base = [] ∨ base.getLast? = some '/' then base ++ value
  else base ++ ['/'] ++ value

/-- The parts of `posixpath.normpath`, with the slashes that the path starts with. -/
def normParts (slashes : Nat) (parts : List Str) : List Str :=
  parts.foldl (fun kept part =>
    if part = [] ∨ part = ['.'] then kept
    else if part ≠ ['.', '.'] ∨ (slashes = 0 ∧ kept = []) ∨ kept.getLast? = some ['.', '.'] then kept ++ [part]
    else kept.dropLast) []

/-- `posixpath.normpath`. -/
def normpath (path : Str) : Str :=
  let leading := path.takeWhile (· = '/')
  let slashes := if leading.length = 2 then 2 else min leading.length 1
  let normal := List.replicate slashes '/' ++ ['/'].intercalate (normParts slashes (path.splitOn '/'))
  if normal = [] then ['.'] else normal

def safePath (value : Str) : Except Failure Str := do
  require (value ≠ [] ∧ value.head? ≠ some '/' ∧
    (∀ part ∈ value.splitOn '/', part ≠ [] ∧ part ≠ ['.'] ∧ part ≠ ['.', '.'] ∧ part ≠ ['.', 'g', 'i', 't']) ∧
    ∀ c ∈ value, c ≠ '\x00' ∧ c ≠ '\n' ∧ c ≠ '\r' ∧ c ≠ '\\') (.unsafePath value)
  return value

def relativePath (base value : Str) : Except Failure Str := do
  require (value.head? ≠ some '/' ∧ '\\' ∉ value) (.foreignPath value)
  safePath (normpath (joinPath base value))

/-! ## Locks -/

structure Identity where
  name : Str
  version : Str
  source : Option Str := none
  checksum : Option Str := none
deriving DecidableEq

/-- A locked package; `other` is the rest of its table. -/
structure LockedPackage (M : Type) extends Identity where
  dependencies : Option (List Str) := none
  other : M
deriving DecidableEq

/-- A lock; `sections` are its keys other than `version` and `package`. -/
structure Lock (M : Type) where
  version : Option Nat
  package : List (LockedPackage M)
  sections : List Str := []
deriving DecidableEq

variable {M : Type}

def packageIdentity (package : LockedPackage M) : Identity := package.toIdentity

/-- `[^ ()]` -/
def isPlain (c : Char) : Bool := c ≠ ' ' && c ≠ '(' && c ≠ ')'

/-- `(.+)\)` at the end. -/
def matchOrigin (text : Str) : Option Str :=
  if text.getLast? = some ')' ∧ text.dropLast ≠ [] ∧ '\n' ∉ text.dropLast then some text.dropLast else none

/-- The groups of `([^ ()]+)(?: ([^ ()]+))?(?: \((.+)\))?` where it matches all of a reference. -/
def matchReference (reference : Str) : Option (Str × Option Str × Option Str) :=
  if reference.takeWhile isPlain = [] then none
  else
    match reference.dropWhile isPlain with
    | [] => some (reference.takeWhile isPlain, none, none)
    | ' ' :: '(' :: text => (matchOrigin text).map fun origin => (reference.takeWhile isPlain, none, some origin)
    | ' ' :: text =>
      if text.takeWhile isPlain = [] then none
      else
        match text.dropWhile isPlain with
        | [] => some (reference.takeWhile isPlain, some (text.takeWhile isPlain), none)
        | ' ' :: '(' :: tail => (matchOrigin tail).map fun origin =>
          (reference.takeWhile isPlain, some (text.takeWhile isPlain), some origin)
        | _ => none
    | _ => none

structure LockIndex (M : Type) where
  package : List (LockedPackage M)

def lockIndex (lock : Lock M) : Except Failure (LockIndex M) := do
  require (lock.package.map packageIdentity).Nodup .duplicateIdentity
  return ⟨lock.package⟩

namespace LockIndex

def byName (self : LockIndex M) (name : Str) : List (LockedPackage M) := self.package.filter (·.name = name)

def lookup (self : LockIndex M) (identity : Identity) : Except Failure (LockedPackage M) :=
  match self.package.find? (packageIdentity · = identity) with
  | some package => .ok package
  | none => .error .keyError

def resolve (self : LockIndex M) (reference : Str) : Except Failure (LockedPackage M) :=
  match matchReference reference with
  | none => .error (.unsupportedReference reference)
  | some (name, version, origin) =>
    match (self.byName name).filter fun package =>
        (version = none ∨ version = some package.version) ∧ (origin = none ∨ origin = package.source) with
    | [package] => .ok package
    | _ => .error (.ambiguousReference reference)

def resolveAll (self : LockIndex M) (package : LockedPackage M) : Except Failure (List Identity) :=
  (package.dependencies.getD []).mapM fun reference => do
    let target ← self.resolve reference
    return packageIdentity target

end LockIndex

/-! ## The manifests -/

structure PatchTable where
  package : Option Str := none
  path : Option Str := none
  git : Option Str := none
  rev : Option Str := none
  branch : Option Str := none
  tag : Option Str := none
deriving DecidableEq

inductive PatchSpec where
  | table (table : PatchTable)
  | other
deriving DecidableEq

inductive ManifestVersion where
  | text (version : Str)
  /-- The table `{workspace = true}`. -/
  | workspace
  | other
deriving DecidableEq

structure ManifestPackage where
  name : Str
  version : ManifestVersion
deriving DecidableEq

structure RootManifest where
  /-- The keys of `replace`. -/
  replace : List Str := []
  /-- The version of `workspace.package`. -/
  workspaceVersion : Option Str := none
  patch : List (Str × List (Str × PatchSpec)) := []
deriving DecidableEq

structure Source (M : Type) where
  root : RootManifest
  lock : Lock M
  manifest : Str → Option ManifestPackage

structure Projection where
  keptPatches : List (Str × List (Str × PatchSpec)) := []
  omittedPatches : List (Str × List (Str × PatchSpec)) := []
  lockedPackages : List Identity
deriving DecidableEq

end Pinrail.Import

/-! ## The projection

`cargo_projection`, which walks the lock from the selected packages, and `validate_lock_projection`, which
compares a pruned lock with it.
-/

namespace Pinrail.Import

open Lib

variable {M : Type}

/-! ## Validation -/

def validatePackage [DecidableEq M] (original projected : LockIndex M) (package : LockedPackage M) :
    Except Failure Unit := do
  let old ← original.lookup (packageIdentity package)
  require ({ package with dependencies := none } = { old with dependencies := none }) .metadataChanged
  let oldDeps ← original.resolveAll old
  let newDeps ← projected.resolveAll package
  require (∀ identity ∈ newDeps, identity ∈ oldDeps) (.newEdge package.name)

def validateLockProjection [DecidableEq M] (original projected : Lock M) (projection : Projection) :
    Except Failure (Lock M) := do
  require (projected.sections = []) .unreviewedSections
  require (projected.version = original.version) .formatVersion
  let originalIndex ← lockIndex original
  let projectedIndex ← lockIndex projected
  let allowed := projection.lockedPackages
  require (∀ package ∈ projected.package, packageIdentity package ∈ allowed) .newIdentity
  require (∀ identity ∈ allowed, identity.source = none → identity ∈ projected.package.map packageIdentity) .lostPackage
  projected.package.forM (validatePackage originalIndex projectedIndex)
  return projected

/-! ## The walk -/

def selectedPackage (source : Source M) (index : LockIndex M) (directory : Str) :
    Except Failure (LockedPackage M) := do
  match source.manifest directory with
  | none => .error .keyError
  | some package =>
    let version ← (match package.version with
      | .text version => .ok version
      | .workspace =>
        match source.root.workspaceVersion with
        | some version => .ok version
        | none => .error .keyError
      | .other => .error .workspaceVersion)
    match (index.byName package.name).filter fun candidate => candidate.version = version ∧ candidate.source = none with
    | [candidate] => .ok candidate
    | _ => .error (.inTreePackage directory)

/-- What a package is locked with. A package in the tree must have the name of a selected one. -/
def expandPackage (index : LockIndex M) (localNames : List Str) (package : LockedPackage M) :
    Except Failure (List (LockedPackage M)) := do
  require (package.source ≠ none ∨ package.name ∈ localNames) (.escapesClosure package.name)
  (package.dependencies.getD []).mapM index.resolve

def reachPackages (index : LockIndex M) (pending : List (LockedPackage M)) (localNames : List Str) :
    Except Failure (List (LockedPackage M)) :=
  match collectFrom packageIdentity (expandPackage index localNames) index.package pending with
  | .ok result => result
  | .error _ => .error .outOfFuel

/-! ## Patches -/

def isRefChar (c : Char) : Bool :=
  ('A' ≤ c ∧ c ≤ 'Z') ∨ ('a' ≤ c ∧ c ≤ 'z') ∨ ('0' ≤ c ∧ c ≤ '9') ∨ c = '.' ∨ c = '_' ∨ c = '/' ∨ c = '-'

def patchSelected (packageDirs : List Str) (reached : List (LockedPackage M)) (patch : Str) :
    PatchSpec → Except Failure Bool
  | .other => .error (.patchSpecification patch)
  | .table spec => do
    let candidates := reached.filter (·.name = spec.package.getD patch)
    match spec.path, spec.git with
    | some path, _ =>
      let path ← relativePath [] path
      require (path ∈ packageDirs) (.patchOutside path)
      return candidates.any fun package => package.source = none
    | none, some git =>
      let refs := [("rev".toList, spec.rev), ("branch".toList, spec.branch), ("tag".toList, spec.tag)].filterMap
        fun ref => ref.2.map fun value => (ref.1, value)
      require (refs.length ≤ 1) (.patchRefs patch)
      require (∀ ref ∈ refs, ref.2 ≠ [] ∧ ref.2.all isRefChar) (.patchRefEncoding patch)
      let marked := "git+".toList ++ git ++ refs.flatMap (fun ref => ['?'] ++ ref.1 ++ ['='] ++ ref.2) ++ ['#']
      return candidates.any fun package => marked.isPrefixOf (package.source.getD [])
    | none, none => .error (.patchKind patch)

abbrev Patches := List (Str × List (Str × PatchSpec)) × List (Str × List (Str × PatchSpec))

def addPatch (patches : List (Str × List (Str × PatchSpec))) (registry patch : Str) (spec : PatchSpec) :
    List (Str × List (Str × PatchSpec)) :=
  upsert registry (upsert patch spec ((valueOf registry patches).getD [])) patches

def sortPatches (packageDirs : List Str) (reached : List (LockedPackage M))
    (patches : List (Str × List (Str × PatchSpec))) : Except Failure Patches :=
  (patches.flatMap fun table => table.2.map fun patch => (table.1, patch)).foldlM
    (fun (kept, omitted) (registry, patch, spec) => do
      if ← patchSelected packageDirs reached patch spec then return (addPatch kept registry patch spec, omitted)
      else return (kept, addPatch omitted registry patch spec)) ([], [])

/-! ## The projection -/

def cohortLe (left right : LockedPackage M) : Bool :=
  if left.name ≠ right.name then left.name < right.name
  else if left.version ≠ right.version then left.version < right.version
  else ¬ right.source.getD [] < left.source.getD []

def cargoProjection (source : Source M) (packageDirs : List Str) : Except Failure Projection := do
  require (source.root.replace = []) .replacePolicy
  require (source.lock.version = some 3 ∨ source.lock.version = some 4) .lockFormat
  let index ← lockIndex source.lock
  let pending ← packageDirs.mapM (selectedPackage source index)
  let reached ← reachPackages index pending (pending.map fun package => package.name)
  let (kept, omitted) ← sortPatches packageDirs reached source.root.patch
  return {
    keptPatches := kept
    omittedPatches := omitted
    lockedPackages := (reached.insertionSort (cohortLe · ·)).map packageIdentity }

end Pinrail.Import

import Mathlib.Logic.Relation
import Pinrail.Import.Lock

/-!
# What the gate lets through

A projected lock that is accepted is a closed part of the upstream lock, with the packages of the tree.
-/

namespace Pinrail.Import

open Lib

variable {M : Type}

/-! ## References -/

def Means (reference : Str) (package : LockedPackage M) : Prop :=
  ∃ name version origin, matchReference reference = some (name, version, origin) ∧ package.name = name ∧
    (version = none ∨ version = some package.version) ∧ (origin = none ∨ origin = package.source)

def Resolves (lock : Lock M) (reference : Str) (package : LockedPackage M) : Prop :=
  package ∈ lock.package ∧ Means reference package ∧ ∀ other ∈ lock.package, Means reference other → other = package

def Edge (lock : Lock M) (package target : LockedPackage M) : Prop :=
  ∃ reference ∈ package.dependencies.getD [], Resolves lock reference target

theorem resolves_of_resolve {lock : Lock M} {reference : Str} {package : LockedPackage M}
    (resolved : (LockIndex.mk lock.package).resolve reference = .ok package) : Resolves lock reference package := by
  unfold LockIndex.resolve at resolved
  cases parts : matchReference reference with
  | none => simp [parts] at resolved
  | some groups =>
    obtain ⟨name, version, origin⟩ := groups
    simp only [parts] at resolved
    split at resolved
    · rename_i found only
      cases resolved
      have means_iff (other : LockedPackage M) (member : other ∈ lock.package) :
          Means reference other ↔ other = package := by
        rw [← List.mem_singleton, ← only, LockIndex.byName, List.filter_filter, List.mem_filter]
        simp only [Means, parts, Bool.and_eq_true, decide_eq_true_eq]
        constructor
        · rintro ⟨_, _, _, same, named, rest⟩
          cases same
          exact ⟨member, rest, named⟩
        · rintro ⟨-, rest, named⟩
          exact ⟨name, version, origin, rfl, named, rest⟩
      have inside : package ∈ lock.package := by
        have here : package ∈ [package] := List.mem_singleton.mpr rfl
        rw [← only] at here
        exact List.mem_of_mem_filter (List.mem_of_mem_filter here)
      exact ⟨inside, (means_iff package inside).mpr rfl, fun other member => (means_iff other member).mp⟩
    · cases resolved

theorem Resolves.unique {lock : Lock M} {reference : Str} {package other : LockedPackage M}
    (first : Resolves lock reference package) (second : Resolves lock reference other) : other = package :=
  first.2.2 other second.1 second.2.1

/-! ## Computations -/

theorem of_require {condition : Prop} [Decidable condition] {failure : Failure} {result : Unit}
    (passed : require condition failure = .ok result) : condition := by
  unfold require at passed
  split_ifs at passed with holds
  exact holds

theorem mem_of_mapM {α β : Type} {f : α → Except Failure β} {items : List α} {results : List β}
    (mapped : items.mapM f = .ok results) :
    (∀ item ∈ items, ∃ result ∈ results, f item = .ok result) ∧ ∀ result ∈ results, ∃ item ∈ items, f item = .ok result := by
  induction items generalizing results with
  | nil =>
    rw [List.mapM_nil, pure_eq_ok] at mapped
    subst mapped
    exact ⟨nofun, nofun⟩
  | cons item items ih =>
    rw [List.mapM_cons] at mapped
    obtain ⟨result, first, mapped⟩ := bind_eq_ok.mp mapped
    obtain ⟨others, rest, mapped⟩ := bind_eq_ok.mp mapped
    rw [pure_eq_ok] at mapped
    subst mapped
    obtain ⟨left, right⟩ := ih rest
    constructor
    · intro other member
      rcases List.mem_cons.mp member with rfl | member
      · exact ⟨result, List.mem_cons_self, first⟩
      · obtain ⟨found, inside, same⟩ := left other member
        exact ⟨found, List.mem_cons_of_mem _ inside, same⟩
    · intro other member
      rcases List.mem_cons.mp member with rfl | member
      · exact ⟨item, List.mem_cons_self, first⟩
      · obtain ⟨found, inside, same⟩ := right other member
        exact ⟨found, List.mem_cons_of_mem _ inside, same⟩

theorem of_forM {α : Type} {f : α → Except Failure Unit} {items : List α} {result : Unit}
    (passed : items.forM f = .ok result) : ∀ item ∈ items, f item = .ok () := by
  induction items with
  | nil => nofun
  | cons item items ih =>
    change (f item >>= fun _ => items.forM f) = .ok result at passed
    obtain ⟨⟨⟩, first, passed⟩ := bind_eq_ok.mp passed
    intro other member
    rcases List.mem_cons.mp member with rfl | member
    · exact first
    · exact ih passed other member

/-! ## The selected packages -/

def declaredVersion (root : RootManifest) (package : ManifestPackage) : Option Str :=
  match package.version with
  | .text version => some version
  | .workspace => root.workspaceVersion
  | .other => none

def Selected (source : Source M) (packageDirs : List Str) (package : LockedPackage M) : Prop :=
  package ∈ source.lock.package ∧ package.source = none ∧ ∃ directory ∈ packageDirs, ∃ manifest,
    source.manifest directory = some manifest ∧ manifest.name = package.name ∧
      declaredVersion source.root manifest = some package.version

theorem selectedPackage_spec {source : Source M} {directory : Str} {package : LockedPackage M}
    (selected : selectedPackage source ⟨source.lock.package⟩ directory = .ok package) : ∃ manifest version,
    source.manifest directory = some manifest ∧ declaredVersion source.root manifest = some version ∧ ∀ other,
    other = package ↔ other ∈ source.lock.package ∧ other.name = manifest.name ∧ other.version = version ∧
    other.source = none := by
  unfold selectedPackage at selected
  cases read : source.manifest directory with
  | none => simp [read] at selected
  | some manifest =>
    simp only [read] at selected
    obtain ⟨version, declared, selected⟩ := bind_eq_ok.mp selected
    have version_eq : declaredVersion source.root manifest = some version := by
      unfold declaredVersion
      cases kind : manifest.version with
      | text text => simpa [kind] using declared
      | workspace =>
        cases given : source.root.workspaceVersion with
        | none => simp [kind, given] at declared
        | some text => simpa [kind, given] using declared
      | other => simp [kind] at declared
    refine ⟨manifest, version, rfl, version_eq, fun other => ?_⟩
    split at selected
    · rename_i found only
      cases selected
      rw [← List.mem_singleton, ← only, LockIndex.byName, List.filter_filter, List.mem_filter]
      simp [and_comm, and_assoc]
    · cases selected

def Reachable (source : Source M) (packageDirs : List Str) (package : LockedPackage M) : Prop :=
  ∃ root, Selected source packageDirs root ∧ Relation.ReflTransGen (Edge source.lock) root package

variable {source : Source M} {packageDirs : List Str} {projection : Projection}

theorem selected_iff {pending : List (LockedPackage M)}
    (selected : packageDirs.mapM (selectedPackage source ⟨source.lock.package⟩) = .ok pending)
    (package : LockedPackage M) : package ∈ pending ↔ Selected source packageDirs package := by
  constructor
  · intro member
    obtain ⟨directory, inside, found⟩ := (mem_of_mapM selected).2 package member
    obtain ⟨manifest, version, read, declared, only⟩ := selectedPackage_spec found
    obtain ⟨locked, name, versionEq, noSource⟩ := (only package).mp rfl
    exact ⟨locked, noSource, directory, inside, manifest, read, name.symm, versionEq ▸ declared⟩
  · rintro ⟨locked, noSource, directory, inside, manifest, read, name, declared⟩
    obtain ⟨candidate, member, found⟩ := (mem_of_mapM selected).1 directory inside
    obtain ⟨manifest', version, read', declared', only⟩ := selectedPackage_spec found
    obtain rfl : manifest = manifest' := Option.some.inj (read.symm.trans read')
    obtain rfl : package.version = version := Option.some.inj (declared.symm.trans declared')
    rwa [(only package).mpr ⟨locked, name.symm, rfl, noSource⟩]

/-! ## What is reached -/

structure Walk (source : Source M) (packageDirs : List Str) (projection : Projection) : Prop where
  distinct : (source.lock.package.map packageIdentity).Nodup
  locked : ∀ identity, identity ∈ projection.lockedPackages ↔
    ∃ package, Reachable source packageDirs package ∧ packageIdentity package = identity
  /-- A version of a selected name in the tree is selected, or its name is that of a selected package. -/
  named : ∀ package, Reachable source packageDirs package → package.source = none →
    ∃ root, Selected source packageDirs root ∧ root.name = package.name
  /-- A selected package is the only one of the tree with its name and version. -/
  only : ∀ package other, Selected source packageDirs package → other ∈ source.lock.package → other.source = none →
    other.name = package.name → other.version = package.version → other = package

theorem reachable_mem {package : LockedPackage M} (reachable : Reachable source packageDirs package) :
    package ∈ source.lock.package := by
  obtain ⟨root, selected, path⟩ := reachable
  cases path with
  | refl => exact selected.1
  | tail _ edge =>
    obtain ⟨reference, -, resolves⟩ := edge
    exact resolves.1

theorem expandPackage_spec {lock : Lock M} {localNames : List Str} {package : LockedPackage M}
    {more : List (LockedPackage M)} (expanded : expandPackage ⟨lock.package⟩ localNames package = .ok more) :
    (package.source ≠ none ∨ package.name ∈ localNames) ∧
    (∀ reference ∈ package.dependencies.getD [], ∃ target ∈ more, Resolves lock reference target) ∧ ∀ target ∈ more,
    Edge lock package target := by
  obtain ⟨_, inTree, expanded⟩ := bind_eq_ok.mp expanded
  obtain ⟨references, targets⟩ := mem_of_mapM expanded
  refine ⟨of_require inTree, ?_, ?_⟩
  · intro reference member
    obtain ⟨target, inside, resolved⟩ := references reference member
    exact ⟨target, inside, resolves_of_resolve resolved⟩
  · intro target inside
    obtain ⟨reference, member, resolved⟩ := targets target inside
    exact ⟨reference, member, resolves_of_resolve resolved⟩

theorem edge_of_successors {lock : Lock M} {localNames : List Str} {package target : LockedPackage M}
    (member : target ∈ successors (expandPackage ⟨lock.package⟩ localNames) package) : Edge lock package target := by
  unfold successors at member
  split at member
  · rename_i expanded
    exact (expandPackage_spec expanded).2.2 target member
  · cases member

theorem reachPackages_spec {lock : Lock M} (distinct : (lock.package.map packageIdentity).Nodup)
    {pending : List (LockedPackage M)} (localNames : List Str) (rooted : ∀ package ∈ pending, package ∈ lock.package) :
    ∃ result, reachPackages ⟨lock.package⟩ pending localNames = result ∧
    collectFrom packageIdentity (expandPackage ⟨lock.package⟩ localNames) lock.package pending = .ok result ∧ ∀ reached,
    result = .ok reached → Collected (expandPackage ⟨lock.package⟩ localNames) pending reached := by
  have inside : ∀ package ∈ lock.package, ∀ target ∈ successors (expandPackage ⟨lock.package⟩ localNames) package,
      target ∈ lock.package := by
    intro package _ target member
    obtain ⟨reference, -, resolves⟩ := edge_of_successors member
    exact resolves.1
  have same : ∀ package ∈ lock.package, ∀ other ∈ lock.package,
      packageIdentity package = packageIdentity other → package = other := by
    intro package member other otherMember same
    exact List.inj_on_of_nodup_map distinct member otherMember same
  obtain ⟨result, returned, spec⟩ := collectFrom_returns inside same rooted
  exact ⟨result, by rw [reachPackages, returned], returned, spec⟩

theorem Collected.mem_iff {lock : Lock M} {localNames : List Str} {pending reached : List (LockedPackage M)}
    (collected : Collected (expandPackage ⟨lock.package⟩ localNames) pending reached) (package : LockedPackage M) :
    package ∈ reached ↔ ∃ root ∈ pending, Relation.ReflTransGen (Edge lock) root package := by
  constructor
  · intro member
    obtain ⟨root, start, path⟩ := collected.sound package member
    exact ⟨root, start, Relation.ReflTransGen.mono (fun _ _ => edge_of_successors) _ _ path⟩
  · rintro ⟨root, start, path⟩
    induction path with
    | refl => exact collected.rooted root start
    | tail _ edge ih =>
      obtain ⟨reference, member, resolves⟩ := edge
      obtain ⟨more, expanded, inside⟩ := collected.expanded _ ih
      obtain ⟨target, found, same⟩ := (expandPackage_spec expanded).2.1 reference member
      rw [Resolves.unique same resolves]
      exact inside target found

theorem cargoProjection_walk (projected : cargoProjection source packageDirs = .ok projection) :
    Walk source packageDirs projection := by
  unfold cargoProjection at projected
  obtain ⟨_, -, projected⟩ := bind_eq_ok.mp projected
  obtain ⟨_, -, projected⟩ := bind_eq_ok.mp projected
  obtain ⟨index, indexed, projected⟩ := bind_eq_ok.mp projected
  obtain ⟨pending, selected, projected⟩ := bind_eq_ok.mp projected
  obtain ⟨reached, walked, projected⟩ := bind_eq_ok.mp projected
  obtain ⟨⟨kept, omitted⟩, -, projected⟩ := bind_eq_ok.mp projected
  cases projected
  obtain ⟨_, distinct, indexed⟩ := bind_eq_ok.mp indexed
  cases indexed
  replace distinct := of_require distinct
  have isSelected := selected_iff selected
  obtain ⟨result, same, -, spec⟩ := reachPackages_spec distinct
    (pending.map fun package => package.name) fun package member => ((isSelected package).mp member).1
  have collected := spec reached (same.symm.trans walked)
  have isReached (package : LockedPackage M) : package ∈ reached ↔ Reachable source packageDirs package := by
    rw [Collected.mem_iff collected]
    simp only [isSelected, Reachable]
  refine ⟨distinct, ?_, ?_, ?_⟩
  · intro identity
    simp only [List.mem_map, List.mem_insertionSort, isReached]
  · intro package reachable noSource
    obtain ⟨more, expanded, -⟩ := collected.expanded package ((isReached package).mpr reachable)
    rcases (expandPackage_spec expanded).1 with sourced | named
    · exact absurd noSource sourced
    · obtain ⟨root, member, name⟩ := List.mem_map.mp named
      exact ⟨root, (isSelected root).mp member, name⟩
  · rintro package other ⟨locked, noSource, directory, inside, manifest, read, name, declared⟩ otherLocked otherNoSource
      otherName otherVersion
    obtain ⟨candidate, -, found⟩ := (mem_of_mapM selected).1 directory inside
    obtain ⟨manifest', version, read', declared', only⟩ := selectedPackage_spec found
    obtain rfl : manifest = manifest' := Option.some.inj (read.symm.trans read')
    obtain rfl : package.version = version := Option.some.inj (declared.symm.trans declared')
    rw [(only package).mpr ⟨locked, name.symm, rfl, noSource⟩]
    exact (only other).mpr ⟨otherLocked, otherName.trans name.symm, otherVersion, otherNoSource⟩

/-! ## The gate -/

/-- A projected lock is a closed part of the upstream lock, with all the packages of the tree that are
reached. -/
structure Pruned (source : Source M) (packageDirs : List Str) (projected : Lock M) : Prop where
  closed : ∀ package ∈ projected.package, ∀ reference ∈ package.dependencies.getD [],
    ∃ target, Resolves projected reference target
  upstream : ∀ package ∈ projected.package, ∃ old, Reachable source packageDirs old ∧
    ({ package with dependencies := none } : LockedPackage M) = { old with dependencies := none } ∧
    ∀ target, Edge projected package target → ∃ oldTarget, Edge source.lock old oldTarget ∧
      packageIdentity oldTarget = packageIdentity target
  present : ∀ old, Reachable source packageDirs old → old.source = none →
    packageIdentity old ∈ projected.package.map packageIdentity

structure Subgraph (source : Source M) (packageDirs : List Str) (projected : Lock M) : Prop extends
    Pruned source packageDirs projected where
  selected : ∀ old, Reachable source packageDirs old → old.source = none → Selected source packageDirs old

/-- No package of the tree that is reached has the name of a selected one with a version of its own. -/
def NoOtherVersion (source : Source M) (packageDirs : List Str) : Prop :=
  ∀ old, Reachable source packageDirs old → old.source = none → ∀ root, Selected source packageDirs root →
    root.name = old.name → ∃ other, Selected source packageDirs other ∧ other.name = old.name ∧ other.version = old.version

theorem mem_resolveAll {lock : Lock M} {package : LockedPackage M} {identities : List Identity}
    (resolved : (LockIndex.mk lock.package).resolveAll package = .ok identities) :
    (∀ reference ∈ package.dependencies.getD [], ∃ target, Resolves lock reference target) ∧ ∀ identity,
    identity ∈ identities ↔ ∃ target, Edge lock package target ∧ packageIdentity target = identity := by
  obtain ⟨references, targets⟩ := mem_of_mapM resolved
  have found (reference : Str) (identity : Identity) (same : ((LockIndex.mk lock.package).resolve reference >>=
      fun target => pure (packageIdentity target) : Except Failure Identity) = .ok identity) :
      ∃ target, Resolves lock reference target ∧ packageIdentity target = identity := by
    obtain ⟨target, resolved, same⟩ := bind_eq_ok.mp same
    exact ⟨target, resolves_of_resolve resolved, pure_eq_ok.mp same⟩
  refine ⟨?_, fun identity => ⟨?_, ?_⟩⟩
  · intro reference member
    obtain ⟨identity, -, same⟩ := references reference member
    obtain ⟨target, resolves, -⟩ := found reference identity same
    exact ⟨target, resolves⟩
  · intro member
    obtain ⟨reference, inside, same⟩ := targets identity member
    obtain ⟨target, resolves, same⟩ := found reference identity same
    exact ⟨target, ⟨reference, inside, resolves⟩, same⟩
  · rintro ⟨target, ⟨reference, inside, resolves⟩, rfl⟩
    obtain ⟨identity, member, same⟩ := references reference inside
    obtain ⟨other, first, rfl⟩ := found reference identity same
    rwa [Resolves.unique first resolves]

variable [DecidableEq M]

theorem validatePackage_spec {original projected : Lock M} {package : LockedPackage M}
    (valid : validatePackage ⟨original.package⟩ ⟨projected.package⟩ package = .ok ()) :
    (∀ reference ∈ package.dependencies.getD [], ∃ target, Resolves projected reference target) ∧
    ∃ old ∈ original.package,
    ({ package with dependencies := none } : LockedPackage M) = { old with dependencies := none } ∧ ∀ target,
    Edge projected package target → ∃ oldTarget, Edge original old oldTarget ∧
    packageIdentity oldTarget = packageIdentity target := by
  obtain ⟨old, found, valid⟩ := bind_eq_ok.mp valid
  obtain ⟨_, metadata, valid⟩ := bind_eq_ok.mp valid
  obtain ⟨oldDeps, oldResolved, valid⟩ := bind_eq_ok.mp valid
  obtain ⟨newDeps, newResolved, edges⟩ := bind_eq_ok.mp valid
  obtain ⟨references, news⟩ := mem_resolveAll newResolved
  obtain ⟨-, olds⟩ := mem_resolveAll oldResolved
  refine ⟨references, old, ?_, of_require metadata, ?_⟩
  · unfold LockIndex.lookup at found
    split at found
    · rename_i found'
      cases found
      exact List.mem_of_find?_eq_some found'
    · cases found
  · intro target edge
    exact (olds _).mp (of_require edges _ ((news _).mpr ⟨target, edge, rfl⟩))

theorem validateLockProjection_spec {projected accepted : Lock M} (walk : Walk source packageDirs projection)
    (valid : validateLockProjection source.lock projected projection = .ok accepted) :
    Pruned source packageDirs projected := by
  unfold validateLockProjection at valid
  obtain ⟨_, -, valid⟩ := bind_eq_ok.mp valid
  obtain ⟨_, -, valid⟩ := bind_eq_ok.mp valid
  obtain ⟨original, indexed, valid⟩ := bind_eq_ok.mp valid
  obtain ⟨_, -, indexed⟩ := bind_eq_ok.mp indexed
  cases indexed
  obtain ⟨index, indexed, valid⟩ := bind_eq_ok.mp valid
  obtain ⟨_, -, indexed⟩ := bind_eq_ok.mp indexed
  cases indexed
  obtain ⟨_, allowed, valid⟩ := bind_eq_ok.mp valid
  obtain ⟨_, present, valid⟩ := bind_eq_ok.mp valid
  obtain ⟨_, packages, -⟩ := bind_eq_ok.mp valid
  replace allowed := of_require allowed
  replace present := of_require present
  replace packages := of_forM packages
  refine ⟨?_, ?_, ?_⟩
  · intro package member
    exact (validatePackage_spec (packages package member)).1
  · intro package member
    obtain ⟨-, old, oldLocked, metadata, edges⟩ := validatePackage_spec (packages package member)
    obtain ⟨reached, reachable, same⟩ := (walk.locked _).mp (allowed package member)
    -- The package of this identity is the one that was reached.
    have identity : packageIdentity package = packageIdentity old := congrArg (·.toIdentity) metadata
    obtain rfl : reached = old :=
      List.inj_on_of_nodup_map walk.distinct (reachable_mem reachable) oldLocked (same.trans identity)
    exact ⟨reached, reachable, metadata, edges⟩
  · intro old reachable noSource
    exact present _ ((walk.locked _).mpr ⟨old, reachable, rfl⟩) noSource

/-- What is projected and accepted is a part of the upstream lock, with nothing of the tree that was not
selected, if no package of the tree has only the name of a selected one. -/
theorem projection_gate (source : Source M) (packageDirs : List Str) (projection : Projection) (projected accepted : Lock M)
    (walked : cargoProjection source packageDirs = .ok projection)
    (valid : validateLockProjection source.lock projected projection = .ok accepted) :
    Subgraph source packageDirs projected ↔ NoOtherVersion source packageDirs := by
  have walk := cargoProjection_walk walked
  constructor
  · intro subgraph old reachable noSource root _ _
    exact ⟨old, subgraph.selected old reachable noSource, rfl, rfl⟩
  · intro noOther
    refine ⟨validateLockProjection_spec walk valid, fun old reachable noSource => ?_⟩
    obtain ⟨root, selected, name⟩ := walk.named old reachable noSource
    obtain ⟨other, otherSelected, otherName, otherVersion⟩ := noOther old reachable noSource root selected name
    rw [walk.only other old otherSelected (reachable_mem reachable) noSource otherName.symm otherVersion.symm]
    exact otherSelected

def twoVersions : Source Unit where
  root := {}
  lock := {
    version := some 4
    package := [
      { name := "foo".toList, version := "1.0.0".toList, dependencies := some ["foo 2.0.0".toList], other := () },
      { name := "foo".toList, version := "2.0.0".toList, other := () }] }
  manifest directory := if directory = "crates/foo".toList then some ⟨"foo".toList, .text "1.0.0".toList⟩ else none

theorem twoVersions_gate : ∃ projection accepted, cargoProjection twoVersions ["crates/foo".toList] = .ok projection ∧
    validateLockProjection twoVersions.lock twoVersions.lock projection = .ok accepted ∧
    (Subgraph twoVersions ["crates/foo".toList] twoVersions.lock ↔ NoOtherVersion twoVersions ["crates/foo".toList]) :=
  ⟨_, _, rfl, rfl, projection_gate _ _ _ _ _ rfl rfl⟩

/-- The version that was not selected is reached, and let through. -/
theorem twoVersions_escapes : ∃ projection accepted,
    cargoProjection twoVersions ["crates/foo".toList] = .ok projection ∧
    validateLockProjection twoVersions.lock twoVersions.lock projection = .ok accepted ∧
    ¬ Subgraph twoVersions ["crates/foo".toList] twoVersions.lock := by
  refine ⟨_, _, rfl, rfl, fun subgraph => ?_⟩
  let foo : LockedPackage Unit :=
    { name := "foo".toList, version := "1.0.0".toList, dependencies := some ["foo 2.0.0".toList], other := () }
  let other : LockedPackage Unit := { name := "foo".toList, version := "2.0.0".toList, other := () }
  have root : Selected twoVersions ["crates/foo".toList] foo :=
    ⟨List.mem_cons_self, rfl, _, List.mem_cons_self, ⟨"foo".toList, .text "1.0.0".toList⟩, rfl, rfl, rfl⟩
  have edge : Edge twoVersions.lock foo other := ⟨"foo 2.0.0".toList, List.mem_cons_self, resolves_of_resolve rfl⟩
  obtain ⟨-, -, directory, member, manifest, read, -, declared⟩ := subgraph.selected other ⟨foo, root, .single edge⟩ rfl
  cases List.mem_singleton.mp member
  cases read
  revert declared
  decide

end Pinrail.Import

import Mathlib.Data.List.Infix
import Mathlib.Data.List.Sort
import Pinrail.Lib.Assoc
import Pinrail.Lib.Loop
import Pinrail.Lib.Ranked

/-!
# Log filters

`filter.rs` of `zlog`. A string is the list of its characters, so that the order of strings is the
lexicographic one; the settings are listed in the order in which their map is iterated.
-/

namespace Pinrail.Zlog
open Lib

abbrev scopeDepthMax : Nat := 4

inductive Level where
  | error
  | warn
  | info
  | debug
  | trace
deriving DecidableEq

inductive LevelFilter where
  | off
  | error
  | warn
  | info
  | debug
  | trace
deriving DecidableEq

/-- `level as u8`. -/
def Level.toNat : Level → Nat
  | .error => 1
  | .warn => 2
  | .info => 3
  | .debug => 4
  | .trace => 5

/-- `level as u8`. -/
def LevelFilter.toNat : LevelFilter → Nat
  | .off => 0
  | .error => 1
  | .warn => 2
  | .info => 3
  | .debug => 4
  | .trace => 5

abbrev Scope := Vector Str scopeDepthMax

abbrev Scope.component (self : Scope) (depth : Fin scopeDepthMax) : Str := self[depth]

theorem scopeDepthMax_pos : 0 < scopeDepthMax := by decide

theorem one_lt_scopeDepthMax : 1 < scopeDepthMax := by decide

structure EnvFilter where
  levelGlobal : Option LevelFilter
  directiveNames : List Str
  directiveLevels : List LevelFilter
deriving DecidableEq

def levelFilterFromStr (levelStr : Str) : Option LevelFilter :=
  let lower := levelStr.map Char.toLower
  if lower = [] then some .trace
  else if lower = "trace".toList then some .trace
  else if lower = "debug".toList then some .debug
  else if lower = "info".toList then some .info
  else if lower = "warn".toList then some .warn
  else if lower = "error".toList then some .error
  else if lower = "off".toList then some .off
  else if lower ∈ ["disable".toList, "no".toList, "none".toList, "disabled".toList] then some .off
  else none

/-- The loop of `scope_alloc_from_scope_str` with `slots` components to go: the components it takes,
and the pieces it leaves in the iterator. -/
def fillScope : Nat → List Str → List Str × List Str
  | 0, pieces => ([], pieces)
  | _ + 1, [] => ([], [])
  | slots + 1, piece :: pieces =>
    if piece.isEmpty then fillScope (slots + 1) pieces
    else (piece :: (fillScope slots pieces).1, (fillScope slots pieces).2)

def scopeAllocFromScopeStr (scopeStr : Str) : Option Scope :=
  let (filled, unread) := fillScope scopeDepthMax (scopeStr.splitOn '.')
  if filled.isEmpty then none
  else if !unread.isEmpty then none
  else some (Vector.ofFn fun i => filled.getD i [])

/-- The crate name is what precedes the first `::`. -/
def extractCrateNameFromModulePath : Str → Str
  | ':' :: ':' :: _ => []
  | c :: rest => c :: extractCrateNameFromModulePath rest
  | [] => []

structure ScopeMapEntry where
  scope : Str
  enabled : Option LevelFilter
  descendants : Nat × Nat
deriving DecidableEq

structure ScopeMap where
  entries : List ScopeMapEntry
  modules : List (Str × LevelFilter)
  rootCount : Nat
deriving DecidableEq

inductive EnabledStatus where
  | enabled
  | disabled
  | notConfigured
deriving DecidableEq

abbrev Item := Scope × LevelFilter

/-- A range of `items` stands for the items in it, and `none` for the parent `usize::MAX`. -/
structure ProcessQueueEntry where
  parentIndex : Option Nat
  depth : Fin scopeDepthMax
  items : List Item

namespace ScopeMap

/-! ## Construction -/

def isModuleName (scopeStr : Str) : Bool := [':', ':'] <:+: scopeStr

def allFilters (itemsInputMap : List (Str × Str)) (envConfig : Option EnvFilter)
    (defaultFilters : List (Str × LevelFilter)) : List (Str × LevelFilter) :=
  defaultFilters ++
    (envConfig.elim [] fun env => env.directiveNames.zip env.directiveLevels) ++
      itemsInputMap.filterMap fun (scopeStr, levelStr) =>
        (levelFilterFromStr levelStr).map fun levelFilter => (scopeStr, levelFilter)

/-- One round of the loop over all filters, on `items` and `modules`. -/
def addFilter (lists : List Item × List (Str × LevelFilter)) (filter : Str × LevelFilter) :
    List Item × List (Str × LevelFilter) :=
  if isModuleName filter.1 then (lists.1, upsert filter.1 filter.2 lists.2)
  else
    match scopeAllocFromScopeStr filter.1 with
    | none => lists
    | some scope => (upsert scope filter.2 lists.1, lists.2)

structure Layout where
  entries : List ScopeMapEntry
  queue : List ProcessQueueEntry
  rootCount : Nat

/-- One run of items with the same component at `depth`. -/
def processRun (parentIndex : Option Nat) (depth : Fin scopeDepthMax) (layout : Layout)
    (first : Item) (same : List Item) : Except Panic Layout := do
  let scopeName := first.1.component depth
  if scopeName.isEmpty then
    assert (same.length = 0)
    assert (depth.val ≠ 0)
    match parentIndex with
    | none => throw .assertion
    | some parentIndex =>
      let entry ← index layout.entries parentIndex
      assert (entry.enabled = none)
      return { layout with
        entries := layout.entries.set parentIndex { entry with enabled := some first.2 } }
  else if deeper : depth.val + 1 < scopeDepthMax then
    return { layout with
      entries := layout.entries ++ [⟨scopeName, none, (0, 0)⟩]
      queue := layout.queue ++ [⟨some layout.entries.length, ⟨depth.val + 1, deeper⟩, first :: same⟩] }
  else
    assert (same.length = 0)
    return { layout with entries := layout.entries ++ [⟨scopeName, some first.2, (0, 0)⟩] }

/-- The loop over the items of one queue entry, `rest` being those from the cursor on. -/
def processItems (parentIndex : Option Nat) (depth : Fin scopeDepthMax) (items : List Item)
    (layout : Layout) : Except Panic Layout :=
  loop (fun s : List Item × Layout => s.1.length)
    (fun (rest, layout) => do
      match rest with
      | [] => return .inr layout
      | first :: others =>
        let same := others.takeWhile fun item => item.1.component depth = first.1.component depth
        return .inl (others.drop same.length, ← processRun parentIndex depth layout first same))
    (items, layout)

def processEntry (layout : Layout) (entry : ProcessQueueEntry) : Except Panic Layout := do
  let resEntriesStart := layout.entries.length
  let layout ← processItems entry.parentIndex entry.depth entry.items layout
  let resEntriesEnd := layout.entries.length
  match entry.parentIndex with
  | some parentIndex =>
    let parent ← index layout.entries parentIndex
    return { layout with
      entries := layout.entries.set parentIndex { parent with descendants := (resEntriesStart, resEntriesEnd) } }
  | none => return { layout with rootCount := resEntriesEnd }

def Layout.work (layout : Layout) : Nat :=
  (layout.queue.map fun entry => 1 + entry.items.length * (scopeDepthMax - entry.depth)).sum

def processQueue (layout : Layout) : Except Panic Layout :=
  loop Layout.work
    (fun layout => do
      match layout.queue with
      | [] => return .inr layout
      | entry :: queue => return .inl (← processEntry { layout with queue := queue } entry))
    layout

def sortItems (items : List Item) : List Item :=
  sortBy (fun a b => compare a.1.toList b.1.toList) items

def newFromSettingsAndEnv (itemsInputMap : List (Str × Str)) (envConfig : Option EnvFilter)
    (defaultFilters : List (Str × LevelFilter)) : Except Panic ScopeMap := do
  let (items, modules) := (allFilters itemsInputMap envConfig defaultFilters).foldl addFilter ([], [])
  let items := sortItems items
  let modules := sortBy (fun a b => compare a.1 b.1) modules
  let layout ← processQueue { entries := [], queue := [⟨none, 0, items⟩], rootCount := 0 }
  return { entries := layout.entries, modules := modules, rootCount := layout.rootCount }

def isEmpty (map : ScopeMap) : Bool := map.entries.isEmpty && map.modules.isEmpty

/-! ## Decisions -/

/-- The loop of `search` from the depth at which the components `scope` are to be read. -/
def searchFrom (map : ScopeMap) : List Str → List ScopeMapEntry → Option LevelFilter →
    Except Panic (Option LevelFilter)
  | [], _, enabled => return enabled
  | name :: scope, curRange, enabled =>
    if curRange.isEmpty || name.isEmpty then return enabled
    else
      match curRange.find? fun entry => entry.scope = name with
      | none => return enabled
      | some entry => do
        let curRange ← sliceRange map.entries entry.descendants.1 entry.descendants.2
        searchFrom map scope curRange (entry.enabled.or enabled)

def search (map : ScopeMap) (scope : Scope) : Except Panic (Option LevelFilter) := do
  searchFrom map scope.toList (← sliceRange map.entries 0 map.rootCount) none

/-- The scope of a crate, `crate_name_scope`. -/
def crateScope (crateName : Str) : Scope := Vector.ofFn fun i => if i.val = 0 then crateName else []

def searchCrate (map : ScopeMap) (scope : Scope) (crateName : Str) (enabled : Option LevelFilter) :
    Except Panic (Option LevelFilter) :=
  if enabled = none ∧ scope[0].isEmpty then search map (crateScope crateName) else .ok enabled

def consultModules (map : ScopeMap) (scope : Scope) (modulePath : Str)
    (enabled : Option LevelFilter) : Except Panic (Option LevelFilter) := do
  let crateName := extractCrateNameFromModulePath modulePath
  let enabled ← searchCrate map scope crateName enabled
  if enabled = none ∨ scope[0] = crateName ∧ scope[1].isEmpty then
    return ((map.modules.find? fun module => module.1 = modulePath).map Prod.snd).or enabled
  else
    return enabled

def statusOf (level : Level) : Option LevelFilter → EnabledStatus
  | none => .notConfigured
  | some filter => if level.toNat ≤ filter.toNat then .enabled else .disabled

def isEnabled (map : ScopeMap) (scope : Scope) (modulePath : Option Str) (level : Level) :
    Except Panic EnabledStatus := do
  let enabled ← search map scope
  match modulePath with
  | none => return statusOf level enabled
  | some modulePath => return statusOf level (← consultModules map scope modulePath enabled)

end ScopeMap

/-! ## Global state -/

structure Globals where
  envFilter : Option EnvFilter
  scopeMap : ScopeMap
  levelEnabledMaxStatic : Nat
  levelEnabledMaxConfig : Nat

def isPossiblyEnabledLevel (globals : Globals) (level : Level) : Bool :=
  level.toNat ≤ globals.levelEnabledMaxConfig

/-- The part of `is_scope_enabled` after the fast path. -/
def decideFromMap (globals : Globals) (scope : Scope) (modulePath : Option Str) (level : Level) :
    Except Panic Bool := do
  let isEnabledByDefault := decide (level.toNat ≤ globals.levelEnabledMaxStatic)
  if globals.scopeMap.isEmpty then return isEnabledByDefault
  match ← globals.scopeMap.isEnabled scope modulePath level with
  | .notConfigured => return isEnabledByDefault
  | .enabled => return true
  | .disabled => return false

def isScopeEnabled (globals : Globals) (scope : Scope) (modulePath : Option Str) (level : Level) :
    Except Panic Bool := do
  if !isPossiblyEnabledLevel globals level then return false
  decideFromMap globals scope modulePath level

/-- The maximum that `refresh_from_settings` caches. -/
def levelEnabledMax (levelStatic : Nat) (entries : List ScopeMapEntry) : Nat :=
  entries.foldl (fun levelMax entry => entry.enabled.elim levelMax fun level => max levelMax level.toNat) levelStatic

def refreshFromSettings (globals : Globals) (defaultFilters : List (Str × LevelFilter))
    (settings : List (Str × Str)) : Except Panic Globals := do
  let mapNew ← ScopeMap.newFromSettingsAndEnv settings globals.envFilter defaultFilters
  return { globals with
    levelEnabledMaxConfig := levelEnabledMax globals.levelEnabledMaxStatic mapNew.entries
    scopeMap := mapNew }

end Pinrail.Zlog

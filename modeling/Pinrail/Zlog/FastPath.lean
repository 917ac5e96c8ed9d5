import Pinrail.Zlog.Lookup

/-!
# The fast path of `is_scope_enabled`

The cached maximum is taken over the levels of the scope entries. The module filters are not part of
it, so that the fast path drops what only a module filter enables.
-/

namespace Pinrail.Zlog
open Lib ScopeMap

variable {filters : List (Str × LevelFilter)} {scope : Scope} {level : Level}

def scopeFilter (filters : List (Str × LevelFilter)) (scope : Scope) (modulePath : Str) :
    Option LevelFilter :=
  if longestPrefix filters scope = none ∧ (getElem scope 0 scopeDepthMax_pos).isEmpty then
    longestPrefix filters (crateScope (extractCrateNameFromModulePath modulePath))
  else longestPrefix filters scope

def ModuleDecides (filters : List (Str × LevelFilter)) (scope : Scope) (modulePath : Str) : Prop :=
  scopeFilter filters scope modulePath = none ∨
    getElem scope 0 scopeDepthMax_pos = extractCrateNameFromModulePath modulePath ∧ (getElem scope 1 one_lt_scopeDepthMax).isEmpty

instance (filters : List (Str × LevelFilter)) (scope : Scope) (modulePath : Str) :
    Decidable (ModuleDecides filters scope modulePath) :=
  inferInstanceAs (Decidable (_ ∨ _))

/-- The message is more verbose than the default and than every scope filter, and the filter of its
module, which takes effect, admits it. -/
def OnlyModuleEnables (filters : List (Str × LevelFilter)) (levelStatic : Nat) (scope : Scope)
    (modulePath : Option Str) (level : Level) : Prop :=
  levelStatic < level.toNat ∧ (∀ other filter, configured filters other = some filter → filter.toNat < level.toNat) ∧
    ∃ path filter, modulePath = some path ∧ configuredModule filters path = some filter ∧
      level.toNat ≤ filter.toNat ∧ ModuleDecides filters scope path

/-! ## The cached maximum -/

theorem le_levelEnabledMax {levelStatic n : Nat} {entries : List ScopeMapEntry} :
    n ≤ levelEnabledMax levelStatic entries ↔ n ≤ levelStatic ∨ ∃ filter : LevelFilter,
    (∃ entry ∈ entries, entry.enabled = some filter) ∧ n ≤ filter.toNat := by
  unfold levelEnabledMax
  induction entries generalizing levelStatic with
  | nil => simp
  | cons entry entries ih =>
    rw [List.foldl_cons, ih]
    cases enabled : entry.enabled with
    | none => simp [enabled]
    | some filter =>
      simp only [Option.elim_some, List.mem_cons, exists_eq_or_imp, enabled, Option.some.injEq]
      constructor
      · rintro (low | ⟨other, member, low⟩)
        · rcases Nat.le_total levelStatic filter.toNat with order | order
          · rw [Nat.max_eq_right order] at low
            exact .inr ⟨filter, .inl rfl, low⟩
          · rw [Nat.max_eq_left order] at low
            exact .inl low
        · exact .inr ⟨other, .inr member, low⟩
      · rintro (low | ⟨other, rfl | member, low⟩)
        · exact .inl (Nat.le_trans low (Nat.le_max_left _ _))
        · exact .inl (Nat.le_trans low (Nat.le_max_right _ _))
        · exact .inr ⟨other, member, low⟩

/-! ## The slow decision -/

def effectiveFilter (filters : List (Str × LevelFilter)) (scope : Scope) :
    Option Str → Option LevelFilter
  | none => longestPrefix filters scope
  | some modulePath =>
    if ModuleDecides filters scope modulePath then
      (configuredModule filters modulePath).or (scopeFilter filters scope modulePath)
    else scopeFilter filters scope modulePath

theorem isEnabled_eq {map : ScopeMap} (searched : ∀ scope, search map scope = .ok (longestPrefix filters scope))
    (modules : ∀ modulePath, valueOf modulePath map.modules = configuredModule filters modulePath)
    (scope : Scope) (modulePath : Option Str) (level : Level) :
    isEnabled map scope modulePath level = .ok (statusOf level (effectiveFilter filters scope modulePath)) := by
  rw [isEnabled, searched, ok_bind]
  cases modulePath with
  | none => rfl
  | some path =>
    have consulted : consultModules map scope path (longestPrefix filters scope) =
        .ok (effectiveFilter filters scope (some path)) := by
      have first : searchCrate map scope (extractCrateNameFromModulePath path)
          (longestPrefix filters scope) = .ok (scopeFilter filters scope path) := by
        rw [searchCrate, scopeFilter, searched]
        split_ifs <;> rfl
      have found : (map.modules.find? fun module => module.1 = path).map Prod.snd =
          configuredModule filters path := modules path
      rw [consultModules, first, ok_bind, found, effectiveFilter]
      by_cases decides : ModuleDecides filters scope path
      · rw [if_pos decides]
        exact if_pos decides
      · rw [if_neg decides]
        exact if_neg decides
    simp only [consulted, ok_bind]
    rfl

theorem exists_configured {filter : LevelFilter} (found : longestPrefix filters scope = some filter) :
    ∃ other, configured filters other = some filter := by
  obtain ⟨path, -, at_⟩ := List.exists_of_findSome?_eq_some found
  exact ⟨pad path, at_⟩

theorem scopeFilter_configured {modulePath : Str} {filter : LevelFilter}
    (found : scopeFilter filters scope modulePath = some filter) : ∃ other, configured filters other = some filter := by
  unfold scopeFilter at found
  split_ifs at found
  · exact exists_configured found
  · exact exists_configured found

theorem effectiveFilter_admits {modulePath : Option Str}
    (low : ∀ other filter, configured filters other = some filter → filter.toNat < level.toNat) :
    (∃ filter, effectiveFilter filters scope modulePath = some filter ∧ level.toNat ≤ filter.toNat) ↔ ∃ path filter,
    modulePath = some path ∧ configuredModule filters path = some filter ∧ level.toNat ≤ filter.toNat ∧
    ModuleDecides filters scope path := by
  constructor
  · rintro ⟨filter, found, admits⟩
    have never : ¬ ∃ other, configured filters other = some filter := by
      rintro ⟨other, configured⟩
      have := low other filter configured
      omega
    cases modulePath with
    | none => exact absurd (exists_configured found) never
    | some path =>
      rw [effectiveFilter] at found
      split_ifs at found with decides
      · cases module : configuredModule filters path with
        | none =>
          rw [module] at found
          exact absurd (scopeFilter_configured found) never
        | some own =>
          rw [module, Option.some_or] at found
          obtain rfl := Option.some.inj found
          exact ⟨path, own, rfl, module, admits, decides⟩
      · exact absurd (scopeFilter_configured found) never
  · rintro ⟨path, filter, rfl, module, admits, decides⟩
    refine ⟨filter, ?_, admits⟩
    rw [effectiveFilter, if_pos decides, module]
    rfl

theorem decideFromMap_eq (globals : Globals)
    (searched : ∀ scope, search globals.scopeMap scope = .ok (longestPrefix filters scope))
    (modules : ∀ modulePath, valueOf modulePath globals.scopeMap.modules = configuredModule filters modulePath)
    (levels : ∀ filter, (∃ entry ∈ globals.scopeMap.entries, entry.enabled = some filter) ↔
      ∃ scope, configured filters scope = some filter)
    (scope : Scope) (modulePath : Option Str) (above : globals.levelEnabledMaxStatic < level.toNat) :
    ∃ decision, decideFromMap globals scope modulePath level = .ok decision ∧
      (decision = true ↔ ∃ filter, effectiveFilter filters scope modulePath = some filter ∧
        level.toNat ≤ filter.toNat) := by
  have default : decide (level.toNat ≤ globals.levelEnabledMaxStatic) = false := by
    simpa using above
  unfold decideFromMap
  rw [default]
  by_cases empty : globals.scopeMap.isEmpty
  · rw [if_pos empty]
    refine ⟨false, rfl, ?_⟩
    obtain ⟨noEntries, noModules⟩ : globals.scopeMap.entries = [] ∧ globals.scopeMap.modules = [] := by
      simpa [ScopeMap.isEmpty] using empty
    have low : ∀ other filter, configured filters other = some filter → filter.toNat < level.toNat := by
      intro other filter found
      obtain ⟨entry, member, -⟩ := (levels filter).mpr ⟨other, found⟩
      rw [noEntries] at member
      cases member
    rw [effectiveFilter_admits low]
    constructor
    · intro enabled
      cases enabled
    · rintro ⟨path, filter, -, found, -⟩
      rw [← modules, noModules] at found
      cases found
  · rw [if_neg empty, isEnabled_eq searched modules]
    cases effectiveFilter filters scope modulePath with
    | none => exact ⟨false, rfl, by simp⟩
    | some filter =>
      by_cases admits : level.toNat ≤ filter.toNat
      · rw [statusOf, if_pos admits]
        exact ⟨true, rfl, by simp [admits]⟩
      · rw [statusOf, if_neg admits]
        exact ⟨false, rfl, by simp [admits]⟩

/-! ## The fast path -/

/-- The fast path agrees with the slow decision on a message exactly where no module filter is all
that enables it. -/
theorem isScopeEnabled_eq_decideFromMap_iff (globals : Globals)
    (defaultFilters : List (Str × LevelFilter)) (settings : List (Str × Str)) :
    ∃ after, refreshFromSettings globals defaultFilters settings = .ok after ∧ ∀ scope modulePath level,
        isScopeEnabled after scope modulePath level = decideFromMap after scope modulePath level ↔
          ¬ OnlyModuleEnables (allFilters settings globals.envFilter defaultFilters)
            globals.levelEnabledMaxStatic scope modulePath level := by
  obtain ⟨map, returned, searched, modules, levels⟩ :=
    newFromSettingsAndEnv_returns settings globals.envFilter defaultFilters
  rw [refreshFromSettings, returned]
  refine ⟨_, rfl, ?_⟩
  intro scope modulePath level
  have cached : level.toNat ≤ levelEnabledMax globals.levelEnabledMaxStatic map.entries ↔ _ := le_levelEnabledMax
  unfold isScopeEnabled isPossiblyEnabledLevel
  by_cases possible : level.toNat ≤ levelEnabledMax globals.levelEnabledMaxStatic map.entries
  · simp only [possible, decide_true, Bool.not_true, Bool.false_eq_true, if_false, true_iff]
    rintro ⟨above, low, -⟩
    rcases cached.mp possible with within | ⟨filter, enabled, within⟩
    · omega
    · obtain ⟨other, found⟩ := (levels filter).mp enabled
      have := low other filter found
      omega
  · have low : ∀ other filter, configured (allFilters settings globals.envFilter defaultFilters) other = some filter →
          filter.toNat < level.toNat := by
      intro other filter found
      by_contra high
      exact possible (cached.mpr (.inr ⟨filter, (levels filter).mpr ⟨other, found⟩, by omega⟩))
    have above : globals.levelEnabledMaxStatic < level.toNat := by
      by_contra high
      exact possible (cached.mpr (.inl (by omega)))
    obtain ⟨decision, decided, enables⟩ := decideFromMap_eq
      { globals with
        levelEnabledMaxConfig := levelEnabledMax globals.levelEnabledMaxStatic map.entries
        scopeMap := map } searched modules levels scope modulePath above
    rw [effectiveFilter_admits low] at enables
    simp only [possible, decide_false, Bool.not_false, if_true, decided]
    constructor
    · rintro same ⟨-, -, only⟩
      have dropped : false = decision := by
        injection same
      rw [← dropped] at enables
      exact absurd (enables.mpr only) Bool.false_ne_true
    · intro never
      cases decision with
      | false => rfl
      | true => exact absurd ⟨above, low, enables.mp rfl⟩ never

/-- With `a::b` set to `trace`, a trace message of that module is dropped, although the map enables
it. -/
theorem isScopeEnabled_drops_module_trace : ∃ after,
    refreshFromSettings ⟨none, ⟨[], [], 0⟩, LevelFilter.info.toNat, LevelFilter.info.toNat⟩ []
      [("a::b".toList, "trace".toList)] = .ok after ∧
      isScopeEnabled after (crateScope ['a']) (some "a::b".toList) .trace = .ok false ∧
      decideFromMap after (crateScope ['a']) (some "a::b".toList) .trace = .ok true :=
  ⟨_, rfl, by decide, by decide⟩

end Pinrail.Zlog

import Pinrail.Zlog.FastPath

/-!
# The order of the settings map

A hash map is iterated in no fixed order, and a later filter for a scope takes the place of an
earlier one. The map that is built depends on the order when two keys name one scope.
-/

namespace Pinrail.Zlog
open Lib ScopeMap

structure Settings where
  entries : List (Str × Str)
  distinct : (entries.map Prod.fst).Nodup

def acceptedSettings (entries : List (Str × Str)) : List (Str × LevelFilter) :=
  entries.filterMap fun (scopeStr, levelStr) =>
    (levelFilterFromStr levelStr).map fun levelFilter => (scopeStr, levelFilter)

def OrderIndependent (settings : Settings) (envConfig : Option EnvFilter)
    (defaultFilters : List (Str × LevelFilter)) : Prop :=
  ∀ first second, first.Perm settings.entries → second.Perm settings.entries → ∃ mapFirst mapSecond,
      newFromSettingsAndEnv first envConfig defaultFilters = .ok mapFirst ∧
      newFromSettingsAndEnv second envConfig defaultFilters = .ok mapSecond ∧
      ∀ scope modulePath level, isEnabled mapFirst scope modulePath level = isEnabled mapSecond scope modulePath level

def LevelsAgree (settings : Settings) : Prop :=
  ∀ scope, ∀ first ∈ acceptedSettings settings.entries, ∀ second ∈ acceptedSettings settings.entries,
    scopeOf first.1 = some scope → scopeOf second.1 = some scope → first.2 = second.2

variable {filters others : List (Str × LevelFilter)} {settings : Settings}
  {envConfig : Option EnvFilter} {defaultFilters : List (Str × LevelFilter)}

/-! ## What decides -/

theorem configured_append (filters others : List (Str × LevelFilter)) (scope : Scope) :
    configured (filters ++ others) scope = (configured others scope).or (configured filters scope) := by
  induction others using List.reverseRecOn with
  | nil => simp [configured]
  | append_singleton others filter ih =>
    rw [← List.append_assoc, configured_concat, configured_concat, ih]
    split_ifs <;> rfl

theorem configuredModule_append (filters others : List (Str × LevelFilter)) (modulePath : Str) :
    configuredModule (filters ++ others) modulePath =
      (configuredModule others modulePath).or (configuredModule filters modulePath) := by
  induction others using List.reverseRecOn with
  | nil => simp [configuredModule]
  | append_singleton others filter ih =>
    rw [← List.append_assoc, configuredModule_concat, configuredModule_concat, ih]
    split_ifs <;> rfl

theorem effectiveFilter_congr (scopes : configured filters = configured others)
    (modules : configuredModule filters = configuredModule others) :
    effectiveFilter filters = effectiveFilter others := by
  have longest : longestPrefix filters = longestPrefix others := by
    funext scope
    rw [longestPrefix, longestPrefix, scopes]
  have found : scopeFilter filters = scopeFilter others := by
    funext scope modulePath
    rw [scopeFilter, scopeFilter, longest]
  funext scope modulePath
  cases modulePath with
  | none => exact congrFun longest scope
  | some path =>
    have decides : ModuleDecides filters scope path ↔ ModuleDecides others scope path := by
      rw [ModuleDecides, ModuleDecides, found]
    rw [effectiveFilter, effectiveFilter, modules, found]
    exact if_congr decides rfl rfl

theorem find_reverse_perm {hit : Str × LevelFilter → Bool}
    (agree : ∀ first ∈ filters, ∀ second ∈ filters, hit first = true → hit second = true → first.2 = second.2)
    (perm : others.Perm filters) :
    (others.reverse.find? hit).map Prod.snd = (filters.reverse.find? hit).map Prod.snd := by
  have member : ∀ filter, filter ∈ others.reverse ↔ filter ∈ filters.reverse := by
    intro filter
    rw [List.mem_reverse, List.mem_reverse, perm.mem_iff]
  cases first : others.reverse.find? hit with
  | none =>
    have none : filters.reverse.find? hit = none := by
      rw [List.find?_eq_none] at first ⊢
      exact fun filter within => first filter ((member filter).mpr within)
    rw [none]
  | some one =>
    have oneHit := List.find?_some first
    have oneMember := (member one).mp (List.mem_of_find?_eq_some first)
    cases second : filters.reverse.find? hit with
    | none => exact absurd oneHit (List.find?_eq_none.mp second one oneMember)
    | some two =>
      have same := agree one (List.mem_reverse.mp oneMember) two
        (List.mem_reverse.mp (List.mem_of_find?_eq_some second)) oneHit (List.find?_some second)
      exact congrArg some same

theorem accepted_perm {first second : List (Str × Str)} (perm : first.Perm second) :
    (acceptedSettings first).Perm (acceptedSettings second) := perm.filterMap _

theorem accepted_key_sublist (entries : List (Str × Str)) :
    ((acceptedSettings entries).map Prod.fst).Sublist (entries.map Prod.fst) := by
  induction entries with
  | nil => exact List.Sublist.slnil
  | cons entry entries ih =>
    obtain ⟨scopeStr, levelStr⟩ := entry
    cases accepted : levelFilterFromStr levelStr with
    | none =>
      have skipped : acceptedSettings ((scopeStr, levelStr) :: entries) =
          acceptedSettings entries := List.filterMap_cons_none (by simp [accepted])
      rw [skipped]
      exact ih.cons scopeStr
    | some levelFilter =>
      have kept : acceptedSettings ((scopeStr, levelStr) :: entries) =
          (scopeStr, levelFilter) :: acceptedSettings entries :=
        List.filterMap_cons_some (by simp [accepted])
      rw [kept]
      exact ih.cons_cons scopeStr

theorem accepted_key_eq {first second : Str × LevelFilter} (firstMember : first ∈ acceptedSettings settings.entries)
    (secondMember : second ∈ acceptedSettings settings.entries) (key : first.1 = second.1) : first.2 = second.2 := by
  have nodup := (accepted_key_sublist settings.entries).nodup settings.distinct
  have one := valueOf_of_mem nodup firstMember
  have two := valueOf_of_mem nodup secondMember
  rw [key, two] at one
  exact (Option.some.inj one).symm

/-! ## Any order -/

theorem allFilters_eq (entries : List (Str × Str)) (envConfig : Option EnvFilter)
    (defaultFilters : List (Str × LevelFilter)) :
    allFilters entries envConfig defaultFilters =
      allFilters [] envConfig defaultFilters ++ acceptedSettings entries := by
  simp only [allFilters, List.filterMap_nil, List.append_nil]
  rfl

theorem orderIndependent_of_agree (agree : LevelsAgree settings) :
    OrderIndependent settings envConfig defaultFilters := by
  intro first second permFirst permSecond
  obtain ⟨mapFirst, builtFirst, searchedFirst, modulesFirst, -⟩ :=
    newFromSettingsAndEnv_returns first envConfig defaultFilters
  obtain ⟨mapSecond, builtSecond, searchedSecond, modulesSecond, -⟩ :=
    newFromSettingsAndEnv_returns second envConfig defaultFilters
  have scopes : ∀ entries, entries.Perm settings.entries → configured (allFilters entries envConfig defaultFilters) =
        configured (allFilters settings.entries envConfig defaultFilters) := by
    intro entries perm
    funext scope
    rw [allFilters_eq, allFilters_eq settings.entries, configured_append, configured_append]
    have same : configured (acceptedSettings entries) scope = configured (acceptedSettings settings.entries) scope := by
      apply find_reverse_perm
      · intro one oneMember two twoMember oneHit twoHit
        exact agree scope one oneMember two twoMember (of_decide_eq_true oneHit) (of_decide_eq_true twoHit)
      · exact accepted_perm perm
    rw [same]
  have modules : ∀ entries, entries.Perm settings.entries →
      configuredModule (allFilters entries envConfig defaultFilters) =
        configuredModule (allFilters settings.entries envConfig defaultFilters) := by
    intro entries perm
    funext modulePath
    rw [allFilters_eq, allFilters_eq settings.entries, configuredModule_append, configuredModule_append]
    have same : configuredModule (acceptedSettings entries) modulePath =
        configuredModule (acceptedSettings settings.entries) modulePath := by
      apply find_reverse_perm
      · intro one oneMember two twoMember oneHit twoHit
        have key := (of_decide_eq_true oneHit).2.trans (of_decide_eq_true twoHit).2.symm
        exact accepted_key_eq oneMember twoMember key
      · exact accepted_perm perm
    rw [same]
  refine ⟨mapFirst, mapSecond, builtFirst, builtSecond, fun scope modulePath level => ?_⟩
  rw [isEnabled_eq searchedFirst modulesFirst, isEnabled_eq searchedSecond modulesSecond,
    effectiveFilter_congr ((scopes first permFirst).trans (scopes second permSecond).symm)
      ((modules first permFirst).trans (modules second permSecond).symm)]

/-! ## Two keys for one scope -/

theorem longestPrefix_of_configured {scope : Scope} {filter : LevelFilter} (padded : pad (components scope) = scope)
    (found : configured filters scope = some filter) : longestPrefix filters scope = some filter := by
  have last : ∃ init, (components scope).inits = init ++ [components scope] := by
    rcases List.eq_nil_or_concat' (components scope) with empty | ⟨init, name, eq⟩
    · exact ⟨[], by rw [empty]; rfl⟩
    · exact ⟨init.inits, by rw [eq]; simp [List.inits_append]⟩
  obtain ⟨init, eq⟩ := last
  rw [longestPrefix, eq, List.reverse_append, List.reverse_singleton, List.singleton_append,
    List.findSome?_cons, padded, found]

theorem isEnabled_of_last {entries : List (Str × Str)} {scopeStr levelStr : Str} {scope : Scope} {filter : LevelFilter}
    (named : scopeOf scopeStr = some scope) (accepted : levelFilterFromStr levelStr = some filter) {map : ScopeMap}
    (built : newFromSettingsAndEnv (entries ++ [(scopeStr, levelStr)]) envConfig defaultFilters = .ok map)
    (level : Level) : isEnabled map scope none level = .ok (statusOf level (some filter)) := by
  obtain ⟨map', built', searched, modules, -⟩ :=
    newFromSettingsAndEnv_returns (entries ++ [(scopeStr, levelStr)]) envConfig defaultFilters
  rw [built] at built'
  cases built'
  have last : acceptedSettings (entries ++ [(scopeStr, levelStr)]) =
      acceptedSettings entries ++ [(scopeStr, filter)] := by
    simp [acceptedSettings, accepted]
  have found : configured (allFilters (entries ++ [(scopeStr, levelStr)]) envConfig defaultFilters)
      scope = some filter := by
    rw [allFilters_eq, last, ← List.append_assoc, configured_concat, if_pos named]
  have padded : pad (components scope) = scope := by
    rw [scopeOf] at named
    split_ifs at named
    exact (scopeAlloc_spec named).1
  rw [isEnabled_eq searched modules, effectiveFilter, longestPrefix_of_configured padded found]

theorem statusOf_injective {first second : LevelFilter}
    (same : ∀ level, statusOf level (some first) = statusOf level (some second)) : first = second := by
  have admits : ∀ level : Level, level.toNat ≤ first.toNat ↔ level.toNat ≤ second.toNat := by
    intro level
    have here := same level
    rw [statusOf, statusOf] at here
    split_ifs at here with one two two
    · exact iff_of_true one two
    · exact iff_of_false one two
  have error := admits .error
  have warn := admits .warn
  have info := admits .info
  have debug := admits .debug
  have trace := admits .trace
  cases first <;> cases second <;> simp_all [Level.toNat, LevelFilter.toNat]

theorem agree_of_orderIndependent (fixed : OrderIndependent settings envConfig defaultFilters) :
    LevelsAgree settings := by
  intro scope first firstMember second secondMember firstNamed secondNamed
  -- Each of the two settings can be iterated last.
  have atEnd : ∀ filter ∈ acceptedSettings settings.entries, ∃ entries levelStr,
      (entries ++ [(filter.1, levelStr)]).Perm settings.entries ∧ levelFilterFromStr levelStr = some filter.2 := by
    intro filter member
    obtain ⟨entry, within, eq⟩ := List.mem_filterMap.mp member
    obtain ⟨level, accepted, rfl⟩ := Option.map_eq_some_iff.mp eq
    refine ⟨settings.entries.erase entry, entry.2, ?_, accepted⟩
    exact (List.perm_append_singleton _ _).trans (List.perm_cons_erase within).symm
  obtain ⟨firstEntries, firstLevel, firstPerm, firstAccepted⟩ := atEnd first firstMember
  obtain ⟨secondEntries, secondLevel, secondPerm, secondAccepted⟩ := atEnd second secondMember
  obtain ⟨mapFirst, mapSecond, builtFirst, builtSecond, same⟩ := fixed _ _ firstPerm secondPerm
  apply statusOf_injective
  intro level
  have status := same scope none level
  rw [isEnabled_of_last firstNamed firstAccepted builtFirst,
    isEnabled_of_last secondNamed secondAccepted builtSecond] at status
  exact Except.ok.inj status

/-- The order of the settings does not matter exactly when keys that name one scope agree. -/
theorem orderIndependent_iff (settings : Settings) (envConfig : Option EnvFilter)
    (defaultFilters : List (Str × LevelFilter)) :
    OrderIndependent settings envConfig defaultFilters ↔ LevelsAgree settings :=
  ⟨agree_of_orderIndependent, orderIndependent_of_agree⟩

/-- The scope `a`, turned off by one key and traced by another. -/
def twoKeys : Settings where
  entries := [("a".toList, "off".toList), ("a.".toList, "trace".toList)]
  distinct := by decide

theorem twoKeys_depends : ¬ OrderIndependent twoKeys none [] := by
  intro fixed
  have same := agree_of_orderIndependent fixed (crateScope ['a']) ("a".toList, .off) (by decide)
    ("a.".toList, .trace) (by decide) (by decide) (by decide)
  cases same

end Pinrail.Zlog

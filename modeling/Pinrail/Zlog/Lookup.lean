import Pinrail.Zlog.Table

/-!
# Lookups in a scope map

The table answers as the flat list of filters does: of the prefixes of a scope, the longest that is
configured decides, by the last filter that configures it.
-/

namespace Pinrail.Zlog.ScopeMap
open Lib

/-! ## The flat specification -/

def scopeOf (scopeStr : Str) : Option Scope :=
  if isModuleName scopeStr then none else scopeAllocFromScopeStr scopeStr

def configured (filters : List (Str × LevelFilter)) (scope : Scope) : Option LevelFilter :=
  (filters.reverse.find? fun filter => scopeOf filter.1 = some scope).map Prod.snd

def configuredModule (filters : List (Str × LevelFilter)) (modulePath : Str) : Option LevelFilter :=
  (filters.reverse.find? fun filter => isModuleName filter.1 ∧ filter.1 = modulePath).map Prod.snd

def longestPrefix (filters : List (Str × LevelFilter)) (scope : Scope) : Option LevelFilter :=
  (components scope).inits.reverse.findSome? fun path => configured filters (pad path)

def flatStatus (filters : List (Str × LevelFilter)) (scope : Scope) (level : Level) :
    EnabledStatus :=
  match longestPrefix filters scope with
  | none => .notConfigured
  | some filter => if level.toNat ≤ filter.toNat then .enabled else .disabled

/-! ## Collecting the filters -/

theorem fillScope_spec (slots : Nat) (pieces : List Str) :
    (fillScope slots pieces).1.length ≤ slots ∧ ∀ name ∈ (fillScope slots pieces).1, name ≠ [] := by
  induction pieces generalizing slots with
  | nil => cases slots <;> simp [fillScope]
  | cons piece pieces ih =>
    cases slots with
    | zero => simp [fillScope]
    | succ slots =>
      rw [fillScope]
      split_ifs with empty
      · exact ih (slots + 1)
      · refine ⟨Nat.succ_le_succ (ih slots).1, ?_⟩
        intro name member
        rcases List.mem_cons.mp member with rfl | member
        · simpa using empty
        · exact (ih slots).2 name member

theorem scopeAlloc_spec {scopeStr : Str} {scope : Scope} (parsed : scopeAllocFromScopeStr scopeStr = some scope) :
    pad (components scope) = scope ∧ components scope ≠ [] := by
  have filled := fillScope_spec scopeDepthMax (scopeStr.splitOn '.')
  simp only [scopeAllocFromScopeStr] at parsed
  split_ifs at parsed with empty unread
  cases parsed
  have same : components (pad (fillScope scopeDepthMax (scopeStr.splitOn '.')).1) = _ :=
    components_pad ⟨filled.1, filled.2⟩
  change pad (components (pad _)) = pad _ ∧ components (pad _) ≠ []
  rw [same]
  exact ⟨rfl, by simpa using empty⟩

/-- What `items` and `modules` hold after the filters. -/
structure Collected (filters : List (Str × LevelFilter))
    (lists : List Item × List (Str × LevelFilter)) : Prop where
  padded : ∀ item ∈ lists.1, pad (components item.1) = item.1 ∧ components item.1 ≠ []
  nodup : (lists.1.map Prod.fst).Nodup
  scopes : ∀ scope, valueOf scope lists.1 = configured filters scope
  modules_nodup : (lists.2.map Prod.fst).Nodup
  modules : ∀ modulePath, valueOf modulePath lists.2 = configuredModule filters modulePath

variable {filters : List (Str × LevelFilter)} {lists : List Item × List (Str × LevelFilter)}

theorem configured_concat (filters : List (Str × LevelFilter)) (filter : Str × LevelFilter)
    (scope : Scope) : configured (filters ++ [filter]) scope =
      if scopeOf filter.1 = some scope then some filter.2 else configured filters scope := by
  rw [configured, List.reverse_append, List.reverse_singleton, List.singleton_append, List.find?_cons]
  split <;> rename_i hit
  · rw [if_pos (of_decide_eq_true hit)]
    rfl
  · rw [if_neg (of_decide_eq_false hit)]
    rfl

theorem configuredModule_concat (filters : List (Str × LevelFilter)) (filter : Str × LevelFilter)
    (modulePath : Str) : configuredModule (filters ++ [filter]) modulePath =
      if isModuleName filter.1 ∧ filter.1 = modulePath then some filter.2
      else configuredModule filters modulePath := by
  rw [configuredModule, List.reverse_append, List.reverse_singleton, List.singleton_append, List.find?_cons]
  split <;> rename_i hit
  · rw [if_pos (of_decide_eq_true hit)]
    rfl
  · rw [if_neg (of_decide_eq_false hit)]
    rfl

theorem Collected.addFilter (collected : Collected filters lists) (filter : Str × LevelFilter) :
    Collected (filters ++ [filter]) (addFilter lists filter) := by
  unfold ScopeMap.addFilter
  split_ifs with module
  · refine { collected with scopes := ?_, modules_nodup := ?_, modules := ?_ }
    · intro scope
      rw [configured_concat, if_neg (by simp [scopeOf, module])]
      exact collected.scopes scope
    · exact nodup_keys_upsert collected.modules_nodup
    · intro modulePath
      rw [configuredModule_concat, valueOf_upsert, collected.modules]
      simp [module]
  · have modules : ∀ modulePath, valueOf modulePath lists.2 = configuredModule (filters ++ [filter]) modulePath := by
      intro modulePath
      rw [configuredModule_concat, if_neg (by simp [module])]
      exact collected.modules modulePath
    cases parsed : scopeAllocFromScopeStr filter.1 with
    | none =>
      refine { collected with scopes := ?_, modules := modules }
      intro scope
      rw [configured_concat, if_neg (by simp [scopeOf, module, parsed])]
      exact collected.scopes scope
    | some scope =>
      refine { collected with padded := ?_, nodup := ?_, scopes := ?_, modules := modules }
      · intro item member
        rcases mem_keys_upsert.mp (List.mem_map_of_mem member) with same | old
        · rw [same]
          exact scopeAlloc_spec parsed
        · obtain ⟨other, within, same⟩ := List.mem_map.mp old
          rw [← same]
          exact collected.padded other within
      · exact nodup_keys_upsert collected.nodup
      · intro other
        rw [configured_concat, valueOf_upsert, collected.scopes]
        simp [scopeOf, module, parsed]

theorem collected_foldl (filters : List (Str × LevelFilter)) :
    Collected filters (filters.foldl addFilter ([], [])) := by
  induction filters using List.reverseRecOn with
  | nil => exact ⟨by simp, by simp, fun _ => rfl, by simp, fun _ => rfl⟩
  | append_singleton filters filter ih =>
    rw [List.foldl_append]
    exact ih.addFilter filter

theorem Collected.rows (collected : Collected filters lists) : Rows (sortItems lists.1) := by
  have perm : (sortItems lists.1).Perm lists.1 := perm_sortBy
  refine ⟨?_, ?_, ?_, ?_⟩
  · intro item member
    exact (collected.padded item (perm.mem_iff.mp member)).1
  · intro item member
    exact (collected.padded item (perm.mem_iff.mp member)).2
  · exact (perm.map Prod.fst).nodup_iff.mpr collected.nodup
  · refine sorted_sortBy (fun a b => ?_) fun a b c => Std.TransCmp.isLE_trans
    cases order : compare a.1.toList b.1.toList with
    | lt => exact .inl rfl
    | eq => exact .inl rfl
    | gt =>
      right
      rw [Std.OrientedCmp.lt_of_gt order]
      rfl

/-! ## Searching the table -/

def longest (items : List Item) (path : List Str) : Option LevelFilter :=
  path.inits.reverse.findSome? (levelAt items)

variable {items : List Item} {paths : List (List Str)} {layout : Layout} {path : List Str}

theorem longest_concat (name : Str) :
    longest items (path ++ [name]) = (levelAt items (path ++ [name])).or (longest items path) := by
  have cut : (path ++ [name]).inits = path.inits ++ [path ++ [name]] := by
    simp [List.inits_append]
  rw [longest, cut, List.reverse_append, List.reverse_singleton, List.singleton_append, List.findSome?_cons]
  cases levelAt items (path ++ [name]) <;> rfl

theorem longest_append_of_under_eq_nil {name : Str} {names : List Str} (valid : IsPath (path ++ name :: names))
    (empty : under (path ++ [name]) items = []) : longest items (path ++ name :: names) = longest items path := by
  have none_at : ∀ tail, tail <+: names → levelAt items (path ++ name :: tail) = none := by
    rintro tail ⟨more, rfl⟩
    cases found : levelAt items (path ++ name :: tail) with
    | none => rfl
    | some level =>
      have short : IsPath (path ++ name :: tail) := by
        refine ⟨?_, fun other member => valid.nonempty other ?_⟩
        · have fits := valid.fits
          simp only [List.length_append, List.length_cons] at fits ⊢
          omega
        · simp only [List.mem_append, List.mem_cons] at member ⊢
          tauto
      obtain ⟨within, below⟩ := mem_under.mp (mem_under_pad short found)
      have member : (pad (path ++ name :: tail), level) ∈ under (path ++ [name]) items :=
        mem_under.mpr ⟨within, List.IsPrefix.trans ⟨tail, by simp⟩ below⟩
      rw [empty] at member
      cases member
  clear valid
  induction names using List.reverseRecOn with
  | nil =>
    rw [longest_concat, none_at [] List.prefix_rfl]
    rfl
  | append_singleton names other ih =>
    have split : path ++ name :: (names ++ [other]) = (path ++ name :: names) ++ [other] := by simp
    rw [split, longest_concat, ← split, none_at _ List.prefix_rfl, Option.none_or]
    exact ih fun tail start => none_at tail (start.trans (List.prefix_append _ _))

theorem searchFrom_takeWhile (map : ScopeMap) (scope : List Str) (curRange : List ScopeMapEntry)
    (enabled : Option LevelFilter) :
    searchFrom map scope curRange enabled =
      searchFrom map (scope.takeWhile fun name => !name.isEmpty) curRange enabled := by
  induction scope generalizing curRange enabled with
  | nil => rfl
  | cons name scope ih =>
    by_cases empty : name.isEmpty
    · rw [List.takeWhile_cons_of_neg (by simpa using empty), searchFrom, searchFrom, if_pos (by simp [empty])]
    · rw [List.takeWhile_cons_of_pos (by simpa using empty), searchFrom, searchFrom]
      simp only [ih]

theorem mem_slice {entries : List ScopeMapEntry} {range : Nat × Nat} {entry : ScopeMapEntry} :
    entry ∈ (entries.take range.2).drop range.1 ↔ ∃ j, range.1 ≤ j ∧ j < range.2 ∧ entries[j]? = some entry := by
  rw [List.mem_iff_getElem?]
  constructor
  · rintro ⟨k, found⟩
    rw [List.getElem?_drop, List.getElem?_take] at found
    split_ifs at found with inside
    · exact ⟨range.1 + k, by omega, inside, found⟩
  · rintro ⟨j, low, high, found⟩
    obtain ⟨k, rfl⟩ := Nat.exists_eq_add_of_le low
    refine ⟨k, ?_⟩
    rw [List.getElem?_drop, List.getElem?_take, if_pos high, found]

theorem searchFrom_eq (table : Table items paths layout) {map : ScopeMap} (entries_eq : map.entries = layout.entries)
    {range : Nat × Nat} {names : List Str} (children : Children items paths path range)
    (valid : IsPath (path ++ names)) : searchFrom map names ((map.entries.take range.2).drop range.1)
    (longest items path) = .ok (longest items (path ++ names)) := by
  induction names generalizing path range with
  | nil =>
    rw [List.append_nil]
    rfl
  | cons name names ih =>
    have nonempty : name ≠ [] := valid.nonempty name (by simp)
    rw [searchFrom]
    cases found : ((map.entries.take range.2).drop range.1).find? fun entry => entry.scope = name with
    | none =>
      have empty : under (path ++ [name]) items = [] := by
        by_contra present
        obtain ⟨j, low, high, at_⟩ := children.complete name nonempty present
        have inside : j < layout.entries.length := by
          rw [← table.length]
          exact (List.getElem?_eq_some_iff.mp at_).1
        have here := List.getElem?_eq_getElem inside
        have scope := table.named j _ _ at_ here
        rw [List.getLast?_concat] at scope
        have missing := List.find?_eq_none.mp found layout.entries[j]
          (mem_slice.mpr ⟨j, low, high, by rw [entries_eq]; exact here⟩)
        exact missing (by simpa using (Option.some.inj scope).symm)
      rw [longest_append_of_under_eq_nil valid empty]
      split_ifs <;> rfl
    | some entry =>
      obtain ⟨j, low, high, here⟩ := mem_slice.mp (List.mem_of_find?_eq_some found)
      obtain ⟨other, at_⟩ := children.below j low high
      rw [entries_eq] at here
      have scope := table.named j _ _ at_ here
      have same : entry.scope = name := by simpa using List.find?_some found
      rw [List.getLast?_concat, same] at scope
      obtain rfl := Option.some.inj scope
      obtain ⟨below, node, children'⟩ := table.closed (some j) _ at_
      rw [Layout.node, here] at node
      obtain ⟨level, range_eq⟩ := Prod.mk.inj (Option.some.inj node)
      have start : ¬ (((map.entries.take range.2).drop range.1).isEmpty || other.isEmpty) = true := by
        have some_entry := List.ne_nil_of_mem (List.mem_of_find?_eq_some found)
        simpa [nonempty] using some_entry
      rw [if_neg start]
      have sliced : sliceRange map.entries entry.descendants.1 entry.descendants.2 =
          .ok ((map.entries.take below.2).drop below.1) := by
        rw [range_eq, sliceRange, if_pos]
        refine ⟨children'.ordered, ?_⟩
        rw [entries_eq, ← table.length]
        exact children'.within
      simp only [sliced, ok_bind, level]
      rw [← longest_concat]
      have step := ih children' (by simpa using valid)
      simpa using step

theorem search_eq (table : Table items paths layout) {map : ScopeMap} (entries_eq : map.entries = layout.entries)
    (root_eq : map.rootCount = layout.rootCount) (rows : Rows items) (scope : Scope) :
    search map scope = .ok (longest items (components scope)) := by
  obtain ⟨range, node, children⟩ := table.closed none [] rfl
  obtain ⟨-, range_eq⟩ := Prod.mk.inj (Option.some.inj node)
  have start : longest items [] = none := by
    simp [longest, rows.levelAt_nil]
  have sliced : sliceRange map.entries 0 map.rootCount = .ok ((map.entries.take range.2).drop range.1) := by
    rw [← range_eq, root_eq, sliceRange, if_pos]
    refine ⟨Nat.zero_le _, ?_⟩
    have within := children.within
    rw [← range_eq] at within
    rw [entries_eq, ← table.length]
    exact within
  rw [search, sliced, ok_bind, searchFrom_takeWhile, ← start]
  exact searchFrom_eq table entries_eq children (isPath_components scope)

/-! ## Levels of the table -/

theorem Table.exists_node (table : Table items paths layout) (valid : IsPath path)
    (present : under path items ≠ []) : ∃ node, pathOf paths node = some path := by
  induction path using List.reverseRecOn with
  | nil => exact ⟨none, rfl⟩
  | append_singleton path name ih =>
    have above : under path items ≠ [] := by
      obtain ⟨item, member⟩ := List.exists_mem_of_ne_nil _ present
      obtain ⟨within, below⟩ := mem_under.mp member
      have start := (List.prefix_append path [name]).trans below
      exact List.ne_nil_of_mem (mem_under.mpr ⟨within, start⟩)
    have short : IsPath path := by simpa using valid.take path.length
    obtain ⟨node, at_⟩ := ih short above
    obtain ⟨range, -, children⟩ := table.closed node path at_
    obtain ⟨j, -, -, found⟩ := children.complete name (valid.nonempty name (by simp)) present
    exact ⟨some j, found⟩

theorem Table.enabled_iff (table : Table items paths layout) (rows : Rows items) (level : LevelFilter) :
    (∃ entry ∈ layout.entries, entry.enabled = some level) ↔ ∃ path, IsPath path ∧ levelAt items path = some level := by
  constructor
  · rintro ⟨entry, member, enabled⟩
    obtain ⟨i, inside, rfl⟩ := List.getElem_of_mem member
    have low : i < paths.length := by
      rw [table.length]
      exact inside
    obtain ⟨range, node, -⟩ := table.closed (some i) paths[i] (List.getElem?_eq_getElem low)
    rw [Layout.node, List.getElem?_eq_getElem inside] at node
    have eq := (Prod.mk.inj (Option.some.inj node)).1
    exact ⟨paths[i], table.valid _ (List.getElem_mem low), eq.symm.trans enabled⟩
  · rintro ⟨path, valid, found⟩
    obtain ⟨node, at_⟩ := table.exists_node valid (List.ne_nil_of_mem (mem_under_pad valid found))
    obtain ⟨range, node_eq, -⟩ := table.closed node path at_
    cases node with
    | none =>
      cases at_
      rw [rows.levelAt_nil] at found
      cases found
    | some i =>
      obtain ⟨entry, here, eq⟩ := Option.map_eq_some_iff.mp node_eq
      exact ⟨entry, List.mem_of_getElem? here, (Prod.mk.inj eq).1.trans found⟩

/-! ## Refinement -/

theorem newFromSettingsAndEnv_returns (itemsInputMap : List (Str × Str))
    (envConfig : Option EnvFilter) (defaultFilters : List (Str × LevelFilter)) :
    ∃ map, newFromSettingsAndEnv itemsInputMap envConfig defaultFilters = .ok map ∧
      (∀ scope, search map scope = .ok (longestPrefix (allFilters itemsInputMap envConfig defaultFilters) scope)) ∧
      (∀ modulePath, valueOf modulePath map.modules =
        configuredModule (allFilters itemsInputMap envConfig defaultFilters) modulePath) ∧
      ∀ level, (∃ entry ∈ map.entries, entry.enabled = some level) ↔
        ∃ scope, configured (allFilters itemsInputMap envConfig defaultFilters) scope = some level := by
  have collected := collected_foldl (allFilters itemsInputMap envConfig defaultFilters)
  obtain ⟨layout, paths, returned, table⟩ := processQueue_returns collected.rows
  have levels (path : List Str) : levelAt (sortItems ((allFilters itemsInputMap envConfig
      defaultFilters).foldl addFilter ([], [])).1) path =
        configured (allFilters itemsInputMap envConfig defaultFilters) (pad path) := by
    rw [levelAt, sortItems, valueOf_perm perm_sortBy collected.nodup, collected.scopes]
  unfold newFromSettingsAndEnv
  simp only [returned, ok_bind]
  refine ⟨_, rfl, ?_, ?_, ?_⟩
  · intro scope
    rw [search_eq table rfl rfl collected.rows, longest, funext levels, longestPrefix]
  · intro modulePath
    rw [valueOf_perm perm_sortBy collected.modules_nodup, collected.modules]
  · intro level
    rw [table.enabled_iff collected.rows]
    constructor
    · rintro ⟨path, -, found⟩
      exact ⟨pad path, (levels path).symm.trans found⟩
    · rintro ⟨scope, found⟩
      have member := mem_of_valueOf ((collected.scopes scope).trans found)
      refine ⟨components scope, isPath_components scope, ?_⟩
      rw [levels, (collected.padded _ member).1]
      exact found

theorem isEnabled_eq_flatStatus (itemsInputMap : List (Str × Str)) (envConfig : Option EnvFilter)
    (defaultFilters : List (Str × LevelFilter)) :
    ∃ map, newFromSettingsAndEnv itemsInputMap envConfig defaultFilters = .ok map ∧
      ∀ scope level, isEnabled map scope none level =
        .ok (flatStatus (allFilters itemsInputMap envConfig defaultFilters) scope level) := by
  obtain ⟨map, returned, searched, -, -⟩ := newFromSettingsAndEnv_returns itemsInputMap envConfig defaultFilters
  refine ⟨map, returned, ?_⟩
  intro scope level
  rw [isEnabled, searched, ok_bind, flatStatus]
  cases longestPrefix (allFilters itemsInputMap envConfig defaultFilters) scope <;> rfl

end Pinrail.Zlog.ScopeMap

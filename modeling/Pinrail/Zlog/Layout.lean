import Pinrail.Zlog.Rows

/-!
# Laying out one level of a scope map

What one round over the queue does: the items below a path are cut into runs by their next
component, each nonempty component gets an entry of its own, and the item that ends at the path
gives its level to the parent.
-/

namespace Pinrail.Zlog.ScopeMap
open Lib

def atParent (parentIndex : Option Nat) (change : ScopeMapEntry → ScopeMapEntry)
    (entries : List ScopeMapEntry) : List ScopeMapEntry :=
  parentIndex.elim entries fun parentIndex => entries.modify parentIndex change

def setEnabled (enabled : Option LevelFilter) (entry : ScopeMapEntry) : ScopeMapEntry :=
  { entry with enabled := enabled }

/-- The entry for a component after `path`, as it is when its level is laid out. -/
def newEntry (items : List Item) (path : List Str) (name : Str) : ScopeMapEntry where
  scope := name
  enabled := if path.length + 1 < scopeDepthMax then none else levelAt items (path ++ [name])
  descendants := (0, 0)

/-- The queue entries for the components after `path`, whose entries stand from `start` on. -/
def newQueue (items : List Item) (path : List Str) (depth : Fin scopeDepthMax) (start : Nat)
    (names : List Str) : List ProcessQueueEntry :=
  if deeper : depth.val + 1 < scopeDepthMax then
    (names.zipIdx start).map fun (name, i) =>
      ⟨some i, ⟨depth.val + 1, deeper⟩, under (path ++ [name]) items⟩
  else []

/-- The layout after the runs of the components `names` below `path`, and the level given to the
parent. -/
def extended (items : List Item) (parentIndex : Option Nat) (path : List Str)
    (depth : Fin scopeDepthMax) (layout : Layout) (names : List Str) (enabled : Option LevelFilter) :
    Layout where
  entries := atParent parentIndex (setEnabled enabled) layout.entries ++ names.map (newEntry items path)
  queue := layout.queue ++ newQueue items path depth layout.entries.length names
  rootCount := layout.rootCount

structure Due (items : List Item) (layout : Layout) (parentIndex : Option Nat) (path : List Str) :
    Prop where
  valid : IsPath path
  short : path.length < scopeDepthMax
  rooted : parentIndex = none → path = []
  parent : ∀ i, parentIndex = some i → ∃ entry, layout.entries[i]? = some entry ∧ entry.enabled = none

def Names (depth : Fin scopeDepthMax) (items : List Item) (names : List Str) : Prop :=
  ∀ name, name ∈ names ↔ name ≠ [] ∧ ∃ item ∈ items, item.1.component depth = name

variable {items : List Item} {layout : Layout} {parentIndex : Option Nat} {path : List Str}
  {depth : Fin scopeDepthMax}

theorem atParent_length (change : ScopeMapEntry → ScopeMapEntry) (entries : List ScopeMapEntry) :
    (atParent parentIndex change entries).length = entries.length := by
  cases parentIndex with
  | none => rfl
  | some i => exact List.length_modify ..

theorem newQueue_concat (start : Nat) (names : List Str) (name : Str) (deeper : depth.val + 1 < scopeDepthMax) :
    newQueue items path depth start (names ++ [name]) = newQueue items path depth start names ++
      [⟨some (start + names.length), ⟨depth.val + 1, deeper⟩, under (path ++ [name]) items⟩] := by
  simp [newQueue, deeper, List.zipIdx_append]

theorem newQueue_last (start : Nat) (names : List Str) (last : ¬ depth.val + 1 < scopeDepthMax) :
    newQueue items path depth start names = [] := dif_neg last

theorem atParent_getElem? {entry : ScopeMapEntry} {i : Nat} {entries : List ScopeMapEntry}
    (change : ScopeMapEntry → ScopeMapEntry) (found : entries[i]? = some entry) :
    (atParent (some i) change entries)[i]? = some (change entry) := by
  rw [atParent, Option.elim_some, List.getElem?_modify_eq, found]
  rfl

theorem atParent_getElem?_ne {i : Nat} {entries : List ScopeMapEntry} (change : ScopeMapEntry → ScopeMapEntry)
    (other : parentIndex ≠ some i) : (atParent parentIndex change entries)[i]? = entries[i]? := by
  cases parentIndex with
  | none => rfl
  | some j => exact List.getElem?_modify_ne _ _ fun eq => other (congrArg some eq)

theorem set_atParent (change after : ScopeMapEntry → ScopeMapEntry) {entry : ScopeMapEntry} {i : Nat}
    {entries : List ScopeMapEntry} (found : entries[i]? = some entry) (new : List ScopeMapEntry) :
    (atParent (some i) change entries ++ new).set i (after (change entry)) = atParent (some i)
    (after ∘ change) entries ++ new := by
  obtain ⟨low, rfl⟩ := List.getElem?_eq_some_iff.mp found
  rw [List.set_append_left _ _ (by rw [atParent_length]; exact low)]
  congr 1
  apply List.ext_getElem?
  intro j
  by_cases same : i = j
  · subst same
    simp [atParent, low]
  · rw [List.getElem?_set_ne same, atParent_getElem?_ne _ (by simpa using same),
      atParent_getElem?_ne _ (by simpa using same)]

/-! ## One run -/

section Run

variable {names : List Str} {first : Item} {same : List Item} {enabled : Option LevelFilter}

theorem processRun_deeper (deep : path.length = depth) (named : first.1.component depth ≠ [])
    (run : first :: same = under (path ++ [first.1.component depth]) items)
    (deeper : depth.val + 1 < scopeDepthMax) :
    processRun parentIndex depth (extended items parentIndex path depth layout names enabled) first same =
      .ok (extended items parentIndex path depth layout (names ++ [first.1.component depth]) enabled) := by
  unfold processRun
  rw [if_neg (by simpa using named), dif_pos deeper]
  simp only [extended, newQueue_concat _ _ _ deeper, run, List.length_append, atParent_length,
    List.length_map, List.map_append, List.map_cons, List.map_nil, List.append_assoc]
  rw [newEntry, deep, if_pos deeper]
  rfl

theorem processRun_last (rows : Rows items) (deep : path.length = depth)
    (named : first.1.component depth ≠ []) (run : first :: same = under (path ++ [first.1.component depth]) items)
    (last : ¬ depth.val + 1 < scopeDepthMax) :
    processRun parentIndex depth (extended items parentIndex path depth layout names enabled) first same =
      .ok (extended items parentIndex path depth layout (names ++ [first.1.component depth]) enabled) := by
  have full : (path ++ [first.1.component depth]).length = scopeDepthMax := by
    have := depth.isLt
    rw [List.length_append, List.length_singleton]
    omega
  have all : ∀ item ∈ first :: same, item.1 = pad (path ++ [first.1.component depth]) := by
    rw [run]
    intro item member
    exact rows.eq_pad_of_full member full
  have single : same.length = 0 := by
    have short := rows.length_le_one (by rw [run]; exact List.filter_sublist) all
    simpa using short
  have level : levelAt items (path ++ [first.1.component depth]) = some first.2 := by
    apply valueOf_of_mem rows.nodup
    rw [← all first (by simp)]
    exact (mem_under.mp (by rw [← run]; simp)).1
  unfold processRun
  rw [if_neg (by simpa using named), dif_neg last, assert_of single, ok_bind]
  simp only [extended, newQueue_last _ _ last, List.map_append, List.map_cons, List.map_nil, List.append_assoc]
  rw [newEntry, deep, if_neg last, level]
  rfl

theorem processRun_ends (rows : Rows items) (due : Due items layout parentIndex path)
    (deep : path.length = depth) (ends : first.1.component depth = [])
    (run : first :: same = (under path items).filter fun item => item.1.component depth = first.1.component depth) :
    processRun parentIndex depth (extended items parentIndex path depth layout names none) first same =
      .ok (extended items parentIndex path depth layout names (levelAt items path)) := by
  have within : ∀ item ∈ first :: same, item ∈ under path items ∧ item.1 = pad path := by
    rw [run]
    intro item member
    obtain ⟨below, at_⟩ := List.mem_filter.mp member
    exact ⟨below, rows.eq_pad_of_getElem_nil below deep ((of_decide_eq_true at_).trans ends)⟩
  have single : same.length = 0 := by
    have sublist : (first :: same).Sublist items := by
      rw [run]
      exact List.filter_sublist.trans List.filter_sublist
    have short := rows.length_le_one sublist fun item member => (within item member).2
    simpa using short
  have member := (mem_under.mp (within first (by simp)).1).1
  have level : levelAt items path = some first.2 := by
    apply valueOf_of_mem rows.nodup
    rw [← (within first (by simp)).2]
    exact member
  have below : depth.val ≠ 0 := by
    intro zero
    obtain rfl := List.length_eq_zero_iff.mp (deep.trans zero)
    rw [rows.levelAt_nil] at level
    cases level
  unfold processRun
  rw [if_pos (by simpa using ends), assert_of single, ok_bind, assert_of below, ok_bind]
  cases parentIndex with
  | none =>
    rw [due.rooted rfl] at deep
    exact absurd deep.symm below
  | some i =>
    obtain ⟨entry, found, fresh⟩ := due.parent i rfl
    have low := (List.getElem?_eq_some_iff.mp found).1
    have here : (extended items (some i) path depth layout names none).entries[i]? = some (setEnabled none entry) := by
      rw [extended, List.getElem?_append_left (by rw [atParent_length]; exact low)]
      exact atParent_getElem? _ found
    simp only [index_of_getElem? here, ok_bind]
    have unset : (setEnabled none entry).enabled = none := rfl
    rw [assert_of unset, ok_bind, level]
    have assigned := set_atParent (setEnabled none) (setEnabled (some first.2)) found (names.map (newEntry items path))
    exact congrArg (fun entries => Except.ok { extended items (some i) path depth layout names none
      with entries := entries }) assigned

end Run

/-! ## All runs of a queue entry -/

/-- The level given to the parent once the items `done` are read. -/
def levelSoFar (items : List Item) (path : List Str) (depth : Fin scopeDepthMax) (done : List Item) :
    Option LevelFilter :=
  if ∃ item ∈ done, item.1.component depth = [] then levelAt items path else none

def queueWork (queue : List ProcessQueueEntry) : Nat :=
  (queue.map fun entry => 1 + entry.items.length * (scopeDepthMax - entry.depth)).sum

theorem queueWork_append (queue others : List ProcessQueueEntry) :
    queueWork (queue ++ others) = queueWork queue + queueWork others := by
  simp [queueWork]

structure Progress (items : List Item) (path : List Str) (depth : Fin scopeDepthMax) (start : Nat)
    (done rest : List Item) (names : List Str) : Prop where
  split : under path items = done ++ rest
  apart : ∀ a ∈ done, ∀ b ∈ rest, a.1.component depth ≠ b.1.component depth
  named : Names depth done names
  work : queueWork (newQueue items path depth start names) +
      rest.length * (scopeDepthMax - depth) ≤ (under path items).length * (scopeDepthMax - depth)

theorem names_append_ended {done run : List Item} {names : List Str} (named : Names depth done names)
    (ends : ∀ item ∈ run, item.1.component depth = []) : Names depth (done ++ run) names := by
  intro name
  rw [named name]
  refine and_congr_right fun nonempty => ⟨?_, ?_⟩
  · rintro ⟨item, member, at_⟩
    exact ⟨item, List.mem_append_left _ member, at_⟩
  · rintro ⟨item, member, at_⟩
    rcases List.mem_append.mp member with member | member
    · exact ⟨item, member, at_⟩
    · exact absurd (at_.symm.trans (ends item member)) nonempty

theorem names_append_named {done same : List Item} {first : Item} {names : List Str} (named : Names depth done names)
    (nonempty : first.1.component depth ≠ []) (run : ∀ item ∈ same, item.1.component depth = first.1.component depth) :
    Names depth (done ++ first :: same) (names ++ [first.1.component depth]) := by
  intro name
  rw [List.mem_append, List.mem_singleton, named name]
  constructor
  · rintro (⟨present, item, member, at_⟩ | rfl)
    · exact ⟨present, item, List.mem_append_left _ member, at_⟩
    · exact ⟨nonempty, first, by simp, rfl⟩
  · rintro ⟨present, item, member, at_⟩
    rcases List.mem_append.mp member with member | member
    · exact .inl ⟨present, item, member, at_⟩
    · rcases List.mem_cons.mp member with rfl | member
      · exact .inr at_.symm
      · exact .inr (at_.symm.trans (run item member))

theorem levelSoFar_append_named {done run : List Item} (named : ∀ item ∈ run, item.1.component depth ≠ []) :
    levelSoFar items path depth (done ++ run) = levelSoFar items path depth done := by
  unfold levelSoFar
  refine if_congr ⟨?_, ?_⟩ rfl rfl
  · rintro ⟨item, member, ends⟩
    rcases List.mem_append.mp member with member | member
    · exact ⟨item, member, ends⟩
    · exact absurd ends (named item member)
  · rintro ⟨item, member, ends⟩
    exact ⟨item, List.mem_append_left _ member, ends⟩

theorem processRun_progress (rows : Rows items) (due : Due items layout parentIndex path)
    (deep : path.length = depth) {done others : List Item} {first : Item} {names : List Str}
    (progress : Progress items path depth layout.entries.length done (first :: others) names)
    {same rest : List Item}
    (same_eq : same = others.takeWhile fun item => item.1.component depth = first.1.component depth)
    (rest_eq : rest = others.drop same.length) :
    ∃ names', Progress items path depth layout.entries.length (done ++ first :: same) rest names' ∧
      processRun parentIndex depth (extended items parentIndex path depth layout names
          (levelSoFar items path depth done)) first same =
        .ok (extended items parentIndex path depth layout names'
          (levelSoFar items path depth (done ++ first :: same))) := by
  have sorted := rows.sorted_at deep
  rw [progress.split] at sorted
  obtain ⟨run, cut, apart⟩ := cut_run (fun item : Item => item.1.component depth) sorted progress.apart same_eq rest_eq
  rw [← progress.split] at run
  have split : under path items = (done ++ first :: same) ++ rest := by
    rw [progress.split, ← cut]
    simp
  have equal : ∀ item ∈ first :: same, item.1.component depth = first.1.component depth := by
    rw [run]
    intro item member
    exact of_decide_eq_true (List.mem_filter.mp member).2
  have length : (first :: others).length = (first :: same).length + rest.length := by
    rw [← cut]
    simp
    omega
  have bound := progress.work
  rw [length, Nat.add_mul] at bound
  by_cases ends : first.1.component depth = []
  · refine ⟨names, ⟨split, apart, names_append_ended progress.named fun item member =>
      (equal item member).trans ends, by omega⟩, ?_⟩
    have before : levelSoFar items path depth done = none := by
      refine if_neg ?_
      rintro ⟨item, member, ended⟩
      exact progress.apart item member first (by simp) (ended.trans ends.symm)
    have after : levelSoFar items path depth (done ++ first :: same) = levelAt items path :=
      if_pos ⟨first, by simp, ends⟩
    rw [before, after]
    exact processRun_ends rows due deep ends run
  · have below : first :: same = under (path ++ [first.1.component depth]) items := by
      rw [run, rows.under_concat deep ends]
    have after : levelSoFar items path depth (done ++ first :: same) =
        levelSoFar items path depth done := levelSoFar_append_named fun item member => by
      rw [equal item member]
      exact ends
    have named := names_append_named progress.named ends fun item member =>
      equal item (List.mem_cons_of_mem _ member)
    refine ⟨names ++ [first.1.component depth], ⟨split, apart, named, ?_⟩, ?_⟩
    · by_cases deeper : depth.val + 1 < scopeDepthMax
      · rw [newQueue_concat _ _ _ deeper, queueWork_append, ← below]
        have step : 1 + (first :: same).length * (scopeDepthMax - (depth.val + 1)) ≤
            (first :: same).length * (scopeDepthMax - depth) := by
          obtain ⟨k, eq⟩ : ∃ k, scopeDepthMax - depth.val = k + 1 := ⟨scopeDepthMax - depth.val - 1, by omega⟩
          have eq' : scopeDepthMax - (depth.val + 1) = k := by omega
          rw [eq, eq', Nat.mul_add, List.length_cons]
          omega
        simp only [queueWork, List.map_cons, List.map_nil, List.sum_cons, List.sum_nil] at bound ⊢
        omega
      · rw [newQueue_last _ _ deeper] at bound ⊢
        omega
    · rw [after]
      by_cases deeper : depth.val + 1 < scopeDepthMax
      · exact processRun_deeper deep ends below deeper
      · exact processRun_last rows deep ends below deeper

theorem levelSoFar_all (valid : IsPath path) (deep : path.length = depth) :
    levelSoFar items path depth (under path items) = levelAt items path := by
  unfold levelSoFar
  split_ifs with ended
  · rfl
  · cases found : levelAt items path with
    | none => rfl
    | some level =>
      refine absurd ⟨(pad path, level), mem_under_pad valid found, ?_⟩ ended
      rw [pad_getElem, ← deep]
      simp

theorem processItems_extends (rows : Rows items) (due : Due items layout parentIndex path)
    (deep : path.length = depth) :
    ∃ names, Progress items path depth layout.entries.length (under path items) [] names ∧
      processItems parentIndex depth (under path items) layout =
        .ok (extended items parentIndex path depth layout names (levelAt items path)) := by
  have start : extended items parentIndex path depth layout [] none = layout := by
    have same : atParent parentIndex (setEnabled none) layout.entries = layout.entries := by
      cases parentIndex with
      | none => rfl
      | some i =>
        obtain ⟨entry, found, fresh⟩ := due.parent i rfl
        apply List.ext_getElem?
        intro j
        by_cases other : i = j
        · subst other
          rw [atParent_getElem? _ found, found, setEnabled, ← fresh]
        · exact atParent_getElem?_ne _ (by simpa using other)
    simp [extended, same, newQueue]
  have ran : ∃ after, processItems parentIndex depth (under path items) layout = .ok after ∧ ∃ names,
      Progress items path depth layout.entries.length (under path items) [] names ∧
      after = extended items parentIndex path depth layout names (levelAt items path) := by
    unfold processItems
    -- Between the runs the layout is extended by those read so far.
    refine loop_returns (fun s : List Item × Layout => ∃ done names,
      Progress items path depth layout.entries.length done s.1 names ∧
        s.2 = extended items parentIndex path depth layout names (levelSoFar items path depth done))
      _ (fun s holds => ?_) (under path items, layout) ?_
    · obtain ⟨rest, current⟩ := s
      obtain ⟨done, names, progress, rfl⟩ := holds
      cases rest with
      | nil =>
        have all : done = under path items := by simpa using progress.split.symm
        subst all
        refine ⟨names, progress, ?_⟩
        rw [levelSoFar_all due.valid deep]
      | cons first others =>
        obtain ⟨names', progress', ran⟩ := processRun_progress rows due deep progress rfl rfl
        simp only [ran, ok_bind]
        refine ⟨⟨_, names', progress', rfl⟩, ?_⟩
        simp only [List.length_drop, List.length_cons]
        omega
    · refine ⟨[], [], ⟨rfl, by simp, by simp [Names], by simp [queueWork, newQueue]⟩, ?_⟩
      simp only [start, levelSoFar, List.not_mem_nil, false_and, exists_false, if_false]
  obtain ⟨after, returned, names, progress, rfl⟩ := ran
  exact ⟨names, progress, returned⟩

end Pinrail.Zlog.ScopeMap

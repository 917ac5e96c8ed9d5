import Pinrail.Zlog.Layout

/-!
# The table of a scope map

The entries are laid out level by level. Every entry stands for a path; until its round comes its
queue entry holds the items below that path, and after it the entry has its level and the range of
the entries of the next components.
-/

namespace Pinrail.Zlog.ScopeMap
open Lib

/-- The path of an entry, given the paths of all entries; `none` is the root. -/
def pathOf (paths : List (List Str)) : Option Nat → Option (List Str)
  | none => some []
  | some i => paths[i]?

def Layout.node (layout : Layout) : Option Nat → Option (Option LevelFilter × Nat × Nat)
  | none => some (none, 0, layout.rootCount)
  | some i => layout.entries[i]?.map fun entry => (entry.enabled, entry.descendants)

/-- The range holds the entries for all components after `path`. -/
structure Children (items : List Item) (paths : List (List Str)) (path : List Str)
    (range : Nat × Nat) : Prop where
  ordered : range.1 ≤ range.2
  within : range.2 ≤ paths.length
  below : ∀ j, range.1 ≤ j → j < range.2 → ∃ name, paths[j]? = some (path ++ [name])
  complete : ∀ name, name ≠ [] → under (path ++ [name]) items ≠ [] →
    ∃ j, range.1 ≤ j ∧ j < range.2 ∧ paths[j]? = some (path ++ [name])

def Closed (items : List Item) (paths : List (List Str)) (layout : Layout) (node : Option Nat)
    (path : List Str) : Prop :=
  ∃ range, layout.node node = some (levelAt items path, range) ∧ Children items paths path range

structure Queued (items : List Item) (paths : List (List Str)) (layout : Layout)
    (entry : ProcessQueueEntry) (path : List Str) : Prop where
  path_eq : pathOf paths entry.parentIndex = some path
  deep : path.length = entry.depth
  items_eq : entry.items = under path items
  fresh : ∀ i, entry.parentIndex = some i → ∃ parent, layout.entries[i]? = some parent ∧ parent.enabled = none

structure Laid (items : List Item) (paths : List (List Str)) (layout : Layout)
    (queue : List ProcessQueueEntry) : Prop where
  length : paths.length = layout.entries.length
  valid : ∀ path ∈ paths, IsPath path
  named : ∀ (i : Nat) (path : List Str) (entry : ScopeMapEntry), paths[i]? = some path →
    layout.entries[i]? = some entry → path.getLast? = some entry.scope
  queued : ∀ entry ∈ queue, ∃ path, Queued items paths layout entry path
  distinct : (queue.map (·.parentIndex)).Nodup
  root : none ∈ queue.map (·.parentIndex) → layout.entries = []
  settled : ∀ node path, pathOf paths node = some path →
    node ∈ queue.map (·.parentIndex) ∨ Closed items paths layout node path

variable {items : List Item} {paths : List (List Str)} {layout : Layout} {path : List Str}

/-! ## One round -/

def setDescendants (range : Nat × Nat) (entry : ScopeMapEntry) : ScopeMapEntry :=
  { entry with descendants := range }

def settle (items : List Item) (entry : ProcessQueueEntry) (path : List Str) (layout : Layout)
    (names : List Str) : Layout where
  entries := atParent entry.parentIndex (setDescendants (layout.entries.length, layout.entries.length + names.length) ∘
        setEnabled (levelAt items path)) layout.entries ++ names.map (newEntry items path)
  queue := layout.queue ++ newQueue items path entry.depth layout.entries.length names
  rootCount :=
    if entry.parentIndex = none then layout.entries.length + names.length else layout.rootCount

theorem processEntry_settles (rows : Rows items) {entry : ProcessQueueEntry}
    (due : Due items layout entry.parentIndex path) (deep : path.length = entry.depth)
    (items_eq : entry.items = under path items) : ∃ names,
    Progress items path entry.depth layout.entries.length (under path items) [] names ∧
    processEntry layout entry = .ok (settle items entry path layout names) := by
  obtain ⟨names, progress, ran⟩ := processItems_extends rows due deep
  refine ⟨names, progress, ?_⟩
  have length : (extended items entry.parentIndex path entry.depth layout names
      (levelAt items path)).entries.length = layout.entries.length + names.length := by
    rw [extended, List.length_append, atParent_length, List.length_map]
  unfold processEntry
  rw [items_eq]
  simp only [ran, ok_bind, length]
  obtain ⟨parentIndex, depth, own⟩ := entry
  cases parentIndex with
  | none => rfl
  | some i =>
    obtain ⟨parent, found, -⟩ := due.parent i rfl
    have low := (List.getElem?_eq_some_iff.mp found).1
    have here : (extended items (some i) path depth layout names (levelAt items path)).entries[i]? =
        some (setEnabled (levelAt items path) parent) := by
      rw [extended, List.getElem?_append_left (by rw [atParent_length]; exact low)]
      exact atParent_getElem? _ found
    simp only [index_of_getElem? here, ok_bind]
    have assigned := set_atParent (setEnabled (levelAt items path))
      (setDescendants (layout.entries.length, layout.entries.length + names.length)) found
      (names.map (newEntry items path))
    exact congrArg (fun entries => Except.ok { extended items (some i) path depth layout names
      (levelAt items path) with entries := entries }) assigned

section Round

variable {entry : ProcessQueueEntry} {names : List Str}

theorem Children.append {range : Nat × Nat} (children : Children items paths path range)
    (new : List (List Str)) : Children items (paths ++ new) path range where
  ordered := children.ordered
  within := by
    have := children.within
    rw [List.length_append]
    omega
  below := by
    intro j low high
    have := children.within
    rw [List.getElem?_append_left (by omega)]
    exact children.below j low high
  complete := by
    intro name nonempty present
    obtain ⟨j, low, high, found⟩ := children.complete name nonempty present
    refine ⟨j, low, high, ?_⟩
    have := children.within
    rw [List.getElem?_append_left (by omega)]
    exact found

theorem settle_getElem?_old {i : Nat} (low : i < layout.entries.length) (other : entry.parentIndex ≠ some i) :
    (settle items entry path layout names).entries[i]? = layout.entries[i]? := by
  rw [settle, List.getElem?_append_left (by rw [atParent_length]; exact low)]
  exact atParent_getElem?_ne _ other

theorem settle_getElem?_new (k : Nat) : (settle items entry path layout names).entries[layout.entries.length + k]? =
      names[k]?.map (newEntry items path) := by
  rw [settle, List.getElem?_append_right (by rw [atParent_length]; omega), atParent_length]
  simp

theorem settle_length : (settle items entry path layout names).entries.length =
    layout.entries.length + names.length := by
  rw [settle, List.length_append, atParent_length, List.length_map]

theorem settle_node_parent (rows : Rows items) (due : Due items layout entry.parentIndex path)
    (root : entry.parentIndex = none → layout.entries = []) :
    (settle items entry path layout names).node entry.parentIndex =
      some (levelAt items path, layout.entries.length, layout.entries.length + names.length) := by
  obtain ⟨parentIndex, depth, own⟩ := entry
  cases parentIndex with
  | none =>
    rw [due.rooted rfl, rows.levelAt_nil, root rfl]
    simp [Layout.node, settle, root rfl]
  | some i =>
    obtain ⟨parent, found, -⟩ := due.parent i rfl
    have low := (List.getElem?_eq_some_iff.mp found).1
    rw [Layout.node, settle, List.getElem?_append_left (by rw [atParent_length]; exact low), atParent_getElem? _ found]
    rfl

theorem settle_node_old {node : Option Nat} (old : ∀ i, node = some i → i < layout.entries.length)
    (other : node ≠ entry.parentIndex) : (settle items entry path layout names).node node = layout.node node := by
  cases node with
  | none => rw [Layout.node, Layout.node, settle, if_neg other.symm]
  | some i => rw [Layout.node, settle_getElem?_old (old i rfl) other.symm, Layout.node]

theorem parents_newQueue (depth : Fin scopeDepthMax) (start : Nat) :
    (newQueue items path depth start names).map (·.parentIndex) =
      if depth.val + 1 < scopeDepthMax then (List.range' start names.length).map some else [] := by
  unfold newQueue
  split_ifs with deeper
  · rw [List.map_map, ← List.zipIdx_map_snd start names, List.map_map]
    rfl
  · rfl

theorem mem_newQueue {depth : Fin scopeDepthMax} {start : Nat} {entry : ProcessQueueEntry}
    (member : entry ∈ newQueue items path depth start names) : ∃ k name, names[k]? = some name ∧
    entry.parentIndex = some (start + k) ∧ entry.depth.val = depth + 1 ∧
    entry.items = under (path ++ [name]) items := by
  unfold newQueue at member
  split_ifs at member with deeper
  · obtain ⟨⟨name, i⟩, within, rfl⟩ := List.mem_map.mp member
    obtain ⟨low, -, at_⟩ := List.mem_zipIdx within
    obtain ⟨k, rfl⟩ := Nat.exists_eq_add_of_le low
    refine ⟨k, name, ?_, rfl, rfl, rfl⟩
    rw [at_]
    simp
  · cases member

theorem children_settle (rows : Rows items) (deep : path.length = entry.depth)
    (named : Names entry.depth (under path items) names) :
    Children items (paths ++ names.map fun name => path ++ [name]) path
      (paths.length, paths.length + names.length) where
  ordered := Nat.le_add_right _ _
  within := by simp
  below := by
    intro j low high
    obtain ⟨k, rfl⟩ := Nat.exists_eq_add_of_le low
    have inside : k < names.length := by simpa using high
    refine ⟨names[k], ?_⟩
    rw [List.getElem?_append_right (by omega)]
    simp [inside]
  complete := by
    intro name nonempty present
    obtain ⟨item, member⟩ := List.exists_mem_of_ne_nil _ present
    rw [rows.under_concat deep nonempty] at member
    obtain ⟨below, at_⟩ := List.mem_filter.mp member
    obtain ⟨k, inside, rfl⟩ := List.getElem_of_mem ((named name).mpr ⟨nonempty, item, below, of_decide_eq_true at_⟩)
    refine ⟨paths.length + k, by simp, by simpa using inside, ?_⟩
    rw [List.getElem?_append_right (by omega)]
    simp [inside]

theorem children_full (full : path.length = scopeDepthMax) : Children items paths path (0, 0) where
  ordered := Nat.le_refl _
  within := Nat.zero_le _
  below := by
    intro j _ high
    exact absurd high (Nat.not_lt_zero j)
  complete := by
    intro name _ present
    refine absurd (under_eq_nil ?_) present
    rw [List.length_append, List.length_singleton]
    omega

theorem getElem?_extended_paths {i : Nat} {found : List Str}
    (at_ : (paths ++ names.map fun name => path ++ [name])[i]? = some found) :
    paths[i]? = some found ∨ ∃ k name, i = paths.length + k ∧ names[k]? = some name ∧ found = path ++ [name] := by
  by_cases old : i < paths.length
  · left
    rwa [List.getElem?_append_left old] at at_
  · right
    obtain ⟨k, rfl⟩ := Nat.exists_eq_add_of_le (Nat.le_of_not_lt old)
    rw [List.getElem?_append_right (by omega), Nat.add_sub_cancel_left, List.getElem?_map] at at_
    obtain ⟨name, named, rfl⟩ := Option.map_eq_some_iff.mp at_
    exact ⟨k, name, rfl, named, rfl⟩

theorem pathOf_lt {node : Option Nat} (found : pathOf paths node = some path) :
    ∀ i, node = some i → i < paths.length := by
  rintro i rfl
  exact (List.getElem?_eq_some_iff.mp found).1

theorem Queued.isPath (queued : Queued items paths layout entry path)
    (valid : ∀ path ∈ paths, IsPath path) : IsPath path := by
  have found := queued.path_eq
  cases at_ : entry.parentIndex with
  | none =>
    rw [at_] at found
    cases found
    exact ⟨Nat.zero_le _, by simp⟩
  | some i =>
    rw [at_] at found
    exact valid path (List.mem_of_getElem? found)

theorem Queued.due (queued : Queued items paths layout entry path)
    (valid : ∀ path ∈ paths, IsPath path) : Due items layout entry.parentIndex path where
  valid := queued.isPath valid
  short := by
    rw [queued.deep]
    exact entry.depth.isLt
  rooted := by
    intro root
    have found := queued.path_eq
    rw [root] at found
    exact (Option.some.inj found).symm
  parent := queued.fresh

section Kept

variable (rows : Rows items) (laid : Laid items paths layout (entry :: layout.queue))
  (queued : Queued items paths layout entry path)
  (named : Names entry.depth (under path items) names)

include laid queued in
theorem settle_named (i : Nat) (found : List Str) (made : ScopeMapEntry)
    (at_ : (paths ++ names.map fun name => path ++ [name])[i]? = some found)
    (here : (settle items entry path layout names).entries[i]? = some made) :
    found.getLast? = some made.scope := by
  rcases getElem?_extended_paths at_ with old | ⟨k, name, rfl, at_name, rfl⟩
  · have low : i < layout.entries.length := by
      rw [← laid.length]
      exact (List.getElem?_eq_some_iff.mp old).1
    by_cases parent : entry.parentIndex = some i
    · obtain ⟨before, there, -⟩ := queued.fresh i parent
      rw [settle, List.getElem?_append_left (by rw [atParent_length]; exact low), parent,
        atParent_getElem? _ there] at here
      cases here
      exact laid.named i found before old there
    · rw [settle_getElem?_old low parent] at here
      exact laid.named i found made old here
  · rw [laid.length, settle_getElem?_new, at_name] at here
    cases here
    simp [newEntry]

include laid queued in
theorem settle_queued (later : ProcessQueueEntry) (member : later ∈ (settle items entry path layout names).queue) :
    ∃ found, Queued items (paths ++ names.map fun name => path ++ [name])
      (settle items entry path layout names) later found := by
  rcases List.mem_append.mp member with member | member
  · obtain ⟨found, old⟩ := laid.queued later (List.mem_cons_of_mem _ member)
    have other : later.parentIndex ≠ entry.parentIndex := by
      intro same
      exact (List.nodup_cons.mp laid.distinct).1 (List.mem_map.mpr ⟨later, member, same⟩)
    refine ⟨found, ?_, old.deep, old.items_eq, ?_⟩
    · have eq := old.path_eq
      cases at_ : later.parentIndex with
      | none =>
        rw [at_] at eq
        exact eq
      | some i =>
        rw [at_] at eq
        rw [pathOf, List.getElem?_append_left (pathOf_lt eq i rfl)]
        exact eq
    · intro i parent
      obtain ⟨before, there, fresh⟩ := old.fresh i parent
      refine ⟨before, ?_, fresh⟩
      rw [settle_getElem?_old (List.getElem?_eq_some_iff.mp there).1 fun same => other (parent.trans same.symm)]
      exact there
  · obtain ⟨k, name, at_name, parent, deep, below⟩ := mem_newQueue member
    refine ⟨path ++ [name], ?_, ?_, below, ?_⟩
    · rw [parent, pathOf, ← laid.length, List.getElem?_append_right (by omega)]
      simp [at_name]
    · rw [deep, List.length_append, List.length_singleton, queued.deep]
    · intro i same
      rw [parent] at same
      cases same
      refine ⟨newEntry items path name, ?_, ?_⟩
      · rw [settle_getElem?_new, at_name]
        rfl
      · have deeper := later.depth.isLt
        rw [deep] at deeper
        rw [newEntry, queued.deep]
        exact if_pos deeper

include laid in
theorem settle_distinct : ((settle items entry path layout names).queue.map (·.parentIndex)).Nodup := by
  rw [settle, List.map_append, List.nodup_append]
  refine ⟨(List.nodup_cons.mp laid.distinct).2, ?_, ?_⟩
  · rw [parents_newQueue]
    split_ifs
    · exact List.Nodup.map (Option.some_injective _) List.nodup_range'
    · exact List.nodup_nil
  · intro node old other new same
    subst same
    obtain ⟨later, member, rfl⟩ := List.mem_map.mp old
    obtain ⟨fresh, member', parent⟩ := List.mem_map.mp new
    obtain ⟨k, name, -, made, -⟩ := mem_newQueue member'
    obtain ⟨found, queued⟩ := laid.queued later (List.mem_cons_of_mem _ member)
    have low := pathOf_lt queued.path_eq _ (parent.symm.trans made)
    rw [laid.length] at low
    omega

include laid queued in
theorem settle_root (present : none ∈ (settle items entry path layout names).queue.map (·.parentIndex)) :
    (settle items entry path layout names).entries = [] := by
  rw [settle, List.map_append, List.mem_append] at present
  rcases present with old | new
  · -- The root is the first queue entry of all.
    have empty := laid.root (List.mem_cons_of_mem _ old)
    cases parent : entry.parentIndex with
    | none =>
      rw [← parent] at old
      exact absurd old (List.nodup_cons.mp laid.distinct).1
    | some i =>
      obtain ⟨before, there, -⟩ := queued.fresh i parent
      rw [empty] at there
      cases there
  · obtain ⟨fresh, member, parent⟩ := List.mem_map.mp new
    obtain ⟨k, name, -, made, -⟩ := mem_newQueue member
    rw [parent] at made
    cases made

include rows laid queued named in
theorem settle_settled (node : Option Nat) (found : List Str)
    (at_ : pathOf (paths ++ names.map fun name => path ++ [name]) node = some found) :
    node ∈ (settle items entry path layout names).queue.map (·.parentIndex) ∨
      Closed items (paths ++ names.map fun name => path ++ [name])
        (settle items entry path layout names) node found := by
  by_cases parent : node = entry.parentIndex
  · subst parent
    right
    have same : found = path := by
      have eq := queued.path_eq
      cases index : entry.parentIndex with
      | none =>
        rw [index] at at_ eq
        cases at_
        cases eq
        rfl
      | some i =>
        rw [index] at at_ eq
        rw [pathOf, List.getElem?_append_left (pathOf_lt eq i rfl)] at at_
        exact Option.some.inj (at_.symm.trans eq)
    subst same
    refine ⟨_, settle_node_parent rows (queued.due laid.valid) fun root => ?_, ?_⟩
    · exact laid.root (List.mem_map.mpr ⟨entry, by simp, root⟩)
    · rw [← laid.length]
      exact children_settle rows queued.deep named
  · have old_or_new : pathOf paths node = some found ∨ ∃ k name, node = some (paths.length + k) ∧
        names[k]? = some name ∧ found = path ++ [name] := by
      cases node with
      | none => exact .inl at_
      | some i =>
        rcases getElem?_extended_paths at_ with old | ⟨k, name, rfl, rest⟩
        · exact .inl old
        · exact .inr ⟨k, name, rfl, rest⟩
    rcases old_or_new with old | ⟨k, name, rfl, at_name, rfl⟩
    · rcases laid.settled node found old with waiting | ⟨range, eq, children⟩
      · left
        rw [settle, List.map_append]
        rcases List.mem_cons.mp waiting with same | waiting
        · exact absurd same parent
        · exact List.mem_append_left _ waiting
      · right
        refine ⟨range, ?_, children.append _⟩
        rw [settle_node_old (fun i eq => ?_) parent]
        · exact eq
        · rw [← laid.length]
          exact pathOf_lt old i eq
    · by_cases deeper : entry.depth.val + 1 < scopeDepthMax
      · left
        rw [settle, List.map_append, parents_newQueue, if_pos deeper]
        have inside := (List.getElem?_eq_some_iff.mp at_name).1
        refine List.mem_append_right _ (List.mem_map_of_mem (List.mem_range'.mpr ?_))
        exact ⟨k, inside, by rw [laid.length, Nat.one_mul]⟩
      · right
        refine ⟨(0, 0), ?_, children_full ?_⟩
        · rw [Layout.node, laid.length, settle_getElem?_new, at_name]
          simp only [Option.map_some, newEntry, queued.deep, if_neg deeper]
        · have := entry.depth.isLt
          rw [List.length_append, List.length_singleton, queued.deep]
          omega

include rows laid queued named in
theorem laid_settle : Laid items (paths ++ names.map fun name => path ++ [name])
      (settle items entry path layout names) (settle items entry path layout names).queue where
  length := by rw [settle_length, List.length_append, List.length_map, laid.length]
  valid := by
    intro found member
    rcases List.mem_append.mp member with member | member
    · exact laid.valid found member
    · obtain ⟨name, within, rfl⟩ := List.mem_map.mp member
      have due := queued.due laid.valid
      exact due.valid.concat due.short ((named name).mp within).1
  named := settle_named laid queued
  queued := settle_queued laid queued
  distinct := settle_distinct laid
  root := settle_root laid queued
  settled := settle_settled rows laid queued named

end Kept

end Round

/-! ## The whole table -/

theorem work_settle {entry : ProcessQueueEntry} {names : List Str} {start : Nat}
    (progress : Progress items path entry.depth start (under path items) [] names)
    (items_eq : entry.items = under path items) (begins : start = layout.entries.length) :
    (settle items entry path layout names).work < ({ layout with queue := entry :: layout.queue } : Layout).work := by
  have bound := progress.work
  have split : (settle items entry path layout names).work =
      queueWork layout.queue + queueWork (newQueue items path entry.depth start names) := by
    rw [begins]
    exact queueWork_append _ _
  have before : ({ layout with queue := entry :: layout.queue } : Layout).work =
      1 + entry.items.length * (scopeDepthMax - entry.depth) + queueWork layout.queue := by
    rw [Layout.work, List.map_cons, List.sum_cons]
    rfl
  rw [split, before, items_eq]
  simp only [List.length_nil, Nat.zero_mul] at bound
  omega

theorem Laid.dequeue {entries : List ScopeMapEntry} {queue queue' pending : List ProcessQueueEntry}
    {rootCount : Nat} (laid : Laid items paths ⟨entries, queue, rootCount⟩ pending) :
    Laid items paths ⟨entries, queue', rootCount⟩ pending where
  length := laid.length
  valid := laid.valid
  named := laid.named
  queued := by
    intro entry member
    obtain ⟨path, queued⟩ := laid.queued entry member
    exact ⟨path, queued.path_eq, queued.deep, queued.items_eq, queued.fresh⟩
  distinct := laid.distinct
  root := laid.root
  settled := by
    intro node path found
    refine (laid.settled node path found).imp_right ?_
    rintro ⟨range, at_, children⟩
    refine ⟨range, ?_, children⟩
    cases node with
    | none => exact at_
    | some i => exact at_

structure Table (items : List Item) (paths : List (List Str)) (layout : Layout) : Prop where
  length : paths.length = layout.entries.length
  valid : ∀ path ∈ paths, IsPath path
  named : ∀ (i : Nat) (path : List Str) (entry : ScopeMapEntry), paths[i]? = some path →
    layout.entries[i]? = some entry → path.getLast? = some entry.scope
  closed : ∀ node path, pathOf paths node = some path → Closed items paths layout node path

theorem processQueue_returns (rows : Rows items) : ∃ layout paths,
    processQueue { entries := [], queue := [⟨none, 0, items⟩], rootCount := 0 } = .ok layout ∧
    Table items paths layout := by
  have start : Laid items [] { entries := [], queue := [⟨none, 0, items⟩], rootCount := 0 } [⟨none, 0, items⟩] := by
    refine ⟨rfl, by simp, by simp, ?_, by simp, by simp, ?_⟩
    · intro entry member
      obtain rfl := List.mem_singleton.mp member
      exact ⟨[], rfl, rfl, under_nil.symm, by simp⟩
    · intro node path found
      cases node with
      | none => exact .inl (by simp)
      | some i => cases found
  obtain ⟨layout, returned, paths, table⟩ : ∃ layout,
      processQueue { entries := [], queue := [⟨none, 0, items⟩], rootCount := 0 } = .ok layout ∧
        ∃ paths, Table items paths layout := by
    unfold processQueue
    refine loop_returns (fun layout : Layout => ∃ paths, Laid items paths layout layout.queue) _
      (fun layout holds => ?_) _ ⟨[], start⟩
    obtain ⟨paths, laid⟩ := holds
    obtain ⟨entries, queue, rootCount⟩ := layout
    cases queue with
    | nil =>
      refine ⟨paths, laid.length, laid.valid, laid.named, ?_⟩
      intro node path found
      rcases laid.settled node path found with waiting | closed
      · cases waiting
      · exact closed
    | cons entry queue =>
      have popped : Laid items paths ⟨entries, queue, rootCount⟩ (entry :: queue) := laid.dequeue
      obtain ⟨path, queued⟩ := popped.queued entry (by simp)
      obtain ⟨names, progress, ran⟩ := processEntry_settles rows (queued.due popped.valid) queued.deep queued.items_eq
      simp only [ran, ok_bind]
      exact ⟨⟨_, laid_settle rows popped queued progress.named⟩, work_settle progress queued.items_eq rfl⟩
  exact ⟨layout, paths, returned, table⟩

end Pinrail.Zlog.ScopeMap

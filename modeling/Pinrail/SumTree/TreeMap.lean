import Mathlib.Order.WithBot
import Pinrail.SumTree.Keyed

/-!
# Tree maps

`TreeMap` of `tree_map.rs`: an ordered map as a tree of entries. The summary of entries is the last
key, so the map is right only as long as the keys ascend strictly. Every operation keeps them so and
refines a sorted association list, except `extend` with a repeated key, which leaves both entries in
the tree.
-/

namespace Pinrail
open Lib SumTree Cursor

structure MapEntry (K V : Type) where
  key : K
  value : V
deriving DecidableEq

namespace MapEntry
variable {K V : Type}

def pair (entry : MapEntry K V) : K × V := (entry.key, entry.value)

def ofPair (pair : K × V) : MapEntry K V := ⟨pair.1, pair.2⟩

end MapEntry

/-- `MapKey(Option<K>)`, in the derived order: `None` is the least. `MapKeyRef` is the same but
for borrowing. -/
def MapKey (K : Type) : Type := WithBot K

namespace MapKey
variable {K : Type}

def some (key : K) : MapKey K := (key : WithBot K)

instance [LinearOrder K] : LinearOrder (MapKey K) := inferInstanceAs (LinearOrder (WithBot K))

instance : Summary (MapKey K) where
  zero := (⊥ : WithBot K)
  addSummary _ summary := summary

instance : LawfulSummary (MapKey K) where
  assoc _ _ _ := rfl
  zero_add _ := rfl

end MapKey

variable {K V R σ : Type}

instance : Item (MapEntry K V) (MapKey K) where
  summary entry := .some entry.key

instance : KeyedItem (MapEntry K V) (MapKey K) where
  key entry := .some entry.key

structure TreeMap (K V : Type) where
  tree : SumTree (MapEntry K V) (MapKey K)

namespace TreeMap

/-- `sort_unstable_by_key` on the edits of a map. -/
abbrev EditSort (K V : Type) :=
  List (Edit (MapEntry K V) (MapKey K)) → List (Edit (MapEntry K V) (MapKey K))

def default : TreeMap K V := ⟨.new⟩

def fromOrderedEntries (entries : List (K × V)) : Except Panic (TreeMap K V) := do
  return ⟨← SumTree.fromIter (entries.map MapEntry.ofPair)⟩

def isEmpty (self : TreeMap K V) : Bool := self.tree.isEmpty

def clear (_ : TreeMap K V) : TreeMap K V := default

def first (self : TreeMap K V) : Except Panic (Option (K × V)) := do
  return (← self.tree.first).map MapEntry.pair

def last (self : TreeMap K V) : Except Panic (Option (K × V)) := do
  return (← self.tree.last).map MapEntry.pair

/-- The pairs that `iter` yields. -/
def iter (self : TreeMap K V) : Except Panic (List (K × V)) := do
  return (← drain Iter.next (self.tree.weight + 1) self.tree.iter).map MapEntry.pair

/-- One round of the loop of `retain`. The predicate is an `FnMut` and carries its state along. -/
def retainStep (predicate : σ → K → V → Bool × σ) :
    Cursor (MapEntry K V) (MapKey K) (MapKey K) × SumTree (MapEntry K V) (MapKey K) × σ →
    Except Panic ((Cursor (MapEntry K V) (MapKey K) (MapKey K) ×
      SumTree (MapEntry K V) (MapKey K) × σ) ⊕ (SumTree (MapEntry K V) (MapKey K) × σ))
  | (cursor, newMap, s) => do
    match ← cursor.item with
    | none => return .inr (newMap, s)
    | some item =>
      let (keep, s) := predicate s item.key item.value
      let newMap ← if keep then newMap.pushItem item else pure newMap
      return .inl (← cursor.next, newMap, s)

def retain (self : TreeMap K V) (predicate : σ → K → V → Bool × σ) (s : σ) :
    Except Panic (σ × TreeMap K V) := do
  let cursor ← (Cursor.new self.tree : Cursor _ _ (MapKey K)).next
  let (newMap, s) ← loopFor (retainStep predicate) (self.tree.weight + 1) (cursor, .new, s)
  return (s, ⟨newMap⟩)

variable [LinearOrder K]

def get (self : TreeMap K V) (key : K) : Option V :=
  match (self.tree.find (.ofOrd (MapKey.some key)) .left).2.2 with
  | some item => if MapKey.some key = KeyedItem.key item then some item.value else none
  | none => none

def containsKey (self : TreeMap K V) (key : K) : Bool := (self.get key).isSome

def insert (self : TreeMap K V) (key : K) (value : V) : Except Panic (TreeMap K V) := do
  return ⟨(← self.tree.insertOrReplace ⟨key, value⟩).2⟩

def insertOrReplace (self : TreeMap K V) (key : K) (value : V) :
    Except Panic (Option V × TreeMap K V) := do
  let (replaced, tree) ← self.tree.insertOrReplace ⟨key, value⟩
  return (replaced.map MapEntry.value, ⟨tree⟩)

def extend (sort : EditSort K V) (self : TreeMap K V) (list : List (K × V)) :
    Except Panic (TreeMap K V) := do
  return ⟨(← self.tree.edit sort (list.map fun pair => .insert (MapEntry.ofPair pair))).2⟩

def insertTree (sort : EditSort K V) (self other : TreeMap K V) : Except Panic (TreeMap K V) := do
  let edits := (← other.iter).map fun pair => .insert (MapEntry.ofPair pair)
  return ⟨(← self.tree.edit sort edits).2⟩

def remove (self : TreeMap K V) (key : K) : Except Panic (Option V × TreeMap K V) := do
  let key := SeekTarget.ofOrd (MapKey.some key)
  let (newTree, cursor) ← (Cursor.new self.tree : Cursor _ _ (MapKey K)).slice key .left
  let (removed, cursor) ←
    if key.cmp (← cursor.endPosition) = .eq then do
      let item ← unwrap (← cursor.item)
      pure (some item.value, ← cursor.next)
    else pure (none, cursor)
  let (rest, _) ← cursor.suffix
  return (removed, ⟨← newTree.append rest⟩)

def closest (self : TreeMap K V) (key : K) : Except Panic (Option (K × V)) := do
  let (_, cursor) ← (Cursor.new self.tree : Cursor _ _ (MapKey K)).seek
    (.ofOrd (MapKey.some key)) .right
  let cursor ← cursor.prev
  return (← cursor.item).map MapEntry.pair

/-- The pairs that `iter_from` yields. -/
def iterFrom (self : TreeMap K V) (start : K) : Except Panic (List (K × V)) := do
  let (_, cursor) ← (Cursor.new self.tree : Cursor _ _ (MapKey K)).seek
    (.ofOrd (MapKey.some start)) .left
  return (← drain iteratorNext (self.tree.weight + 1) cursor).map MapEntry.pair

def update (self : TreeMap K V) (key : K) (f : V → V × R) :
    Except Panic (Option R × TreeMap K V) := do
  let key := SeekTarget.ofOrd (MapKey.some key)
  let (newTree, cursor) ← (Cursor.new self.tree : Cursor _ _ (MapKey K)).slice key .left
  let (result, newTree, cursor) ←
    if key.cmp (← cursor.endPosition) = .eq then do
      let updated ← unwrap (← cursor.item)
      let (value, result) := f updated.value
      let newTree ← newTree.pushItem { updated with value := value }
      pure (some result, newTree, ← cursor.next)
    else pure (none, newTree, cursor)
  let (rest, _) ← cursor.suffix
  return (result, ⟨← newTree.append rest⟩)

end TreeMap

/-! ## Sorted association lists -/

abbrev AssocList (K V : Type) := List (MapEntry K V)

namespace AssocList

def retain (predicate : σ → K → V → Bool × σ) : σ → AssocList K V → σ × AssocList K V
  | s, [] => (s, [])
  | s, entry :: entries =>
    let (keep, s) := predicate s entry.key entry.value
    let (s, rest) := retain predicate s entries
    (s, if keep then entry :: rest else rest)

variable [LinearOrder K]

def get (entries : AssocList K V) (key : K) : Option V :=
  (entryAt MapEntry.key key entries).map MapEntry.value

def insert (entries : AssocList K V) (key : K) (value : V) : AssocList K V :=
  replaceAt MapEntry.key key (some ⟨key, value⟩) entries

def remove (entries : AssocList K V) (key : K) : AssocList K V :=
  replaceAt MapEntry.key key none entries

def update (entries : AssocList K V) (key : K) (f : V → V × R) : Option R × AssocList K V :=
  match entries.get key with
  | some value => (some (f value).2, entries.insert key (f value).1)
  | none => (none, entries)

def extend (entries : AssocList K V) (list : List (K × V)) : AssocList K V :=
  list.foldl (fun entries pair => entries.insert pair.1 pair.2) entries

/-- The entry with the greatest key that is not above `key`. -/
def closest (entries : AssocList K V) (key : K) : Option (MapEntry K V) :=
  (entries.filter fun entry => entry.key ≤ key).getLast?

def iterFrom (entries : AssocList K V) (start : K) : AssocList K V :=
  entries.filter fun entry => start ≤ entry.key

end AssocList

/-! ## Keys with and without the wrapper -/

section Wrapped

variable [LinearOrder K]

instance : LawfulKeyedItem (MapEntry K V) (MapKey K) (MapKey K) where
  addSummary_eq _ _ := rfl
  zero_le k := (bot_le : (⊥ : WithBot K) ≤ k)

theorem MapKey.some_lt {j k : K} : MapKey.some j < MapKey.some k ↔ j < k := WithBot.coe_lt_coe

omit [LinearOrder K] in
theorem MapKey.some_inj {j k : K} : MapKey.some j = MapKey.some k ↔ j = k := WithBot.coe_inj

variable (k : K) (entries : AssocList K V)

theorem below_some : below keyOf (MapKey.some k) entries = below MapEntry.key k entries :=
  List.filter_congr fun _ _ => decide_eq_decide.mpr MapKey.some_lt

theorem above_some : above keyOf (MapKey.some k) entries = above MapEntry.key k entries :=
  List.filter_congr fun _ _ => decide_eq_decide.mpr MapKey.some_lt

theorem entryAt_some : entryAt keyOf (MapKey.some k) entries = entryAt MapEntry.key k entries := by
  rw [entryAt, entryAt]
  congr
  funext entry
  exact decide_eq_decide.mpr MapKey.some_inj

theorem replaceAt_some (new : Option (MapEntry K V)) :
    replaceAt keyOf (MapKey.some k) new entries = replaceAt MapEntry.key k new entries := by
  rw [replaceAt, replaceAt, below_some, above_some]

theorem ascending_some {entries : AssocList K V} : Ascending keyOf entries ↔ Ascending MapEntry.key entries :=
  List.Pairwise.iff fun _ _ => MapKey.some_lt

end Wrapped

/-! ## Reading -/

namespace TreeMap

variable [LinearOrder K]

/-- A map that holds `entries`: its tree is well-formed and the keys ascend strictly. -/
structure Holds (map : TreeMap K V) (entries : AssocList K V) : Prop where
  wellFormed : WellFormed map.tree
  items : map.tree.toList = entries
  ascending : Ascending MapEntry.key entries

variable {map : TreeMap K V} {entries : AssocList K V}

theorem Holds.ordered (holds : Holds map entries) : Ascending keyOf map.tree.toList := by
  rw [holds.items]
  exact ascending_some.mpr holds.ascending

theorem Holds.default : Holds (default : TreeMap K V) [] := ⟨.inl rfl, rfl, .nil⟩

theorem Holds.iter_eq (holds : Holds map entries) (shallow : Shallow map.tree) :
    map.iter = .ok (entries.map MapEntry.pair) := by
  rw [iter, Iter.drain_toList holds.wellFormed shallow, holds.items]
  rfl

theorem Holds.get_eq (holds : Holds map entries) (key : K) : map.get key = entries.get key := by
  have found := find_item holds.wellFormed (monotone_key holds.ordered (MapKey.some key) .left)
  rw [passed_left holds.ordered, drop_below holds.ordered, holds.items, entryAt_some, above_some] at found
  rw [get, found, AssocList.get]
  cases entry : entryAt MapEntry.key key entries with
  | some item =>
    have same : MapKey.some key = KeyedItem.key item := MapKey.some_inj.mpr (entryAt_eq_some entry).symm
    simp only [Option.toList_some, List.singleton_append, List.head?_cons, if_pos same, Option.map_some]
  | none =>
    cases higher : above MapEntry.key key entries with
    | nil => rfl
    | cons item rest =>
      have high : key < item.key := lt_of_mem_above (by rw [higher]; simp)
      have apart : ¬ MapKey.some key = KeyedItem.key item := fun same => high.ne (MapKey.some_inj.mp same)
      simp only [Option.toList_none, List.nil_append, List.head?_cons, if_neg apart, Option.map_none]

theorem Holds.containsKey_eq (holds : Holds map entries) (key : K) :
    map.containsKey key = (entries.get key).isSome := by
  rw [containsKey, holds.get_eq]

theorem Holds.isEmpty_eq (holds : Holds map entries) : map.isEmpty = entries.isEmpty := by
  rw [isEmpty, ← toList_isEmpty holds.wellFormed, holds.items]

theorem Holds.first_eq (holds : Holds map entries) : map.first = .ok (entries.head?.map MapEntry.pair) := by
  rw [first, first_spec holds.wellFormed, holds.items]
  rfl

theorem Holds.last_eq (holds : Holds map entries) : map.last = .ok (entries.getLast?.map MapEntry.pair) := by
  rw [last, last_spec holds.wellFormed, holds.items]
  rfl

theorem Holds.closest_eq (holds : Holds map entries) (shallow : Shallow map.tree) (key : K) :
    map.closest key = .ok ((entries.closest key).map MapEntry.pair) := by
  obtain ⟨found, cursor, sought, rests⟩ := seek_new holds.wellFormed shallow
    (monotone_key holds.ordered (MapKey.some key) .right)
    (isGE_ofOrd (LawfulKeyedItem.zero_le (MapEntry K V) _))
  obtain ⟨moved, stepped, read⟩ := rests.prev holds.wellFormed shallow
  have behind : passed (SeekTarget.ofOrd (MapKey.some key)) .right (Dimension.zero (MapKey K))
      map.tree.toList = entries.filter fun entry => entry.key ≤ key := by
    rw [passed_eq_takeWhile, holds.items, ← holds.ascending.takeWhile_le]
    congr
    funext entry
    rw [passes_ofOrd]
    exact decide_eq_decide.mpr WithBot.coe_le_coe
  rw [behind] at read
  simp only [closest, sought, ok_bind, stepped, read]
  rfl

theorem Holds.iterFrom_eq (holds : Holds map entries) (shallow : Shallow map.tree) (start : K) :
    map.iterFrom start = .ok ((entries.iterFrom start).map MapEntry.pair) := by
  obtain ⟨found, cursor, sought, rests⟩ := seek_new holds.wellFormed shallow
    (monotone_key holds.ordered (MapKey.some start) .left)
    (isGE_ofOrd (LawfulKeyedItem.zero_le (MapEntry K V) _))
  rw [passed_left holds.ordered, drop_below holds.ordered, holds.items, below_some, entryAt_some,
    above_some, ← holds.ascending.filter_ge] at rests
  have few : (entries.iterFrom start).length < map.tree.weight + 1 := by
    have all := Iter.length_le_weight holds.wellFormed
    have some := List.length_filter_le (fun entry : MapEntry K V => decide (start ≤ entry.key)) entries
    rw [holds.items] at all
    exact Nat.lt_succ_of_le (some.trans all)
  have drained := (rests.yields shallow).drain few
  simp only [iterFrom, sought, ok_bind, drained]
  rfl

/-! ## Writing -/

theorem Holds.replace {tree : SumTree (MapEntry K V) (MapKey K)} (holds : Holds map entries)
    {key : K} {new : Option (MapEntry K V)} (placed : ∀ entry ∈ new, entry.key = key)
    (wellFormed : WellFormed tree) (items : tree.toList = replaceAt MapEntry.key key new entries) :
    Holds ⟨tree⟩ (replaceAt MapEntry.key key new entries) :=
  ⟨wellFormed, items, holds.ascending.replaceAt placed⟩

theorem Holds.insert_tree (holds : Holds map entries) (shallow : Shallow map.tree) (key : K) (value : V) : ∃ tree,
    map.tree.insertOrReplace ⟨key, value⟩ = .ok (entryAt MapEntry.key key entries, tree) ∧
    Holds ⟨tree⟩ (entries.insert key value) := by
  obtain ⟨tree, replaced, wellFormed, items⟩ := insertOrReplace_spec holds.wellFormed shallow holds.ordered ⟨key, value⟩
  have place : keyOf (⟨key, value⟩ : MapEntry K V) = MapKey.some key := rfl
  rw [place, holds.items, entryAt_some] at replaced
  rw [place, holds.items, replaceAt_some] at items
  exact ⟨tree, replaced, holds.replace (by simp) wellFormed items⟩

theorem Holds.insert_eq (holds : Holds map entries) (shallow : Shallow map.tree) (key : K) (value : V) :
    ∃ map', map.insert key value = .ok map' ∧ Holds map' (entries.insert key value) := by
  obtain ⟨tree, replaced, holds'⟩ := holds.insert_tree shallow key value
  exact ⟨⟨tree⟩, bind_eq_ok.mpr ⟨_, replaced, rfl⟩, holds'⟩

theorem Holds.insertOrReplace_eq (holds : Holds map entries) (shallow : Shallow map.tree) (key : K) (value : V) :
    ∃ map', map.insertOrReplace key value = .ok (entries.get key, map') ∧ Holds map' (entries.insert key value) := by
  obtain ⟨tree, replaced, holds'⟩ := holds.insert_tree shallow key value
  exact ⟨⟨tree⟩, bind_eq_ok.mpr ⟨_, replaced, rfl⟩, holds'⟩

/-- Where `remove` and `update` look for the key. -/
structure AtKey (map : TreeMap K V) (entries : AssocList K V) (key : K)
    (slice : SumTree (MapEntry K V) (MapKey K))
    (cursor : Cursor (MapEntry K V) (MapKey K) (MapKey K)) : Prop where
  sliced : (Cursor.new map.tree : Cursor _ _ (MapKey K)).slice (.ofOrd (MapKey.some key)) .left = .ok (slice, cursor)
  wellFormed : WellFormed slice
  low : slice.height ≤ 19
  held : slice.toList = below MapEntry.key key entries
  rests : Rests map.tree cursor (below MapEntry.key key entries)
    ((entryAt MapEntry.key key entries).toList ++ above MapEntry.key key entries)

theorem Holds.slice (holds : Holds map entries) (shallow : Shallow map.tree) (key : K) :
    ∃ slice cursor, AtKey map entries key slice cursor := by
  obtain ⟨slice, cursor, sliced, wellFormed, low, held, rests⟩ :=
    slice_new_key holds.wellFormed shallow holds.ordered (MapKey.some key)
  rw [holds.items, below_some] at held rests
  rw [entryAt_some, above_some] at rests
  exact ⟨slice, cursor, sliced, wellFormed, low, held, rests⟩

section AtKey

variable {key : K} {slice : SumTree (MapEntry K V) (MapKey K)}
  {cursor : Cursor (MapEntry K V) (MapKey K) (MapKey K)}

theorem AtKey.end_eq (at_ : AtKey map entries key slice cursor) : ∃ d, cursor.endPosition = .ok d ∧
    ((SeekTarget.ofOrd (MapKey.some key)).cmp d = .eq ↔ (entryAt MapEntry.key key entries).isSome = true) := by
  refine ⟨_, at_.rests.endPosition_eq, ?_⟩
  change compare (MapKey.some key) _ = .eq ↔ _
  rw [compare_eq_iff_eq]
  cases entry : entryAt MapEntry.key key entries with
  | some item =>
    have same : MapKey.some key = keyOf item := MapKey.some_inj.mpr (entryAt_eq_some entry).symm
    simp only [Option.toList_some, List.singleton_append, List.take_succ_cons, List.take_zero,
      measure_key, same, Option.isSome_some]
  | none =>
    simp only [Option.toList_none, List.nil_append, Option.isSome_none, Bool.false_eq_true, iff_false]
    cases higher : above MapEntry.key key entries with
    | cons item rest =>
      have high : key < item.key := lt_of_mem_above (by rw [higher]; simp)
      rw [List.take_succ_cons, List.take_zero, measure_key]
      exact fun same => high.ne (MapKey.some_inj.mp same)
    | nil =>
      rw [List.take_nil, List.append_nil]
      rcases List.eq_nil_or_concat' (below MapEntry.key key entries) with none | ⟨init, last, split⟩
      · rw [none]
        exact WithBot.coe_ne_bot
      · have lower : last.key < key := lt_of_mem_below (by rw [split]; simp)
        rw [split, measure_key]
        exact fun same => lower.ne' (MapKey.some_inj.mp same)

theorem AtKey.present (at_ : AtKey map entries key slice cursor) (shallow : Shallow map.tree) {item : MapEntry K V}
    (found : entryAt MapEntry.key key entries = some item) : cursor.item = .ok (some item) ∧ ∃ moved,
    cursor.next = .ok moved ∧ Rests map.tree moved (below MapEntry.key key entries ++ [item])
    (above MapEntry.key key entries) := by
  have rests := at_.rests
  rw [found] at rests
  exact ⟨rests.item_eq, rests.next shallow⟩

theorem Holds.rejoin (holds : Holds map entries) (shallow : Shallow map.tree)
    {front : SumTree (MapEntry K V) (MapKey K)} {new : Option (MapEntry K V)} (placed : ∀ entry ∈ new, entry.key = key)
    (frontWellFormed : WellFormed front) (frontLow : front.height ≤ 20)
    (frontItems : front.toList = below MapEntry.key key entries ++ new.toList)
    {moved : Cursor (MapEntry K V) (MapKey K) (MapKey K)} {before : AssocList K V}
    (rests : Rests map.tree moved before (above MapEntry.key key entries)) : ∃ rest last tree,
    moved.suffix = .ok (rest, last) ∧ front.append rest = .ok tree ∧
    Holds ⟨tree⟩ (replaceAt MapEntry.key key new entries) := by
  obtain ⟨rest, last, suffixEq, restWellFormed, restLow, restItems⟩ := rests.suffix shallow
  obtain ⟨tree, appended, wellFormed, items, -⟩ := append_below frontWellFormed restWellFormed (by omega) (by omega)
  refine ⟨rest, last, tree, suffixEq, appended, holds.replace placed wellFormed ?_⟩
  rw [items, frontItems, restItems, replaceAt, List.append_assoc]

end AtKey

theorem Holds.remove_eq (holds : Holds map entries) (shallow : Shallow map.tree) (key : K) :
    ∃ map', map.remove key = .ok (entries.get key, map') ∧ Holds map' (entries.remove key) := by
  obtain ⟨slice, cursor, at_⟩ := holds.slice shallow key
  obtain ⟨d, ends, found⟩ := at_.end_eq
  have low : slice.height ≤ 20 := Nat.le_succ_of_le at_.low
  have held : slice.toList = below MapEntry.key key entries ++ (none : Option (MapEntry K V)).toList := by
    rw [at_.held, Option.toList_none, List.append_nil]
  simp only [remove, at_.sliced, ok_bind, ends, AssocList.get]
  cases entry : entryAt MapEntry.key key entries with
  | some item =>
    obtain ⟨read, moved, stepped, rests⟩ := at_.present shallow entry
    obtain ⟨rest, last, tree, suffixEq, appended, holds'⟩ :=
      holds.rejoin shallow (by simp) at_.wellFormed low held rests
    rw [if_pos (found.mpr (by rw [entry]; rfl))]
    simp only [read, ok_bind, unwrap_some, stepped, pure_bind, suffixEq, appended]
    exact ⟨_, rfl, holds'⟩
  | none =>
    have rests := at_.rests
    rw [entry, Option.toList_none, List.nil_append] at rests
    obtain ⟨rest, last, tree, suffixEq, appended, holds'⟩ :=
      holds.rejoin shallow (by simp) at_.wellFormed low held rests
    rw [if_neg fun same => by simp [entry] at found; exact found same]
    simp only [pure_bind, suffixEq, ok_bind, appended]
    exact ⟨_, rfl, holds'⟩

theorem Holds.update_eq (holds : Holds map entries) (shallow : Shallow map.tree) (key : K) (f : V → V × R) :
    ∃ map', map.update key f = .ok ((entries.update key f).1, map') ∧ Holds map' (entries.update key f).2 := by
  obtain ⟨slice, cursor, at_⟩ := holds.slice shallow key
  obtain ⟨d, ends, found⟩ := at_.end_eq
  have low := at_.low
  simp only [update, at_.sliced, ok_bind, ends, AssocList.update, AssocList.get]
  cases entry : entryAt MapEntry.key key entries with
  | some item =>
    obtain ⟨read, moved, stepped, rests⟩ := at_.present shallow entry
    have itemKey : item.key = key := entryAt_eq_some entry
    obtain ⟨pushed, pushedEq, pushedWellFormed, pushedItems, pushedLow⟩ :=
      pushItem_below at_.wellFormed (by omega) { item with value := (f item.value).1 }
    rw [at_.held] at pushedItems
    have placed : ∀ entry ∈ some { item with value := (f item.value).1 }, entry.key = key := by
      simpa using itemKey
    obtain ⟨rest, last, tree, suffixEq, appended, holds'⟩ :=
      holds.rejoin shallow placed pushedWellFormed (by omega) pushedItems rests
    rw [if_pos (found.mpr (by rw [entry]; rfl))]
    simp only [read, ok_bind, unwrap_some, pushedEq, stepped, pure_bind, suffixEq, appended]
    rw [itemKey] at holds'
    exact ⟨_, rfl, holds'⟩
  | none =>
    have rests := at_.rests
    rw [entry, Option.toList_none, List.nil_append] at rests
    obtain ⟨rest, last, tree, suffixEq, appended, holds'⟩ := holds.rejoin shallow (by simp) at_.wellFormed (by omega)
        (show _ = _ ++ none.toList by rw [at_.held, Option.toList_none, List.append_nil]) rests
    rw [if_neg fun same => by simp [entry] at found; exact found same]
    simp only [pure_bind, suffixEq, ok_bind, appended]
    refine ⟨_, rfl, ?_⟩
    rw [← entry, holds.ascending.replaceAt_self] at holds'
    exact holds'

omit [LinearOrder K] in
theorem retainLoop_spec (predicate : σ → K → V → Bool × σ) {root : SumTree (MapEntry K V) (MapKey K)}
    (shallow : Shallow root) {cursor : Cursor (MapEntry K V) (MapKey K) (MapKey K)} {before after : AssocList K V}
    (rests : Rests root cursor before after) {newMap : SumTree (MapEntry K V) (MapKey K)} {n : Nat}
    (low : Low 0 n newMap) (few : n + after.length ≤ appendBudget) (s : σ) {fuel : Nat} (enough : after.length < fuel) :
    ∃ tree,
    loopFor (retainStep predicate) fuel (cursor, newMap, s) = .ok (tree, (AssocList.retain predicate s after).1) ∧
    WellFormed tree ∧ tree.toList = newMap.toList ++ (AssocList.retain predicate s after).2 := by
  induction after generalizing cursor before newMap n s fuel with
  | nil =>
    obtain ⟨fuel, rfl⟩ := Nat.exists_eq_add_one.mpr enough
    refine ⟨newMap, ?_, low.wellFormed, by simp [AssocList.retain]⟩
    simp only [loopFor, retainStep, rests.item_eq, ok_bind]
    rfl
  | cons entry after ih =>
    obtain ⟨fuel, rfl⟩ := Nat.exists_eq_add_one.mpr (Nat.zero_lt_of_lt enough)
    rw [List.length_cons] at few enough
    obtain ⟨moved, stepped, rests'⟩ := rests.next shallow
    simp only [loopFor, retainStep, rests.item_eq, List.head?_cons, ok_bind, AssocList.retain]
    cases kept : (predicate s entry.key entry.value).1 with
    | true =>
      obtain ⟨pushed, pushedEq, pushedItems, pushedLow⟩ :=
        append_within low (.inr ⟨0, balanced_single entry⟩) (Nat.le_refl 0) (show n ≤ appendBudget by omega) (by decide)
      have pushedEq : newMap.pushItem entry = .ok pushed := pushedEq
      obtain ⟨tree, looped, wellFormed, items⟩ := ih rests' pushedLow (by omega)
        (predicate s entry.key entry.value).2 (show after.length < fuel by omega)
      refine ⟨tree, ?_, wellFormed, ?_⟩
      · simp only [if_true, pushedEq, ok_bind, stepped]
        exact looped
      · rw [items, pushedItems]
        simp
    | false =>
      obtain ⟨tree, looped, wellFormed, items⟩ := ih rests' low (by omega)
        (predicate s entry.key entry.value).2 (show after.length < fuel by omega)
      refine ⟨tree, ?_, wellFormed, ?_⟩
      · simp only [Bool.false_eq_true, if_false, pure_bind, stepped, ok_bind]
        exact looped
      · rw [items]
        simp

omit [LinearOrder K] in
theorem retain_sublist (predicate : σ → K → V → Bool × σ) (s : σ) (entries : AssocList K V) :
    (AssocList.retain predicate s entries).2.Sublist entries := by
  induction entries generalizing s with
  | nil => exact .slnil
  | cons entry entries ih =>
    simp only [AssocList.retain]
    split
    · exact (ih _).cons_cons entry
    · exact (ih _).cons entry

theorem Holds.retain_eq (holds : Holds map entries) (shallow : Shallow map.tree) (predicate : σ → K → V → Bool × σ)
    (s : σ) : ∃ map', map.retain predicate s = .ok ((AssocList.retain predicate s entries).1, map') ∧
    Holds map' (AssocList.retain predicate s entries).2 := by
  obtain ⟨cursor, stepped, rests⟩ := Cursor.next_new (D := MapKey K) holds.wellFormed shallow
  have few := length_lt_of_shallow holds.wellFormed shallow
  have enough := Iter.length_le_weight holds.wellFormed
  rw [holds.items] at rests few enough
  obtain ⟨tree, looped, wellFormed, items⟩ := retainLoop_spec predicate shallow rests Low.new
    (by rw [appendBudget]; omega) s (Nat.lt_succ_of_le enough)
  refine ⟨⟨tree⟩, ?_, wellFormed, items, ?_⟩
  · simp only [retain, stepped, ok_bind, looped]
    rfl
  · exact holds.ascending.sublist (retain_sublist predicate s entries)

/-! ## Many entries at once -/

theorem applyEdits_insert (list : List (K × V)) (entries : AssocList K V) : applyEdits keyOf Edit.key Edit.inserted
      (list.map fun pair => Edit.insert (MapEntry.ofPair pair)) entries = entries.extend list := by
  rw [applyEdits, List.foldl_map, AssocList.extend]
  congr
  funext entries pair
  exact replaceAt_some pair.1 entries _

theorem ascending_extend (ascending : Ascending MapEntry.key entries) (list : List (K × V)) :
    Ascending MapEntry.key (entries.extend list) := by
  induction list generalizing entries with
  | nil => exact ascending
  | cons pair list ih => exact ih (ascending.replaceAt (by simp))

theorem Holds.edit_eq {sort : EditSort K V} (sorts : SortsByKey sort) (holds : Holds map entries)
    (shallow : Shallow map.tree) (list : List (K × V)) (distinct : (list.map Prod.fst).Nodup)
    (fits : list.length < 2 ^ 64) :
    ∃ removed tree, map.tree.edit sort (list.map fun pair => .insert (MapEntry.ofPair pair)) = .ok (removed, tree) ∧
      Holds ⟨tree⟩ (entries.extend list) := by
  obtain ⟨removed, tree, edited, wellFormed, items, -⟩ := edit_spec shallow holds.ordered sorts
    holds.wellFormed (list.map fun pair => .insert (MapEntry.ofPair pair)) (by simpa using fits)
  have places : (list.map fun pair => Edit.insert (MapEntry.ofPair pair)).map
      (Edit.key : Edit (MapEntry K V) (MapKey K) → _) = (list.map Prod.fst).map MapKey.some := by
    rw [List.map_map, List.map_map]
    rfl
  rw [mergeEdits_sorted Edit.key_of_inserted (sorts.perm _) (sorts.ordered _)
    (by rw [places]; exact distinct.map fun _ _ => MapKey.some_inj.mp), applyEdits_insert,
    holds.items] at items
  exact ⟨removed, tree, edited, wellFormed, items, ascending_extend holds.ascending list⟩

theorem Holds.extend_eq {sort : EditSort K V} (sorts : SortsByKey sort) (holds : Holds map entries)
    (shallow : Shallow map.tree) (list : List (K × V)) (distinct : (list.map Prod.fst).Nodup)
    (fits : list.length < 2 ^ 64) : ∃ map', map.extend sort list = .ok map' ∧ Holds map' (entries.extend list) := by
  obtain ⟨removed, tree, edited, holds'⟩ := holds.edit_eq sorts shallow list distinct fits
  exact ⟨⟨tree⟩, bind_eq_ok.mpr ⟨_, edited, rfl⟩, holds'⟩

theorem Holds.insertTree_eq {sort : EditSort K V} (sorts : SortsByKey sort)
    (holds : Holds map entries) (shallow : Shallow map.tree) {other : TreeMap K V}
    {others : AssocList K V} (otherHolds : Holds other others) (otherShallow : Shallow other.tree) :
    ∃ map', map.insertTree sort other = .ok map' ∧ Holds map' (entries.extend (others.map MapEntry.pair)) := by
  have few := length_lt_of_shallow otherHolds.wellFormed otherShallow
  rw [otherHolds.items] at few
  have distinct : ((others.map MapEntry.pair).map Prod.fst).Nodup := by
    rw [List.map_map]
    exact List.pairwise_map.mpr (otherHolds.ascending.imp fun less => less.ne)
  obtain ⟨removed, tree, edited, holds'⟩ :=
    holds.edit_eq sorts shallow (others.map MapEntry.pair) distinct (by simpa using few)
  refine ⟨⟨tree⟩, ?_, holds'⟩
  rw [insertTree, otherHolds.iter_eq otherShallow, ok_bind]
  simp only [edited, ok_bind]
  rfl

theorem fromOrderedEntries_holds (list : List (K × V))
    (ascending : Ascending Prod.fst list) (fits : list.length < 2 ^ 64) :
    ∃ map, fromOrderedEntries list = .ok map ∧ Holds map (list.map MapEntry.ofPair) := by
  obtain ⟨tree, built, wellFormed, items, -⟩ :=
    fromIter_low (S := MapKey K) (list.map MapEntry.ofPair) (by simpa using fits)
  refine ⟨⟨tree⟩, bind_eq_ok.mpr ⟨_, built, rfl⟩, wellFormed, items, ?_⟩
  exact List.pairwise_map.mpr ascending

/-! ## Runs -/

inductive Op (K V R σ : Type) where
  | insert (key : K) (value : V)
  | insertOrReplace (key : K) (value : V)
  | remove (key : K)
  | update (key : K) (f : V → V × R)
  | retain (predicate : σ → K → V → Bool × σ) (s : σ)
  | extend (list : List (K × V))
  | clear

inductive Outcome (V R σ : Type) where
  | unit
  | old (value : Option V)
  | result (result : Option R)
  | state (s : σ)

def apply (sort : EditSort K V) (self : TreeMap K V) :
    Op K V R σ → Except Panic (Outcome V R σ × TreeMap K V)
  | .insert key value => return (.unit, ← self.insert key value)
  | .insertOrReplace key value => do
    let (old, self) ← self.insertOrReplace key value
    return (.old old, self)
  | .remove key => do
    let (old, self) ← self.remove key
    return (.old old, self)
  | .update key f => do
    let (result, self) ← self.update key f
    return (.result result, self)
  | .retain predicate s => do
    let (s, self) ← self.retain predicate s
    return (.state s, self)
  | .extend list => return (.unit, ← self.extend sort list)
  | .clear => return (.unit, self.clear)

def applyList (entries : AssocList K V) : Op K V R σ → Outcome V R σ × AssocList K V
  | .insert key value => (.unit, entries.insert key value)
  | .insertOrReplace key value => (.old (entries.get key), entries.insert key value)
  | .remove key => (.old (entries.get key), entries.remove key)
  | .update key f => (.result (entries.update key f).1, (entries.update key f).2)
  | .retain predicate s =>
    (.state (AssocList.retain predicate s entries).1, (AssocList.retain predicate s entries).2)
  | .extend list => (.unit, entries.extend list)
  | .clear => (.unit, [])

/-- Where the code makes a step faithfully: cursors can walk the tree, and `extend` is given no key
twice. -/
def Meets (self : TreeMap K V) : Op K V R σ → Prop
  | .extend list => Shallow self.tree ∧ list.length < 2 ^ 64 ∧ (list.map Prod.fst).Nodup
  | .clear => True
  | _ => Shallow self.tree

theorem Holds.apply_eq {sort : EditSort K V} (sorts : SortsByKey sort) (holds : Holds map entries)
    (op : Op K V R σ) (meets : Meets map op) :
    ∃ map', map.apply sort op = .ok ((applyList entries op).1, map') ∧ Holds map' (applyList entries op).2 := by
  cases op with
  | insert key value =>
    obtain ⟨map', eq, holds'⟩ := holds.insert_eq meets key value
    exact ⟨map', bind_eq_ok.mpr ⟨_, eq, rfl⟩, holds'⟩
  | insertOrReplace key value =>
    obtain ⟨map', eq, holds'⟩ := holds.insertOrReplace_eq meets key value
    exact ⟨map', bind_eq_ok.mpr ⟨_, eq, rfl⟩, holds'⟩
  | remove key =>
    obtain ⟨map', eq, holds'⟩ := holds.remove_eq meets key
    exact ⟨map', bind_eq_ok.mpr ⟨_, eq, rfl⟩, holds'⟩
  | update key f =>
    obtain ⟨map', eq, holds'⟩ := holds.update_eq meets key f
    exact ⟨map', bind_eq_ok.mpr ⟨_, eq, rfl⟩, holds'⟩
  | retain predicate s =>
    obtain ⟨map', eq, holds'⟩ := holds.retain_eq meets predicate s
    exact ⟨map', bind_eq_ok.mpr ⟨_, eq, rfl⟩, holds'⟩
  | extend list =>
    obtain ⟨map', eq, holds'⟩ := holds.extend_eq sorts meets.1 list meets.2.2 meets.2.1
    exact ⟨map', bind_eq_ok.mpr ⟨_, eq, rfl⟩, holds'⟩
  | clear => exact ⟨TreeMap.default, rfl, .default⟩

/-- `Reaches sort map entries`: a run of the map, whose steps all meet the condition, ends in `map`
while the same run of the association list ends in `entries`. -/
inductive Reaches (R σ : Type) (sort : EditSort K V) : TreeMap K V → AssocList K V → Prop where
  | default : Reaches R σ sort default []
  | ordered {list : List (K × V)} {map : TreeMap K V} (ascending : Ascending Prod.fst list)
      (fits : list.length < 2 ^ 64) (built : fromOrderedEntries list = .ok map) :
      Reaches R σ sort map (list.map MapEntry.ofPair)
  | step {map map' : TreeMap K V} {entries : AssocList K V} {op : Op K V R σ}
      {outcome : Outcome V R σ} (before : Reaches R σ sort map entries) (meets : Meets map op)
      (applied : map.apply sort op = .ok (outcome, map')) :
      Reaches R σ sort map' (applyList entries op).2
  | insertTree {map other map' : TreeMap K V} {entries others : AssocList K V}
      (before : Reaches R σ sort map entries) (otherBefore : Reaches R σ sort other others)
      (shallow : Shallow map.tree) (otherShallow : Shallow other.tree)
      (applied : map.insertTree sort other = .ok map') :
      Reaches R σ sort map' (entries.extend (others.map MapEntry.pair))

theorem Reaches.holds {sort : EditSort K V} (sorts : SortsByKey sort)
    (reaches : Reaches R σ sort map entries) : Holds map entries := by
  induction reaches with
  | default => exact .default
  | ordered ascending fits built =>
    obtain ⟨map', eq, holds⟩ := fromOrderedEntries_holds _ ascending fits
    cases built.symm.trans eq
    exact holds
  | @step map map' entries op outcome before meets applied ih =>
    obtain ⟨map'', eq, holds⟩ := ih.apply_eq sorts op meets
    cases applied.symm.trans eq
    exact holds
  | insertTree before otherBefore shallow otherShallow applied ih otherIh =>
    obtain ⟨map'', eq, holds⟩ := ih.insertTree_eq sorts shallow otherIh otherShallow
    cases applied.symm.trans eq
    exact holds

structure Observes (map : TreeMap K V) (entries : AssocList K V) : Prop where
  ascending : Ascending MapEntry.key entries
  iter : map.iter = .ok (entries.map MapEntry.pair)
  isEmpty : map.isEmpty = entries.isEmpty
  get : ∀ key, map.get key = entries.get key
  containsKey : ∀ key, map.containsKey key = (entries.get key).isSome
  closest : ∀ key, map.closest key = .ok ((entries.closest key).map MapEntry.pair)
  iterFrom : ∀ start, map.iterFrom start = .ok ((entries.iterFrom start).map MapEntry.pair)
  first : map.first = .ok (entries.head?.map MapEntry.pair)
  last : map.last = .ok (entries.getLast?.map MapEntry.pair)

theorem Holds.observes (holds : Holds map entries) (shallow : Shallow map.tree) : Observes map entries where
  ascending := holds.ascending
  iter := holds.iter_eq shallow
  isEmpty := holds.isEmpty_eq
  get := holds.get_eq
  containsKey := holds.containsKey_eq
  closest := holds.closest_eq shallow
  iterFrom := holds.iterFrom_eq shallow
  first := holds.first_eq
  last := holds.last_eq

/-- In every state of a run whose steps meet the condition the map reads as the association list,
and the next step returns what the list returns. -/
theorem reaches_refines_assocList {sort : EditSort K V} (sorts : SortsByKey sort)
    (reaches : Reaches R σ sort map entries) :
    (Shallow map.tree → Observes map entries) ∧
    (∀ op : Op K V R σ, Meets map op → ∃ map', map.apply sort op = .ok ((applyList entries op).1, map') ∧
        Reaches R σ sort map' (applyList entries op).2) ∧
    ∀ (other : TreeMap K V) (others : AssocList K V), Reaches R σ sort other others →
      Shallow map.tree → Shallow other.tree →
      ∃ map', map.insertTree sort other = .ok map' ∧
        Reaches R σ sort map' (entries.extend (others.map MapEntry.pair)) := by
  have holds := reaches.holds sorts
  refine ⟨holds.observes, fun op meets => ?_, fun other others otherReaches shallow otherShallow => ?_⟩
  · obtain ⟨map', applied, -⟩ := holds.apply_eq sorts op meets
    exact ⟨map', applied, .step reaches meets applied⟩
  · obtain ⟨map', applied, -⟩ := holds.insertTree_eq sorts shallow (otherReaches.holds sorts) otherShallow
    exact ⟨map', applied, .insertTree reaches otherReaches shallow otherShallow applied⟩

/-! ## Concrete maps -/

def byKey : EditSort Nat Nat := List.insertionSort fun e f => e.key ≤ f.key

theorem byKey_sorts : SortsByKey byKey where
  perm := List.perm_insertionSort _
  ordered := List.pairwise_insertionSort _

def onlyOne : TreeMap Nat Nat := ⟨.leaf (.some 1) [⟨1, 10⟩] [.some 1]⟩

theorem reaches_refines_assocList_onlyOne : Observes onlyOne [⟨1, 10⟩] ∧ ∃ map',
    onlyOne.apply byKey (.extend [(2, 20), (0, 5)] : Op Nat Nat Unit Unit) = .ok (.unit, map') ∧
    Reaches Unit Unit byKey map' [⟨0, 5⟩, ⟨1, 10⟩, ⟨2, 20⟩] := by
  have ascending : Ascending Prod.fst [(1, 10)] := by simp [Ascending]
  have reaches : Reaches Unit Unit byKey onlyOne [⟨1, 10⟩] := .ordered ascending (by decide) rfl
  have refines := reaches_refines_assocList byKey_sorts reaches
  exact ⟨refines.1 (by decide), refines.2.1 (.extend [(2, 20), (0, 5)]) ⟨by decide, by decide, by decide⟩⟩

/-- `extend` with one key twice keeps both entries: the keys no longer ascend strictly, and the
earlier value is found where inserting one by one leaves the later one. -/
theorem extend_repeated_key : ∃ map, (default : TreeMap Nat Nat).extend byKey [(1, 10), (1, 20)] = .ok map ∧
    map.iter = .ok [(1, 10), (1, 20)] ∧ ¬ Ascending Prod.fst [(1, 10), (1, 20)] ∧ map.get 1 = some 10 ∧
    AssocList.get (AssocList.extend [] [(1, 10), (1, 20)]) 1 = some 20 ∧
    ¬ Observes map (AssocList.extend [] [(1, 10), (1, 20)]) := by
  refine ⟨_, rfl, rfl, by simp [Ascending], rfl, rfl, ?_⟩
  intro observes
  have read := observes.get 1
  cases read

end TreeMap

end Pinrail

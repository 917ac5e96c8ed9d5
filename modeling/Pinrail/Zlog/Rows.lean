import Mathlib.Data.List.TakeWhile
import Pinrail.Zlog.Filter

/-!
# Rows of a scope map

A configured scope is a path of nonempty components, padded with empty ones to the fixed depth. The
items below a path are those whose components it begins.
-/

namespace Pinrail.Zlog
open Lib

/-! ## Paths -/

def components (scope : Scope) : List Str := scope.toList.takeWhile fun name => !name.isEmpty

def pad (path : List Str) : Scope := Vector.ofFn fun i => path.getD i []

structure IsPath (path : List Str) : Prop where
  fits : path.length ≤ scopeDepthMax
  nonempty : ∀ name ∈ path, name ≠ []

theorem pad_getElem (path : List Str) (depth : Fin scopeDepthMax) :
    (pad path).component depth = path.getD depth [] := by
  simp [pad]

theorem pad_toList {path : List Str} (fits : path.length ≤ scopeDepthMax) :
    (pad path).toList = path ++ List.replicate (scopeDepthMax - path.length) [] := by
  apply List.ext_getElem
  · simp only [Vector.length_toList, List.length_append, List.length_replicate]
    omega
  · intro i low _
    rw [Vector.length_toList] at low
    by_cases inside : i < path.length
    · simp [pad, List.getElem_append_left, inside]
    · rw [List.getElem_append_right (by omega), List.getElem_replicate]
      simp [pad, inside]

theorem components_pad {path : List Str} (valid : IsPath path) : components (pad path) = path := by
  rw [components, pad_toList valid.fits, List.takeWhile_append_of_pos]
  · cases scopeDepthMax - path.length <;> simp [List.replicate_succ]
  · intro name member
    simpa using valid.nonempty name member

theorem isPath_components (scope : Scope) : IsPath (components scope) where
  fits := by
    have short := (List.takeWhile_prefix (p := fun name : Str => !name.isEmpty) (l := scope.toList)).length_le
    simpa [components] using short
  nonempty := by
    intro name member
    simpa using List.mem_takeWhile_imp member

theorem IsPath.take {path : List Str} (valid : IsPath path) (k : Nat) : IsPath (path.take k) where
  fits := by
    have := valid.fits
    rw [List.length_take]
    omega
  nonempty := fun name member => valid.nonempty name (List.mem_of_mem_take member)

theorem IsPath.concat {path : List Str} {name : Str} (valid : IsPath path)
    (short : path.length < scopeDepthMax) (nonempty : name ≠ []) : IsPath (path ++ [name]) where
  fits := by
    rw [List.length_append, List.length_singleton]
    omega
  nonempty := by
    intro other member
    rcases List.mem_append.mp member with member | member
    · exact valid.nonempty other member
    · rw [List.mem_singleton.mp member]
      exact nonempty

/-! ## Items -/

structure Rows (items : List Item) : Prop where
  padded : ∀ item ∈ items, pad (components item.1) = item.1
  rooted : ∀ item ∈ items, components item.1 ≠ []
  nodup : (items.map Prod.fst).Nodup
  sorted : items.Pairwise fun a b => (compare a.1.toList b.1.toList).isLE = true

def under (path : List Str) (items : List Item) : List Item :=
  items.filter fun item => path <+: components item.1

def levelAt (items : List Item) (path : List Str) : Option LevelFilter := valueOf (pad path) items

variable {items : List Item} {item : Item} {path : List Str} {depth : Fin scopeDepthMax}

theorem mem_under : item ∈ under path items ↔ item ∈ items ∧ path <+: components item.1 := by
  simp [under]

theorem under_nil : under [] items = items := by
  simp [under]

theorem prefix_concat_iff {name : Str} {names : List Str} :
    path ++ [name] <+: names ↔ path <+: names ∧ names[path.length]? = some name := by
  constructor
  · rintro ⟨rest, rfl⟩
    refine ⟨⟨name :: rest, by simp⟩, ?_⟩
    simp
  · rintro ⟨⟨rest, rfl⟩, found⟩
    rw [List.getElem?_append_right (Nat.le_refl _), Nat.sub_self] at found
    cases rest with
    | nil => cases found
    | cons other rest =>
      cases found
      exact ⟨rest, by simp⟩

theorem under_eq_nil (deep : scopeDepthMax < path.length) : under path items = [] := by
  rw [under, List.filter_eq_nil_iff]
  intro item _ within
  have short := (of_decide_eq_true within).length_le
  have fits := (isPath_components item.1).fits
  omega

theorem mem_under_pad {level : LevelFilter} (valid : IsPath path)
    (found : levelAt items path = some level) : (pad path, level) ∈ under path items := by
  refine mem_under.mpr ⟨mem_of_valueOf found, ?_⟩
  rw [components_pad valid]

namespace Rows

variable (rows : Rows items)
include rows

theorem getElem_eq (member : item ∈ items) (depth : Fin scopeDepthMax) :
    item.1.component depth = (components item.1).getD depth [] := by
  conv_lhs => rw [← rows.padded item member]
  exact pad_getElem _ depth

theorem under_concat {name : Str} (deep : path.length = depth) (nonempty : name ≠ []) :
    under (path ++ [name]) items = (under path items).filter fun item => item.1.component depth = name := by
  rw [under, under, List.filter_filter]
  apply List.filter_congr
  intro item member
  rw [Bool.eq_iff_iff, Bool.and_eq_true, decide_eq_true_eq, decide_eq_true_eq, decide_eq_true_eq,
    prefix_concat_iff, rows.getElem_eq member, deep, List.getD_eq_getElem?_getD, and_comm]
  apply and_congr_left'
  constructor
  · intro found
    rw [found]
    rfl
  · intro found
    cases at_ : (components item.1)[depth.val]? with
    | none =>
      rw [at_] at found
      exact absurd found.symm nonempty
    | some other =>
      rw [at_] at found
      exact congrArg some found

theorem eq_pad_of_getElem_nil (member : item ∈ under path items) (deep : path.length = depth)
    (ends : item.1.component depth = []) : item.1 = pad path := by
  obtain ⟨within, rest, eq⟩ := mem_under.mp member
  rw [rows.getElem_eq within, ← eq, ← deep] at ends
  cases rest with
  | nil => rw [← rows.padded item within, ← eq, List.append_nil]
  | cons name rest =>
    have nonempty := (isPath_components item.1).nonempty name (by simp [← eq])
    simp [nonempty] at ends

theorem eq_pad_of_full (member : item ∈ under path items) (full : path.length = scopeDepthMax) : item.1 = pad path := by
  obtain ⟨within, whole⟩ := mem_under.mp member
  have eq := whole.eq_of_length_le (by rw [full]; exact (isPath_components item.1).fits)
  rw [eq, rows.padded item within]

theorem levelAt_nil : levelAt items [] = none := by
  cases found : levelAt items [] with
  | none => rfl
  | some level =>
    have within := mem_of_valueOf found
    have path : IsPath [] := ⟨Nat.zero_le _, by simp⟩
    exact absurd (components_pad path) (rows.rooted _ within)

theorem length_le_one {run : List Item} {scope : Scope} (sublist : run.Sublist items)
    (same : ∀ item ∈ run, item.1 = scope) : run.length ≤ 1 := by
  have nodup : (run.map Prod.fst).Nodup := rows.nodup.sublist (sublist.map _)
  have constant : run.map Prod.fst = List.replicate run.length scope := by
    rw [List.eq_replicate_iff]
    refine ⟨List.length_map _, ?_⟩
    intro other member
    obtain ⟨item, within, rfl⟩ := List.mem_map.mp member
    exact same item within
  rw [constant] at nodup
  exact List.nodup_replicate.mp nodup

theorem sorted_at (deep : path.length = depth) : (under path items).Pairwise fun a b =>
    (compare (a.1.component depth) (b.1.component depth)).isLE = true := by
  have sorted := rows.sorted.sublist (List.filter_sublist (p := fun item => path <+: components item.1))
  refine sorted.imp_of_mem ?_
  intro a b inA inB le
  have cut : ∀ item ∈ under path items, ∃ rest, item.1.toList = path ++ item.1.component depth :: rest := by
    intro item member
    have start : path <+: item.1.toList := (mem_under.mp member).2.trans (List.takeWhile_prefix _)
    refine ⟨item.1.toList.drop (depth + 1), ?_⟩
    have here : item.1.component depth = item.1.toList.get ⟨depth, by simp⟩ := by simp
    rw [here, List.get_eq_getElem, List.getElem_cons_drop, ← deep]
    obtain ⟨rest, eq⟩ := start
    rw [← eq]
    simp
  obtain ⟨restA, eqA⟩ := cut a inA
  obtain ⟨restB, eqB⟩ := cut b inB
  rw [eqA, eqB] at le
  exact isLE_of_common_start le

end Rows
end Pinrail.Zlog

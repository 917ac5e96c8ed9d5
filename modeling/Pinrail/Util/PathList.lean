import Mathlib.Order.Defs.LinearOrder
import Pinrail.Lib.Ranked
import Pinrail.Lib.Comparators
import Pinrail.Path.NaturalSort
import Pinrail.Path.StdPath

/-!
# Path lists

`PathList` keeps paths in lexicographic order with the order in which they were given, and is written
as two joined strings.
-/

/-! ## The order of the standard library's paths

`Path::cmp` of `std::path` compares the components of two paths one by one, and a path equals another
when its components do.
-/

namespace Pinrail.StdPath

open Lib Std

def Prefix.key : Prefix → Nat × List Str
  | verbatim name => (0, [name])
  | verbatimUnc server share => (1, [server, share])
  | verbatimDisk letter => (2, [[letter]])
  | deviceNs name => (3, [name])
  | unc server share => (4, [server, share])
  | disk letter => (5, [[letter]])

def Component.key (start : Option Prefix) : Component → Nat × Nat × List Str
  | pathPrefix => (0, (start.map Prefix.key).getD (0, []))
  | rootDir => (1, 0, [])
  | curDir => (2, 0, [])
  | parentDir => (3, 0, [])
  | normal name => (4, 0, [name])

/-- The components in order; each takes a character or one of the three states before the end. -/
def Components.collect : Nat → Components → List Component
  | 0, _ => []
  | fuel + 1, comps =>
    match comps.nextBack with
    | (_, none) => []
    | (rest, some component) => collect fuel rest ++ [component]

def componentKeys (host : PathStyle) (path : Str) : List (Nat × Nat × List Str) :=
  let comps := components host path
  (comps.collect (path.length + 4)).map (Component.key comps.start)

def cmpKey : Nat × Nat × List Str → Nat × Nat × List Str → Ordering :=
  compareLex (compareOn Prod.fst) (compareLex (compareOn fun key => key.2.1)
    (comparing (fun key => key.2.2) (List.compareLex Paths.cmpStr)))

def cmpPath (host : PathStyle) (a b : Str) : Ordering :=
  List.compareLex cmpKey (componentKeys host a) (componentKeys host b)

/-- `PathBuf::eq`. -/
def eqPath (host : PathStyle) (a b : Str) : Bool := componentKeys host a == componentKeys host b

instance : TransCmp cmpKey := by
  have names : TransCmp (comparing (fun key : Nat × Nat × List Str => key.2.2) (List.compareLex Paths.cmpStr)) :=
    inferInstance
  have variants : TransCmp (compareOn fun key : Nat × Nat × List Str => key.2.1) := inferInstance
  have kinds : TransCmp (compareOn (Prod.fst : Nat × Nat × List Str → Nat)) := inferInstance
  exact inferInstanceAs (TransCmp (compareLex _ (compareLex _ _)))

instance (host : PathStyle) : TransCmp (cmpPath host) :=
  inferInstanceAs (TransCmp (comparing (componentKeys host) (List.compareLex cmpKey)))

end Pinrail.StdPath

namespace Pinrail.Util

open Lib StdPath

/-- The host, and `dunce::simplified`, which `SanitizedPath::new` calls on Windows. -/
structure Host where
  style : PathStyle
  simplified : Str → Str

def Host.sanitizedPath (host : Host) (path : Str) : Str :=
  match host.style with
  | .unix => path
  | .windows => host.simplified path

structure PathList where
  paths : List Str
  order : List Nat
deriving DecidableEq

structure SerializedPathList where
  paths : Str
  order : Str
deriving DecidableEq

/-- `str::parse::<usize>`. -/
def parseUsize (s : Str) : Option Nat :=
  let digits := if s.head? = some '+' then s.tail else s
  if digits ≠ [] ∧ digits.all Char.isDigit ∧ Nat.ofDigitChars 10 digits 0 < 2 ^ 64 then
    some (Nat.ofDigitChars 10 digits 0)
  else none

/-- Pieces pushed on one string, with the separator before each unless the string is still empty. -/
def pushPieces (separator : Char) (pieces : List Str) : Str :=
  pieces.foldl (fun text piece => (if text.isEmpty then text else text ++ [separator]) ++ piece) []

namespace PathList

variable (host : Host)

def new (paths : List Str) : PathList :=
  let indexedPaths := paths.zipIdx.map fun (path, ix) => (ix, host.sanitizedPath path)
  let indexedPaths := sortBy (fun a b => cmpPath host.style a.2 b.2) indexedPaths
  { order := indexedPaths.map Prod.fst, paths := indexedPaths.map Prod.snd }

/-- `PartialEq`: the paths decide. -/
def eq (list other : PathList) : Bool :=
  list.paths.length == other.paths.length && (list.paths.zip other.paths).all fun (a, b) => eqPath host.style a b

def orderedPaths (list : PathList) : List Str :=
  (sortBy (fun a b => compare a.1 b.1) (list.order.zip list.paths)).map Prod.snd

/-- `is_sorted`. -/
def isSorted (paths : List Str) : Bool :=
  (paths.zip paths.tail).all fun (a, b) => (cmpPath host.style a b).isLE

def deserialize (serialized : SerializedPathList) : PathList :=
  let paths := if serialized.paths.isEmpty then [] else serialized.paths.splitOn '\n'
  let order := (serialized.order.splitOn ',').filterMap parseUsize
  if !isSorted host paths || order.length != paths.length then
    { paths := sortBy (cmpPath host.style) paths, order := List.range paths.length }
  else { paths, order }

def serialize (list : PathList) : SerializedPathList where
  paths := pushPieces '\n' list.paths
  order := pushPieces ',' (list.order.map (Nat.toDigits 10))

def RoundTrips (paths : List Str) : Prop :=
  let written := new host paths
  let read := deserialize host written.serialize
  eq host read written = true ∧ read.orderedPaths = written.orderedPaths ∧
    written.orderedPaths = paths.map host.sanitizedPath

end PathList

variable {separator : Char} {pieces : List Str} {s : Str}

/-! ## Separated pieces -/

theorem intercalate_append_cons (separator front piece : Str) (pieces : List Str) :
    separator.intercalate ((front ++ piece) :: pieces) = front ++ separator.intercalate (piece :: pieces) := by
  cases pieces with
  | nil => rw [List.intercalate_singleton, List.intercalate_singleton]
  | cons next pieces => simp only [List.intercalate_cons_cons, List.append_assoc]

theorem pushPieces_eq (separator : Char) (nonempty : ∀ piece ∈ pieces, piece ≠ []) :
    pushPieces separator pieces = [separator].intercalate pieces := by
  cases pieces with
  | nil => rfl
  | cons piece pieces =>
    have later : ∀ text : Str, text ≠ [] → pieces.foldl
        (fun text piece => (if text.isEmpty then text else text ++ [separator]) ++ piece) text =
          [separator].intercalate (text :: pieces) := by
      clear nonempty
      induction pieces with
      | nil =>
        intro text _
        exact List.intercalate_singleton.symm
      | cons next pieces ih =>
        intro text some
        rw [List.foldl_cons, if_neg (by simpa using some), ih _ (by simp [some]), intercalate_append_cons,
          List.intercalate_cons_cons]
    exact later piece (nonempty piece List.mem_cons_self)

theorem length_splitOn (separator : Char) (s : Str) : (s.splitOn separator).length = s.count separator + 1 := by
  induction s with
  | nil => rfl
  | cons c s ih =>
    rw [List.splitOn_cons_eq_if_modifyHead, List.count_cons]
    split_ifs
    · rw [List.length_cons, ih]
    · rw [List.length_modifyHead, ih]

theorem count_intercalate (separator : Char) (some : pieces ≠ []) :
    ([separator].intercalate pieces).count separator + 1 = pieces.length + pieces.flatten.count separator := by
  induction pieces with
  | nil => exact absurd rfl some
  | cons piece pieces ih =>
    cases pieces with
    | nil =>
      rw [List.intercalate_singleton, List.flatten_singleton, List.length_singleton, Nat.add_comm]
    | cons next pieces =>
      rw [List.intercalate_cons_cons, List.count_append, List.count_append, List.count_singleton_self,
        List.flatten_cons, List.count_append, List.length_cons, Nat.add_assoc, ih (List.cons_ne_nil _ _)]
      rw [List.length_cons]
      omega

theorem parseUsize_toDigits {n : Nat} (fits : n < 2 ^ 64) : parseUsize (Nat.toDigits 10 n) = some n := by
  have digits : ∀ c ∈ Nat.toDigits 10 n, c.isDigit = true := fun c inside =>
    Nat.isDigit_of_mem_toDigits (by decide) (by decide) inside
  have unsigned : (Nat.toDigits 10 n).head? ≠ some '+' := by
    intro plus
    exact absurd (digits '+' (List.mem_of_head? plus)) (by decide)
  rw [parseUsize, if_neg unsigned, Nat.ofDigitChars_ten_toDigits]
  exact if_pos ⟨Nat.toDigits_ne_nil, List.all_eq_true.mpr digits, fits⟩

namespace PathList

variable {host : Host} {paths : List Str}

/-! ## The written list -/

theorem cmpPath_isLE_total (host : PathStyle) (a b : Str) :
    (cmpPath host a b).isLE = true ∨ (cmpPath host b a).isLE = true := by
  rw [@Std.OrientedCmp.eq_swap _ (cmpPath host) _ b a]
  cases cmpPath host a b <;> simp

theorem sorted_new (host : Host) (paths : List Str) :
    (new host paths).paths.Pairwise fun a b => (cmpPath host.style a b).isLE = true := by
  rw [new, List.pairwise_map]
  exact sorted_sortBy (fun a b => cmpPath_isLE_total _ a.2 b.2) fun a b c first second =>
    Std.TransCmp.isLE_trans first second

theorem zip_new (host : Host) (paths : List Str) : ((new host paths).order.zip (new host paths).paths).Perm
      (paths.zipIdx.map fun (path, ix) => (ix, host.sanitizedPath path)) := by
  rw [new, List.zip_map', List.map_id']
  exact perm_sortBy

theorem length_new (host : Host) (paths : List Str) :
    (new host paths).paths.length = paths.length ∧ (new host paths).order.length = paths.length := by
  simp [new, perm_sortBy.length_eq]

theorem orderedPaths_new (host : Host) (paths : List Str) :
    (new host paths).orderedPaths = paths.map host.sanitizedPath := by
  set indexed := paths.zipIdx.map fun (path, ix) => (ix, host.sanitizedPath path) with indexed_eq
  have given : indexed.Pairwise fun a b => a.1 < b.1 := List.pairwise_map.mpr (pairwise_zipIdx paths)
  have perm := zip_new host paths
  rw [← indexed_eq] at perm
  have strict : (sortBy (fun a b : Nat × Str => compare a.1 b.1)
      ((new host paths).order.zip (new host paths).paths)).Pairwise fun a b => a.1 < b.1 := by
    apply pairwise_sortBy
    · intro a b
      simp only [isLE_compare]
      exact le_total _ _
    · intro a b c
      simp only [isLE_compare]
      exact le_trans
    · exact perm.symm.pairwise (given.imp Or.inl) Or.symm
    · intro a b le apart
      rw [isLE_compare] at le
      omega
  have same := (perm_sortBy.trans perm).eq_of_pairwise
    (fun a b _ _ less more => absurd less (Nat.lt_asymm more)) strict given
  rw [orderedPaths, same, indexed_eq, List.map_map]
  show paths.zipIdx.map (host.sanitizedPath ∘ Prod.fst) = _
  rw [← List.map_map, List.zipIdx_map_fst]

theorem perm_new (host : Host) (paths : List Str) : (new host paths).paths.Perm (paths.map host.sanitizedPath) := by
  have perm : (new host paths).paths.Perm
      ((paths.zipIdx.map fun (path, ix) => (ix, host.sanitizedPath path)).map Prod.snd) := perm_sortBy.map _
  rw [List.map_map] at perm
  change (new host paths).paths.Perm (paths.zipIdx.map (host.sanitizedPath ∘ Prod.fst)) at perm
  rw [← List.map_map, List.zipIdx_map_fst] at perm
  exact perm

theorem order_new_lt {ix : Nat} (inside : ix ∈ (new host paths).order) : ix < paths.length := by
  have perm : (new host paths).order.Perm
      ((paths.zipIdx.map fun (path, ix) => (ix, host.sanitizedPath path)).map Prod.fst) := perm_sortBy.map _
  rw [List.map_map] at perm
  change (new host paths).order.Perm (paths.zipIdx.map Prod.snd) at perm
  rw [List.zipIdx_map_snd] at perm
  obtain ⟨-, less⟩ := List.mem_range'_1.mp (perm.subset inside)
  omega

/-! ## Reading it back -/

theorem isSorted_of_pairwise (sorted : paths.Pairwise fun a b => (cmpPath host.style a b).isLE = true) :
    isSorted host paths = true := by
  induction paths with
  | nil => rfl
  | cons path paths ih =>
    cases paths with
    | nil => rfl
    | cons next paths =>
      obtain ⟨first, later⟩ := List.pairwise_cons.mp sorted
      have rest := ih later
      rw [isSorted] at rest ⊢
      rw [List.tail_cons, List.zip_cons_cons, List.all_cons]
      exact Bool.and_eq_true_iff.mpr ⟨first next List.mem_cons_self, rest⟩

theorem read_paths (nonempty : ∀ path ∈ paths, path ≠ []) (plain : ∀ path ∈ paths, '\n' ∉ path) :
    (if (pushPieces '\n' paths).isEmpty then [] else (pushPieces '\n' paths).splitOn '\n') = paths := by
  rw [pushPieces_eq _ nonempty]
  cases paths with
  | nil => rfl
  | cons path paths =>
    have split := List.splitOn_intercalate '\n' plain (List.cons_ne_nil _ _)
    have some : ¬ (['\n'].intercalate (path :: paths)).isEmpty = true := by
      intro empty
      rw [List.isEmpty_iff.mp empty, List.splitOn_nil] at split
      exact nonempty [] (split ▸ List.mem_singleton_self []) rfl
    rw [if_neg some, split]

theorem read_order (order : List Nat) (fits : ∀ ix ∈ order, ix < 2 ^ 64) :
    ((pushPieces ',' (order.map (Nat.toDigits 10))).splitOn ',').filterMap parseUsize = order := by
  have nonempty : ∀ piece ∈ order.map (Nat.toDigits 10), piece ≠ [] := by
    rintro _ inside
    obtain ⟨ix, -, rfl⟩ := List.mem_map.mp inside
    exact Nat.toDigits_ne_nil
  have plain : ∀ piece ∈ order.map (Nat.toDigits 10), ',' ∉ piece := by
    rintro _ inside comma
    obtain ⟨ix, -, rfl⟩ := List.mem_map.mp inside
    exact absurd (Nat.isDigit_of_mem_toDigits (by decide) (by decide) comma) (by decide)
  rw [pushPieces_eq _ nonempty]
  cases order with
  | nil => rfl
  | cons ix order =>
    rw [List.splitOn_intercalate ',' plain (by simp), List.filterMap_map]
    have parsed : ∀ ix' ∈ ix :: order, (parseUsize ∘ Nat.toDigits 10) ix' = some ix' := fun ix' inside =>
      parseUsize_toDigits (fits ix' inside)
    rw [List.filterMap_congr parsed, List.filterMap_some]

theorem deserialize_serialize (nonempty : ∀ path ∈ paths, host.sanitizedPath path ≠ [])
    (fits : paths.length < 2 ^ 64) (plain : ∀ path ∈ paths, '\n' ∉ host.sanitizedPath path) :
    deserialize host (new host paths).serialize = new host paths := by
  have given : ∀ path ∈ (new host paths).paths, ∃ source ∈ paths, host.sanitizedPath source = path :=
    fun path inside => List.mem_map.mp ((perm_new host paths).subset inside)
  have read : (if (pushPieces '\n' (new host paths).paths).isEmpty then []
      else (pushPieces '\n' (new host paths).paths).splitOn '\n') = (new host paths).paths := by
    apply read_paths
    · intro path inside
      obtain ⟨source, among, rfl⟩ := given path inside
      exact nonempty source among
    · intro path inside
      obtain ⟨source, among, rfl⟩ := given path inside
      exact plain source among
  have order := read_order (new host paths).order fun ix inside => (order_new_lt inside).trans fits
  obtain ⟨lengthPaths, lengthOrder⟩ := length_new host paths
  rw [deserialize, serialize]
  dsimp only
  rw [read, order, isSorted_of_pairwise (sorted_new host paths), lengthPaths, lengthOrder, bne_self_eq_false]
  rfl

theorem length_deserialize (host : Host) (serialized : SerializedPathList) (nonempty : serialized.paths ≠ []) :
    (deserialize host serialized).paths.length = serialized.paths.count '\n' + 1 := by
  have some : ¬ serialized.paths.isEmpty = true := by simpa using nonempty
  simp only [deserialize, if_neg some, ← length_splitOn]
  split_ifs
  · exact perm_sortBy.length_eq
  · rfl

theorem length_lt_of_newline (nonempty : ∀ path ∈ paths, host.sanitizedPath path ≠ []) {path : Str}
    (inside : path ∈ paths) (newline : '\n' ∈ host.sanitizedPath path) :
    (new host paths).paths.length < (deserialize host (new host paths).serialize).paths.length := by
  have written : host.sanitizedPath path ∈ (new host paths).paths :=
    (perm_new host paths).symm.subset (List.mem_map_of_mem inside)
  have pieces : ∀ piece ∈ (new host paths).paths, piece ≠ [] := by
    intro piece inside
    obtain ⟨source, among, rfl⟩ := List.mem_map.mp ((perm_new host paths).subset inside)
    exact nonempty source among
  have counted := count_intercalate '\n' (List.ne_nil_of_mem written)
  have positive : 0 < (new host paths).paths.flatten.count '\n' :=
    List.count_pos_iff.mpr (List.mem_flatten.mpr ⟨_, written, newline⟩)
  have text : (new host paths).serialize.paths = ['\n'].intercalate (new host paths).paths := pushPieces_eq _ pieces
  have some : (new host paths).serialize.paths ≠ [] := by
    intro none
    rw [← text, none] at counted
    have longer := List.length_pos_of_mem written
    simp only [List.count_nil] at counted
    omega
  rw [length_deserialize host _ some, text, counted]
  omega

theorem eq_self (list : PathList) : eq host list list = true := by
  rw [eq, beq_self_eq_true, Bool.true_and, List.all_eq_true]
  rintro ⟨a, b⟩ inside
  have same : a = b := by
    rw [List.zip, List.zipWith_self] at inside
    obtain ⟨path, -, paired⟩ := List.mem_map.mp inside
    cases paired
    rfl
  rw [same]
  exact beq_self_eq_true _

theorem length_of_eq {list other : PathList} (same : eq host list other = true) :
    list.paths.length = other.paths.length := by
  rw [eq, Bool.and_eq_true, beq_iff_eq] at same
  exact same.1

/-- The list survives exactly when no path has a newline. -/
theorem roundTrips_iff (nonempty : ∀ path ∈ paths, host.sanitizedPath path ≠ []) (fits : paths.length < 2 ^ 64) :
    RoundTrips host paths ↔ ∀ path ∈ paths, '\n' ∉ host.sanitizedPath path := by
  constructor
  · rintro ⟨same, -⟩ path inside newline
    exact absurd (length_of_eq same) (Nat.ne_of_gt (length_lt_of_newline nonempty inside newline))
  · intro plain
    rw [RoundTrips, deserialize_serialize nonempty fits plain]
    exact ⟨eq_self _, rfl, orderedPaths_new host paths⟩

theorem roundTrips_iff_duplicates : RoundTrips ⟨.unix, id⟩ [['b'], ['a'], ['b']] ↔ ∀ path ∈ [['b'], ['a'], ['b']],
    '\n' ∉ (⟨.unix, id⟩ : Host).sanitizedPath path :=
  roundTrips_iff (by decide) (by decide)

/-- A newline in a file name cuts it in two. -/
theorem newline_cut : ¬ RoundTrips ⟨.unix, id⟩ [['/', 'a', '\n', 'b']] ∧
    (deserialize ⟨.unix, id⟩ (new ⟨.unix, id⟩ [['/', 'a', '\n', 'b']]).serialize).paths.length = 2 := by
  have two := length_deserialize ⟨.unix, id⟩ (new ⟨.unix, id⟩ [['/', 'a', '\n', 'b']]).serialize (by decide)
  refine ⟨fun survives => ?_, two⟩
  have one := length_of_eq survives.1
  rw [two] at one
  exact absurd one (by decide)

end PathList

end Pinrail.Util

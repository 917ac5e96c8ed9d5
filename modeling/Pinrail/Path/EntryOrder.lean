import Pinrail.Path.CompareRelPaths

/-!
# The order of entries

On normalized paths without large numbers `compare_rel_paths_by` compares the lists of components,
each with whether it is a file at the end, lexicographically in one order of components, and breaks
a tie by the whole paths.
-/

namespace Pinrail
open Lib
open Std (TransCmp OrientedCmp LawfulEqCmp ReflCmp)

namespace Paths

variable (unicode : UnicodeCase) (mode : SortMode) (order : SortOrder)

/-! ## Components in order -/

abbrev Component := Str × Bool

def sortName (component : Component) : Str :=
  if component.2 then (stemAndExtension component.1).1.getD [] else component.1

def sortExtension (component : Component) : Option Str :=
  if component.2 then (stemAndExtension component.1).2 else none

def cmpKind : Component → Component → Ordering :=
  match mode with
  | .directoriesFirst => compareOn Prod.snd
  | .filesFirst => fun a b => compareOn Prod.snd b a
  | .mixed => compareOn fun _ => false

def extensionText (ext : Option Str) : Str :=
  match order with
  | .unicode => ext.getD []
  | _ => unicode.toLowercase (ext.getD [])

/-- `compare_components` as an order. -/
def cmpComponent : Component → Component → Ordering :=
  compareLex (cmpKind mode) (compareLex (comparing sortName (cmpNames unicode mode order))
    (compareLex (compareOn Prod.snd) (comparing (extensionText unicode order ∘ sortExtension) cmpStr)))

instance : TransCmp (cmpKind mode) := by
  have files : TransCmp (compareOn (Prod.snd : Component → Bool)) := inferInstance
  have backwards : TransCmp fun a b : Component => compareOn Prod.snd b a := inferInstance
  have none : TransCmp (compareOn fun _ : Component => false) := inferInstance
  cases mode
  · exact files
  · exact none
  · exact backwards

instance : TransCmp (cmpComponent unicode mode order) := inferInstanceAs (TransCmp (compareLex _ _))

variable {unicode mode order} {a b : Str}

theorem stemAndExtension_spec (nonempty : a ≠ []) : ∃ stem ext, stemAndExtension a = (some stem, ext) ∧
    (stem = a ∨ ∃ after, a = stem ++ '.' :: after) := by
  rw [stemAndExtension, if_neg (by simpa using nonempty)]
  cases split : rsplitOnce '.' a with
  | none => exact ⟨a, none, rfl, .inl rfl⟩
  | some parts =>
    obtain ⟨before, after⟩ := parts
    dsimp only
    split_ifs with leading
    · exact ⟨a, none, rfl, .inl rfl⟩
    · exact ⟨before, some after, rfl, .inr ⟨after, rsplitOnce_eq_some split⟩⟩

theorem sortName_small (small : SmallRuns a) (nonempty : a ≠ []) (leaf : Bool) : SmallRuns (sortName (a, leaf)) := by
  cases leaf with
  | false => exact small
  | true =>
    obtain ⟨stem, ext, split, whole | ⟨after, cut⟩⟩ := stemAndExtension_spec nonempty
    · simpa [sortName, split, whole] using small
    · rw [cut] at small
      simpa [sortName, split] using small.left (by decide)

theorem compareExtensions_eq (aExt bExt : Option Str) : compareExtensions unicode order aExt bExt =
      cmpStr (extensionText unicode order aExt) (extensionText unicode order bExt) := by
  cases order <;> rfl

theorem then_ignoring (ordering : Ordering) :
    (compareNames unicode mode order a b).then (if eqIgnoreAsciiCase a b then ordering else .eq) =
      (compareNames unicode mode order a b).then ordering := by
  cases names : compareNames unicode mode order a b with
  | lt => rfl
  | gt => rfl
  | eq => rw [if_pos (eqIgnoreAsciiCase_of_compareNames names)]

theorem compareComponents_parts (aNonempty : a ≠ []) (bNonempty : b ≠ []) (aLeaf bLeaf : Bool) :
    compareComponents unicode mode order a aLeaf b bLeaf = (cmpKind mode (a, aLeaf) (b, bLeaf)).then
        ((compareNames unicode mode order (sortName (a, aLeaf)) (sortName (b, bLeaf))).then
          ((compare aLeaf bLeaf).then
            (compareExtensions unicode order (sortExtension (a, aLeaf)) (sortExtension (b, bLeaf))))) := by
  obtain ⟨aStem, aExt, aSplit, -⟩ := stemAndExtension_spec aNonempty
  obtain ⟨bStem, bExt, bSplit, -⟩ := stemAndExtension_spec bNonempty
  have none : compareExtensions unicode order none none = .eq := by
    rw [compareExtensions_eq]
    exact ReflCmp.compare_self
  have less : compare false true = .lt := rfl
  have greater : compare true false = .gt := rfl
  cases mode with
  | directoriesFirst =>
    cases aLeaf <;> cases bLeaf <;>
      simp [compareComponents, cmpKind, compareOn, sortName, sortExtension, aSplit, bSplit, none, less, greater]
  | mixed =>
    cases aLeaf <;> cases bLeaf <;>
      simp [compareComponents, cmpKind, compareOn, sortName, sortExtension, aSplit, bSplit, none,
        less, greater, then_ignoring]
  | filesFirst =>
    cases aLeaf <;> cases bLeaf <;>
      simp [compareComponents, cmpKind, compareOn, sortName, sortExtension, aSplit, bSplit, none, less, greater]

theorem compareComponents_eq (aSmall : SmallRuns a) (aNonempty : a ≠ []) (bSmall : SmallRuns b)
    (bNonempty : b ≠ []) (aLeaf bLeaf : Bool) :
    compareComponents unicode mode order a aLeaf b bLeaf = cmpComponent unicode mode order (a, aLeaf) (b, bLeaf) := by
  rw [compareComponents_parts aNonempty bNonempty, compareNames_small (sortName_small aSmall aNonempty aLeaf)
      (sortName_small bSmall bNonempty bLeaf), compareExtensions_eq]
  rfl

/-! ## Entries -/

structure Entry where
  names : List Str
  isFile : Bool
  clean : ∀ name ∈ names, Clean .unix name
  small : ∀ name ∈ names, SmallRuns name

def Entry.path (self : Entry) : Str := join self.names

variable (unicode mode order) in
def Entry.compare (self other : Entry) : Ordering :=
  compareRelPathsBy unicode mode order (self.path, self.isFile) (other.path, other.isFile)

def components (isFile : Bool) : List Str → List Component
  | [] => []
  | name :: names => (name, isFile && names.isEmpty) :: components isFile names

theorem components_append (isFile : Bool) (names : List Str) {more : List Str} (nonempty : more ≠ []) :
    components isFile (names ++ more) = names.map (fun name => (name, false)) ++ components isFile more := by
  induction names with
  | nil => rfl
  | cons name names ih =>
    have rest : (names ++ more).isEmpty = false := by simp [nonempty]
    rw [List.cons_append, components, rest, Bool.and_false, ih]
    rfl

theorem components_directory (names : List Str) : components false names = names.map fun name => (name, false) := by
  induction names with
  | nil => rfl
  | cons name names ih =>
    rw [components, Bool.false_and, ih]
    rfl

theorem map_fst_components (isFile : Bool) (names : List Str) : (components isFile names).map Prod.fst = names := by
  induction names with
  | nil => rfl
  | cons name names ih => rw [components, List.map_cons, ih]

theorem compareLoop_eq {aIsFile bIsFile : Bool} {final : Ordering} {aNames bNames : List Str}
    (aClean : ∀ name ∈ aNames, Clean .unix name) (aSmall : ∀ name ∈ aNames, SmallRuns name)
    (bClean : ∀ name ∈ bNames, Clean .unix name) (bSmall : ∀ name ∈ bNames, SmallRuns name) :
    compareLoop unicode mode order aIsFile bIsFile final aNames bNames =
      (List.compareLex (cmpComponent unicode mode order) (components aIsFile aNames)
        (components bIsFile bNames)).then final := by
  induction aNames generalizing bNames with
  | nil => cases bNames <;> rfl
  | cons a aNames ih =>
    cases bNames with
    | nil => rfl
    | cons b bNames =>
      rw [List.forall_mem_cons] at aClean aSmall bClean bSmall
      rw [compareLoop, components, components, List.compareLex_cons_cons,
        compareComponents_eq aSmall.1 aClean.1.nonempty bSmall.1 bClean.1.nonempty,
        ih aClean.2 aSmall.2 bClean.2 bSmall.2]
      cases cmpComponent unicode mode order (a, aIsFile && aNames.isEmpty) (b, bIsFile && bNames.isEmpty) <;> rfl

variable (unicode mode order) in
def cmpEntry : Entry → Entry → Ordering :=
  compareLex (comparing (fun entry : Entry => components entry.isFile entry.names)
      (List.compareLex (cmpComponent unicode mode order)))
    (match mode with
      | .directoriesFirst => compareOn fun _ => false
      | _ => comparing Entry.path (cmpStrings order))

instance : TransCmp (cmpEntry unicode mode order) := by
  have none : TransCmp (compareLex (comparing (fun entry : Entry => components entry.isFile entry.names)
        (List.compareLex (cmpComponent unicode .directoriesFirst order)))
      (compareOn fun _ => false)) := inferInstance
  have whole : ∀ mode, TransCmp (compareLex (comparing (fun entry : Entry => components entry.isFile entry.names)
        (List.compareLex (cmpComponent unicode mode order)))
      (comparing Entry.path (cmpStrings order))) := fun _ => inferInstance
  cases mode
  · exact none
  · exact whole .mixed
  · exact whole .filesFirst

theorem Entry.path_small (self : Entry) : SmallRuns self.path := smallRuns_join self.small

theorem Entry.components_path (self : Entry) : RelPath.components self.path = self.names := components_join self.clean

theorem final_eq (a b : Entry) :
    (if mode ≠ .directoriesFirst ∧ a.path ≠ b.path then compareStrings order a.path b.path else .eq) =
      if mode = .directoriesFirst then .eq else cmpStrings order a.path b.path := by
  by_cases directories : mode = .directoriesFirst
  · rw [if_pos directories, if_neg fun both => both.1 directories]
  · rw [if_neg directories]
    by_cases same : a.path = b.path
    · rw [if_neg fun both => both.2 same, same]
      exact ReflCmp.compare_self.symm
    · rw [if_pos ⟨directories, same⟩, compareStrings_small a.path_small b.path_small]

theorem Entry.compare_eq (a b : Entry) : a.compare unicode mode order b = cmpEntry unicode mode order a b := by
  rw [Entry.compare, compareRelPathsBy]
  simp only [Entry.components_path, final_eq]
  rw [compareLoop_eq a.clean a.small b.clean b.small]
  cases mode <;> rfl

/-! ## Directories -/

theorem cmpComponent_directory {name : Str} {component : Component} (small : SmallRuns name)
    (otherSmall : SmallRuns component.1)
    (same : cmpComponent unicode .directoriesFirst order (name, false) component = .eq) : component.1 = name := by
  obtain ⟨other, leaf⟩ := component
  rw [cmpComponent, compareLex_eq_eq, compareLex_eq_eq] at same
  obtain ⟨kind, names, -⟩ := same
  obtain rfl : false = leaf := compare_eq_iff_eq.mp kind
  have equal : compareNames unicode .directoriesFirst order name other = .eq := by
    rw [compareNames_small small otherSmall]
    exact names
  exact (eq_of_compareStrings (Ordering.then_eq_eq.mp equal).2).symm

/-- What `compare_rel_paths_by` makes of normalized paths without large numbers: an order, in which
every directory stands in front of what is below it. -/
structure OrdersEntries (unicode : UnicodeCase) (mode : SortMode) (order : SortOrder) : Prop where
  swap (a b : Entry) : b.compare unicode mode order a = (a.compare unicode mode order b).swap
  trans (a b c : Entry) : (a.compare unicode mode order b).isLE →
    (b.compare unicode mode order c).isLE → (a.compare unicode mode order c).isLE
  identical (a b : Entry) : mode ≠ .directoriesFirst → a.compare unicode mode order b = .eq → a.path = b.path
  directory (directory below : Entry) : directory.isFile = false →
    (∃ more, more ≠ [] ∧ below.names = directory.names ++ more) →
    directory.compare unicode mode order below = .lt
  subtree (directory below between : Entry) : mode = .directoriesFirst →
    directory.isFile = false → (∃ more, more ≠ [] ∧ below.names = directory.names ++ more) →
    (directory.compare unicode mode order between).isLE →
    (between.compare unicode mode order below).isLE → directory.names <+: between.names

theorem identical_paths {a b : Entry} (mode_ne : mode ≠ .directoriesFirst)
    (same : a.compare unicode mode order b = .eq) : a.path = b.path := by
  rw [Entry.compare_eq] at same
  have texts : cmpStrings order a.path b.path = .eq := by
    cases mode
    · exact absurd rfl mode_ne
    · exact (compareLex_eq_eq.mp same).2
    · exact (compareLex_eq_eq.mp same).2
  rw [← compareStrings_small a.path_small b.path_small] at texts
  exact eq_of_compareStrings texts

theorem compareLex_append {α : Type*} {cmp : α → α → Ordering} [ReflCmp cmp] (xs : List α)
    {more : List α} (nonempty : more ≠ []) : List.compareLex cmp xs (xs ++ more) = .lt := by
  induction xs with
  | nil =>
    obtain ⟨x, more, rfl⟩ := List.exists_cons_of_ne_nil nonempty
    rfl
  | cons x xs ih =>
    have same : cmp x x = .eq := ReflCmp.compare_self
    rw [List.cons_append, List.compareLex_cons_cons, same, ih]
    rfl

theorem components_ne_nil (isFile : Bool) {names : List Str} (nonempty : names ≠ []) :
    components isFile names ≠ [] := by
  obtain ⟨name, names, rfl⟩ := List.exists_cons_of_ne_nil nonempty
  exact List.cons_ne_nil _ _

theorem directory_first {directory below : Entry} (isDirectory : directory.isFile = false)
    {more : List Str} (nonempty : more ≠ []) (names : below.names = directory.names ++ more) :
    directory.compare unicode mode order below = .lt := by
  have parts : comparing (fun entry : Entry => components entry.isFile entry.names)
      (List.compareLex (cmpComponent unicode mode order)) directory below = .lt := by
    rw [comparing, isDirectory, names, components_append _ _ nonempty, components_directory]
    exact compareLex_append _ (components_ne_nil _ nonempty)
  rw [Entry.compare_eq]
  unfold cmpEntry
  rw [compareLex, parts]
  rfl

theorem subtree_together {directory below between : Entry} (isDirectory : directory.isFile = false) {more : List Str}
    (nonempty : more ≠ []) (names : below.names = directory.names ++ more)
    (low : (directory.compare unicode .directoriesFirst order between).isLE)
    (high : (between.compare unicode .directoriesFirst order below).isLE) : directory.names <+: between.names := by
  have onParts : ∀ a b : Entry, (a.compare unicode .directoriesFirst order b).isLE →
      (List.compareLex (cmpComponent unicode .directoriesFirst order) (components a.isFile a.names)
        (components b.isFile b.names)).isLE := by
    intro a b less
    rw [Entry.compare_eq, cmpEntry, compareLex, Ordering.isLE_then_iff_and] at less
    exact less.1
  have lowParts := onParts _ _ low
  have highParts := onParts _ _ high
  rw [isDirectory, components_directory] at lowParts
  rw [names, components_append _ _ nonempty] at highParts
  obtain ⟨front, back, cut, same⟩ := forall₂_of_between lowParts highParts
  have betweenNames := congrArg (List.map Prod.fst) cut
  rw [map_fst_components, List.map_append] at betweenNames
  have fronts : front.map Prod.fst = directory.names := by
    have frontSmall : ∀ component ∈ front, SmallRuns component.1 := by
      intro component member
      refine between.small _ ?_
      rw [betweenNames]
      exact List.mem_append_left _ (List.mem_map_of_mem member)
    have directorySmall := directory.small
    revert frontSmall directorySmall
    generalize directory.names = dirNames at same
    clear * - same
    intro frontSmall directorySmall
    induction dirNames generalizing front with
    | nil =>
      cases same
      rfl
    | cons name dirNames ih =>
      cases same with
      | cons here same =>
        rw [List.forall_mem_cons] at frontSmall directorySmall
        rw [List.map_cons, cmpComponent_directory directorySmall.1 frontSmall.1 here,
          ih _ same frontSmall.2 directorySmall.2]
  exact ⟨back.map Prod.fst, by rw [betweenNames, fronts]⟩

/-- For every mode and order, entries are in order. -/
theorem compareRelPathsBy_ordersEntries (unicode : UnicodeCase) (mode : SortMode)
    (order : SortOrder) : OrdersEntries unicode mode order where
  swap a b := by
    rw [Entry.compare_eq, Entry.compare_eq]
    exact OrientedCmp.eq_swap
  trans a b c := by
    rw [Entry.compare_eq, Entry.compare_eq, Entry.compare_eq]
    exact TransCmp.isLE_trans
  identical a b := identical_paths
  directory directory below isDirectory behind := by
    obtain ⟨more, nonempty, names⟩ := behind
    exact directory_first isDirectory nonempty names
  subtree directory below between first isDirectory behind low high := by
    subst first
    obtain ⟨more, nonempty, names⟩ := behind
    exact subtree_together isDirectory nonempty names low high

/-- Lowercase as on ASCII text. -/
def asciiCase : UnicodeCase := ⟨Char.isLower, Char.isUpper, List.map Char.toLower⟩

theorem clean_of_ascii {name : Str} (nonempty : name ≠ []) (noDot : name ≠ ['.'])
    (noDots : name ≠ ['.', '.']) (noSlash : '/' ∉ name) : Clean .unix name :=
  ⟨nonempty, noDot, noDots, fun _ member slash => noSlash (List.mem_singleton.mp slash ▸ member)⟩

theorem clean_sources (name : Str)
    (member : name ∈ [['s', 'r', 'c'], ['a', '.', 'r', 's'], ['b', '2', '.', 'r', 's']]) : Clean .unix name := by
  simp only [List.mem_cons, List.not_mem_nil, or_false] at member
  rcases member with rfl | rfl | rfl <;> exact clean_of_ascii (by decide) (by decide) (by decide) (by decide)

theorem small_sources (name : Str)
    (member : name ∈ [['s', 'r', 'c'], ['a', '.', 'r', 's'], ['b', '2', '.', 'r', 's']]) : SmallRuns name := by
  simp only [List.mem_cons, List.not_mem_nil, or_false] at member
  rcases member with rfl | rfl | rfl <;>
    simp [SmallRuns, tokens, Token.run, numberValue, digitValue]

def sources : Entry where
  names := [['s', 'r', 'c']]
  isFile := false
  clean name member := clean_sources name (by simpa using .inl (List.mem_singleton.mp member))
  small name member := small_sources name (by simpa using .inl (List.mem_singleton.mp member))

def sourceA : Entry where
  names := [['s', 'r', 'c'], ['a', '.', 'r', 's']]
  isFile := true
  clean name member := clean_sources name (by simp at member ⊢; tauto)
  small name member := small_sources name (by simp at member ⊢; tauto)

def sourceB : Entry where
  names := [['s', 'r', 'c'], ['b', '2', '.', 'r', 's']]
  isFile := true
  clean name member := clean_sources name (by simp at member ⊢; tauto)
  small name member := small_sources name (by simp at member ⊢; tauto)

/-- `src` stands in front of `src/a.rs`, which stands between it and `src/b2.rs`. -/
theorem compareRelPathsBy_ordersEntries_sources : sources.compare asciiCase .directoriesFirst .default sourceA = .lt ∧
    sources.names <+: sourceA.names := by
  have ordered := compareRelPathsBy_ordersEntries asciiCase .directoriesFirst .default
  have first := ordered.directory sources sourceA rfl ⟨[['a', '.', 'r', 's']], by decide, rfl⟩
  refine ⟨first, ordered.subtree sources sourceB sourceA rfl rfl
    ⟨[['b', '2', '.', 'r', 's']], by decide, rfl⟩ ?_ (by decide +kernel)⟩
  rw [first]
  rfl

end Paths
end Pinrail

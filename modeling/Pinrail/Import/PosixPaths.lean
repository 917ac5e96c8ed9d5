import Pinrail.Import.Gate
import Pinrail.Lib.FileTree

/-!
# Paths as components

What `posixpath` does to the text of a path, component by component: a relative path is collapsed from
the directory it starts in.
-/

namespace Pinrail.Import

open Lib

/-- `posixpath.dirname`. -/
def dirname (path : Str) : Str :=
  let head := path.rdropWhile (· ≠ '/')
  if head ≠ [] ∧ head ≠ List.replicate head.length '/' then head.rdropWhile (· = '/') else head

def part (component : Str) : PathPart Str :=
  if component = [] ∨ component = ['.'] then .here
  else if component = ['.', '.'] then .up
  else .name component

structure Plain (component : Str) : Prop where
  nonempty : component ≠ []
  notDot : component ≠ ['.']
  notUp : component ≠ ['.', '.']
  whole : '/' ∉ component

variable {path value text component : Str} {components kept : List Str} {c : Char}

/-! ## Splitting -/

theorem not_mem_of_splitOn (member : component ∈ text.splitOn '/') : '/' ∉ component := by
  induction text generalizing component with
  | nil =>
    rw [List.splitOn_nil, List.mem_singleton] at member
    rw [member]
    simp
  | cons c text ih =>
    rw [List.splitOn_cons_eq_if_modifyHead] at member
    split_ifs at member with slash
    · rcases List.mem_cons.mp member with rfl | member
      · simp
      · exact ih member
    · obtain ⟨first, rest, split⟩ := List.exists_cons_of_ne_nil (List.splitOn_ne_nil '/' text)
      rw [split, List.modifyHead_cons] at member
      rcases List.mem_cons.mp member with rfl | member
      · have whole : '/' ∉ first := ih (split ▸ List.mem_cons_self)
        simp only [beq_iff_eq] at slash
        simp [whole, Ne.symm slash]
      · exact ih (split ▸ List.mem_cons_of_mem _ member)

theorem mem_splitOn (notSlash : c ≠ '/') : c ∈ text ↔ ∃ component ∈ text.splitOn '/', c ∈ component := by
  induction text with
  | nil => simp
  | cons d text ih =>
    rw [List.splitOn_cons_eq_if_modifyHead, List.mem_cons, ih]
    split_ifs with slash
    · obtain rfl : d = '/' := by simpa using slash
      simp [notSlash]
    · obtain ⟨first, rest, split⟩ := List.exists_cons_of_ne_nil (List.splitOn_ne_nil '/' text)
      simp [split, or_assoc]

theorem splitOn_intercalate_plain (plain : ∀ component ∈ components, Plain component) (some : components ≠ []) :
    (['/'].intercalate components).splitOn '/' = components :=
  List.splitOn_intercalate '/' (fun component member => (plain component member).whole) some

theorem mem_splitOn_intercalate (whole : '/' ∉ component) (rest : List Str) :
    component ∈ (['/'].intercalate (component :: rest)).splitOn '/' := by
  cases rest with
  | nil =>
    rw [List.intercalate_singleton, List.splitOn_eq_singleton whole]
    exact List.mem_cons_self
  | cons second rest =>
    rw [List.intercalate_cons_of_ne_nil (by simp), List.append_assoc, List.singleton_append,
      List.splitOn_append_cons_self_of_not_mem whole]
    exact List.mem_cons_self

theorem head_of_plain (plain : ∀ component ∈ text.splitOn '/', Plain component) : text.head? ≠ some '/' := by
  intro slash
  cases text with
  | nil => cases slash
  | cons c text =>
    obtain rfl : c = '/' := by simpa using slash
    rw [List.splitOn_cons_eq_if_modifyHead, if_pos (by simp)] at plain
    exact (plain [] List.mem_cons_self).nonempty rfl

theorem last_of_plain (plain : ∀ component ∈ text.splitOn '/', Plain component) : text.getLast? ≠ some '/' := by
  intro slash
  obtain ⟨front, rfl⟩ := List.getLast?_eq_some_iff.mp slash
  rw [List.splitOn_append_cons_self, List.splitOn_nil] at plain
  exact (plain [] (by simp)).nonempty rfl

theorem ne_nil_of_plain (plain : ∀ component ∈ text.splitOn '/', Plain component) : text ≠ [] := by
  rintro rfl
  exact (plain [] (by simp)).nonempty rfl

/-! ## Safe paths -/

theorem safePath_eq_ok (safe : safePath path = .ok value) :
    value = path ∧ (∀ component ∈ path.splitOn '/', Plain component) ∧ ∀ c ∈ path, c ≠ '\\' := by
  obtain ⟨⟨⟩, passed, same⟩ := bind_eq_ok.mp safe
  obtain ⟨-, -, components, characters⟩ := of_require passed
  refine ⟨(pure_eq_ok.mp same).symm, fun component member => ?_, fun c member => (characters c member).2.2.2⟩
  obtain ⟨nonempty, notDot, notUp, -⟩ := components component member
  exact ⟨nonempty, notDot, notUp, not_mem_of_splitOn member⟩

/-! ## Joining and normalizing -/

/-- A component of `posixpath.normpath` for a path that starts with no slash. -/
def normStep (kept : List Str) (component : Str) : List Str :=
  if component = [] ∨ component = ['.'] then kept
  else if component ≠ ['.', '.'] ∨ kept = [] ∨ kept.getLast? = some ['.', '.'] then kept ++ [component]
  else kept.dropLast

theorem normParts_zero (components : List Str) : normParts 0 components = components.foldl normStep [] := by
  rw [normParts]
  congr 1
  funext kept component
  simp [normStep]

theorem normpath_relative (relative : path.head? ≠ some '/') : normpath path =
      if ['/'].intercalate ((path.splitOn '/').foldl normStep []) = [] then ['.']
      else ['/'].intercalate ((path.splitOn '/').foldl normStep []) := by
  have leading : path.takeWhile (· = '/') = [] := by
    cases path with
    | nil => rfl
    | cons c path =>
      have notSlash : c ≠ '/' := by simpa using relative
      simp [notSlash]
  simp [normpath, leading, normParts_zero]

theorem joinPath_plain (plain : ∀ component ∈ components, Plain component) (relative : text.head? ≠ some '/') :
    (joinPath (['/'].intercalate components) text).head? ≠ some '/' ∧
    (joinPath (['/'].intercalate components) text).splitOn '/' = components ++ text.splitOn '/' := by
  rw [joinPath, if_neg relative]
  cases components with
  | nil => exact ⟨relative, rfl⟩
  | cons first rest =>
    have split := splitOn_intercalate_plain plain (by simp)
    generalize ['/'].intercalate (first :: rest) = base at split
    have named : ∀ component ∈ base.splitOn '/', Plain component := split ▸ plain
    have nonempty := ne_nil_of_plain named
    rw [if_neg (not_or.mpr ⟨nonempty, last_of_plain named⟩), List.append_assoc, List.singleton_append]
    constructor
    · rw [List.head?_append_of_ne_nil _ nonempty]
      exact head_of_plain named
    · rw [List.splitOn_append_cons_self, split]

theorem normStep_plain (plain : Plain component) : normStep kept component = kept ++ [component] := by
  rw [normStep, if_neg (not_or.mpr ⟨plain.nonempty, plain.notDot⟩), if_pos (.inl plain.notUp)]

theorem foldl_plain (plain : ∀ component ∈ components, Plain component) (kept : List Str) :
    components.foldl normStep kept = kept ++ components := by
  induction components generalizing kept with
  | nil => simp
  | cons component components ih =>
    rw [List.forall_mem_cons] at plain
    rw [List.foldl_cons, normStep_plain plain.1, ih plain.2, List.append_assoc, List.singleton_append]

theorem foldl_above (above : kept.head? = some ['.', '.']) :
    (components.foldl normStep kept).head? = some ['.', '.'] := by
  induction components generalizing kept with
  | nil => exact above
  | cons component components ih =>
    apply ih
    obtain ⟨rest, rfl⟩ := List.head?_eq_some_iff.mp above
    rw [normStep]
    split_ifs with dot goesOn
    · rfl
    · rfl
    · rw [not_or, not_or] at goesOn
      cases rest with
      | nil => exact absurd rfl goesOn.2.2
      | cons second rest => rfl

theorem part_cases (whole : '/' ∉ component) : (part component = .here ∧ (component = [] ∨ component = ['.'])) ∨
    (part component = .up ∧ component = ['.', '.']) ∨ part component = .name component ∧ Plain component := by
  unfold part
  split_ifs with dot up
  · exact .inl ⟨rfl, dot⟩
  · exact .inr (.inl ⟨rfl, up⟩)
  · exact .inr (.inr ⟨rfl, (not_or.mp dot).1, (not_or.mp dot).2, up, whole⟩)

theorem foldl_collapse (plain : ∀ component ∈ kept, Plain component)
    (whole : ∀ component ∈ components, '/' ∉ component) :
    (∃ path, collapse kept (components.map part) = some path ∧ components.foldl normStep kept = path ∧
      ∀ component ∈ path, Plain component) ∨
    collapse kept (components.map part) = none ∧ (components.foldl normStep kept).head? = some ['.', '.'] := by
  induction components generalizing kept with
  | nil => exact .inl ⟨kept, rfl, rfl, plain⟩
  | cons component components ih =>
    rw [List.forall_mem_cons] at whole
    rw [List.map_cons, List.foldl_cons]
    rcases part_cases whole.1 with ⟨here, dot⟩ | ⟨up, rfl⟩ | ⟨name, named⟩
    · rw [here, normStep, if_pos dot]
      exact ih plain whole.2
    · cases kept with
      | nil => exact .inr ⟨by rw [up]; rfl, foldl_above rfl⟩
      | cons first rest =>
        have notUp : (first :: rest).getLast? ≠ some ['.', '.'] := by
          intro last
          exact (plain _ (List.mem_of_getLast? last)).notUp rfl
        rw [up, collapse, if_neg (by simp), normStep, if_neg (by simp), if_neg (by simp [notUp])]
        exact ih (fun component member => plain component (List.dropLast_subset _ member)) whole.2
    · rw [name, normStep_plain named]
      apply ih _ whole.2
      intro other member
      rcases List.mem_append.mp member with member | member
      · exact plain other member
      · exact List.mem_singleton.mp member ▸ named

theorem collapse_of_relativePath (plain : ∀ component ∈ components, Plain component)
    (accepted : relativePath (['/'].intercalate components) text = .ok value) :
    collapse components ((text.splitOn '/').map part) = some (value.splitOn '/') ∧ safePath value = .ok value := by
  obtain ⟨⟨⟩, passed, safe⟩ := bind_eq_ok.mp accepted
  obtain ⟨relative, -⟩ := of_require passed
  obtain ⟨rfl, named, -⟩ := safePath_eq_ok safe
  refine ⟨?_, safe⟩
  obtain ⟨relative', split⟩ := joinPath_plain plain relative
  rw [normpath_relative relative', split, List.foldl_append, foldl_plain plain, List.nil_append] at named ⊢
  split_ifs at named ⊢ with blank
  · exact absurd rfl (named ['.'] (by decide)).notDot
  · have some : (text.splitOn '/').foldl normStep components ≠ [] := by
      intro none
      rw [none] at blank
      exact blank rfl
    rcases foldl_collapse plain (fun component => not_mem_of_splitOn) with
      ⟨path, collapsed, normal, clean⟩ | ⟨-, above⟩
    · rw [collapsed, normal, splitOn_intercalate_plain clean (normal ▸ some)]
    · obtain ⟨rest, ups⟩ := List.head?_eq_some_iff.mp above
      rw [ups] at named
      exact absurd rfl (named _ (mem_splitOn_intercalate (by decide) rest)).notUp

theorem relativePath_of_collapse (plain : ∀ component ∈ components, Plain component)
    (relative : text.head? ≠ some '/') (foreign : '\\' ∉ text) (safe : safePath path = .ok path)
    (collapsed : collapse components ((text.splitOn '/').map part) = some (path.splitOn '/')) :
    relativePath (['/'].intercalate components) text = .ok path := by
  obtain ⟨relative', split⟩ := joinPath_plain plain relative
  have normal : normpath (joinPath (['/'].intercalate components) text) = path := by
    rw [normpath_relative relative', split, List.foldl_append, foldl_plain plain, List.nil_append]
    rcases foldl_collapse plain (fun component => not_mem_of_splitOn) with
      ⟨path', collapsed', normal, -⟩ | ⟨none, -⟩
    · rw [collapsed, Option.some.injEq] at collapsed'
      rw [normal, ← collapsed', List.intercalate_splitOn, if_neg]
      exact ne_nil_of_plain (safePath_eq_ok safe).2.1
    · rw [collapsed] at none
      cases none
  rw [relativePath, require, if_pos ⟨relative, foreign⟩, ok_bind, normal, safe]

theorem dirname_plain {front : List Str} {last : Str} (split : path.splitOn '/' = front ++ [last])
    (plain : ∀ component ∈ path.splitOn '/', Plain component) : dirname path = ['/'].intercalate front := by
  have named : Plain last := plain last (by simp [split])
  have before : ∀ component ∈ front, Plain component :=
    fun component member => plain component (by simp [split, member])
  have joined (text : Str) : ['/'].intercalate (text.splitOn '/') = text := List.intercalate_splitOn '/'
  have name (text : Str) : (text ++ last).rdropWhile (· ≠ '/') = text.rdropWhile (· ≠ '/') := by
    rw [List.rdropWhile, List.reverse_append, List.dropWhile_append_of_pos, List.rdropWhile]
    intro c member
    rw [decide_eq_true_iff]
    rintro rfl
    exact named.whole (List.mem_reverse.mp member)
  rcases List.eq_nil_or_concat' front with rfl | ⟨outer, inner, concat⟩
  · have alone : path = last := by
      rw [← joined path, split]
      simp
    have none := name []
    rw [List.nil_append, List.rdropWhile_nil] at none
    rw [dirname, alone, none, if_neg (by simp)]
    rfl
  · have some : front ≠ [] := by simp [concat]
    have base := splitOn_intercalate_plain before some
    have whole : path = ['/'].intercalate front ++ '/' :: last := by
      rw [← joined path, split, ← joined (['/'].intercalate front ++ '/' :: last),
        List.splitOn_append_cons_self, base, List.splitOn_eq_singleton named.whole]
    generalize ['/'].intercalate front = directory at base whole
    have plain' : ∀ component ∈ directory.splitOn '/', Plain component := base ▸ before
    have nonempty := ne_nil_of_plain plain'
    have head : path.rdropWhile (· ≠ '/') = directory ++ ['/'] := by
      rw [whole, ← List.singleton_append, ← List.append_assoc, name, List.rdropWhile_concat_neg _ _ _ (by simp)]
    have kept : directory.rdropWhile (· = '/') = directory := by
      rw [List.rdropWhile_eq_self_iff]
      intro some slash
      apply last_of_plain plain'
      rw [List.getLast?_eq_some_getLast some]
      simpa using slash
    have mixed : directory ++ ['/'] ≠ List.replicate (directory ++ ['/']).length '/' := by
      intro slashes
      apply head_of_plain plain'
      obtain ⟨c, rest, rfl⟩ := List.exists_cons_of_ne_nil nonempty
      have first : c = '/' := by
        rw [List.eq_replicate_iff] at slashes
        exact slashes.2 c (by simp)
      rw [first]
      rfl
    rw [dirname, head, if_pos ⟨by simp, mixed⟩, List.rdropWhile_concat_pos _ _ _ (by simp), kept]

end Pinrail.Import

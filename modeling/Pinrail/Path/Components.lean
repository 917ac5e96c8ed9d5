import Mathlib.Data.List.Infix
import Mathlib.Data.List.Nodup
import Pinrail.Lib.Iterator
import Pinrail.Path.NaturalSort
import Pinrail.Path.Pieces

/-!
# Operations on relative paths

The operations of `RelPath` work on the text of a path. On normalized paths they are the operations
on the lists of the names.
-/

namespace Pinrail
open Lib

/-! ## The code -/

/-- `str::find` of a character, as the number of characters in front of it. -/
def find (text : Str) (c : Char) : Option Nat := text.idxOf? c

/-- `str::rfind` of a character. -/
def rfindChar (text : Str) (c : Char) : Option Nat :=
  (text.reverse.idxOf? c).map (text.length - 1 - ·)

namespace RelPathComponents

def next (self : Str) : Option Str × Str :=
  match find self '/' with
  | some sepIx => (some (self.take sepIx), (self.drop sepIx).drop 1)
  | none => if self.isEmpty then (none, self) else (some self, [])

def nextBack (self : Str) : Option Str × Str :=
  match rfindChar self '/' with
  | some sepIx => (some ((self.drop sepIx).drop 1), self.take sepIx)
  | none => if self.isEmpty then (none, self) else (some self, [])

def step (side : Side) (self : Str) : Except Panic (Option Str × Str) :=
  .ok (match side with | .front => next self | .back => nextBack self)

end RelPathComponents

structure RelPathAncestors where
  full : Str
  front : Nat
  back : Nat
  done : Bool
deriving DecidableEq

namespace RelPathAncestors

def next (self : RelPathAncestors) : Except Panic (Option Str × RelPathAncestors) := do
  if self.done then
    return (none, self)
  let result ← sliceTo self.full self.front
  if self.front = self.back then
    return (some result, { self with done := true })
  else
    return (some result, { self with front := (rfindChar result '/').getD 0 })

def nextBack (self : RelPathAncestors) : Except Panic (Option Str × RelPathAncestors) := do
  if self.done then
    return (none, self)
  let result ← sliceTo self.full self.back
  if self.front = self.back then
    return (some result, { self with done := true })
  else
    let searchStart := if self.back = 0 then 0 else self.back + 1
    let rest ← sliceFrom self.full searchStart
    let back := match find rest '/' with
      | some sepIx => searchStart + sepIx
      | none => self.full.length
    return (some result, { self with back })

def step (side : Side) (self : RelPathAncestors) : Except Panic (Option Str × RelPathAncestors) :=
  match side with
  | .front => self.next
  | .back => self.nextBack

end RelPathAncestors

namespace RelPath

def ancestors (self : Str) : RelPathAncestors where
  full := self
  front := self.length
  back := 0
  done := false

def fileName (self : Str) : Option Str := (RelPathComponents.nextBack self).1

def parent (self : Str) : Option Str :=
  match RelPathComponents.nextBack self with
  | (some _, rest) => some rest
  | (none, _) => none

/-- `strip_prefix`; its error carries nothing. -/
def stripStart (self other : Str) : Option Str :=
  if other.isEmpty then some self
  else if other.isPrefixOf self then
    match self.drop other.length with
    | '/' :: suffix => some suffix
    | suffix => if suffix.isEmpty then some [] else none
  else none

def startsWith (self other : Str) : Bool := (stripStart self other).isSome

def isDescendantOf (self ancestor : Str) : Bool :=
  if ancestor.isEmpty || self == ancestor then false else startsWith self ancestor

def endsWith (self other : Str) : Bool :=
  if other.isEmpty then true
  else if other.isSuffixOf self then
    let suffix := self.take (self.length - other.length)
    suffix.getLast? == some '/' || suffix.isEmpty
  else false

def len (self : Str) : Nat := if self.isEmpty then 0 else self.count '/' + 1

/-- The loop of `last_n_components`. -/
def passComponents : Nat → Str → Option Str
  | 0, components => some components
  | count + 1, components =>
    match RelPathComponents.next components with
    | (some _, rest) => passComponents count rest
    | (none, _) => none

def lastNComponents (self : Str) (count : Nat) : Option Str :=
  if count ≤ len self then passComponents (len self - count) self else none

def join (self other : Str) : Str :=
  if self.isEmpty then other
  else if other.isEmpty then self
  else self ++ '/' :: other

/-- `Iterator::cmp` of the components. -/
def cmp (self other : Str) : Ordering :=
  List.compareLex Paths.cmpStr (components self) (components other)

end RelPath

/-! ## Finding separators -/

theorem find_none {text : Str} (absent : '/' ∉ text) : find text '/' = none := List.idxOf?_eq_none_iff.mpr absent

theorem find_append {name : Str} (noSlash : '/' ∉ name) (rest : Str) :
    find (name ++ '/' :: rest) '/' = some name.length := by
  induction name with
  | nil => simp [find, List.idxOf?_cons]
  | cons c name ih =>
    obtain ⟨other, later⟩ := not_or.mp (List.mem_cons.not.mp noSlash)
    rw [find] at ih ⊢
    rw [List.cons_append, List.idxOf?_cons, if_neg (by simpa using Ne.symm other), ih later]
    rfl

theorem rfind_none {text : Str} (absent : '/' ∉ text) : rfindChar text '/' = none := by
  rw [rfindChar, List.idxOf?_eq_none_iff.mpr (by simpa using absent)]
  rfl

theorem rfind_append {name : Str} (noSlash : '/' ∉ name) (init : Str) :
    rfindChar (init ++ '/' :: name) '/' = some init.length := by
  have turned : (init ++ '/' :: name).reverse = name.reverse ++ '/' :: init.reverse := by simp
  have found := @find_append name.reverse (by simpa using noSlash) init.reverse
  rw [find] at found
  rw [rfindChar, turned, found]
  simp only [Option.map_some, List.length_append, List.length_cons, List.length_reverse]
  congr 1
  omega

/-! ## Names joined -/

variable {names others : List Str} {name : Str}

theorem join_append (left right : List Str) (leftSome : left ≠ []) (rightSome : right ≠ []) :
    join (left ++ right) = join left ++ '/' :: join right := by
  induction left with
  | nil => exact absurd rfl leftSome
  | cons first left ih =>
    cases left with
    | nil =>
      rw [List.singleton_append, join_cons first rightSome]
      simp [join]
    | cons second left =>
      rw [List.cons_append, join_cons first (by simp), ih (by simp), join_cons first (by simp)]
      simp

theorem count_join (clean : ∀ name ∈ names, Clean .unix name) (nonempty : names ≠ []) :
    (join names).count '/' + 1 = names.length := by
  induction names with
  | nil => exact absurd rfl nonempty
  | cons first names ih =>
    have none : first.count '/' = 0 := List.count_eq_zero.mpr (clean first (by simp)).noSlash
    cases names with
    | nil => simpa [join] using none
    | cons second names =>
      have rest := ih (fun name member => clean name (by simp [member])) (by simp)
      rw [join_cons _ (by simp), List.count_append, none, List.count_cons_self, zero_add, rest]
      rfl

namespace RelPathComponents

theorem next_join (clean : ∀ name ∈ names, Clean .unix name) :
    next (join names) = ((takeEnd .front names).1, join (takeEnd .front names).2) := by
  cases names with
  | nil => rfl
  | cons first names =>
    have here := clean first (by simp)
    cases names with
    | nil =>
      have single : join [first] = first := by simp [join]
      rw [single, next, find_none here.noSlash]
      simp only [List.isEmpty_iff, here.nonempty, if_false]
      rfl
    | cons second names =>
      rw [join_cons _ (by simp), next, find_append here.noSlash]
      simp [takeEnd]

theorem nextBack_join (clean : ∀ name ∈ names, Clean .unix name) :
    nextBack (join names) = ((takeEnd .back names).1, join (takeEnd .back names).2) := by
  rcases List.eq_nil_or_concat' names with rfl | ⟨init, last, rfl⟩
  · rfl
  · have here := clean last (by simp)
    by_cases empty : init = []
    · subst empty
      have single : join [last] = last := by simp [join]
      rw [List.nil_append, single, nextBack, rfind_none here.noSlash]
      simp only [List.isEmpty_iff, here.nonempty, if_false]
      rfl
    · rw [join_concat empty, nextBack, rfind_append here.noSlash]
      simp [takeEnd]

theorem mem_takeEnd {side : Side} (member : name ∈ (takeEnd side names).2) : name ∈ names := by
  cases side with
  | front => exact List.mem_of_mem_tail member
  | back => exact (List.dropLast_sublist names).subset member

theorem calls_join (clean : ∀ name ∈ names, Clean .unix name) (sides : List Side) :
    calls step sides (join names) = .ok ((takeEnds sides names).1, join (takeEnds sides names).2) := by
  let Stands (text : Str) (names : List Str) : Prop :=
    (∀ name ∈ names, Clean .unix name) ∧ text = join names
  have stepped : ∀ side s xs, Stands s xs →
      ∃ next, step side s = .ok ((takeEnd side xs).1, next) ∧ Stands next (takeEnd side xs).2 := by
    rintro side s xs ⟨clean, rfl⟩
    refine ⟨join (takeEnd side xs).2, ?_, fun name member => clean name (mem_takeEnd member), rfl⟩
    cases side with
    | front => exact congrArg Except.ok (next_join clean)
    | back => exact congrArg Except.ok (nextBack_join clean)
  obtain ⟨last, called, -, rfl⟩ := calls_eq Stands stepped sides ⟨clean, rfl⟩
  exact called

end RelPathComponents

namespace RelPath

theorem fileName_join (clean : ∀ name ∈ names, Clean .unix name) : fileName (Pinrail.join names) = names.getLast? := by
  rw [fileName, RelPathComponents.nextBack_join clean]
  rfl

theorem parent_join (clean : ∀ name ∈ names, Clean .unix name) : parent (Pinrail.join names) =
      if names = [] then none else some (Pinrail.join names.dropLast) := by
  rw [parent, RelPathComponents.nextBack_join clean]
  rcases List.eq_nil_or_concat' names with rfl | ⟨init, last, rfl⟩
  · rfl
  · simp [takeEnd]

theorem len_join (clean : ∀ name ∈ names, Clean .unix name) : len (Pinrail.join names) = names.length := by
  by_cases empty : names = []
  · subst empty
    rfl
  · rw [len, if_neg (by simpa [join_eq_nil clean] using empty), count_join clean empty]

theorem join_join (clean : ∀ name ∈ names, Clean .unix name) (othersClean : ∀ name ∈ others, Clean .unix name) :
    join (Pinrail.join names) (Pinrail.join others) = Pinrail.join (names ++ others) := by
  by_cases empty : names = []
  · subst empty
    rfl
  · rw [join, if_neg (by simpa [join_eq_nil clean] using empty)]
    by_cases nothing : others = []
    · subst nothing
      rw [List.append_nil]
      rfl
    · rw [if_neg (by simpa [join_eq_nil othersClean] using nothing), join_append names others empty nothing]

theorem passComponents_join (clean : ∀ name ∈ names, Clean .unix name) {count : Nat} (within : count ≤ names.length) :
    passComponents count (Pinrail.join names) = some (Pinrail.join (names.drop count)) := by
  induction count generalizing names with
  | zero => rfl
  | succ count ih =>
    cases names with
    | nil => exact absurd within (Nat.not_succ_le_zero count)
    | cons first names =>
      rw [passComponents, RelPathComponents.next_join clean]
      exact ih (fun name member => clean name (List.mem_cons_of_mem first member)) (Nat.le_of_succ_le_succ within)

theorem lastNComponents_join (clean : ∀ name ∈ names, Clean .unix name) (count : Nat) :
    lastNComponents (Pinrail.join names) count =
      if count ≤ names.length then some (Pinrail.join (names.drop (names.length - count)))
      else none := by
  rw [lastNComponents, len_join clean]
  split_ifs with within
  · exact passComponents_join clean (Nat.sub_le _ _)
  · rfl

/-! ## Prefixes and suffixes -/

theorem pieces_join_append (clean : ∀ name ∈ names, Clean .unix name) (nonempty : names ≠ [])
    (rest : Str) : pieces .unix (Pinrail.join names ++ '/' :: rest) = names ++ pieces .unix rest := by
  rw [pieces_append_separator _ _ (slash_mem .unix), pieces_join clean nonempty]

theorem stripStart_append (othersClean : ∀ name ∈ others, Clean .unix name) (rest : List Str) :
    stripStart (Pinrail.join (others ++ rest)) (Pinrail.join others) = some (Pinrail.join rest) := by
  by_cases empty : others = []
  · subst empty
    rfl
  · rw [stripStart, if_neg (by simpa [join_eq_nil othersClean] using empty)]
    by_cases nothing : rest = []
    · subst nothing
      simp
      rfl
    · rw [join_append others rest empty nothing, if_pos (by simp), List.drop_left]
      rfl

theorem isPrefix_of_stripStart (clean : ∀ name ∈ names, Clean .unix name)
    (othersClean : ∀ name ∈ others, Clean .unix name) {rest : Str}
    (stripped : stripStart (Pinrail.join names) (Pinrail.join others) = some rest) : others <+: names := by
  by_cases empty : others = []
  · subst empty
    exact List.nil_prefix
  · have someText : Pinrail.join others ≠ [] := (join_eq_nil othersClean).not.mpr empty
    rw [stripStart, if_neg (by simpa using someText)] at stripped
    split_ifs at stripped with starts
    obtain ⟨suffix, text⟩ := List.isPrefixOf_iff_prefix.mp starts
    have someNames : names ≠ [] := by
      rintro rfl
      exact someText (List.append_eq_nil_iff.mp text).1
    rw [← text, List.drop_left] at stripped
    have cut := pieces_join clean someNames
    rw [← text] at cut
    cases suffix with
    | nil =>
      rw [List.append_nil, pieces_join othersClean empty] at cut
      exact ⟨[], (List.append_nil others).trans cut⟩
    | cons c suffix =>
      by_cases slash : c = '/'
      · subst slash
        rw [pieces_join_append othersClean empty] at cut
        exact ⟨_, cut⟩
      · simp [slash] at stripped

theorem stripStart_join (clean : ∀ name ∈ names, Clean .unix name) (othersClean : ∀ name ∈ others, Clean .unix name) :
    stripStart (Pinrail.join names) (Pinrail.join others) =
      if others <+: names then some (Pinrail.join (names.drop others.length)) else none := by
  split_ifs with starts
  · obtain ⟨rest, rfl⟩ := starts
    rw [stripStart_append othersClean, List.drop_left]
  · cases stripped : stripStart (Pinrail.join names) (Pinrail.join others) with
    | none => rfl
    | some rest => exact absurd (isPrefix_of_stripStart clean othersClean stripped) starts

theorem startsWith_join (clean : ∀ name ∈ names, Clean .unix name) (othersClean : ∀ name ∈ others, Clean .unix name) :
    startsWith (Pinrail.join names) (Pinrail.join others) = decide (others <+: names) := by
  rw [startsWith, stripStart_join clean othersClean]
  split_ifs with starts <;> simp [starts]

theorem endsWith_append (before : Str) {other : Str} (nonempty : other ≠ []) :
    endsWith (before ++ other) other = (before.getLast? == some '/' || before.isEmpty) := by
  have front : (before ++ other).take ((before ++ other).length - other.length) = before := by
    rw [List.length_append, Nat.add_sub_cancel, List.take_left]
  rw [endsWith, if_neg (by simpa using nonempty), if_pos (by simp)]
  simp only [front]

theorem isSuffix_of_endsWith (clean : ∀ name ∈ names, Clean .unix name)
    (othersClean : ∀ name ∈ others, Clean .unix name)
    (ends : endsWith (Pinrail.join names) (Pinrail.join others) = true) : others <:+ names := by
  by_cases empty : others = []
  · subst empty
    exact List.nil_suffix
  · have someText : Pinrail.join others ≠ [] := (join_eq_nil othersClean).not.mpr empty
    have whole : Pinrail.join others <:+ Pinrail.join names := by
      rw [endsWith, if_neg (by simpa using someText)] at ends
      split_ifs at ends with suffix
      exact List.isSuffixOf_iff_suffix.mp suffix
    obtain ⟨before, text⟩ := whole
    rw [← text, endsWith_append before someText] at ends
    have someNames : names ≠ [] := by
      rintro rfl
      exact someText (List.append_eq_nil_iff.mp text).2
    have cut := pieces_join clean someNames
    rw [← text] at cut
    rcases List.eq_nil_or_concat' before with rfl | ⟨init, c, rfl⟩
    · rw [List.nil_append, pieces_join othersClean empty] at cut
      exact ⟨[], cut⟩
    · obtain rfl : c = '/' := by simpa using ends
      rw [List.append_assoc, List.singleton_append, pieces_append_separator _ _ (slash_mem .unix),
        pieces_join othersClean empty] at cut
      exact ⟨_, cut⟩

theorem endsWith_join (clean : ∀ name ∈ names, Clean .unix name) (othersClean : ∀ name ∈ others, Clean .unix name) :
    endsWith (Pinrail.join names) (Pinrail.join others) = decide (others <:+ names) := by
  rw [Bool.eq_iff_iff, decide_eq_true_iff]
  refine ⟨isSuffix_of_endsWith clean othersClean, ?_⟩
  rintro ⟨init, rfl⟩
  by_cases empty : others = []
  · subst empty
    rfl
  · have someText : Pinrail.join others ≠ [] := (join_eq_nil othersClean).not.mpr empty
    by_cases nothing : init = []
    · subst nothing
      exact endsWith_append [] someText
    · have split : Pinrail.join (init ++ others) = (Pinrail.join init ++ ['/']) ++ Pinrail.join others := by
        rw [join_append init others nothing empty]
        simp
      rw [split, endsWith_append _ someText]
      simp

theorem isDescendantOf_join (clean : ∀ name ∈ names, Clean .unix name)
    (othersClean : ∀ name ∈ others, Clean .unix name) : isDescendantOf (Pinrail.join names)
    (Pinrail.join others) = decide (others ≠ [] ∧ others ≠ names ∧ others <+: names) := by
  have same : Pinrail.join names = Pinrail.join others ↔ names = others := by
    refine ⟨fun text => ?_, fun eq => eq ▸ rfl⟩
    rw [← components_join clean, text, components_join othersClean]
  rw [isDescendantOf, startsWith_join clean othersClean]
  by_cases empty : others = []
  · subst empty
    simp [Pinrail.join]
  · by_cases whole : names = others
    · subst whole
      simp
    · have someText := (join_eq_nil othersClean).not.mpr empty
      simp [someText, same, whole, empty, Ne.symm whole]

end RelPath

/-! ## Ancestors -/

namespace RelPathAncestors

def place (names : List Str) (count : Nat) : Nat := (join (names.take count)).length

theorem take_place (names : List Str) (count : Nat) :
    (join names).take (place names count) = join (names.take count) := by
  by_cases front : names.take count = []
  · rw [place, front]
    rfl
  · by_cases rest : names.drop count = []
    · have whole : names.take count = names := by
        rw [← List.append_nil (names.take count), ← rest, List.take_append_drop]
      rw [place, whole, List.take_length]
    · have split := join_append _ _ front rest
      rw [List.take_append_drop] at split
      rw [split, place, List.take_left]

theorem place_zero (names : List Str) : place names 0 = 0 := rfl

theorem place_length (names : List Str) : place names names.length = (join names).length := by
  rw [place, List.take_length]

theorem place_succ {count : Nat} (within : count < names.length) :
    place names (count + 1) = (if count = 0 then 0 else place names count + 1) + names[count].length := by
  rw [place, List.take_succ_eq_append_getElem within]
  split_ifs with first
  · subst first
    simp [join]
  · have front : names.take count ≠ [] := by
      have some : names ≠ [] := List.ne_nil_of_length_pos (Nat.zero_lt_of_lt within)
      simpa [List.take_eq_nil_iff, first] using some
    rw [join_concat front, List.length_append, List.length_cons, place]
    omega

theorem place_lt_succ (clean : ∀ name ∈ names, Clean .unix name) {count : Nat}
    (within : count < names.length) : place names count < place names (count + 1) := by
  rw [place_succ within]
  split_ifs with first
  · have some := List.length_pos_iff.mpr (clean _ (List.getElem_mem within)).nonempty
    subst first
    rw [place_zero, zero_add]
    exact some
  · exact Nat.lt_of_lt_of_le (Nat.lt_succ_self _) (Nat.le_add_right _ _)

theorem place_lt (clean : ∀ name ∈ names, Clean .unix name) {i j : Nat} (less : i < j)
    (within : j ≤ names.length) : place names i < place names j := by
  induction less with
  | refl => exact place_lt_succ clean within
  | step later ih => exact (ih (Nat.le_of_succ_le within)).trans (place_lt_succ clean within)

theorem rfind_take (clean : ∀ name ∈ names, Clean .unix name) {count : Nat} (within : count < names.length) :
    (rfindChar (join (names.take (count + 1))) '/').getD 0 = place names count := by
  have here := clean _ (List.getElem_mem within)
  rw [List.take_succ_eq_append_getElem within]
  by_cases front : names.take count = []
  · have single : join [names[count]] = names[count] := by simp [join]
    rw [front, List.nil_append, single, rfind_none here.noSlash, place, front]
    rfl
  · rw [join_concat front, rfind_append here.noSlash]
    rfl

theorem find_drop (clean : ∀ name ∈ names, Clean .unix name) {count : Nat} (within : count < names.length) :
    (match find (join (names.drop count)) '/' with
      | some sepIx => (if count = 0 then 0 else place names count + 1) + sepIx
      | none => (join names).length) = place names (count + 1) := by
  have here := clean _ (List.getElem_mem within)
  rw [List.drop_eq_getElem_cons within]
  by_cases rest : names.drop (count + 1) = []
  · have single : join [names[count]] = names[count] := by simp [join]
    have last : count + 1 = names.length := Nat.le_antisymm within (List.drop_eq_nil_iff.mp rest)
    rw [rest, single, find_none here.noSlash, last, place_length]
  · rw [join_cons _ rest, find_append here.noSlash, place_succ within]

/-- The ancestors from the one of `upper` names to the one of `lower` names. -/
def between (names : List Str) (lower upper : Nat) : List Str :=
  (List.range' lower (upper + 1 - lower)).reverse.map fun count => join (names.take count)

def Stands (names : List Str) (self : RelPathAncestors) (rest : List Str) : Prop :=
  self.full = join names ∧ (self.done = true ∧ rest = [] ∨
      self.done = false ∧ ∃ lower upper, lower ≤ upper ∧ upper ≤ names.length ∧
        self.front = place names upper ∧ self.back = place names lower ∧
        rest = between names lower upper)

theorem between_front {lower upper : Nat} (within : lower ≤ upper) :
    between names lower (upper + 1) = join (names.take (upper + 1)) :: between names lower upper := by
  have count : upper + 1 + 1 - lower = upper + 1 - lower + 1 := by omega
  have last : lower + (upper + 1 - lower) = upper + 1 := by omega
  rw [between, count, List.range'_concat, List.reverse_append, Nat.one_mul, last]
  rfl

theorem between_back {lower upper : Nat} (within : lower < upper) :
    between names lower upper = between names (lower + 1) upper ++ [join (names.take lower)] := by
  have count : upper + 1 - lower = upper + 1 - (lower + 1) + 1 := by omega
  rw [between, count, List.range'_succ, List.reverse_cons, List.map_append]
  rfl

theorem between_self (count : Nat) : between names count count = [join (names.take count)] := by
  rw [between, Nat.add_sub_cancel_left]
  rfl

theorem place_le (clean : ∀ name ∈ names, Clean .unix name) {count : Nat}
    (within : count ≤ names.length) : place names count ≤ (join names).length := by
  rw [← place_length]
  rcases Nat.lt_or_eq_of_le within with less | rfl
  · exact (place_lt clean less le_rfl).le
  · exact le_rfl

theorem sliceTo_place (clean : ∀ name ∈ names, Clean .unix name) {count : Nat} (within : count ≤ names.length) :
    sliceTo (join names) (place names count) = .ok (join (names.take count)) := by
  rw [sliceTo, if_pos (place_le clean within), take_place]

theorem sliceFrom_place (clean : ∀ name ∈ names, Clean .unix name) {count : Nat} (within : count < names.length) :
    sliceFrom (join names) (if place names count = 0 then 0 else place names count + 1) =
        .ok (join (names.drop count)) ∧
      (if place names count = 0 then 0 else place names count + 1) =
        if count = 0 then 0 else place names count + 1 := by
  by_cases first : count = 0
  · subst first
    rw [if_pos (place_zero names)]
    exact ⟨rfl, rfl⟩
  · have positive := place_lt clean (Nat.pos_of_ne_zero first) within.le
    rw [place_zero] at positive
    rw [if_neg positive.ne', if_neg first]
    refine ⟨?_, rfl⟩
    have front : names.take count ≠ [] := by
      intro empty
      rw [place, empty] at positive
      exact absurd positive (Nat.lt_irrefl 0)
    have rest : names.drop count ≠ [] := by
      simpa [List.drop_eq_nil_iff] using within
    have split := join_append _ _ front rest
    rw [List.take_append_drop] at split
    rw [split, sliceFrom, if_pos (by simp [place]), place]
    rw [← List.drop_drop, List.drop_left]
    rfl

theorem next_stands (clean : ∀ name ∈ names, Clean .unix name) {self : RelPathAncestors}
    {rest : List Str} (stands : Stands names self rest) :
    ∃ later, next self = .ok ((takeEnd .front rest).1, later) ∧ Stands names later (takeEnd .front rest).2 := by
  obtain ⟨full, front, back, done⟩ := self
  obtain ⟨rfl, ⟨rfl, rfl⟩ | ⟨rfl, lower, upper, ordered, within, rfl, rfl, rfl⟩⟩ := stands
  · exact ⟨_, rfl, rfl, .inl ⟨rfl, rfl⟩⟩
  · have slice := sliceTo_place clean within
    rcases Nat.lt_or_eq_of_le ordered with less | rfl
    · obtain ⟨upper, rfl⟩ := Nat.exists_eq_succ_of_ne_zero (Nat.ne_zero_of_lt less)
      refine ⟨⟨join names, place names upper, place names lower, false⟩, ?_, rfl,
        .inr ⟨rfl, lower, upper, Nat.le_of_lt_succ less, Nat.le_of_succ_le within, rfl, rfl, ?_⟩⟩
      · rw [between_front (Nat.le_of_lt_succ less)]
        simp only [next, slice, ok_bind, (place_lt clean less within).ne', if_false, rfind_take clean within]
        rfl
      · rw [between_front (Nat.le_of_lt_succ less)]
        rfl
    · refine ⟨⟨join names, place names lower, place names lower, true⟩, ?_, rfl, .inl ⟨rfl, ?_⟩⟩
      · rw [between_self]
        simp only [next, slice, ok_bind]
        rfl
      · rw [between_self]
        rfl

theorem nextBack_stands (clean : ∀ name ∈ names, Clean .unix name) {self : RelPathAncestors}
    {rest : List Str} (stands : Stands names self rest) :
    ∃ later, nextBack self = .ok ((takeEnd .back rest).1, later) ∧ Stands names later (takeEnd .back rest).2 := by
  obtain ⟨full, front, back, done⟩ := self
  obtain ⟨rfl, ⟨rfl, rfl⟩ | ⟨rfl, lower, upper, ordered, within, rfl, rfl, rfl⟩⟩ := stands
  · exact ⟨_, rfl, rfl, .inl ⟨rfl, rfl⟩⟩
  · have slice := sliceTo_place clean (ordered.trans within)
    rcases Nat.lt_or_eq_of_le ordered with less | rfl
    · obtain ⟨behind, start⟩ := sliceFrom_place clean (less.trans_le within)
      refine ⟨⟨join names, place names upper, place names (lower + 1), false⟩, ?_, rfl,
        .inr ⟨rfl, lower + 1, upper, less, within, rfl, rfl, ?_⟩⟩
      · have found := find_drop clean (less.trans_le within)
        rw [between_back less, takeEnd, List.getLast?_concat]
        simp only [nextBack, slice, ok_bind, (place_lt clean less within).ne', if_false, behind]
        rw [start, found]
        rfl
      · rw [between_back less, takeEnd, List.dropLast_concat]
    · refine ⟨⟨join names, place names lower, place names lower, true⟩, ?_, rfl, .inl ⟨rfl, ?_⟩⟩
      · rw [between_self]
        simp only [nextBack, slice, ok_bind]
        rfl
      · rw [between_self]
        rfl

theorem between_all (names : List Str) : between names 0 names.length = names.inits.reverse.map join := by
  have same : names.inits = (List.range (names.length + 1)).map names.take := by
    apply List.ext_getElem
    · simp
    · intro count _ _
      rw [List.getElem_inits, List.getElem_map, List.getElem_range]
  rw [between, same, Nat.sub_zero, List.range_eq_range', ← List.map_reverse, List.map_map]
  rfl

theorem calls_ancestors (clean : ∀ name ∈ names, Clean .unix name) (sides : List Side) :
    ∃ last, calls step sides (RelPath.ancestors (join names)) =
      .ok ((takeEnds sides (names.inits.reverse.map join)).1, last) := by
  have start : Stands names (RelPath.ancestors (join names)) (names.inits.reverse.map join) :=
    ⟨rfl, .inr ⟨rfl, 0, names.length, Nat.zero_le _, le_rfl, (place_length names).symm, rfl, (between_all names).symm⟩⟩
  have stepped : ∀ side s xs, Stands names s xs → ∃ next, step side s = .ok ((takeEnd side xs).1, next) ∧
      Stands names next (takeEnd side xs).2 := by
    intro side s xs stands
    cases side with
    | front => exact next_stands clean stands
    | back => exact nextBack_stands clean stands
  obtain ⟨last, called, -⟩ := calls_eq (Stands names) stepped sides start
  exact ⟨last, called⟩

theorem nodup_prefixes (clean : ∀ name ∈ names, Clean .unix name) : (names.inits.map join).Nodup := by
  have lengths : ((names.inits.map join).map List.length).Nodup := by
    have same : (names.inits.map join).map List.length = (List.range (names.length + 1)).map (place names) := by
      apply List.ext_getElem
      · simp
      · intro count _ _
        simp [place, List.getElem_inits]
    rw [same]
    refine List.Nodup.map_on ?_ List.nodup_range
    intro i iWithin j jWithin eq
    rw [List.mem_range, Nat.lt_succ_iff] at iWithin jWithin
    rcases Nat.lt_trichotomy i j with less | same | greater
    · exact absurd eq (place_lt clean less jWithin).ne
    · exact same
    · exact absurd eq (place_lt clean greater iWithin).ne'
  exact lengths.of_map _

end RelPathAncestors

/-! ## Paths as lists -/

structure ActAsLists (names others : List Str) : Prop where
  components (sides : List Side) : calls RelPathComponents.step sides (join names) =
      .ok ((takeEnds sides names).1, join (takeEnds sides names).2)
  join : RelPath.join (join names) (join others) = join (names ++ others)
  stripStart : RelPath.stripStart (Pinrail.join names) (Pinrail.join others) =
    if others <+: names then some (Pinrail.join (names.drop others.length)) else none
  startsWith : RelPath.startsWith (Pinrail.join names) (Pinrail.join others) = decide (others <+: names)
  endsWith : RelPath.endsWith (Pinrail.join names) (Pinrail.join others) = decide (others <:+ names)
  parent : RelPath.parent (Pinrail.join names) =
    if names = [] then none else some (Pinrail.join names.dropLast)
  fileName : RelPath.fileName (Pinrail.join names) = names.getLast?
  len : RelPath.len (Pinrail.join names) = names.length
  lastNComponents (count : Nat) : RelPath.lastNComponents (Pinrail.join names) count =
    if count ≤ names.length then some (Pinrail.join (names.drop (names.length - count))) else none
  cmp : RelPath.cmp (Pinrail.join names) (Pinrail.join others) = List.compareLex Paths.cmpStr names others
  ancestors (sides : List Side) : ∃ items last,
    calls RelPathAncestors.step sides (RelPath.ancestors (Pinrail.join names)) = .ok (items, last) ∧
      items = (takeEnds sides (names.inits.reverse.map Pinrail.join)).1 ∧
      (names.length < sides.length → (items.filterMap id).Perm (names.inits.map Pinrail.join)) ∧
      (names.inits.map Pinrail.join).Nodup

theorem relPath_actAsLists (clean : ∀ name ∈ names, Clean .unix name)
    (othersClean : ∀ name ∈ others, Clean .unix name) : ActAsLists names others where
  components := RelPathComponents.calls_join clean
  join := RelPath.join_join clean othersClean
  stripStart := RelPath.stripStart_join clean othersClean
  startsWith := RelPath.startsWith_join clean othersClean
  endsWith := RelPath.endsWith_join clean othersClean
  parent := RelPath.parent_join clean
  fileName := RelPath.fileName_join clean
  len := RelPath.len_join clean
  lastNComponents := RelPath.lastNComponents_join clean
  cmp := by rw [RelPath.cmp, components_join clean, components_join othersClean]
  ancestors sides := by
    obtain ⟨last, called⟩ := RelPathAncestors.calls_ancestors clean sides
    refine ⟨_, last, called, rfl, fun enough => ?_, RelPathAncestors.nodup_prefixes clean⟩
    have count : (names.inits.reverse.map Pinrail.join).length ≤ sides.length := by
      simpa using Nat.succ_le_of_lt enough
    have all := takeEnds_all sides count
    exact all.trans ((List.reverse_perm _).map Pinrail.join)

/-- The names of `a/bc` and of `a`. -/
theorem relPath_actAsLists_two : ActAsLists [['a'], ['b', 'c']] [['a']] := by
  have a : Clean .unix ['a'] := ⟨by simp, by simp, by simp, by simp [PathStyle.separatorsCh]⟩
  have bc : Clean .unix ['b', 'c'] := ⟨by simp, by simp, by simp, by simp [PathStyle.separatorsCh]⟩
  refine relPath_actAsLists (fun name member => ?_) fun name member => ?_
  · rcases List.mem_cons.mp member with rfl | member
    · exact a
    · rwa [List.mem_singleton.mp member]
  · rwa [List.mem_singleton.mp member]

end Pinrail

import Mathlib.Data.List.DropRight

/-!
# The last piece of a list

A list is cut into pieces at its separators, and blank pieces do not count. Reading from the back,
one takes blank pieces off the end, then the last piece that counts, and then again what is blank in
front of it.
-/

namespace Pinrail.Lib

variable {α : Type*} (sep : α → Bool) (blank : List α → Bool)

def named (xs : List α) : List (List α) := (xs.splitOnP sep).filter fun piece => !blank piece

/-- `piece` is behind the last separator, `before` in front of it. -/
inductive Behind : List α → List α → List α → Prop where
  | alone {piece : List α} (whole : ∀ x ∈ piece, sep x = false) : Behind piece [] piece
  | after {before piece : List α} {x : α} (separator : sep x = true)
      (whole : ∀ y ∈ piece, sep y = false) : Behind (before ++ x :: piece) before piece

inductive Trimmed : List α → List α → Prop where
  | nil : Trimmed [] []
  | keep {xs before piece : List α} (behind : Behind sep xs before piece) (counts : blank piece = false) : Trimmed xs xs
  | drop {xs before piece kept : List α} (behind : Behind sep xs before piece)
      (isBlank : blank piece = true) (rest : Trimmed before kept) : Trimmed xs kept

/-- `name` is the last piece that counts, `above` the trimmed list in front of it. -/
structure LastName (xs above name : List α) : Prop where
  counts : blank name = false
  split : ∃ kept before, Trimmed sep blank xs kept ∧ Behind sep kept before name ∧ Trimmed sep blank before above

/-- `ys` is cut off in front of a separator. -/
def CutAt (xs ys : List α) : Prop :=
  ys = xs ∨ ys = [] ∨ ∃ x rest, sep x = true ∧ xs = ys ++ x :: rest

variable {sep blank} {xs ys before piece kept above name front : List α} {x : α}

/-! ## Pieces -/

theorem named_append (front xs : List α) (separator : sep x = true) :
    named sep blank (front ++ x :: xs) = named sep blank front ++ named sep blank xs := by
  rw [named, List.splitOnP_append_cons front xs separator, List.filter_append]
  rfl

theorem named_whole (whole : ∀ x ∈ piece, sep x = false) :
    named sep blank piece = [piece].filter fun piece => !blank piece := by
  rw [named, List.splitOnP_eq_singleton whole]

@[simp] theorem named_nil (empty : blank [] = true) : named sep blank [] = [] := by
  rw [named_whole (by simp), List.filter_cons, if_neg (by simp [empty])]
  rfl

theorem named_cons (empty : blank [] = true) (xs : List α) (separator : sep x = true) :
    named sep blank (x :: xs) = named sep blank xs := by
  have split : named sep blank ([] ++ x :: xs) = _ := named_append [] xs separator
  rwa [named_nil empty] at split

theorem named_blank (empty : blank [] = true) (whole : ∀ x ∈ piece, sep x = false) (isBlank : blank piece = true)
    (ends : ∀ x ∈ xs.head?, sep x = true) : named sep blank (piece ++ xs) = named sep blank xs := by
  have none : named sep blank piece = [] := by
    rw [named_whole whole, List.filter_cons, if_neg (by simp [isBlank])]
    rfl
  cases xs with
  | nil => rw [List.append_nil, none, named_nil empty]
  | cons x xs =>
    have separator := ends x rfl
    rw [named_append _ _ separator, none, named_cons empty _ separator, List.nil_append]

theorem exists_behind (sep : α → Bool) (xs : List α) : ∃ before piece, Behind sep xs before piece := by
  induction xs using List.reverseRecOn with
  | nil => exact ⟨[], [], .alone (by simp)⟩
  | append_singleton xs x ih =>
    cases separator : sep x with
    | true => exact ⟨xs, [], .after separator (by simp)⟩
    | false =>
      obtain ⟨before, piece, behind⟩ := ih
      have longer : (∀ y ∈ piece, sep y = false) → ∀ y ∈ piece ++ [x], sep y = false := by
        intro whole y member
        rcases List.mem_append.mp member with member | member
        · exact whole y member
        · rw [List.mem_singleton.mp member, separator]
      cases behind with
      | alone whole => exact ⟨[], xs ++ [x], .alone (longer whole)⟩
      | @after _ _ c isSeparator whole =>
        refine ⟨before, piece ++ [x], ?_⟩
        rw [List.append_assoc, List.cons_append]
        exact .after isSeparator (longer whole)

theorem Behind.whole (behind : Behind sep xs before piece) : ∀ x ∈ piece, sep x = false := by
  cases behind with
  | alone whole => exact whole
  | after separator whole => exact whole

theorem Behind.named_eq (behind : Behind sep xs before piece) (empty : blank [] = true) :
    named sep blank xs = named sep blank before ++ [piece].filter fun piece => !blank piece := by
  cases behind with
  | alone whole =>
    rw [named_whole whole, named_nil empty]
    rfl
  | after separator whole => rw [named_append _ _ separator, named_whole whole]

theorem Behind.rtakeWhile_eq (behind : Behind sep xs before piece) : xs.rtakeWhile (!sep ·) = piece := by
  cases behind with
  | alone whole =>
    rw [List.rtakeWhile_eq_self_iff]
    simpa using whole
  | @after before piece x separator whole =>
    have back : ∀ y ∈ piece.reverse, (!sep y) = true := by simpa using whole
    rw [List.rtakeWhile, List.reverse_append, List.reverse_cons, List.append_assoc,
      List.takeWhile_append_of_pos back, List.singleton_append,
      List.takeWhile_cons_of_neg (by simp [separator]), List.append_nil, List.reverse_reverse]

theorem Behind.length_eq (behind : Behind sep xs before piece) :
    xs.length = before.length + (piece.length + (xs.any sep).toNat) := by
  cases behind with
  | alone whole =>
    have none : xs.any sep = false := by simpa using whole
    rw [none, List.length_nil, Bool.toNat_false, Nat.zero_add, Nat.add_zero]
  | @after before piece x separator whole =>
    have some : (before ++ x :: piece).any sep = true := by simp [separator]
    rw [some, List.length_append, List.length_cons, Bool.toNat_true]

theorem Behind.length_lt (behind : Behind sep xs before piece) (nonempty : xs ≠ []) : before.length < xs.length := by
  cases behind with
  | alone whole => exact List.length_pos_of_ne_nil nonempty
  | after separator whole =>
    rw [List.length_append, List.length_cons]
    omega

theorem Behind.of_nil (behind : Behind sep [] before piece) : before = [] ∧ piece = [] := by
  generalize empty : ([] : List α) = xs at behind
  cases behind with
  | alone whole => exact ⟨empty, rfl⟩
  | after separator whole => simp at empty

theorem Behind.append (behind : Behind sep xs before piece) (separator : sep x = true) (front : List α) : ∃ before',
    Behind sep (front ++ x :: xs) before' piece ∧ (before' = front ∧ before = [] ∨ before' = front ++ x :: before) := by
  cases behind with
  | alone whole => exact ⟨front, .after separator whole, .inl ⟨rfl, rfl⟩⟩
  | @after before piece c isSeparator whole =>
    refine ⟨front ++ x :: before, ?_, .inr rfl⟩
    have split : Behind sep ((front ++ x :: before) ++ c :: piece) (front ++ x :: before) piece :=
      .after isSeparator whole
    rwa [List.append_assoc, List.cons_append] at split

theorem Behind.cutAt (behind : Behind sep xs before piece) : CutAt sep xs before := by
  cases behind with
  | alone whole => exact .inr (.inl rfl)
  | after separator whole => exact .inr (.inr ⟨_, _, separator, rfl⟩)

theorem CutAt.exists_append (cut : CutAt sep xs ys) : ∃ rest, xs = ys ++ rest := by
  rcases cut with rfl | rfl | ⟨x, rest, -, rfl⟩
  · exact ⟨[], (List.append_nil _).symm⟩
  · exact ⟨xs, rfl⟩
  · exact ⟨x :: rest, rfl⟩

theorem CutAt.trans (outer : CutAt sep xs ys) {zs : List α} (inner : CutAt sep ys zs) : CutAt sep xs zs := by
  rcases inner with rfl | rfl | ⟨y, rest, separator, rfl⟩
  · exact outer
  · exact .inr (.inl rfl)
  · rcases outer with same | empty | ⟨x, more, isSeparator, rfl⟩
    · exact .inr (.inr ⟨y, rest, separator, same.symm⟩)
    · simp at empty
    · refine .inr (.inr ⟨y, rest ++ x :: more, separator, ?_⟩)
      rw [List.append_assoc, List.cons_append]

/-! ## The first piece -/

theorem exists_first (sep : α → Bool) (xs : List α) : ∃ first rest, xs = first ++ rest ∧ (∀ x ∈ first, sep x = false) ∧
    ∀ x ∈ rest.head?, sep x = true := by
  refine ⟨_, _, (List.takeWhile_append_dropWhile (p := (!sep ·)) (l := xs)).symm, ?_, ?_⟩
  · intro x member
    simpa using List.mem_takeWhile_imp member
  · intro x member
    have ends := List.head?_dropWhile_not (!sep ·) xs
    rw [Option.mem_def.mp member] at ends
    simpa using ends

theorem takeWhile_first {first rest : List α} (whole : ∀ x ∈ first, sep x = false)
    (ends : ∀ x ∈ rest.head?, sep x = true) : (first ++ rest).takeWhile (!sep ·) = first := by
  rw [List.takeWhile_append_of_pos (by simpa using whole)]
  cases rest with
  | nil => exact List.append_nil _
  | cons x rest => rw [List.takeWhile_cons_of_neg (by simp [ends x rfl]), List.append_nil]

theorem dropWhile_first {first rest : List α} (whole : ∀ x ∈ first, sep x = false)
    (ends : ∀ x ∈ rest.head?, sep x = true) : (first ++ rest).dropWhile (!sep ·) = rest := by
  rw [List.dropWhile_append_of_pos (by simpa using whole)]
  cases rest with
  | nil => rfl
  | cons x rest => rw [List.dropWhile_cons_of_neg (by simp [ends x rfl])]

/-! ## Trimming -/

theorem exists_trimmed (sep : α → Bool) (blank : List α → Bool) (xs : List α) : ∃ kept, Trimmed sep blank xs kept := by
  by_cases nonempty : xs = []
  · subst nonempty
    exact ⟨[], .nil⟩
  · obtain ⟨before, piece, behind⟩ := exists_behind sep xs
    cases counts : blank piece with
    | false => exact ⟨xs, .keep behind counts⟩
    | true =>
      have shorter := behind.length_lt nonempty
      obtain ⟨kept, rest⟩ := exists_trimmed sep blank before
      exact ⟨kept, .drop behind counts rest⟩
termination_by xs.length

theorem Trimmed.cutAt (trimmed : Trimmed sep blank xs kept) : CutAt sep xs kept := by
  induction trimmed with
  | nil => exact .inl rfl
  | keep behind counts => exact .inl rfl
  | drop behind isBlank rest ih => exact behind.cutAt.trans ih

theorem Trimmed.of_nil (trimmed : Trimmed sep blank [] kept) : kept = [] := by
  rcases trimmed.cutAt with same | empty | ⟨x, rest, -, split⟩
  · exact same
  · exact empty
  · simp at split

theorem Trimmed.named_eq (trimmed : Trimmed sep blank xs kept) (empty : blank [] = true) :
    named sep blank xs = named sep blank kept := by
  induction trimmed with
  | nil => rfl
  | keep behind counts => rfl
  | drop behind isBlank rest ih =>
    rw [behind.named_eq empty, ih, List.filter_cons, if_neg (by simp [isBlank])]
    exact List.append_nil _

theorem Behind.named_concat (behind : Behind sep xs before piece) (empty : blank [] = true)
    (counts : blank piece = false) : named sep blank xs = named sep blank before ++ [piece] := by
  rw [behind.named_eq empty, List.filter_cons, if_pos (by simp [counts])]
  rfl

theorem Trimmed.last (trimmed : Trimmed sep blank xs kept) (nonempty : kept ≠ []) :
    ∃ before piece, Behind sep kept before piece ∧ blank piece = false := by
  induction trimmed with
  | nil => exact absurd rfl nonempty
  | keep behind counts => exact ⟨_, _, behind, counts⟩
  | drop behind isBlank rest ih => exact ih nonempty

theorem Trimmed.nil_iff (trimmed : Trimmed sep blank xs kept) (empty : blank [] = true) :
    kept = [] ↔ named sep blank xs = [] := by
  rw [trimmed.named_eq empty]
  constructor
  · rintro rfl
    exact named_nil empty
  · intro none
    by_contra nonempty
    obtain ⟨before, piece, behind, counts⟩ := trimmed.last nonempty
    rw [behind.named_concat empty counts] at none
    simp at none

theorem Trimmed.rest (trimmed : Trimmed sep blank xs kept) (empty : blank [] = true) (nonempty : kept ≠ []) : ∃ rest,
    xs = kept ++ rest ∧ named sep blank rest = [] ∧ ∀ x ∈ rest.head?, sep x = true := by
  have names := trimmed.named_eq empty
  rcases trimmed.cutAt with rfl | none | ⟨x, rest, separator, rfl⟩
  · exact ⟨[], (List.append_nil _).symm, named_nil empty, by simp⟩
  · exact absurd none nonempty
  · rw [named_append _ _ separator, List.append_right_eq_self] at names
    refine ⟨x :: rest, rfl, (named_cons empty _ separator).trans names, ?_⟩
    intro y member
    obtain rfl : x = y := Option.some.inj member
    exact separator

theorem trimmed_of_named (empty : blank [] = true) (none : named sep blank xs = []) : Trimmed sep blank xs [] := by
  obtain ⟨kept, trimmed⟩ := exists_trimmed sep blank xs
  obtain rfl := (trimmed.nil_iff empty).mpr none
  exact trimmed

theorem Trimmed.append (trimmed : Trimmed sep blank xs kept) (nonempty : kept ≠ []) (separator : sep x = true)
    (front : List α) : Trimmed sep blank (front ++ x :: xs) (front ++ x :: kept) := by
  induction trimmed with
  | nil => exact absurd rfl nonempty
  | keep behind counts =>
    obtain ⟨before, longer, -⟩ := behind.append separator front
    exact .keep longer counts
  | drop behind isBlank rest ih =>
    obtain ⟨before, longer, ⟨-, rfl⟩ | rfl⟩ := behind.append separator front
    · exact absurd rest.of_nil nonempty
    · exact .drop longer isBlank (ih nonempty)

theorem Trimmed.append_blank {xs : List α} (trimmed : Trimmed sep blank front kept) (empty : blank [] = true)
    (separator : sep x = true) (none : named sep blank xs = []) : Trimmed sep blank (front ++ x :: xs) kept := by
  obtain ⟨before, piece, behind⟩ := exists_behind sep xs
  rw [behind.named_eq empty, List.append_eq_nil_iff] at none
  have isBlank : blank piece = true := by simpa using none.2
  obtain ⟨before', longer, ⟨rfl, -⟩ | rfl⟩ := behind.append separator front
  · exact .drop longer isBlank trimmed
  · by_cases nonempty : xs = []
    · subst nonempty
      exact .drop (.after separator (by simp)) empty trimmed
    · have shorter := behind.length_lt nonempty
      exact .drop longer isBlank (trimmed.append_blank empty separator none.1)
termination_by xs.length

/-! ## The last name -/

theorem exists_lastName (empty : blank [] = true) (some : named sep blank xs ≠ []) :
    ∃ above name, LastName sep blank xs above name := by
  obtain ⟨kept, trimmed⟩ := exists_trimmed sep blank xs
  have nonempty : kept ≠ [] := fun none => some ((trimmed.nil_iff empty).mp none)
  obtain ⟨before, name, behind, counts⟩ := trimmed.last nonempty
  obtain ⟨above, rest⟩ := exists_trimmed sep blank before
  exact ⟨above, name, counts, kept, before, trimmed, behind, rest⟩

theorem LastName.named_eq (last : LastName sep blank xs above name) (empty : blank [] = true) :
    named sep blank xs = named sep blank above ++ [name] := by
  obtain ⟨kept, before, trimmed, behind, rest⟩ := last.split
  rw [trimmed.named_eq empty, behind.named_concat empty last.counts, rest.named_eq empty]

theorem LastName.above_nil_iff (last : LastName sep blank xs above name) (empty : blank [] = true) :
    above = [] ↔ (named sep blank xs).length < 2 := by
  obtain ⟨kept, before, trimmed, behind, rest⟩ := last.split
  rw [rest.nil_iff empty, rest.named_eq empty, last.named_eq empty, List.length_append,
    ← List.length_eq_zero_iff, List.length_singleton]
  omega

theorem LastName.rest (last : LastName sep blank xs above name) (empty : blank [] = true) :
    ∃ rest, xs = above ++ rest ∧ named sep blank rest = [name] ∧ CutAt sep xs above := by
  obtain ⟨kept, before, trimmed, behind, rest⟩ := last.split
  have cut := (trimmed.cutAt.trans behind.cutAt).trans rest.cutAt
  have names := last.named_eq empty
  rcases cut with rfl | rfl | ⟨x, more, separator, rfl⟩
  · simp at names
  · exact ⟨xs, rfl, by rw [names, named_nil empty, List.nil_append], .inr (.inl rfl)⟩
  · rw [named_append _ _ separator] at names
    exact ⟨x :: more, rfl, by rw [named_cons empty _ separator, List.append_cancel_left names],
      .inr (.inr ⟨x, more, separator, rfl⟩)⟩

theorem LastName.append (last : LastName sep blank xs above name) (nonempty : above ≠ []) (separator : sep x = true)
    (front : List α) : LastName sep blank (front ++ x :: xs) (front ++ x :: above) name := by
  obtain ⟨kept, before, trimmed, behind, rest⟩ := last.split
  have some : kept ≠ [] := by
    rintro rfl
    obtain ⟨rfl, -⟩ := behind.of_nil
    exact nonempty rest.of_nil
  refine ⟨last.counts, front ++ x :: kept, front ++ x :: before, trimmed.append some separator front, ?_,
    rest.append nonempty separator front⟩
  obtain ⟨before', longer, ⟨-, rfl⟩ | rfl⟩ := behind.append separator front
  · exact absurd rest.of_nil nonempty
  · exact longer

theorem LastName.append_single (last : LastName sep blank xs [] name) (empty : blank [] = true)
    (separator : sep x = true) (trimmed : Trimmed sep blank front above) :
    LastName sep blank (front ++ x :: xs) above name := by
  obtain ⟨kept, before, keeps, behind, rest⟩ := last.split
  have some : kept ≠ [] := by
    rintro rfl
    obtain ⟨-, rfl⟩ := behind.of_nil
    simpa [empty] using last.counts
  obtain ⟨before', longer, ⟨rfl, -⟩ | rfl⟩ := behind.append separator front
  · exact ⟨last.counts, _, _, keeps.append some separator _, longer, trimmed⟩
  · exact ⟨last.counts, _, _, keeps.append some separator front, longer,
      trimmed.append_blank empty separator ((rest.nil_iff empty).mp rfl)⟩

theorem LastName.append_blank (last : LastName sep blank front above name) (empty : blank [] = true)
    (separator : sep x = true) (none : named sep blank xs = []) : LastName sep blank (front ++ x :: xs) above name := by
  obtain ⟨kept, before, trimmed, behind, rest⟩ := last.split
  exact ⟨last.counts, kept, before, trimmed.append_blank empty separator none, behind, rest⟩

end Pinrail.Lib

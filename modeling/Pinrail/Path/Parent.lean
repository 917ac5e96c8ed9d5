import Pinrail.Path.StdParent

/-!
# Parents of paths of any style

`PathStyle::parent` and `PathStyle::file_name` of `path.rs`. For the style of the host they ask the
standard library, for the other style they find the prefix, the root and the end of the body by
themselves.
-/

namespace Pinrail
open Lib

def rposition {α : Type*} (p : α → Bool) : List α → Option Nat
  | [] => none
  | x :: xs =>
    match rposition p xs with
    | some place => some (place + 1)
    | none => if p x then some 0 else none

namespace PathStyle

def isSeparator (self : PathStyle) (c : Char) : Bool := c == '/' || self == .windows && c == '\\'

def isVerbatim (self : PathStyle) (path : Str) : Bool :=
  self == .windows && ['\\', '\\', '?', '\\'].isPrefixOf path

def hasUncPrefix (self : PathStyle) : Str → Bool
  | c :: d :: _ => self.isSeparator c && self.isSeparator d
  | _ => false

def isBodySeparator (self : PathStyle) (path : Str) (c : Char) : Bool :=
  if self.isVerbatim path then c == '\\' else self.isSeparator c

def componentEnd (self : PathStyle) (path : Str) (componentStart : Nat) : Nat :=
  match (path.drop componentStart).findIdx? (self.isBodySeparator path) with
  | some position => componentStart + position
  | none => path.length

def prefixEnd (self : PathStyle) (path : Str) : Nat :=
  if self ≠ .windows then 0
  else if ['\\', '\\', '?', '\\', 'U', 'N', 'C', '\\'].isPrefixOf path then
    let serverEnd := self.componentEnd path 8
    let shareStart := min (serverEnd + 1) path.length
    if shareStart < path.length then self.componentEnd path shareStart else serverEnd
  else if self.isVerbatim path then
    -- Of `\\?\C:foo` the whole first component is the prefix.
    if (path[4]?).any Char.isAlpha && path[5]? == some ':' && (path[6]?).all self.isSeparator then 6
    else self.componentEnd path 4
  else if ['\\', '\\', '.', '\\'].isPrefixOf path then self.componentEnd path 4
  else if self.hasUncPrefix path then
    let serverEnd := self.componentEnd path 2
    let shareStart := min (serverEnd + 1) path.length
    let shareEnd := self.componentEnd path shareStart
    if 2 < serverEnd ∧ shareStart < shareEnd then shareEnd else 0
  else if path.head?.any Char.isAlpha && path[1]? == some ':' then 2
  else 0

/-- Behind a verbatim drive `/` is the root too, although it does not separate components. -/
def hasRoot (self : PathStyle) (path : Str) : Bool :=
  (path[self.prefixEnd path]?).any self.isSeparator

def startsWithCurrentDirectory (self : PathStyle) (path : Str) : Bool :=
  self.prefixEnd path == 0 && !self.hasRoot path && path.head? == some '.' &&
    (path.length == 1 || (path[1]?).any self.isSeparator)

def bodyStart (self : PathStyle) (path : Str) : Nat :=
  self.prefixEnd path + (self.hasRoot path).toNat + (self.startsWithCurrentDirectory path).toNat

/-- Whether the character in front of an end is a `.` that is a component. -/
def isTrailingCurrentDirectory (self : PathStyle) (path : Str) (last : Nat) : Bool :=
  !self.isVerbatim path && path[last]? == some '.' && (last == self.bodyStart path ||
      decide (1 ≤ last) && (path[last - 1]?).any (self.isBodySeparator path))

/-- The two loops of `trim_trailing` take one character off the end in each round. -/
def trimTrailing (self : PathStyle) (path : Str) : Nat → Nat
  | 0 => 0
  | last + 1 =>
    if self.bodyStart path ≤ last ∧ ((path[last]?).any (self.isBodySeparator path) ∨
        self.isTrailingCurrentDirectory path last) then
      trimTrailing self path last
    else last + 1

def parent (host self : PathStyle) (path : Str) : Option Str :=
  if self = host then StdPath.parent host path
  else
    let bodyEnd := self.trimTrailing path path.length
    if bodyEnd = self.bodyStart path then
      if self.startsWithCurrentDirectory path then some [] else none
    else
      let body := (path.take bodyEnd).drop (self.bodyStart path)
      let parentEnd := match rposition (self.isBodySeparator path) body with
        | some position => self.trimTrailing path (self.bodyStart path + position)
        | none => self.bodyStart path
      some (path.take parentEnd)

def fileName (host self : PathStyle) (path : Str) : Option Str :=
  if self = host then StdPath.fileName host path
  else do
    let parent ← parent host self path
    let remainder := path.drop parent.length
    let isVerbatim := self.isVerbatim path
    let isBodySeparator := fun c =>
      if isVerbatim then c == '\\' else decide (c ∈ self.separatorsCh)
    let component ← (remainder.splitOnP isBodySeparator).reverse.find? fun component =>
      !component.isEmpty && (isVerbatim || component != ['.'])
    if component = ['.'] ∨ component = ['.', '.'] then none else some component

variable {self : PathStyle} {path front body before piece kept above name after : Str}

theorem isSeparator_eq (self : PathStyle) (c : Char) : self.isSeparator c = decide (c ∈ self.separatorsCh) := by
  rw [Bool.eq_iff_iff]
  cases self with
  | unix =>
    have other : (unix == windows) = false := rfl
    simp [isSeparator, separatorsCh, other]
  | windows => simp [isSeparator, separatorsCh, or_comm]

/-! ## Trimming -/

theorem getElem?_front (front : Str) (c : Char) (rest : Str) : (front ++ c :: rest)[front.length]? = some c := by simp

theorem trimTrailing_bodyStart (self : PathStyle) (path : Str) :
    self.trimTrailing path (self.bodyStart path) = self.bodyStart path := by
  cases start : self.bodyStart path with
  | zero => rfl
  | succ last =>
    rw [trimTrailing, if_neg]
    rw [start]
    exact fun both => absurd both.1 (Nat.not_succ_le_self last)

theorem trimTrailing_separator {c : Char} (after : Str) (start : self.bodyStart path ≤ front.length)
    (split : path = front ++ c :: after) (separator : self.isBodySeparator path c = true) :
    self.trimTrailing path (front.length + 1) = self.trimTrailing path front.length := by
  have here : path[front.length]? = some c := by rw [split, getElem?_front]
  rw [trimTrailing, if_pos]
  exact ⟨start, .inl (by rw [here]; exact separator)⟩

theorem trimTrailing_dot (front after : Str) (start : self.bodyStart path ≤ front.length)
    (split : path = front ++ '.' :: after) (plain : self.isVerbatim path = false)
    (component : front.length = self.bodyStart path ∨
      ∃ before c, front = before ++ [c] ∧ self.isBodySeparator path c = true) :
    self.trimTrailing path (front.length + 1) = self.trimTrailing path front.length := by
  have here : path[front.length]? = some '.' := by rw [split, getElem?_front]
  have place : front.length = self.bodyStart path ∨
      1 ≤ front.length ∧ (path[front.length - 1]?).any (self.isBodySeparator path) = true := by
    rcases component with first | ⟨before, c, rfl, separator⟩
    · exact .inl first
    · have previous : path[(before ++ [c]).length - 1]? = some c := by
        rw [split, List.append_assoc, List.length_append, List.length_singleton, Nat.add_sub_cancel]
        exact getElem?_front before c _
      refine .inr ⟨by simp, ?_⟩
      rw [previous]
      exact separator
  rw [trimTrailing, if_pos]
  refine ⟨start, .inr ?_⟩
  rw [isTrailingCurrentDirectory, plain, here]
  simpa using place

theorem trimTrailing_keep (split : path = front ++ body ++ after) (start : self.bodyStart path = front.length)
    (behind : Behind (self.isBodySeparator path) body before piece)
    (counts : blankPiece (self.isVerbatim path) piece = false) :
    self.trimTrailing path (front ++ body).length = (front ++ body).length := by
  have nonempty : piece ≠ [] := by
    rintro rfl
    cases counts
  obtain ⟨init, c, rfl⟩ := List.eq_nil_or_concat' piece |>.resolve_left nonempty
  have whole := behind.whole
  obtain ⟨lead, rfl⟩ : ∃ lead, body = lead ++ (init ++ [c]) := by
    cases behind with
    | alone whole => exact ⟨[], rfl⟩
    | @after before piece x separator whole => exact ⟨before ++ [x], by simp⟩
  have here : path[(front ++ (lead ++ init)).length]? = some c := by
    rw [split, ← getElem?_front (front ++ (lead ++ init)) c after]
    simp
  have length : (front ++ (lead ++ (init ++ [c]))).length = (front ++ (lead ++ init)).length + 1 := by
    simp
    omega
  rw [length, trimTrailing, if_neg]
  rintro ⟨-, separator | dot⟩
  · rw [here, Option.any_some, whole c (by simp)] at separator
    cases separator
  · rw [isTrailingCurrentDirectory, here, Bool.and_eq_true, Bool.and_eq_true, Bool.or_eq_true,
      Bool.and_eq_true, Bool.not_eq_true', beq_iff_eq, beq_iff_eq, Option.some.injEq] at dot
    obtain ⟨⟨plain, rfl⟩, place⟩ := dot
    rcases List.eq_nil_or_concat' init with rfl | ⟨init, d, rfl⟩
    · rw [plain] at counts
      cases counts
    · rcases place with first | ⟨-, previous⟩
      · rw [start, List.length_append, List.length_append, List.length_append, List.length_singleton] at first
        omega
      · have before : path[(front ++ (lead ++ (init ++ [d]))).length - 1]? = some d := by
          rw [split, ← getElem?_front (front ++ (lead ++ init)) d (['.'] ++ after)]
          simp [← Nat.add_assoc]
        rw [before, Option.any_some, whole d (by simp)] at previous
        cases previous

theorem trimTrailing_eq (after : Str) (split : path = front ++ body ++ after)
    (start : self.bodyStart path = front.length)
    (trimmed : Trimmed (self.isBodySeparator path) (blankPiece (self.isVerbatim path)) body kept) :
    self.trimTrailing path (front ++ body).length = (front ++ kept).length := by
  induction trimmed generalizing after with
  | nil => rw [List.append_nil, ← start, trimTrailing_bodyStart]
  | keep behind counts => exact trimTrailing_keep split start behind counts
  | @drop xs before piece kept behind isBlank rest ih =>
    have inside : ∀ more : Str, self.bodyStart path ≤ (front ++ more).length := by
      intro more
      rw [start, List.length_append]
      exact Nat.le_add_right _ _
    rw [blankPiece, Bool.or_eq_true, List.isEmpty_iff, Bool.and_eq_true, Bool.not_eq_true', beq_iff_eq] at isBlank
    cases behind with
    | alone whole =>
      rw [rest.of_nil, List.append_nil]
      rcases isBlank with rfl | ⟨plain, rfl⟩
      · rw [List.append_nil, ← start, trimTrailing_bodyStart]
      · have step := trimTrailing_dot (front ++ []) after (inside []) (by simpa using split) plain
          (.inl (by simpa using start.symm))
        rw [List.append_nil] at step
        rw [List.length_append, List.length_singleton, step, ← start, trimTrailing_bodyStart]
    | @after before piece x separator whole =>
      have shorter := ih (x :: piece ++ after) (by simpa using split)
      rcases isBlank with rfl | ⟨plain, rfl⟩
      · have step := trimTrailing_separator after (inside before) (c := x) (by simpa using split) separator
        rw [← shorter, ← step, ← List.append_assoc, List.length_append, List.length_singleton]
      · have dot := trimTrailing_dot (front ++ (before ++ [x])) after (inside _) (by simpa using split) plain
          (.inr ⟨front ++ before, x, by simp, separator⟩)
        have step := trimTrailing_separator ('.' :: after) (inside before) (c := x) (by simpa using split) separator
        have length : (front ++ (before ++ [x])).length = (front ++ before).length + 1 := by
          rw [← List.append_assoc, List.length_append, List.length_singleton]
        have longer : (front ++ (before ++ x :: ['.'])).length =
            (front ++ (before ++ [x])).length + 1 := by simp [Nat.add_assoc]
        rw [← shorter, ← step, ← length, ← dot, longer]

theorem rposition_append {α : Type*} {p : α → Bool} {piece : List α}
    (whole : ∀ x ∈ piece, p x = false) : rposition p piece = none := by
  induction piece with
  | nil => rfl
  | cons x piece ih =>
    rw [List.forall_mem_cons] at whole
    rw [rposition, ih whole.2, whole.1]
    rfl

theorem rposition_behind {α : Type*} {p : α → Bool} {x : α} {piece : List α} (before : List α) (separator : p x = true)
    (whole : ∀ y ∈ piece, p y = false) : rposition p (before ++ x :: piece) = some before.length := by
  induction before with
  | nil =>
    rw [List.nil_append, rposition, rposition_append whole]
    exact if_pos separator
  | cons y before ih =>
    rw [List.cons_append, rposition, ih]
    rfl

/-! ## Parents -/

variable {host : PathStyle}

theorem parent_of_lastName (foreign : self ≠ host) (split : path = front ++ body)
    (start : self.bodyStart path = front.length)
    (last : LastName (self.isBodySeparator path) (blankPiece (self.isVerbatim path)) body above name) :
    parent host self path = some (front ++ above) := by
  obtain ⟨kept, before, trimmed, behind, rest⟩ := last.split
  have bodyEnd := trimTrailing_eq [] (by simpa using split) start trimmed
  rw [← split] at bodyEnd
  have nonempty : kept ≠ [] := by
    rintro rfl
    obtain ⟨-, rfl⟩ := behind.of_nil
    cases last.counts
  have positive := List.length_pos_of_ne_nil nonempty
  obtain ⟨more, rfl⟩ := trimmed.cutAt.exists_append
  have kepts : (path.take (front ++ kept).length).drop front.length = kept := by
    rw [split, ← List.append_assoc, List.take_left, List.drop_left]
  rw [parent, if_neg foreign]
  dsimp only
  rw [bodyEnd, start, if_neg (by rw [List.length_append]; omega), kepts]
  cases behind with
  | alone whole =>
    rw [rposition_append whole, rest.of_nil, split, List.take_left, List.append_nil]
  | @after _ _ x separator whole =>
    have parentEnd := trimTrailing_eq (x :: name ++ more) (by simpa using split) start rest
    obtain ⟨others, rfl⟩ := rest.cutAt.exists_append
    rw [rposition_behind _ separator whole]
    dsimp only
    have cut : path = (front ++ above) ++ (others ++ x :: (name ++ more)) := by simpa using split
    rw [← List.length_append, parentEnd, cut, List.take_left]

theorem parent_of_none (foreign : self ≠ host) (split : path = front ++ body)
    (start : self.bodyStart path = front.length)
    (none : named (self.isBodySeparator path) (blankPiece (self.isVerbatim path)) body = []) :
    parent host self path =
      if self.startsWithCurrentDirectory path then some [] else Option.none := by
  have trimmed := trimmed_of_named (blankPiece_nil _) none
  have bodyEnd := trimTrailing_eq [] (by simpa using split) start trimmed
  rw [← split, List.append_nil] at bodyEnd
  rw [parent, if_neg foreign]
  dsimp only
  rw [bodyEnd, start, if_pos rfl]

theorem fileName_eq (foreign : self ≠ host) {remainder parent' : Str}
    (found : parent host self path = some parent') (split : path = parent' ++ remainder) :
    fileName host self path =
      (named (self.isBodySeparator path) (blankPiece (self.isVerbatim path)) remainder).getLast?.bind
        fileNameOf := by
  have separators : (fun c => if self.isVerbatim path = true then c == '\\'
      else decide (c ∈ self.separatorsCh)) = self.isBodySeparator path := by
    funext c
    rw [isBodySeparator, isSeparator_eq]
  have rest : path.drop parent'.length = remainder := by rw [split, List.drop_left]
  have counting : (fun component : Str => !component.isEmpty && (self.isVerbatim path || component != ['.'])) =
      fun component => !blankPiece (self.isVerbatim path) component := by
    funext component
    rw [blankPiece, Bool.not_or, Bool.not_and, Bool.not_not, bne]
  have search : (remainder.splitOnP (self.isBodySeparator path)).reverse.find?
      (fun component => !blankPiece (self.isVerbatim path) component) =
      (named (self.isBodySeparator path) (blankPiece (self.isVerbatim path)) remainder).getLast? := by
    rw [← List.head?_filter, List.filter_reverse, List.head?_reverse]
    rfl
  rw [fileName, if_neg foreign, found]
  change ((path.drop parent'.length).splitOnP _).reverse.find? _ >>= _ = _
  rw [separators, counting, rest, search]
  rfl

theorem fileName_of_lastName (foreign : self ≠ host) (split : path = front ++ body)
    (start : self.bodyStart path = front.length)
    (last : LastName (self.isBodySeparator path) (blankPiece (self.isVerbatim path)) body above name) :
    fileName host self path = fileNameOf name := by
  obtain ⟨rest, rfl, only, -⟩ := last.rest (blankPiece_nil _)
  rw [fileName_eq foreign (parent_of_lastName foreign split start last) (by simpa using split), only]
  rfl

theorem startsWithCurrentDirectory_spec (dot : self.startsWithCurrentDirectory path = true) : ∃ body, path = '.' ::
    body ∧ self.isVerbatim path = false ∧ self.bodyStart path = 1 ∧ ∀ c ∈ body.head?,
    self.isBodySeparator path c = true := by
  have start := dot
  rw [startsWithCurrentDirectory, Bool.and_eq_true, Bool.and_eq_true, Bool.and_eq_true,
    Bool.or_eq_true, beq_iff_eq, beq_iff_eq, beq_iff_eq, Bool.not_eq_true'] at start
  obtain ⟨⟨⟨zero, noRoot⟩, first⟩, single⟩ := start
  cases path with
  | nil => cases first
  | cons c body =>
    obtain rfl : c = '.' := by simpa using first
    have plain : self.isVerbatim ('.' :: body) = false := by
      rw [isVerbatim, List.isPrefixOf]
      simp
    refine ⟨body, rfl, plain, by rw [bodyStart, zero, noRoot, dot]; rfl, ?_⟩
    intro c member
    rw [isBodySeparator, plain]
    cases body with
    | nil => cases member
    | cons d body =>
      obtain rfl : d = c := by simpa using member
      simpa using single

theorem fileName_of_none (foreign : self ≠ host) (split : path = front ++ body)
    (start : self.bodyStart path = front.length)
    (none : named (self.isBodySeparator path) (blankPiece (self.isVerbatim path)) body = []) :
    fileName host self path = Option.none := by
  have above := parent_of_none foreign split start none
  split_ifs at above with dot
  · obtain ⟨more, rfl, plain, one, separators⟩ := startsWithCurrentDirectory_spec dot
    rw [one] at start
    obtain ⟨c, rfl⟩ := List.length_eq_one_iff.mp start.symm
    obtain ⟨rfl, rfl⟩ := List.cons_eq_cons.mp split
    have blanks : named (self.isBodySeparator ('.' :: more))
        (blankPiece (self.isVerbatim ('.' :: more))) ('.' :: more) = [] := by
      have whole : ∀ c ∈ ['.'], self.isBodySeparator ('.' :: more) c = false := by
        intro c member
        rw [List.mem_singleton.mp member, isBodySeparator, plain]
        cases self <;> rfl
      have isBlank : blankPiece (self.isVerbatim ('.' :: more)) ['.'] = true := by
        rw [plain]
        rfl
      exact (named_blank (blankPiece_nil _) whole isBlank separators).trans none
    rw [fileName_eq foreign above rfl, blanks]
    rfl
  · rw [fileName, if_neg foreign, above]
    rfl

end PathStyle
end Pinrail

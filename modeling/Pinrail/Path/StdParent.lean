import Pinrail.Path.StdPath

/-!
# What the standard library reads from the back

In front of the body of a path stand its prefix, its root and a leading `.`. When a component in the
body counts, the last one is read and the parent is what is above it; else the parent depends on what
stands in front.
-/

namespace Pinrail
open Lib

/-- Pieces that are no components: empty ones, and `.` unless it is read verbatim. -/
def blankPiece (verbatim : Bool) (piece : Str) : Bool :=
  piece.isEmpty || !verbatim && piece == ['.']

@[simp] theorem blankPiece_nil (verbatim : Bool) : blankPiece verbatim [] = true := rfl

def fileNameOf (name : Str) : Option Str :=
  if name = ['.'] ∨ name = ['.', '.'] then none else some name

namespace StdPath
namespace Components

variable {c : Components} {front body rest before piece kept above name : Str}

abbrev blank (self : Components) : Str → Bool := blankPiece self.prefixVerbatim

def withPath (self : Components) (path : Str) : Components := { self with path }

def atStart (self : Components) (path : Str) : Components := { self with path, back := .startDir }

/-- `front` is in front of the body, however far the body was read. -/
structure Framed (c : Components) (front body : Str) : Prop where
  before : ∀ rest, CutAt c.isSepByte body rest → (c.withPath (front ++ rest)).lenBeforeBody = front.length

theorem Framed.cut (framed : c.Framed front body) (cut : CutAt c.isSepByte body rest) : c.Framed front rest :=
  ⟨fun _ inner => framed.before _ (cut.trans inner)⟩

theorem parseSingleComponent_isSome (piece : Str) : (c.parseSingleComponent piece).isSome = !c.blank piece := by
  rw [parseSingleComponent, blank, blankPiece]
  by_cases dot : piece = ['.']
  · subst dot
    cases c.prefixVerbatim <;> rfl
  · by_cases dots : piece = ['.', '.']
    · subst dots
      cases c.prefixVerbatim <;> rfl
    · cases piece with
      | nil => rfl
      | cons d piece =>
        rw [if_neg dot, if_neg dots, if_neg (by simp), beq_eq_false_iff_ne.mpr dot]
        cases c.prefixVerbatim <;> rfl

theorem parseNextComponentBack_eq (framed : c.Framed front body) (behind : Behind c.isSepByte body before piece) :
    (c.withPath (front ++ body)).parseNextComponentBack.2 = c.parseSingleComponent piece ∧
      (c.withPath (front ++ body)).shorten (c.withPath (front ++ body)).parseNextComponentBack.1 =
        c.withPath (front ++ before) := by
  have start := framed.before body (.inl rfl)
  have rest : (c.withPath (front ++ body)).path.drop (c.withPath (front ++ body)).lenBeforeBody =
      body := by
    rw [start]
    exact List.drop_left
  rw [parseNextComponentBack, rest]
  refine ⟨?_, ?_⟩
  · exact congrArg c.parseSingleComponent behind.rtakeWhile_eq
  · have length := behind.length_eq
    have whole := behind.rtakeWhile_eq
    obtain ⟨more, rfl⟩ := behind.cutAt.exists_append
    have size : (front ++ (before ++ more)).length - (piece.length +
        ((before ++ more).any c.isSepByte).toNat) = (front ++ before).length := by
      simp only [List.length_append] at length ⊢
      omega
    have taken : (front ++ (before ++ more)).take ((front ++ (before ++ more)).length -
        (piece.length + ((before ++ more).any c.isSepByte).toNat)) = front ++ before := by
      rw [size, ← List.append_assoc, List.take_left]
    rw [← whole] at taken
    exact congrArg c.withPath taken

theorem trimRight_eq (framed : c.Framed front body) (trimmed : Trimmed c.isSepByte c.blank body kept) :
    (c.withPath (front ++ body)).trimRight = c.withPath (front ++ kept) := by
  induction trimmed with
  | nil =>
    rw [trimRight, dif_neg]
    rw [framed.before [] (.inl rfl)]
    simp [withPath]
  | @keep xs before piece behind counts =>
    obtain ⟨read, -⟩ := parseNextComponentBack_eq framed behind
    rw [trimRight]
    split_ifs with longer some
    · rfl
    · rw [read, parseSingleComponent_isSome, counts] at some
      exact absurd rfl some
    · rfl
  | @drop xs before piece kept behind isBlank rest ih =>
    obtain ⟨read, shorter⟩ := parseNextComponentBack_eq framed behind
    rw [trimRight]
    split_ifs with longer some
    · rw [read, parseSingleComponent_isSome, isBlank] at some
      cases some
    · rw [shorter]
      exact ih (framed.cut behind.cutAt)
    · have short := framed.before xs (.inl rfl)
      rw [short] at longer
      obtain rfl : xs = [] := by simpa [withPath] using longer
      obtain ⟨rfl, -⟩ := behind.of_nil
      rw [rest.of_nil]

/-! ## One component from the back -/

theorem nextBack_withPath (back : c.back = .body) (path : Str) : (c.withPath path).nextBack =
      if (c.withPath path).lenBeforeBody < path.length then
        if (c.withPath path).parseNextComponentBack.2.isSome then
          ((c.withPath path).shorten (c.withPath path).parseNextComponentBack.1,
            (c.withPath path).parseNextComponentBack.2)
        else ((c.withPath path).shorten (c.withPath path).parseNextComponentBack.1).nextBack
      else (c.atStart path).nextBack := by
  rw [nextBack]
  split
  · rfl
  all_goals rename_i other; rw [withPath, back] at other; cases other

theorem nextBack_trimmed (back : c.back = .body) (framed : c.Framed front body)
    (trimmed : Trimmed c.isSepByte c.blank body kept) :
    (c.withPath (front ++ body)).nextBack = (c.withPath (front ++ kept)).nextBack := by
  induction trimmed with
  | nil => rfl
  | keep behind counts => rfl
  | @drop xs before piece kept behind isBlank rest ih =>
    obtain ⟨read, shorter⟩ := parseNextComponentBack_eq framed behind
    rw [nextBack_withPath back]
    split_ifs with longer some
    · rw [read, parseSingleComponent_isSome, isBlank] at some
      cases some
    · rw [shorter]
      exact ih (framed.cut behind.cutAt)
    · rw [framed.before xs (.inl rfl)] at longer
      obtain rfl : xs = [] := by simpa [withPath] using longer
      obtain ⟨rfl, -⟩ := behind.of_nil
      rw [rest.of_nil, nextBack_withPath back, if_neg]
      rw [framed.before [] (.inl rfl)]
      exact longer

theorem nextBack_named (back : c.back = .body) (framed : c.Framed front body)
    (behind : Behind c.isSepByte body before name) (counts : c.blank name = false) :
    (c.withPath (front ++ body)).nextBack = (c.withPath (front ++ before), c.parseSingleComponent name) := by
  obtain ⟨read, shorter⟩ := parseNextComponentBack_eq framed behind
  have nonempty : body ≠ [] := by
    rintro rfl
    obtain ⟨-, rfl⟩ := behind.of_nil
    cases counts
  rw [nextBack_withPath back, if_pos, read, parseSingleComponent_isSome, counts, shorter]
  · rfl
  · rw [framed.before body (.inl rfl)]
    have positive := List.length_pos_of_ne_nil nonempty
    change _ < (front ++ body).length
    rw [List.length_append]
    omega

theorem nextBack_atStart (c : Components) (path : Str) : (c.withPath path).includeCurDir = false ∧
      (∃ left, (c.atStart path).nextBack = (left, some .rootDir) ∨
        (c.atStart path).nextBack = (left, some .pathPrefix) ∨
        (c.atStart path).nextBack = (left, none)) ∨
    (c.withPath path).includeCurDir = true ∧
      ∃ left, (c.atStart path).nextBack = (left, some .curDir) ∧ left.asPath = path.dropLast := by
  rw [nextBack]
  split
  · rename_i other
    cases other
  · split_ifs with root implicit dot
    · exact .inl ⟨by rw [includeCurDir, hasRoot, show (c.withPath path).hasPhysicalRoot = true from root]; rfl, _, .inl rfl⟩
    · refine .inl ⟨?_, _, .inl rfl⟩
      have some : (c.withPath path).start.any Prefix.hasImplicitRoot = true := by
        change c.start.any _ = true at implicit
        change c.start.any _ = true
        cases start : c.start with
        | none => simp [start] at implicit
        | some p =>
          rw [start, Option.any_some, Bool.and_eq_true] at implicit
          exact implicit.1
      rw [includeCurDir, hasRoot, some, Bool.or_true]
      rfl
    · refine .inr ⟨dot, _, rfl, ?_⟩
      rw [asPath, if_neg (by simp [shorten]), List.dropLast_eq_take]
      rfl
    · refine .inl ⟨Bool.eq_false_iff.mpr dot, ?_⟩
      rw [nextBack]
      dsimp only
      split_ifs
      · exact ⟨_, .inr (.inl rfl)⟩
      · exact ⟨_, .inr (.inr rfl)⟩
  all_goals rename_i other; cases other

/-! ## What stands in front of the body -/

theorem startsWithDot_cut {sep : Char → Bool} (cut : CutAt sep body rest)
    (plain : startsWithDot sep body = false) : startsWithDot sep rest = false := by
  rcases cut with rfl | rfl | ⟨x, more, separator, rfl⟩
  · exact plain
  · rfl
  · rcases rest with _ | ⟨c, _ | ⟨d, rest⟩⟩
    · rfl
    · simpa [startsWithDot, separator] using plain
    · exact plain

theorem head_cut {sep : Char → Bool} (cut : CutAt sep body rest)
    (ends : ∀ x ∈ body.head?, sep x = true) : ∀ x ∈ rest.head?, sep x = true := by
  intro x member
  rcases cut with rfl | rfl | ⟨y, more, -, rfl⟩
  · exact ends x member
  · cases member
  · cases rest with
    | nil => cases member
    | cons z rest => exact ends x member

theorem includeCurDir_cut (split : c.path = front ++ body) (length : front.length = c.lenBeforeBody)
    (cut : CutAt c.isSepByte body rest) : (c.withPath (front ++ rest)).includeCurDir = c.includeCurDir := by
  cases root : c.hasRoot with
  | true =>
    have plain : c.includeCurDir = false := by
      rw [includeCurDir, root]
      rfl
    have same : (c.withPath (front ++ rest)).hasRoot = true := root
    rw [plain, includeCurDir, same]
    rfl
  | false =>
    have noPhysical : c.hasPhysicalRoot = false := by
      rw [hasRoot, Bool.or_eq_false_iff] at root
      exact root.1
    have both : ∀ path, (c.withPath path).includeCurDir = startsWithDot c.isSepByte (path.drop c.prefixLen) := by
      intro path
      have same : (c.withPath path).hasRoot = false := root
      rw [includeCurDir, same]
      rfl
    have own : c.includeCurDir = startsWithDot c.isSepByte (c.path.drop c.prefixLen) := both c.path
    rw [both]
    rw [lenBeforeBody, noPhysical, Bool.toNat_false, Nat.add_zero] at length
    cases dot : c.includeCurDir with
    | false =>
      rw [dot, Bool.toNat_false, Nat.add_zero] at length
      rw [own, split, ← length, List.drop_left] at dot
      rw [← length, List.drop_left]
      exact startsWithDot_cut cut dot
    | true =>
      rw [dot, Bool.toNat_true] at length
      obtain ⟨init, x, rfl⟩ := List.eq_nil_or_concat' front |>.resolve_left (by
        rintro rfl
        simp at length)
      rw [List.length_append, List.length_singleton, Nat.add_right_cancel_iff] at length
      rw [own, split, ← length, List.append_assoc, List.drop_left, List.singleton_append,
        startsWithDot, Bool.and_eq_true] at dot
      rw [← length, List.append_assoc, List.drop_left, List.singleton_append, startsWithDot, Bool.and_eq_true]
      refine ⟨dot.1, ?_⟩
      have ends : ∀ x ∈ body.head?, c.isSepByte x = true := by
        simpa [Option.all_eq_true, List.head?_eq_getElem?] using dot.2
      have later := head_cut cut ends
      simpa [Option.all_eq_true, List.head?_eq_getElem?] using later

theorem framed_of_length (split : c.path = front ++ body) (length : front.length = c.lenBeforeBody) :
    c.Framed front body where
  before rest cut := by
    have dot := includeCurDir_cut split length cut
    rw [length, lenBeforeBody, lenBeforeBody, dot]
    rfl

end Components

/-! ## Parents -/

open Components

variable {host : PathStyle} {path front body above name : Str}

theorem nextBack_of_trimmed {kept before : Str} (split : path = front ++ body)
    (length : front.length = (components host path).lenBeforeBody)
    (trimmed : Trimmed (components host path).isSepByte (components host path).blank body kept)
    (behind : Behind (components host path).isSepByte kept before name)
    (counts : (components host path).blank name = false) :
    (components host path).nextBack = ((components host path).withPath (front ++ before),
      (components host path).parseSingleComponent name) := by
  have framed := framed_of_length (c := components host path) split length
  have whole : (components host path).withPath (front ++ body) = components host path := by
    rw [← split]
    rfl
  rw [← nextBack_named rfl (framed.cut trimmed.cutAt) behind counts, ← nextBack_trimmed rfl framed trimmed, whole]

theorem parent_of_lastName (split : path = front ++ body) (length : front.length = (components host path).lenBeforeBody)
    (last : LastName (components host path).isSepByte (components host path).blank body above name) :
    parent host path = some (front ++ above) ∧ fileName host path = fileNameOf name := by
  have framed := framed_of_length (c := components host path) split length
  obtain ⟨kept, before, trimmed, behind, rest⟩ := last.split
  have framedKept := framed.cut trimmed.cutAt
  have read := nextBack_of_trimmed split length trimmed behind last.counts
  have shorter : ((components host path).withPath (front ++ before)).asPath = front ++ above := by
    have back : ((components host path).withPath (front ++ before)).back = .body := rfl
    rw [asPath, if_pos back, trimRight_eq (framedKept.cut behind.cutAt) rest]
    rfl
  have counts := parseSingleComponent_isSome (c := components host path) name
  rw [last.counts] at counts
  rw [parent, fileName, read]
  dsimp only
  rw [shorter]
  rw [parseSingleComponent] at counts ⊢
  rw [fileNameOf]
  split_ifs at counts ⊢ <;> simp_all

theorem parent_of_none (split : path = front ++ body) (length : front.length = (components host path).lenBeforeBody)
    (none : named (components host path).isSepByte (components host path).blank body = []) :
    parent host path = (if (components host path).includeCurDir then some front.dropLast
      else Option.none) ∧ fileName host path = Option.none := by
  have framed := framed_of_length (c := components host path) split length
  have dots : ((components host path).withPath front).includeCurDir = (components host path).includeCurDir := by
    rw [← includeCurDir_cut split length (.inr (.inl rfl)), List.append_nil]
  rw [← dots]
  have trimmed := trimmed_of_named (blankPiece_nil _) none
  have whole : (components host path).withPath (front ++ body) = components host path := by
    rw [← split]
    rfl
  have read : (components host path).nextBack = ((components host path).atStart front).nextBack := by
    have loop := nextBack_trimmed rfl framed trimmed
    rw [whole, List.append_nil, nextBack_withPath rfl, if_neg] at loop
    · exact loop
    · have length := framed.before [] (.inr (.inl rfl))
      rw [List.append_nil] at length
      rw [length]
      exact lt_irrefl _
  rw [parent, fileName, read]
  rcases nextBack_atStart (components host path) front with ⟨plain, left, other⟩ | ⟨dot, left, same, above⟩
  · rw [plain]
    rcases other with other | other | other <;> rw [other] <;> exact ⟨rfl, rfl⟩
  · rw [dot, same, ← above]
    exact ⟨rfl, rfl⟩

end StdPath
end Pinrail

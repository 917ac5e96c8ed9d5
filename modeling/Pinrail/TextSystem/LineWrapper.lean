import Mathlib.Algebra.Order.Ring.Rat
import Pinrail.Lib.Emitter
import Pinrail.Lib.Offsets
import Pinrail.TextSystem.LineLayout

/-!
# The line wrapper

`LineWrapper::wrap_line` walks over the characters and elements of a line by their advances alone,
without shaping them, and hands out a boundary whenever the line that it lays out overflows.
-/

namespace Pinrail.TextSystem
open Lib

inductive LineFragment where
  | text (text : Text)
  | element (width : ℚ) (lenUtf8 : Nat)
deriving DecidableEq

inductive WrapBoundaryCandidate where
  | char (character : Char)
  | element (width : ℚ) (lenUtf8 : Nat)
deriving DecidableEq

structure Boundary where
  ix : Nat
  nextIndent : Nat
deriving DecidableEq

def WrapBoundaryCandidate.lenUtf8 : WrapBoundaryCandidate → Nat
  | .char character => character.utf8Size
  | .element _ lenUtf8 => lenUtf8

/-- An element stands for one candidate, that of the text `"\0"`. -/
def LineFragment.wrapBoundaryCandidates : LineFragment → List WrapBoundaryCandidate
  | .text characters => characters.map .char
  | .element width lenUtf8 => [.element width lenUtf8]

/-- The advances of a font at a size. The caches of the source only save asking for them again. -/
structure LineWrapper where
  widthForChar : Char → ℚ

/-! ## The state -/

/-- The variables that the iterator of `wrap_line` keeps. -/
structure Wrapping where
  width : ℚ
  firstNonWhitespaceIx : Option Nat
  indent : Option Nat
  lastCandidateIx : Nat
  lastCandidateWidth : ℚ
  lastWrapIx : Nat
  prevC : Char
  index : Nat
deriving DecidableEq

def Wrapping.start : Wrapping := ⟨0, none, none, 0, 0, 0, '\x00', 0⟩

/-- `MAX_INDENT`. -/
def maxIndent : Nat := 256

def WrapBoundaryCandidate.isSpace : WrapBoundaryCandidate → Bool
  | .char c => c == ' '
  | .element .. => false

def WrapBoundaryCandidate.newPrevC (prevC : Char) : WrapBoundaryCandidate → Char
  | .char c => c
  | .element .. => prevC

def Wrapping.isCandidate (s : Wrapping) : WrapBoundaryCandidate → Bool
  | .char c =>
    if isWordChar c then s.prevC == ' ' && c != ' ' && s.firstNonWhitespaceIx.isSome
    else c != ' ' && s.firstNonWhitespaceIx.isSome
  | .element .. => s.prevC == ' ' && s.firstNonWhitespaceIx.isSome

def Wrapping.visit (s : Wrapping) (ix : Nat) (item : WrapBoundaryCandidate) : Wrapping :=
  let s :=
    if s.isCandidate item then { s with lastCandidateIx := ix, lastCandidateWidth := s.width } else s
  if !item.isSpace && s.firstNonWhitespaceIx.isNone then { s with firstNonWhitespaceIx := some ix }
  else s

/-- The first overflow behind an item that is not a blank sets the indent of all lines to come. -/
def Wrapping.setIndent (s : Wrapping) : Wrapping :=
  match s.indent, s.firstNonWhitespaceIx with
  | none, some firstNonWhitespaceIx =>
    { s with indent := some (min maxIndent ((firstNonWhitespaceIx - s.lastWrapIx) % 2 ^ 32)) }
  | _, _ => s

def Wrapping.breakLine (s : Wrapping) (ix : Nat) (itemWidth : ℚ) : Wrapping :=
  if 0 < s.lastCandidateIx then
    { s with
      lastWrapIx := s.lastCandidateIx
      width := s.width - s.lastCandidateWidth
      lastCandidateIx := 0 }
  else { s with lastWrapIx := ix, width := itemWidth }

namespace LineWrapper

def itemWidth (self : LineWrapper) : WrapBoundaryCandidate → ℚ
  | .char c => self.widthForChar c
  | .element width _ => width

def addIndent (self : LineWrapper) (s : Wrapping) : Wrapping :=
  match s.indent with
  | some indent => { s with width := s.width + self.widthForChar ' ' * indent }
  | none => s

/-- One round of the loop in `wrap_line`. A line break is passed over; a round that hands out a
boundary leaves `prev_c` as it is. -/
def wrapStep (self : LineWrapper) (wrapWidth : ℚ) (s : Wrapping) (item : WrapBoundaryCandidate) :
    Wrapping × Option Boundary :=
  let ix := s.index
  let s := { s with index := ix + item.lenUtf8 }
  if item = .char '\n' then (s, none)
  else
    let s := s.visit ix item
    let s := { s with width := s.width + self.itemWidth item }
    if wrapWidth < s.width ∧ s.lastWrapIx < ix then
      let s := self.addIndent (s.setIndent.breakLine ix (self.itemWidth item))
      (s, some ⟨s.lastWrapIx, s.indent.getD 0⟩)
    else ({ s with prevC := item.newPrevC s.prevC }, none)

def wrapLine (self : LineWrapper) (fragments : List LineFragment) (wrapWidth : ℚ) : List Boundary :=
  emitted (self.wrapStep wrapWidth) .start (fragments.flatMap (·.wrapBoundaryCandidates))

end LineWrapper

end Pinrail.TextSystem

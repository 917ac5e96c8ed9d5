import Mathlib.Algebra.Group.Defs
import Pinrail.Lib.Rust

/-!
# Line layouts

The parts of `line_layout.rs` that a cached layout is made of: the shaped line, its forced cell
widths and its wrap boundaries. Pixels are any type with the operations that the code uses, so that
nothing depends on how `f32` rounds.
-/

namespace Pinrail.TextSystem
open Lib

/-- `Pixels`, with `NEG_INFINITY`, `x * 0.5` and `n * x` for an index `n`. -/
class Pixels (P : Type) extends Zero P, One P, Add P, Sub P where
  negInfinity : P
  half : P → P
  times : Nat → P → P
  abs : P → P
  less : P → P → Bool

structure Point (P : Type) where
  x : P
  y : P
deriving DecidableEq

structure FontRun where
  len : Nat
  fontId : Nat
deriving DecidableEq

structure ShapedGlyph (P : Type) where
  id : Nat
  position : Point P
  index : Nat
  isEmoji : Bool
deriving DecidableEq

structure ShapedRun (P : Type) where
  fontId : Nat
  glyphs : List (ShapedGlyph P)
deriving DecidableEq

structure LineLayout (P : Type) where
  fontSize : P
  width : P
  ascent : P
  descent : P
  runs : List (ShapedRun P)
  len : Nat
deriving DecidableEq

structure WrapBoundary where
  runIx : Nat
  glyphIx : Nat
deriving DecidableEq

structure WrappedLineLayout (P : Type) where
  unwrappedLayout : LineLayout P
  wrapBoundaries : List WrapBoundary
  wrapWidth : Option P
deriving DecidableEq

def WrapBoundary.isAfter (a b : WrapBoundary) : Bool :=
  b.runIx < a.runIx || (b.runIx == a.runIx && b.glyphIx < a.glyphIx)

/-! ## Word characters -/

/-- The ranges of `is_word_char`: ASCII letters and digits, Latin, Cyrillic, Vietnamese, combining
marks and Bengali. -/
def wordRanges : List (Nat × Nat) :=
  [(0x30, 0x39), (0x41, 0x5A), (0x61, 0x7A), (0xC0, 0xFF), (0x100, 0x17F), (0x180, 0x24F),
    (0x400, 0x4FF), (0x1E00, 0x1EFF), (0x300, 0x36F), (0x980, 0x9FF)]

/-- The single characters of `is_word_char`: joining and trailing punctuation, closing punctuation,
the midline ellipsis and the non-breaking glue. -/
def wordChars : List Nat :=
  [0x2D, 0x5F, 0x2E, 0x27, 0x2019, 0x2018, 0x24, 0x25, 0x40, 0x23, 0x5E, 0x7E, 0x2C, 0x3D, 0x3A, 0x3B,
    0x21, 0x29, 0x5D, 0x7D, 0x22, 0x201D, 0xBB, 0x2026, 0x22EF, 0x202F, 0xA0, 0x2011]

def isWordChar (c : Char) : Bool :=
  (wordRanges.any fun range => range.1 ≤ c.toNat && c.toNat ≤ range.2) || wordChars.contains c.toNat

/-! ## Wrapping -/

/-- A `str` as its characters. -/
abbrev Text := List Char

/-- `text[index..].chars().next().unwrap()`, which panics outside of the text and inside of a
character. -/
def charAt : Text → Nat → Except Panic Char
  | [], 0 => .error .unwrapNone
  | [], _ + 1 => .error .indexOutOfBounds
  | c :: _, 0 => .ok c
  | c :: rest, index + 1 =>
    if index + 1 < c.utf8Size then .error .indexOutOfBounds
    else charAt rest (index + 1 - c.utf8Size)

variable {P : Type} [Pixels P]

/-- The local variables of `compute_wrap_boundaries`. -/
structure WrapState (P : Type) where
  boundaries : List WrapBoundary
  firstNonWhitespaceIx : Option WrapBoundary
  lastCandidateIx : Option WrapBoundary
  lastCandidateX : P
  lastBoundary : WrapBoundary
  lastBoundaryX : P
  prevCh : Char

/-- Notes a place where the line could be wrapped, and the first character that is not a blank. -/
def WrapState.visit (state : WrapState P) (boundary : WrapBoundary) (ch : Char) (x : P) :
    WrapState P :=
  let candidate :=
    if isWordChar ch then
      state.prevCh == ' ' && ch != ' ' && state.firstNonWhitespaceIx.isSome
    else ch != ' ' && state.firstNonWhitespaceIx.isSome
  let state :=
    if candidate then { state with lastCandidateIx := some boundary, lastCandidateX := x }
    else state
  if ch != ' ' && state.firstNonWhitespaceIx.isNone then
    { state with firstNonWhitespaceIx := some boundary }
  else state

/-- Wraps at the last candidate, or else at `boundary`. -/
def WrapState.wrap (state : WrapState P) (boundary : WrapBoundary) (x : P) : WrapState P :=
  match state.lastCandidateIx with
  | some candidate =>
    { state with
      lastCandidateIx := none
      lastBoundary := candidate
      lastBoundaryX := state.lastCandidateX
      boundaries := state.boundaries ++ [candidate] }
  | none =>
    { state with
      lastBoundary := boundary
      lastBoundaryX := x
      boundaries := state.boundaries ++ [boundary] }

def LineLayout.placedGlyphs (self : LineLayout P) : List (WrapBoundary × ShapedGlyph P) :=
  (self.runs.zipIdx.map fun (run, runIx) =>
    run.glyphs.zipIdx.map fun (glyph, glyphIx) => (⟨runIx, glyphIx⟩, glyph)).flatten

/-- Where the glyph after the current one starts; looking at it also reads its character. -/
def peekX (text : Text) (width : P) : List (WrapBoundary × ShapedGlyph P) → Except Panic P
  | [] => .ok width
  | (_, glyph) :: _ => do
    let _ ← charAt text glyph.index
    return glyph.position.x

/-- The loop of `compute_wrap_boundaries`. -/
def wrapLoop (text : Text) (width wrapWidth : P) (maxLines : Option Nat) :
    List (WrapBoundary × ShapedGlyph P) → WrapState P → Except Panic (List WrapBoundary)
  | [], state => .ok state.boundaries
  | (boundary, glyph) :: rest, state => do
    let ch ← charAt text glyph.index
    if ch = '\n' then
      wrapLoop text width wrapWidth maxLines rest state
    else
      let state := state.visit boundary ch glyph.position.x
      let nextX ← peekX text width rest
      if Pixels.less wrapWidth (nextX - state.lastBoundaryX) && boundary.isAfter state.lastBoundary then
        if maxLines.any fun maxLines => maxLines - 1 ≤ state.boundaries.length then
          return state.boundaries
        else
          let state := state.wrap boundary glyph.position.x
          wrapLoop text width wrapWidth maxLines rest { state with prevCh := ch }
      else
        wrapLoop text width wrapWidth maxLines rest { state with prevCh := ch }

def LineLayout.computeWrapBoundaries (self : LineLayout P) (text : Text) (wrapWidth : P)
    (maxLines : Option Nat) : Except Panic (List WrapBoundary) :=
  wrapLoop text self.width wrapWidth maxLines self.placedGlyphs ⟨[], none, none, 0, ⟨0, 0⟩, 0, '\x00'⟩

def LineLayout.wrapWithin (self : LineLayout P) (text : Text) (wrapWidth : Option P)
    (maxLines : Option Nat) : Except Panic (List WrapBoundary) :=
  match wrapWidth with
  | some wrapWidth => self.computeWrapBoundaries text wrapWidth maxLines
  | none => .ok []

/-! ## Forced widths -/

/-- The local variables of `apply_force_width_to_layout`. -/
structure ForceState (P : Type) where
  glyphPos : Nat
  lastBaseShapedX : P
  lastBaseActualX : P

/-- A glyph that advances by half a cell takes the next cell; a combining mark stays at its base. -/
def forceGlyph (forceWidth : P) (state : ForceState P) (glyph : ShapedGlyph P) :
    ShapedGlyph P × ForceState P :=
  let shapedX := glyph.position.x
  if Pixels.less (state.lastBaseShapedX + Pixels.half forceWidth) shapedX then
    let forcedX := Pixels.times state.glyphPos forceWidth
    let x := if Pixels.less 1 (Pixels.abs (shapedX - forcedX)) then forcedX else shapedX
    ({ glyph with position := { glyph.position with x := x } }, ⟨state.glyphPos + 1, shapedX, x⟩)
  else
    ({ glyph with position :=
        { glyph.position with x := state.lastBaseActualX + (shapedX - state.lastBaseShapedX) } },
      state)

def forceGlyphs (forceWidth : P) : ForceState P → List (ShapedGlyph P) →
    List (ShapedGlyph P) × ForceState P
  | state, [] => ([], state)
  | state, glyph :: glyphs =>
    let (glyph, state) := forceGlyph forceWidth state glyph
    let (glyphs, state) := forceGlyphs forceWidth state glyphs
    (glyph :: glyphs, state)

def forceRuns (forceWidth : P) : ForceState P → List (ShapedRun P) → List (ShapedRun P)
  | _, [] => []
  | state, run :: runs =>
    let (glyphs, state) := forceGlyphs forceWidth state run.glyphs
    { run with glyphs := glyphs } :: forceRuns forceWidth state runs

def applyForceWidthToLayout (layout : LineLayout P) (forceWidth : P) : LineLayout P :=
  { layout with runs := forceRuns forceWidth ⟨0, Pixels.negInfinity, 0⟩ layout.runs }

/-- Whole pixels; nothing is shaped left of `negInfinity`. -/
@[reducible] def wholePixels : Pixels Int where
  zero := 0
  one := 1
  negInfinity := -1000000
  half x := x / 2
  times n x := n * x
  abs x := x.natAbs
  less x y := x < y

end Pinrail.TextSystem

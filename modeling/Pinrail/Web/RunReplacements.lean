import Mathlib.Data.List.Basic
import Mathlib.Data.List.Range
import Pinrail.TextSystem.LineLayout

/-!
# Replaced glyphs

`apply_replacements` of `run_replacements.rs`: replacements of glyph ranges are applied in place. A
first pass keeps, shifts and replaces the glyphs inside of their runs and notes where the font
changes; a second one spreads the runs from the right over the slots of the final runs. The naive
rebuild from left to right is what the tests compare it with.
-/

namespace Pinrail.RunReplacements
open Lib TextSystem

variable {P : Type}

/-! ## The code -/

structure Replacement (P : Type) where
  rangeStart : Nat
  rangeEnd : Nat
  fontId : Nat
  glyph : ShapedGlyph P
  widthDelta : P
deriving DecidableEq

structure Segment where
  fontId : Nat
  length : Nat
deriving DecidableEq

structure Pass (P : Type) where
  replacements : List (Replacement P)
  originalIndex : Nat
  consumedEnd : Nat
  shift : P

section
variable [Zero P] [Add P]

def shifted (glyph : ShapedGlyph P) (shift : P) : ShapedGlyph P :=
  { glyph with position := { glyph.position with x := glyph.position.x + shift } }

/-- What becomes of one glyph: it is consumed by the last replacement, replaced, or kept. -/
def Pass.visit (pass : Pass P) (fontId : Nat) (glyph : ShapedGlyph P) :
    Option (Nat × ShapedGlyph P) × Pass P :=
  let index := pass.originalIndex
  let pass := { pass with originalIndex := index + 1 }
  if index < pass.consumedEnd then (none, pass)
  else
    match pass.replacements with
    | replacement :: replacements =>
      if replacement.rangeStart = index then
        (some (replacement.fontId, shifted replacement.glyph pass.shift),
          { pass with
            replacements := replacements
            consumedEnd := replacement.rangeEnd
            shift := pass.shift + replacement.widthDelta })
      else (some (fontId, shifted glyph pass.shift), pass)
    | [] => (some (fontId, shifted glyph pass.shift), pass)

def pushSegment (segments : List Segment) (fontId : Nat) : List Segment :=
  match segments.getLast? with
  | some last =>
    if last.fontId = fontId then segments.dropLast ++ [⟨fontId, last.length + 1⟩]
    else segments ++ [⟨fontId, 1⟩]
  | none => segments ++ [⟨fontId, 1⟩]

/-- `run.glyphs.retain_mut`. -/
def retainGlyphs (fontId : Nat) :
    List (ShapedGlyph P) → List Segment → Pass P → List (ShapedGlyph P) × List Segment × Pass P
  | [], segments, pass => ([], segments, pass)
  | glyph :: glyphs, segments, pass =>
    match pass.visit fontId glyph with
    | (some (fontId', glyph), pass) =>
      let (kept, segments, pass) := retainGlyphs fontId glyphs (pushSegment segments fontId') pass
      (glyph :: kept, segments, pass)
    | (none, pass) => retainGlyphs fontId glyphs segments pass

structure Retained (P : Type) where
  runs : List (ShapedRun P)
  segmentsByRun : List (List Segment)
  spareBuffers : List (List (ShapedGlyph P))
  finalRunCount : Nat

/-- `layout.runs.retain_mut`: a run without glyphs goes and leaves its buffer. -/
def retainRuns : List (ShapedRun P) → Retained P → Pass P → Retained P × Pass P
  | [], retained, pass => (retained, pass)
  | run :: runs, retained, pass =>
    let (glyphs, segments, pass) := retainGlyphs run.fontId run.glyphs [] pass
    if segments.isEmpty then
      retainRuns runs { retained with spareBuffers := retained.spareBuffers ++ [glyphs] } pass
    else
      retainRuns runs
        { retained with
          runs := retained.runs ++ [{ run with glyphs := glyphs }]
          segmentsByRun := retained.segmentsByRun ++ [segments]
          finalRunCount := retained.finalRunCount + segments.length } pass

end

structure Placing (P : Type) where
  runs : List (ShapedRun P)
  spareBuffers : List (List (ShapedGlyph P))
  glyphEnd : Nat

/-- `xs[i] = x`. -/
def store {α : Type} (xs : List α) (i : Nat) (x : α) : Except Panic (List α) :=
  if i < xs.length then .ok (xs.set i x) else .error .indexOutOfBounds

/-- Moves a segment into its slot: the first one takes the run along, the others take the glyphs at
the end of the run. -/
def placeSegment (sourceIndex destinationStart : Nat) (state : Placing P) (item : Segment × Nat) :
    Except Panic (Placing P) := do
  let (segment, segmentIndex) := item
  let destinationIndex := destinationStart + segmentIndex
  let source ← index state.runs sourceIndex
  if segmentIndex = 0 then
    let runs ← swap (state.runs.set sourceIndex { source with fontId := segment.fontId })
      sourceIndex destinationIndex
    return { state with runs := runs }
  else
    let glyphStart ← checkedSub state.glyphEnd segment.length
    let buffer := state.spareBuffers.getLast?.getD []
    let drained ← sliceRange source.glyphs glyphStart state.glyphEnd
    let rest := source.glyphs.take glyphStart ++ source.glyphs.drop state.glyphEnd
    let runs ← store (state.runs.set sourceIndex { source with glyphs := rest }) destinationIndex
      ⟨segment.fontId, buffer ++ drained⟩
    return ⟨runs, state.spareBuffers.dropLast, glyphStart⟩

structure Expanding (P : Type) where
  runs : List (ShapedRun P)
  spareBuffers : List (List (ShapedGlyph P))
  destinationEnd : Nat

def startPlacing (state : Expanding P) (item : Nat × List Segment) :
    Except Panic (Nat × Placing P) := do
  let (sourceIndex, segments) := item
  let destinationStart ← checkedSub state.destinationEnd segments.length
  let source ← index state.runs sourceIndex
  return (destinationStart, ⟨state.runs, state.spareBuffers, source.glyphs.length⟩)

def expandRun (state : Expanding P) (item : Nat × List Segment) : Except Panic (Expanding P) := do
  let (destinationStart, placing) ← startPlacing state item
  let placed ← item.2.zipIdx.reverse.foldlM (placeSegment item.1 destinationStart) placing
  return ⟨placed.runs, placed.spareBuffers, destinationStart⟩

/-- `resize_with`, with the placeholder of the code. -/
def resizeRuns (runs : List (ShapedRun P)) (count : Nat) : List (ShapedRun P) :=
  runs.take count ++ List.replicate (count - runs.length) ⟨0, []⟩

def Retained.startExpanding (retained : Retained P) : Expanding P :=
  ⟨resizeRuns retained.runs retained.finalRunCount, retained.spareBuffers, retained.finalRunCount⟩

def Retained.sources (retained : Retained P) : List (Nat × List Segment) :=
  ((List.range retained.runs.length).zip retained.segmentsByRun).reverse

section
variable [Zero P] [Add P]

def firstPass (layout : LineLayout P) (replacements : List (Replacement P)) : Retained P × Pass P :=
  retainRuns layout.runs ⟨[], [], [], 0⟩ ⟨replacements, 0, 0, 0⟩

def applyReplacements (layout : LineLayout P) (replacements : List (Replacement P)) :
    Except Panic (LineLayout P) :=
  if replacements.isEmpty then .ok layout
  else do
    let (retained, pass) := firstPass layout replacements
    let expanded ← retained.sources.foldlM expandRun retained.startExpanding
    return { layout with width := layout.width + pass.shift, runs := expanded.runs }

/-! ## The naive rebuild -/

def flatten (runs : List (ShapedRun P)) : List (Nat × ShapedGlyph P) :=
  runs.flatMap fun run => run.glyphs.map fun glyph => (run.fontId, glyph)

def appendGlyph (runs : List (ShapedRun P)) (fontId : Nat) (glyph : ShapedGlyph P) :
    List (ShapedRun P) :=
  match runs.getLast? with
  | some last =>
    if last.fontId = fontId then runs.dropLast ++ [{ last with glyphs := last.glyphs ++ [glyph] }]
    else runs ++ [⟨fontId, [glyph]⟩]
  | none => runs ++ [⟨fontId, [glyph]⟩]

def rebuild : List (Nat × ShapedGlyph P) → List (ShapedRun P) → Pass P → List (ShapedRun P) × Pass P
  | [], runs, pass => (runs, pass)
  | (fontId, glyph) :: glyphs, runs, pass =>
    match pass.visit fontId glyph with
    | (some (fontId, glyph), pass) => rebuild glyphs (appendGlyph runs fontId glyph) pass
    | (none, pass) => rebuild glyphs runs pass

/-- `reference` of the tests. -/
def reference (layout : LineLayout P) (replacements : List (Replacement P)) : LineLayout P :=
  let (runs, pass) := rebuild (flatten layout.runs) [] ⟨replacements, 0, 0, 0⟩
  { layout with width := layout.width + pass.shift, runs := runs }

end
end Pinrail.RunReplacements

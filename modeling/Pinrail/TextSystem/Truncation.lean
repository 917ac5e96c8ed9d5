import Mathlib.Data.List.DropRight
import Mathlib.Data.Rat.Floor
import Pinrail.Lib.Utf8
import Pinrail.TextSystem.LineWrapper

/-!
# Truncation

`truncate_line` cuts a line at its start, its end or in its middle and puts an affix where the cut
is; `truncate_wrapped_line` cuts a text where its last allowed line overflows. Both shrink the runs of
the text in place.
-/

namespace Pinrail.TextSystem
open Lib

inductive TruncateFrom where
  | fromStart
  | fromEnd
  | fromMiddle
deriving DecidableEq

/-- A run of text. `style` stands for the font, the colours and the decorations, which are copied. -/
structure TextRun (S : Type) where
  len : Nat
  style : S
deriving DecidableEq

/-- `Cow`. -/
inductive Cow (α : Type) where
  | borrowed (value : α)
  | owned (value : α)
deriving DecidableEq

def Cow.get {α : Type} : Cow α → α
  | .borrowed value => value
  | .owned value => value

/-! ## Strings -/

/-- `str::char_indices`. -/
def charIndices (text : Text) : List (Nat × Char) := placedFrom Char.utf8Size 0 text

/-- `str::ceil_char_boundary`. -/
def ceilCharBoundary : Text → Nat → Nat
  | _, 0 => 0
  | [], _ + 1 => 0
  | c :: text, index + 1 => c.utf8Size + ceilCharBoundary text (index + 1 - c.utf8Size)

/-- `char::is_ascii_punctuation`. -/
def isAsciiPunctuation (c : Char) : Bool :=
  let code := c.toNat
  (0x21 ≤ code && code ≤ 0x2F) || (0x3A ≤ code && code ≤ 0x40) || (0x5B ≤ code && code ≤ 0x60) ||
    (0x7B ≤ code && code ≤ 0x7E)

/-- The slice `text[..offset]` with blanks and punctuation trimmed from its end. -/
def trimmedTo (text : Text) (offset : Nat) : Except Panic Text := do
  let (front, _) ← splitAtByte text offset
  return front.rdropWhile fun c => isWhitespace c || isAsciiPunctuation c

def truncatedText (line : Text) (truncateIx : Nat) (truncationAffix : Text) :
    TruncateFrom → Except Panic Text
  | .fromStart => do
    let kept ← sliceFromByte line (ceilCharBoundary line (truncateIx + 1))
    return truncationAffix ++ kept
  | .fromEnd => do
    let kept ← trimmedTo line truncateIx
    return kept ++ truncationAffix
  | .fromMiddle => .error .unreachable

/-! ## Runs -/

section Runs

variable {S : Type}

/-- The loop of `update_runs_after_truncation`, from the end of the text that is kept. -/
def shrinkRuns (affixLen : Nat) : Nat → List (TextRun S) → List (TextRun S)
  | _, [] => []
  | truncateAt, run :: runs =>
    if run.len ≤ truncateAt then run :: shrinkRuns affixLen (truncateAt - run.len) runs
    else [{ run with len := truncateAt + affixLen }]

def updateRunsAfterTruncation (result ellipsis : Text) (runs : List (TextRun S))
    (truncateFrom : TruncateFrom) : Except Panic (List (TextRun S)) :=
  let truncateAt := byteLen result - byteLen ellipsis
  match truncateFrom with
  | .fromStart => .ok (shrinkRuns (byteLen ellipsis) truncateAt runs.reverse).reverse
  | .fromEnd => .ok (shrinkRuns (byteLen ellipsis) truncateAt runs)
  | .fromMiddle => .error .unreachable

def frontRuns (affixLen : Nat) : Nat → List (TextRun S) → List (TextRun S) × Bool
  | _, [] => ([], false)
  | frontRemaining, run :: runs =>
    if run.len ≤ frontRemaining then
      let (kept, frontDone) := frontRuns affixLen (frontRemaining - run.len) runs
      (run :: kept, frontDone)
    else ([{ run with len := frontRemaining + affixLen }], true)

/-- The ellipsis behind a front that ends with a run, or with no front at all in a run of its own. -/
def appendEllipsis (affixLen : Nat) (originalRuns resultRuns : List (TextRun S)) : List (TextRun S) :=
  match resultRuns.getLast? with
  | some last => resultRuns.dropLast ++ [{ last with len := last.len + affixLen }]
  | none =>
    match originalRuns with
    | first :: _ => [{ first with len := affixLen }]
    | [] => []

def backRuns (backStartIx : Nat) : Nat → List (TextRun S) → List (TextRun S)
  | _, [] => []
  | bytePos, run :: runs =>
    let runEnd := bytePos + run.len
    let rest := backRuns backStartIx runEnd runs
    if backStartIx < runEnd then
      (if bytePos < backStartIx then { run with len := runEnd - backStartIx } else run) :: rest
    else rest

def updateRunsAfterMiddleTruncation (ellipsis : Text) (runs : List (TextRun S))
    (frontEndIx backStartIx : Nat) : List (TextRun S) :=
  let (resultRuns, frontDone) := frontRuns (byteLen ellipsis) frontEndIx runs
  let resultRuns := if frontDone then resultRuns else appendEllipsis (byteLen ellipsis) runs resultRuns
  resultRuns ++ backRuns backStartIx 0 runs

end Runs

/-! ## Lines -/

namespace LineWrapper

def textWidth (self : LineWrapper) (text : Text) : ℚ := (text.map self.widthForChar).sum

/-- The loop of `should_truncate_line`, in the direction in which it passes over the characters. -/
def truncateScan (self : LineWrapper) (truncateWidth suffixWidth : ℚ) :
    List (Nat × Char) → ℚ → Nat → Option Nat
  | [], _, _ => none
  | (ix, c) :: rest, width, truncateIx =>
    let truncateIx := if width + suffixWidth < truncateWidth then ix else truncateIx
    let width := width + self.widthForChar c
    if truncateWidth < ⌊width⌋ then some truncateIx
    else self.truncateScan truncateWidth suffixWidth rest width truncateIx

def shouldTruncateLine (self : LineWrapper) (line : Text) (truncateWidth : ℚ) (truncationAffix : Text)
    (truncateFrom : TruncateFrom) : Option Nat :=
  let suffixWidth := self.textWidth truncationAffix
  match truncateFrom with
  | .fromStart => self.truncateScan truncateWidth suffixWidth (charIndices line).reverse 0 0
  | .fromEnd => self.truncateScan truncateWidth suffixWidth (charIndices line) 0 0
  | .fromMiddle => none

/-- The loops of `should_truncate_line_middle`: how far characters fit into a budget. -/
def fitScan (self : LineWrapper) (budget : ℚ) (mark : Nat × Char → Nat) :
    List (Nat × Char) → ℚ → Nat → Nat
  | [], _, fitIx => fitIx
  | (ix, c) :: rest, width, fitIx =>
    let charWidth := self.widthForChar c
    if budget < width + charWidth then fitIx
    else self.fitScan budget mark rest (width + charWidth) (mark (ix, c))

def shouldTruncateLineMiddle (self : LineWrapper) (line : Text) (truncateWidth : ℚ)
    (truncationAffix : Text) : Option (Nat × Nat) :=
  let suffixWidth := self.textWidth truncationAffix
  let totalWidth := self.textWidth line
  if totalWidth ≤ truncateWidth then none
  else
    let contentBudget := truncateWidth - suffixWidth
    if contentBudget ≤ 0 then some (0, byteLen line)
    else
      let frontBudget := contentBudget * (2 / 3)
      let backBudget := contentBudget - frontBudget
      let frontEndIx := self.fitScan frontBudget (fun (ix, c) => ix + c.utf8Size) (charIndices line) 0 0
      let backStartIx :=
        self.fitScan backBudget (fun (ix, _) => ix) (charIndices line).reverse 0 (byteLen line)
      if backStartIx ≤ frontEndIx then some (0, byteLen line) else some (frontEndIx, backStartIx)

variable {S : Type}

def truncateLine (self : LineWrapper) (line : Text) (truncateWidth : ℚ) (truncationAffix : Text)
    (runs : List (TextRun S)) (truncateFrom : TruncateFrom) :
    Except Panic (Text × Cow (List (TextRun S))) :=
  if truncateFrom = .fromMiddle then
    match self.shouldTruncateLineMiddle line truncateWidth truncationAffix with
    | some (frontEndIx, backStartIx) => do
      let (front, _) ← splitAtByte line frontEndIx
      let (_, back) ← splitAtByte line backStartIx
      return (front ++ truncationAffix ++ back,
        .owned (updateRunsAfterMiddleTruncation truncationAffix runs frontEndIx backStartIx))
    | none => .ok (line, .borrowed runs)
  else
    match self.shouldTruncateLine line truncateWidth truncationAffix truncateFrom with
    | some truncateIx => do
      let result ← truncatedText line truncateIx truncationAffix truncateFrom
      let runs ← updateRunsAfterTruncation result truncationAffix runs truncateFrom
      return (result, .owned runs)
    | none => .ok (line, .borrowed runs)

end LineWrapper

/-! ## Wrapped lines -/

/-- The variables of `truncate_wrapped_line`, those of `wrap_line` among them; `index` is the byte
index of the next character. -/
structure WrappedTruncation extends Wrapping where
  line : Nat
  truncateIx : Nat
deriving DecidableEq

namespace WrappedTruncation

def start : WrappedTruncation := ⟨.start, 0, 0⟩

def isCandidate (s : WrappedTruncation) (c : Char) : Bool :=
  if isWordChar c then s.prevC == ' ' && s.firstNonWhitespaceIx.isSome
  else c != ' ' && s.firstNonWhitespaceIx.isSome

def newline (s : WrappedTruncation) : WrappedTruncation :=
  { width := 0
    firstNonWhitespaceIx := none
    indent := none
    lastCandidateIx := 0
    lastCandidateWidth := 0
    lastWrapIx := s.index + 1
    prevC := '\x00'
    index := s.index + 1
    line := s.line + 1
    truncateIx := s.index + 1 }

def lay (s : WrappedTruncation) (c : Char) (charWidth : ℚ) : Wrapping :=
  { width := s.width + charWidth
    firstNonWhitespaceIx :=
      if c != ' ' && s.firstNonWhitespaceIx.isNone then some s.index else s.firstNonWhitespaceIx
    indent := s.indent
    lastCandidateIx := if s.isCandidate c then s.index else s.lastCandidateIx
    lastCandidateWidth := if s.isCandidate c then s.width else s.lastCandidateWidth
    lastWrapIx := s.lastWrapIx
    prevC := s.prevC
    index := s.index }

end WrappedTruncation

/-- Unlike `wrap_line`, compares the candidate with the start of the line. -/
def Wrapping.breakWrapped (s : Wrapping) (charWidth : ℚ) : Wrapping :=
  if s.lastWrapIx < s.lastCandidateIx then
    { s with
      lastWrapIx := s.lastCandidateIx
      width := s.width - s.lastCandidateWidth
      lastCandidateIx := 0 }
  else { s with lastWrapIx := s.index, width := charWidth }

namespace LineWrapper

/-- One round of the loop of `truncate_wrapped_line` for a character that is not a line break: it
stops at an index or goes on. -/
def truncateStep (self : LineWrapper) (wrapWidth affixWidth : ℚ) (maxLines : Nat)
    (s : WrappedTruncation) (c : Char) : Nat ⊕ WrappedTruncation :=
  let ix := s.index
  let charWidth := self.widthForChar c
  let laid := s.lay c charWidth
  if s.line < maxLines - 1 then
    if wrapWidth < laid.width ∧ laid.lastWrapIx < ix then
      let next := self.addIndent (laid.setIndent.breakWrapped charWidth)
      .inr ⟨{ next with prevC := c, index := ix + c.utf8Size }, s.line + 1, next.lastWrapIx⟩
    else .inr ⟨{ laid with prevC := c, index := ix + c.utf8Size }, s.line, s.truncateIx⟩
  else
    let truncateIx := if laid.width + affixWidth ≤ wrapWidth then ix + c.utf8Size else s.truncateIx
    if wrapWidth < laid.width then .inl truncateIx
    else .inr ⟨{ laid with prevC := c, index := ix + c.utf8Size }, s.line, truncateIx⟩

/-- The loop of `truncate_wrapped_line`: where the text is to be cut, if it is. -/
def truncateLoop (self : LineWrapper) (wrapWidth affixWidth : ℚ) (maxLines : Nat) :
    WrappedTruncation → Text → Option Nat
  | _, [] => none
  | s, c :: rest =>
    if c = '\n' then
      -- the newline is on the last line and more than blanks stand below
      if maxLines - 1 ≤ s.line ∧ rest.any fun c => !isWhitespace c then some s.truncateIx
      else self.truncateLoop wrapWidth affixWidth maxLines s.newline rest
    else
      match self.truncateStep wrapWidth affixWidth maxLines s c with
      | .inl truncateIx => some truncateIx
      | .inr next => self.truncateLoop wrapWidth affixWidth maxLines next rest

variable {S : Type}

def truncateWrappedLine (self : LineWrapper) (text : Text) (wrapWidth : ℚ) (maxLines : Nat)
    (truncationAffix : Text) (runs : List (TextRun S)) (truncateFrom : TruncateFrom) :
    Except Panic (Text × Cow (List (TextRun S))) :=
  if maxLines ≤ 1 ∨ truncateFrom = .fromStart then
    self.truncateLine text (wrapWidth * maxLines) truncationAffix runs truncateFrom
  else if truncateFrom = .fromMiddle then
    self.truncateLine text wrapWidth truncationAffix runs truncateFrom
  else
    let affixWidth := self.textWidth truncationAffix
    match self.truncateLoop wrapWidth affixWidth maxLines .start text with
    | some truncateIx => do
      let truncated ← trimmedTo text truncateIx
      let result := truncated ++ truncationAffix
      let runs ← updateRunsAfterTruncation result truncationAffix runs .fromEnd
      return (result, .owned runs)
    | none => .ok (text, .borrowed runs)

end LineWrapper

end Pinrail.TextSystem

import Mathlib.Data.Set.Function
import Mathlib.Logic.Function.Basic
import Pinrail.TextSystem.LineLayout

/-!
# The line layout cache

`LineLayoutCache` keeps the layouts of two frames under three kinds of keys. It is transparent: a
call returns what laying out its arguments from scratch returns, as long as a wrapped line that is
still cached is asked for with the limit on lines it was wrapped under, since that limit is not part
of its key.
-/

namespace Pinrail.TextSystem
open Lib

variable {P : Type} [DecidableEq P]

structure CacheKey (P : Type) where
  text : Text
  fontSize : P
  runs : List FontRun
  wrapWidth : Option P
  forceWidth : Option P
deriving DecidableEq

structure HashedCacheKey (P : Type) where
  textHash : UInt64
  textLen : Nat
  fontSize : P
  runs : List FontRun
  wrapWidth : Option P
  forceWidth : Option P
deriving DecidableEq

abbrev HashMap (κ α : Type) := κ → Option α

namespace HashMap
variable {κ α : Type} [DecidableEq κ]

def insert (self : HashMap κ α) (key : κ) (value : α) : HashMap κ α :=
  Function.update self key (some value)

def remove (self : HashMap κ α) (key : κ) : HashMap κ α := Function.update self key none

/-- Every entry satisfies `p`. -/
def All (p : κ → α → Prop) (self : HashMap κ α) : Prop := ∀ key value, self key = some value → p key value

variable {p : κ → α → Prop} {self : HashMap κ α}

omit [DecidableEq κ] in
theorem All.empty : All p fun _ => none := by
  intro key value found
  cases found

theorem All.insert (all : All p self) {key : κ} {value : α} (holds : p key value) : All p (insert self key value) := by
  intro other found eq
  by_cases same : other = key
  · subst same
    rw [HashMap.insert, Function.update_self] at eq
    cases eq
    exact holds
  · rw [HashMap.insert, Function.update_of_ne same] at eq
    exact all other found eq

theorem All.remove (all : All p self) (key : κ) : All p (remove self key) := by
  intro other found eq
  by_cases same : other = key
  · subst same
    rw [HashMap.remove, Function.update_self] at eq
    cases eq
  · rw [HashMap.remove, Function.update_of_ne same] at eq
    exact all other found eq

end HashMap

structure FrameCache (P : Type) where
  lines : HashMap (CacheKey P) (LineLayout P) := fun _ => none
  wrappedLines : HashMap (CacheKey P) (WrappedLineLayout P) := fun _ => none
  usedLines : List (CacheKey P) := []
  usedWrappedLines : List (CacheKey P) := []
  linesByHash : HashMap (HashedCacheKey P) (LineLayout P) := fun _ => none
  wrappedLinesByHash : HashMap (HashedCacheKey P) (WrappedLineLayout P) := fun _ => none
  usedLinesByHash : List (HashedCacheKey P) := []
  usedWrappedLinesByHash : List (HashedCacheKey P) := []

structure LineLayoutIndex where
  fontGeneration : Nat
  linesIndex : Nat
  wrappedLinesIndex : Nat
  linesByHashIndex : Nat
  wrappedLinesByHashIndex : Nat

/-- `PlatformTextSystem::layout_line` in a font generation. -/
abbrev Platform (P : Type) := Nat → Text → P → List FontRun → LineLayout P

structure LineLayoutCache (P : Type) where
  previousFrame : FrameCache P
  currentFrame : FrameCache P
  fontGeneration : Nat
  cachedFontGeneration : Nat

/-! ## Laying out from scratch -/

section Scratch

variable [Pixels P] (platform : Platform P) (generation : Nat)

def shapeLine (text : Text) (fontSize : P) (runs : List FontRun) (forceWidth : Option P) :
    LineLayout P :=
  let layout := platform generation text fontSize runs
  match forceWidth with
  | some forceWidth => applyForceWidthToLayout layout forceWidth
  | none => layout

def shapeWrappedLine (text : Text) (fontSize : P) (runs : List FontRun) (wrapWidth : Option P)
    (maxLines : Option Nat) : Except Panic (WrappedLineLayout P) := do
  let unwrapped := shapeLine platform generation text fontSize runs none
  let wrapBoundaries ← unwrapped.wrapWithin text wrapWidth maxLines
  return ⟨unwrapped, wrapBoundaries, wrapWidth⟩

end Scratch

/-! ## The cache -/

namespace LineLayoutCache

def new (fontGeneration : Nat) : LineLayoutCache P := ⟨{}, {}, fontGeneration, fontGeneration⟩

def clearIfFontGenerationChanged (self : LineLayoutCache P) : LineLayoutCache P :=
  if self.cachedFontGeneration = self.fontGeneration then self
  else ⟨{}, {}, self.fontGeneration, self.fontGeneration⟩

/-- `add_fonts` advances the generation behind the cache's back. -/
def bumpFontGeneration (self : LineLayoutCache P) : LineLayoutCache P :=
  { self with fontGeneration := self.fontGeneration + 1 }

def layoutIndex (self : LineLayoutCache P) : LineLayoutIndex × LineLayoutCache P :=
  let self := self.clearIfFontGenerationChanged
  (⟨self.fontGeneration, self.currentFrame.usedLines.length,
    self.currentFrame.usedWrappedLines.length, self.currentFrame.usedLinesByHash.length,
    self.currentFrame.usedWrappedLinesByHash.length⟩, self)

/-- `keys[start..end]`. -/
def sliceRange {α : Type} (keys : List α) (start stop : Nat) : Except Panic (List α) :=
  if start ≤ stop ∧ stop ≤ keys.length then .ok ((keys.take stop).drop start)
  else .error .indexOutOfBounds

/-- One of the four loops of `reuse_layouts`: the entries of `keys` move from the previous map to
the current one, and the keys are used again. -/
def reuseKeys {κ α : Type} [DecidableEq κ] :
    List κ → HashMap κ α × HashMap κ α × List κ → HashMap κ α × HashMap κ α × List κ
  | [], maps => maps
  | key :: keys, (previous, current, used) =>
    match previous key with
    | some line => reuseKeys keys (previous.remove key, current.insert key line, used ++ [key])
    | none => reuseKeys keys (previous, current, used ++ [key])

def reuseLayouts (self : LineLayoutCache P) (start stop : LineLayoutIndex) :
    Except Panic (LineLayoutCache P) :=
  let self := self.clearIfFontGenerationChanged
  if start.fontGeneration ≠ self.fontGeneration ∨ stop.fontGeneration ≠ self.fontGeneration then
    .ok self
  else do
    let previous := self.previousFrame
    let current := self.currentFrame
    let lineKeys ← sliceRange previous.usedLines start.linesIndex stop.linesIndex
    let (previousLines, lines, usedLines) :=
      reuseKeys lineKeys (previous.lines, current.lines, current.usedLines)
    let wrappedKeys ← sliceRange previous.usedWrappedLines start.wrappedLinesIndex
      stop.wrappedLinesIndex
    let (previousWrapped, wrappedLines, usedWrappedLines) :=
      reuseKeys wrappedKeys (previous.wrappedLines, current.wrappedLines, current.usedWrappedLines)
    let hashKeys ← sliceRange previous.usedLinesByHash start.linesByHashIndex stop.linesByHashIndex
    let (previousByHash, linesByHash, usedLinesByHash) :=
      reuseKeys hashKeys (previous.linesByHash, current.linesByHash, current.usedLinesByHash)
    let wrappedHashKeys ← sliceRange previous.usedWrappedLinesByHash start.wrappedLinesByHashIndex
      stop.wrappedLinesByHashIndex
    let (previousWrappedByHash, wrappedLinesByHash, usedWrappedLinesByHash) :=
      reuseKeys wrappedHashKeys (previous.wrappedLinesByHash, current.wrappedLinesByHash,
        current.usedWrappedLinesByHash)
    return { self with
      previousFrame := { previous with
        lines := previousLines
        wrappedLines := previousWrapped
        linesByHash := previousByHash
        wrappedLinesByHash := previousWrappedByHash }
      currentFrame := ⟨lines, wrappedLines, usedLines, usedWrappedLines, linesByHash,
        wrappedLinesByHash, usedLinesByHash, usedWrappedLinesByHash⟩ }

def truncateLayouts (self : LineLayoutCache P) (index : LineLayoutIndex) : LineLayoutCache P :=
  let self := self.clearIfFontGenerationChanged
  if index.fontGeneration ≠ self.fontGeneration then self
  else { self with
    currentFrame := { self.currentFrame with
      usedLines := self.currentFrame.usedLines.take index.linesIndex
      usedWrappedLines := self.currentFrame.usedWrappedLines.take index.wrappedLinesIndex
      usedLinesByHash := self.currentFrame.usedLinesByHash.take index.linesByHashIndex
      usedWrappedLinesByHash := self.currentFrame.usedWrappedLinesByHash.take index.wrappedLinesByHashIndex } }

def finishFrame (self : LineLayoutCache P) : LineLayoutCache P :=
  let self := self.clearIfFontGenerationChanged
  { self with previousFrame := self.currentFrame, currentFrame := {} }

variable [Pixels P] (platform : Platform P)

def addLine (self : LineLayoutCache P) (key : CacheKey P) (layout : LineLayout P) :
    LineLayoutCache P :=
  { self with currentFrame := { self.currentFrame with
      lines := self.currentFrame.lines.insert key layout
      usedLines := self.currentFrame.usedLines ++ [key] } }

def layoutLine (self : LineLayoutCache P) (text : Text) (fontSize : P) (runs : List FontRun)
    (forceWidth : Option P) : LineLayout P × LineLayoutCache P :=
  let self := self.clearIfFontGenerationChanged
  let key : CacheKey P := ⟨text, fontSize, runs, none, forceWidth⟩
  match self.currentFrame.lines key with
  | some layout => (layout, self)
  | none =>
    match self.previousFrame.lines key with
    | some layout =>
      let previous := { self.previousFrame with lines := self.previousFrame.lines.remove key }
      (layout, addLine { self with previousFrame := previous } key layout)
    | none =>
      let layout := shapeLine platform self.fontGeneration text fontSize runs forceWidth
      (layout, addLine self key layout)

def addWrappedLine (self : LineLayoutCache P) (key : CacheKey P) (layout : WrappedLineLayout P) :
    LineLayoutCache P :=
  { self with currentFrame := { self.currentFrame with
      wrappedLines := self.currentFrame.wrappedLines.insert key layout
      usedWrappedLines := self.currentFrame.usedWrappedLines ++ [key] } }

def layoutWrappedLine (self : LineLayoutCache P) (text : Text) (fontSize : P)
    (runs : List FontRun) (wrapWidth : Option P) (maxLines : Option Nat) :
    Except Panic (WrappedLineLayout P × LineLayoutCache P) := do
  let self := self.clearIfFontGenerationChanged
  let key : CacheKey P := ⟨text, fontSize, runs, wrapWidth, none⟩
  match self.currentFrame.wrappedLines key with
  | some layout => return (layout, self)
  | none =>
    match self.previousFrame.wrappedLines key with
    | some layout =>
      let previous := { self.previousFrame with
        wrappedLines := self.previousFrame.wrappedLines.remove key }
      return (layout, addWrappedLine { self with previousFrame := previous } key layout)
    | none =>
      let (unwrappedLayout, self) := self.layoutLine platform text fontSize runs none
      let wrapBoundaries ← unwrappedLayout.wrapWithin text wrapWidth maxLines
      let layout := ⟨unwrappedLayout, wrapBoundaries, wrapWidth⟩
      return (layout, self.addWrappedLine key layout)

def addLineByHash (self : LineLayoutCache P) (key : HashedCacheKey P) (layout : LineLayout P) :
    LineLayoutCache P :=
  { self with currentFrame := { self.currentFrame with
      linesByHash := self.currentFrame.linesByHash.insert key layout
      usedLinesByHash := self.currentFrame.usedLinesByHash ++ [key] } }

/-- The text is what `materialize_text` returns; it is looked at on a miss only. -/
def layoutLineByHash (self : LineLayoutCache P) (textHash : UInt64) (textLen : Nat) (fontSize : P)
    (runs : List FontRun) (forceWidth : Option P) (text : Text) :
    LineLayout P × LineLayoutCache P :=
  let self := self.clearIfFontGenerationChanged
  let key : HashedCacheKey P := ⟨textHash, textLen, fontSize, runs, none, forceWidth⟩
  match self.currentFrame.linesByHash key with
  | some layout => (layout, self)
  | none =>
    let existing :=
      if key ∈ self.previousFrame.usedLinesByHash then self.previousFrame.linesByHash key
      else none
    match existing with
    | some layout =>
      let previous := { self.previousFrame with
        linesByHash := self.previousFrame.linesByHash.remove key }
      (layout, addLineByHash { self with previousFrame := previous } key layout)
    | none =>
      let layout := shapeLine platform self.fontGeneration text fontSize runs forceWidth
      (layout, addLineByHash self key layout)

def tryLayoutLineByHash (self : LineLayoutCache P) (textHash : UInt64) (textLen : Nat)
    (fontSize : P) (runs : List FontRun) (forceWidth : Option P) :
    Option (LineLayout P) × LineLayoutCache P :=
  let self := self.clearIfFontGenerationChanged
  let key : HashedCacheKey P := ⟨textHash, textLen, fontSize, runs, none, forceWidth⟩
  match self.currentFrame.linesByHash key with
  | some layout => (some layout, self)
  | none => (self.previousFrame.linesByHash key, self)

/-! ## Right entries -/

section Right

abbrev Limits (P : Type) := CacheKey P → Option Nat

variable (hash : Text → UInt64) (texts : Set Text)

/-- Every layout in a frame is the one that its key asks for in font generation `generation`. -/
structure Right (generation : Nat) (limits : Limits P) (frame : FrameCache P) : Prop where
  lines : frame.lines.All fun key layout =>
    layout = shapeLine platform generation key.text key.fontSize key.runs key.forceWidth
  wrapped : frame.wrappedLines.All fun key layout =>
    shapeWrappedLine platform generation key.text key.fontSize key.runs key.wrapWidth (limits key) = .ok layout
  byHash : frame.linesByHash.All fun key layout => ∀ text ∈ texts, hash text = key.textHash →
    layout = shapeLine platform generation text key.fontSize key.runs key.forceWidth

structure Coherent (cache : LineLayoutCache P) (limits : Limits P) : Prop where
  previous : Right platform hash texts cache.cachedFontGeneration limits cache.previousFrame
  current : Right platform hash texts cache.cachedFontGeneration limits cache.currentFrame

variable {platform hash texts} {cache : LineLayoutCache P} {limits : Limits P}

omit [DecidableEq P] in
theorem Right.empty {generation : Nat} : Right platform hash texts generation limits {} := ⟨.empty, .empty, .empty⟩

omit [DecidableEq P] in
theorem Coherent.clear (coherent : Coherent platform hash texts cache limits) :
    Coherent platform hash texts cache.clearIfFontGenerationChanged limits ∧
    cache.clearIfFontGenerationChanged.fontGeneration = cache.fontGeneration ∧
    cache.clearIfFontGenerationChanged.cachedFontGeneration = cache.fontGeneration := by
  unfold clearIfFontGenerationChanged
  split_ifs with same
  · exact ⟨coherent, rfl, same⟩
  · exact ⟨⟨.empty, .empty⟩, rfl, rfl⟩

omit [Pixels P] [DecidableEq P] in
theorem reuseKeys_all {κ α : Type} [DecidableEq κ] {p : κ → α → Prop} (keys : List κ) {previous current : HashMap κ α}
    (used : List κ) (previousAll : previous.All p) (currentAll : current.All p) :
    (reuseKeys keys (previous, current, used)).1.All p ∧ (reuseKeys keys (previous, current, used)).2.1.All p := by
  induction keys generalizing previous current used with
  | nil => exact ⟨previousAll, currentAll⟩
  | cons key keys ih =>
    rw [reuseKeys]
    cases found : previous key with
    | some line =>
      exact ih _ (previousAll.remove key) (currentAll.insert (previousAll key line found))
    | none => exact ih _ previousAll currentAll

theorem Coherent.reuseLayouts (coherent : Coherent platform hash texts cache limits) {start stop : LineLayoutIndex}
    {cache' : LineLayoutCache P} (reused : cache.reuseLayouts start stop = .ok cache') :
    Coherent platform hash texts cache' limits := by
  obtain ⟨cleared, -, -⟩ := coherent.clear
  unfold LineLayoutCache.reuseLayouts at reused
  simp only at reused
  generalize cache.clearIfFontGenerationChanged = self at cleared reused
  split_ifs at reused
  · cases reused
    exact cleared
  · obtain ⟨lineKeys, -, reused⟩ := bind_eq_ok.mp reused
    obtain ⟨wrappedKeys, -, reused⟩ := bind_eq_ok.mp reused
    obtain ⟨hashKeys, -, reused⟩ := bind_eq_ok.mp reused
    obtain ⟨wrappedHashKeys, -, reused⟩ := bind_eq_ok.mp reused
    cases reused
    obtain ⟨previous, current⟩ := cleared
    have lines := reuseKeys_all lineKeys self.currentFrame.usedLines previous.lines current.lines
    have wrapped := reuseKeys_all wrappedKeys self.currentFrame.usedWrappedLines previous.wrapped current.wrapped
    have byHash := reuseKeys_all hashKeys self.currentFrame.usedLinesByHash previous.byHash current.byHash
    exact ⟨⟨lines.1, wrapped.1, byHash.1⟩, lines.2, wrapped.2, byHash.2⟩

omit [DecidableEq P] in
theorem Coherent.truncateLayouts (coherent : Coherent platform hash texts cache limits)
    (index : LineLayoutIndex) : Coherent platform hash texts (cache.truncateLayouts index) limits := by
  obtain ⟨cleared, -, -⟩ := coherent.clear
  unfold LineLayoutCache.truncateLayouts
  simp only
  split_ifs
  · exact cleared
  · exact ⟨cleared.previous, cleared.current.lines, cleared.current.wrapped, cleared.current.byHash⟩

omit [DecidableEq P] in
theorem Coherent.finishFrame (coherent : Coherent platform hash texts cache limits) :
    Coherent platform hash texts cache.finishFrame limits :=
  ⟨coherent.clear.1.current, .empty⟩

/-! ## Layout calls -/

structure Settled (platform : Platform P) (hash : Text → UInt64) (texts : Set Text)
    (generation : Nat) (limits : Limits P) (cache : LineLayoutCache P) : Prop where
  coherent : Coherent platform hash texts cache limits
  generation_eq : cache.fontGeneration = generation
  cached_eq : cache.cachedFontGeneration = generation

omit [DecidableEq P] in
theorem Coherent.settled (coherent : Coherent platform hash texts cache limits) :
    Settled platform hash texts cache.fontGeneration limits cache.clearIfFontGenerationChanged :=
  ⟨coherent.clear.1, coherent.clear.2.1, coherent.clear.2.2⟩

variable {generation : Nat}

omit [DecidableEq P] in
theorem Settled.clear_eq (settled : Settled platform hash texts generation limits cache) :
    cache.clearIfFontGenerationChanged = cache := by
  rw [clearIfFontGenerationChanged, if_pos (settled.cached_eq.trans settled.generation_eq.symm)]

omit [DecidableEq P] in
theorem Settled.setPrevious (settled : Settled platform hash texts generation limits cache)
    {frame : FrameCache P} (right : Right platform hash texts cache.cachedFontGeneration limits frame) :
    Settled platform hash texts generation limits { cache with previousFrame := frame } :=
  ⟨⟨right, settled.coherent.current⟩, settled.generation_eq, settled.cached_eq⟩

theorem Settled.addLine (settled : Settled platform hash texts generation limits cache)
    {key : CacheKey P} {layout : LineLayout P}
    (right : layout = shapeLine platform generation key.text key.fontSize key.runs key.forceWidth) :
    Settled platform hash texts generation limits (cache.addLine key layout) := by
  obtain ⟨⟨previous, current⟩, rfl, cached⟩ := settled
  refine ⟨⟨previous, ⟨current.lines.insert ?_, current.wrapped, current.byHash⟩⟩, rfl, cached⟩
  rw [cached]
  exact right

theorem Settled.addWrappedLine (settled : Settled platform hash texts generation limits cache)
    {key : CacheKey P} {layout : WrappedLineLayout P}
    (right : shapeWrappedLine platform generation key.text key.fontSize key.runs key.wrapWidth
      (limits key) = .ok layout) :
    Settled platform hash texts generation limits (cache.addWrappedLine key layout) := by
  obtain ⟨⟨previous, current⟩, rfl, cached⟩ := settled
  refine ⟨⟨previous, ⟨current.lines, current.wrapped.insert ?_, current.byHash⟩⟩, rfl, cached⟩
  rw [cached]
  exact right

theorem Settled.addLineByHash (settled : Settled platform hash texts generation limits cache)
    {key : HashedCacheKey P} {layout : LineLayout P}
    (right : ∀ text ∈ texts, hash text = key.textHash →
      layout = shapeLine platform generation text key.fontSize key.runs key.forceWidth) :
    Settled platform hash texts generation limits (cache.addLineByHash key layout) := by
  obtain ⟨⟨previous, current⟩, rfl, cached⟩ := settled
  refine ⟨⟨previous, ⟨current.lines, current.wrapped, current.byHash.insert ?_⟩⟩, rfl, cached⟩
  rw [cached]
  exact right

theorem Settled.layoutLine (settled : Settled platform hash texts generation limits cache)
    (text : Text) (fontSize : P) (runs : List FontRun) (forceWidth : Option P) :
    (cache.layoutLine platform text fontSize runs forceWidth).1 =
        shapeLine platform generation text fontSize runs forceWidth ∧
      Settled platform hash texts generation limits (cache.layoutLine platform text fontSize runs forceWidth).2 := by
  unfold LineLayoutCache.layoutLine
  simp only [settled.clear_eq]
  cases inCurrent : cache.currentFrame.lines ⟨text, fontSize, runs, none, forceWidth⟩ with
  | some layout =>
    have right := settled.coherent.current.lines _ _ inCurrent
    rw [settled.cached_eq] at right
    exact ⟨right, settled⟩
  | none =>
    cases inPrevious : cache.previousFrame.lines ⟨text, fontSize, runs, none, forceWidth⟩ with
    | some layout =>
      have right := settled.coherent.previous.lines _ _ inPrevious
      rw [settled.cached_eq] at right
      have previous := settled.coherent.previous
      refine ⟨right, Settled.addLine (settled.setPrevious ?_) right⟩
      exact ⟨previous.lines.remove _, previous.wrapped, previous.byHash⟩
    | none =>
      rw [settled.generation_eq]
      exact ⟨rfl, settled.addLine rfl⟩

theorem Settled.layoutLineByHash (injective : Set.InjOn hash texts)
    (settled : Settled platform hash texts generation limits cache) (textLen : Nat) (fontSize : P)
    (runs : List FontRun) (forceWidth : Option P) (text : Text) (known : text ∈ texts) :
    (cache.layoutLineByHash platform (hash text) textLen fontSize runs forceWidth text).1 =
        shapeLine platform generation text fontSize runs forceWidth ∧
      Settled platform hash texts generation limits
        (cache.layoutLineByHash platform (hash text) textLen fontSize runs forceWidth text).2 := by
  unfold LineLayoutCache.layoutLineByHash
  simp only [settled.clear_eq]
  cases inCurrent : cache.currentFrame.linesByHash ⟨hash text, textLen, fontSize, runs, none, forceWidth⟩ with
  | some layout =>
    have right := settled.coherent.current.byHash _ _ inCurrent text known rfl
    rw [settled.cached_eq] at right
    exact ⟨right, settled⟩
  | none =>
    simp only
    split
    · rename_i layout inPrevious
      have inPrevious : cache.previousFrame.linesByHash
          ⟨hash text, textLen, fontSize, runs, none, forceWidth⟩ = some layout := by
        split_ifs at inPrevious
        exact inPrevious
      have right := settled.coherent.previous.byHash _ _ inPrevious
      rw [settled.cached_eq] at right
      have previous := settled.coherent.previous
      refine ⟨right text known rfl, Settled.addLineByHash (settled.setPrevious ?_) right⟩
      exact ⟨previous.lines, previous.wrapped, previous.byHash.remove _⟩
    · rw [settled.generation_eq]
      refine ⟨rfl, settled.addLineByHash fun other mem same => ?_⟩
      rw [injective mem known same]

/-! ## Wrapped lines -/

def cachesWrapped (self : LineLayoutCache P) (key : CacheKey P) : Bool :=
  (self.currentFrame.wrappedLines key).isSome || (self.previousFrame.wrappedLines key).isSome

/-- The limits after a call of `layout_wrapped_line`: a miss is laid out under the call's limit. -/
def noteLimit (cache : LineLayoutCache P) (limits : Limits P) (key : CacheKey P)
    (maxLines : Option Nat) : Limits P :=
  if cache.clearIfFontGenerationChanged.cachesWrapped key then limits
  else Function.update limits key maxLines

/-- A wrapped line that is still cached is asked for with the limit it was laid out under; without a
width there is nothing to limit. -/
def Agrees (cache : LineLayoutCache P) (limits : Limits P) (key : CacheKey P)
    (maxLines : Option Nat) : Prop :=
  key.wrapWidth.isSome = true → cache.clearIfFontGenerationChanged.cachesWrapped key = true → limits key = maxLines

omit [DecidableEq P] in
theorem shapeWrappedLine_limit {text : Text} {fontSize : P} {runs : List FontRun}
    {wrapWidth : Option P} {limit limit' : Option Nat} (same : wrapWidth.isSome = true → limit = limit') :
    shapeWrappedLine platform generation text fontSize runs wrapWidth limit =
      shapeWrappedLine platform generation text fontSize runs wrapWidth limit' := by
  cases wrapWidth with
  | none => rfl
  | some width => rw [same rfl]

theorem Right.update {frame : FrameCache P} (right : Right platform hash texts generation limits frame)
    {key : CacheKey P} (absent : frame.wrappedLines key = none) (maxLines : Option Nat) :
    Right platform hash texts generation (Function.update limits key maxLines) frame := by
  refine ⟨right.lines, fun other layout found => ?_, right.byHash⟩
  have apart : other ≠ key := by
    rintro rfl
    rw [absent] at found
    cases found
  simp only [Function.update_of_ne apart]
  exact right.wrapped other layout found

theorem Settled.update (settled : Settled platform hash texts generation limits cache)
    {key : CacheKey P} (absent : cache.cachesWrapped key = false) (maxLines : Option Nat) :
    Settled platform hash texts generation (Function.update limits key maxLines) cache := by
  simp only [cachesWrapped, Bool.or_eq_false_iff, Option.isSome_eq_false_iff, Option.isNone_iff_eq_none] at absent
  exact ⟨⟨settled.coherent.previous.update absent.2 maxLines,
    settled.coherent.current.update absent.1 maxLines⟩, settled.generation_eq, settled.cached_eq⟩

omit [DecidableEq P] in
theorem Right.wrapped_eq {frame : FrameCache P} (right : Right platform hash texts generation limits frame)
    {key : CacheKey P} {layout : WrappedLineLayout P} (found : frame.wrappedLines key = some layout)
    {maxLines : Option Nat} (agrees : key.wrapWidth.isSome = true → limits key = maxLines) :
    shapeWrappedLine platform generation key.text key.fontSize key.runs key.wrapWidth maxLines = .ok layout := by
  rw [← shapeWrappedLine_limit agrees]
  exact right.wrapped key layout found

theorem Settled.layoutWrappedLine (settled : Settled platform hash texts generation limits cache)
    (text : Text) (fontSize : P) (runs : List FontRun) (wrapWidth : Option P)
    (maxLines : Option Nat)
    (agrees : Agrees cache limits ⟨text, fontSize, runs, wrapWidth, none⟩ maxLines) :
    (cache.layoutWrappedLine platform text fontSize runs wrapWidth maxLines).map Prod.fst =
        shapeWrappedLine platform generation text fontSize runs wrapWidth maxLines ∧
      ∀ layout cache', cache.layoutWrappedLine platform text fontSize runs wrapWidth maxLines = .ok (layout, cache') →
        Settled platform hash texts generation
          (noteLimit cache limits ⟨text, fontSize, runs, wrapWidth, none⟩ maxLines) cache' := by
  unfold LineLayoutCache.layoutWrappedLine Agrees noteLimit at *
  simp only [settled.clear_eq] at agrees ⊢
  cases inCurrent : cache.currentFrame.wrappedLines ⟨text, fontSize, runs, wrapWidth, none⟩ with
  | some layout =>
    have cached : cache.cachesWrapped ⟨text, fontSize, runs, wrapWidth, none⟩ = true := by
      rw [cachesWrapped, inCurrent]
      rfl
    have right := settled.coherent.current.wrapped_eq inCurrent fun some => agrees some cached
    rw [settled.cached_eq] at right
    refine ⟨right.symm, ?_⟩
    rintro _ _ ⟨⟩
    rw [if_pos cached]
    exact settled
  | none =>
    cases inPrevious : cache.previousFrame.wrappedLines ⟨text, fontSize, runs, wrapWidth, none⟩ with
    | some layout =>
      have cached : cache.cachesWrapped ⟨text, fontSize, runs, wrapWidth, none⟩ = true := by
        rw [cachesWrapped, inCurrent, inPrevious]
        rfl
      have previous := settled.coherent.previous
      have right := previous.wrapped_eq inPrevious fun some => agrees some cached
      have held := previous.wrapped _ _ inPrevious
      rw [settled.cached_eq] at right held
      refine ⟨right.symm, ?_⟩
      rintro _ _ ⟨⟩
      rw [if_pos cached]
      refine Settled.addWrappedLine (settled.setPrevious ?_) held
      exact ⟨previous.lines, previous.wrapped.remove _, previous.byHash⟩
    | none =>
      have absent : cache.cachesWrapped ⟨text, fontSize, runs, wrapWidth, none⟩ = false := by
        rw [cachesWrapped, inCurrent, inPrevious]
        rfl
      have noted := settled.update absent maxLines
      obtain ⟨unwrapped, settled'⟩ := noted.layoutLine text fontSize runs none
      rw [if_neg (by simp [absent])]
      have shaped : shapeWrappedLine platform generation text fontSize runs wrapWidth maxLines =
          shapeWrappedLine platform generation text fontSize runs wrapWidth
            (Function.update limits ⟨text, fontSize, runs, wrapWidth, none⟩ maxLines
              ⟨text, fontSize, runs, wrapWidth, none⟩) := by
        rw [Function.update_self]
      unfold shapeWrappedLine at shaped ⊢
      simp only [unwrapped] at shaped ⊢
      cases boundaries : (shapeLine platform generation text fontSize runs none).wrapWithin text wrapWidth maxLines with
      | error e =>
        refine ⟨rfl, ?_⟩
        rintro _ _ ⟨⟩
      | ok boundaries =>
        rw [boundaries] at shaped
        refine ⟨rfl, ?_⟩
        rintro _ _ ⟨⟩
        exact settled'.addWrappedLine shaped.symm

end Right

/-! ## Runs -/

section Runs

variable {platform : Platform P} {hash : Text → UInt64} {texts : Set Text}
  {cache : LineLayoutCache P} {limits : Limits P}

omit [DecidableEq P] [Pixels P] in
theorem clear_clear (cache : LineLayoutCache P) :
    cache.clearIfFontGenerationChanged.clearIfFontGenerationChanged = cache.clearIfFontGenerationChanged := by
  unfold clearIfFontGenerationChanged
  split_ifs <;> simp_all

theorem Coherent.layoutLine (coherent : Coherent platform hash texts cache limits) (text : Text)
    (fontSize : P) (runs : List FontRun) (forceWidth : Option P) :
    (cache.layoutLine platform text fontSize runs forceWidth).1 =
        shapeLine platform cache.fontGeneration text fontSize runs forceWidth ∧
      Coherent platform hash texts (cache.layoutLine platform text fontSize runs forceWidth).2
        limits := by
  obtain ⟨right, settled⟩ := coherent.settled.layoutLine text fontSize runs forceWidth
  simp only [LineLayoutCache.layoutLine, clear_clear] at right settled ⊢
  exact ⟨right, settled.coherent⟩

theorem Coherent.layoutLineByHash (injective : Set.InjOn hash texts)
    (coherent : Coherent platform hash texts cache limits) (textLen : Nat) (fontSize : P)
    (runs : List FontRun) (forceWidth : Option P) (text : Text) (known : text ∈ texts) :
    (cache.layoutLineByHash platform (hash text) textLen fontSize runs forceWidth text).1 =
        shapeLine platform cache.fontGeneration text fontSize runs forceWidth ∧
      Coherent platform hash texts (cache.layoutLineByHash platform (hash text) textLen fontSize runs forceWidth text).2
        limits := by
  obtain ⟨right, settled⟩ := coherent.settled.layoutLineByHash injective textLen fontSize runs forceWidth text known
  simp only [LineLayoutCache.layoutLineByHash, clear_clear] at right settled ⊢
  exact ⟨right, settled.coherent⟩

theorem Coherent.layoutWrappedLine (coherent : Coherent platform hash texts cache limits)
    (text : Text) (fontSize : P) (runs : List FontRun) (wrapWidth : Option P)
    (maxLines : Option Nat)
    (agrees : Agrees cache limits ⟨text, fontSize, runs, wrapWidth, none⟩ maxLines) :
    (cache.layoutWrappedLine platform text fontSize runs wrapWidth maxLines).map Prod.fst =
        shapeWrappedLine platform cache.fontGeneration text fontSize runs wrapWidth maxLines ∧
      ∀ layout cache', cache.layoutWrappedLine platform text fontSize runs wrapWidth maxLines = .ok (layout, cache') →
        Coherent platform hash texts cache'
          (noteLimit cache limits ⟨text, fontSize, runs, wrapWidth, none⟩ maxLines) := by
  have agrees' : Agrees cache.clearIfFontGenerationChanged limits ⟨text, fontSize, runs, wrapWidth, none⟩ maxLines := by
    rwa [Agrees, clear_clear]
  obtain ⟨right, settled⟩ := coherent.settled.layoutWrappedLine text fontSize runs wrapWidth maxLines agrees'
  simp only [LineLayoutCache.layoutWrappedLine, noteLimit, clear_clear] at right settled ⊢
  exact ⟨right, fun layout cache' eq => (settled layout cache' eq).coherent⟩

omit [DecidableEq P] in
theorem Coherent.tryLayoutLineByHash (coherent : Coherent platform hash texts cache limits)
    (textLen : Nat) (fontSize : P) (runs : List FontRun) (forceWidth : Option P) (text : Text)
    (known : text ∈ texts) (layout : LineLayout P)
    (found : (cache.tryLayoutLineByHash (hash text) textLen fontSize runs forceWidth).1 = some layout) :
    layout = shapeLine platform cache.fontGeneration text fontSize runs forceWidth := by
  obtain ⟨⟨previous, current⟩, -, cached⟩ := coherent.settled
  rw [cached] at previous current
  simp only [LineLayoutCache.tryLayoutLineByHash] at found
  split at found
  · rename_i inCurrent
    cases found
    exact current.byHash _ _ inCurrent text known rfl
  · exact previous.byHash _ _ found text known rfl

/-- The caches that a sequence of calls can lead to, with the limits of their wrapped lines. Calls by
hash are about `texts`, whose hashes the caller keeps apart. -/
inductive Reaches (platform : Platform P) (hash : Text → UInt64) (texts : Set Text) :
    LineLayoutCache P → Limits P → Prop where
  | new (fontGeneration : Nat) : Reaches platform hash texts (new fontGeneration) fun _ => none
  | layoutLine {cache : LineLayoutCache P} {limits : Limits P}
      (before : Reaches platform hash texts cache limits) (text : Text) (fontSize : P)
      (runs : List FontRun) (forceWidth : Option P) :
      Reaches platform hash texts (cache.layoutLine platform text fontSize runs forceWidth).2 limits
  | layoutWrappedLine {cache cache' : LineLayoutCache P} {limits : Limits P}
      (before : Reaches platform hash texts cache limits) {text : Text} {fontSize : P}
      {runs : List FontRun} {wrapWidth : Option P} {maxLines : Option Nat}
      {layout : WrappedLineLayout P}
      (agrees : Agrees cache limits ⟨text, fontSize, runs, wrapWidth, none⟩ maxLines)
      (called : cache.layoutWrappedLine platform text fontSize runs wrapWidth maxLines = .ok (layout, cache')) :
      Reaches platform hash texts cache' (noteLimit cache limits ⟨text, fontSize, runs, wrapWidth, none⟩ maxLines)
  | layoutLineByHash {cache : LineLayoutCache P} {limits : Limits P}
      (before : Reaches platform hash texts cache limits) (textLen : Nat) (fontSize : P)
      (runs : List FontRun) (forceWidth : Option P) {text : Text} (known : text ∈ texts) :
      Reaches platform hash texts
        (cache.layoutLineByHash platform (hash text) textLen fontSize runs forceWidth text).2 limits
  | layoutIndex {cache : LineLayoutCache P} {limits : Limits P} (before : Reaches platform hash texts cache limits) :
      Reaches platform hash texts cache.layoutIndex.2 limits
  | reuseLayouts {cache cache' : LineLayoutCache P} {limits : Limits P}
      (before : Reaches platform hash texts cache limits) {start stop : LineLayoutIndex}
      (called : cache.reuseLayouts start stop = .ok cache') :
      Reaches platform hash texts cache' limits
  | truncateLayouts {cache : LineLayoutCache P} {limits : Limits P}
      (before : Reaches platform hash texts cache limits) (index : LineLayoutIndex) :
      Reaches platform hash texts (cache.truncateLayouts index) limits
  | finishFrame {cache : LineLayoutCache P} {limits : Limits P} (before : Reaches platform hash texts cache limits) :
      Reaches platform hash texts cache.finishFrame limits
  | bumpFontGeneration {cache : LineLayoutCache P} {limits : Limits P}
      (before : Reaches platform hash texts cache limits) :
      Reaches platform hash texts cache.bumpFontGeneration limits

theorem Reaches.coherent (injective : Set.InjOn hash texts) (reaches : Reaches platform hash texts cache limits) :
    Coherent platform hash texts cache limits := by
  induction reaches with
  | new fontGeneration => exact ⟨.empty, .empty⟩
  | layoutLine before text fontSize runs forceWidth ih =>
    exact (ih.layoutLine text fontSize runs forceWidth).2
  | layoutWrappedLine before agrees called ih =>
    exact (ih.layoutWrappedLine _ _ _ _ _ agrees).2 _ _ called
  | layoutLineByHash before textLen fontSize runs forceWidth known ih =>
    exact (ih.layoutLineByHash injective textLen fontSize runs forceWidth _ known).2
  | layoutIndex before ih => exact ih.clear.1
  | reuseLayouts before called ih => exact ih.reuseLayouts called
  | truncateLayouts before index ih => exact ih.truncateLayouts index
  | finishFrame before ih => exact ih.finishFrame
  | bumpFontGeneration before ih => exact ⟨ih.previous, ih.current⟩

/-- After every sequence of calls the three kinds of layout calls return what laying out their
arguments from scratch returns. -/
theorem reaches_transparent (injective : Set.InjOn hash texts) (reaches : Reaches platform hash texts cache limits) :
    (∀ text fontSize runs forceWidth, (cache.layoutLine platform text fontSize runs forceWidth).1 =
        shapeLine platform cache.fontGeneration text fontSize runs forceWidth) ∧
    (∀ text fontSize runs wrapWidth maxLines, Agrees cache limits ⟨text, fontSize, runs, wrapWidth, none⟩ maxLines →
      (cache.layoutWrappedLine platform text fontSize runs wrapWidth maxLines).map Prod.fst =
        shapeWrappedLine platform cache.fontGeneration text fontSize runs wrapWidth maxLines) ∧
    ∀ textLen fontSize runs forceWidth, ∀ text ∈ texts,
      (cache.layoutLineByHash platform (hash text) textLen fontSize runs forceWidth text).1 =
        shapeLine platform cache.fontGeneration text fontSize runs forceWidth := by
  have coherent := reaches.coherent injective
  refine ⟨?_, ?_, ?_⟩
  · intro text fontSize runs forceWidth
    exact (coherent.layoutLine text fontSize runs forceWidth).1
  · intro text fontSize runs wrapWidth maxLines agrees
    exact (coherent.layoutWrappedLine text fontSize runs wrapWidth maxLines agrees).1
  · intro textLen fontSize runs forceWidth text known
    exact (coherent.layoutLineByHash injective textLen fontSize runs forceWidth text known).1

/-! ## Concrete layouts -/

attribute [local instance] wholePixels

def monospace : Platform Int := fun _ text fontSize _ =>
  ⟨fontSize, 10 * text.length, 0, 0, [⟨0, text.zipIdx.map fun (c, i) => ⟨c.toNat, ⟨10 * i, 0⟩, i, false⟩⟩], text.length⟩

def threeLetters : Text := ['a', 'b', 'c']

/-- The cache after `threeLetters` was wrapped at ten pixels without a limit. -/
def wrappedOnce : LineLayoutCache Int :=
  match (new 0).layoutWrappedLine monospace threeLetters 12 [] (some 10) none with
  | .ok (_, cache) => cache
  | .error _ => new 0

theorem reaches_transparent_wrappedOnce :
    (wrappedOnce.layoutWrappedLine monospace threeLetters 12 [] (some 10) none).map Prod.fst =
      shapeWrappedLine monospace 0 threeLetters 12 [] (some 10) none ∧
    (wrappedOnce.layoutLineByHash monospace 7 3 12 [] none threeLetters).1 =
      shapeLine monospace 0 threeLetters 12 [] none := by
  have reaches : Reaches monospace (fun _ => 7) {threeLetters} wrappedOnce
      (noteLimit (new 0) (fun _ => none) ⟨threeLetters, 12, [], some 10, none⟩ none) :=
    .layoutWrappedLine (.new 0) (fun _ cached => by cases cached) rfl
  have transparent := reaches_transparent (by simp) reaches
  exact ⟨transparent.2.1 threeLetters 12 [] (some 10) none (fun _ _ => rfl),
    transparent.2.2 3 12 [] none threeLetters rfl⟩

/-- Asked for one line, the cache answers with the three lines that it wrapped without a limit. -/
theorem maxLines_ignored : (wrappedOnce.layoutWrappedLine monospace threeLetters 12 [] (some 10) (some 1)).map
        (fun result => result.1.wrapBoundaries) = .ok [⟨0, 1⟩, ⟨0, 2⟩] ∧
    (shapeWrappedLine monospace 0 threeLetters 12 [] (some 10) (some 1)).map WrappedLineLayout.wrapBoundaries = .ok [] ∧
    (wrappedOnce.layoutWrappedLine monospace threeLetters 12 [] (some 10) (some 1)).map Prod.fst ≠
      shapeWrappedLine monospace wrappedOnce.fontGeneration threeLetters 12 [] (some 10) (some 1) := by
  refine ⟨rfl, rfl, ?_⟩
  intro same
  cases congrArg (Except.map WrappedLineLayout.wrapBoundaries) same

end Runs

end LineLayoutCache

end Pinrail.TextSystem

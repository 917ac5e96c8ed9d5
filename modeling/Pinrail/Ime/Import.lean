import Mathlib.Data.List.Forall2
import Mathlib.Tactic.Common
import Pinrail.Lib.Utf16

/-!
# The edit that is imported

The difference of two values gives back the edit of the browser where the text that was inserted does not
share a prefix with the text it replaced that reaches past the selection, or into a surrogate pair.
-/

/-! ## Edits of an input method

The `input` listener of `events.rs` with the mirror of `ime_mirror.rs`: the browser has edited the hidden
element, and the edit is imported into the document.
-/

namespace Pinrail.Ime

open Lib Utf16

/-! ## The mirror -/

structure TextArea where
  value : List UInt16
  selectionStart : Option Nat
  selectionEnd : Option Nat
deriving DecidableEq

structure ImeMirror where
  element : TextArea
  text : Str
  selection : Nat × Nat
deriving DecidableEq

namespace ImeMirror

def value (self : ImeMirror) : Str := decodeLossy self.element.value

def adoptElementState (self : ImeMirror) : ImeMirror :=
  let selectionStart := self.element.selectionStart.getD 0
  { self with text := self.value, selection := (selectionStart, self.element.selectionEnd.getD selectionStart) }

end ImeMirror

/-! ## The document -/

structure InputHandler (H : Type) where
  units : H → List UInt16
  selectedTextRange : H → Option (Nat × Nat)
  replaceTextInRange : H → Option (Nat × Nat) → Str → H
  /-- The text in a range of the document is replaced with the given text. -/
  replaces : ∀ document range text, range.1 ≤ range.2 → range.2 ≤ (units document).length →
    units (replaceTextInRange document (some range) text) =
      (units document).take range.1 ++ encode text ++ (units document).drop range.2

structure WebWindow (H : Type) where
  imeMirror : ImeMirror
  isComposing : Bool
  inputHandler : Option H
deriving DecidableEq

/-! ## The difference -/

def commonPrefix (old new : List UInt16) : Nat := ((old.zip new).takeWhile fun pair => pair.1 = pair.2).length

def suffixLength (old new : List UInt16) (caret : Option Nat) : Nat :=
  let anchored := (caret.map fun caret => new.length - caret).filter fun length =>
    length ≤ old.length ∧ old.drop (old.length - length) = new.drop (new.length - length)
  anchored.getD (commonPrefix old.reverse new.reverse)

def prefixLength (old new : List UInt16) (suffix : Nat) : Nat :=
  min (min (commonPrefix old new) (old.length - suffix)) (new.length - suffix)

variable {H : Type}

/-- The `input` listener. -/
def registerInput (handler : InputHandler H) (self : WebWindow H) (eventComposing : Bool) : WebWindow H :=
  if self.isComposing || eventComposing then self
  else
    let newValue := self.imeMirror.value
    let oldValue := self.imeMirror.text
    if newValue = oldValue then self
    else
      let oldUnits := encode oldValue
      let newUnits := encode newValue
      let suffix := suffixLength oldUnits newUnits self.imeMirror.element.selectionStart
      let start := prefixLength oldUnits newUnits suffix
      let insertedText := decodeLossy ((newUnits.take (newUnits.length - suffix)).drop start)
      let replacedOldEnd := oldUnits.length - suffix
      let removedBeforeSelection := self.imeMirror.selection.1 - start
      let removedAfterSelection := replacedOldEnd - self.imeMirror.selection.2
      match self.inputHandler with
      | none => self
      | some document =>
        match handler.selectedTextRange document with
        | none => self
        | some selection =>
          { self with
            inputHandler := some (handler.replaceTextInRange document
              (some (selection.1 - removedBeforeSelection, selection.2 + removedAfterSelection)) insertedText)
            imeMirror := self.imeMirror.adoptElementState }

end Pinrail.Ime

namespace Pinrail.Ime

open Lib Utf16

/-! ## Common prefixes -/

theorem commonPrefix_cons (a b : UInt16) (x y : List UInt16) :
    commonPrefix (a :: x) (b :: y) = if a = b then commonPrefix x y + 1 else 0 := by
  unfold commonPrefix
  rw [List.zip_cons_cons, List.takeWhile_cons]
  by_cases same : a = b
  · simp [same]
  · simp [same]

theorem commonPrefix_le (x y : List UInt16) : commonPrefix x y ≤ x.length ∧ commonPrefix x y ≤ y.length := by
  have few : commonPrefix x y ≤ (x.zip y).length := (List.takeWhile_sublist _).length_le
  rw [List.length_zip] at few
  omega

theorem take_commonPrefix {x y : List UInt16} {n : Nat} (few : n ≤ commonPrefix x y) : x.take n = y.take n := by
  induction x generalizing y n with
  | nil =>
    have := (commonPrefix_le [] y).1
    obtain rfl : n = 0 := by
      rw [List.length_nil] at this
      omega
    rfl
  | cons a x ih =>
    cases y with
    | nil =>
      obtain rfl : n = 0 := by simpa [commonPrefix] using few
      rfl
    | cons b y =>
      rw [commonPrefix_cons] at few
      split_ifs at few with same
      · cases n with
        | zero => rfl
        | succ n =>
          have rest : x.take n = y.take n := ih (by omega)
          rw [List.take_succ_cons, List.take_succ_cons, same, rest]
      · obtain rfl : n = 0 := by omega
        rfl

theorem commonPrefix_append (z x y : List UInt16) : commonPrefix (z ++ x) (z ++ y) = z.length + commonPrefix x y := by
  induction z with
  | nil => simp
  | cons a z ih =>
    rw [List.cons_append, List.cons_append, commonPrefix_cons, if_pos rfl, ih, List.length_cons]
    omega

theorem commonPrefix_within (x y after after' : List UInt16) :
    min (min (commonPrefix (x ++ after) (y ++ after')) x.length) y.length = commonPrefix x y := by
  induction x generalizing y with
  | nil =>
    have := (commonPrefix_le [] y).1
    simp at this ⊢
    omega
  | cons a x ih =>
    cases y with
    | nil => simp [commonPrefix]
    | cons b y =>
      rw [List.cons_append, List.cons_append, commonPrefix_cons, commonPrefix_cons]
      have rest := ih y
      split_ifs with same
      · simp only [List.length_cons]
        omega
      · simp

/-! ## The difference -/

theorem suffixLength_spec (old new : List UInt16) (caret : Option Nat) : suffixLength old new caret ≤ old.length ∧
    suffixLength old new caret ≤ new.length ∧
    old.drop (old.length - suffixLength old new caret) = new.drop (new.length - suffixLength old new caret) := by
  unfold suffixLength
  dsimp only
  cases anchored : (caret.map fun caret => new.length - caret).filter fun length =>
      length ≤ old.length ∧ old.drop (old.length - length) = new.drop (new.length - length) with
  | none =>
    rw [Option.getD_none]
    obtain ⟨left, right⟩ := commonPrefix_le old.reverse new.reverse
    rw [List.length_reverse] at left right
    refine ⟨left, right, ?_⟩
    have shared := congrArg List.reverse (take_commonPrefix (Nat.le_refl (commonPrefix old.reverse new.reverse)))
    rwa [List.reverse_take, List.reverse_take, List.reverse_reverse, List.reverse_reverse, List.length_reverse,
      List.length_reverse] at shared
  | some length =>
    rw [Option.filter_eq_some_iff, decide_eq_true_eq] at anchored
    obtain ⟨given, inside, shared⟩ := anchored
    obtain ⟨caret, -, rfl⟩ := Option.map_eq_some_iff.mp given
    exact ⟨inside, Nat.sub_le _ _, shared⟩

theorem prefixLength_spec (old new : List UInt16) (suffix : Nat) : prefixLength old new suffix ≤ old.length - suffix ∧
    prefixLength old new suffix ≤ new.length - suffix ∧
    old.take (prefixLength old new suffix) = new.take (prefixLength old new suffix) := by
  unfold prefixLength
  exact ⟨by omega, by omega, take_commonPrefix (by omega)⟩

section Recovered

variable {old text : List UInt16} {p q : Nat}

theorem suffixLength_caret (le : p ≤ q) (inside : q ≤ old.length) :
    suffixLength old (old.take p ++ text ++ old.drop q) (some (p + text.length)) = old.length - q := by
  have length : (old.take p ++ text ++ old.drop q).length = p + text.length + (old.length - q) := by
    simp
    omega
  have after : old.drop (old.length - (old.length - q)) =
      (old.take p ++ text ++ old.drop q).drop ((old.take p ++ text ++ old.drop q).length - (old.length - q)) := by
    have front : (old.take p ++ text).length = p + text.length := by
      simp
      omega
    rw [length, Nat.sub_sub_self inside, Nat.add_sub_cancel, ← front, List.drop_left]
  unfold suffixLength
  dsimp only
  rw [Option.map_some, length, Nat.add_sub_cancel_left, Option.filter_some, ← length, if_pos, Option.getD_some]
  exact decide_eq_true ⟨Nat.sub_le _ _, after⟩

theorem prefixLength_shared (le : p ≤ q) (inside : q ≤ old.length) : prefixLength old (old.take p ++ text ++ old.drop q)
    (old.length - q) = p + commonPrefix ((old.take q).drop p) text := by
  have length : (old.take p ++ text ++ old.drop q).length = p + text.length + (old.length - q) := by
    simp
    omega
  have split : old = old.take p ++ ((old.take q).drop p ++ old.drop q) := by
    have front : old.take p ++ (old.take q).drop p = old.take q := by
      have cut := List.take_append_drop p (old.take q)
      rwa [List.take_take, Nat.min_eq_left le] at cut
    rw [← List.append_assoc, front, List.take_append_drop]
  have prefix_ : (old.take p).length = p := by
    simp
    omega
  have replaced : ((old.take q).drop p).length = q - p := by
    simp
    omega
  have shared : commonPrefix old (old.take p ++ text ++ old.drop q) =
      p + commonPrefix ((old.take q).drop p ++ old.drop q) (text ++ old.drop q) := by
    have apart := commonPrefix_append (old.take p) ((old.take q).drop p ++ old.drop q) (text ++ old.drop q)
    rwa [← split, prefix_, ← List.append_assoc] at apart
  have within := commonPrefix_within ((old.take q).drop p) text (old.drop q) (old.drop q)
  rw [prefixLength, length, shared]
  omega

end Recovered

/-! ## The edit -/

variable {H : Type} {handler : InputHandler H} {window : WebWindow H} {document : H} {p q w : Nat} {t : Str}

/-- The browser replaces `p..q` of the mirrored text by `t`, around the selection, and leaves the caret
after it. The text is mirrored from the offset `w` of the document, with its selection. -/
structure BrowserEdit (handler : InputHandler H) (window : WebWindow H) (document : H) (p q w : Nat) (t : Str) :
    Prop where
  ready : window.isComposing = false
  handled : window.inputHandler = some document
  before : p ≤ window.imeMirror.selection.1
  ordered : window.imeMirror.selection.1 ≤ window.imeMirror.selection.2
  after : window.imeMirror.selection.2 ≤ q
  inside : q ≤ (encode window.imeMirror.text).length
  value : window.imeMirror.element.value =
    (encode window.imeMirror.text).take p ++ encode t ++ (encode window.imeMirror.text).drop q
  caret : window.imeMirror.element.selectionStart = some (p + (encode t).length) ∧
    window.imeMirror.element.selectionEnd = some (p + (encode t).length)
  mirrored : ∃ front back, handler.units document = front ++ encode window.imeMirror.text ++ back ∧ front.length = w
  selected : handler.selectedTextRange document =
    some (w + window.imeMirror.selection.1, w + window.imeMirror.selection.2)

/-- The edit is made in the document, whose window is the value of the element then, and the element is the
baseline. -/
structure Imported (handler : InputHandler H) (window after : WebWindow H) (document : H) (p q w : Nat) (t : Str) :
    Prop where
  document : ∃ document', after.inputHandler = some document' ∧
    handler.units document' = (handler.units document).take (w + p) ++ encode t ++ (handler.units document).drop (w + q) ∧
    handler.units document' = (handler.units document).take w ++ after.imeMirror.element.value ++
      (handler.units document).drop (w + (encode window.imeMirror.text).length)
  text : after.imeMirror.text = after.imeMirror.value
  selection : after.imeMirror.element.selectionStart = some after.imeMirror.selection.1 ∧
    after.imeMirror.element.selectionEnd = some after.imeMirror.selection.2

def Recoverable (window : WebWindow H) (p q : Nat) (t : Str) : Prop :=
  WellFormed window.imeMirror.element.value ∧
    if ((encode window.imeMirror.text).take q).drop p = encode t then window.imeMirror.selection.1 = q
    else p + commonPrefix (((encode window.imeMirror.text).take q).drop p) (encode t) ≤ window.imeMirror.selection.1 ∧
      WellFormed ((encode t).drop (commonPrefix (((encode window.imeMirror.text).take q).drop p) (encode t)))

theorem splice {units front text back : List UInt16} (inserted : List UInt16) {i j : Nat} (whole : units = front ++ text ++ back)
    (offset : front.length = w) (le : i ≤ j) (inside : j ≤ text.length) :
    units.take (w + i) ++ inserted ++ units.drop (w + j) =
      front ++ (text.take i ++ inserted ++ text.drop j) ++ back := by
  subst whole offset
  have before : (front ++ text ++ back).take (front.length + i) = front ++ text.take i := by
    rw [List.append_assoc, List.take_length_add_append, List.take_append_of_le_length (by omega)]
  have after : (front ++ text ++ back).drop (front.length + j) = text.drop j ++ back := by
    rw [List.append_assoc, List.drop_length_add_append, List.drop_append_of_le_length inside]
  rw [before, after]
  simp only [List.append_assoc]

theorem registerInput_document (edit : BrowserEdit handler window document p q w t) {front back : List UInt16}
    (whole : handler.units document = front ++ encode window.imeMirror.text ++ back) (offset : front.length = w)
    (changed : window.imeMirror.value ≠ window.imeMirror.text) {suffix start : Nat}
    (suffixEq : suffixLength (encode window.imeMirror.text) (encode window.imeMirror.value)
      window.imeMirror.element.selectionStart = suffix)
    (startEq : prefixLength (encode window.imeMirror.text) (encode window.imeMirror.value) suffix = start) :
    ∃ document', (registerInput handler window false).inputHandler = some document' ∧
      (registerInput handler window false).imeMirror = window.imeMirror.adoptElementState ∧
      handler.units document' = front ++
        ((encode window.imeMirror.text).take (min window.imeMirror.selection.1 start) ++
          encode (decodeLossy (((encode window.imeMirror.value).take
            ((encode window.imeMirror.value).length - suffix)).drop start)) ++
          (encode window.imeMirror.text).drop
            (max window.imeMirror.selection.2 ((encode window.imeMirror.text).length - suffix))) ++ back := by
  have before := edit.before
  have ordered := edit.ordered
  have inside := edit.inside
  have after := edit.after
  set inserted := decodeLossy (((encode window.imeMirror.value).take
    ((encode window.imeMirror.value).length - suffix)).drop start) with insertedEq
  set range := (w + window.imeMirror.selection.1 - (window.imeMirror.selection.1 - start),
    w + window.imeMirror.selection.2 + ((encode window.imeMirror.text).length - suffix - window.imeMirror.selection.2))
    with rangeEq
  have applied : registerInput handler window false =
      { window with
        inputHandler := some (handler.replaceTextInRange document (some range) inserted)
        imeMirror := window.imeMirror.adoptElementState } := by
    simp [registerInput, edit.ready, changed, edit.handled, edit.selected, suffixEq, startEq, insertedEq, rangeEq]
  have length : (handler.units document).length = w + (encode window.imeMirror.text).length + back.length := by
    rw [whole, List.length_append, List.length_append, offset]
  have low : range.1 = w + min window.imeMirror.selection.1 start := by
    rw [rangeEq]
    dsimp only
    omega
  have high : range.2 = w + max window.imeMirror.selection.2 ((encode window.imeMirror.text).length - suffix) := by
    rw [rangeEq]
    dsimp only
    omega
  rw [applied]
  refine ⟨_, rfl, rfl, ?_⟩
  rw [handler.replaces document range inserted (by omega) (by omega), low, high]
  exact splice _ whole offset (by omega) (by omega)

theorem forall₂_antisymm {units kept : List UInt16} (there : List.Forall₂ Kept units kept)
    (back : List.Forall₂ Kept kept units) : units = kept := by
  induction there with
  | nil => rfl
  | cons first _ ih =>
    cases back with
    | cons back rest => rw [first.antisymm back, ih rest]

theorem kept_refl (units : List UInt16) : List.Forall₂ Kept units units := List.forall₂_same.mpr fun _ _ => .inl rfl

theorem wellFormed_iff {units : List UInt16} : WellFormed units ↔ encode (decodeLossy units) = units := .rfl

theorem value_split (old new : List UInt16) (suffix : Nat) : new = new.take (prefixLength old new suffix) ++
      (new.take (new.length - suffix)).drop (prefixLength old new suffix) ++ new.drop (new.length - suffix) := by
  obtain ⟨-, inside, -⟩ := prefixLength_spec old new suffix
  have front : new.take (prefixLength old new suffix) ++
      (new.take (new.length - suffix)).drop (prefixLength old new suffix) = new.take (new.length - suffix) := by
    have cut := List.take_append_drop (prefixLength old new suffix) (new.take (new.length - suffix))
    rwa [List.take_take, Nat.min_eq_left inside] at cut
  rw [front, List.take_append_drop]

theorem difference_iff {old new text : List UInt16} {p q s e : Nat} (before : p ≤ s) (ordered : s ≤ e) (after : e ≤ q)
    (inside : q ≤ old.length) (value : new = old.take p ++ text ++ old.drop q) {units : List UInt16}
    (unitsEq : encode (decodeLossy new) = units) {suffix start : Nat}
    (suffixEq : suffixLength old units (some (p + text.length)) = suffix)
    (startEq : prefixLength old units suffix = start) :
    old.take (min s start) ++ encode (decodeLossy ((units.take (units.length - suffix)).drop start)) ++
        old.drop (max e (old.length - suffix)) = new ↔
      WellFormed new ∧ p + commonPrefix ((old.take q).drop p) text ≤ s ∧
        WellFormed (text.drop (commonPrefix ((old.take q).drop p) text)) := by
  have kept := kept_encode new
  rw [unitsEq] at kept
  obtain ⟨suffixOld, suffixNew, sameSuffix⟩ := suffixLength_spec old units (some (p + text.length))
  rw [suffixEq] at suffixOld suffixNew sameSuffix
  obtain ⟨startOld, startNew, samePrefix⟩ := prefixLength_spec old units suffix
  have split := value_split old units suffix
  rw [startEq] at startOld startNew samePrefix split
  -- What the new value gives, where it is a text.
  have recovered (same : units = new) : suffix = old.length - q ∧ start = p + commonPrefix ((old.take q).drop p) text ∧
      (units.take (units.length - suffix)).drop start = text.drop (commonPrefix ((old.take q).drop p) text) := by
    rw [value] at same
    rw [same, suffixLength_caret (by omega) inside] at suffixEq
    rw [same, ← suffixEq, prefixLength_shared (by omega) inside] at startEq
    refine ⟨suffixEq.symm, startEq.symm, ?_⟩
    have front : (old.take p ++ text).length = p + text.length := by
      simp
      omega
    have length : units.length - suffix = (old.take p ++ text).length := by
      rw [same, ← suffixEq, front]
      simp
      omega
    have first : (old.take p).length = p := by
      simp
      omega
    rw [length, same, List.take_left, ← startEq]
    nth_rewrite 1 [← first]
    rw [List.drop_length_add_append]
  constructor
  · intro same
    have sized := congrArg List.length same
    have insertedLength := (kept_encode ((units.take (units.length - suffix)).drop start)).length_eq
    have keptLength := kept.length_eq
    simp only [List.length_append, List.length_take, List.length_drop] at sized insertedLength
    have low : min s start = start := by omega
    have high : max e (old.length - suffix) = old.length - suffix := by omega
    rw [low, high, samePrefix, sameSuffix] at same
    -- Nothing of the value was lost when it was decoded.
    have back : List.Forall₂ Kept units new := by
      have whole := List.rel_append (List.rel_append (kept_refl (units.take start))
        (kept_encode ((units.take (units.length - suffix)).drop start))) (kept_refl (units.drop (units.length - suffix)))
      dsimp only at whole
      rwa [same, ← split] at whole
    have exact_ : units = new := (forall₂_antisymm kept back).symm
    obtain ⟨suffixIs, startIs, insertedIs⟩ := recovered exact_
    refine ⟨unitsEq.trans exact_, by omega, ?_⟩
    have both := (same.trans exact_.symm).trans split
    rw [← insertedIs, wellFormed_iff]
    exact List.append_cancel_left (List.append_cancel_right both)
  · rintro ⟨wellFormed, low, insertedWellFormed⟩
    have exact_ : units = new := unitsEq.symm.trans wellFormed
    obtain ⟨suffixIs, startIs, insertedIs⟩ := recovered exact_
    rw [insertedIs, insertedWellFormed, ← insertedIs, Nat.min_eq_right (by omega), Nat.max_eq_right (by omega),
      samePrefix, sameSuffix, ← split, exact_]

theorem changed_iff (edit : BrowserEdit handler window document p q w t)
    (changed : window.imeMirror.value ≠ window.imeMirror.text) :
    Imported handler window (registerInput handler window false) document p q w t ↔
    WellFormed window.imeMirror.element.value ∧ p + commonPrefix (((encode window.imeMirror.text).take q).drop p)
    (encode t) ≤ window.imeMirror.selection.1 ∧
    WellFormed ((encode t).drop (commonPrefix (((encode window.imeMirror.text).take q).drop p) (encode t))) := by
  obtain ⟨front, back, whole, offset⟩ := edit.mirrored
  obtain ⟨document', handled, mirror, units⟩ := registerInput_document edit whole offset changed rfl rfl
  rw [edit.caret.1] at units
  have difference := difference_iff edit.before edit.ordered edit.after edit.inside edit.value
    (show encode (decodeLossy window.imeMirror.element.value) = encode window.imeMirror.value from rfl) rfl rfl
  have target := splice (encode t) whole offset
    (Nat.le_trans edit.before (Nat.le_trans edit.ordered edit.after)) edit.inside
  have window_ := splice window.imeMirror.element.value whole offset (Nat.zero_le _) (Nat.le_refl _)
  rw [← edit.value] at target
  rw [Nat.add_zero, List.take_zero, List.nil_append, List.drop_length, List.append_nil] at window_
  rw [← difference]
  constructor
  · intro imported
    obtain ⟨other, handled', replaced, -⟩ := imported.document
    obtain rfl : document' = other := Option.some.inj (handled.symm.trans handled')
    rw [units, target] at replaced
    exact List.append_cancel_left (List.append_cancel_right replaced)
  · intro same
    refine ⟨⟨document', handled, ?_, ?_⟩, ?_, ?_⟩
    · rw [units, same, target]
    · rw [units, same, mirror]
      exact window_.symm
    · rw [mirror]
      rfl
    · rw [mirror]
      simp [ImeMirror.adoptElementState, edit.caret]

theorem replaced_eq_iff {old text : List UInt16} {p q : Nat} (le : p ≤ q) :
    (old.take q).drop p = text ↔ old.take p ++ text ++ old.drop q = old := by
  have front : old.take p ++ (old.take q).drop p = old.take q := by
    have cut := List.take_append_drop p (old.take q)
    rwa [List.take_take, Nat.min_eq_left le] at cut
  have split : old.take p ++ (old.take q).drop p ++ old.drop q = old := by rw [front, List.take_append_drop]
  constructor
  · rintro rfl
    exact split
  · intro same
    exact (List.append_cancel_left (List.append_cancel_right (same.trans split.symm))).symm

/-- An edit is imported exactly where it can be recovered. -/
theorem register_input_imports (handler : InputHandler H) (window : WebWindow H) (document : H) (p q w : Nat) (t : Str)
    (edit : BrowserEdit handler window document p q w t) :
    Imported handler window (registerInput handler window false) document p q w t ↔ Recoverable window p q t := by
  have before := edit.before
  have ordered := edit.ordered
  have after := edit.after
  have le : p ≤ q := by omega
  have replacedEq : ((encode window.imeMirror.text).take q).drop p = encode t ↔
      window.imeMirror.element.value = encode window.imeMirror.text := by
    rw [edit.value]
    exact replaced_eq_iff le
  by_cases changed : window.imeMirror.value = window.imeMirror.text
  · -- The listener sees no change.
    have same : registerInput handler window false = window := by simp [registerInput, changed]
    have changedUnits : encode window.imeMirror.value = encode window.imeMirror.text := congrArg encode changed
    obtain ⟨front, back, whole, offset⟩ := edit.mirrored
    have target := splice (encode t) whole offset le edit.inside
    rw [← edit.value] at target
    have size (unchanged : ((encode window.imeMirror.text).take q).drop p = encode t) : p + (encode t).length = q := by
      have inside := edit.inside
      rw [← unchanged, List.length_drop, List.length_take]
      omega
    rw [same, Recoverable]
    constructor
    · intro imported
      obtain ⟨document', handled, replaced, -⟩ := imported.document
      obtain rfl : document = document' := Option.some.inj (edit.handled.symm.trans handled)
      rw [target] at replaced
      have unchanged := List.append_cancel_left (List.append_cancel_right (replaced.symm.trans whole))
      have caret := Option.some.inj (edit.caret.1.symm.trans imported.selection.1)
      rw [if_pos (replacedEq.mpr unchanged), unchanged, ← caret]
      exact ⟨wellFormed_encode _, size (replacedEq.mpr unchanged)⟩
    · rintro ⟨wellFormed, recoverable⟩
      have unchanged : window.imeMirror.element.value = encode window.imeMirror.text := wellFormed.symm.trans changedUnits
      rw [if_pos (replacedEq.mpr unchanged)] at recoverable
      have caret := size (replacedEq.mpr unchanged)
      have window_ := splice window.imeMirror.element.value whole offset (Nat.zero_le _) (Nat.le_refl _)
      rw [Nat.add_zero, List.take_zero, List.nil_append, List.drop_length, List.append_nil] at window_
      refine ⟨⟨document, edit.handled, ?_, ?_⟩, changed.symm, ?_, ?_⟩
      · rw [target, unchanged, whole]
      · rw [window_, unchanged, whole]
      · rw [edit.caret.1, caret, recoverable]
      · rw [edit.caret.2, caret]
        congr 1
        omega
  · rw [changed_iff edit changed, Recoverable]
    have differs : ((encode window.imeMirror.text).take q).drop p ≠ encode t := by
      intro same
      rw [ImeMirror.value, replacedEq.mp same, decodeLossy_encode] at changed
      exact changed rfl
    rw [if_neg differs]

/-! ## A plain document -/

def plainText : InputHandler (List UInt16 × Nat × Nat) where
  units := Prod.fst
  selectedTextRange document := some document.2
  replaceTextInRange document range text :=
    let (start, stop) := range.getD document.2
    (document.1.take start ++ encode text ++ document.1.drop stop, start + (encode text).length, start + (encode text).length)
  replaces _ _ _ _ _ := rfl

/-- A document that is one word, with the caret in it, where the browser has replaced the word. -/
def replacedWord (caret : Nat) (word t : Str) : WebWindow (List UInt16 × Nat × Nat) where
  imeMirror := {
    element := ⟨encode t, some (encode t).length, some (encode t).length⟩
    text := word
    selection := (caret, caret) }
  isComposing := false
  inputHandler := some (encode word, caret, caret)

theorem replacedWord_edit (caret : Nat) (word t : Str) (inside : caret ≤ (encode word).length) :
    BrowserEdit plainText (replacedWord caret word t) (encode word, caret, caret) 0 (encode word).length 0 t where
  ready := rfl
  handled := rfl
  before := Nat.zero_le _
  ordered := Nat.le_refl _
  after := inside
  inside := Nat.le_refl _
  value := by simp [replacedWord]
  caret := by simp [replacedWord]
  mirrored := ⟨[], [], by simp [plainText, replacedWord], rfl⟩
  selected := by simp [plainText, replacedWord]

/-- A word is corrected at its end. -/
theorem corrected_imports : Imported plainText (replacedWord 3 "teh".toList "the".toList)
      (registerInput plainText (replacedWord 3 "teh".toList "the".toList) false)
      (encode "teh".toList, 3, 3) 0 3 0 "the".toList := by
  refine (register_input_imports plainText _ _ 0 3 0 _ (replacedWord_edit 3 "teh".toList "the".toList (by decide))).mpr ?_
  unfold Recoverable
  decide

/-- Where the caret is inside of the word, what is before it is lost. -/
theorem completed_loses :
    BrowserEdit plainText (replacedWord 3 "hello".toList "hello!".toList) (encode "hello".toList, 3, 3) 0 5 0
      "hello!".toList ∧
    ¬ Imported plainText (replacedWord 3 "hello".toList "hello!".toList)
      (registerInput plainText (replacedWord 3 "hello".toList "hello!".toList) false)
      (encode "hello".toList, 3, 3) 0 5 0 "hello!".toList := by
  refine ⟨replacedWord_edit 3 "hello".toList "hello!".toList (by decide), fun imported => ?_⟩
  obtain ⟨document', handled, replaced, -⟩ := imported.document
  have made : (registerInput plainText (replacedWord 3 "hello".toList "hello!".toList) false).inputHandler.map
      plainText.units = some (encode "hel!".toList) := by decide
  rw [handled, Option.map_some, replaced] at made
  revert made
  decide

end Pinrail.Ime

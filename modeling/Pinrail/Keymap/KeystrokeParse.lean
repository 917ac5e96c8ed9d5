import Pinrail.Keymap.Binding
import Pinrail.Lib.Utf8

/-!
# Parsing and printing keystrokes

`Keystroke::parse` and `unparse` of `platform/keystroke.rs` as they are on Linux: modifiers and a key
separated by `-`, which is a key as well.
-/

namespace Pinrail.Keymap
open Lib

structure InvalidKeystrokeError where
  keystroke : Str
deriving DecidableEq

def makeAsciiLowercase (s : Str) : Str := s.map Char.toLower

def eqIgnoreAsciiCase (s other : Str) : Bool := makeAsciiLowercase s == makeAsciiLowercase other

namespace Keystroke

def setModifier (component : Str) (modifiers : Modifiers) : Option Modifiers :=
  if eqIgnoreAsciiCase component ['c', 't', 'r', 'l'] then
    some { modifiers with control := true }
  else if eqIgnoreAsciiCase component ['a', 'l', 't'] then
    some { modifiers with alt := true }
  else if eqIgnoreAsciiCase component ['s', 'h', 'i', 'f', 't'] then
    some { modifiers with shift := true }
  else if eqIgnoreAsciiCase component ['f', 'n'] then
    some { modifiers with function := true }
  else if eqIgnoreAsciiCase component ['s', 'e', 'c', 'o', 'n', 'd', 'a', 'r', 'y'] then
    some { modifiers with control := true }
  else if eqIgnoreAsciiCase component ['c', 'm', 'd'] ||
      eqIgnoreAsciiCase component ['s', 'u', 'p', 'e', 'r'] ||
      eqIgnoreAsciiCase component ['w', 'i', 'n'] then
    some { modifiers with platform := true }
  else none

/-- The loop of `parse`: the modifiers, the key and the character that was typed. -/
def parseComponents (source : Str) :
    List Str → Modifiers → Option Str → Option Str →
    Except InvalidKeystrokeError (Modifiers × Option Str × Option Str)
  | [], modifiers, key, keyChar => .ok (modifiers, key, keyChar)
  | component :: components, modifiers, key, keyChar =>
    match setModifier component modifiers with
    | some modifiers => parseComponents source components modifiers key keyChar
    | none =>
      match components with
      | next :: components =>
        if next.isEmpty && source.getLast? == some '-' then
          .ok (modifiers, some ['-'], keyChar)
        else if 1 < byteLen next && next.head? == some '>' then
          parseComponents source components modifiers (some component) (some (next.drop 1))
        else .error ⟨source⟩
      | [] =>
        if byteLen component == 1 && component.head?.any Char.isUpper then
          .ok ({ modifiers with shift := true }, some (makeAsciiLowercase component), keyChar)
        else .ok (modifiers, some (makeAsciiLowercase component), keyChar)

def modifierAsKey (modifiers : Modifiers) : Modifiers × Option Str :=
  if modifiers.shift then
    ({ modifiers with shift := false }, some ['s', 'h', 'i', 'f', 't'])
  else if modifiers.control then
    ({ modifiers with control := false }, some ['c', 'o', 'n', 't', 'r', 'o', 'l'])
  else if modifiers.alt then
    ({ modifiers with alt := false }, some ['a', 'l', 't'])
  else if modifiers.platform then
    ({ modifiers with platform := false }, some ['p', 'l', 'a', 't', 'f', 'o', 'r', 'm'])
  else if modifiers.function then
    ({ modifiers with function := false }, some ['f', 'u', 'n', 'c', 't', 'i', 'o', 'n'])
  else (modifiers, none)

def parse (source : Str) : Except InvalidKeystrokeError Keystroke := do
  let (modifiers, key, keyChar) ← parseComponents source (source.splitOn '-') {} none none
  let (modifiers, key) := match key with
    | some key => (modifiers, some key)
    | none => modifierAsKey modifiers
  match key with
  | some key => return ⟨modifiers, key, keyChar⟩
  | none => throw ⟨source⟩

/-- The free function `unparse` is inlined. -/
def unparse (self : Keystroke) : Str :=
  (if self.modifiers.function then ['f', 'n', '-'] else []) ++
  ((if self.modifiers.control then ['c', 't', 'r', 'l', '-'] else []) ++
  ((if self.modifiers.alt then ['a', 'l', 't', '-'] else []) ++
  ((if self.modifiers.platform then ['s', 'u', 'p', 'e', 'r', '-'] else []) ++
  ((if self.modifiers.shift then ['s', 'h', 'i', 'f', 't', '-'] else []) ++ self.key))))

/-! ## Lower case -/

theorem isUpper_iff {c : Char} : c.isUpper = true ↔ 65 ≤ c.toNat ∧ c.toNat ≤ 90 := by
  change decide ('A'.val ≤ c.val ∧ c.val ≤ 'Z'.val) = true ↔ _
  rw [decide_eq_true_eq, UInt32.le_iff_toNat_le, UInt32.le_iff_toNat_le]
  exact Iff.rfl

theorem toLower_of_isUpper {c : Char} (upper : c.isUpper = true) : c.toLower.toNat = c.toNat + 32 := by
  have bounds := isUpper_iff.mp upper
  have within : c.val ≥ 'A'.val ∧ c.val ≤ 'Z'.val := by
    simp only [ge_iff_le, UInt32.le_iff_toNat_le]
    exact bounds
  have lower : c.toLower.val = c.val + 32 := congrArg Char.val (dif_pos within)
  change c.toLower.val.toNat = c.val.toNat + 32
  rw [lower]
  rw [UInt32.toNat_add]
  exact Nat.mod_eq_of_lt (show c.toNat + 32 < 2 ^ 32 by omega)

theorem toLower_of_not_isUpper {c : Char} (other : ¬ c.isUpper = true) : c.toLower = c := by
  refine dif_neg fun within => ?_
  simp only [ge_iff_le, UInt32.le_iff_toNat_le] at within
  exact other (isUpper_iff.mpr within)

theorem not_isUpper_toLower (c : Char) : ¬ c.toLower.isUpper = true := by
  intro upper
  by_cases capital : c.isUpper = true
  · have bounds := isUpper_iff.mp upper
    have bounds' := isUpper_iff.mp capital
    rw [toLower_of_isUpper capital] at bounds
    omega
  · rw [toLower_of_not_isUpper capital] at upper
    exact capital upper

theorem dash_of_toLower {c : Char} (dash : c.toLower = '-') : c = '-' := by
  by_cases capital : c.isUpper = true
  · have bounds := isUpper_iff.mp capital
    have moved := toLower_of_isUpper capital
    rw [dash] at moved
    have code : '-'.toNat = 45 := rfl
    omega
  · rwa [toLower_of_not_isUpper capital] at dash

theorem makeAsciiLowercase_idem (s : Str) : makeAsciiLowercase (makeAsciiLowercase s) = makeAsciiLowercase s := by
  rw [makeAsciiLowercase, makeAsciiLowercase, List.map_map]
  exact List.map_congr_left fun c _ => toLower_of_not_isUpper (not_isUpper_toLower c)

theorem eqIgnoreAsciiCase_lowercase (s other : Str) :
    eqIgnoreAsciiCase (makeAsciiLowercase s) other = eqIgnoreAsciiCase s other := by
  rw [eqIgnoreAsciiCase, eqIgnoreAsciiCase, makeAsciiLowercase_idem]

theorem setModifier_lowercase (component : Str) (modifiers : Modifiers) :
    setModifier (makeAsciiLowercase component) modifiers = setModifier component modifiers := by
  simp only [setModifier, eqIgnoreAsciiCase_lowercase]

theorem setModifier_eq_none {component : Str} {modifiers : Modifiers} (none : setModifier component modifiers = none)
    (others : Modifiers) : setModifier component others = .none := by
  unfold setModifier at none ⊢
  split_ifs at none ⊢
  rfl

/-! ## What is parsed -/

structure Direct (key : Str) : Prop where
  dashless : '-' ∉ key
  lowercase : makeAsciiLowercase key = key
  unmodified : setModifier key {} = none

theorem Direct.of_component {component : Str} {modifiers : Modifiers} (dashless : '-' ∉ component)
    (unmodified : setModifier component modifiers = none) : Direct (makeAsciiLowercase component) where
  dashless member := by
    obtain ⟨c, inside, dash⟩ := List.mem_map.mp member
    exact dashless (dash_of_toLower dash ▸ inside)
  lowercase := makeAsciiLowercase_idem component
  unmodified := by
    rw [setModifier_lowercase]
    exact setModifier_eq_none unmodified {}

theorem parseComponents_keyChar {source : Str} {components : List Str} {modifiers : Modifiers}
    {key keyChar : Option Str} {result : Modifiers × Option Str × Option Str} (typed : keyChar ≠ none)
    (parsed : parseComponents source components modifiers key keyChar = .ok result) : result.2.2 ≠ none := by
  fun_induction parseComponents source components modifiers key keyChar with
  | case1 modifiers key keyChar =>
    cases parsed
    exact typed
  | case2 component components modifiers key keyChar modifiers' named ih => exact ih typed parsed
  | case3 component modifiers key keyChar unnamed next components dash =>
    cases parsed
    exact typed
  | case4 component modifiers key keyChar unnamed next components dash char ih =>
    exact ih (Option.some_ne_none _) parsed
  | case5 component modifiers key keyChar unnamed next components dash char => cases parsed
  | case6 modifiers key keyChar component unnamed upper =>
    cases parsed
    exact typed
  | case7 modifiers key keyChar component unnamed upper =>
    cases parsed
    exact typed

theorem parseComponents_key {source : Str} {components : List Str} {modifiers modifiers' : Modifiers}
    {key : Option Str} (dashless : ∀ component ∈ components, '-' ∉ component)
    (parsed : parseComponents source components modifiers none none = .ok (modifiers', key, none)) :
    ∀ k ∈ key, k = ['-'] ∨ Direct k := by
  induction components generalizing modifiers with
  | nil =>
    cases parsed
    exact nofun
  | cons component components ih =>
    have own := dashless component List.mem_cons_self
    unfold parseComponents at parsed
    split at parsed
    · exact ih (fun other member => dashless other (List.mem_cons_of_mem _ member)) parsed
    · rename_i unnamed
      split at parsed
      · split_ifs at parsed
        · cases parsed
          intro k found
          cases found
          exact .inl rfl
        · exact absurd rfl (parseComponents_keyChar (Option.some_ne_none _) parsed)
      · split_ifs at parsed
        · cases parsed
          intro k found
          cases found
          exact .inr (.of_component own unnamed)
        · cases parsed
          intro k found
          cases found
          exact .inr (.of_component own unnamed)

/-- A keystroke that `parse` returns: its key is `-`, or read back as itself, or a modifier that would
be read back as the key. -/
inductive Readable : Keystroke → Prop where
  | dash {modifiers : Modifiers} : Readable ⟨modifiers, ['-'], none⟩
  | direct {modifiers : Modifiers} {key : Str} (direct : Direct key) : Readable ⟨modifiers, key, none⟩
  | shift {modifiers : Modifiers} (released : modifiers.shift = false) :
      Readable ⟨modifiers, ['s', 'h', 'i', 'f', 't'], none⟩
  | alt {modifiers : Modifiers} (released : modifiers.alt = false) (noShift : modifiers.shift = false)
      (noControl : modifiers.control = false) : Readable ⟨modifiers, ['a', 'l', 't'], none⟩

theorem not_mem_of_mem_splitOn {separator : Char} {source : Str} :
    ∀ component ∈ source.splitOn separator, separator ∉ component := by
  induction source with
  | nil =>
    intro component member
    rw [List.splitOn_nil, List.mem_singleton] at member
    rw [member]
    exact List.not_mem_nil
  | cons c source ih =>
    intro component member
    rw [List.splitOn_cons_eq_if_modifyHead] at member
    split_ifs at member with separates
    · rcases List.mem_cons.mp member with rfl | member
      · exact List.not_mem_nil
      · exact ih component member
    · obtain ⟨first, rest, split⟩ := List.exists_cons_of_ne_nil (List.splitOn_ne_nil separator source)
      rw [split] at ih member
      rw [List.modifyHead_cons] at member
      rcases List.mem_cons.mp member with rfl | member
      · intro inside
        rcases List.mem_cons.mp inside with rfl | inside
        · exact separates (beq_self_eq_true _)
        · exact ih first List.mem_cons_self inside
      · exact ih component (List.mem_cons_of_mem _ member)

theorem readable_of_modifierAsKey {modifiers modifiers' : Modifiers} {key : Str}
    (taken : modifierAsKey modifiers = (modifiers', some key)) : Readable ⟨modifiers', key, none⟩ := by
  unfold modifierAsKey at taken
  split_ifs at taken with shift control alt
  · cases taken
    exact .shift rfl
  · cases taken
    exact .direct (by constructor <;> decide)
  · cases taken
    exact .alt rfl (Bool.eq_false_of_not_eq_true shift) (Bool.eq_false_of_not_eq_true control)
  · cases taken
    exact .direct (by constructor <;> decide)
  · cases taken
    exact .direct (by constructor <;> decide)
  · cases taken

theorem readable_of_parse {source : Str} {k : Keystroke} (parsed : parse source = .ok k)
    (plain : k.keyChar = none) : Readable k := by
  obtain ⟨⟨modifiers, key, keyChar⟩, components, parsed⟩ := bind_eq_ok.mp parsed
  cases key with
  | some key =>
    cases parsed
    obtain rfl : keyChar = none := plain
    rcases parseComponents_key not_mem_of_mem_splitOn components key rfl with rfl | direct
    · exact .dash
    · exact .direct direct
  | none =>
    obtain ⟨modifiers', key, taken⟩ : ∃ modifiers' key, modifierAsKey modifiers = (modifiers', key) := ⟨_, _, rfl⟩
    simp only [taken] at parsed
    cases key with
    | some key =>
      cases parsed
      obtain rfl : keyChar = none := plain
      exact readable_of_modifierAsKey taken
    | none => cases parsed

/-! ## Reading back -/

theorem parseComponents_named (name : Str) {source rest : Str} {set : Modifiers → Modifiers}
    (dashless : '-' ∉ name) (named : ∀ modifiers, setModifier name modifiers = some (set modifiers))
    (written : Bool) (modifiers : Modifiers) :
    parseComponents source (((if written then name ++ ['-'] else []) ++ rest).splitOn '-') modifiers
        none none =
      parseComponents source (rest.splitOn '-') (if written then set modifiers else modifiers) none
        none := by
  cases written with
  | false => rfl
  | true =>
    rw [if_pos rfl, if_pos rfl, List.append_assoc, List.singleton_append,
      List.splitOn_append_cons_self_of_not_mem dashless, parseComponents.eq_def]
    simp only [named]

theorem parseComponents_unparse (source : Str) (k : Keystroke) : parseComponents source (k.unparse.splitOn '-')
    {} none none = parseComponents source (k.key.splitOn '-') k.modifiers none none := by
  obtain ⟨modifiers, key, keyChar⟩ := k
  refine (parseComponents_named ['f', 'n'] (by decide) (fun _ => rfl) modifiers.function _).trans ?_
  refine (parseComponents_named ['c', 't', 'r', 'l'] (by decide) (fun _ => rfl) modifiers.control _).trans ?_
  refine (parseComponents_named ['a', 'l', 't'] (by decide) (fun _ => rfl) modifiers.alt _).trans ?_
  refine (parseComponents_named ['s', 'u', 'p', 'e', 'r'] (by decide) (fun _ => rfl) modifiers.platform _).trans ?_
  refine (parseComponents_named ['s', 'h', 'i', 'f', 't'] (by decide) (fun _ => rfl) modifiers.shift _).trans ?_
  obtain ⟨control, alt, shift, platform, function⟩ := modifiers
  cases control <;> cases alt <;> cases shift <;> cases platform <;> cases function <;> rfl

theorem getLast?_unparse_dash (modifiers : Modifiers) : (unparse ⟨modifiers, ['-'], none⟩).getLast? = some '-' := by
  simp only [unparse, ← List.append_assoc, List.getLast?_concat]

theorem parseComponents_direct (source : Str) {key : Str} (direct : Direct key) (modifiers : Modifiers) :
    parseComponents source (key.splitOn '-') modifiers none none = .ok (modifiers, some key, none) := by
  have small : (byteLen key == 1 && key.head?.any Char.isUpper) = false := by
    cases key with
    | nil => rfl
    | cons c key =>
      have same : c.toLower = c := (List.cons.inj direct.lowercase).1
      have lower := not_isUpper_toLower c
      rw [same, Bool.not_eq_true] at lower
      rw [List.head?_cons, Option.any_some, lower, Bool.and_false]
  rw [List.splitOn_eq_singleton direct.dashless, parseComponents.eq_def]
  simp only [setModifier_eq_none direct.unmodified, small, direct.lowercase]
  rfl

/-- What `unparse` writes for a parsed keystroke is parsed as that keystroke. -/
theorem parse_unparse {source : Str} {k : Keystroke} (parsed : parse source = .ok k)
    (plain : k.keyChar = none) : parse k.unparse = .ok k := by
  have readable := readable_of_parse parsed plain
  rw [parse, parseComponents_unparse]
  cases readable with
  | @dash modifiers =>
    have ends : ((unparse ⟨modifiers, ['-'], none⟩).getLast? == some '-') = true := by
      rw [getLast?_unparse_dash]
      rfl
    have split : (['-'] : Str).splitOn '-' = [[], []] := rfl
    have unnamed : setModifier [] modifiers = none := rfl
    rw [split, parseComponents.eq_def]
    simp only [unnamed, ends, List.isEmpty_nil, Bool.and_self, if_true, ok_bind]
    rfl
  | @direct modifiers key direct =>
    rw [parseComponents_direct _ direct]
    rfl
  | @shift modifiers released =>
    obtain ⟨control, alt, shift, platform, function⟩ := modifiers
    obtain rfl : shift = false := released
    rfl
  | @alt modifiers released noShift noControl =>
    obtain ⟨control, alt, shift, platform, function⟩ := modifiers
    obtain rfl : alt = false := released
    obtain rfl : shift = false := noShift
    obtain rfl : control = false := noControl
    rfl

theorem parse_unparse_controlDash : parse ['C', 't', 'r', 'l', '-', '-'] = .ok ⟨{ control := true }, ['-'], none⟩ ∧
    parse (unparse ⟨{ control := true }, ['-'], none⟩) = .ok ⟨{ control := true }, ['-'], none⟩ := by
  have parsed : parse ['C', 't', 'r', 'l', '-', '-'] = .ok ⟨{ control := true }, ['-'], none⟩ := rfl
  exact ⟨parsed, parse_unparse parsed rfl⟩

end Keystroke
end Pinrail.Keymap

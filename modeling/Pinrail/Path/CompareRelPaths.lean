import Pinrail.Path.NaturalSort
import Pinrail.Path.Pieces

/-!
# Comparing relative paths

`compare_rel_paths_by` of `paths.rs`. Two paths are compared component by component, a component by
what it is (a file at the end of a path, or a directory), its name and, of files, the extension.
-/

namespace Pinrail
open Lib
open Std (TransCmp OrientedCmp LawfulEqCmp ReflCmp)

namespace Paths

/-! ## The code -/

structure UnicodeCase where
  isLowercase : Char → Bool
  isUppercase : Char → Bool
  toLowercase : Str → Str

def eqIgnoreAsciiCase (a b : Str) : Bool := a.map Char.toLower == b.map Char.toLower

def naturalSortNoTiebreak (a b : Str) : Ordering :=
  if eqIgnoreAsciiCase a b then .eq else naturalSort a b

def rsplitOnce (c : Char) (text : Str) : Option (Str × Str) :=
  if c ∈ text then
    some (((text.reverse.dropWhile (· ≠ c)).drop 1).reverse, (text.reverse.takeWhile (· ≠ c)).reverse)
  else none

def stemAndExtension (filename : Str) : Option Str × Option Str :=
  if filename.isEmpty then (none, none)
  else
    match rsplitOnce '.' filename with
    | none => (some filename, none)
    | some (before, after) =>
      if before.isEmpty then (some filename, none) else (some before, some after)

inductive SortOrder where
  | default
  | upper
  | lower
  | unicode
deriving DecidableEq

inductive SortMode where
  | directoriesFirst
  | mixed
  | filesFirst
deriving DecidableEq

variable (unicode : UnicodeCase) (mode : SortMode) (order : SortOrder)

def caseGroupKey (name : Str) : Nat :=
  match name.head? with
  | none => 0
  | some first =>
    match order with
    | .upper => if unicode.isLowercase first then 1 else 0
    | .lower => if unicode.isUppercase first then 1 else 0
    | _ => 0

def compareStrings (a b : Str) : Ordering :=
  match order with
  | .unicode => cmpStr a b
  | _ => naturalSort a b

def compareStringsNoTiebreak (a b : Str) : Ordering :=
  match order with
  | .unicode => cmpStr a b
  | _ => naturalSortNoTiebreak a b

def compareNames (a b : Str) : Ordering :=
  (compare (caseGroupKey unicode order a) (caseGroupKey unicode order b)).then
    (match mode with
      | .directoriesFirst => compareStrings order a b
      | _ => compareStringsNoTiebreak order a b)

def compareExtensions (aExt bExt : Option Str) : Ordering :=
  match order with
  | .unicode => cmpStr (aExt.getD []) (bExt.getD [])
  | _ => cmpStr (unicode.toLowercase (aExt.getD [])) (unicode.toLowercase (bExt.getD []))

/-- One round of the loop on two components, each with whether it is the file at the end. -/
def compareComponents (componentA : Str) (aLeafFile : Bool) (componentB : Str) (bLeafFile : Bool) :
    Ordering :=
  let fileDirOrdering := match mode with
    | .directoriesFirst => compare aLeafFile bLeafFile
    | .filesFirst => compare bLeafFile aLeafFile
    | .mixed => .eq
  if fileDirOrdering ≠ .eq then fileDirOrdering
  else
    let (aStem, aExt) := if aLeafFile then stemAndExtension componentA else (none, none)
    let (bStem, bExt) := if bLeafFile then stemAndExtension componentB else (none, none)
    match if aLeafFile then aStem else some componentA,
      if bLeafFile then bStem else some componentB with
    | some a, some b =>
      let nameCmp := compareNames unicode mode order a b
      let nameCmp :=
        if mode = .mixed then
          nameCmp.then
            (match aLeafFile, bLeafFile with
              | true, false => if eqIgnoreAsciiCase a b then .gt else .eq
              | false, true => if eqIgnoreAsciiCase a b then .lt else .eq
              | _, _ => .eq)
        else nameCmp
      nameCmp.then
        (if aLeafFile && bLeafFile then compareExtensions unicode order aExt bExt else .eq)
    | some _, none => .gt
    | none, some _ => .lt
    | none, none => .eq

/-- The loop of `compare_rel_paths_by` over the components that are left of both paths. -/
def compareLoop (aIsFile bIsFile : Bool) (final : Ordering) : List Str → List Str → Ordering
  | componentA :: restA, componentB :: restB =>
    match compareComponents unicode mode order componentA (aIsFile && restA.isEmpty) componentB
      (bIsFile && restB.isEmpty) with
    | .eq => compareLoop aIsFile bIsFile final restA restB
    | ordering => ordering
  | _ :: _, [] => .gt
  | [], _ :: _ => .lt
  | [], [] => final

def compareRelPathsBy (a b : Str × Bool) : Ordering :=
  let needsFinalTiebreak := mode ≠ .directoriesFirst ∧ a.1 ≠ b.1
  compareLoop unicode mode order a.2 b.2
    (if needsFinalTiebreak then compareStrings order a.1 b.1 else .eq)
    (RelPath.components a.1) (RelPath.components b.1)

/-! ## Stems -/

theorem rsplitOnce_eq_some {c : Char} {text before after : Str}
    (split : rsplitOnce c text = some (before, after)) : text = before ++ c :: after := by
  rw [rsplitOnce] at split
  split_ifs at split with member
  obtain ⟨rfl, rfl⟩ := Prod.mk.inj (Option.some.inj split)
  have turned := List.takeWhile_append_dropWhile (p := (· ≠ c)) (l := text.reverse)
  cases rest : text.reverse.dropWhile (· ≠ c) with
  | nil =>
    have all := List.dropWhile_eq_nil_iff.mp rest c (List.mem_reverse.mpr member)
    simp at all
  | cons d rest' =>
    obtain rfl : d = c := by
      have first := List.head?_dropWhile_not (· ≠ c) text.reverse
      rw [rest] at first
      simpa using first
    rw [rest] at turned
    have whole := congrArg List.reverse turned
    rw [List.reverse_reverse, List.reverse_append, List.reverse_cons] at whole
    simpa using whole.symm

theorem rsplitOnce_append {c : Char} (before : Str) {after : Str} (absent : c ∉ after) :
    rsplitOnce c (before ++ c :: after) = some (before, after) := by
  have other : ∀ d ∈ after.reverse, decide (d ≠ c) = true := by
    intro d member
    rw [decide_eq_true_iff]
    rintro rfl
    exact absent (List.mem_reverse.mp member)
  have dropped : (c :: before.reverse).dropWhile (fun d => decide (d ≠ c)) = c :: before.reverse := by
    simp
  have taken : (c :: before.reverse).takeWhile (fun d => decide (d ≠ c)) = [] := by simp
  rw [rsplitOnce, if_pos (by simp), List.reverse_append, List.reverse_cons, List.append_assoc,
    List.dropWhile_append_of_pos other, List.takeWhile_append_of_pos other, List.singleton_append,
    dropped, taken, List.drop_one, List.tail_cons, List.append_nil, List.reverse_reverse,
    List.reverse_reverse]

theorem rsplitOnce_after {c : Char} {text before after : Str}
    (split : rsplitOnce c text = some (before, after)) : c ∉ after := by
  rw [rsplitOnce] at split
  split_ifs at split
  obtain ⟨-, rfl⟩ := Prod.mk.inj (Option.some.inj split)
  intro member
  simpa using List.mem_takeWhile_imp (List.mem_reverse.mp member)

/-! ## Tokens without large numbers -/

def Token.run : Token → Str
  | .digits run _ _ => run
  | .other _ _ => []

def Token.text : Token → Str
  | .digits run _ _ => run
  | .other c _ => [c]

def Token.rank : Token → Nat
  | .digits _ _ _ => '0'.toNat
  | .other c _ => c.toNat

def SmallRuns (text : Str) : Prop := ∀ token ∈ tokens text, numberValue token.run < 2 ^ 128

def cmpSmall (s t : Token) : Ordering :=
  compareLex (compareOn Token.rank) (comparing Token.run cmpNumber) s t

instance : TransCmp cmpSmall := inferInstanceAs (TransCmp (compareLex _ _))

theorem compareTokens_small {s t : Token} (sSmall : numberValue s.run < 2 ^ 128)
    (tSmall : numberValue t.run < 2 ^ 128) : compareTokens s t = cmpSmall s t := by
  have fits : ∀ {run : Str}, run ≠ [] → numberValue run < 2 ^ 128 → Fits run := by
    intro run nonempty small
    rw [Fits, parseU128, if_neg]
    · rfl
    · simpa [nonempty] using small
  have head : ∀ {run : Str} (nonempty : run ≠ []), (∀ c ∈ run, c.isDigit) →
      48 ≤ (run.head nonempty).toNat ∧ (run.head nonempty).toNat ≤ 57 :=
    fun nonempty digits => (isDigit_iff _).mp (digits _ (List.head_mem nonempty))
  have zero : '0'.toNat = 48 := rfl
  cases s with
  | digits a aNonempty aDigits =>
    cases t with
    | digits b bNonempty bDigits =>
      exact compareNumStrs_number (fits aNonempty sSmall) (fits bNonempty tSmall) aDigits bDigits
    | other d notDigit =>
      have first := head aNonempty aDigits
      rw [isDigit_iff] at notDigit
      simp only [compareTokens, cmpSmall, compareLex, compareOn, Token.rank, compare_char, zero]
      rcases Nat.lt_or_ge d.toNat 48 with below | above
      · rw [Nat.compare_eq_gt.mpr (by omega), Nat.compare_eq_gt.mpr below]
        rfl
      · rw [Nat.compare_eq_lt.mpr (by omega), Nat.compare_eq_lt.mpr (by omega)]
        rfl
  | other c notDigit =>
    cases t with
    | digits b bNonempty bDigits =>
      have first := head bNonempty bDigits
      rw [isDigit_iff] at notDigit
      simp only [compareTokens, cmpSmall, compareLex, compareOn, Token.rank, compare_char, zero]
      rcases Nat.lt_or_ge c.toNat 48 with below | above
      · rw [Nat.compare_eq_lt.mpr (by omega), Nat.compare_eq_lt.mpr below]
        rfl
      · rw [Nat.compare_eq_gt.mpr (by omega), Nat.compare_eq_gt.mpr (by omega)]
        rfl
    | other d notDigit' =>
      have same : comparing Token.run cmpNumber (.other c notDigit) (.other d notDigit') = .eq := rfl
      simp only [compareTokens, cmpSmall, compareLex, same, compareOn, Token.rank, compare_char]
      cases compare c.toNat d.toNat <;> rfl

theorem takeWhile_append_stop {α : Type*} {p : α → Bool} (xs : List α) {y : α} (stop : ¬p y) (ys : List α) :
    (xs ++ y :: ys).takeWhile p = xs.takeWhile p ∧ (xs ++ y :: ys).dropWhile p = xs.dropWhile p ++ y :: ys := by
  induction xs with
  | nil => exact ⟨List.takeWhile_cons_of_neg stop, List.dropWhile_cons_of_neg stop⟩
  | cons x xs ih =>
    by_cases pass : p x
    · rw [List.cons_append, List.takeWhile_cons_of_pos pass, List.takeWhile_cons_of_pos pass,
        List.dropWhile_cons_of_pos pass, List.dropWhile_cons_of_pos pass, ih.1, ih.2]
      exact ⟨rfl, rfl⟩
    · rw [List.cons_append, List.takeWhile_cons_of_neg pass, List.takeWhile_cons_of_neg pass,
        List.dropWhile_cons_of_neg pass, List.dropWhile_cons_of_neg pass]
      exact ⟨rfl, rfl⟩

theorem tokens_digit_eq {c : Char} (digit : c.isDigit) (s : Str) {run rest : Str} (nonempty : run ≠ [])
    (digits : ∀ c ∈ run, c.isDigit) (taken : (c :: s).takeWhile Char.isDigit = run)
    (left : (c :: s).dropWhile Char.isDigit = rest) : tokens (c :: s) = .digits run nonempty digits :: tokens rest := by
  subst taken
  subst left
  obtain ⟨_, _, cut⟩ := tokens_digit digit s
  exact cut

theorem tokens_append (a : Str) {c : Char} (other : ¬c.isDigit) (b : Str) :
    tokens (a ++ c :: b) = tokens a ++ tokens (c :: b) := by
  fun_induction tokens a with
  | case1 => rfl
  | case2 d s digit ih =>
    obtain ⟨taken, left⟩ := takeWhile_append_stop (d :: s) other b
    exact (tokens_digit_eq digit (s ++ c :: b) _ _ taken left).trans (congrArg _ ih)
  | case3 d s notDigit ih =>
    rw [List.cons_append, tokens_other notDigit, ih]
    rfl

theorem SmallRuns.left {a b : Str} {c : Char} (other : ¬c.isDigit) (small : SmallRuns (a ++ c :: b)) : SmallRuns a := by
  intro token member
  exact small token (by rw [tokens_append a other]; exact List.mem_append_left _ member)

theorem smallRuns_append {a b : Str} {c : Char} (other : ¬c.isDigit) (aSmall : SmallRuns a)
    (bSmall : SmallRuns b) : SmallRuns (a ++ c :: b) := by
  intro token member
  rw [tokens_append a other, tokens_other other] at member
  rcases List.mem_append.mp member with member | member
  · exact aSmall token member
  · rcases List.mem_cons.mp member with rfl | member
    · exact Nat.two_pow_pos 128
    · exact bSmall token member

theorem smallRuns_join {names : List Str} (small : ∀ name ∈ names, SmallRuns name) : SmallRuns (join names) := by
  induction names with
  | nil =>
    intro token member
    have none : tokens (join []) = [] := by rw [join, List.intercalate_nil, tokens]
    rw [none] at member
    cases member
  | cons first names ih =>
    have rest := ih fun name member => small name (List.mem_cons_of_mem first member)
    cases names with
    | nil => simpa [join] using small first (by simp)
    | cons second names =>
      rw [join_cons _ (by simp)]
      exact smallRuns_append (by decide) (small first (by simp)) rest

/-! ## Names without their case -/

theorem flatMap_tokens (a : Str) : (tokens a).flatMap Token.text = a.map Char.toLower := by
  fun_induction tokens a with
  | case1 => rfl
  | case2 c s digit ih =>
    have kept : ((c :: s).takeWhile Char.isDigit).map Char.toLower = (c :: s).takeWhile Char.isDigit := by
      refine (List.map_congr_left fun d member => ?_).trans (List.map_id _)
      exact toLower_digit (List.mem_takeWhile_imp member)
    rw [List.flatMap_cons, ih, Token.text]
    conv_rhs => rw [← List.takeWhile_append_dropWhile (p := Char.isDigit) (l := c :: s), List.map_append, kept]
  | case3 c s notDigit ih =>
    rw [List.flatMap_cons, ih]
    rfl

theorem toLower_idem (c : Char) : c.toLower.toLower = c.toLower := by
  rcases toLower_cases c with ⟨low, high, lowered⟩ | ⟨-, same⟩
  · rcases toLower_cases c.toLower with upper | ⟨-, same⟩
    · omega
    · exact same
  · rw [same, same]

theorem tokens_map_toLower (a : Str) : tokens (a.map Char.toLower) = tokens a := by
  have same : Char.isDigit ∘ Char.toLower = Char.isDigit := by
    funext c
    exact Bool.eq_iff_iff.mpr (isDigit_toLower c)
  fun_induction tokens a with
  | case1 => rw [List.map_nil, tokens]
  | case2 c s digit ih =>
    have digit' : c.toLower.isDigit := (isDigit_toLower c).mpr digit
    have kept : ((c :: s).takeWhile Char.isDigit).map Char.toLower = (c :: s).takeWhile Char.isDigit := by
      refine (List.map_congr_left fun d member => ?_).trans (List.map_id _)
      exact toLower_digit (List.mem_takeWhile_imp member)
    have taken : (c.toLower :: s.map Char.toLower).takeWhile Char.isDigit = (c :: s).takeWhile Char.isDigit := by
      rw [← List.map_cons, List.takeWhile_map, same, kept]
    have left : (c.toLower :: s.map Char.toLower).dropWhile Char.isDigit =
        ((c :: s).dropWhile Char.isDigit).map Char.toLower := by
      rw [← List.map_cons, List.dropWhile_map, same]
    exact (tokens_digit_eq digit' _ _ _ taken left).trans (congrArg _ ih)
  | case3 c s notDigit ih =>
    rw [List.map_cons, tokens_other ((isDigit_toLower c).not.mpr notDigit), ih]
    simp only [toLower_idem]

theorem tokens_eq_iff {a b : Str} : tokens a = tokens b ↔ eqIgnoreAsciiCase a b = true := by
  rw [eqIgnoreAsciiCase, beq_iff_eq]
  constructor
  · intro same
    rw [← flatMap_tokens, ← flatMap_tokens, same]
  · intro same
    rw [← tokens_map_toLower a, same, tokens_map_toLower b]

/-! ## Names in order -/

def cmpTokens (a b : Str) : Ordering := List.compareLex cmpSmall (tokens a) (tokens b)

instance : TransCmp cmpTokens :=
  inferInstanceAs (TransCmp (comparing tokens (List.compareLex cmpSmall)))

theorem cmpTokens_eq {a b : Str} (aSmall : SmallRuns a) (bSmall : SmallRuns b) :
    List.compareLex compareTokens (tokens a) (tokens b) = cmpTokens a b := by
  rw [cmpTokens]
  unfold SmallRuns at aSmall bSmall
  generalize tokens a = s at aSmall
  generalize tokens b = t at bSmall
  induction s generalizing t with
  | nil => cases t <;> rfl
  | cons x s ih =>
    cases t with
    | nil => rfl
    | cons y t =>
      rw [List.compareLex_cons_cons, List.compareLex_cons_cons,
        compareTokens_small (aSmall x (by simp)) (bSmall y (by simp)),
        ih (fun token member => aSmall token (List.mem_cons_of_mem x member)) t
          fun token member => bSmall token (List.mem_cons_of_mem y member)]

theorem naturalSortNoTiebreak_small {a b : Str} (aSmall : SmallRuns a) (bSmall : SmallRuns b) :
    naturalSortNoTiebreak a b = cmpTokens a b := by
  rw [naturalSortNoTiebreak, naturalSort_eq, cmpTokens_eq aSmall bSmall]
  split_ifs with same
  · rw [cmpTokens, tokens_eq_iff.mpr same]
    exact ReflCmp.compare_self.symm
  · cases outcome : cmpTokens a b with
    | lt => rfl
    | gt => rfl
    | eq =>
      rw [← cmpTokens_eq aSmall bSmall] at outcome
      exact absurd (tokens_eq_iff.mp (LawfulEqCmp.eq_of_compare outcome)) same

theorem naturalSort_small {a b : Str} (aSmall : SmallRuns a) (bSmall : SmallRuns b) :
    naturalSort a b = compareLex cmpTokens (fun a b => cmpStr b a) a b := by
  rw [naturalSort_eq, cmpTokens_eq aSmall bSmall, compareLex]

theorem eq_of_naturalSort {a b : Str} (same : naturalSort a b = .eq) : a = b := by
  rw [naturalSort_eq, Ordering.then_eq_eq] at same
  exact (LawfulEqCmp.eq_of_compare same.2).symm

variable (unicode : UnicodeCase) (mode : SortMode) (order : SortOrder)

/-- `compare_strings` as an order. -/
def cmpStrings : Str → Str → Ordering :=
  match order with
  | .unicode => cmpStr
  | _ => compareLex cmpTokens fun a b => cmpStr b a

/-- `compare_strings_no_tiebreak` as an order. -/
def cmpStringsNoTiebreak : Str → Str → Ordering :=
  match order with
  | .unicode => cmpStr
  | _ => cmpTokens

instance : TransCmp (cmpStrings order) := by
  have natural : TransCmp (compareLex cmpTokens fun a b => cmpStr b a) := inferInstance
  have texts : TransCmp cmpStr := inferInstance
  cases order
  · exact natural
  · exact natural
  · exact natural
  · exact texts

instance : TransCmp (cmpStringsNoTiebreak order) := by
  have natural : TransCmp cmpTokens := inferInstance
  have texts : TransCmp cmpStr := inferInstance
  cases order
  · exact natural
  · exact natural
  · exact natural
  · exact texts

/-- `compare_names` as an order. -/
def cmpNames : Str → Str → Ordering :=
  compareLex (compareOn (caseGroupKey unicode order))
    (match mode with
      | .directoriesFirst => cmpStrings order
      | _ => cmpStringsNoTiebreak order)

instance : TransCmp (cmpNames unicode mode order) := by
  have tied : TransCmp (compareLex (compareOn (caseGroupKey unicode order)) (cmpStrings order)) := inferInstance
  have untied : TransCmp (compareLex (compareOn (caseGroupKey unicode order)) (cmpStringsNoTiebreak order)) :=
    inferInstance
  cases mode
  · exact tied
  · exact untied
  · exact untied

variable {unicode mode order} {a b : Str}

theorem compareStrings_small (aSmall : SmallRuns a) (bSmall : SmallRuns b) :
    compareStrings order a b = cmpStrings order a b := by
  have natural := naturalSort_small aSmall bSmall
  cases order
  · exact natural
  · exact natural
  · exact natural
  · rfl

theorem compareStringsNoTiebreak_small (aSmall : SmallRuns a) (bSmall : SmallRuns b) :
    compareStringsNoTiebreak order a b = cmpStringsNoTiebreak order a b := by
  have natural := naturalSortNoTiebreak_small aSmall bSmall
  cases order
  · exact natural
  · exact natural
  · exact natural
  · rfl

theorem compareNames_small (aSmall : SmallRuns a) (bSmall : SmallRuns b) :
    compareNames unicode mode order a b = cmpNames unicode mode order a b := by
  cases mode
  · exact congrArg _ (compareStrings_small aSmall bSmall)
  · exact congrArg _ (compareStringsNoTiebreak_small aSmall bSmall)
  · exact congrArg _ (compareStringsNoTiebreak_small aSmall bSmall)

theorem eq_of_compareStrings (same : compareStrings order a b = .eq) : a = b := by
  have texts : cmpStr a b = .eq → a = b := fun equal => LawfulEqCmp.eq_of_compare equal
  cases order
  · exact eq_of_naturalSort same
  · exact eq_of_naturalSort same
  · exact eq_of_naturalSort same
  · exact texts same

theorem eqIgnoreAsciiCase_of_compareNames (same : compareNames unicode mode order a b = .eq) :
    eqIgnoreAsciiCase a b = true := by
  have whole : a = b → eqIgnoreAsciiCase a b = true := by
    rintro rfl
    exact beq_self_eq_true _
  have natural : naturalSortNoTiebreak a b = .eq → eqIgnoreAsciiCase a b = true := by
    intro equal
    rw [naturalSortNoTiebreak] at equal
    split_ifs at equal with ignoring
    · exact ignoring
    · exact whole (eq_of_naturalSort equal)
  have texts : cmpStr a b = .eq → eqIgnoreAsciiCase a b = true := fun equal => whole (LawfulEqCmp.eq_of_compare equal)
  have untied : compareStringsNoTiebreak order a b = .eq → eqIgnoreAsciiCase a b = true := by
    cases order
    · exact natural
    · exact natural
    · exact natural
    · exact texts
  cases mode
  · exact whole (eq_of_compareStrings (Ordering.then_eq_eq.mp same).2)
  · exact untied (Ordering.then_eq_eq.mp same).2
  · exact untied (Ordering.then_eq_eq.mp same).2

end Paths
end Pinrail

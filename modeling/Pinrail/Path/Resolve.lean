import Mathlib.Algebra.Order.Ring.Int
import Mathlib.Data.List.Induction
import Pinrail.Path.RelPath

/-!
# Components and how they resolve

A path is the list of its pieces between separators. Resolving them drops what is empty or `.` and
lets `..` take back the last name, and the buffer that `RelPath::new` builds is the names joined.
-/

namespace Pinrail

def pieces (style : PathStyle) (path : Str) : List Str :=
  path.splitOnP fun c => c ∈ style.separatorsCh

def join (names : List Str) : Str := ['/'].intercalate names

structure Clean (style : PathStyle) (name : Str) : Prop where
  nonempty : name ≠ []
  notDot : name ≠ ['.']
  notDotDot : name ≠ ['.', '.']
  noSeparator : ∀ c ∈ name, c ∉ style.separatorsCh

def resolveStep (names : List Str) (piece : Str) : Option (List Str) :=
  if piece = [] ∨ piece = ['.'] then some names
  else if piece = ['.', '.'] then if names = [] then none else some names.dropLast
  else some (names ++ [piece])

def resolve (pieces : List Str) : Option (List Str) := pieces.foldlM resolveStep []

variable {style : PathStyle} {names : List Str} {name : Str}

theorem slash_mem (style : PathStyle) : '/' ∈ style.separatorsCh := by
  cases style <;> decide

theorem Clean.noSlash (clean : Clean style name) : '/' ∉ name :=
  fun member => clean.noSeparator '/' member (slash_mem style)

/-! ## Names in a buffer -/

theorem join_cons (name : Str) {names : List Str} (nonempty : names ≠ []) :
    join (name :: names) = name ++ '/' :: join names := by
  rw [join, List.intercalate_cons_of_ne_nil nonempty, join]
  simp

theorem join_concat {names : List Str} (nonempty : names ≠ []) (name : Str) :
    join (names ++ [name]) = join names ++ '/' :: name := by
  induction names with
  | nil => exact absurd rfl nonempty
  | cons first names ih =>
    cases names with
    | nil => simp [join]
    | cons second names =>
      rw [List.cons_append, join_cons first (by simp), ih (by simp), join_cons first (by simp)]
      simp

theorem join_eq_nil (clean : ∀ name ∈ names, Clean style name) : join names = [] ↔ names = [] := by
  cases names with
  | nil => simp [join]
  | cons first names =>
    have nonempty := (clean first (by simp)).nonempty
    cases names with
    | nil => simpa [join] using nonempty
    | cons second names =>
      rw [join_cons _ (by simp)]
      simp

theorem push_join (clean : ∀ name ∈ names, Clean style name) (nonempty : name ≠ []) :
    RelPathBuf.push (join names) name = join (names ++ [name]) := by
  rw [RelPathBuf.push, if_neg (by simpa using nonempty)]
  by_cases empty : names = []
  · subst empty
    simp [join]
  · rw [if_neg (by simpa [join_eq_nil clean] using empty), join_concat empty]
    simp

theorem pop_join (clean : ∀ name ∈ names, Clean style name) (last : Clean style name) :
    RelPathBuf.pop (join (names ++ [name])) = (true, join names) := by
  rw [RelPathBuf.pop]
  by_cases empty : names = []
  · subst empty
    have single : join [name] = name := by simp [join]
    rw [List.nil_append, single, if_neg last.noSlash, if_pos (by simpa using last.nonempty)]
    rfl
  · rw [join_concat empty, if_pos (by simp)]
    have tail : ∀ c ∈ name.reverse, decide (c ≠ '/') = true := by
      intro c member
      simp only [decide_eq_true_iff]
      rintro rfl
      exact last.noSlash (List.mem_reverse.mp member)
    rw [List.reverse_append, List.reverse_cons, List.append_assoc, List.dropWhile_append_of_pos tail]
    simp

/-! ## Resolving -/

theorem resolveStep_skip {piece : Str} (skipped : piece = [] ∨ piece = ['.']) :
    resolveStep names piece = some names := if_pos skipped

theorem resolveStep_dots :
    resolveStep names ['.', '.'] = if names = [] then none else some names.dropLast := by
  simp [resolveStep]

theorem resolveStep_name (clean : Clean style name) : resolveStep names name = some (names ++ [name]) := by
  rw [resolveStep, if_neg, if_neg clean.notDotDot]
  rintro (empty | dot)
  · exact clean.nonempty empty
  · exact clean.notDot dot

theorem piece_cases {piece : Str} (whole : ∀ c ∈ piece, c ∉ style.separatorsCh) :
    (piece = [] ∨ piece = ['.']) ∨ piece = ['.', '.'] ∨ Clean style piece := by
  by_cases skipped : piece = [] ∨ piece = ['.']
  · exact .inl skipped
  · by_cases dots : piece = ['.', '.']
    · exact .inr (.inl dots)
    · rw [not_or] at skipped
      exact .inr (.inr ⟨skipped.1, skipped.2, dots, whole⟩)

theorem normalizeStep_join (result : Str) {piece : Str}
    (clean : ∀ name ∈ names, Clean style name) (whole : ∀ c ∈ piece, c ∉ style.separatorsCh) :
    RelPath.normalizeStep result (join names) piece =
      match resolveStep names piece with
      | some names => .ok (join names)
      | none => .error (.notRelative result) := by
  rcases piece_cases whole with skipped | rfl | name
  · rw [resolveStep_skip skipped]
    rcases skipped with rfl | rfl <;> rfl
  · rcases List.eq_nil_or_concat' names with rfl | ⟨init, last, rfl⟩
    · rfl
    · have before : ∀ name ∈ init, Clean style name := fun name member => clean name (by simp [member])
      have popped := pop_join before (clean last (by simp))
      rw [resolveStep_dots, if_neg (by simp), List.dropLast_concat]
      simp [RelPath.normalizeStep, popped]
  · rw [resolveStep_name name]
    rw [RelPath.normalizeStep, if_neg name.nonempty, if_neg name.notDot, if_neg name.notDotDot,
      push_join clean name.nonempty]

theorem resolveStep_clean {piece : Str} {names' : List Str}
    (clean : ∀ name ∈ names, Clean style name) (whole : ∀ c ∈ piece, c ∉ style.separatorsCh)
    (resolved : resolveStep names piece = some names') : ∀ name ∈ names', Clean style name := by
  rcases piece_cases whole with skipped | rfl | name
  · rw [resolveStep_skip skipped] at resolved
    cases resolved
    exact clean
  · rw [resolveStep_dots] at resolved
    split_ifs at resolved
    cases resolved
    exact fun name member => clean name ((List.dropLast_sublist names).subset member)
  · rw [resolveStep_name name] at resolved
    cases resolved
    intro other member
    rcases List.mem_append.mp member with member | member
    · exact clean other member
    · rwa [List.mem_singleton.mp member]

theorem foldlM_normalizeStep (result : Str) {components : List Str} (clean : ∀ name ∈ names, Clean style name)
    (whole : ∀ component ∈ components, ∀ c ∈ component, c ∉ style.separatorsCh) :
    components.foldlM (RelPath.normalizeStep result) (join names) =
      match components.foldlM resolveStep names with
      | some names => .ok (join names)
      | none => .error (.notRelative result) := by
  induction components generalizing names with
  | nil => rfl
  | cons piece components ih =>
    have here := whole piece (by simp)
    rw [List.foldlM_cons, List.foldlM_cons, normalizeStep_join result clean here]
    cases resolved : resolveStep names piece with
    | none => rfl
    | some names' =>
      exact ih (resolveStep_clean clean here resolved) fun component member => whole component (by simp [member])

theorem foldlM_clean {components names' : List Str} (clean : ∀ name ∈ names, Clean style name)
    (whole : ∀ component ∈ components, ∀ c ∈ component, c ∉ style.separatorsCh)
    (resolved : components.foldlM resolveStep names = some names') : ∀ name ∈ names', Clean style name := by
  induction components generalizing names with
  | nil =>
    cases resolved
    exact clean
  | cons piece components ih =>
    rw [List.foldlM_cons] at resolved
    obtain ⟨next, first, rest⟩ := Option.bind_eq_some_iff.mp resolved
    exact ih (resolveStep_clean clean (whole piece (by simp)) first)
      (fun component member => whole component (by simp [member])) rest

theorem foldlM_names {more : List Str} (clean : ∀ name ∈ more, Clean style name) :
    more.foldlM resolveStep names = some (names ++ more) := by
  induction more generalizing names with
  | nil => simp
  | cons name more ih =>
    have rest : ∀ name ∈ more, Clean style name := fun other member => clean other (by simp [member])
    rw [List.foldlM_cons, resolveStep_name (clean name (by simp))]
    change more.foldlM resolveStep (names ++ [name]) = _
    rw [ih rest, List.append_assoc]
    rfl

theorem resolve_padded {front middle back : List Str} (frontSkipped : ∀ piece ∈ front, piece = [] ∨ piece = ['.'])
    (backSkipped : ∀ piece ∈ back, piece = [] ∨ piece = ['.']) :
    resolve (front ++ middle ++ back) = resolve middle := by
  have skips : ∀ (some' names : List Str), (∀ piece ∈ some', piece = [] ∨ piece = ['.']) →
      some'.foldlM resolveStep names = some names := by
    intro some' names skipped
    induction some' with
    | nil => rfl
    | cons piece some' ih =>
      rw [List.foldlM_cons, resolveStep_skip (skipped piece (by simp))]
      exact ih fun other member => skipped other (by simp [member])
  rw [resolve, List.foldlM_append, List.foldlM_append, skips front [] frontSkipped]
  change (middle.foldlM resolveStep [] >>= fun names => back.foldlM resolveStep names) = _
  rw [resolve]
  cases middle.foldlM resolveStep [] with
  | none => rfl
  | some names => exact skips back names backSkipped

/-! ## Levels -/

def depth (piece : Str) : Int :=
  if piece = [] ∨ piece = ['.'] then 0 else if piece = ['.', '.'] then -1 else 1

def level (pieces : List Str) : Int := (pieces.map depth).sum

def Grounded (pieces : List Str) : Prop := ∀ part, part <+: pieces → 0 ≤ level part

theorem resolveStep_eq_none (names : List Str) (piece : Str) :
    resolveStep names piece = none ↔ names.length + depth piece < 0 := by
  rw [resolveStep, depth]
  split_ifs with skipped dots empty
  · simp
  · simp [empty]
  · have some := List.length_pos_iff.mpr empty
    simp only [false_iff]
    omega
  · simp only [false_iff]
    omega

theorem resolveStep_length {piece : Str} {names' : List Str} (resolved : resolveStep names piece = some names') :
    (names'.length : Int) = names.length + depth piece := by
  rw [resolveStep] at resolved
  rw [depth]
  split_ifs at resolved ⊢ with skipped dots empty
  · cases resolved
    simp
  · have some := List.length_pos_iff.mpr empty
    cases resolved
    rw [List.length_dropLast]
    omega
  · cases resolved
    simp

theorem foldlM_length {components names' : List Str} (resolved : components.foldlM resolveStep names = some names') :
    (names'.length : Int) = names.length + level components := by
  induction components generalizing names with
  | nil =>
    cases resolved
    simp [level]
  | cons piece components ih =>
    rw [List.foldlM_cons] at resolved
    obtain ⟨next, first, rest⟩ := Option.bind_eq_some_iff.mp resolved
    rw [ih rest, resolveStep_length first]
    simp only [level, List.map_cons, List.sum_cons]
    omega

theorem foldlM_isSome_iff (names components : List Str) : (components.foldlM resolveStep names).isSome = true ↔ ∀ part,
    part <+: components → 0 ≤ (names.length : Int) + level part := by
  induction components generalizing names with
  | nil => simp [level]
  | cons piece components ih =>
    rw [List.foldlM_cons]
    cases resolved : resolveStep names piece with
    | none =>
      have above := (resolveStep_eq_none names piece).mp resolved
      refine iff_of_false (by simp) fun grounded => ?_
      have here := grounded [piece] ⟨components, rfl⟩
      simp only [level, List.map_cons, List.map_nil, List.sum_cons, List.sum_nil] at here
      omega
    | some next =>
      have length := resolveStep_length resolved
      refine (ih next).trans ⟨fun grounded part within => ?_, fun grounded part within => ?_⟩
      · rcases List.prefix_cons_iff.mp within with rfl | ⟨rest, rfl, inner⟩
        · simp [level]
        · have later := grounded rest inner
          simp only [level, List.map_cons, List.sum_cons] at later ⊢
          omega
      · have later := grounded (piece :: part) ((List.prefix_cons_inj piece).mpr within)
        simp only [level, List.map_cons, List.sum_cons] at later ⊢
        omega

theorem resolve_iff {components : List Str} : (∃ names, resolve components = some names) ↔ Grounded components := by
  rw [← Option.isSome_iff_exists, resolve, foldlM_isSome_iff, Grounded]
  simp

theorem resolve_length {components : List Str} (resolved : resolve components = some names) :
    (names.length : Int) = level components := by
  have length := foldlM_length resolved
  simpa using length

/-! ## The first name -/

theorem resolveStep_frame (base : List Str) {piece : Str} {names' : List Str}
    (resolved : resolveStep names piece = some names') : resolveStep (base ++ names) piece = some (base ++ names') := by
  rw [resolveStep] at resolved ⊢
  split_ifs at resolved ⊢ with skipped dots above empty empty
  · cases resolved
    rfl
  · exact absurd (List.append_eq_nil_iff.mp above).2 empty
  · cases resolved
    rw [List.dropLast_append_of_ne_nil empty]
  · cases resolved
    rw [List.append_assoc]

theorem foldlM_frame (base : List Str) {components names' : List Str}
    (resolved : components.foldlM resolveStep names = some names') :
    components.foldlM resolveStep (base ++ names) = some (base ++ names') := by
  induction components generalizing names with
  | nil =>
    cases resolved
    rfl
  | cons piece components ih =>
    rw [List.foldlM_cons] at resolved ⊢
    obtain ⟨next, first, rest⟩ := Option.bind_eq_some_iff.mp resolved
    rw [resolveStep_frame base first]
    exact ih rest

theorem resolve_eq_cons {components : List Str} {first : Str} {rest : List Str}
    (resolved : resolve components = some (first :: rest)) :
    ∃ front back, components = front ++ first :: back ∧ resolve front = some [] ∧ resolve back = some rest := by
  induction components using List.reverseRecOn generalizing rest with
  | nil => cases resolved
  | append_singleton components piece ih =>
    rw [resolve, List.foldlM_append] at resolved
    obtain ⟨names, before, last⟩ := Option.bind_eq_some_iff.mp resolved
    rw [List.foldlM_cons] at last
    obtain ⟨after, stepped, done⟩ := Option.bind_eq_some_iff.mp last
    cases done
    -- Either the last piece is the first name itself, or the first name was there before it.
    have earlier : ∀ rest', names = first :: rest' → resolveStep rest' piece = some rest → ∃ front back,
        components ++ [piece] = front ++ first :: back ∧ resolve front = some [] ∧ resolve back = some rest := by
      intro rest' same stepped'
      subst same
      obtain ⟨front, back, rfl, frontNone, backRest⟩ := ih before
      refine ⟨front, back ++ [piece], by simp, frontNone, ?_⟩
      rw [resolve, List.foldlM_append]
      change (resolve back >>= fun names => [piece].foldlM resolveStep names) = _
      rw [backRest]
      change (resolveStep rest' piece >>= fun names => some names) = _
      rw [stepped']
      rfl
    cases names with
    | nil =>
      rw [resolveStep] at stepped
      split_ifs at stepped with skipped dots empty
      · cases stepped
      · exact absurd rfl empty
      · rw [List.nil_append, Option.some.injEq, List.cons_eq_cons] at stepped
        obtain ⟨rfl, rfl⟩ := stepped
        exact ⟨components, [], rfl, before, rfl⟩
    | cons name names =>
      have within : ∀ rest', resolveStep names piece = some rest' → name = first ∧ rest' = rest := by
        intro rest' inner
        have framed := resolveStep_frame [name] inner
        rw [List.singleton_append, stepped] at framed
        simpa [eq_comm] using framed
      cases inner : resolveStep names piece with
      | some rest' =>
        obtain ⟨rfl, rfl⟩ := within rest' inner
        exact earlier names rfl inner
      | none =>
        -- Taking back the only name leaves none.
        rw [resolveStep] at inner
        split_ifs at inner with skipped dots empty
        subst dots
        subst empty
        rw [resolveStep_dots] at stepped
        cases stepped

theorem resolve_append_cons {front back : List Str} {first : Str} {rest : List Str}
    (frontNone : resolve front = some []) (firstName : resolveStep [] first = some [first])
    (backRest : resolve back = some rest) : resolve (front ++ first :: back) = some (first :: rest) := by
  rw [resolve, List.foldlM_append]
  change (resolve front >>= fun names => (first :: back).foldlM resolveStep names) = _
  rw [frontNone]
  change (first :: back).foldlM resolveStep [] = _
  rw [List.foldlM_cons, firstName]
  exact foldlM_frame [first] backRest

end Pinrail

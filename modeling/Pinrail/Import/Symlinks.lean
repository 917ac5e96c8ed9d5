import Pinrail.Import.PosixPaths

/-!
# Symbolic links

`check_symlinks`, which follows the links of the selected files as texts, against the resolution of the
links in a tree of these files.
-/

namespace Pinrail.Import

open Lib

/-- The modes that the gate lets into a tree: `100644`, `100755` and `120000`. -/
inductive Mode where
  | regular
  | executable
  | symlink
deriving DecidableEq

inductive LinkFailure where
  | path (failure : Failure)
  | undecodable
  | cycle (name : Str)
  | outside (name target : Str)
  /-- The bound of the loop is used up; nothing the program does. -/
  | outOfFuel
deriving DecidableEq

/-- `bytes.decode('utf-8')`. -/
def decode (bytes : ByteArray) : Except LinkFailure Str :=
  match String.fromUTF8? bytes with
  | some text => .ok text.toList
  | none => .error .undecodable

/-- The loop of `check_symlinks` that follows the links from `name`. -/
def followLinks (entries : List (Str × Mode)) (read : Str → ByteArray) (name : Str) :
    Nat → Str → List Str → Except LinkFailure Unit
  | 0, _, _ => .error .outOfFuel
  | fuel + 1, current, seen =>
    if valueOf current entries = some .symlink then
      if current ∈ seen then .error (.cycle name)
      else
        match decode (read current) with
        | .error failure => .error failure
        | .ok target =>
          match relativePath (dirname current) target with
          | .error failure => .error (.path failure)
          | .ok next =>
            if valueOf next entries = none then .error (.outside name target)
            else followLinks entries read name fuel next (current :: seen)
    else .ok ()

def checkSymlinks (entries : List (Str × Mode)) (read : Str → ByteArray) : Except LinkFailure Unit :=
  entries.forM fun entry =>
    if entry.2 = .symlink then followLinks entries read entry.1 (entries.length + 1) entry.1 [] else .ok ()

/-! ## The tree of the files -/

structure Selection where
  entries : List (Str × Mode)
  nodup : (entries.map Prod.fst).Nodup
  safe : ∀ entry ∈ entries, safePath entry.1 = .ok entry.1
  prefixFree : ∀ first ∈ entries, ∀ second ∈ entries, first.1.splitOn '/' <+: second.1.splitOn '/' → first = second

def linkTarget (bytes : ByteArray) : Target Str :=
  match decode bytes with
  | .error _ => .nothing
  | .ok text =>
    if text = [] then .nothing
    else if text.head? = some '/' then .elsewhere
    else .relative ((text.splitOn '/').map part)

namespace Selection

def tree (self : Selection) (read : Str → ByteArray) : FileTree Str := fun path =>
  match self.entries.find? fun entry => entry.1.splitOn '/' = path with
  | some entry => if entry.2 = .symlink then some (.link (linkTarget (read entry.1))) else some .file
  | none =>
    if self.entries.any fun entry => path.isPrefixOf (entry.1.splitOn '/') then some .directory else none

def route (name : Str) : List (PathPart Str) := (name.splitOn '/').map PathPart.name

variable {self : Selection} {read : Str → ByteArray} {entry : Str × Mode} {path : List Str} {name last : Str}
  {mode : Mode}

theorem exists_concat (name : Str) : ∃ path last, name.splitOn '/' = path ++ [last] := by
  rcases List.eq_nil_or_concat' (name.splitOn '/') with none | ⟨path, last, split⟩
  · exact absurd none (List.splitOn_ne_nil '/' name)
  · exact ⟨path, last, split⟩

theorem plain (member : entry ∈ self.entries) : ∀ component ∈ entry.1.splitOn '/', Plain component :=
  (safePath_eq_ok (self.safe entry member)).2.1

theorem tree_entry (member : entry ∈ self.entries) : self.tree read (entry.1.splitOn '/') =
    if entry.2 = .symlink then some (.link (linkTarget (read entry.1))) else some .file := by
  unfold tree
  cases found : self.entries.find? fun other => other.1.splitOn '/' = entry.1.splitOn '/' with
  | none =>
    have missing := List.find?_eq_none.mp found entry member
    simp at missing
  | some other =>
    have same : other.1.splitOn '/' = entry.1.splitOn '/' := by simpa using List.find?_some found
    have inside := List.mem_of_find?_eq_some found
    rw [self.prefixFree other inside entry member (same ▸ List.prefix_refl _)]

theorem leaf_iff : (self.tree read).Leaf path ↔ ∃ entry ∈ self.entries, entry.1.splitOn '/' = path := by
  constructor
  · intro leaf
    cases found : self.entries.find? fun other => other.1.splitOn '/' = path with
    | some other => exact ⟨other, List.mem_of_find?_eq_some found, by simpa using List.find?_some found⟩
    | none =>
      unfold FileTree.Leaf tree at leaf
      rw [found] at leaf
      dsimp only at leaf
      split_ifs at leaf <;> simp at leaf
  · rintro ⟨entry, member, rfl⟩
    unfold FileTree.Leaf
    rw [tree_entry member]
    split_ifs
    · exact .inr ⟨_, rfl⟩
    · exact .inl rfl

theorem known (there : self.tree read (path ++ [last]) ≠ none) :
    ∃ entry ∈ self.entries, last ∈ entry.1.splitOn '/' := by
  unfold tree at there
  cases found : self.entries.find? fun other => other.1.splitOn '/' = path ++ [last] with
  | some other =>
    have same : other.1.splitOn '/' = path ++ [last] := by simpa using List.find?_some found
    exact ⟨other, List.mem_of_find?_eq_some found, by simp [same]⟩
  | none =>
    rw [found] at there
    dsimp only at there
    split_ifs at there with above
    · obtain ⟨entry, member, before⟩ := List.any_eq_true.mp above
      have before : path ++ [last] <+: entry.1.splitOn '/' := by simpa using before
      exact ⟨entry, member, before.subset (by simp)⟩
    · exact absurd rfl there

theorem clear (member : entry ∈ self.entries) (split : entry.1.splitOn '/' = path ++ [last]) :
    (self.tree read).Clear path := by
  intro front before leaf
  obtain ⟨other, inside, rfl⟩ := leaf_iff.mp leaf
  have same := self.prefixFree other inside entry member (split ▸ before.trans (List.prefix_append path [last]))
  have short := before.length_le
  rw [same, split, List.length_append] at short
  simp at short

theorem resolve_route (member : entry ∈ self.entries) (split : entry.1.splitOn '/' = path ++ [last]) (limit : Nat) :
    (self.tree read).resolve limit [] (route entry.1) = (self.tree read).resolve limit path [.name last] := by
  rw [route, split, List.map_append, List.map_singleton]
  apply FileTree.resolve_names
  intro front inner before
  have clear : ¬ (self.tree read).Leaf (front ++ [inner]) := clear member split _ before
  unfold tree
  cases found : self.entries.find? fun other => other.1.splitOn '/' = front ++ [inner] with
  | some other =>
    exact absurd (leaf_iff.mpr ⟨other, List.mem_of_find?_eq_some found, by simpa using List.find?_some found⟩) clear
  | none =>
    refine if_pos (List.any_eq_true.mpr ⟨entry, member, ?_⟩)
    rw [List.isPrefixOf_iff_prefix, split]
    exact before.trans (List.prefix_append path [last])

theorem tree_link {target : Target Str} (link : self.tree read path = some (.link target)) :
    ∃ name, (name, .symlink) ∈ self.entries ∧ name.splitOn '/' = path ∧ target = linkTarget (read name) := by
  obtain ⟨⟨name, mode⟩, member, rfl⟩ := leaf_iff.mp (.inr ⟨target, link⟩)
  rw [tree_entry member] at link
  split_ifs at link with symlink
  · cases link
    obtain rfl : mode = .symlink := symlink
    exact ⟨name, member, rfl, rfl⟩
  · cases link

/-! ## What is accepted -/

theorem followLinks_first {fuel : Nat} (link : valueOf name self.entries = some .symlink)
    (accepted : followLinks self.entries read name (fuel + 1) name [] = .ok ()) : ∃ text next mode,
    decode (read name) = .ok text ∧ relativePath (dirname name) text = .ok next ∧ (next, mode) ∈ self.entries := by
  rw [followLinks, if_pos link, if_neg (by simp)] at accepted
  cases decoded : decode (read name) with
  | error failure =>
    rw [decoded] at accepted
    cases accepted
  | ok text =>
    rw [decoded] at accepted
    dsimp only at accepted
    cases moved : relativePath (dirname name) text with
    | error failure =>
      rw [moved] at accepted
      cases accepted
    | ok next =>
      rw [moved] at accepted
      dsimp only at accepted
      cases inside : valueOf next self.entries with
      | none =>
        rw [if_pos inside] at accepted
        cases accepted
      | some mode => exact ⟨text, next, mode, rfl, moved, mem_of_valueOf inside⟩

theorem forM_eq_ok {entries : List (Str × Mode)} {f : Str × Mode → Except LinkFailure Unit} :
    entries.forM f = .ok () ↔ ∀ entry ∈ entries, f entry = .ok () := by
  induction entries with
  | nil => exact iff_of_true rfl (by simp)
  | cons entry entries ih =>
    change (f entry >>= fun _ => entries.forM f) = .ok () ↔ _
    rw [List.forall_mem_cons, bind_eq_ok, ← ih]
    constructor
    · rintro ⟨⟨⟩, first, passed⟩
      exact ⟨first, passed⟩
    · rintro ⟨first, passed⟩
      exact ⟨(), first, passed⟩

theorem forM_ne_error {entries : List (Str × Mode)} {f : Str × Mode → Except LinkFailure Unit}
    {failure : LinkFailure} (each : ∀ entry, f entry ≠ .error failure) : entries.forM f ≠ .error failure := by
  induction entries with
  | nil => exact fun none => by cases none
  | cons entry entries ih =>
    change (f entry >>= fun _ => entries.forM f) ≠ .error failure
    have first := each entry
    cases result : f entry with
    | error other =>
      rw [result] at first
      exact first
    | ok result => exact ih

theorem follow_of_accepted (accepted : checkSymlinks self.entries read = .ok ())
    (member : (name, .symlink) ∈ self.entries) :
    followLinks self.entries read name (self.entries.length + 1) name [] = .ok () := by
  have passed := forM_eq_ok.mp accepted _ member
  simpa using passed

theorem checked_of_accepted (accepted : checkSymlinks self.entries read = .ok ()) : (self.tree read).Checked := by
  intro path last target link
  obtain ⟨name, member, split, rfl⟩ := tree_link link
  obtain ⟨text, next, mode, decoded, moved, inside⟩ := followLinks_first (valueOf_of_mem self.nodup member)
    (follow_of_accepted accepted member)
  have plain := plain member
  rw [dirname_plain split plain] at moved
  have before : ∀ component ∈ path, Plain component := fun component inside => plain component (by simp [split, inside])
  obtain ⟨collapsed, -⟩ := collapse_of_relativePath before moved
  have leaf : (self.tree read).Leaf (next.splitOn '/') := leaf_iff.mpr ⟨_, inside, rfl⟩
  refine ⟨(text.splitOn '/').map part, next.splitOn '/', ?_, collapsed, leaf⟩
  obtain ⟨⟨⟩, passed, -⟩ := bind_eq_ok.mp moved
  obtain ⟨relative, -⟩ := of_require passed
  have some : text ≠ [] := by
    rintro rfl
    cases collapsed
    exact clear member split _ (List.prefix_refl _) leaf
  rw [linkTarget, decoded]
  dsimp only
  rw [if_neg some, if_neg relative]

theorem kept_of_accepted (accepted : checkSymlinks self.entries read = .ok ())
    (member : (name, .symlink) ∈ self.entries) (limit : Nat) :
    (self.tree read).Kept ((self.tree read).resolve limit [] (route name)) := by
  obtain ⟨path, last, split⟩ := exists_concat name
  have collapsed : collapse path [.name last] = some (path ++ [last]) := rfl
  have kept := FileTree.resolve_kept (checked_of_accepted accepted) limit (clear member split) collapsed
    (leaf_iff.mpr ⟨_, member, split⟩) []
  rwa [List.append_nil, ← resolve_route member split] at kept

/-! ## What is resolved -/

theorem followLinks_ends (fuel : Nat) (current : Str) {seen : List Str} (nodup : seen.Nodup)
    (inside : ∀ name ∈ seen, name ∈ self.entries.map Prod.fst) (enough : self.entries.length < fuel + seen.length) :
    followLinks self.entries read name fuel current seen ≠ .error .outOfFuel := by
  induction fuel generalizing current seen with
  | zero =>
    have short := nodup.length_le_of_subset inside
    rw [List.length_map] at short
    omega
  | succ fuel ih =>
    rw [followLinks]
    split_ifs with link again
    · simp
    · cases decoded : decode (read current) with
      | error failure =>
        unfold decode at decoded
        split at decoded
        · cases decoded
        · cases decoded
          simp
      | ok target =>
        dsimp only
        cases moved : relativePath (dirname current) target with
        | error failure => simp
        | ok next =>
          dsimp only
          split_ifs
          · simp
          · apply ih next (List.nodup_cons.mpr ⟨again, nodup⟩)
            · rw [List.forall_mem_cons]
              exact ⟨List.mem_map_of_mem (mem_of_valueOf link), inside⟩
            · rw [List.length_cons]
              omega
    · simp

/-- The link leads to a file, with at most `limit` links on the way. -/
def Resolves (self : Selection) (read : Str → ByteArray) (limit : Nat) (name : Str) : Prop :=
  ∃ path last file, name.splitOn '/' = path ++ [last] ∧ (self.tree read).resolve limit path [.name last] = .file file

theorem Resolves.step (resolvable : (self.tree read).Resolvable) {limit : Nat} {current : Str}
    (resolves : self.Resolves read limit current) (link : (current, .symlink) ∈ self.entries) : ∃ fewer text next mode,
    limit = fewer + 1 ∧ decode (read current) = .ok text ∧ relativePath (dirname current) text = .ok next ∧
    (next, mode) ∈ self.entries ∧ (mode = .symlink → self.Resolves read fewer next) := by
  obtain ⟨path, last, file, split, ends⟩ := resolves
  have node : self.tree read (path ++ [last]) = some (.link (linkTarget (read current))) := by
    rw [← split]
    exact tree_entry link
  cases limit with
  | zero =>
    rw [FileTree.resolve, FileTree.walk, node] at ends
    cases target : linkTarget (read current) with
    | nothing =>
      rw [target] at ends
      cases ends
    | elsewhere =>
      rw [target] at ends
      cases ends
    | relative parts =>
      rw [target] at ends
      cases ends
  | succ fewer =>
    rw [FileTree.resolve, FileTree.walk, node, linkTarget] at ends
    cases decoded : decode (read current) with
    | error failure =>
      rw [decoded] at ends
      cases ends
    | ok text =>
      rw [decoded] at ends
      dsimp only at ends
      by_cases empty : text = []
      · rw [if_pos empty] at ends
        cases ends
      by_cases absolute : text.head? = some '/'
      · rw [if_neg empty, if_pos absolute] at ends
        cases ends
      rw [if_neg empty, if_neg absolute] at ends
      dsimp only at ends
      rw [List.append_nil] at ends
      obtain ⟨⟨leaf, collapsed, found⟩, names⟩ := FileTree.resolve_file resolvable ends
      have foreign : '\\' ∉ text := by
        intro inside
        obtain ⟨component, member, within⟩ := (mem_splitOn (by decide)).mp inside
        rcases part_cases (not_mem_of_splitOn member) with ⟨-, rfl | rfl⟩ | ⟨-, rfl⟩ | ⟨named, -⟩
        · cases within
        · exact absurd within (by decide)
        · exact absurd within (by decide)
        · obtain ⟨front, there⟩ := names component (named ▸ List.mem_map_of_mem member)
          obtain ⟨entry, selected, here⟩ := known there
          exact (safePath_eq_ok (self.safe entry selected)).2.2 _
            ((mem_splitOn (by decide)).mpr ⟨component, here, within⟩) rfl
      have here : (self.tree read).Leaf leaf := by
        rcases found with file | ⟨-, -, target, -, -, link, -⟩
        · exact .inl file
        · exact .inr ⟨target, link⟩
      obtain ⟨⟨next, mode⟩, selected, rfl⟩ := leaf_iff.mp here
      have plain := plain link
      have before : ∀ component ∈ path, Plain component :=
        fun component inside => plain component (by simp [split, inside])
      refine ⟨fewer, text, next, mode, rfl, rfl, ?_, selected, ?_⟩
      · rw [dirname_plain split plain]
        exact relativePath_of_collapse before absolute foreign (self.safe _ selected) collapsed
      · rintro rfl
        rcases found with file | ⟨front, name, target, file, same, -, again⟩
        · rw [tree_entry selected, if_pos rfl] at file
          cases file
        · exact ⟨front, name, file, same, again⟩

theorem followLinks_ok (resolvable : (self.tree read).Resolvable) {fuel limit : Nat} {current : Str} (seen : List Str)
    (selected : (current, mode) ∈ self.entries) (resolves : mode = .symlink → self.Resolves read limit current)
    (past : ∀ name ∈ seen, ∀ fewer ≤ limit, ¬ self.Resolves read fewer name) :
    followLinks self.entries read name fuel current seen = .ok () ∨
    followLinks self.entries read name fuel current seen = .error .outOfFuel := by
  induction fuel generalizing current mode seen limit with
  | zero => exact .inr rfl
  | succ fuel ih =>
    have value := valueOf_of_mem self.nodup selected
    rw [followLinks, value]
    split_ifs with link again
    · obtain rfl : mode = .symlink := Option.some.inj link
      exact absurd (resolves rfl) (past current again limit (le_refl limit))
    · obtain rfl : mode = .symlink := Option.some.inj link
      classical
      have some : ∃ least, self.Resolves read least current := ⟨limit, resolves rfl⟩
      obtain ⟨fewer, text, next, mode, least, decoded, moved, inside, further⟩ :=
        (Nat.find_spec some).step resolvable selected
      have atMost := Nat.find_min' some (resolves rfl)
      rw [decoded]
      dsimp only
      rw [moved]
      dsimp only
      rw [valueOf_of_mem self.nodup inside, if_neg (by simp)]
      apply ih (current :: seen) inside further
      rw [List.forall_mem_cons]
      constructor
      · intro less fewer_
        exact Nat.find_min some (by omega)
      · intro name member less fewer_
        exact past name member less (by omega)
    · exact .inl rfl

theorem accepted_of_resolves (resolves : ∀ name, (name, .symlink) ∈ self.entries →
      ∃ limit path, (self.tree read).resolve limit [] (route name) = .file path) :
    checkSymlinks self.entries read = .ok () := by
  have resolvable : (self.tree read).Resolvable := by
    intro path last target link
    obtain ⟨name, member, split, -⟩ := tree_link link
    obtain ⟨limit, file, ends⟩ := resolves name member
    rw [resolve_route member split] at ends
    exact ⟨limit, file, ends⟩
  rw [checkSymlinks, forM_eq_ok]
  rintro ⟨name, mode⟩ member
  dsimp only
  split_ifs with link
  · subst link
    obtain ⟨limit, file, ends⟩ := resolves name member
    obtain ⟨path, last, split⟩ := exists_concat name
    rw [resolve_route member split] at ends
    rcases followLinks_ok resolvable [] member (fun _ => ⟨path, last, file, split, ends⟩) (by simp) with
      passed | stopped
    · exact passed
    · exact absurd stopped (followLinks_ends (self.entries.length + 1) name List.nodup_nil (by simp) (by simp))
  · rfl

/-- The check ends. What it accepts keeps every link in the tree: the link resolves to a selected file
that is no link, or fails. It accepts whenever every link resolves to such a file. -/
theorem checkSymlinks_sound (self : Selection) (read : Str → ByteArray) :
    checkSymlinks self.entries read ≠ .error .outOfFuel ∧
    (checkSymlinks self.entries read = .ok () → ∀ name, (name, .symlink) ∈ self.entries → ∀ limit,
      (self.tree read).Kept ((self.tree read).resolve limit [] (route name))) ∧
    ((∀ name, (name, .symlink) ∈ self.entries →
        ∃ limit path, (self.tree read).resolve limit [] (route name) = .file path) →
      checkSymlinks self.entries read = .ok ()) := by
  refine ⟨?_, fun accepted name member limit => kept_of_accepted accepted member limit, accepted_of_resolves⟩
  apply forM_ne_error
  rintro ⟨name, mode⟩
  dsimp only
  split_ifs
  · exact followLinks_ends (self.entries.length + 1) name List.nodup_nil (by simp) (by simp)
  · simp

/-- A link to a link to a file, over two directories. -/
def chained : Selection where
  entries := [("a/data".toList, .regular), ("a/link".toList, .symlink), ("b/via".toList, .symlink)]
  nodup := by decide
  safe := by
    simp only [List.forall_mem_cons, List.not_mem_nil, false_implies, implies_true, and_true]
    refine ⟨?_, ?_, ?_⟩
    all_goals
      rw [safePath, require, if_pos ⟨by decide, by decide, by decide, by simp⟩]
      rfl
  prefixFree := by decide

def chainedTarget (name : Str) : ByteArray :=
  if name = "a/link".toList then "../b/via".toUTF8 else "../a/data".toUTF8

theorem checkSymlinks_chained : checkSymlinks chained.entries chainedTarget = .ok () ∧
    ((chained.tree chainedTarget).resolve 2 [] (route "a/link".toList) = .file ["a".toList, "data".toList]) ∧
    ∀ limit, (chained.tree chainedTarget).Kept ((chained.tree chainedTarget).resolve limit [] (route "a/link".toList)) := by
  obtain ⟨-, kept, accepts⟩ := checkSymlinks_sound chained chainedTarget
  have ends : (chained.tree chainedTarget).resolve 2 [] (route "a/link".toList) =
      .file ["a".toList, "data".toList] := by decide +kernel
  have via : (chained.tree chainedTarget).resolve 2 [] (route "b/via".toList) =
      .file ["a".toList, "data".toList] := by decide +kernel
  have accepted := accepts fun name member => by
    simp only [chained, List.mem_cons, Prod.mk.injEq, reduceCtorEq, and_false, and_true, List.not_mem_nil,
      or_false, false_or] at member
    rcases member with rfl | rfl
    · exact ⟨2, _, ends⟩
    · exact ⟨2, _, via⟩
  exact ⟨accepted, ends, kept accepted _ (by decide)⟩

end Selection
end Pinrail.Import

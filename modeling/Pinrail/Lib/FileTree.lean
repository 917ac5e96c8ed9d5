import Mathlib.Data.List.Infix
import Mathlib.Tactic.Common

/-!
# Trees with links

A path is resolved in a tree of directories, files and symbolic links, component by component, with a
limit on the links that are followed. A path can also be collapsed as a text, without the tree. Where no
link leads to a directory, the two agree wherever the first comes to an end.
-/

namespace Pinrail.Lib

variable {N : Type}

inductive PathPart (N : Type) where
  | here
  | up
  | name (name : N)
deriving DecidableEq

inductive Target (N : Type) where
  | nothing
  | elsewhere
  | relative (parts : List (PathPart N))
deriving DecidableEq

inductive Node (N : Type) where
  | directory
  | file
  | link (target : Target N)
deriving DecidableEq

abbrev FileTree (N : Type) := List N → Option (Node N)

inductive Resolution (N : Type) where
  | directory (path : List N)
  | file (path : List N)
  | failed
  | outside
deriving DecidableEq

def collapse : List N → List (PathPart N) → Option (List N)
  | path, [] => some path
  | path, .here :: rest => collapse path rest
  | path, .up :: rest => if path.isEmpty then none else collapse path.dropLast rest
  | path, .name name :: rest => collapse (path ++ [name]) rest

namespace FileTree

/-- Walks on from a directory; `follow` goes on behind a link. -/
def walk (tree : FileTree N) (follow : List N → List (PathPart N) → Resolution N) :
    List N → List (PathPart N) → Resolution N
  | path, [] => .directory path
  | path, .here :: rest => walk tree follow path rest
  | path, .up :: rest => if path.isEmpty then .outside else walk tree follow path.dropLast rest
  | path, .name name :: rest =>
    match tree (path ++ [name]) with
    | none => .failed
    | some .directory => walk tree follow (path ++ [name]) rest
    | some .file => if rest.isEmpty then .file (path ++ [name]) else .failed
    | some (.link .nothing) => .failed
    | some (.link .elsewhere) => .outside
    | some (.link (.relative parts)) => follow path (parts ++ rest)

/-- Resolves a path; at most `limit` links are followed. -/
def resolve (tree : FileTree N) : Nat → List N → List (PathPart N) → Resolution N
  | 0 => tree.walk fun _ _ => .failed
  | limit + 1 => tree.walk (tree.resolve limit)

def Leaf (tree : FileTree N) (path : List N) : Prop :=
  tree path = some .file ∨ ∃ target, tree path = some (.link target)

def Clear (tree : FileTree N) (path : List N) : Prop := ∀ front, front <+: path → ¬ tree.Leaf front

def Checked (tree : FileTree N) : Prop :=
  ∀ path name target, tree (path ++ [name]) = some (.link target) →
    ∃ parts leaf, target = .relative parts ∧ collapse path parts = some leaf ∧ tree.Leaf leaf

def Resolvable (tree : FileTree N) : Prop :=
  ∀ path name target, tree (path ++ [name]) = some (.link target) →
    ∃ limit file, tree.resolve limit path [.name name] = .file file

variable {tree : FileTree N} {follow : List N → List (PathPart N) → Resolution N} {path file : List N}
  {parts rest : List (PathPart N)} {name : N}

theorem Clear.dropLast (clear : tree.Clear path) : tree.Clear path.dropLast :=
  fun front before => clear front (before.trans (List.dropLast_prefix path))

theorem Clear.concat (clear : tree.Clear path) (directory : tree (path ++ [name]) = some .directory) :
    tree.Clear (path ++ [name]) := by
  intro front before
  rcases List.prefix_concat_iff.mp before with rfl | before
  · rintro (file | ⟨target, link⟩)
    · rw [directory] at file
      cases file
    · rw [directory] at link
      cases link
  · exact clear front before

theorem resolve_names (limit : Nat) (rest : List (PathPart N))
    (directories : ∀ front name, front ++ [name] <+: path → tree (front ++ [name]) = some .directory) :
    tree.resolve limit [] (path.map PathPart.name ++ rest) = tree.resolve limit path rest := by
  induction path using List.reverseRecOn generalizing rest with
  | nil => rfl
  | append_singleton path name ih =>
    have before (front : List N) (name' : N) (ahead : front ++ [name'] <+: path) :
        tree (front ++ [name']) = some .directory :=
      directories front name' (ahead.trans (List.prefix_append path [name]))
    have here := directories path name (List.prefix_refl _)
    rw [List.map_append, List.append_assoc, List.map_singleton, List.singleton_append, ih _ before]
    cases limit with
    | zero =>
      rw [resolve, walk, here]
    | succ limit =>
      rw [resolve, walk, here]

/-! ## Links that are checked -/

def Kept (tree : FileTree N) : Resolution N → Prop
  | .file path => tree path = some .file
  | .failed => True
  | .directory _ => False
  | .outside => False

theorem walk_kept (follow : List N → List (PathPart N) → Resolution N) (checked : tree.Checked)
    (goesOn : ∀ path parts rest leaf, tree.Clear path → collapse path parts = some leaf → tree.Leaf leaf →
      tree.Kept (follow path (parts ++ rest)))
    {leaf : List N} (clear : tree.Clear path) (collapsed : collapse path parts = some leaf)
    (found : tree.Leaf leaf) (rest : List (PathPart N)) : tree.Kept (tree.walk follow path (parts ++ rest)) := by
  induction parts generalizing path with
  | nil =>
    cases collapsed
    exact absurd found (clear _ (List.prefix_refl _))
  | cons part parts ih =>
    cases part with
    | here => exact ih clear collapsed
    | up =>
      rw [collapse] at collapsed
      split_ifs at collapsed with root
      rw [List.cons_append, walk, if_neg root]
      exact ih clear.dropLast collapsed
    | name name =>
      rw [List.cons_append, walk]
      cases node : tree (path ++ [name]) with
      | none => trivial
      | some node_ =>
        cases node_ with
        | directory => exact ih (clear.concat node) collapsed
        | file =>
          dsimp only
          split_ifs
          · exact node
          · trivial
        | link target =>
          obtain ⟨parts', leaf', rfl, collapsed', found'⟩ := checked path name target node
          exact goesOn path parts' (parts ++ rest) leaf' clear collapsed' found'

theorem resolve_kept (checked : tree.Checked) (limit : Nat) {leaf : List N} (clear : tree.Clear path)
    (collapsed : collapse path parts = some leaf) (found : tree.Leaf leaf) (rest : List (PathPart N)) :
    tree.Kept (tree.resolve limit path (parts ++ rest)) := by
  induction limit generalizing path parts leaf rest with
  | zero => exact walk_kept (fun _ _ => .failed) checked (fun _ _ _ _ _ _ _ => trivial) clear collapsed found rest
  | succ limit ih =>
    exact walk_kept (tree.resolve limit) checked (fun _ _ rest _ clear collapsed found => ih clear collapsed found rest)
      clear collapsed found rest

/-! ## Links that resolve -/

theorem walk_append {other : List N → List (PathPart N) → Resolution N}
    (goesOn : ∀ path parts file, follow path parts = .file file → ∀ rest, rest ≠ [] →
      other path (parts ++ rest) = .failed)
    (ends : tree.walk follow path parts = .file file) (behind : rest ≠ []) :
    tree.walk other path (parts ++ rest) = .failed := by
  induction parts generalizing path with
  | nil => cases ends
  | cons part parts ih =>
    cases part with
    | here => exact ih ends
    | up =>
      rw [walk] at ends
      split_ifs at ends with root
      rw [List.cons_append, walk, if_neg root]
      exact ih ends
    | name name =>
      rw [walk] at ends
      rw [List.cons_append, walk]
      cases node : tree (path ++ [name]) with
      | none => rfl
      | some node_ =>
        rw [node] at ends
        cases node_ with
        | directory => exact ih ends
        | file =>
          dsimp only
          rw [if_neg]
          simp [behind]
        | link target =>
          cases target with
          | nothing => rfl
          | elsewhere => cases ends
          | relative parts' =>
            dsimp only
            rw [← List.append_assoc]
            exact goesOn path (parts' ++ parts) file ends rest behind

theorem resolve_append {limit : Nat} {file : List N} (ends : tree.resolve limit path parts = .file file)
    (behind : rest ≠ []) (other : Nat) : tree.resolve other path (parts ++ rest) = .failed := by
  induction limit generalizing path parts rest file other with
  | zero =>
    cases other with
    | zero => exact walk_append (fun _ _ _ none => by cases none) ends behind
    | succ other => exact walk_append (fun _ _ _ none => by cases none) ends behind
  | succ limit ih =>
    cases other with
    | zero => exact walk_append (fun _ _ _ _ _ _ => rfl) ends behind
    | succ other =>
      exact walk_append (fun _ _ _ ends rest behind => ih ends behind other) ends behind

structure Collapses (tree : FileTree N) (limit : Nat) (path : List N) (parts : List (PathPart N)) : Prop where
  leaf : ∃ leaf, collapse path parts = some leaf ∧ (tree leaf = some .file ∨
    ∃ front name target file, leaf = front ++ [name] ∧ tree leaf = some (.link target) ∧
      tree.resolve limit front [.name name] = .file file)
  known : ∀ name, PathPart.name name ∈ parts → ∃ front, tree (front ++ [name]) ≠ none

theorem Collapses.cons {limit : Nat} {part : PathPart N} {next : List N} (collapses : tree.Collapses limit next parts)
    (step : collapse path (part :: parts) = collapse next parts)
    (known : ∀ name, part = .name name → ∃ front, tree (front ++ [name]) ≠ none) :
    tree.Collapses limit path (part :: parts) where
  leaf := by
    rw [step]
    exact collapses.leaf
  known name member := by
    rcases List.mem_cons.mp member with same | member
    · exact known name same.symm
    · exact collapses.known name member

theorem walk_file (follow : List N → List (PathPart N) → Resolution N) {limit : Nat}
    (behind : ∀ path name target rest file, tree (path ++ [name]) = some (.link (.relative target)) → rest ≠ [] →
      follow path (target ++ rest) ≠ .file file)
    (walks : ∀ path parts, tree.resolve limit path parts = tree.walk follow path parts)
    (ends : tree.resolve limit path parts = .file file) : tree.Collapses limit path parts := by
  induction parts generalizing path with
  | nil =>
    rw [walks] at ends
    cases ends
  | cons part parts ih =>
    have walked := ends
    rw [walks] at walked
    cases part with
    | here =>
      rw [walk, ← walks] at walked
      exact (ih walked).cons rfl (by simp)
    | up =>
      rw [walk] at walked
      split_ifs at walked with root
      rw [← walks] at walked
      exact (ih walked).cons (by rw [collapse, if_neg root]) (by simp)
    | name name =>
      rw [walk] at walked
      cases node : tree (path ++ [name]) with
      | none =>
        rw [node] at walked
        cases walked
      | some node_ =>
        rw [node] at walked
        have known : ∀ other, PathPart.name name = .name other → ∃ front, tree (front ++ [other]) ≠ none := by
          rintro other same
          cases same
          exact ⟨path, by rw [node]; simp⟩
        cases node_ with
        | directory =>
          rw [← walks] at walked
          exact (ih walked).cons rfl known
        | file =>
          dsimp only at walked
          split_ifs at walked with last
          obtain rfl := List.isEmpty_iff.mp last
          refine ⟨⟨path ++ [name], rfl, .inl node⟩, fun other member => ?_⟩
          exact known other (List.mem_singleton.mp member).symm
        | link target =>
          cases target with
          | nothing => cases walked
          | elsewhere => cases walked
          | relative parts' =>
            by_cases last : parts = []
            · subst last
              refine ⟨⟨path ++ [name], rfl, .inr ⟨path, name, _, file, rfl, node, ends⟩⟩, fun other member => ?_⟩
              exact known other (List.mem_singleton.mp member).symm
            · exact absurd walked (behind path name parts' parts file node last)

theorem resolve_file (resolvable : tree.Resolvable) {limit : Nat}
    (ends : tree.resolve limit path parts = .file file) : tree.Collapses limit path parts := by
  cases limit with
  | zero =>
    exact walk_file (fun _ _ => .failed) (fun _ _ _ _ _ _ _ none => by cases none) (fun _ _ => rfl) ends
  | succ limit =>
    refine walk_file (tree.resolve limit) ?_ (fun _ _ => rfl) ends
    intro path name target rest file node behind found
    obtain ⟨enough, file', alone⟩ := resolvable path name _ node
    cases enough with
    | zero =>
      rw [resolve, walk, node] at alone
      cases alone
    | succ enough =>
      rw [resolve, walk, node] at alone
      dsimp only at alone
      rw [List.append_nil] at alone
      rw [resolve_append alone behind limit] at found
      cases found

end FileTree
end Pinrail.Lib

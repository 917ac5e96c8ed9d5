import Pinrail.SumTree.Cursor

/-!
# What a walk over a tree keeps

The trees on the stack of a cursor are its root and nodes below it, whatever the dimension and the
targets are. A property that the children of a node inherit therefore holds of all of them, and an
aggregate that keeps a predicate when it is fed such trees keeps it through a seek.
-/

namespace Pinrail
open Lib SumTree

variable {T S : Type} [Item T S]

structure Hereditary (P : SumTree T S → Prop) : Prop where
  child : ∀ {h : Nat} {s : S} {ss : List S} {trees : List (SumTree T S)} {tree : SumTree T S},
    P (.internal h s ss trees) → tree ∈ trees → P tree
  itemSummaries_eq : ∀ {s : S} {xs : List T} {ss : List S}, P (.leaf s xs ss) → ss = xs.map Item.summary

namespace Cursor
variable {D : Type} [Dimension S D]

/-- The cursor looks at `root` and the trees on its stack all have `P`. -/
def Within (P : SumTree T S → Prop) (root : SumTree T S) (self : Cursor T S D) : Prop :=
  self.tree = root ∧ ∀ entry ∈ self.stack, P entry.tree

variable {P : SumTree T S → Prop} {root : SumTree T S}

omit [Item T S] [Dimension S D] in
theorem insertFront_within {stack pushed : List (StackEntry T S D)} {entry : StackEntry T S D}
    (within : ∀ e ∈ entry :: stack, P e.tree) (eq : insertFront stackCapacity entry stack = .ok pushed) : ∀ e ∈ pushed,
    P e.tree := by
  unfold insertFront at eq
  split_ifs at eq
  cases eq
  exact within

omit [Item T S] [Dimension S D] in
theorem Within.pushed {self : Cursor T S D} (within : Within P root self) (holds : P root) {i : Nat} {p : D}
    {pushed : List (StackEntry T S D)}
    (eq : insertFront stackCapacity ⟨self.tree, i, p⟩ self.stack = .ok pushed) : ∀ e ∈ pushed, P e.tree :=
  insertFront_within (by simpa using ⟨within.1 ▸ holds, within.2⟩) eq

/-! ## Searches -/

theorem searchForwardStep_within (hereditary : Hereditary P) (filterNode : S → Bool) {self : Cursor T S D}
    {descend : Bool} {outcome : (Cursor T S D × Bool) ⊕ Cursor T S D} (within : Within P root self)
    (stepped : searchForwardStep filterNode (self, descend) = .ok outcome) :
    outcome.elim (fun next => Within P root next.1) (Within P root) := by
  obtain ⟨tree, stack, position, didSeek, atEnd⟩ := self
  obtain ⟨rfl, within⟩ := within
  rcases stack with _ | ⟨⟨node, i, p⟩, rest⟩
  · cases stepped
    exact ⟨rfl, within⟩
  · have top := within _ List.mem_cons_self
    have below := fun e mem => within e (List.mem_cons_of_mem _ mem)
    cases node with
    | internal h s ss trees =>
      simp only [searchForwardStep] at stepped
      split at stepped
      · rename_i subtree found
        obtain ⟨stack, pushed, stepped⟩ := bind_eq_ok.mp stepped
        cases stepped
        refine ⟨rfl, insertFront_within ?_ pushed⟩
        simpa using ⟨hereditary.child top (List.mem_of_getElem? found), top, below⟩
      · cases stepped
        exact ⟨rfl, below⟩
    | leaf s xs ss =>
      simp only [searchForwardStep] at stepped
      obtain ⟨⟨i, p, position⟩, -, stepped⟩ := bind_eq_ok.mp stepped
      simp only at stepped
      split_ifs at stepped
      · cases stepped
        exact ⟨rfl, by simpa using ⟨top, below⟩⟩
      · cases stepped
        exact ⟨rfl, below⟩

omit [Item T S] in
theorem enterForward_within {self next : Cursor T S D} {descend : Bool} (holds : P root) (within : Within P root self)
    (entered : self.enterForward = .ok (next, descend)) : Within P root next := by
  unfold enterForward at entered
  split_ifs at entered
  · cases entered
    exact within
  · obtain ⟨stack, pushed, entered⟩ := bind_eq_ok.mp entered
    cases entered
    exact ⟨within.1, within.pushed holds pushed⟩
  · cases entered
    exact within

theorem searchForward_within (hereditary : Hereditary P) (filterNode : S → Bool) {self next : Cursor T S D}
    (holds : P root) (within : Within P root self)
    (searched : self.searchForward filterNode = .ok next) : Within P root next := by
  obtain ⟨⟨start, descend⟩, entered, searched⟩ := bind_eq_ok.mp searched
  exact loop_preserves (fun s : Cursor T S D × Bool => Within P root s.1) (Within P root)
    (fun _ _ within stepped => searchForwardStep_within hereditary filterNode within stepped)
    (fun _ _ within stepped => searchForwardStep_within hereditary filterNode within stepped)
    (start, descend) (enterForward_within holds within entered) next searched

theorem visitBackward_within (hereditary : Hereditary P) (filterNode : S → Bool) {tree : SumTree T S} {i : Nat} {p : D}
    {rest : List (StackEntry T S D)} {didSeek atEnd : Bool} {outcome : (Cursor T S D × Bool) ⊕ Cursor T S D}
    (within : ∀ e ∈ ⟨tree, i, p⟩ :: rest, P e.tree)
    (visited : visitBackward filterNode root tree i rest didSeek atEnd = .ok outcome) :
    outcome.elim (fun next => Within P root next.1) (Within P root) := by
  have top : P tree := within _ List.mem_cons_self
  have below := fun e mem => within e (List.mem_cons_of_mem _ mem)
  obtain ⟨before, -, visited⟩ := bind_eq_ok.mp visited
  obtain ⟨summary, -, visited⟩ := bind_eq_ok.mp visited
  have kept : ∀ position : D, ∀ e ∈ ⟨tree, i, position⟩ :: rest, P e.tree := by
    intro position
    simpa using ⟨top, below⟩
  cases tree with
  | internal h s ss trees =>
    simp only at visited
    split_ifs at visited
    · obtain ⟨child, found, visited⟩ := bind_eq_ok.mp visited
      obtain ⟨last, -, visited⟩ := bind_eq_ok.mp visited
      obtain ⟨stack, pushed, visited⟩ := bind_eq_ok.mp visited
      cases visited
      refine ⟨rfl, insertFront_within ?_ pushed⟩
      simpa using ⟨hereditary.child top (mem_of_index found), top, below⟩
    · cases visited
      exact ⟨rfl, kept _⟩
  | leaf s xs ss =>
    simp only at visited
    split_ifs at visited
    · cases visited
      exact ⟨rfl, kept _⟩
    · cases visited
      exact ⟨rfl, kept _⟩

theorem searchBackwardStep_within (hereditary : Hereditary P) (filterNode : S → Bool) {self : Cursor T S D}
    {descending : Bool} {outcome : (Cursor T S D × Bool) ⊕ Cursor T S D} (within : Within P root self)
    (stepped : searchBackwardStep filterNode (self, descending) = .ok outcome) :
    outcome.elim (fun next => Within P root next.1) (Within P root) := by
  obtain ⟨tree, stack, position, didSeek, atEnd⟩ := self
  obtain ⟨rfl, within⟩ := within
  rcases stack with _ | ⟨⟨node, i, p⟩, rest⟩
  · cases stepped
    exact ⟨rfl, within⟩
  · cases descending with
    | true => exact visitBackward_within hereditary filterNode within stepped
    | false =>
      cases i with
      | zero =>
        cases stepped
        exact ⟨rfl, fun e mem => within e (List.mem_cons_of_mem _ mem)⟩
      | succ i =>
        refine visitBackward_within hereditary (p := p) filterNode ?_ stepped
        simpa using within

omit [Item T S] in
theorem enterBackward_within {self next : Cursor T S D} (holds : P root) (within : Within P root self)
    (entered : self.enterBackward = .ok next) : Within P root next := by
  unfold enterBackward at entered
  simp only at entered
  split_ifs at entered
  · cases entered
    exact within
  · obtain ⟨stack, pushed, entered⟩ := bind_eq_ok.mp entered
    cases entered
    exact ⟨within.1, within.pushed holds pushed⟩
  · cases entered
    exact within

theorem searchBackward_within (hereditary : Hereditary P) (filterNode : S → Bool) {self next : Cursor T S D}
    (holds : P root) (within : Within P root self)
    (searched : self.searchBackward filterNode = .ok next) : Within P root next := by
  obtain ⟨start, entered, searched⟩ := bind_eq_ok.mp searched
  exact loop_preserves (fun s : Cursor T S D × Bool => Within P root s.1) (Within P root)
    (fun _ _ within stepped => searchBackwardStep_within hereditary filterNode within stepped)
    (fun _ _ within stepped => searchBackwardStep_within hereditary filterNode within stepped)
    (start, false) (enterBackward_within holds within entered) next searched

/-! ## Seeks -/

variable {A : Type}

/-- An aggregate keeps `ok` when it is fed trees that have `P`. -/
structure KeepsOn (P : SumTree T S → Prop) (aggregate : SeekAggregate T S A) (ok : A → Prop) :
    Prop where
  beginLeaf : ∀ a, ok a → ok (aggregate.beginLeaf a)
  endLeaf : ∀ a a', ok a → aggregate.endLeaf a = .ok a' → ok a'
  pushItem : ∀ a a' item, ok a → aggregate.pushItem a item (Item.summary item) = .ok a' → ok a'
  pushTree : ∀ a a' tree summary, ok a → P tree → aggregate.pushTree a tree summary = .ok a' → ok a'

variable {aggregate : SeekAggregate T S A} {ok : A → Prop}

theorem seekChildren_keepsOn (keeps : KeepsOn P aggregate ok) (target : SeekTarget D) (bias : Bias)
    {children : List (SumTree T S × S)} {i i' : Nat} {p p' position position' : D} {a a' : A}
    {child : Option (SumTree T S)} (held : ok a) (each : ∀ entry ∈ children, P entry.1)
    (eq : seekChildren target bias aggregate children i p position a = .ok (child, i', p', position', a')) : ok a' ∧
    ∀ tree ∈ child, P tree := by
  induction children generalizing i p position a with
  | nil =>
    cases eq
    exact ⟨held, by simp⟩
  | cons entry children ih =>
    simp only [seekChildren] at eq
    simp only [List.mem_cons, forall_eq_or_imp] at each
    split_ifs at eq
    · obtain ⟨pushed, pushedEq, eq⟩ := bind_eq_ok.mp eq
      exact ih (keeps.pushTree _ _ _ _ held each.1 pushedEq) each.2 eq
    · cases eq
      exact ⟨held, by simpa using each.1⟩

theorem seekItems_keepsOn (keeps : KeepsOn P aggregate ok) (target : SeekTarget D) (bias : Bias) {items : List (T × S)}
    {i i' : Nat} {position position' : D} {a a' : A} {stopped : Bool} (held : ok a)
    (summarized : ∀ entry ∈ items, entry.2 = Item.summary entry.1)
    (eq : seekItems target bias aggregate items i position a = .ok (stopped, i', position', a')) : ok a' := by
  induction items generalizing i position a with
  | nil =>
    cases eq
    exact held
  | cons entry items ih =>
    obtain ⟨item, summary⟩ := entry
    simp only [seekItems] at eq
    simp only [List.mem_cons, forall_eq_or_imp] at summarized
    split_ifs at eq
    · obtain ⟨pushed, pushedEq, eq⟩ := bind_eq_ok.mp eq
      rw [summarized.1] at pushedEq
      exact ih (keeps.pushItem _ _ _ held pushedEq) summarized.2 eq
    · cases eq
      exact held

theorem seekStep_within (hereditary : Hereditary P) (keeps : KeepsOn P aggregate ok) (target : SeekTarget D)
    (bias : Bias) {self : Cursor T S D} {ascending : Bool} {a : A}
    {outcome : (Cursor T S D × Bool × A) ⊕ (Cursor T S D × A)} (within : Within P root self) (held : ok a)
    (stepped : seekStep target bias aggregate (self, ascending, a) = .ok outcome) :
    outcome.elim (fun next => Within P root next.1 ∧ ok next.2.2)
    (fun result => Within P root result.1 ∧ ok result.2) := by
  obtain ⟨tree, stack, position, didSeek, atEnd⟩ := self
  obtain ⟨rfl, within⟩ := within
  rcases stack with _ | ⟨⟨node, i, p⟩, rest⟩
  · cases stepped
    exact ⟨⟨rfl, within⟩, held⟩
  · have top := within _ List.mem_cons_self
    have below := fun e mem => within e (List.mem_cons_of_mem _ mem)
    cases node with
    | internal h s ss trees =>
      simp only [seekStep] at stepped
      obtain ⟨remaining, sliced, stepped⟩ := bind_eq_ok.mp stepped
      obtain ⟨summaries, -, stepped⟩ := bind_eq_ok.mp stepped
      obtain ⟨⟨child, i', p', position', a'⟩, sought, stepped⟩ := bind_eq_ok.mp stepped
      obtain ⟨held', childHolds⟩ := seekChildren_keepsOn keeps target bias held
        (fun entry mem => hereditary.child top (List.mem_of_mem_drop
          (eq_drop_of_sliceFrom sliced ▸ (List.of_mem_zip mem).1))) sought
      cases child with
      | none =>
        cases stepped
        exact ⟨⟨rfl, below⟩, held'⟩
      | some child =>
        obtain ⟨stack, pushed, stepped⟩ := bind_eq_ok.mp stepped
        cases stepped
        refine ⟨⟨rfl, insertFront_within ?_ pushed⟩, held'⟩
        simpa using ⟨childHolds child rfl, top, below⟩
    | leaf s xs ss =>
      simp only [seekStep] at stepped
      obtain ⟨remaining, sliced, stepped⟩ := bind_eq_ok.mp stepped
      obtain ⟨summaries, slicedSummaries, stepped⟩ := bind_eq_ok.mp stepped
      obtain ⟨⟨stopped, i', position', a'⟩, sought, stepped⟩ := bind_eq_ok.mp stepped
      obtain ⟨a'', ended, left⟩ := bind_eq_ok.mp stepped
      obtain rfl := eq_drop_of_sliceFrom sliced
      obtain rfl := eq_drop_of_sliceFrom slicedSummaries
      obtain rfl := hereditary.itemSummaries_eq top
      have held' := keeps.endLeaf _ _ (seekItems_keepsOn keeps target bias (keeps.beginLeaf _ held) (fun entry mem => by
          rw [← List.map_drop, zip_map_self] at mem
          obtain ⟨x, -, rfl⟩ := List.mem_map.mp mem
          rfl) sought) ended
      cases stopped with
      | true =>
        cases left
        exact ⟨⟨rfl, by simpa using ⟨top, below⟩⟩, held'⟩
      | false =>
        cases left
        exact ⟨⟨rfl, below⟩, held'⟩

omit [Item T S] in
theorem enterSeek_within {self next : Cursor T S D} (holds : P root)
    (within : Within P root self) (entered : self.enterSeek = .ok next) : Within P root next := by
  unfold enterSeek at entered
  split_ifs at entered
  · cases entered
    exact within
  · obtain ⟨stack, pushed, entered⟩ := bind_eq_ok.mp entered
    cases entered
    exact ⟨within.1, within.pushed holds pushed⟩

theorem seekInternal_within (hereditary : Hereditary P) (keeps : KeepsOn P aggregate ok) (target : SeekTarget D)
    (bias : Bias) {self next : Cursor T S D} {found : Bool} {a a' : A} (holds : P root) (within : Within P root self)
    (held : ok a) (sought : self.seekInternal target bias aggregate a = .ok (found, next, a')) : Within P root next ∧
    ok a' := by
  obtain ⟨-, -, sought⟩ := bind_eq_ok.mp sought
  obtain ⟨start, entered, sought⟩ := bind_eq_ok.mp sought
  obtain ⟨⟨stopped, _⟩, looped, sought⟩ := bind_eq_ok.mp sought
  obtain ⟨-, -, sought⟩ := bind_eq_ok.mp sought
  obtain ⟨location, -, sought⟩ := bind_eq_ok.mp sought
  cases sought
  exact loop_preserves (fun s : Cursor T S D × Bool × A => Within P root s.1 ∧ ok s.2.2)
    (fun r : Cursor T S D × A => Within P root r.1 ∧ ok r.2)
    (fun _ _ inv stepped => seekStep_within hereditary keeps target bias inv.1 inv.2 stepped)
    (fun _ _ inv stepped => seekStep_within hereditary keeps target bias inv.1 inv.2 stepped)
    (start, false, a) ⟨enterSeek_within holds within entered, held⟩ (stopped, a') looped

end Cursor
end Pinrail

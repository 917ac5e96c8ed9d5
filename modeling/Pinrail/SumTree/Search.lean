import Mathlib.Data.List.DropRight
import Mathlib.Data.List.TakeWhile
import Pinrail.SumTree.Trail

/-!
# Searching forward and backward

What `search_forward` and `search_backward` do for a filter that accepts every node with an
accepted item below it: the cursor moves to the nearest accepted item on the side it searches. The
stack must have room for the tree, which `Shallow` says.
-/

namespace Pinrail.Cursor
open Lib SumTree

variable {T S D : Type} [Summary S] [Item T S] [Dimension S D]

def Shallow (root : SumTree T S) : Prop := root.height < stackCapacity

instance (root : SumTree T S) : Decidable (Shallow root) := inferInstanceAs (Decidable (_ < _))

/-- The filter accepts every node of `root` below which it accepts an item. -/
def SeesItems (filterNode : S → Bool) (root : SumTree T S) : Prop :=
  ∀ ⦃stack : List (StackEntry T S D)⦄ ⦃h : Nat⦄ ⦃tree : SumTree T S⦄ ⦃before after : List T⦄,
    Trail root stack h tree before after →
      ∀ item ∈ tree.toList, filterNode (Item.summary item) = true → filterNode tree.summary = true

def rejects (filterNode : S → Bool) (item : T) : Bool := !filterNode (Item.summary item)

variable {root tree : SumTree T S} {stack : List (StackEntry T S D)} {h : Nat}
  {before after : List T} {filterNode : S → Bool}

namespace Trail

theorem room (trail : Trail root stack (h + 1) tree before after) (shallow : Shallow root)
    (entry : StackEntry T S D) : (entry :: stack).length < stackCapacity := by
  have depth := trail.depth
  rw [Shallow] at shallow
  rw [List.length_cons]
  omega

theorem rejected (trail : Trail root stack h tree before after) (sees : SeesItems (D := D) filterNode root)
    (no : filterNode tree.summary = false) : ∀ item ∈ tree.toList, rejects filterNode item = true := by
  intro item mem
  by_contra accepted
  simp only [rejects, Bool.not_eq_true, Bool.not_eq_false'] at accepted
  rw [sees trail item mem accepted] at no
  cases no

theorem children_rejected {s : S} {ss : List S} {trees : List (SumTree T S)}
    (trail : Trail root stack (h + 1) (.internal (h + 1) s ss trees) before after)
    (sees : SeesItems (D := D) filterNode root) (skipped : List (SumTree T S)) (among : ∀ t ∈ skipped, t ∈ trees)
    (no : ∀ t ∈ skipped, filterNode t.summary = false) : ∀ item ∈ toLists skipped, rejects filterNode item = true := by
  intro item mem
  rw [toLists_eq_flatten, List.mem_flatten] at mem
  obtain ⟨part, partMem, itemMem⟩ := mem
  obtain ⟨child, childMem, rfl⟩ := List.mem_map.mp partMem
  obtain ⟨left, right, rfl⟩ := List.append_of_mem (among child childMem)
  exact trail.child.rejected sees (no child childMem) item itemMem

end Trail

/-! ## Forward -/

/-- `Ahead root stack descend done rest`: the loop of `search_forward` has `done` behind it and
`rest` still to look at. It either has just entered a node or has just left one. -/
inductive Ahead (root : SumTree T S) :
    List (StackEntry T S D) → Bool → List T → List T → Prop where
  | enter {stack : List (StackEntry T S D)} {h : Nat} {tree : SumTree T S} {before after : List T}
      (trail : Trail root stack h tree before after) :
      Ahead root (⟨tree, 0, measure before⟩ :: stack) true before (tree.toList ++ after)
  | leave {stack : List (StackEntry T S D)} {h : Nat} {tree : SumTree T S} {before after : List T}
      (trail : Trail root stack h tree before after) :
      Ahead root stack false (before ++ tree.toList) after

omit [Summary S] [Item T S] in
theorem skipRejected_eq (filterNode : S → Bool) (summaries : List S) (i : Nat) (p position : D) :
    skipRejected filterNode summaries i p position = (i + (summaries.takeWhile fun s => !filterNode s).length,
        (summaries.takeWhile fun s => !filterNode s).foldl Dimension.addSummary p,
        (summaries.takeWhile fun s => !filterNode s).foldl Dimension.addSummary position) := by
  induction summaries generalizing i p position with
  | nil => rfl
  | cons next rest ih =>
    rw [skipRejected]
    cases accepted : filterNode next with
    | true => simp [accepted]
    | false =>
      rw [if_neg (by simp), ih]
      simp [accepted]
      omega

/-- A state of the loop of `search_forward` on the way to a cursor between `done` and `rest`. -/
def Forward (filterNode : S → Bool) (root : SumTree T S) (done rest : List T)
    (state : Cursor T S D × Bool) : Prop :=
  ∃ stack before after, state.1 = ⟨root, stack, measure before, true, false⟩ ∧ Ahead root stack state.2 before after ∧
    before ++ after.takeWhile (rejects filterNode) = done ∧
    after.dropWhile (rejects filterNode) = rest

variable [LawfulSummary S] [LawfulDimension S D]

theorem forward_internal {s : S} {ss : List S} (left : List (SumTree T S))
    {right : List (SumTree T S)} {done rest : List T} (i : Nat) (p : D) (descend : Bool)
    (shallow : Shallow root) (sees : SeesItems (D := D) filterNode root)
    (trail : Trail root stack (h + 1) (.internal (h + 1) s ss (left ++ right)) before after)
    (entered : (if descend then (i, p) else (i + 1, measure (before ++ toLists left))) =
      (left.length, measure (before ++ toLists left)))
    (reaches : before ++ toLists left ++ (toLists right ++ after).takeWhile (rejects filterNode) = done)
    (leaves : (toLists right ++ after).dropWhile (rejects filterNode) = rest) :
    ∃ state, searchForwardStep filterNode (⟨root, ⟨.internal (h + 1) s ss (left ++ right), i, p⟩ :: stack,
        measure (before ++ toLists left), true, false⟩, descend) = .ok (.inl state) ∧
      Forward filterNode root done rest state := by
  obtain rfl := trail.balanced.childSummaries_eq
  have below := trail.balanced.child
  obtain ⟨skipped, remaining, rfl, skippedEq, no⟩ : ∃ skipped remaining, right = skipped ++ remaining ∧
      right.takeWhile (fun t => !filterNode t.summary) = skipped ∧
      ∀ t ∈ skipped, filterNode t.summary = false :=
    ⟨_, _, (List.takeWhile_append_dropWhile).symm, rfl, fun t mem => by
      simpa using List.mem_takeWhile_imp mem⟩
  have all := trail.children_rejected sees skipped (by simp +contextual) no
  have moved : before ++ toLists left ++ toLists skipped = before ++ toLists (left ++ skipped) := by
    simp
  have skips : skipRejected filterNode
      (((left ++ (skipped ++ remaining)).map SumTree.summary).drop left.length) left.length
      (measure (before ++ toLists left)) (measure (before ++ toLists left)) =
        (left.length + skipped.length, (measure (before ++ toLists (left ++ skipped)) : D),
          measure (before ++ toLists (left ++ skipped))) := by
    have dropped : ((left ++ (skipped ++ remaining)).map SumTree.summary).drop left.length =
        (skipped ++ remaining).map SumTree.summary := by simp
    have taken : ((skipped ++ remaining).map SumTree.summary).takeWhile (fun s => !filterNode s) =
        skipped.map SumTree.summary := by
      rw [List.takeWhile_map]
      exact congrArg (List.map SumTree.summary) skippedEq
    rw [dropped, skipRejected_eq, taken, measure_trees _ fun t mem => below t (by simp [mem]), List.length_map, moved]
  rw [toLists_append, List.append_assoc (toLists skipped), List.takeWhile_append_of_pos all,
    ← List.append_assoc, moved] at reaches
  rw [toLists_append, List.append_assoc, List.dropWhile_append_of_pos all] at leaves
  simp only [searchForwardStep, entered, skips]
  cases remaining with
  | nil =>
    refine ⟨(⟨root, stack, _, true, false⟩, false), ?_, stack, _, after, rfl, .leave trail, ?_, ?_⟩
    · simp [pure, Except.pure]
    · simpa using reaches
    · simpa using leaves
  | cons next remaining =>
    have regroup : left ++ (skipped ++ next :: remaining) = (left ++ skipped) ++ next :: remaining := by
      simp
    have found : (left ++ (skipped ++ next :: remaining))[left.length + skipped.length]? = some next := by
      rw [regroup, ← List.length_append]
      simp
    rw [regroup] at trail
    simp only [found]
    rw [insertFront_of_lt (trail.room shallow _), ok_bind]
    refine ⟨(⟨root, _, _, true, false⟩, true), rfl, _, _,
      next.toList ++ (toLists remaining ++ after), rfl, ?_, ?_, ?_⟩
    · simp only [regroup, ← List.length_append]
      exact .enter trail.child
    · simpa using reaches
    · simpa using leaves

omit [LawfulSummary S] [LawfulDimension S D] in
theorem forward_leaf (filterNode : S → Bool) {s : S} {ss : List S} (left : List T)
    {right done rest : List T} (i : Nat) (p p' position : D) (descend : Bool)
    (trail : Trail root stack 0 (.leaf s (left ++ right) ss) before after)
    (entered : leaveItem ss descend i p position = .ok (left.length, p', measure (before ++ left)))
    (reaches : before ++ left ++ (right ++ after).takeWhile (rejects filterNode) = done)
    (leaves : (right ++ after).dropWhile (rejects filterNode) = rest) :
    (∃ state, searchForwardStep filterNode (⟨root, ⟨.leaf s (left ++ right) ss, i, p⟩ :: stack, position,
        true, false⟩, descend) = .ok (.inl state) ∧ Forward filterNode root done rest state) ∨
    ∃ next, searchForwardStep filterNode (⟨root, ⟨.leaf s (left ++ right) ss, i, p⟩ :: stack, position,
        true, false⟩, descend) = .ok (.inr next) ∧ Rests root next done rest := by
  obtain rfl := trail.balanced.itemSummaries_eq
  obtain ⟨skipped, remaining, rfl, skippedEq, all⟩ : ∃ skipped remaining,
      right = skipped ++ remaining ∧ right.takeWhile (rejects filterNode) = skipped ∧
      ∀ item ∈ skipped, rejects filterNode item = true :=
    ⟨_, _, (List.takeWhile_append_dropWhile).symm, rfl, fun item mem => List.mem_takeWhile_imp mem⟩
  have skips : skipRejected filterNode
      (((left ++ (skipped ++ remaining)).map Item.summary).drop left.length) left.length
      p' (measure (before ++ left)) =
        (left.length + skipped.length, (skipped.map Item.summary).foldl Dimension.addSummary p',
          (measure (before ++ (left ++ skipped)) : D)) := by
    have dropped : ((left ++ (skipped ++ remaining)).map Item.summary).drop left.length =
        (skipped ++ remaining).map (Item.summary : T → S) := by simp
    have taken : ((skipped ++ remaining).map Item.summary).takeWhile (fun s => !filterNode s) =
        skipped.map Item.summary := by
      rw [List.takeWhile_map]
      exact congrArg (List.map Item.summary) skippedEq
    rw [dropped, skipRejected_eq, taken, measure_items, List.length_map, List.append_assoc]
  rw [List.append_assoc skipped, List.takeWhile_append_of_pos all] at reaches
  rw [List.append_assoc, List.dropWhile_append_of_pos all] at leaves
  simp only [searchForwardStep, entered, ok_bind, skips]
  cases remaining with
  | nil =>
    refine .inl ⟨(⟨root, stack, _, true, false⟩, false), ?_, stack, _, after, rfl, .leave trail, ?_, ?_⟩
    · simp [pure, Except.pure]
    · simpa using reaches
    · simpa using leaves
  | cons item remaining =>
    have accepted : rejects filterNode item = false := by
      by_contra rejected
      rw [Bool.not_eq_false] at rejected
      rw [List.takeWhile_append_of_pos all, List.takeWhile_cons_of_pos rejected] at skippedEq
      simp at skippedEq
    have regroup : left ++ (skipped ++ item :: remaining) = (left ++ skipped) ++ item :: remaining := by simp
    rw [List.cons_append, List.takeWhile_cons_of_neg (by simp [accepted])] at reaches
    rw [List.cons_append, List.dropWhile_cons_of_neg (by simp [accepted])] at leaves
    refine .inr ⟨_, if_pos (by simp), ?_⟩
    rw [regroup] at trail ⊢
    have rests := Rests.item trail ((skipped.map Item.summary).foldl Dimension.addSummary p')
    rw [List.length_append] at rests
    simpa [← reaches, ← leaves] using rests

theorem searchForwardStep_spec (shallow : Shallow root) (sees : SeesItems (D := D) filterNode root) {done rest : List T}
    (state : Cursor T S D × Bool) (forward : Forward filterNode root done rest state) :
    (∃ next, searchForwardStep filterNode state = .ok (.inl next) ∧ Forward filterNode root done rest next) ∨ ∃ next,
    searchForwardStep filterNode state = .ok (.inr next) ∧ Rests root next done rest := by
  obtain ⟨self, descend⟩ := state
  obtain ⟨stack, before, after, rfl, ahead, reaches, leaves⟩ := forward
  cases ahead with
  | @enter stack h tree before after trail =>
    cases tree with
    | internal h' s ss trees =>
      obtain ⟨-, h, rfl, rfl⟩ := trail.balanced.internal_eq
      have step := forward_internal [] 0 (measure before) true shallow sees trail (by simp)
        (by simpa using reaches) leaves
      simp only [toLists_nil, List.append_nil, List.nil_append] at step
      exact .inl step
    | leaf s xs ss =>
      obtain rfl : h = 0 := by
        cases trail.balanced with
        | leaf nonempty fits => rfl
      have step := forward_leaf filterNode [] 0 (measure before) (measure before)
        (measure before) true trail (by simp [leaveItem]) (by simpa using reaches) leaves
      simpa using step
  | @leave stack h tree before after trail =>
    cases trail with
    | root balanced =>
      refine .inr ⟨⟨root, [], measure root.toList, true, true⟩, rfl, ?_⟩
      simp only [List.takeWhile_nil, List.append_nil, List.dropWhile_nil, List.nil_append] at reaches leaves
      rw [← reaches, ← leaves]
      exact .atEnd
    | @child stack h s ss left right tree before after parent =>
      have regroup : left ++ tree :: right = (left ++ [tree]) ++ right := by simp
      rw [regroup] at parent ⊢
      have step := forward_internal (left ++ [tree]) left.length
        (measure (before ++ toLists left)) false shallow sees parent (by simp)
        (by simpa using reaches) leaves
      simp only [toLists_append, toLists_cons, toLists_nil, List.append_nil, ← List.append_assoc] at step ⊢
      exact .inl step

theorem searchForward_loop (shallow : Shallow root) (sees : SeesItems (D := D) filterNode root)
    {done rest : List T} (state : Cursor T S D × Bool)
    (first : (∃ next, searchForwardStep filterNode state = .ok (.inl next) ∧ Forward filterNode root done rest next) ∨
      ∃ next, searchForwardStep filterNode state = .ok (.inr next) ∧ Rests root next done rest) :
    ∃ next, loop (fun s => workAhead s.1.stack s.2) (searchForwardStep filterNode) state =
      .ok next ∧ Rests root next done rest := by
  refine loop_returns_of_decreases (searchForwardStep_decreases filterNode)
    (fun s => s = state ∨ Forward filterNode root done rest s) _ ?_ state (.inl rfl)
  have widen : ∀ s, ((∃ next, searchForwardStep filterNode s = .ok (.inl next) ∧
        Forward filterNode root done rest next) ∨
      ∃ next, searchForwardStep filterNode s = .ok (.inr next) ∧ Rests root next done rest) →
      (∃ next, searchForwardStep filterNode s = .ok (.inl next) ∧
        (next = state ∨ Forward filterNode root done rest next)) ∨
      ∃ next, searchForwardStep filterNode s = .ok (.inr next) ∧ Rests root next done rest :=
    fun s => Or.imp_left fun ⟨next, stepped, forward⟩ => ⟨next, stepped, .inr forward⟩
  rintro s (rfl | forward)
  · exact widen s first
  · exact widen s (searchForwardStep_spec shallow sees s forward)

theorem Rests.searchForward {self : Cursor T S D} (shallow : Shallow root) (sees : SeesItems (D := D) filterNode root)
    (rests : Rests root self before after) : ∃ next, self.searchForward filterNode = .ok next ∧
    Rests root next (before ++ after.take 1 ++ (after.drop 1).takeWhile (rejects filterNode))
    ((after.drop 1).dropWhile (rejects filterNode)) := by
  cases rests with
  | @item stack s ss left right item before after trail p =>
    obtain rfl := trail.balanced.itemSummaries_eq
    have regroup : left ++ item :: right = (left ++ [item]) ++ right := by simp
    have indexed : index ((left ++ item :: right).map Item.summary) left.length =
        .ok (Item.summary item : S) := index_of_getElem? (by simp)
    have moved : leaveItem ((left ++ item :: right).map Item.summary) false left.length p
        (measure (before ++ left)) = .ok ((left ++ [item]).length, Dimension.addSummary p (Item.summary item : S),
          (measure (before ++ (left ++ [item])) : D)) := by
      simp only [leaveItem, indexed, ok_bind, measure_concat, List.append_assoc,
        List.length_append, List.length_singleton]
      rfl
    rw [regroup] at trail moved
    refine searchForward_loop shallow sees _ ?_
    have first := forward_leaf filterNode (left ++ [item]) left.length p _
      (measure (before ++ left)) false trail moved rfl rfl
    simpa using first
  | atEnd => exact ⟨_, rfl, by simpa using Rests.atEnd⟩

theorem searchForward_start (shallow : Shallow root) (sees : SeesItems (D := D) filterNode root)
    (wellFormed : WellFormed root) (didSeek : Bool) : ∃ next,
    searchForward (⟨root, [], Dimension.zero S, didSeek, root.isEmpty⟩ : Cursor T S D) filterNode = .ok next ∧
    Rests root next (root.toList.takeWhile (rejects filterNode)) (root.toList.dropWhile (rejects filterNode)) := by
  rcases wellFormed with rfl | ⟨h, balanced⟩
  · exact ⟨⟨SumTree.new, [], Dimension.zero S, true, true⟩, rfl, .atEnd⟩
  · have entered : enterForward (⟨root, [], Dimension.zero S, didSeek, root.isEmpty⟩ : Cursor T S D) =
        .ok (⟨root, [⟨root, 0, measure ([] : List T)⟩], measure ([] : List T), true, false⟩, true) := by
      rw [balanced.isEmpty_eq]
      rfl
    rw [Cursor.searchForward, entered, ok_bind]
    refine searchForward_loop shallow sees _ (searchForwardStep_spec shallow sees _ ?_)
    exact ⟨_, _, _, rfl, .enter (.root balanced), by simp, by simp⟩

/-! ## Backward -/

omit [LawfulSummary S] [LawfulDimension S D] in
theorem balanced_childSummaries_pos (balanced : Balanced h tree) : 0 < tree.childSummaries.length := by
  cases balanced with
  | leaf nonempty fits => simpa [List.length_pos_iff] using nonempty
  | internal nonempty fits below => simpa [List.length_pos_iff] using nonempty

/-- `Behind root stack descending behind`: the loop of `search_backward` still has the items
`behind` to look at, from their end. It has just entered a node, or stands between two children of
one, or has left the root. -/
inductive Behind (root : SumTree T S) : List (StackEntry T S D) → Bool → List T → Prop where
  | enter {stack : List (StackEntry T S D)} {h : Nat} {tree : SumTree T S} {before after : List T}
      (trail : Trail root stack h tree before after) (p : D) :
      Behind root (⟨tree, tree.childSummaries.length - 1, p⟩ :: stack) true (before ++ tree.toList)
  | internal {stack : List (StackEntry T S D)} {h : Nat} {s : S} {ss : List S}
      {left right : List (SumTree T S)} {before after : List T}
      (trail : Trail root stack (h + 1) (.internal (h + 1) s ss (left ++ right)) before after)
      (p : D) :
      Behind root (⟨.internal (h + 1) s ss (left ++ right), left.length, p⟩ :: stack) false (before ++ toLists left)
  | leaf {stack : List (StackEntry T S D)} {s : S} {ss : List S} {left right : List T} {before after : List T}
      (trail : Trail root stack 0 (.leaf s (left ++ right) ss) before after) (p : D) :
      Behind root (⟨.leaf s (left ++ right) ss, left.length, p⟩ :: stack) false (before ++ left)
  | past : Behind root [] false []

omit [LawfulSummary S] [LawfulDimension S D] in
theorem Behind.whole (balanced : Balanced h root) (p : D) :
    Behind root [⟨root, root.childSummaries.length, p⟩] false root.toList := by
  have trail : Trail (D := D) root [] h root [] [] := .root balanced
  cases balanced with
  | @leaf items nonempty fits =>
    have behind := Behind.leaf (show Trail (D := D) _ [] 0 (.leaf _ (items ++ []) _) [] [] by
      simpa using trail) p
    simpa using behind
  | @internal h trees nonempty fits below =>
    have behind := Behind.internal (show Trail (D := D) _ [] (h + 1)
      (.internal (h + 1) _ _ (trees ++ [])) [] [] by simpa using trail) p
    simpa using behind

/-- A state of the loop of `search_backward` whose result will have `kept` up to its current item. -/
def Backward (filterNode : S → Bool) (root : SumTree T S) (kept : List T)
    (state : Cursor T S D × Bool) : Prop :=
  ∃ stack position behind, state.1 = ⟨root, stack, position, true, false⟩ ∧
    (stack = [] → position = Dimension.zero S) ∧ Behind root stack state.2 behind ∧
    behind.rdropWhile (rejects filterNode) = kept

/-- The cursor moved back to the last item of `kept`, or past the first item of the tree. -/
inductive Landed (root : SumTree T S) : List T → Cursor T S D → Prop where
  | item {next : Cursor T S D} {init after : List T} {item : T}
      (rests : Rests root next init (item :: after)) : Landed root (init ++ [item]) next
  | beforeStart (nonempty : root.isEmpty = false) : Landed root [] (beforeStart root)
  | empty {next : Cursor T S D} (empty : root.isEmpty = true) (rests : Rests root next [] []) : Landed root [] next

theorem rdropWhile_append_all {α : Type} {p : α → Bool} (left : List α) {right : List α}
    (all : ∀ a ∈ right, p a = true) : (left ++ right).rdropWhile p = left.rdropWhile p := by
  rw [List.rdropWhile, List.rdropWhile, List.reverse_append,
    List.dropWhile_append_of_pos fun a mem => all a (List.mem_reverse.mp mem)]

theorem visitBackward_internal {s : S} {ss : List S} {left right : List (SumTree T S)}
    {child : SumTree T S} {kept : List T} (shallow : Shallow root)
    (sees : SeesItems (D := D) filterNode root)
    (trail : Trail root stack (h + 1) (.internal (h + 1) s ss (left ++ child :: right)) before after)
    (keeps : (before ++ toLists left ++ child.toList).rdropWhile (rejects filterNode) = kept) :
    ∃ next, visitBackward filterNode root (.internal (h + 1) s ss (left ++ child :: right))
        left.length stack true false = .ok (.inl next) ∧
      Backward filterNode root kept next := by
  obtain rfl := trail.balanced.childSummaries_eq
  have below := trail.balanced.child
  have indexed : index ((left ++ child :: right).map SumTree.summary) left.length =
      .ok child.summary := index_of_getElem? (by simp)
  have sliced : sliceTo ((left ++ child :: right).map SumTree.summary) left.length =
      .ok (left.map SumTree.summary) := by simp [sliceTo]
  simp only [visitBackward, childSummaries_internal, sliced, ok_bind, indexed, trail.startOfTop_eq,
    measure_trees before fun t mem => below t (List.mem_append_left _ mem)]
  cases accepted : filterNode child.summary with
  | true =>
    have positive := balanced_childSummaries_pos (below child (by simp))
    rw [if_pos rfl, index_append, ok_bind, checkedSub_of_le (by omega), ok_bind,
      insertFront_of_lt (trail.room shallow _), ok_bind]
    exact ⟨_, rfl, _, _, _, rfl, by simp, .enter trail.child _, keeps⟩
  | false =>
    refine ⟨_, rfl, _, _, before ++ toLists left, rfl, by simp, .internal trail _, ?_⟩
    rw [← keeps, rdropWhile_append_all _ (trail.child.rejected sees accepted)]

omit [LawfulSummary S] [LawfulDimension S D] in
theorem visitBackward_leaf {s : S} {ss : List S} {left right : List T} {item : T} {kept : List T}
    (trail : Trail root stack 0 (.leaf s (left ++ item :: right) ss) before after)
    (keeps : (before ++ left ++ [item]).rdropWhile (rejects filterNode) = kept) :
    (∃ next, visitBackward filterNode root (.leaf s (left ++ item :: right) ss) left.length stack
        true false = .ok (.inl next) ∧ Backward filterNode root kept next) ∨
    ∃ next, visitBackward filterNode root (.leaf s (left ++ item :: right) ss) left.length stack
        true false = .ok (.inr next) ∧ Landed root kept next := by
  obtain rfl := trail.balanced.itemSummaries_eq
  have indexed : index ((left ++ item :: right).map Item.summary) left.length =
      .ok (Item.summary item : S) := index_of_getElem? (by simp)
  have sliced : sliceTo ((left ++ item :: right).map Item.summary) left.length =
      .ok (left.map (Item.summary : T → S)) := by simp [sliceTo]
  simp only [visitBackward, childSummaries_leaf, sliced, ok_bind, indexed, trail.startOfTop_eq, measure_items]
  cases accepted : filterNode (Item.summary item) with
  | true =>
    rw [List.rdropWhile_concat_neg _ _ _ (by simp [rejects, accepted])] at keeps
    rw [← keeps]
    exact .inr ⟨_, rfl, .item (.item trail _)⟩
  | false =>
    rw [List.rdropWhile_concat_pos _ _ _ (by simp [rejects, accepted])] at keeps
    exact .inl ⟨_, rfl, _, _, _, rfl, by simp, .leaf trail _, keeps⟩

omit [LawfulSummary S] [LawfulDimension S D] in
theorem backward_leave {kept : List T} (trail : Trail root stack h tree before after)
    (keeps : before.rdropWhile (rejects filterNode) = kept) :
    Backward filterNode root kept (⟨root, stack, startOfTop stack, true, false⟩, false) := by
  cases trail with
  | root balanced => exact ⟨_, _, _, rfl, fun _ => rfl, .past, keeps⟩
  | child parent => exact ⟨_, _, _, rfl, by simp, .internal parent _, keeps⟩

theorem searchBackwardStep_spec (shallow : Shallow root) (nonempty : root.isEmpty = false)
    (sees : SeesItems (D := D) filterNode root) {kept : List T} (state : Cursor T S D × Bool)
    (backward : Backward filterNode root kept state) :
    (∃ next, searchBackwardStep filterNode state = .ok (.inl next) ∧ Backward filterNode root kept next) ∨
    ∃ next, searchBackwardStep filterNode state = .ok (.inr next) ∧ Landed root kept next := by
  obtain ⟨self, descending⟩ := state
  obtain ⟨stack, position, behind, rfl, zero, rest, keeps⟩ := backward
  cases rest with
  | past =>
    refine .inr ⟨_, rfl, ?_⟩
    rw [zero rfl, ← keeps]
    exact .beforeStart nonempty
  | @enter stack h tree before after trail p =>
    cases tree with
    | internal h' s ss trees =>
      obtain ⟨nonempty, h, rfl, rfl⟩ := trail.balanced.internal_eq
      obtain ⟨left, child, rfl⟩ := (List.eq_nil_or_concat' _).resolve_left nonempty
      obtain rfl := trail.balanced.childSummaries_eq
      refine .inl ?_
      have visited := visitBackward_internal shallow sees trail (by simpa using keeps)
      simpa [searchBackwardStep] using visited
    | leaf s xs ss =>
      obtain rfl : h = 0 := by
        cases trail.balanced with
        | leaf nonempty fits => rfl
      obtain ⟨left, item, rfl⟩ : ∃ left item, xs = left ++ [item] := by
        cases trail.balanced with
        | leaf nonempty fits => exact (List.eq_nil_or_concat' _).resolve_left nonempty
      obtain rfl := trail.balanced.itemSummaries_eq
      have visited := visitBackward_leaf trail (by simpa using keeps)
      simpa [searchBackwardStep] using visited
  | @internal stack h s ss left right before after trail p =>
    rcases List.eq_nil_or_concat' left with rfl | ⟨left, child, rfl⟩
    · exact .inl ⟨_, rfl, backward_leave trail (by simpa using keeps)⟩
    · rw [List.length_append]
      rw [List.append_assoc] at trail ⊢
      exact .inl (visitBackward_internal shallow sees trail (by simpa using keeps))
  | @leaf stack s ss left right before after trail p =>
    rcases List.eq_nil_or_concat' left with rfl | ⟨left, item, rfl⟩
    · exact .inl ⟨_, rfl, backward_leave trail (by simpa using keeps)⟩
    · rw [List.length_append]
      rw [List.append_assoc] at trail ⊢
      exact visitBackward_leaf trail (by simpa using keeps)

theorem searchBackward_loop (shallow : Shallow root) (nonempty : root.isEmpty = false)
    (sees : SeesItems (D := D) filterNode root) {kept : List T} {self : Cursor T S D}
    (backward : Backward filterNode root kept (self, false)) : ∃ next, loop (fun s => workBehind s.1.stack s.2)
    (searchBackwardStep filterNode) (self, false) = .ok next ∧ Landed root kept next :=
  loop_returns_of_decreases (searchBackwardStep_decreases filterNode)
    (Backward filterNode root kept) _ (searchBackwardStep_spec shallow nonempty sees) _ backward

theorem searchBackward_end (shallow : Shallow root) (sees : SeesItems (D := D) filterNode root)
    (wellFormed : WellFormed root) (position : D) (didSeek atEnd : Bool) (outside : (!didSeek || atEnd) = true) :
    ∃ next, searchBackward (⟨root, [], position, didSeek, atEnd⟩ : Cursor T S D) filterNode = .ok next ∧
    Landed root (root.toList.rdropWhile (rejects filterNode)) next := by
  rcases wellFormed with rfl | ⟨h, balanced⟩
  · refine ⟨⟨SumTree.new, [], Dimension.zero S, true, true⟩, ?_, .empty rfl .atEnd⟩
    rw [searchBackward, enterBackward]
    simp only [outside]
    rfl
  · have nonempty := balanced.isEmpty_eq
    have entered : enterBackward (⟨root, [], position, didSeek, atEnd⟩ : Cursor T S D) =
        .ok ⟨root, [⟨root, root.childSummaries.length,
          Dimension.addSummary (Dimension.zero S) root.summary⟩], Dimension.zero S, true,
          false⟩ := by
      simp only [enterBackward, outside, nonempty]
      rfl
    rw [searchBackward, entered, ok_bind]
    refine searchBackward_loop shallow nonempty sees ⟨_, _, root.toList, rfl, by simp, .whole balanced _, rfl⟩

theorem Rests.searchBackward {self : Cursor T S D} (shallow : Shallow root) (sees : SeesItems (D := D) filterNode root)
    (wellFormed : WellFormed root) (rests : Rests root self before after) : ∃ next,
    self.searchBackward filterNode = .ok next ∧ Landed root (before.rdropWhile (rejects filterNode)) next := by
  cases rests with
  | @item stack s ss left right item before after trail p =>
    have nonempty : root.isEmpty = false := by
      rcases wellFormed with rfl | ⟨h, balanced⟩
      · have held := trail.held
        simp at held
      · exact balanced.isEmpty_eq
    exact searchBackward_loop shallow nonempty sees ⟨_, _, _, rfl, by simp, .leaf trail p, rfl⟩
  | atEnd => exact searchBackward_end shallow sees wellFormed _ true true rfl

omit [Summary S] [Item T S] [LawfulSummary S] [LawfulDimension S D] in
theorem searchBackward_beforeStart :
    searchBackward (beforeStart root : Cursor T S D) filterNode = .ok (beforeStart root) := rfl

end Pinrail.Cursor

import Pinrail.Focus.Traversal
import Pinrail.Lib.Blocks

/-!
# Groups of tab stops

A group is known to the order by its path of tab indices only. Its tab stops stand together unless
another group with the same path has one between them.
-/

namespace Pinrail
open Lib SumTree TabStopNode

namespace TabStopMap

inductive Balanced : List TabStopOperation → Prop
  | nil : Balanced []
  | insert {handle : FocusHandle} {rest : List TabStopOperation} : Balanced rest → Balanced (.insert handle :: rest)
  | group {tabIndex : Int} {inside rest : List TabStopOperation} :
      Balanced inside → Balanced rest → Balanced (.group tabIndex :: (inside ++ .groupEnd :: rest))

structure Group where
  before : List TabStopOperation
  tabIndex : Int
  inside : List TabStopOperation
  after : List TabStopOperation
  balanced : Balanced inside

def stopNodes (path : List Int) (i : Nat) (nodes : List TabStopOperation) : List TabStopNode :=
  ((placed path i nodes).map Prod.fst).filter TabStopNode.tabStop

/-- The nodes of the tab stops in the order in which `next` comes to them. -/
def traversal (nodes : List TabStopOperation) : List TabStopNode :=
  ((sorted nodes).map Prod.fst).filter TabStopNode.tabStop

namespace Group

def nodes (group : Group) : List TabStopOperation :=
  group.before ++ .group group.tabIndex :: (group.inside ++ .groupEnd :: group.after)

def path (group : Group) : List Int := openPath [] group.before ++ [group.tabIndex]

def earlier (group : Group) : List TabStopNode := stopNodes [] 0 group.before

def stops (group : Group) : List TabStopNode :=
  stopNodes group.path (group.before.length + 1) group.inside

def later (group : Group) : List TabStopNode :=
  stopNodes (openPath [] group.before) (group.before.length + 1 + group.inside.length + 1) group.after

def Contains (group : Group) (node : TabStopNode) : Prop :=
  group.before.length < node.nodeInsertionIndex ∧ node.nodeInsertionIndex ≤ group.before.length + group.inside.length

/-- No tab stop of another group with the same path has a path between those of two in the group; an
equal path counts as later when it was inserted later. -/
def Untangled (group : Group) : Prop :=
  ∀ a ∈ group.stops, ∀ b ∈ group.stops, (∀ other ∈ group.earlier, group.path <+: other.path →
      other.path ≤ a.path ∨ b.path < other.path) ∧
    ∀ other ∈ group.later, group.path <+: other.path → other.path < a.path ∨ b.path ≤ other.path

end Group

/-! ## What a group places -/

theorem Balanced.openPath_eq {nodes : List TabStopOperation} (balanced : Balanced nodes)
    (path : List Int) : openPath path nodes = path := by
  induction balanced generalizing path with
  | nil => rfl
  | insert balanced ih => exact ih path
  | group inside rest insideIh restIh =>
    rw [openPath, openPath_append, insideIh, openPath, List.dropLast_concat, restIh]

theorem Balanced.prefix_path {nodes : List TabStopOperation} (balanced : Balanced nodes)
    {path : List Int} {i : Nat} {node : TabStopNode} {handle : FocusHandle}
    (member : (node, handle) ∈ placed path i nodes) : path <+: node.path := by
  induction balanced generalizing path i with
  | nil => cases member
  | insert balanced ih =>
    rcases List.mem_cons.mp member with same | member
    · cases same
      exact List.prefix_append _ _
    · exact ih member
  | group inside rest insideIh restIh =>
    rw [placed, placed_append, inside.openPath_eq, placed, List.dropLast_concat] at member
    rcases List.mem_append.mp member with member | member
    · exact (List.prefix_append _ _).trans (insideIh member)
    · exact restIh member

theorem mem_stopNodes {path : List Int} {i : Nat} {nodes : List TabStopOperation} {node : TabStopNode} :
    node ∈ stopNodes path i nodes ↔ (∃ handle, (node, handle) ∈ placed path i nodes) ∧ node.tabStop = true := by
  rw [stopNodes, List.mem_filter, List.mem_map]
  refine and_congr_left fun _ => ⟨?_, ?_⟩
  · rintro ⟨⟨node, handle⟩, member, rfl⟩
    exact ⟨handle, member⟩
  · rintro ⟨handle, member⟩
    exact ⟨_, member, rfl⟩

theorem index_stopNodes {path : List Int} {i : Nat} {nodes : List TabStopOperation}
    {node : TabStopNode} (member : node ∈ stopNodes path i nodes) :
    i ≤ node.nodeInsertionIndex ∧ node.nodeInsertionIndex < i + nodes.length := by
  obtain ⟨⟨handle, member⟩, -⟩ := mem_stopNodes.mp member
  obtain ⟨-, low, found⟩ := placed_spec member
  have := (List.getElem?_eq_some_iff.mp found).1
  omega

theorem mem_traversal {nodes : List TabStopOperation} {node : TabStopNode} :
    node ∈ traversal nodes ↔ node ∈ stopNodes [] 0 nodes := by
  have same : (sorted nodes).Perm (placed [] 0 nodes) := List.perm_insertionSort _ _
  exact ((same.map Prod.fst).filter _).mem_iff

theorem placed_apart (path : List Int) (i : Nat) (nodes : List TabStopOperation) :
    (placed path i nodes).Pairwise fun a b => a.1.rank ≠ b.1.rank := by
  induction nodes generalizing path i with
  | nil => exact .nil
  | cons operation nodes ih =>
    cases operation with
    | insert handle =>
      refine List.pairwise_cons.mpr ⟨?_, ih path (i + 1)⟩
      rintro ⟨node, handle'⟩ member same
      obtain ⟨-, low, -⟩ := placed_spec member
      have index := congrArg (fun rank => (ofLex rank).2) same
      simp only [rank, ofLex_toLex] at index
      omega
    | group tabIndex => exact ih _ _
    | groupEnd => exact ih _ _

theorem traversal_ascending (nodes : List TabStopOperation) :
    (traversal nodes).Pairwise fun a b => a.rank < b.rank := by
  refine List.Pairwise.filter _ (List.pairwise_map.mpr ?_)
  have apart : (sorted nodes).Pairwise fun a b => a.1.rank ≠ b.1.rank :=
    (List.perm_insertionSort _ _).symm.pairwise (placed_apart [] 0 nodes) fun differ => differ.symm
  have weakly : (sorted nodes).Pairwise fun a b => a.1.rank ≤ b.1.rank := List.pairwise_insertionSort _ _
  exact weakly.imp₂ (fun a b le differ => lt_of_le_of_ne le differ) apart

theorem rank_lt_iff {a b : TabStopNode} : a.rank < b.rank ↔
    a.path < b.path ∨ a.path = b.path ∧ a.nodeInsertionIndex < b.nodeInsertionIndex :=
  Prod.Lex.lt_iff

namespace Group
variable {group : Group} {node : TabStopNode}

theorem stopNodes_nodes (group : Group) : stopNodes [] 0 group.nodes = group.earlier ++ group.stops ++ group.later := by
  rw [nodes, stopNodes, placed_append, placed, placed_append, group.balanced.openPath_eq, placed,
    List.dropLast_concat, Nat.zero_add]
  simp only [List.map_append, List.filter_append, List.append_assoc]
  rfl

theorem index_earlier (member : node ∈ group.earlier) : node.nodeInsertionIndex < group.before.length := by
  have := index_stopNodes member
  omega

theorem index_stops (member : node ∈ group.stops) : group.Contains node := by
  have := index_stopNodes member
  exact ⟨by omega, by omega⟩

theorem index_later (member : node ∈ group.later) :
    group.before.length + group.inside.length < node.nodeInsertionIndex := by
  have := index_stopNodes member
  omega

theorem mem_traversal_iff : node ∈ traversal group.nodes ↔
    node ∈ group.earlier ∨ node ∈ group.stops ∨ node ∈ group.later := by
  rw [mem_traversal, stopNodes_nodes, List.append_assoc, List.mem_append, List.mem_append]

theorem mem_stops_of_contains (member : node ∈ traversal group.nodes)
    (contains : group.Contains node) : node ∈ group.stops := by
  obtain ⟨low, high⟩ := contains
  rcases mem_traversal_iff.mp member with earlier | inside | later
  · exact absurd (index_earlier earlier) (by omega)
  · exact inside
  · exact absurd (index_later later) (by omega)

theorem prefix_of_mem_stops (member : node ∈ group.stops) : group.path <+: node.path := by
  obtain ⟨⟨handle, member⟩, -⟩ := mem_stopNodes.mp member
  exact group.balanced.prefix_path member

theorem rank_earlier {other : TabStopNode} (earlier : other ∈ group.earlier) (inside : node ∈ group.stops) :
    (other.rank < node.rank ↔ other.path ≤ node.path) ∧ (node.rank < other.rank ↔ node.path < other.path) := by
  have before : other.nodeInsertionIndex < node.nodeInsertionIndex :=
    (index_earlier earlier).trans (index_stops inside).1
  rw [rank_lt_iff, rank_lt_iff, le_iff_lt_or_eq]
  constructor
  · simp only [before, and_true]
  · simp only [before.not_gt, and_false, or_false]

theorem rank_later {other : TabStopNode} (later : other ∈ group.later) (inside : node ∈ group.stops) :
    (other.rank < node.rank ↔ other.path < node.path) ∧ (node.rank < other.rank ↔ node.path ≤ other.path) := by
  have after : node.nodeInsertionIndex < other.nodeInsertionIndex := (index_stops inside).2.trans_lt (index_later later)
  rw [rank_lt_iff, rank_lt_iff, le_iff_lt_or_eq]
  constructor
  · simp only [after.not_gt, and_false, or_false]
  · simp only [after, and_true]

theorem block_iff : Block group.Contains (traversal group.nodes) ↔ group.Untangled := by
  rw [block_iff_between (traversal_ascending group.nodes)]
  constructor
  · intro between a aMem b bMem
    have inside := fun other member => between a (mem_traversal_iff.mpr (.inr (.inl aMem))) other
      member b (mem_traversal_iff.mpr (.inr (.inl bMem))) (index_stops aMem) (index_stops bMem)
    constructor
    · intro other member _
      by_contra tangled
      rw [not_or, not_le, not_lt] at tangled
      have contains := inside other (mem_traversal_iff.mpr (.inl member))
        ((rank_earlier member aMem).2.mpr tangled.1) ((rank_earlier member bMem).1.mpr tangled.2)
      exact absurd (index_earlier member) contains.1.not_gt
    · intro other member _
      by_contra tangled
      rw [not_or, not_le, not_lt] at tangled
      have contains := inside other (mem_traversal_iff.mpr (.inr (.inr member)))
        ((rank_later member aMem).2.mpr tangled.1) ((rank_later member bMem).1.mpr tangled.2)
      exact absurd (index_later member) contains.2.not_gt
  · intro untangled a aMem other member b bMem aIn bIn low high
    have aStop := mem_stops_of_contains aMem aIn
    have bStop := mem_stops_of_contains bMem bIn
    have stem : a.path ≤ other.path → other.path ≤ b.path → group.path <+: other.path :=
      fun le ge => prefix_of_between le ge (prefix_of_mem_stops aStop) (prefix_of_mem_stops bStop)
    rcases mem_traversal_iff.mp member with earlier | inside | later
    · have low := (rank_earlier earlier aStop).2.mp low
      have high := (rank_earlier earlier bStop).1.mp high
      rcases (untangled a aStop b bStop).1 other earlier (stem low.le high) with below | above
      · exact absurd low below.not_gt
      · exact absurd high above.not_ge
    · exact index_stops inside
    · have low := (rank_later later aStop).2.mp low
      have high := (rank_later later bStop).1.mp high
      rcases (untangled a aStop b bStop).2 other later (stem low high.le) with below | above
      · exact absurd low below.not_ge
      · exact absurd high above.not_gt

end Group

theorem group_block_iff (group : Group) : (Block group.Contains (traversal group.nodes) ↔ group.Untangled) ∧
    (Few group.nodes → ∃ map, TabStopMap.default.replay group.nodes = .ok map ∧
      map.order.toList.filter TabStopNode.tabStop = traversal group.nodes) := by
  refine ⟨Group.block_iff, fun few => ?_⟩
  obtain ⟨map, replayed, ordered⟩ := Ordered.default.replay group.nodes few
  exact ⟨map, replayed, by rw [ordered.toList_eq]; rfl⟩

local instance : NeZero (2 ^ 32) := ⟨by decide⟩

def siblings : Group where
  before := []
  tabIndex := 0
  inside := [.insert ⟨⟨0, 1⟩, 0, true⟩, .insert ⟨⟨1, 1⟩, 1, true⟩]
  after := [.group 0, .insert ⟨⟨2, 1⟩, 0, true⟩, .insert ⟨⟨3, 1⟩, 1, true⟩, .groupEnd]
  balanced := .insert (.insert .nil)

theorem siblings_few : Few siblings.nodes := by
  unfold Few
  decide

theorem group_block_siblings : ∃ map, TabStopMap.default.replay siblings.nodes = .ok map ∧
    map.order.toList.filter TabStopNode.tabStop = traversal siblings.nodes :=
  (group_block_iff siblings).2 siblings_few

theorem siblings_interleave : ¬ ∀ (group : Group) (map : TabStopMap), TabStopMap.default.replay group.nodes = .ok map →
    Block group.Contains (map.order.toList.filter TabStopNode.tabStop) := by
  intro blocks
  obtain ⟨map, replayed, ordered⟩ := Ordered.default.replay siblings.nodes siblings_few
  have block := blocks siblings map replayed
  rw [ordered.toList_eq] at block
  have untangled := Group.block_iff.mp block
  have first : (⟨[0, 0], 1, true⟩ : TabStopNode) ∈ siblings.stops := by decide
  have last : (⟨[0, 1], 2, true⟩ : TabStopNode) ∈ siblings.stops := by decide
  have other : (⟨[0, 0], 5, true⟩ : TabStopNode) ∈ siblings.later := by decide
  have apart := (untangled _ first _ last).2 _ other (by decide)
  revert apart
  decide

end TabStopMap
end Pinrail

import Mathlib.Algebra.Order.BigOperators.Group.List
import Mathlib.Algebra.Order.Group.Nat
import Mathlib.Data.List.TakeWhile
import Pinrail.Lib.Cuts
import Pinrail.Scene.Scene

/-!
# Batches cut off the vectors of a scene

Each step of the batch iterator cuts a front off one of the eight vectors, and all of the front is to
be drawn before whatever is left in the vectors.
-/

namespace Pinrail.Paint
open Lib Pinrail.Geometry Function

variable {U D : Type}

/-! ## Heads -/

theorem PrimitiveKind.mem_all (kind : PrimitiveKind) : kind ∈ all := by
  cases kind <;> decide

theorem PrimitiveKind.nodup_all : all.Nodup := by decide

structure Ready (lists : PrimitiveKind → List (Primitive U D)) : Prop where
  kinds : ∀ kind, ∀ primitive ∈ lists kind, primitive.kind = kind
  sorted : ∀ kind, (lists kind).Pairwise fun a b => a.key ≤ b.key
  below : ∀ kind, ∀ primitive ∈ lists kind, primitive.order < u32Max

namespace BatchIterator

variable {iterator : BatchIterator U D}

def headOf (self : BatchIterator U D) (kind : PrimitiveKind) : Head :=
  ⟨(self.iters kind).head?.map Primitive.order, kind⟩

theorem ordersAndKinds_spec (iterator : BatchIterator U D) : ∃ first second others, iterator.ordersAndKinds = first ::
    second :: others ∧ first = iterator.headOf first.kind ∧ (∀ kind, first.key ≤ (iterator.headOf kind).key) ∧ ∀ kind,
    kind ≠ first.kind → second.key ≤ (iterator.headOf kind).key := by
  have perm : iterator.ordersAndKinds.Perm (PrimitiveKind.all.map iterator.headOf) := perm_sortBy
  have sorted : iterator.ordersAndKinds.Pairwise fun a b => a.key ≤ b.key := sorted_sortBy_key _ _
  generalize iterator.ordersAndKinds = heads at perm sorted
  have member (kind : PrimitiveKind) : iterator.headOf kind ∈ heads :=
    perm.mem_iff.mpr (List.mem_map_of_mem kind.mem_all)
  have length := perm.length_eq
  match heads, length with
  | first :: second :: others, _ =>
    obtain ⟨kind, -, same⟩ := List.mem_map.mp (perm.mem_iff.mp (List.mem_cons_self (a := first)))
    obtain ⟨least, sorted⟩ := List.pairwise_cons.mp sorted
    obtain ⟨next, -⟩ := List.pairwise_cons.mp sorted
    refine ⟨first, second, others, rfl, ?_, ?_, ?_⟩
    · rw [← same]
      rfl
    · intro kind
      rcases List.mem_cons.mp (member kind) with same | other
      · rw [same]
      · exact least _ other
    · intro kind other
      rcases List.mem_cons.mp (member kind) with same | inOthers
      · rw [← same] at other
        exact absurd rfl other
      · rcases List.mem_cons.mp inOthers with same | inOthers
        · rw [same]
        · exact next _ inOthers

theorem headOf_le (ready : Ready iterator.iters) {kind : PrimitiveKind} {primitive : Primitive U D}
    (member : primitive ∈ iterator.iters kind) : (iterator.headOf kind).key ≤ primitive.key := by
  have kinds := ready.kinds kind
  have sorted := ready.sorted kind
  rw [headOf]
  cases listed : iterator.iters kind with
  | nil =>
    rw [listed] at member
    cases member
  | cons head rest =>
    rw [listed] at member kinds sorted
    have same : Head.key ⟨(head :: rest).head?.map Primitive.order, kind⟩ = head.key := by
      rw [Primitive.key, kinds head List.mem_cons_self]
      rfl
    rw [same]
    rcases List.mem_cons.mp member with rfl | member
    · exact le_refl _
    · exact List.rel_of_pairwise_cons sorted member

theorem first_of_mem (ready : Ready iterator.iters) {first : Head} (isHead : first = iterator.headOf first.kind)
    (least : ∀ kind, first.key ≤ (iterator.headOf kind).key) {kind : PrimitiveKind}
    {primitive : Primitive U D} (member : primitive ∈ iterator.iters kind) :
    ∃ head rest, iterator.iters first.kind = head :: rest ∧ head.key = first.key := by
  cases listed : iterator.iters first.kind with
  | nil =>
    -- Without a primitive its order is the largest, above that of the member.
    have none : first.order = none := by
      rw [isHead, headOf, listed]
      rfl
    have le := (least kind).trans (headOf_le ready member)
    rw [Head.key, Primitive.key, none, Prod.Lex.toLex_le_toLex] at le
    have below := ready.below kind primitive member
    simp only [Option.getD_none] at le
    omega
  | cons head rest =>
    refine ⟨head, rest, rfl, ?_⟩
    have sameKind := ready.kinds first.kind head (by rw [listed]; exact List.mem_cons_self)
    have order : first.order = some head.order := by
      rw [isHead, headOf, listed]
      rfl
    rw [Head.key, Primitive.key, order, sameKind]
    rfl

/-! ## One batch -/

structure Draws (vectors : PrimitiveKind → List (Primitive U D)) (batch : PrimitiveBatch)
    (cut : PrimitiveKind × List (Primitive U D)) : Prop where
  kind : batch.kind = cut.1
  range : ((vectors batch.kind).take batch.stop).drop batch.start = cut.2
  nonempty : cut.2 ≠ []
  texture : ∀ primitive ∈ cut.2, ∀ tile, primitive.shape.tile = some tile → batch.textureId = some tile.textureId

def Stands (vectors : PrimitiveKind → List (Primitive U D)) (iterator : BatchIterator U D) : Prop :=
  ∀ kind, (vectors kind).drop (iterator.starts kind) = iterator.iters kind ∧
    iterator.starts kind ≤ (vectors kind).length

theorem batchTexture_spec {kind : PrimitiveKind} {head : Primitive U D} (rest : List (Primitive U D))
    (sameKind : head.kind = kind) :
    batchTexture kind (head :: rest) = .ok (head.shape.tile.map AtlasTile.textureId) := by
  subst sameKind
  unfold batchTexture Primitive.kind
  cases shape : head.shape with
  | monochromeSprite tile => simp [Shape.kind, textured, unwrap_some, shape]
  | subpixelSprite tile => simp [Shape.kind, textured, unwrap_some, shape]
  | polychromeSprite tile => simp [Shape.kind, textured, unwrap_some, shape]
  | _ => rfl

theorem textured_of_tile {primitive : Primitive U D} {tile : AtlasTile}
    (sprite : primitive.shape.tile = some tile) : textured primitive.kind = true := by
  unfold Primitive.kind
  cases shape : primitive.shape with
  | monochromeSprite tile => rfl
  | subpixelSprite tile => rfl
  | polychromeSprite tile => rfl
  | _ =>
    rw [shape] at sprite
    cases sprite

def together (kind : PrimitiveKind) (limit : Nat ×ₗ Nat) (textureId : Option AtlasTextureId)
    (primitive : Primitive U D) : Bool :=
  toLex (primitive.order, kind.rank) < limit ∧
    (textured kind = true → primitive.shape.tile.map AtlasTile.textureId = textureId)

theorem takeBatch_eq {kind : PrimitiveKind} {head : Primitive U D} {rest : List (Primitive U D)}
    (sameKind : head.kind = kind) (listed : iterator.iters kind = head :: rest) (limit : Nat ×ₗ Nat) :
    iterator.takeBatch kind limit = .ok (⟨kind, head.shape.tile.map AtlasTile.textureId, iterator.starts kind,
          iterator.starts kind + 1 + (rest.takeWhile
            (together kind limit (head.shape.tile.map AtlasTile.textureId))).length⟩,
        ⟨update iterator.starts kind (iterator.starts kind + 1 + (rest.takeWhile
            (together kind limit (head.shape.tile.map AtlasTile.textureId))).length),
          update iterator.iters kind
            (rest.dropWhile (together kind limit (head.shape.tile.map AtlasTile.textureId)))⟩) := by
  simp only [takeBatch, listed, batchTexture_spec rest sameKind, ok_bind, List.tail_cons]
  rw [← drop_takeWhile_length rest]
  rfl

theorem next_spec {vectors : PrimitiveKind → List (Primitive U D)} (stands : Stands vectors iterator)
    (ready : Ready iterator.iters) {kind : PrimitiveKind} {primitive : Primitive U D}
    (member : primitive ∈ iterator.iters kind) : ∃ batch after cut back, iterator.next = .ok (some batch, after) ∧
    Draws vectors batch cut ∧ iterator.iters cut.1 = cut.2 ++ back ∧ after.iters = update iterator.iters cut.1 back ∧
    Stands vectors after ∧ ∀ x ∈ cut.2, ∀ j, ∀ y ∈ after.iters j, x.key ≤ y.key := by
  obtain ⟨first, second, others, heads, isHead, least, limit⟩ := ordersAndKinds_spec iterator
  obtain ⟨head, rest, listed, sameKey⟩ := first_of_mem ready isHead least member
  have kinds := ready.kinds first.kind
  have sorted := ready.sorted first.kind
  rw [listed] at kinds sorted
  have sameKind := kinds head List.mem_cons_self
  have order : first.order = some head.order := by
    rw [isHead, headOf, listed]
    rfl
  generalize texture : head.shape.tile.map AtlasTile.textureId = textureId
  have took := takeBatch_eq sameKind listed second.key
  rw [texture] at took
  generalize cond : together first.kind second.key textureId = p at took
  have front : rest = rest.takeWhile p ++ rest.dropWhile p := List.takeWhile_append_dropWhile.symm
  obtain ⟨left, inside⟩ := stands first.kind
  rw [listed] at left
  have room := congrArg List.length left
  rw [List.length_drop, List.length_cons] at room
  have shorter : (rest.takeWhile p).length ≤ rest.length := (List.takeWhile_sublist p).length_le
  generalize stop_eq : iterator.starts first.kind + 1 + (rest.takeWhile p).length = stop at took
  have ran : iterator.next = .ok (some ⟨first.kind, textureId, iterator.starts first.kind, stop⟩,
      ⟨update iterator.starts first.kind stop, update iterator.iters first.kind (rest.dropWhile p)⟩) := by
    simp only [next, heads, index, List.getElem?_cons_zero, List.getElem?_cons_succ, ok_bind, order]
    rw [took]
    rfl
  refine ⟨_, _, (first.kind, head :: rest.takeWhile p), rest.dropWhile p, ran, ⟨rfl, ?_, ?_, ?_⟩, ?_, rfl, ?_, ?_⟩
  · have width : stop - iterator.starts first.kind = (rest.takeWhile p).length + 1 := by omega
    rw [List.drop_take, left, width, List.take_succ_cons, ← List.prefix_iff_eq_take.mp (List.takeWhile_prefix p)]
  · exact List.cons_ne_nil _ _
  · intro primitive member tile sprite
    rcases List.mem_cons.mp member with rfl | member
    · rw [← texture, sprite]
      rfl
    · have joined := List.mem_takeWhile_imp member
      have inRest := (List.takeWhile_prefix p).subset member
      have isTextured := textured_of_tile sprite
      rw [kinds primitive (List.mem_cons_of_mem _ inRest)] at isTextured
      rw [← cond, together, decide_eq_true_iff] at joined
      rw [← joined.2 isTextured, sprite]
      rfl
  · rw [listed, List.cons_append, List.takeWhile_append_dropWhile]
  · intro k
    by_cases same : k = first.kind
    · subst same
      simp only [update_self]
      refine ⟨?_, by omega⟩
      rw [← stop_eq, Nat.add_assoc, ← List.drop_drop, left, Nat.add_comm 1, List.drop_succ_cons, drop_takeWhile_length]
    · simp only [update_of_ne same]
      exact stands k
  · intro x inFront j y member
    by_cases same : j = first.kind
    · subst same
      simp only [update_self] at member
      rw [front, ← List.cons_append] at sorted
      exact (List.pairwise_append.mp sorted).2.2 x inFront y member
    · simp only [update_of_ne same] at member
      have beyond := (limit j same).trans (headOf_le ready member)
      rcases List.mem_cons.mp inFront with rfl | inFront
      · rw [sameKey]
        exact (least j).trans (headOf_le ready member)
      · have joined := List.mem_takeWhile_imp inFront
        have inRest := (List.takeWhile_prefix p).subset inFront
        rw [← cond, together, decide_eq_true_iff] at joined
        rw [← kinds x (List.mem_cons_of_mem _ inRest)] at joined
        exact (le_of_lt joined.1).trans beyond

/-! ## All batches -/

theorem Ready.cut {lists : PrimitiveKind → List (Primitive U D)} (ready : Ready lists) {kind : PrimitiveKind}
    {front back : List (Primitive U D)} (split : lists kind = front ++ back) : Ready (update lists kind back) := by
  have kept : ∀ k, ((update lists kind back) k).Sublist (lists k) := by
    intro k
    by_cases same : k = kind
    · subst same
      rw [update_self, split]
      exact List.sublist_append_right _ _
    · rw [update_of_ne same]
  exact ⟨fun k primitive member => ready.kinds k primitive ((kept k).subset member),
    fun k => (ready.sorted k).sublist (kept k),
    fun k primitive member => ready.below k primitive ((kept k).subset member)⟩

def remaining (iters : PrimitiveKind → List (Primitive U D)) : Nat :=
  (PrimitiveKind.all.map fun kind => (iters kind).length).sum

theorem remaining_cut {iters : PrimitiveKind → List (Primitive U D)} {kind : PrimitiveKind}
    {front back : List (Primitive U D)} (split : iters kind = front ++ back) (nonempty : front ≠ []) :
    remaining (update iters kind back) < remaining iters := by
  apply List.sum_lt_sum
  · intro k _
    by_cases same : k = kind
    · subst same
      rw [update_self, split, List.length_append]
      omega
    · rw [update_of_ne same]
  · refine ⟨kind, kind.mem_all, ?_⟩
    have positive := List.length_pos_iff.mpr nonempty
    rw [update_self, split, List.length_append]
    omega

theorem yields_batches {vectors : PrimitiveKind → List (Primitive U D)} {iterator : BatchIterator U D}
    (stands : Stands vectors iterator) (ready : Ready iterator.iters) : ∃ batches cuts, Yields next iterator batches ∧
    List.Forall₂ (Draws vectors) batches cuts ∧ CutOff (fun a b => a.key ≤ b.key) iterator.iters cuts := by
  generalize size : remaining iterator.iters = n
  induction n using Nat.strong_induction_on generalizing iterator with
  | _ n ih =>
    by_cases empty : ∀ kind, iterator.iters kind = []
    · obtain ⟨first, second, others, heads, isHead, -, -⟩ := ordersAndKinds_spec iterator
      have none : first.order = none := by
        rw [isHead, headOf, empty]
        rfl
      refine ⟨[], [], ⟨iterator, ?_⟩, .nil, .done empty⟩
      simp only [next, heads, index, List.getElem?_cons_zero, List.getElem?_cons_succ, ok_bind, none]
      rfl
    · push Not at empty
      obtain ⟨kind, some⟩ := empty
      obtain ⟨primitive, member⟩ := List.exists_mem_of_ne_nil _ some
      obtain ⟨batch, after, cut, back, ran, draws, split, iters, stands', first⟩ :=
        next_spec stands ready member
      have ready' := Ready.cut ready split
      have less := remaining_cut split draws.nonempty
      rw [← iters] at ready' less
      obtain ⟨batches, cuts, yields, all, rest⟩ := ih _ (size ▸ less) stands' ready' rfl
      rw [iters] at rest first
      exact ⟨batch :: batches, cut :: cuts, ⟨after, ran, yields⟩, .cons draws all, .cut split first rest⟩

end BatchIterator
end Pinrail.Paint

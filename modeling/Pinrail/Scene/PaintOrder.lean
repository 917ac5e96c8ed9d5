import Mathlib.Data.Finset.Card
import Mathlib.Order.Interval.Finset.Nat
import Pinrail.Geometry.Scan
import Pinrail.Scene.Batches

/-!
# Paint order

What a scene is for: a canvas on which every primitive is painted once, above what it meets. The orders
of a canvas are found by a scan of all bounds and have no upper end; a scene refines it as long as its
orders stay below the largest.
-/

namespace Pinrail.Paint
open Lib Pinrail.Geometry Function

variable {U D : Type} [AddCommGroup U] [LinearOrder U]

/-- A primitive on a canvas, with the number of its layer and the number of layers pushed before it. -/
structure Painted (U D : Type) where
  primitive : Primitive U D
  owner : Option Nat
  since : Nat

structure Canvas (U D : Type) where
  history : List (Bounds U × Nat) := []
  layers : List (Bounds U × Nat) := []
  /-- The numbers of the layers that have not been popped, the top first. -/
  stack : List Nat := []
  painted : List (Painted U D) := []

namespace Canvas

def layerOrder (self : Canvas U D) (n : Nat) : Nat := self.layers[n]?.elim 0 Prod.snd

def paths (self : Canvas U D) : Nat :=
  ((self.painted.map Painted.primitive).filter fun primitive => primitive.kind = .path).length

def paint (self : Canvas U D) : PaintOperation U D → Canvas U D
  | .startLayer bounds =>
    let layer := (bounds, highest bounds self.history + 1)
    { self with
      history := self.history ++ [layer]
      layers := self.layers ++ [layer]
      stack := self.layers.length :: self.stack }
  | .endLayer => { self with stack := self.stack.tail }
  | .primitive primitive =>
    if primitive.clippedBounds.isEmpty then self
    else
      match self.stack with
      | n :: _ =>
        { self with
          painted := self.painted ++ [⟨primitive.place (self.layerOrder n) self.paths, some n, self.layers.length⟩] }
      | [] =>
        let order := highest primitive.clippedBounds self.history + 1
        { self with
          history := self.history ++ [(primitive.clippedBounds, order)]
          painted := self.painted ++ [⟨primitive.place order self.paths, none, self.layers.length⟩] }

def of (ops : List (PaintOperation U D)) : Canvas U D := ops.foldl paint {}

def orders (self : Canvas U D) : Finset Nat := (self.history.map Prod.snd).toFinset

end Canvas

def inserted : List (PaintOperation U D) → List (Primitive U D) :=
  List.filterMap fun
    | .primitive primitive => if primitive.clippedBounds.isEmpty then none else some primitive
    | _ => none

/-! ## Canvases -/

theorem lt_highest {query bounds : Bounds U} {order : Nat} {history : List (Bounds U × Nat)}
    (member : (bounds, order) ∈ history) (meets : bounds.intersects query = true) : order < highest query history + 1 :=
  Nat.lt_succ_of_le (highest_le.mp (Nat.le_refl _) _ member meets)

structure Canvas.Inv (canvas : Canvas U D) : Prop where
  stack : ∀ n ∈ canvas.stack, n < canvas.layers.length
  layers : ∀ layer ∈ canvas.layers, layer ∈ canvas.history
  free : ∀ painted ∈ canvas.painted, painted.owner = none →
    (painted.primitive.clippedBounds, painted.primitive.order) ∈ canvas.history
  owned : ∀ painted ∈ canvas.painted, ∀ n, painted.owner = some n →
    ∃ bounds, canvas.layers[n]? = some (bounds, painted.primitive.order)
  consecutive : ∀ entry ∈ canvas.history, ∀ order, 0 < order → order ≤ entry.2 → order ∈ canvas.orders
  above : canvas.painted.Pairwise fun a b => a.owner = none → b.owner = none →
    a.primitive.clippedBounds.intersects b.primitive.clippedBounds = true →
    a.primitive.order < b.primitive.order
  since : ∀ painted ∈ canvas.painted, painted.since ≤ canvas.layers.length
  aboveLayers : ∀ painted ∈ canvas.painted, painted.owner = none → ∀ n bounds order,
    n < painted.since → canvas.layers[n]? = some (bounds, order) →
    bounds.intersects painted.primitive.clippedBounds = true → order < painted.primitive.order

variable {canvas : Canvas U D}

theorem Canvas.Inv.enter (inv : canvas.Inv) (bounds : Bounds U) :
    ∀ entry ∈ canvas.history ++ [(bounds, highest bounds canvas.history + 1)], ∀ order, 0 < order → order ≤ entry.2 →
    order ∈ ((canvas.history ++ [(bounds, highest bounds canvas.history + 1)]).map Prod.snd).toFinset := by
  have old : ∀ order ∈ canvas.orders,
      order ∈ ((canvas.history ++ [(bounds, highest bounds canvas.history + 1)]).map Prod.snd).toFinset := by
    intro order used
    rw [List.map_append, List.toFinset_append]
    exact Finset.mem_union_left _ used
  intro entry member order positive bound
  rcases List.mem_append.mp member with member | member
  · exact old order (inv.consecutive entry member order positive bound)
  · rw [List.mem_singleton.mp member] at bound
    rcases Nat.eq_or_lt_of_le bound with rfl | less
    · simp
    · -- The highest order met is that of an earlier entry.
      have reached : ∃ entry ∈ canvas.history, highest bounds canvas.history ≤ entry.2 := by
        by_contra none
        push Not at none
        have bounded : highest bounds canvas.history ≤ highest bounds canvas.history - 1 :=
          highest_le.mpr fun leaf within _ => Nat.le_sub_one_of_lt (none leaf within)
        simp only at less
        omega
      obtain ⟨entry, within, high⟩ := reached
      exact old order (inv.consecutive entry within order positive (by simp only at less; omega))

theorem Canvas.Inv.startLayer (inv : canvas.Inv) (bounds : Bounds U) : (canvas.paint (.startLayer bounds)).Inv where
  stack := by
    intro n member
    simp only [paint, List.length_append, List.length_singleton] at member ⊢
    rcases List.mem_cons.mp member with rfl | member
    · omega
    · have := inv.stack n member
      omega
  layers := by
    intro layer member
    rcases List.mem_append.mp member with member | member
    · exact List.mem_append_left _ (inv.layers layer member)
    · exact List.mem_append_right _ member
  free := fun painted member free => List.mem_append_left _ (inv.free painted member free)
  owned := by
    intro painted member n owner
    obtain ⟨bounds, listed⟩ := inv.owned painted member n owner
    refine ⟨bounds, ?_⟩
    rw [paint, List.getElem?_append_left (List.getElem?_eq_some_iff.mp listed).1]
    exact listed
  consecutive := inv.enter bounds
  above := inv.above
  since := by
    intro painted member
    have := inv.since painted member
    simp only [paint, List.length_append, List.length_singleton]
    omega
  aboveLayers := by
    intro painted member free n bounds order earlier listed
    have := inv.since painted member
    rw [paint, List.getElem?_append_left (by omega)] at listed
    exact inv.aboveLayers painted member free n bounds order earlier listed

theorem Canvas.Inv.paintOwned (inv : canvas.Inv) (primitive : Primitive U D) {n : Nat} (top : n ∈ canvas.stack) :
    Canvas.Inv { canvas with painted := canvas.painted ++
      [⟨primitive.place (canvas.layerOrder n) canvas.paths, some n, canvas.layers.length⟩] } where
  stack := inv.stack
  layers := inv.layers
  free := by
    intro painted member free
    rcases List.mem_append.mp member with member | member
    · exact inv.free painted member free
    · rw [List.mem_singleton.mp member] at free
      cases free
  owned := by
    intro painted member m owner
    rcases List.mem_append.mp member with member | member
    · exact inv.owned painted member m owner
    · rw [List.mem_singleton.mp member] at owner ⊢
      cases owner
      obtain ⟨layer, listed⟩ : ∃ layer, canvas.layers[n]? = some layer :=
        ⟨_, List.getElem?_eq_getElem (inv.stack n top)⟩
      refine ⟨layer.1, ?_⟩
      simp only [Primitive.place, layerOrder, listed, Option.elim_some]
  consecutive := inv.consecutive
  above := by
    refine List.pairwise_append.mpr ⟨inv.above, List.pairwise_singleton _ _, ?_⟩
    intro a _ b member _ free
    rw [List.mem_singleton.mp member] at free
    cases free
  since := by
    intro painted member
    rcases List.mem_append.mp member with member | member
    · exact inv.since painted member
    · rw [List.mem_singleton.mp member]
  aboveLayers := by
    intro painted member free
    rcases List.mem_append.mp member with member | member
    · exact inv.aboveLayers painted member free
    · rw [List.mem_singleton.mp member] at free
      cases free

theorem Canvas.Inv.paintFree (inv : canvas.Inv) (primitive : Primitive U D) : Canvas.Inv { canvas with
      history := canvas.history ++ [(primitive.clippedBounds, highest primitive.clippedBounds canvas.history + 1)]
      painted := canvas.painted ++ [⟨primitive.place
        (highest primitive.clippedBounds canvas.history + 1) canvas.paths, none,
        canvas.layers.length⟩] } where
  stack := inv.stack
  layers := fun layer member => List.mem_append_left _ (inv.layers layer member)
  free := by
    intro painted member free
    rcases List.mem_append.mp member with member | member
    · exact List.mem_append_left _ (inv.free painted member free)
    · rw [List.mem_singleton.mp member]
      exact List.mem_append_right _ (List.mem_singleton.mpr rfl)
  owned := by
    intro painted member m owner
    rcases List.mem_append.mp member with member | member
    · exact inv.owned painted member m owner
    · rw [List.mem_singleton.mp member] at owner
      cases owner
  consecutive := inv.enter primitive.clippedBounds
  above := by
    refine List.pairwise_append.mpr ⟨inv.above, List.pairwise_singleton _ _, ?_⟩
    intro a old b member free _ meets
    rw [List.mem_singleton.mp member] at meets ⊢
    exact lt_highest (inv.free a old free) meets
  since := by
    intro painted member
    rcases List.mem_append.mp member with member | member
    · exact inv.since painted member
    · rw [List.mem_singleton.mp member]
  aboveLayers := by
    intro painted member free n bounds order earlier listed meets
    rcases List.mem_append.mp member with member | member
    · exact inv.aboveLayers painted member free n bounds order earlier listed meets
    · rw [List.mem_singleton.mp member] at meets ⊢
      exact lt_highest (inv.layers _ (List.mem_of_getElem? listed)) meets

theorem Canvas.Inv.paint (inv : canvas.Inv) (op : PaintOperation U D) : (canvas.paint op).Inv := by
  cases op with
  | startLayer bounds => exact inv.startLayer bounds
  | endLayer =>
    exact ⟨fun n member => inv.stack n (List.mem_of_mem_tail member), inv.layers, inv.free,
      inv.owned, inv.consecutive, inv.above, inv.since, inv.aboveLayers⟩
  | primitive primitive =>
    rw [Canvas.paint]
    split_ifs
    · exact inv
    · cases stack : canvas.stack with
      | nil =>
        have painted := inv.paintFree primitive
        rw [stack] at painted
        exact painted
      | cons n stack' =>
        have painted := inv.paintOwned primitive (n := n) (by rw [stack]; exact List.mem_cons_self)
        rw [stack] at painted
        exact painted

theorem Canvas.of_inv (ops : List (PaintOperation U D)) : (Canvas.of ops).Inv := by
  have empty : Canvas.Inv ({} : Canvas U D) := by
    constructor <;> simp
  rw [Canvas.of]
  generalize ({} : Canvas U D) = canvas at empty
  induction ops generalizing canvas with
  | nil => exact empty
  | cons op ops ih => exact ih _ (empty.paint op)

theorem Canvas.Inv.below (inv : canvas.Inv) (few : canvas.orders.card < u32Max) :
    ∀ entry ∈ canvas.history, entry.2 < u32Max := by
  intro entry member
  have used : Finset.Icc 1 entry.2 ⊆ canvas.orders := by
    intro order within
    obtain ⟨positive, bound⟩ := Finset.mem_Icc.mp within
    exact inv.consecutive entry member order positive bound
  have count := Finset.card_le_card used
  rw [Nat.card_Icc] at count
  omega

/-! ## Scenes -/

structure Refines (scene : Scene U D) (canvas : Canvas U D) : Prop where
  bounds : Holds scene.primitiveBounds canvas.history
  stack : scene.layerStack = canvas.stack.map canvas.layerOrder
  primitives : ∀ kind, scene.primitives kind =
    (canvas.painted.map Painted.primitive).filter fun primitive => primitive.kind = kind

variable {scene : Scene U D}

theorem fits_of_below {bounds : Bounds U} {history : List (Bounds U × Nat)}
    (below : highest bounds history + 1 < u32Max) :
    checkedAdd 32 (highest bounds history) 1 = .ok (highest bounds history + 1) :=
  checkedAdd_of_lt (by unfold u32Max at below; omega)

theorem Refines.store (refines : Refines scene canvas) (primitive : Primitive U D) (order : Nat)
    (owner : Option Nat) (since : Nat) (kind : PrimitiveKind) :
    update scene.primitives (primitive.place order (scene.primitives .path).length).kind
        (scene.primitives (primitive.place order (scene.primitives .path).length).kind ++
          [primitive.place order (scene.primitives .path).length]) kind =
      ((canvas.painted ++ [(⟨primitive.place order canvas.paths, owner, since⟩ : Painted U D)]).map
        Painted.primitive).filter fun primitive => primitive.kind = kind := by
  have paths : (scene.primitives .path).length = canvas.paths := by
    rw [refines.primitives, Canvas.paths]
  rw [paths, List.map_append, List.filter_append, ← refines.primitives]
  generalize primitive.place order canvas.paths = placed
  by_cases same : kind = placed.kind
  · subst same
    simp
  · rw [update_of_ne same]
    simp [Ne.symm same]

theorem Refines.paint (refines : Refines scene canvas) (inv : canvas.Inv) (op : PaintOperation U D)
    (below : ∀ entry ∈ (canvas.paint op).history, entry.2 < u32Max) :
    ∃ after, scene.paint op = .ok after ∧ Refines after (canvas.paint op) := by
  cases op with
  | startLayer bounds =>
    have fits := fits_of_below (below (bounds, highest bounds canvas.history + 1)
      (List.mem_append_right _ (List.mem_singleton.mpr rfl)))
    obtain ⟨tree, ran, holds⟩ := refines.bounds.insert bounds fits
    simp only [Scene.paint, Scene.pushLayer, ran, ok_bind]
    refine ⟨_, rfl, holds, ?_, refines.primitives⟩
    -- The numbers below the new layer still name the layers they named.
    have kept : canvas.stack.map canvas.layerOrder =
        canvas.stack.map (canvas.paint (.startLayer bounds)).layerOrder := by
      apply List.map_congr_left
      intro n member
      rw [Canvas.layerOrder, Canvas.layerOrder, Canvas.paint, List.getElem?_append_left (inv.stack n member)]
    simp only [refines.stack, kept]
    rw [Canvas.paint, List.map_cons]
    simp [Canvas.layerOrder]
  | endLayer =>
    refine ⟨_, rfl, refines.bounds, ?_, refines.primitives⟩
    simp only [Scene.popLayer, refines.stack, Canvas.paint, List.map_tail]
    rfl
  | primitive primitive =>
    simp only [Canvas.paint] at below ⊢
    simp only [Scene.paint, Scene.insertPrimitive]
    split_ifs at below ⊢ with empty
    · exact ⟨scene, rfl, refines⟩
    · cases stack : canvas.stack with
      | nil =>
        rw [stack] at below
        have fits := fits_of_below (below (primitive.clippedBounds, highest primitive.clippedBounds canvas.history + 1)
          (List.mem_append_right _ (List.mem_singleton.mpr rfl)))
        obtain ⟨tree, ran, holds⟩ := refines.bounds.insert primitive.clippedBounds fits
        have none : scene.layerStack = [] := by rw [refines.stack, stack]; rfl
        simp only [Scene.orderOf, none, ran, ok_bind]
        refine ⟨_, rfl, holds, rfl, ?_⟩
        exact refines.store primitive _ _ _
      | cons n others =>
        have top : scene.layerStack = canvas.layerOrder n :: others.map canvas.layerOrder := by
          rw [refines.stack, stack]
          rfl
        simp only [Scene.orderOf, top, pure_bind]
        refine ⟨_, rfl, refines.bounds, rfl, ?_⟩
        exact refines.store primitive _ _ _

theorem Canvas.history_paint (op : PaintOperation U D) : canvas.history <+: (canvas.paint op).history := by
  cases op with
  | startLayer bounds => exact List.prefix_append _ _
  | endLayer => exact List.prefix_refl _
  | primitive primitive =>
    rw [Canvas.paint]
    split_ifs
    · exact List.prefix_refl _
    · split
      · exact List.prefix_refl _
      · exact List.prefix_append _ _

theorem Canvas.history_foldl (ops : List (PaintOperation U D)) :
    canvas.history <+: (ops.foldl Canvas.paint canvas).history := by
  induction ops generalizing canvas with
  | nil => exact List.prefix_refl _
  | cons op ops ih => exact (history_paint op).trans ih

theorem Refines.run (refines : Refines scene canvas) (inv : canvas.Inv) {ops : List (PaintOperation U D)}
    (below : ∀ entry ∈ (ops.foldl Canvas.paint canvas).history, entry.2 < u32Max) :
    ∃ after, ops.foldlM Scene.paint scene = .ok after ∧ Refines after (ops.foldl Canvas.paint canvas) := by
  induction ops generalizing scene canvas with
  | nil => exact ⟨scene, rfl, refines⟩
  | cons op ops ih =>
    obtain ⟨next, ran, refines'⟩ := refines.paint inv op fun entry member =>
      below entry ((Canvas.history_foldl ops).subset member)
    obtain ⟨after, rest, refines''⟩ := ih refines' (inv.paint op) below
    refine ⟨after, ?_, refines''⟩
    rw [List.foldlM_cons, ran]
    exact rest

/-! ## Drawing -/

omit [AddCommGroup U] [LinearOrder U] in
theorem key_le {a b : Primitive U D} (le : a.key ≤ b.key) : a.order ≤ b.order := by
  rw [Primitive.key, Primitive.key, Prod.Lex.toLex_le_toLex] at le
  omega

omit [AddCommGroup U] [LinearOrder U] in
theorem key_le_of_sortKey {a b : Primitive U D} (same : a.kind = b.kind)
    (le : Scene.sortKey a ≤ Scene.sortKey b) : a.key ≤ b.key := by
  rw [Scene.sortKey, Scene.sortKey, Prod.Lex.toLex_le_toLex] at le
  rw [Primitive.key, Primitive.key, Prod.Lex.toLex_le_toLex, same]
  omega

theorem Canvas.Inv.order_below (inv : canvas.Inv) (below : ∀ entry ∈ canvas.history, entry.2 < u32Max)
    {painted : Painted U D} (member : painted ∈ canvas.painted) : painted.primitive.order < u32Max := by
  cases owner : painted.owner with
  | none => exact below _ (inv.free painted member owner)
  | some n =>
    obtain ⟨bounds, listed⟩ := inv.owned painted member n owner
    exact below _ (inv.layers _ (List.mem_of_getElem? listed))

theorem Refines.ready (refines : Refines scene canvas) (inv : canvas.Inv)
    (below : ∀ entry ∈ canvas.history, entry.2 < u32Max) : Ready scene.finish.primitives := by
  have member {kind : PrimitiveKind} {primitive : Primitive U D} (member : primitive ∈ scene.finish.primitives kind) :
      primitive.kind = kind ∧ ∃ painted ∈ canvas.painted, painted.primitive = primitive := by
    have stored := mem_sortBy.mp member
    rw [refines.primitives, List.mem_filter, decide_eq_true_iff, List.mem_map] at stored
    exact ⟨stored.2, stored.1⟩
  refine ⟨fun kind primitive stored => (member stored).1, ?_, ?_⟩
  · intro kind
    have sorted : (scene.finish.primitives kind).Pairwise
        fun a b => Scene.sortKey a ≤ Scene.sortKey b := sorted_sortBy_key _ _
    refine sorted.imp_of_mem ?_
    intro a b inA inB le
    exact key_le_of_sortKey ((member inA).1.trans (member inB).1.symm) le
  · intro kind primitive stored
    obtain ⟨-, painted, listed, rfl⟩ := member stored
    exact inv.order_below below listed

omit [AddCommGroup U] [LinearOrder U] in
theorem perm_kinds (primitives : List (Primitive U D)) : primitives.Perm (PrimitiveKind.all.flatMap fun kind =>
      primitives.filter fun primitive => primitive.kind = kind) := by
  have merge : CutOff (fun _ _ => True) (fun kind => primitives.filter fun primitive => primitive.kind = kind)
      (primitives.map fun primitive => (primitive.kind, [primitive])) := by
    induction primitives with
    | nil => exact .done fun kind => rfl
    | cons head rest ih =>
      have rest' : update (fun kind => (head :: rest).filter fun primitive => primitive.kind = kind)
          head.kind (rest.filter fun primitive => primitive.kind = head.kind) =
          fun kind => rest.filter fun primitive => primitive.kind = kind := by
        funext kind
        by_cases same : kind = head.kind
        · subst same
          rw [update_self]
        · rw [update_of_ne same, List.filter_cons_of_neg (by simpa using Ne.symm same)]
      refine .cut ?_ (fun _ _ _ _ _ => trivial) (by rw [rest']; exact ih)
      simp
  have perm := merge.perm PrimitiveKind.nodup_all PrimitiveKind.mem_all
  rw [List.flatMap_map] at perm
  simpa using perm

def DrawnBefore (drawn : List (Primitive U D)) (a b : Primitive U D) : Prop :=
  ∀ m n : Nat, drawn[m]? = some a → drawn[n]? = some b → m < n

omit [AddCommGroup U] [LinearOrder U] in
theorem drawnBefore_of_lt {drawn : List (Primitive U D)}
    (sorted : drawn.Pairwise fun a b => a.key ≤ b.key) {a b : Primitive U D} (less : a.order < b.order) :
    DrawnBefore drawn a b := by
  intro m n first second
  obtain ⟨inM, rfl⟩ := List.getElem?_eq_some_iff.mp first
  obtain ⟨inN, rfl⟩ := List.getElem?_eq_some_iff.mp second
  by_contra notBefore
  rcases Nat.eq_or_lt_of_le (Nat.not_lt.mp notBefore) with rfl | later
  · exact Nat.lt_irrefl _ less
  · have le := key_le (List.pairwise_iff_getElem.mp sorted n m inN inM later)
    omega

theorem inserted_painted (ops : List (PaintOperation U D)) :
    List.Forall₂ (fun (primitive : Primitive U D) (painted : Painted U D) =>
      ∃ order paths, painted.primitive = primitive.place order paths)
      (inserted ops) (Canvas.of ops).painted := by
  have general (start : Canvas U D) : ∃ more, (ops.foldl Canvas.paint start).painted =
      start.painted ++ more ∧ List.Forall₂ (fun (primitive : Primitive U D) (painted : Painted U D) =>
        ∃ order paths, painted.primitive = primitive.place order paths) (inserted ops) more := by
    induction ops generalizing start with
    | nil => exact ⟨[], (List.append_nil _).symm, .nil⟩
    | cons op ops ih =>
      obtain ⟨more, painted, all⟩ := ih (start.paint op)
      cases op with
      | startLayer bounds => exact ⟨more, painted, all⟩
      | endLayer => exact ⟨more, painted, all⟩
      | primitive primitive =>
        by_cases empty : primitive.clippedBounds.isEmpty = true
        · rw [List.foldl_cons, painted, Canvas.paint, if_pos empty, inserted,
            List.filterMap_cons_none (by exact if_pos empty)]
          exact ⟨more, rfl, all⟩
        · rw [List.foldl_cons, painted, Canvas.paint, if_neg empty, inserted,
            List.filterMap_cons_some (by exact if_neg empty)]
          split
          · exact ⟨_ :: more, by rw [List.append_assoc]; rfl, .cons ⟨_, _, rfl⟩ all⟩
          · exact ⟨_ :: more, by rw [List.append_assoc]; rfl, .cons ⟨_, _, rfl⟩ all⟩
  obtain ⟨more, painted, all⟩ := general {}
  rw [List.nil_append] at painted
  rw [Canvas.of, painted]
  exact all

/-- The batches of a finished scene draw every primitive that is not clipped away once, in the order
of their keys; what lies over others outside of all layers is drawn after them, and after all that the
layers under it own. -/
theorem batches_paint (ops : List (PaintOperation U D)) (few : (Canvas.of ops).orders.card < u32Max) :
    ∃ scene batches, ops.foldlM Scene.paint {} = .ok scene ∧ Yields BatchIterator.next scene.finish.batches batches ∧
      List.Forall₂ (fun (primitive : Primitive U D) (painted : Painted U D) =>
        ∃ order paths, painted.primitive = primitive.place order paths)
        (inserted ops) (Canvas.of ops).painted ∧
      (batches.flatMap scene.finish.batchPrimitives).Perm ((Canvas.of ops).painted.map Painted.primitive) ∧
      (batches.flatMap scene.finish.batchPrimitives).Pairwise (fun a b => a.key ≤ b.key) ∧
      (∀ batch ∈ batches, scene.finish.batchPrimitives batch ≠ [] ∧
        ∀ primitive ∈ scene.finish.batchPrimitives batch, primitive.kind = batch.kind ∧
          ∀ tile, primitive.shape.tile = some tile → batch.textureId = some tile.textureId) ∧
      (Canvas.of ops).painted.Pairwise (fun a b => a.owner = none → b.owner = none →
        a.primitive.clippedBounds.intersects b.primitive.clippedBounds = true →
        DrawnBefore (batches.flatMap scene.finish.batchPrimitives) a.primitive b.primitive) ∧
      ∀ n layer, (Canvas.of ops).layers[n]? = some layer → ∀ own ∈ (Canvas.of ops).painted, own.owner = some n →
        ∀ later ∈ (Canvas.of ops).painted, later.owner = none → n < later.since →
          layer.1.intersects later.primitive.clippedBounds = true →
          DrawnBefore (batches.flatMap scene.finish.batchPrimitives) own.primitive later.primitive := by
  have inv := Canvas.of_inv ops
  have below := inv.below few
  have empty : Refines ({} : Scene U D) {} := ⟨.empty, rfl, fun _ => rfl⟩
  obtain ⟨scene, ran, refines⟩ := empty.run (Canvas.of_inv []) below
  have ready := refines.ready inv below
  have stands : BatchIterator.Stands scene.finish.primitives scene.finish.batches := fun kind => ⟨rfl, Nat.zero_le _⟩
  obtain ⟨batches, cuts, yields, draws, merge⟩ := BatchIterator.yields_batches stands ready
  have flat : batches.flatMap scene.finish.batchPrimitives = cuts.flatMap Prod.snd := by
    clear yields merge
    induction draws with
    | nil => rfl
    | cons draw _ ih =>
      rw [List.flatMap_cons, List.flatMap_cons, ih, Scene.batchPrimitives, draw.range]
  have sorted : (batches.flatMap scene.finish.batchPrimitives).Pairwise fun a b => a.key ≤ b.key := by
    rw [flat]
    exact merge.sorted ready.sorted
  refine ⟨scene, batches, ran, yields, inserted_painted ops, ?_, sorted, ?_, ?_, ?_⟩
  · rw [flat]
    have merged := merge.perm PrimitiveKind.nodup_all PrimitiveKind.mem_all
    refine merged.trans (List.Perm.trans ?_ (perm_kinds _).symm)
    apply List.Perm.flatMap_left
    intro kind _
    have vector := refines.primitives kind
    rw [← Canvas.of] at vector
    rw [← vector]
    exact perm_sortBy
  · intro batch member
    obtain ⟨cut, -, draw⟩ : ∃ cut ∈ cuts, BatchIterator.Draws scene.finish.primitives batch cut := by
      clear yields merge flat sorted
      induction draws with
      | nil => cases member
      | cons draw _ ih =>
        rcases List.mem_cons.mp member with rfl | member
        · exact ⟨_, List.mem_cons_self, draw⟩
        · obtain ⟨cut, within, draw⟩ := ih member
          exact ⟨cut, List.mem_cons_of_mem _ within, draw⟩
    have range : scene.finish.batchPrimitives batch = cut.2 := draw.range
    refine ⟨by rw [range]; exact draw.nonempty, ?_⟩
    intro primitive drawn
    refine ⟨?_, ?_⟩
    · have stored := List.mem_of_mem_take (List.mem_of_mem_drop drawn)
      exact ready.kinds batch.kind primitive stored
    · rw [range] at drawn
      exact draw.texture primitive drawn
  · exact inv.above.imp fun above first second meets => drawnBefore_of_lt sorted (above first second meets)
  · intro n layer listed own ownMember owner later laterMember free earlier meets
    obtain ⟨bounds, owned⟩ := inv.owned own ownMember n owner
    rw [listed] at owned
    cases owned
    exact drawnBefore_of_lt sorted (inv.aboveLayers later laterMember free n _ _ earlier listed meets)

def layered : List (PaintOperation Int Unit) :=
  let area : Bounds Int := ⟨⟨0, 0⟩, ⟨10, 10⟩⟩
  [.startLayer area, .primitive ⟨.monochromeSprite ⟨⟨0, .monochrome⟩, 3⟩, 0, ⟨⟨1, 1⟩, ⟨2, 2⟩⟩, area, ()⟩,
    .primitive ⟨.quad, 0, area, area, ()⟩,
    .endLayer,
    .primitive ⟨.shadow, 0, ⟨⟨8, 8⟩, ⟨9, 9⟩⟩, ⟨⟨0, 0⟩, ⟨20, 20⟩⟩, ()⟩]

theorem layered_paint : ∃ scene batches, layered.foldlM Scene.paint {} = .ok scene ∧
    Yields BatchIterator.next scene.finish.batches batches ∧
    (batches.flatMap scene.finish.batchPrimitives).Perm ((Canvas.of layered).painted.map Painted.primitive) := by
  obtain ⟨scene, batches, ran, yields, -, perm, -⟩ := batches_paint layered (by decide)
  exact ⟨scene, batches, ran, yields, perm⟩

end Pinrail.Paint

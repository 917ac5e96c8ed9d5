import Mathlib.Data.Prod.Lex
import Pinrail.Geometry.BoundsTree
import Pinrail.Lib.Iterator
import Pinrail.Lib.Ranked
import Pinrail.Lib.Replay

/-!
# Scenes

`Scene` and its `BatchIterator`. What the eight kinds of primitives have in common is one structure,
with what only some kinds have in its shape; the eight vectors are one per kind. `D` is the data of a
primitive that the scene does not read.
-/

namespace Pinrail.Paint
open Lib Pinrail.Geometry

inductive PrimitiveKind where
  | shadow
  | quad
  | path
  | underline
  | monochromeSprite
  | subpixelSprite
  | polychromeSprite
  | surface
deriving DecidableEq

namespace PrimitiveKind

def all : List PrimitiveKind :=
  [shadow, quad, path, underline, monochromeSprite, subpixelSprite, polychromeSprite, surface]

def rank : PrimitiveKind → Nat
  | shadow => 0
  | quad => 1
  | path => 2
  | underline => 3
  | monochromeSprite => 4
  | subpixelSprite => 5
  | polychromeSprite => 6
  | surface => 7

end PrimitiveKind

inductive AtlasTextureKind where
  | monochrome
  | polychrome
  | subpixel
deriving DecidableEq

structure AtlasTextureId where
  index : Nat
  kind : AtlasTextureKind
deriving DecidableEq

/-- What the scene reads of an `AtlasTile`. -/
structure AtlasTile where
  textureId : AtlasTextureId
  tileId : Nat
deriving DecidableEq

inductive Shape where
  | shadow
  | quad
  | path (id : Nat)
  | underline
  | monochromeSprite (tile : AtlasTile)
  | subpixelSprite (tile : AtlasTile)
  | polychromeSprite (tile : AtlasTile)
  | surface
deriving DecidableEq

namespace Shape

def kind : Shape → PrimitiveKind
  | shadow => .shadow
  | quad => .quad
  | path _ => .path
  | underline => .underline
  | monochromeSprite _ => .monochromeSprite
  | subpixelSprite _ => .subpixelSprite
  | polychromeSprite _ => .polychromeSprite
  | surface => .surface

def tile : Shape → Option AtlasTile
  | monochromeSprite tile => some tile
  | subpixelSprite tile => some tile
  | polychromeSprite tile => some tile
  | _ => none

end Shape

structure Primitive (U D : Type) where
  shape : Shape
  order : Nat
  bounds : Bounds U
  contentMask : Bounds U
  data : D
deriving DecidableEq

inductive PaintOperation (U D : Type) where
  | primitive (primitive : Primitive U D)
  | startLayer (bounds : Bounds U)
  | endLayer

variable {U D : Type} [AddCommGroup U] [LinearOrder U]

namespace Primitive

def kind (self : Primitive U D) : PrimitiveKind := self.shape.kind

def clippedBounds (self : Primitive U D) : Bounds U := self.bounds.intersect self.contentMask

def key (self : Primitive U D) : Nat ×ₗ Nat := toLex (self.order, self.kind.rank)

def place (self : Primitive U D) (order paths : Nat) : Primitive U D :=
  { self with
    order := order
    shape := match self.shape with
      | .path _ => .path paths
      | shape => shape }

end Primitive

structure Scene (U D : Type) where
  paintOperations : List (PaintOperation U D) := []
  primitiveBounds : BoundsTree U := {}
  layerStack : List Nat := []
  primitives : PrimitiveKind → List (Primitive U D) := fun _ => []

namespace Scene

def pushLayer (self : Scene U D) (bounds : Bounds U) : Except Panic (Scene U D) := do
  let (order, primitiveBounds) ← self.primitiveBounds.insert bounds
  return { self with
    primitiveBounds := primitiveBounds
    layerStack := order :: self.layerStack
    paintOperations := self.paintOperations ++ [.startLayer bounds] }

def popLayer (self : Scene U D) : Scene U D :=
  { self with
    layerStack := self.layerStack.tail
    paintOperations := self.paintOperations ++ [.endLayer] }

def orderOf (self : Scene U D) (clippedBounds : Bounds U) : Except Panic (Nat × BoundsTree U) :=
  match self.layerStack with
  | order :: _ => return (order, self.primitiveBounds)
  | [] => self.primitiveBounds.insert clippedBounds

def insertPrimitive (self : Scene U D) (primitive : Primitive U D) : Except Panic (Scene U D) := do
  if primitive.clippedBounds.isEmpty then return self
  let (order, primitiveBounds) ← self.orderOf primitive.clippedBounds
  let placed := primitive.place order (self.primitives .path).length
  return { self with
    primitiveBounds := primitiveBounds
    primitives := Function.update self.primitives placed.kind (self.primitives placed.kind ++ [placed])
    paintOperations := self.paintOperations ++ [.primitive placed] }

def paint (self : Scene U D) : PaintOperation U D → Except Panic (Scene U D)
  | .primitive primitive => self.insertPrimitive primitive
  | .startLayer bounds => self.pushLayer bounds
  | .endLayer => return self.popLayer

def replay (self : Scene U D) (start stop : Nat) (prevScene : Scene U D) : Except Panic (Scene U D) := do
  (← sliceRange prevScene.paintOperations start stop).foldlM paint self

def sortKey (primitive : Primitive U D) : Nat ×ₗ Nat :=
  toLex (primitive.order, primitive.shape.tile.elim 0 AtlasTile.tileId)

def finish (self : Scene U D) : Scene U D :=
  { self with primitives := fun kind => sortBy (fun a b => compare (sortKey a) (sortKey b)) (self.primitives kind) }

omit [AddCommGroup U] [LinearOrder U] in
theorem place_place (primitive : Primitive U D) (order order' paths paths' : Nat) :
    (primitive.place order paths).place order' paths' = primitive.place order' paths' := by
  unfold Primitive.place
  cases primitive.shape <;> rfl

theorem insertPrimitive_place (self : Scene U D) (primitive : Primitive U D) (order paths : Nat) :
    self.insertPrimitive (primitive.place order paths) = self.insertPrimitive primitive := by
  have clipped : (primitive.place order paths).clippedBounds = primitive.clippedBounds := rfl
  simp only [insertPrimitive, clipped, place_place]

theorem paint_replayable : Replayable (@paint U D _ _) paintOperations := by
  refine ⟨fun state operation state' painted => ?_⟩
  cases operation with
  | primitive primitive =>
    simp only [paint, insertPrimitive] at painted
    split_ifs at painted with empty
    · cases painted
      refine ⟨[], by simp, fun other => ?_⟩
      simp only [List.foldlM_cons, List.foldlM_nil, paint, insertPrimitive, if_pos empty]
      rfl
    · obtain ⟨⟨order, tree⟩, -, painted⟩ := bind_eq_ok.mp painted
      cases painted
      refine ⟨[.primitive _], rfl, fun other => ?_⟩
      simp only [List.foldlM_cons, paint, insertPrimitive_place]
  | startLayer bounds =>
    obtain ⟨⟨order, tree⟩, -, painted⟩ := bind_eq_ok.mp painted
    cases painted
    exact ⟨[.startLayer bounds], rfl, fun _ => rfl⟩
  | endLayer =>
    cases painted
    exact ⟨[.endLayer], rfl, fun _ => rfl⟩

end Scene

/-! ## Batches -/

structure PrimitiveBatch where
  kind : PrimitiveKind
  textureId : Option AtlasTextureId
  start : Nat
  stop : Nat
deriving DecidableEq

structure BatchIterator (U D : Type) where
  starts : PrimitiveKind → Nat
  iters : PrimitiveKind → List (Primitive U D)

def u32Max : Nat := 2 ^ 32 - 1

/-- An entry of `orders_and_kinds`. -/
structure Head where
  order : Option Nat
  kind : PrimitiveKind
deriving DecidableEq

def Head.key (self : Head) : Nat ×ₗ Nat := toLex (self.order.getD u32Max, self.kind.rank)

namespace BatchIterator

def ordersAndKinds (self : BatchIterator U D) : List Head :=
  sortBy (fun a b => compare a.key b.key)
    (PrimitiveKind.all.map fun kind => ⟨(self.iters kind).head?.map Primitive.order, kind⟩)

def textured : PrimitiveKind → Bool
  | .shadow => false
  | .quad => false
  | .path => false
  | .underline => false
  | .monochromeSprite => true
  | .subpixelSprite => true
  | .polychromeSprite => true
  | .surface => false

def batchTexture (batchKind : PrimitiveKind) (iter : List (Primitive U D)) :
    Except Panic (Option AtlasTextureId) :=
  if textured batchKind then do
    let sprite ← unwrap iter.head?
    return sprite.shape.tile.map AtlasTile.textureId
  else return none

/-- The arm of one kind: its first primitive, and those behind it that come before the limit. -/
def takeBatch (self : BatchIterator U D) (batchKind : PrimitiveKind) (limit : Nat ×ₗ Nat) :
    Except Panic (PrimitiveBatch × BatchIterator U D) := do
  let iter := self.iters batchKind
  let textureId ← batchTexture batchKind iter
  let taken := iter.tail.takeWhile fun primitive =>
    toLex (primitive.order, batchKind.rank) < limit ∧
      (textured batchKind = true → primitive.shape.tile.map AtlasTile.textureId = textureId)
  let start := self.starts batchKind
  let stop := start + 1 + taken.length
  return (⟨batchKind, textureId, start, stop⟩, {
    starts := Function.update self.starts batchKind stop
    iters := Function.update self.iters batchKind (iter.tail.drop taken.length) })

def next (self : BatchIterator U D) : Except Panic (Option PrimitiveBatch × BatchIterator U D) := do
  let heads := self.ordersAndKinds
  let first ← index heads 0
  let second ← index heads 1
  match first.order with
  | none => return (none, self)
  | some _ => do
    let (batch, self) ← self.takeBatch first.kind second.key
    return (some batch, self)

end BatchIterator

namespace Scene

def batches (self : Scene U D) : BatchIterator U D := ⟨fun _ => 0, self.primitives⟩

def batchPrimitives (self : Scene U D) (batch : PrimitiveBatch) : List (Primitive U D) :=
  ((self.primitives batch.kind).take batch.stop).drop batch.start

end Scene
end Pinrail.Paint

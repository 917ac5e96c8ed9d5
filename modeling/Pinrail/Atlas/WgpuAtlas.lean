import Pinrail.Lib.Assoc
import Pinrail.Lib.Rust
import Pinrail.Lib.Slots
import Pinrail.Scene.Scene

/-!
# The texture atlas

`AtlasState` of `platform.rs` over the textures of `wgpu_atlas.rs`, with the device and its queue
as the textures created so far. A write of the queue takes effect where it is submitted; one that
the queue rejects changes nothing. Coordinates are exact.
-/

namespace Pinrail.Atlas
open Lib Pinrail.Geometry Paint

/-! ## The device -/

inductive TextureFormat where
  | r8Unorm
  | bgra8Unorm
  | rgba8Unorm
deriving DecidableEq

def TextureFormat.blockSize : TextureFormat → Nat
  | r8Unorm => 1
  | bgra8Unorm => 4
  | rgba8Unorm => 4

/-- A cast of `i32` to `u32`. -/
def asU32 (i : Int) : Nat := (i % 2 ^ 32).toNat

/-- A cast of `u32` to `i32`. -/
def asI32 (n : Nat) : Int := (n : Int).bmod (2 ^ 32)

structure DeviceTexture where
  size : Size Nat
  format : TextureFormat
  texel : Nat → Nat → Nat → UInt8

/-- What `write_texture` is given besides the texture; offset and layer are zero. -/
structure TexelCopy where
  origin : Point Nat
  data : List UInt8
  bytesPerRow : Nat
  extent : Size Nat

namespace TexelCopy

def requiredBytes (self : TexelCopy) (format : TextureFormat) : Nat :=
  if self.extent.width = 0 ∨ self.extent.height = 0 then 0
  else self.bytesPerRow * (self.extent.height - 1) + self.extent.width * format.blockSize

structure Accepted (self : TexelCopy) (texture : DeviceTexture) : Prop where
  columns : self.origin.x + self.extent.width ≤ texture.size.width
  rows : self.origin.y + self.extent.height ≤ texture.size.height
  pitch : self.extent.width * texture.format.blockSize ≤ self.bytesPerRow
  bytes : self.requiredBytes texture.format ≤ self.data.length

instance (self : TexelCopy) (texture : DeviceTexture) : Decidable (self.Accepted texture) :=
  decidable_of_iff ((self.origin.x + self.extent.width ≤ texture.size.width ∧
        self.origin.y + self.extent.height ≤ texture.size.height) ∧
      self.extent.width * texture.format.blockSize ≤ self.bytesPerRow ∧
        self.requiredBytes texture.format ≤ self.data.length)
    ⟨fun ⟨⟨columns, rows⟩, pitch, bytes⟩ => ⟨columns, rows, pitch, bytes⟩,
      fun ⟨columns, rows, pitch, bytes⟩ => ⟨⟨columns, rows⟩, pitch, bytes⟩⟩

def Inside (self : TexelCopy) (x y : Nat) : Prop :=
  (self.origin.x ≤ x ∧ x < self.origin.x + self.extent.width) ∧
    self.origin.y ≤ y ∧ y < self.origin.y + self.extent.height

instance (self : TexelCopy) (x y : Nat) : Decidable (self.Inside x y) :=
  inferInstanceAs (Decidable ((_ ∧ _) ∧ _ ∧ _))

end TexelCopy

def DeviceTexture.write (self : DeviceTexture) (copy : TexelCopy) : DeviceTexture :=
  if copy.Accepted self then
    { self with
      texel := fun x y byte =>
        if copy.Inside x y then
          copy.data.getD ((y - copy.origin.y) * copy.bytesPerRow + (x - copy.origin.x) * self.format.blockSize + byte) 0
        else self.texel x y byte }
  else self

structure Device where
  textures : List DeviceTexture := []

namespace Device

def createTexture (self : Device) (size : Size Nat) (format : TextureFormat) : Nat × Device :=
  (self.textures.length, ⟨self.textures ++ [⟨size, format, fun _ _ _ => 0⟩]⟩)

def writeTexture (self : Device) (texture : Nat) (copy : TexelCopy) : Device :=
  ⟨self.textures.modify texture fun texture => texture.write copy⟩

end Device

/-! ## The allocator -/

structure Allocation where
  id : Nat
  min : Point Int
deriving DecidableEq

/-- The operations of `etagere::BucketedAtlasAllocator`. -/
structure Allocator (A : Type) where
  new : Size Int → A
  allocate : A → Size Int → Option Allocation × A
  deallocate : A → Nat → A

structure Grant where
  id : Nat
  bounds : Bounds Int
deriving DecidableEq

def Apart (a b : Bounds Int) : Prop :=
  (a.origin.x + a.size.width ≤ b.origin.x ∨ b.origin.x + b.size.width ≤ a.origin.x) ∨
    a.origin.y + a.size.height ≤ b.origin.y ∨ b.origin.y + b.size.height ≤ a.origin.y

structure Fits (bounds : Bounds Int) (size : Size Int) : Prop where
  width : 0 < bounds.size.width
  height : 0 < bounds.size.height
  left : 0 ≤ bounds.origin.x
  top : 0 ≤ bounds.origin.y
  right : bounds.origin.x + bounds.size.width ≤ size.width
  bottom : bounds.origin.y + bounds.size.height ≤ size.height

/-- What the atlas relies on: `Live a size grants` says that the allocator `a` of a texture of that
size has given out `grants` and not got them back. -/
structure Allocator.Lawful {A : Type} (etagere : Allocator A)
    (Live : A → Size Int → Set Grant → Prop) : Prop where
  new : ∀ size, Live (etagere.new size) size ∅
  granted : ∀ {a a' size grants wanted allocation}, Live a size grants →
    etagere.allocate a wanted = (some allocation, a') →
    Fits ⟨allocation.min, wanted⟩ size ∧ (∀ grant ∈ grants, Apart grant.bounds ⟨allocation.min, wanted⟩) ∧
      Live a' size (insert ⟨allocation.id, ⟨allocation.min, wanted⟩⟩ grants)
  refused : ∀ {a a' size grants wanted}, Live a size grants →
    etagere.allocate a wanted = (none, a') → Live a' size grants
  returned : ∀ {a size grants grant}, Live a size grants → grant ∈ grants →
    Live (etagere.deallocate a grant.id) size (grants \ {grant})

/-! ## Keys and tiles -/

/-- `rest` is what only tells one glyph from another. -/
structure RenderGlyphParams (G : Type) where
  isEmoji : Bool
  subpixelRendering : Bool
  rest : G
deriving DecidableEq

inductive AtlasKey (G S I : Type) where
  | glyph (params : RenderGlyphParams G)
  | svg (params : S)
  | image (params : I)
deriving DecidableEq

variable {A G S I : Type}

def AtlasKey.textureKind : AtlasKey G S I → AtlasTextureKind
  | glyph params =>
    if params.isEmoji then .polychrome
    else if params.subpixelRendering then .subpixel
    else .monochrome
  | svg _ => .monochrome
  | image _ => .polychrome

structure AtlasTile extends Paint.AtlasTile where
  padding : Nat
  bounds : Bounds Int
deriving DecidableEq

/-! ## Textures -/

structure WgpuAtlasTexture (A : Type) where
  id : AtlasTextureId
  generation : Nat
  allocator : A
  texture : Nat
  format : TextureFormat
  liveAtlasKeys : Nat

namespace WgpuAtlasTexture

def allocate (etagere : Allocator A) (size : Size Int) (self : WgpuAtlasTexture A) :
    Option AtlasTile × WgpuAtlasTexture A :=
  match etagere.allocate self.allocator size with
  | (none, allocator) => (none, { self with allocator := allocator })
  | (some allocation, allocator) =>
    (some { textureId := self.id, tileId := allocation.id, padding := 0, bounds := ⟨allocation.min, size⟩ },
      { self with allocator := allocator, liveAtlasKeys := self.liveAtlasKeys + 1 })

def bytesPerPixel (self : WgpuAtlasTexture A) : Nat :=
  match self.format with
  | .r8Unorm => 1
  | .bgra8Unorm => 4
  | .rgba8Unorm => 4

def decrementRefCount (self : WgpuAtlasTexture A) : Except Panic (WgpuAtlasTexture A) := do
  let liveAtlasKeys ← checkedSub self.liveAtlasKeys 1
  return { self with liveAtlasKeys := liveAtlasKeys }

def isUnreferenced (self : WgpuAtlasTexture A) : Bool := self.liveAtlasKeys = 0

end WgpuAtlasTexture

def swapPixels : List UInt8 → List UInt8
  | b :: g :: r :: a :: rest => r :: g :: b :: a :: swapPixels rest
  | rest => rest

def swizzleUploadData (bytes : List UInt8) (format : TextureFormat) : List UInt8 :=
  match format with
  | .rgba8Unorm => swapPixels bytes
  | _ => bytes

example : swizzleUploadData [0x10, 0x20, 0x30, 0x40, 0xAA, 0xBB, 0xCC, 0xDD] .rgba8Unorm =
    [0x30, 0x20, 0x10, 0x40, 0xCC, 0xBB, 0xAA, 0xDD] := by decide

structure AtlasTextureList (T : Type) where
  textures : List (Option T) := []
  freeList : List Nat := []

structure WgpuAtlasStorage (A : Type) where
  monochromeTextures : AtlasTextureList (WgpuAtlasTexture A) := {}
  subpixelTextures : AtlasTextureList (WgpuAtlasTexture A) := {}
  polychromeTextures : AtlasTextureList (WgpuAtlasTexture A) := {}

namespace WgpuAtlasStorage

/-- `Index` and `IndexMut` of the storage. -/
def list (self : WgpuAtlasStorage A) : AtlasTextureKind → AtlasTextureList (WgpuAtlasTexture A)
  | .monochrome => self.monochromeTextures
  | .subpixel => self.subpixelTextures
  | .polychrome => self.polychromeTextures

def setList (self : WgpuAtlasStorage A) (kind : AtlasTextureKind)
    (list : AtlasTextureList (WgpuAtlasTexture A)) : WgpuAtlasStorage A :=
  match kind with
  | .monochrome => { self with monochromeTextures := list }
  | .subpixel => { self with subpixelTextures := list }
  | .polychrome => { self with polychromeTextures := list }

def get (self : WgpuAtlasStorage A) (id : AtlasTextureId) : Option (WgpuAtlasTexture A) :=
  (self.list id.kind).textures[id.index]?.join

def setSlot (self : WgpuAtlasStorage A) (id : AtlasTextureId) (slot : Option (WgpuAtlasTexture A)) :
    WgpuAtlasStorage A :=
  self.setList id.kind { self.list id.kind with textures := (self.list id.kind).textures.set id.index slot }

end WgpuAtlasStorage

structure PendingUpload where
  id : AtlasTextureId
  bounds : Bounds Int
  data : List UInt8
  /-- Ghost: the texture of the device that `id` names when the upload is queued. -/
  queuedFor : Option Nat

structure WgpuAtlasTextures (A : Type) where
  device : Device
  maxTextureSize : Nat
  colorTextureFormat : TextureFormat
  storage : WgpuAtlasStorage A := {}
  pendingUploads : List PendingUpload := []
  nextTextureGeneration : Nat := 0

namespace WgpuAtlasTextures

def atlasSize (maxTextureSize : Nat) (minSize : Size Int) : Size Int :=
  let maxSize := asI32 maxTextureSize
  ⟨max (min minSize.width maxSize) 1024, max (min minSize.height maxSize) 1024⟩

def textureFormat (self : WgpuAtlasTextures A) : AtlasTextureKind → TextureFormat
  | .monochrome => .r8Unorm
  | .subpixel => self.colorTextureFormat
  | .polychrome => self.colorTextureFormat

def pushTexture (etagere : Allocator A) (minSize : Size Int) (kind : AtlasTextureKind)
    (self : WgpuAtlasTextures A) : Except Panic (Nat × WgpuAtlasTextures A) := do
  let size := atlasSize self.maxTextureSize minSize
  let format := self.textureFormat kind
  let (texture, device) := self.device.createTexture ⟨asU32 size.width, asU32 size.height⟩ format
  let list := self.storage.list kind
  let index := list.freeList.getLast?
  let atlasTexture : WgpuAtlasTexture A :=
    { id := ⟨index.getD list.textures.length, kind⟩
      generation := self.nextTextureGeneration
      allocator := etagere.new size
      texture := texture
      format := format
      liveAtlasKeys := 0 }
  let textures ← match index with
    | some ix => do
      let _ ← Lib.index list.textures ix
      pure (list.textures.set ix (some atlasTexture))
    | none => pure (list.textures ++ [some atlasTexture])
  return (index.getD list.textures.length,
    { self with
      device := device
      storage := self.storage.setList kind ⟨textures, list.freeList.dropLast⟩
      nextTextureGeneration := (self.nextTextureGeneration + 1) % 2 ^ 64 })

def allocate (etagere : Allocator A) (size : Size Int) (kind : AtlasTextureKind)
    (self : WgpuAtlasTextures A) : Except Panic (Option AtlasTile × WgpuAtlasTextures A) :=
  let list := self.storage.list kind
  let (tile, textures) := findMapRev (WgpuAtlasTexture.allocate etagere size) list.textures list.textures.length
  let self := { self with storage := self.storage.setList kind { list with textures := textures } }
  match tile with
  | some tile => return (some tile, self)
  | none => do
    let (index, self) ← self.pushTexture etagere size kind
    let texture ← unwrap (self.storage.get ⟨index, kind⟩)
    let (tile, texture) := texture.allocate etagere size
    return (tile, { self with storage := self.storage.setSlot ⟨index, kind⟩ (some texture) })

def uploadTexture (id : AtlasTextureId) (bounds : Bounds Int) (bytes : List UInt8)
    (self : WgpuAtlasTextures A) : WgpuAtlasTextures A :=
  let data := ((self.storage.get id).map fun texture => swizzleUploadData bytes texture.format).getD bytes
  let queuedFor := (self.storage.get id).map WgpuAtlasTexture.texture
  { self with pendingUploads := self.pendingUploads ++ [⟨id, bounds, data, queuedFor⟩] }

def copyOf (upload : PendingUpload) (bytesPerPixel : Nat) : TexelCopy where
  origin := ⟨asU32 upload.bounds.origin.x, asU32 upload.bounds.origin.y⟩
  data := upload.data
  bytesPerRow := asU32 upload.bounds.size.width * bytesPerPixel
  extent := ⟨asU32 upload.bounds.size.width, asU32 upload.bounds.size.height⟩

/-- An iteration of `flush_uploads`. -/
def flushUpload (storage : WgpuAtlasStorage A) (device : Device) (upload : PendingUpload) : Device :=
  match storage.get upload.id with
  | none => device
  | some texture => device.writeTexture texture.texture (copyOf upload texture.bytesPerPixel)

def flushUploads (self : WgpuAtlasTextures A) : WgpuAtlasTextures A :=
  { self with
    device := self.pendingUploads.foldl (flushUpload self.storage) self.device
    pendingUploads := [] }

/-- `none` is the error of a failed allocation. -/
def insert (etagere : Allocator A) (kind : AtlasTextureKind) (size : Size Int) (bytes : List UInt8)
    (self : WgpuAtlasTextures A) : Except Panic (Option AtlasTile × WgpuAtlasTextures A) := do
  let (tile, self) ← self.allocate etagere size kind
  match tile with
  | none => return (none, self)
  | some tile => return (some tile, self.uploadTexture tile.textureId tile.bounds bytes)

def remove (etagere : Allocator A) (tile : AtlasTile) (self : WgpuAtlasTextures A) :
    Except Panic (WgpuAtlasTextures A) :=
  let id := tile.textureId
  match (self.storage.list id.kind).textures[id.index]? with
  | none => return self
  | some none => return self
  | some (some texture) => do
    let texture := { texture with allocator := etagere.deallocate texture.allocator tile.tileId }
    let texture ← texture.decrementRefCount
    if texture.isUnreferenced then
      let storage := self.storage.setSlot id none
      let list := storage.list id.kind
      return { self with
        pendingUploads := self.pendingUploads.filter fun upload => upload.id ≠ texture.id
        storage := storage.setList id.kind { list with freeList := list.freeList ++ [texture.id.index] } }
    else
      return { self with storage := self.storage.setSlot id (some texture) }

def clear (self : WgpuAtlasTextures A) : WgpuAtlasTextures A :=
  { self with storage := {}, pendingUploads := [] }

end WgpuAtlasTextures

/-! ## The atlas -/

structure WgpuAtlas (A G S I : Type) where
  tilesByKey : List (AtlasKey G S I × AtlasTile) := []
  backend : WgpuAtlasTextures A

/-- What the builder of a key gives: an error, nothing, or the size and the bytes of an image. -/
abbrev Built := Except Str (Option (Size Int × List UInt8))

namespace WgpuAtlas

variable [DecidableEq G] [DecidableEq S] [DecidableEq I]

def new (device : Device) (maxTextureSize : Nat) (colorTextureFormat : TextureFormat) : WgpuAtlas A G S I where
  backend := { device := device, maxTextureSize := maxTextureSize, colorTextureFormat := colorTextureFormat }

def getOrInsertWith (etagere : Allocator A) (key : AtlasKey G S I) (build : Built) (self : WgpuAtlas A G S I) :
    Except Panic (Except Str (Option AtlasTile) × WgpuAtlas A G S I) :=
  match valueOf key self.tilesByKey with
  | some tile => return (.ok (some tile), self)
  | none =>
    match build with
    | .error error => return (.error error, self)
    | .ok none => return (.ok none, self)
    | .ok (some (size, bytes)) => do
      let (tile, backend) ← self.backend.insert etagere key.textureKind size bytes
      match tile with
      | none => return (.error "failed to allocate".toList, { self with backend := backend })
      | some tile => return (.ok (some tile), ⟨self.tilesByKey ++ [(key, tile)], backend⟩)

def remove (etagere : Allocator A) (key : AtlasKey G S I) (self : WgpuAtlas A G S I) :
    Except Panic (WgpuAtlas A G S I) :=
  match valueOf key self.tilesByKey with
  | none => return self
  | some tile => do
    let backend ← self.backend.remove etagere tile
    return ⟨self.tilesByKey.filter fun entry => entry.1 ≠ key, backend⟩

def beforeFrame (self : WgpuAtlas A G S I) : WgpuAtlas A G S I :=
  { self with backend := self.backend.flushUploads }

def clear (self : WgpuAtlas A G S I) : WgpuAtlas A G S I := ⟨[], self.backend.clear⟩

end WgpuAtlas

/-! ## Runs -/

inductive Op (G S I : Type) where
  | getOrInsertWith (key : AtlasKey G S I) (build : Built)
  | remove (key : AtlasKey G S I)
  | beforeFrame
  | clear

variable [DecidableEq G] [DecidableEq S] [DecidableEq I]

def step (etagere : Allocator A) (atlas : WgpuAtlas A G S I) : Op G S I → Except Panic (WgpuAtlas A G S I)
  | .getOrInsertWith key build => do
    let (_, atlas) ← atlas.getOrInsertWith etagere key build
    return atlas
  | .remove key => atlas.remove etagere key
  | .beforeFrame => return atlas.beforeFrame
  | .clear => return atlas.clear

def record (atlas : WgpuAtlas A G S I) (built : AtlasKey G S I → Option (Size Int × List UInt8)) :
    Op G S I → AtlasKey G S I → Option (Size Int × List UInt8)
  | .getOrInsertWith key (.ok (some image)) =>
    if (valueOf key atlas.tilesByKey).isSome then built else Function.update built key (some image)
  | _ => built

def run (etagere : Allocator A) :
    List (Op G S I) → WgpuAtlas A G S I × (AtlasKey G S I → Option (Size Int × List UInt8)) →
      Except Panic (WgpuAtlas A G S I × (AtlasKey G S I → Option (Size Int × List UInt8)))
  | [], state => return state
  | op :: ops, (atlas, built) => do
    let after ← step etagere atlas op
    run etagere ops (after, record atlas built op)

end Pinrail.Atlas

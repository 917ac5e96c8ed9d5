import Mathlib.Tactic.Ring
import Pinrail.Atlas.WgpuAtlas

/-!
# What textures hold

A texture of the device under the writes that are queued for it.
-/

namespace Pinrail.Atlas
open Lib Pinrail.Geometry Paint

theorem asU32_of_nonneg {i : Int} (nonneg : 0 ≤ i) (small : i < 2 ^ 32) : asU32 i = i.toNat := by
  rw [asU32, Int.emod_eq_of_lt nonneg small]

def DeviceTexture.Holds (self : DeviceTexture) (bounds : Bounds Int) (data : List UInt8) : Prop :=
  ∀ column row byte, column < bounds.size.width.toNat → row < bounds.size.height.toNat → byte < self.format.blockSize →
    some (self.texel (bounds.origin.x.toNat + column) (bounds.origin.y.toNat + row) byte) =
      data[(row * bounds.size.width.toNat + column) * self.format.blockSize + byte]?

def Full (size : Size Int) (format : TextureFormat) (bytes : List UInt8) : Prop :=
  size.width.toNat * size.height.toNat * format.blockSize ≤ bytes.length

structure DeviceTexture.Sized (texture : DeviceTexture) (size : Size Int) : Prop where
  width : size.width = texture.size.width
  height : size.height = texture.size.height
  narrow : texture.size.width < 2 ^ 31
  low : texture.size.height < 2 ^ 31

variable {texture : DeviceTexture} {upload : PendingUpload} {bounds : Bounds Int} {size : Size Int}
  {data : List UInt8} {copy : TexelCopy}

/-! ## Writes -/

@[simp] theorem DeviceTexture.write_format : (texture.write copy).format = texture.format := by
  unfold DeviceTexture.write
  split_ifs <;> rfl

@[simp] theorem DeviceTexture.write_size : (texture.write copy).size = texture.size := by
  unfold DeviceTexture.write
  split_ifs <;> rfl

theorem DeviceTexture.write_texel_outside {x y byte : Nat} (outside : ¬ copy.Inside x y) :
    (texture.write copy).texel x y byte = texture.texel x y byte := by
  unfold DeviceTexture.write
  split_ifs
  · exact if_neg outside
  · rfl

theorem copyOf_eq (fits : Fits upload.bounds size) (sized : texture.Sized size) (bytesPerPixel : Nat) :
    WgpuAtlasTextures.copyOf upload bytesPerPixel =
      ⟨⟨upload.bounds.origin.x.toNat, upload.bounds.origin.y.toNat⟩, upload.data,
        upload.bounds.size.width.toNat * bytesPerPixel,
        ⟨upload.bounds.size.width.toNat, upload.bounds.size.height.toNat⟩⟩ := by
  have := fits.width
  have := fits.height
  have := fits.left
  have := fits.top
  have := fits.right
  have := fits.bottom
  have := sized.width
  have := sized.height
  have := sized.narrow
  have := sized.low
  simp only [WgpuAtlasTextures.copyOf]
  rw [asU32_of_nonneg (by omega) (by omega), asU32_of_nonneg (by omega) (by omega),
    asU32_of_nonneg (by omega) (by omega), asU32_of_nonneg (by omega) (by omega)]

theorem Apart.symm {a b : Bounds Int} (apart : Apart a b) : Apart b a := by
  unfold Apart at *
  omega

theorem DeviceTexture.Sized.of_size {texture' : DeviceTexture} (sized : texture.Sized size)
    (same : texture'.size = texture.size) : texture'.Sized size := by
  obtain ⟨width, height, narrow, low⟩ := sized
  exact ⟨same ▸ width, same ▸ height, same ▸ narrow, same ▸ low⟩

theorem length_swapPixels (bytes : List UInt8) : (swapPixels bytes).length = bytes.length := by
  fun_induction swapPixels bytes with
  | case1 b g r a rest ih => simp [ih]
  | case2 => rfl

theorem Full.swizzle {format : TextureFormat} {bytes : List UInt8} (full : Full size format bytes) :
    Full size format (swizzleUploadData bytes format) := by
  unfold Full swizzleUploadData at *
  cases format with
  | r8Unorm => exact full
  | bgra8Unorm => exact full
  | rgba8Unorm => exact full.trans (length_swapPixels bytes).ge

theorem DeviceTexture.Holds.of_apart {size' : Size Int} (holds : texture.Holds bounds data) (inside : Fits bounds size')
    (fits : Fits upload.bounds size) (sized : texture.Sized size) (apart : Apart bounds upload.bounds)
    (bytesPerPixel : Nat) : (texture.write (WgpuAtlasTextures.copyOf upload bytesPerPixel)).Holds bounds data := by
  intro column row byte left above within
  rw [DeviceTexture.write_format] at within ⊢
  rw [DeviceTexture.write_texel_outside]
  · exact holds column row byte left above within
  · rw [copyOf_eq fits sized]
    have := inside.left
    have := inside.top
    have := fits.left
    have := fits.top
    unfold Apart at apart
    simp only [TexelCopy.Inside]
    omega

theorem holds_write (fits : Fits upload.bounds size) (sized : texture.Sized size)
    (full : Full upload.bounds.size texture.format upload.data) :
    (texture.write (WgpuAtlasTextures.copyOf upload texture.format.blockSize)).Holds upload.bounds upload.data := by
  have := fits.width
  have := fits.height
  have := fits.left
  have := fits.top
  have := fits.right
  have := fits.bottom
  have := sized.width
  have := sized.height
  obtain ⟨width, widthEq⟩ : ∃ width, upload.bounds.size.width.toNat = width + 1 :=
    ⟨upload.bounds.size.width.toNat - 1, by omega⟩
  obtain ⟨height, heightEq⟩ : ∃ height, upload.bounds.size.height.toNat = height + 1 :=
    ⟨upload.bounds.size.height.toNat - 1, by omega⟩
  rw [copyOf_eq fits sized]
  unfold Full at full
  unfold DeviceTexture.write
  rw [widthEq, heightEq] at full ⊢
  rw [if_pos]
  · intro column row byte left above within
    simp only [widthEq, heightEq] at left above within ⊢
    rw [if_pos (by simp only [TexelCopy.Inside]; omega)]
    have place : row * ((width + 1) * texture.format.blockSize) + column * texture.format.blockSize + byte =
        (row * (width + 1) + column) * texture.format.blockSize + byte := by ring
    have room : (row * (width + 1) + column) * texture.format.blockSize + byte < upload.data.length := by
      have rows : row * (width + 1) + column + 1 ≤ (width + 1) * (height + 1) := by
        calc row * (width + 1) + column + 1 ≤ row * (width + 1) + (width + 1) := by omega
          _ = (width + 1) * (row + 1) := by ring
          _ ≤ (width + 1) * (height + 1) := Nat.mul_le_mul_left _ (by omega)
      have bytes := Nat.mul_le_mul_right texture.format.blockSize rows
      rw [Nat.add_mul, Nat.one_mul] at bytes
      omega
    rw [Nat.add_sub_cancel_left, Nat.add_sub_cancel_left, place, List.getD_eq_getElem?_getD,
      List.getElem?_eq_getElem room, Option.getD_some]
  · refine ⟨by dsimp only; omega, by dsimp only; omega, le_rfl, ?_⟩
    rw [TexelCopy.requiredBytes, if_neg (by dsimp only; omega)]
    calc (width + 1) * texture.format.blockSize * (height + 1 - 1) + (width + 1) * texture.format.blockSize
        = (width + 1) * (height + 1) * texture.format.blockSize := by
          rw [Nat.add_sub_cancel]
          ring
      _ ≤ upload.data.length := full

/-! ## Queued writes -/

def settled (uploads : List PendingUpload) (index : Nat) (texture : DeviceTexture) : DeviceTexture :=
  (uploads.filter fun upload => upload.queuedFor = some index).foldl
    (fun texture upload => texture.write (WgpuAtlasTextures.copyOf upload texture.format.blockSize)) texture

variable {uploads : List PendingUpload} {index : Nat}

@[simp] theorem settled_nil : settled [] index texture = texture := rfl

theorem settled_cons : settled (upload :: uploads) index texture =
    if upload.queuedFor = some index then
      settled uploads index (texture.write (WgpuAtlasTextures.copyOf upload texture.format.blockSize))
    else settled uploads index texture := by
  unfold settled
  by_cases same : upload.queuedFor = some index <;> simp [same]

theorem settled_concat : settled (uploads ++ [upload]) index texture =
    if upload.queuedFor = some index then
      (settled uploads index texture).write
        (WgpuAtlasTextures.copyOf upload (settled uploads index texture).format.blockSize)
    else settled uploads index texture := by
  unfold settled
  rw [List.filter_append, List.foldl_append]
  by_cases same : upload.queuedFor = some index <;> simp [same]

theorem settled_shape : (settled uploads index texture).format = texture.format ∧
    (settled uploads index texture).size = texture.size := by
  induction uploads generalizing texture with
  | nil => exact ⟨rfl, rfl⟩
  | cons upload uploads ih =>
    rw [settled_cons]
    split_ifs
    · obtain ⟨format, size⟩ := @ih (texture.write (WgpuAtlasTextures.copyOf upload texture.format.blockSize))
      exact ⟨format.trans DeviceTexture.write_format, size.trans DeviceTexture.write_size⟩
    · exact ih

theorem settled_filter {keep : PendingUpload → Bool}
    (others : ∀ upload ∈ uploads, keep upload = false → upload.queuedFor ≠ some index) :
    settled (uploads.filter keep) index texture = settled uploads index texture := by
  unfold settled
  rw [List.filter_filter]
  congr 1
  apply List.filter_congr
  intro upload member
  cases kept : keep upload with
  | true => simp
  | false => simp [others upload member kept]

variable {A : Type} {storage : WgpuAtlasStorage A} {device : Device}

def WgpuAtlasStorage.target (self : WgpuAtlasStorage A) (id : AtlasTextureId) : Option (Nat × TextureFormat) :=
  (self.get id).map fun texture => (texture.texture, texture.format)

def Targeted (storage : WgpuAtlasStorage A) (device : Device) (uploads : List PendingUpload) : Prop :=
  ∀ upload ∈ uploads, ∃ index target, storage.target upload.id = some (index, target.format) ∧
    upload.queuedFor = some index ∧ device.textures[index]? = some target

theorem bytesPerPixel_eq (texture : WgpuAtlasTexture A) : texture.bytesPerPixel = texture.format.blockSize := by
  unfold WgpuAtlasTexture.bytesPerPixel TextureFormat.blockSize
  cases texture.format <;> rfl

theorem textures_flush (targeted : Targeted storage device uploads) (index : Nat) :
    (uploads.foldl (WgpuAtlasTextures.flushUpload storage) device).textures[index]? =
      device.textures[index]?.map (settled uploads index) := by
  induction uploads generalizing device with
  | nil =>
    rw [List.foldl_nil]
    cases device.textures[index]? <;> rfl
  | cons upload uploads ih =>
    obtain ⟨place, target, found, queued, onDevice⟩ := targeted upload List.mem_cons_self
    have written : WgpuAtlasTextures.flushUpload storage device upload =
        device.writeTexture place (WgpuAtlasTextures.copyOf upload target.format.blockSize) := by
      obtain ⟨texture, at_, same⟩ := Option.map_eq_some_iff.mp found
      obtain ⟨rfl, format⟩ := Prod.mk.inj same
      simp only [WgpuAtlasTextures.flushUpload, at_]
      rw [bytesPerPixel_eq, format]
    have rest : Targeted storage (device.writeTexture place
        (WgpuAtlasTextures.copyOf upload target.format.blockSize)) uploads := by
      intro other member
      obtain ⟨place', target', found', queued', onDevice'⟩ := targeted other (List.mem_cons_of_mem _ member)
      refine ⟨place', if place = place' then
          target'.write (WgpuAtlasTextures.copyOf upload target.format.blockSize) else target',
        ?_, queued', ?_⟩
      · split_ifs <;> simp [found']
      · rw [Device.writeTexture, List.getElem?_modify, onDevice']
        split_ifs <;> rfl
    rw [List.foldl_cons, written, ih rest, Device.writeTexture, List.getElem?_modify]
    by_cases same : place = index
    · subst same
      rw [onDevice]
      simp [settled_cons, queued]
    · cases device.textures[index]? with
      | none => rfl
      | some texture' => simp [settled_cons, queued, same]

end Pinrail.Atlas

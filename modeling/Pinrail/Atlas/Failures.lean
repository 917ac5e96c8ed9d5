import Pinrail.Atlas.Runs

/-!
# Failed insertions

For an image that no texture takes, a new texture is made. When the new texture does not take the image
either, the call returns an error and the texture stays.
-/

namespace Pinrail.Atlas
open Lib Pinrail.Geometry Paint

section

variable {A K : Type} {etagere : Allocator A} {Live : A → Size Int → Set Grant → Prop}
  {self : WgpuAtlasTextures A} {tiles : List (K × AtlasTile)} {built : K → Option (Size Int × List UInt8)}
  {kind : AtlasTextureKind} {size : Size Int}

/-- The allocator of a texture of the kind, or that of the texture that would be made, has room. -/
def WgpuAtlasTextures.Takes (etagere : Allocator A) (kind : AtlasTextureKind) (size : Size Int)
    (self : WgpuAtlasTextures A) : Prop :=
  (∃ texture, some texture ∈ (self.storage.list kind).textures ∧ (etagere.allocate texture.allocator size).1 ≠ none) ∨
    (etagere.allocate (etagere.new (WgpuAtlasTextures.atlasSize self.maxTextureSize size)) size).1 ≠ none

theorem allocate_eq_none (etagere : Allocator A) (size : Size Int) (texture : WgpuAtlasTexture A) :
    (texture.allocate etagere size).1 = none ↔ (etagere.allocate texture.allocator size).1 = none := by
  unfold WgpuAtlasTexture.allocate
  rcases etagere.allocate texture.allocator size with ⟨_ | allocation, allocator⟩
  · exact iff_of_true rfl rfl
  · exact iff_of_false (by simp) (by simp)

theorem scan_eq_none : (findMapRev (WgpuAtlasTexture.allocate etagere size) (self.storage.list kind).textures
        (self.storage.list kind).textures.length).1 = none ↔
      ∀ texture, some texture ∈ (self.storage.list kind).textures →
        (etagere.allocate texture.allocator size).1 = none := by
  rw [findMapRev_none_iff]
  constructor
  · intro refused texture member
    obtain ⟨i, inside, occupied⟩ := List.getElem_of_mem member
    rw [← allocate_eq_none etagere]
    exact refused i inside texture (List.getElem?_eq_some_iff.mpr ⟨inside, occupied⟩)
  · intro refused i _ texture occupied
    rw [allocate_eq_none]
    exact refused texture (List.mem_of_getElem? occupied)

theorem Inv.insert_takes (lawful : etagere.Lawful Live) (inv : Inv Live self tiles built) (kind : AtlasTextureKind)
    (size : Size Int) (bytes : List UInt8) :
    (self.Takes etagere kind size ∧ ∃ tile after, self.insert etagere kind size bytes = .ok (some tile, after)) ∨
    ¬ self.Takes etagere kind size ∧ ∃ after id, self.insert etagere kind size bytes = .ok (none, after) ∧
    after.storage.target id ≠ self.storage.target id := by
  simp only [WgpuAtlasTextures.insert, WgpuAtlasTextures.allocate]
  rcases inv.scan size kind lawful with
    ⟨textures, scan, here⟩ | ⟨tile, before, i, texture, texture', scan, here, occupied, tried⟩
  · have refused := scan_eq_none.mp (congrArg Prod.fst scan)
    obtain ⟨index, slots, free, pushed, -, -, read⟩ := pushTexture_eq etagere size kind (here.tidy.slots kind)
    have found : (Atlas.addTexture size kind slots free (withSlots kind self textures)).storage.get ⟨index, kind⟩ =
        some (newTexture etagere index size kind (withSlots kind self textures)) := by
      rw [Atlas.addTexture, read, if_pos rfl]
    have place : (newTexture etagere index size kind (withSlots kind self textures)).texture =
      self.device.textures.length := rfl
    have allocator : (newTexture etagere index size kind (withSlots kind self textures)).allocator =
      etagere.new (WgpuAtlasTextures.atlasSize self.maxTextureSize size) := rfl
    clear read
    generalize Atlas.addTexture size kind slots free (withSlots kind self textures) = after at pushed found
    generalize newTexture etagere index size kind (withSlots kind self textures) = made at found place allocator
    simp only [withSlots] at pushed
    have fresh := allocate_eq_none etagere size made
    rw [allocator] at fresh
    cases tried : made.allocate etagere size with
    | mk result texture =>
      rw [tried] at fresh
      cases result with
      | some tile =>
        refine .inl ⟨.inr (fresh.not.mp (by simp)), tile, ?_⟩
        simp only [scan, pushed, found, tried, unwrap_some, ok_bind]
        exact ⟨_, rfl⟩
      | none =>
        refine .inr ⟨?_, { after with
          storage := after.storage.setSlot ⟨index, kind⟩ (some texture) }, ⟨index, kind⟩, ?_, ?_⟩
        · rintro (⟨texture, member, room⟩ | room)
          · exact room (refused texture member)
          · exact room (fresh.mp rfl)
        · simp only [scan, pushed, found, tried, unwrap_some, ok_bind]
          rfl
        · obtain ⟨allocator, -, rfl⟩ := allocate_none tried
          have named : (after.storage.setSlot ⟨index, kind⟩
              (some { made with allocator := allocator })).target ⟨index, kind⟩ = some (made.texture, made.format) := by
            rw [WgpuAtlasStorage.target_setSlot found, WgpuAtlasStorage.target_of_get found]
            · rfl
            · rfl
          -- No texture of the storage was the next one of the device.
          intro same
          obtain ⟨texture, known, before, -⟩ := WgpuAtlasStorage.get_of_target (same.symm.trans named)
          obtain ⟨-, -, target, size', onDevice, -⟩ := inv.tidy.kept _ texture known
          rw [before, place] at onDevice
          exact absurd (List.getElem?_eq_some_iff.mp onDevice).1 (lt_irrefl _)
  · left
    constructor
    · left
      by_contra none
      push Not at none
      have refused := scan_eq_none.mpr none
      rw [scan] at refused
      cases refused
    · simp only [scan]
      exact ⟨_, _, rfl⟩

end

variable {A G S I : Type} [DecidableEq G] [DecidableEq S] [DecidableEq I] {etagere : Allocator A}
  {Live : A → Size Int → Set Grant → Prop} {atlas : WgpuAtlas A G S I}
  {built : AtlasKey G S I → Option (Size Int × List UInt8)}

structure Unchanged (atlas after : WgpuAtlas A G S I) : Prop where
  tilesByKey : after.tilesByKey = atlas.tilesByKey
  textures : ∀ id, after.backend.storage.target id = atlas.backend.storage.target id
  freeList : ∀ kind, (after.backend.storage.list kind).freeList = (atlas.backend.storage.list kind).freeList
  pendingUploads : after.backend.pendingUploads = atlas.backend.pendingUploads

/-- The calls that return an error leave the atlas as it was exactly when the key is cached, or no image
is built, or a texture or a new one takes the image. -/
theorem failed_unchanged_iff (lawful : etagere.Lawful Live) (device : Device) (maxTextureSize : Nat)
    (format : TextureFormat) (ops : List (Op G S I))
    (ran : run etagere ops (WgpuAtlas.new device maxTextureSize format, fun _ => none) = .ok (atlas, built))
    (key : AtlasKey G S I) (build : Built) :
    (∀ error after, atlas.getOrInsertWith etagere key build = .ok (.error error, after) → Unchanged atlas after) ↔
    ((valueOf key atlas.tilesByKey).isSome ∨ ∀ size bytes, build = .ok (some (size, bytes)) →
      atlas.backend.Takes etagere key.textureKind size) := by
  have start : Inv Live (WgpuAtlas.new device maxTextureSize format : WgpuAtlas A G S I).backend
      (WgpuAtlas.new device maxTextureSize format : WgpuAtlas A G S I).tilesByKey fun _ => none :=
    ⟨Tidy.empty, Shown.empty⟩
  obtain ⟨atlas', built', ran', inv⟩ := run_inv lawful ops start
  rw [ran] at ran'
  cases ran'
  cases cached : valueOf key atlas.tilesByKey with
  | some tile =>
    refine iff_of_true (fun error after returned => ?_) (.inl rfl)
    simp only [WgpuAtlas.getOrInsertWith, cached] at returned
    cases returned
  | none =>
    rcases build with error | _ | ⟨size, bytes⟩
    · refine iff_of_true (fun error after returned => ?_) (.inr fun size bytes none => by cases none)
      simp only [WgpuAtlas.getOrInsertWith, cached] at returned
      cases returned
      exact ⟨rfl, fun _ => rfl, fun _ => rfl, rfl⟩
    · refine iff_of_true (fun error after returned => ?_) (.inr fun size bytes none => by cases none)
      simp only [WgpuAtlas.getOrInsertWith, cached] at returned
      cases returned
    · rcases inv.insert_takes lawful key.textureKind size bytes with
        ⟨takes, tile, backend, inserted⟩ | ⟨refused, backend, id, inserted, added⟩
      · refine iff_of_true (fun error after returned => ?_) (.inr fun size bytes same => ?_)
        · simp only [WgpuAtlas.getOrInsertWith, cached, inserted, ok_bind] at returned
          cases returned
        · cases same
          exact takes
      · refine iff_of_false (fun unchanged => ?_) ?_
        · apply added
          refine (unchanged "failed to allocate".toList { atlas with backend := backend } ?_).textures id
          simp only [WgpuAtlas.getOrInsertWith, cached, inserted, ok_bind]
          rfl
        · rintro (some | takes)
          · cases some
          · exact refused (takes size bytes rfl)

def filled : Op Unit Unit Nat := .getOrInsertWith (.image 1) (.ok (some (⟨2, 2⟩, List.replicate 16 1)))

/-- With one tile cached: the builder of another image fails, and an image for which there is room does not. -/
theorem failed_unchanged_filled :
    ∃ atlas built, run rows [filled] (WgpuAtlas.new {} 8192 .rgba8Unorm, fun _ => none) = .ok (atlas, built) ∧
      (valueOf (.image 1) atlas.tilesByKey).isSome ∧
      (∃ after, atlas.getOrInsertWith rows (.image 2) (.error "no image".toList) =
        .ok (.error "no image".toList, after) ∧ Unchanged atlas after) ∧
      ∀ error after, atlas.getOrInsertWith rows (.image 2) (.ok (some (⟨2, 2⟩, List.replicate 16 1))) =
        .ok (.error error, after) → Unchanged atlas after := by
  obtain ⟨atlas, built, ran, cached, takes, after, failed⟩ : ∃ (atlas : WgpuAtlas Rows Unit Unit Nat) (built : _),
      run rows [filled] (WgpuAtlas.new {} 8192 .rgba8Unorm, fun _ => none) = .ok (atlas, built) ∧
      (valueOf (.image 1) atlas.tilesByKey).isSome ∧ atlas.backend.Takes rows .polychrome ⟨2, 2⟩ ∧
      ∃ after, atlas.getOrInsertWith rows (.image 2) (.error "no image".toList) =
        .ok (.error "no image".toList, after) := ⟨_, _, rfl, rfl, .inr (by decide), _, rfl⟩
  have unchanged := failed_unchanged_iff rows_lawful {} 8192 .rgba8Unorm [filled] ran (.image 2)
  refine ⟨atlas, built, ran, cached, ⟨after, failed, ?_⟩, ?_⟩
  · exact (unchanged (.error "no image".toList)).mpr (.inr fun _ _ none => by cases none) _ _ failed
  · refine (unchanged _).mpr (.inr fun size bytes same => ?_)
    cases same
    exact takes

/-- An image wider than the device limit fails and leaves a texture. -/
theorem failed_adds_texture : ∃ (error : Str) (after : WgpuAtlas Rows Unit Unit Nat),
    (WgpuAtlas.new {} 8192 .rgba8Unorm).getOrInsertWith rows (.image 1)
    (.ok (some (⟨9000, 1⟩, List.replicate 36000 0))) = .ok (.error error, after) ∧
    ¬ Unchanged (WgpuAtlas.new {} 8192 .rgba8Unorm) after := by
  refine ⟨_, _, rfl, fun same => ?_⟩
  cases same.textures ⟨0, .polychrome⟩

end Pinrail.Atlas

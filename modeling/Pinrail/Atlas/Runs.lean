import Pinrail.Atlas.Bookkeeping

/-!
# Runs of the atlas

The bookkeeping after any operations, from the invariant of its textures.
-/

namespace Pinrail.Atlas
open Lib Pinrail.Geometry Paint

section

variable {A G S I : Type} [DecidableEq G] [DecidableEq S] [DecidableEq I] {etagere : Allocator A}
  {Live : A → Size Int → Set Grant → Prop} {atlas : WgpuAtlas A G S I}
  {built : AtlasKey G S I → Option (Size Int × List UInt8)} {key : AtlasKey G S I} {build : Built}

/-! ## One operation -/

theorem getOrInsertWith_idle (etagere : Allocator A) (built : AtlasKey G S I → Option (Size Int × List UInt8))
    (idle : (valueOf key atlas.tilesByKey).isSome ∨ ∀ image, build ≠ .ok (some image)) :
    step etagere atlas (.getOrInsertWith key build) = .ok atlas ∧
    record atlas built (.getOrInsertWith key build) = built := by
  cases cached : valueOf key atlas.tilesByKey with
  | some tile =>
    constructor
    · simp only [step, WgpuAtlas.getOrInsertWith, cached]
      rfl
    · unfold record
      split
      · next here =>
          cases here
          rw [cached]
          rfl
      · rfl
  | none =>
    rw [cached] at idle
    have noImage := idle.resolve_left (by simp)
    rcases build with error | _ | image
    · simp only [step, WgpuAtlas.getOrInsertWith, cached]
      exact ⟨rfl, rfl⟩
    · simp only [step, WgpuAtlas.getOrInsertWith, cached]
      exact ⟨rfl, rfl⟩
    · exact absurd rfl (noImage image)

theorem getOrInsertWith_inv (lawful : etagere.Lawful Live) (inv : Inv Live atlas.backend atlas.tilesByKey built)
    (key : AtlasKey G S I) (build : Built) : ∃ after, step etagere atlas (.getOrInsertWith key build) = .ok after ∧
    Inv Live after.backend after.tilesByKey (record atlas built (.getOrInsertWith key build)) := by
  by_cases idle : (valueOf key atlas.tilesByKey).isSome ∨ ∀ image, build ≠ .ok (some image)
  · obtain ⟨still, same⟩ := getOrInsertWith_idle etagere built idle
    rw [same]
    exact ⟨atlas, still, inv⟩
  · obtain ⟨absent, image⟩ := not_or.mp idle
    have cached : valueOf key atlas.tilesByKey = none := by simpa using absent
    obtain ⟨⟨size, bytes⟩, rfl⟩ := not_forall_not.mp image
    have fresh : ∀ entry ∈ atlas.tilesByKey, entry.1 ≠ key := by
      rintro ⟨other, tile⟩ member rfl
      rw [valueOf_of_mem inv.shown.keys member] at cached
      cases cached
    have recorded : record atlas built (.getOrInsertWith key (.ok (some (size, bytes)))) =
        Function.update built key (some (size, bytes)) := by
      simp only [record, cached]
      rfl
    rw [recorded]
    obtain ⟨result, after, inserted, inv'⟩ := inv.insert key.textureKind size bytes lawful fresh
    cases result with
    | none =>
      refine ⟨{ atlas with backend := after }, ?_, inv'⟩
      simp only [step, WgpuAtlas.getOrInsertWith, cached, inserted, ok_bind]
      rfl
    | some tile =>
      refine ⟨⟨atlas.tilesByKey ++ [(key, tile)], after⟩, ?_, inv'⟩
      simp only [step, WgpuAtlas.getOrInsertWith, cached, inserted, ok_bind]
      rfl

theorem step_inv (lawful : etagere.Lawful Live) (inv : Inv Live atlas.backend atlas.tilesByKey built) (op : Op G S I) :
    ∃ after, step etagere atlas op = .ok after ∧ Inv Live after.backend after.tilesByKey (record atlas built op) := by
  cases op with
  | getOrInsertWith key build => exact getOrInsertWith_inv lawful inv key build
  | remove key =>
    cases cached : valueOf key atlas.tilesByKey with
    | none =>
      refine ⟨atlas, ?_, inv⟩
      simp only [step, WgpuAtlas.remove, cached]
      rfl
    | some tile =>
      obtain ⟨after, removed, inv'⟩ := inv.remove lawful (mem_of_valueOf cached)
      refine ⟨⟨atlas.tilesByKey.filter fun entry => entry.1 ≠ key, after⟩, ?_, inv'⟩
      simp only [step, WgpuAtlas.remove, cached, removed, ok_bind]
      rfl
  | beforeFrame => exact ⟨atlas.beforeFrame, rfl, inv.flush⟩
  | clear => exact ⟨atlas.clear, rfl, Tidy.empty, Shown.empty⟩

/-! ## Any operations -/

theorem run_inv (lawful : etagere.Lawful Live) (ops : List (Op G S I))
    (inv : Inv Live atlas.backend atlas.tilesByKey built) : ∃ after built',
    run etagere ops (atlas, built) = .ok (after, built') ∧ Inv Live after.backend after.tilesByKey built' := by
  induction ops generalizing atlas built with
  | nil => exact ⟨atlas, built, rfl, inv⟩
  | cons op ops ih =>
    obtain ⟨after, stepped, inv'⟩ := step_inv lawful inv op
    obtain ⟨last, built', ran, inv''⟩ := ih inv'
    refine ⟨last, built', ?_, inv''⟩
    rw [run, stepped, ok_bind, ran]

structure Bookkept (atlas : WgpuAtlas A G S I) : Prop where
  keys : (atlas.tilesByKey.map Prod.fst).Nodup
  liveAtlasKeys : ∀ id texture, atlas.backend.storage.get id = some texture →
    texture.liveAtlasKeys = (tilesIn id atlas.tilesByKey).length
  freeList : ∀ kind, (atlas.backend.storage.list kind).freeList.Nodup ∧
    ∀ index, index ∈ (atlas.backend.storage.list kind).freeList ↔
      (atlas.backend.storage.list kind).textures[index]? = some none
  textures : ∀ key tile, valueOf key atlas.tilesByKey = some tile →
    ∃ texture, atlas.backend.storage.get tile.textureId = some texture
  uploads : ∀ upload ∈ atlas.backend.pendingUploads, ∃ texture,
    atlas.backend.storage.get upload.id = some texture ∧ upload.queuedFor = some texture.texture

/-- The texture of every cached tile has what was built for the key in the region of the tile. The
queue takes no write with fewer bytes than the region has. -/
def Painted (atlas : WgpuAtlas A G S I) (built : AtlasKey G S I → Option (Size Int × List UInt8)) : Prop :=
  ∀ key tile, valueOf key atlas.tilesByKey = some tile → ∃ texture target bytes,
    atlas.backend.storage.get tile.textureId = some texture ∧
      atlas.backend.device.textures[texture.texture]? = some target ∧
      built key = some (tile.bounds.size, bytes) ∧
      (Full tile.bounds.size texture.format bytes → target.Holds tile.bounds (swizzleUploadData bytes texture.format))

theorem bookkept_of_inv (inv : Inv Live atlas.backend atlas.tilesByKey built) : Bookkept atlas where
  keys := inv.shown.keys
  liveAtlasKeys id texture found := (inv.tidy.kept id texture found).count
  freeList kind := ⟨(inv.tidy.slots kind).nodup, (inv.tidy.slots kind).mem_iff⟩
  textures key tile cached := by
    obtain ⟨index, target, bytes, named, -⟩ := inv.shown.shows _ (mem_of_valueOf cached)
    obtain ⟨texture, found, -⟩ := WgpuAtlasStorage.get_of_target named
    exact ⟨texture, found⟩
  uploads upload member := by
    obtain ⟨index, target, named, queued, -⟩ := inv.shown.targeted upload member
    obtain ⟨texture, found, rfl, -⟩ := WgpuAtlasStorage.get_of_target named
    exact ⟨texture, found, queued⟩

theorem painted_of_inv (inv : Inv Live atlas.backend atlas.tilesByKey built)
    (flushed : atlas.backend.pendingUploads = []) : Painted atlas built := by
  intro key tile cached
  obtain ⟨index, target, bytes, named, onDevice, recorded, holds⟩ := inv.shown.shows _ (mem_of_valueOf cached)
  obtain ⟨texture, found, rfl, format⟩ := WgpuAtlasStorage.get_of_target named
  refine ⟨texture, target, bytes, found, onDevice, recorded, ?_⟩
  rw [flushed, settled_nil, ← format] at holds
  exact holds

/-- After any operations the counts, the free lists and the queued uploads are right, and a frame
that begins there reads what was built. -/
theorem bookkeeping (lawful : etagere.Lawful Live) (device : Device) (maxTextureSize : Nat)
    (format : TextureFormat) (ops : List (Op G S I)) :
    ∃ (atlas : WgpuAtlas A G S I) (built : _), run etagere ops
        (WgpuAtlas.new device maxTextureSize format, fun _ => none) = .ok (atlas, built) ∧
      Bookkept atlas ∧ Painted atlas.beforeFrame built := by
  have start : Inv Live (WgpuAtlas.new device maxTextureSize format : WgpuAtlas A G S I).backend
      (WgpuAtlas.new device maxTextureSize format : WgpuAtlas A G S I).tilesByKey fun _ => none :=
    ⟨Tidy.empty, Shown.empty⟩
  obtain ⟨atlas, built, ran, inv⟩ := run_inv lawful ops start
  exact ⟨atlas, built, ran, bookkept_of_inv inv, painted_of_inv inv.flush rfl⟩

end

/-! ## An allocator -/

structure Rows where
  size : Size Int
  next : Int

def rows : Allocator Rows where
  new size := ⟨size, 0⟩
  allocate self wanted :=
    if (0 < wanted.width ∧ wanted.width ≤ self.size.width) ∧
        0 < wanted.height ∧ self.next + wanted.height ≤ self.size.height then
      (some ⟨0, ⟨0, self.next⟩⟩, { self with next := self.next + wanted.height })
    else (none, self)
  deallocate self _ := self

structure Rows.Live (allocator : Rows) (size : Size Int) (grants : Set Grant) : Prop where
  size : allocator.size = size
  next : 0 ≤ allocator.next
  above : ∀ grant ∈ grants, grant.bounds.origin.y + grant.bounds.size.height ≤ allocator.next

theorem rows_lawful : rows.Lawful Rows.Live where
  new size := ⟨rfl, le_rfl, fun _ => False.elim⟩
  granted := by
    intro a a' size grants wanted allocation live tried
    unfold rows at tried
    dsimp only at tried
    split_ifs at tried with room
    swap
    · cases tried
    cases tried
    obtain ⟨rfl, next, above⟩ := live
    obtain ⟨⟨width, wide⟩, height, low⟩ := room
    refine ⟨⟨width, height, le_rfl, next, by simpa using wide, low⟩, ?_, rfl, ?_, ?_⟩
    · intro grant member
      exact .inr (.inl (above grant member))
    · dsimp only
      omega
    · rintro grant (rfl | member)
      · exact le_rfl
      · have := above grant member
        dsimp only
        omega
  refused := by
    intro a a' size grants wanted live tried
    unfold rows at tried
    dsimp only at tried
    split_ifs at tried
    · cases tried
    · cases tried
      exact live
  returned live _ := ⟨live.size, live.next, fun grant member => live.above grant member.1⟩

/-- The slot of the first image is used again for the third before any frame. -/
theorem recycled_bookkeeping : ∃ (atlas : WgpuAtlas Rows Unit Unit Nat) (built : _), run rows
        [.getOrInsertWith (.image 1) (.ok (some (⟨2, 2⟩, List.replicate 16 1))),
          .getOrInsertWith (.svg ()) (.ok (some (⟨1, 1⟩, [7]))), .remove (.image 1),
          .getOrInsertWith (.image 2) (.ok none),
          .getOrInsertWith (.image 3) (.ok (some (⟨1, 1⟩, [1, 2, 3, 255]))), .beforeFrame]
        (WgpuAtlas.new {} 8192 .rgba8Unorm, fun _ => none) = .ok (atlas, built) ∧
      Bookkept atlas ∧ Painted atlas.beforeFrame built :=
  bookkeeping rows_lawful _ _ _ _

end Pinrail.Atlas

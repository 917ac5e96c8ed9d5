import Mathlib.Data.Set.Insert
import Pinrail.Atlas.Texels

/-!
# The bookkeeping of the atlas

What holds of the atlas after any operations: the counts and free lists of the textures, and what
the tiles show once the queued uploads are written.
-/

namespace Pinrail.Atlas
open Lib Pinrail.Geometry Paint

/-! ## The storage -/

namespace WgpuAtlasStorage

variable {A : Type} {self : WgpuAtlasStorage A} {kind other : AtlasTextureKind}
  {list list' : AtlasTextureList (WgpuAtlasTexture A)} {id id' : AtlasTextureId}
  {texture : WgpuAtlasTexture A} {slot : Option (WgpuAtlasTexture A)}

@[simp] theorem list_setList :
    (self.setList kind list).list other = if kind = other then list else self.list other := by
  cases kind <;> cases other <;> rfl

@[simp] theorem setList_setList : (self.setList kind list).setList kind list' = self.setList kind list' := by
  cases kind <;> rfl

theorem setList_list : self.setList kind (self.list kind) = self := by
  cases kind <;> rfl

@[simp] theorem get_empty : ({} : WgpuAtlasStorage A).get id = none := by
  cases id with
  | mk index kind => cases kind <;> rfl

theorem get_eq_some : self.get id = some texture ↔ (self.list id.kind).textures[id.index]? = some (some texture) :=
  Option.join_eq_some_iff

theorem get_setList (index : Nat) : (self.setList kind list).get ⟨index, other⟩ =
      if kind = other then list.textures[index]?.join else self.get ⟨index, other⟩ := by
  unfold get
  rw [list_setList]
  split_ifs <;> rfl

theorem get_setList_set {index : Nat} (free : List Nat) (inside : index < (self.list kind).textures.length) :
    (self.setList kind ⟨(self.list kind).textures.set index slot, free⟩).get id =
      if (⟨index, kind⟩ : AtlasTextureId) = id then slot else self.get id := by
  cases id with
  | mk index' kind' =>
    rw [get_setList]
    by_cases same : kind = kind'
    · subst same
      rw [if_pos rfl, List.getElem?_set]
      by_cases place : index = index'
      · subst place
        rw [if_pos rfl, if_pos inside, Option.join_some, if_pos rfl]
      · simp [place, get]
    · simp [same]

theorem get_setList_concat (free : List Nat) : (self.setList kind ⟨(self.list kind).textures ++ [slot], free⟩).get id =
      if (⟨(self.list kind).textures.length, kind⟩ : AtlasTextureId) = id then slot else self.get id := by
  cases id with
  | mk index' kind' =>
    rw [get_setList]
    by_cases same : kind = kind'
    · subst same
      rw [if_pos rfl]
      by_cases inside : index' < (self.list kind).textures.length
      · rw [List.getElem?_append_left inside, if_neg, get]
        intro here
        cases here
        exact lt_irrefl _ inside
      · by_cases place : index' = (self.list kind).textures.length
        · subst place
          rw [List.getElem?_concat_length, if_pos rfl, Option.join_some]
        · rw [List.getElem?_eq_none (by simp; omega), if_neg, get, List.getElem?_eq_none (by dsimp only; omega)]
          intro here
          cases here
          exact place rfl
    · simp [same]

theorem get_setSlot (inside : id.index < (self.list id.kind).textures.length) :
    (self.setSlot id slot).get id' = if id = id' then slot else self.get id' :=
  get_setList_set _ inside

theorem get_setFree (free : List Nat) :
    (self.setList kind { self.list kind with freeList := free }).get id = self.get id := by
  cases id with
  | mk index other =>
    rw [get_setList]
    split_ifs with here
    · subst here
      rfl
    · rfl

theorem lt_of_get (found : self.get id = some texture) : id.index < (self.list id.kind).textures.length :=
  (List.getElem?_eq_some_iff.mp (get_eq_some.mp found)).1

theorem get_of_target {index : Nat} {format : TextureFormat} (named : self.target id = some (index, format)) :
    ∃ texture, self.get id = some texture ∧ texture.texture = index ∧ texture.format = format := by
  obtain ⟨texture, found, same⟩ := Option.map_eq_some_iff.mp named
  obtain ⟨rfl, rfl⟩ := Prod.mk.inj same
  exact ⟨texture, found, rfl, rfl⟩

theorem target_of_get (found : self.get id = some texture) :
    self.target id = some (texture.texture, texture.format) := by
  rw [target, found, Option.map_some]

theorem target_setSlot {texture' : WgpuAtlasTexture A} (found : self.get id = some texture)
    (same : texture'.texture = texture.texture) (format : texture'.format = texture.format) :
    (self.setSlot id (some texture')).target id' = self.target id' := by
  rw [target, get_setSlot (lt_of_get found)]
  split_ifs with here
  · rw [← here, target_of_get found, Option.map_some, same, format]
  · rfl

end WgpuAtlasStorage

/-! ## Counts -/

section Tidy

variable {A K : Type} {Live : A → Size Int → Set Grant → Prop}

def tilesIn (id : AtlasTextureId) (tiles : List (K × AtlasTile)) : List (K × AtlasTile) :=
  tiles.filter fun entry => entry.2.textureId = id

def AtlasTile.grant (self : AtlasTile) : Grant := ⟨self.tileId, self.bounds⟩

def grants (id : AtlasTextureId) (tiles : List (K × AtlasTile)) : Set Grant :=
  {grant | ∃ entry ∈ tiles, entry.2.textureId = id ∧ entry.2.grant = grant}

/-- The texture at `id` agrees with the cached tiles. -/
structure Kept (Live : A → Size Int → Set Grant → Prop) (device : Device) (tiles : List (K × AtlasTile))
    (id : AtlasTextureId) (texture : WgpuAtlasTexture A) : Prop where
  named : texture.id = id
  count : texture.liveAtlasKeys = (tilesIn id tiles).length
  allocator : ∃ target size, device.textures[texture.texture]? = some target ∧
    target.format = texture.format ∧ target.Sized size ∧ Live texture.allocator size (grants id tiles)

structure Tidy (Live : A → Size Int → Set Grant → Prop) (storage : WgpuAtlasStorage A) (device : Device)
    (tiles : List (K × AtlasTile)) : Prop where
  slots : ∀ kind, Vacancies (storage.list kind).textures (storage.list kind).freeList
  kept : ∀ id texture, storage.get id = some texture → Kept Live device tiles id texture

variable {storage : WgpuAtlasStorage A} {device : Device} {tiles : List (K × AtlasTile)}
  {id id' : AtlasTextureId} {texture texture' : WgpuAtlasTexture A} {tile : AtlasTile} {key : K}

theorem Tidy.empty : Tidy Live ({} : WgpuAtlasStorage A) device ([] : List (K × AtlasTile)) where
  slots kind := by cases kind <;> exact Vacancies.nil
  kept id texture found := by simp at found

theorem Tidy.setSlot {tiles' : List (K × AtlasTile)} (tidy : Tidy Live storage device tiles)
    (found : storage.get id = some texture) (kept : Kept Live device tiles' id texture')
    (others : ∀ id', id' ≠ id → tilesIn id' tiles' = tilesIn id' tiles)
    (grants_ : ∀ id', id' ≠ id → grants id' tiles' = grants id' tiles) :
    Tidy Live (storage.setSlot id (some texture')) device tiles' where
  slots kind := by
    rw [WgpuAtlasStorage.setSlot, WgpuAtlasStorage.list_setList]
    split_ifs with same
    · subst same
      exact (tidy.slots id.kind).replace (WgpuAtlasStorage.get_eq_some.mp found)
    · exact tidy.slots kind
  kept id' other found' := by
    rw [WgpuAtlasStorage.get_setSlot (WgpuAtlasStorage.lt_of_get found)] at found'
    split_ifs at found' with same
    · cases found'
      rw [← same]
      exact kept
    · obtain ⟨eq, count, allocator⟩ := tidy.kept id' other found'
      rw [← others id' (Ne.symm same)] at count
      rw [← grants_ id' (Ne.symm same)] at allocator
      exact ⟨eq, count, allocator⟩

theorem Tidy.vacate {tiles' : List (K × AtlasTile)} (tidy : Tidy Live storage device tiles)
    (found : storage.get id = some texture)
    (others : ∀ id', id' ≠ id → tilesIn id' tiles' = tilesIn id' tiles)
    (grants_ : ∀ id', id' ≠ id → grants id' tiles' = grants id' tiles) :
    Tidy Live ((storage.setSlot id none).setList id.kind
      { (storage.setSlot id none).list id.kind with
        freeList := ((storage.setSlot id none).list id.kind).freeList ++ [id.index] }) device tiles' where
  slots kind := by
    rw [WgpuAtlasStorage.list_setList]
    split_ifs with same
    · rw [WgpuAtlasStorage.setSlot, WgpuAtlasStorage.list_setList, if_pos rfl]
      exact (tidy.slots id.kind).vacate (WgpuAtlasStorage.get_eq_some.mp found)
    · rw [WgpuAtlasStorage.setSlot, WgpuAtlasStorage.list_setList, if_neg same]
      exact tidy.slots kind
  kept id' other found' := by
    rw [WgpuAtlasStorage.get_setFree, WgpuAtlasStorage.get_setSlot (WgpuAtlasStorage.lt_of_get found)] at found'
    split_ifs at found' with here
    obtain ⟨eq, count, allocator⟩ := tidy.kept id' other found'
    rw [← others id' (Ne.symm here)] at count
    rw [← grants_ id' (Ne.symm here)] at allocator
    exact ⟨eq, count, allocator⟩

theorem Tidy.onDevice {device' : Device} (tidy : Tidy Live storage device tiles)
    (still : ∀ (index : Nat) (target : DeviceTexture), device.textures[index]? = some target →
      ∃ target' : DeviceTexture, device'.textures[index]? = some target' ∧ target'.format = target.format ∧
        target'.size = target.size) :
    Tidy Live storage device' tiles where
  slots := tidy.slots
  kept id texture found := by
    obtain ⟨eq, count, target, size, onDevice, format, sized, live⟩ := tidy.kept id texture found
    obtain ⟨target', onDevice', format', size'⟩ := still _ _ onDevice
    exact ⟨eq, count, target', size, onDevice', format'.trans format, sized.of_size size', live⟩

theorem Tidy.create {size : Size Int} {target : DeviceTexture} {textures : List (Option (WgpuAtlasTexture A))}
    {free : List Nat} {index : Nat} {kind : AtlasTextureKind} (tidy : Tidy Live storage device tiles)
    (slots : Vacancies textures free)
    (read : ∀ id', (storage.setList kind ⟨textures, free⟩).get id' =
      if (⟨index, kind⟩ : AtlasTextureId) = id' then some texture else storage.get id')
    (empty : ∀ entry ∈ tiles, entry.2.textureId ≠ ⟨index, kind⟩) (named : texture.id = ⟨index, kind⟩)
    (count : texture.liveAtlasKeys = 0) (place : texture.texture = device.textures.length)
    (format : target.format = texture.format) (sized : target.Sized size)
    (live : Live texture.allocator size ∅) :
    Tidy Live (storage.setList kind ⟨textures, free⟩) ⟨device.textures ++ [target]⟩ tiles where
  slots kind := by
    rw [WgpuAtlasStorage.list_setList]
    split_ifs
    · exact slots
    · exact tidy.slots kind
  kept id' other found := by
    rw [read] at found
    split_ifs at found with here
    · cases found
      subst here
      have none_ : tilesIn ⟨index, kind⟩ tiles = [] :=
        List.filter_eq_nil_iff.mpr fun entry member => by simpa using empty entry member
      have vacant : grants ⟨index, kind⟩ tiles = ∅ := by
        ext grant
        constructor
        · rintro ⟨entry, member, here, -⟩
          exact absurd here (empty entry member)
        · exact False.elim
      refine ⟨named, by rw [count, none_, List.length_nil], target, size, ?_, format, sized, ?_⟩
      · rw [place]
        exact List.getElem?_concat_length
      · rw [vacant]
        exact live
    · obtain ⟨eq, count', target', size', onDevice, format', sized', live'⟩ := tidy.kept id' other found
      refine ⟨eq, count', target', size', ?_, format', sized', live'⟩
      rw [List.getElem?_append_left (List.getElem?_eq_some_iff.mp onDevice).1, onDevice]

end Tidy

/-! ## What the tiles show -/

section Shown

variable {A K : Type}

def Shows (storage : WgpuAtlasStorage A) (device : Device) (uploads : List PendingUpload)
    (built : K → Option (Size Int × List UInt8)) (entry : K × AtlasTile) : Prop :=
  ∃ index target bytes, storage.target entry.2.textureId = some (index, target.format) ∧
    device.textures[index]? = some target ∧ built entry.1 = some (entry.2.bounds.size, bytes) ∧
      (Full entry.2.bounds.size target.format bytes →
        (settled uploads index target).Holds entry.2.bounds (swizzleUploadData bytes target.format))

structure Shown (storage : WgpuAtlasStorage A) (device : Device) (uploads : List PendingUpload)
    (tiles : List (K × AtlasTile)) (built : K → Option (Size Int × List UInt8)) : Prop where
  keys : (tiles.map Prod.fst).Nodup
  unshared : ∀ {id id' index format format'}, storage.target id = some (index, format) →
    storage.target id' = some (index, format') → id = id'
  targeted : Targeted storage device uploads
  placed : ∀ entry ∈ tiles, ∃ size, Fits entry.2.bounds size
  apart : ∀ first ∈ tiles, ∀ second ∈ tiles, first.1 ≠ second.1 →
    first.2.textureId = second.2.textureId → Apart first.2.bounds second.2.bounds
  shows : ∀ entry ∈ tiles, Shows storage device uploads built entry

variable {storage storage' : WgpuAtlasStorage A} {device : Device} {uploads : List PendingUpload}
  {tiles : List (K × AtlasTile)} {built : K → Option (Size Int × List UInt8)} {id : AtlasTextureId}

theorem Shown.empty : Shown ({} : WgpuAtlasStorage A) device [] [] built where
  keys := List.nodup_nil
  unshared := by simp [WgpuAtlasStorage.target]
  targeted := by simp [Targeted]
  placed := by simp
  apart := by simp
  shows := by simp

theorem Shown.congr (shown : Shown storage device uploads tiles built)
    (same : ∀ id, storage'.target id = storage.target id) : Shown storage' device uploads tiles built where
  keys := shown.keys
  unshared := by
    intro id id' index format format' first second
    rw [same] at first second
    exact shown.unshared first second
  targeted := by
    intro upload member
    obtain ⟨index, target, named, rest⟩ := shown.targeted upload member
    exact ⟨index, target, (same _).trans named, rest⟩
  placed := shown.placed
  apart := shown.apart
  shows := by
    intro entry member
    obtain ⟨index, target, bytes, named, rest⟩ := shown.shows entry member
    exact ⟨index, target, bytes, (same _).trans named, rest⟩

theorem Shown.record {built' : K → Option (Size Int × List UInt8)}
    (shown : Shown storage device uploads tiles built) (same : ∀ entry ∈ tiles, built' entry.1 = built entry.1) :
    Shown storage device uploads tiles built' where
  keys := shown.keys
  unshared := shown.unshared
  targeted := shown.targeted
  placed := shown.placed
  apart := shown.apart
  shows := by
    intro entry member
    obtain ⟨index, target, bytes, named, onDevice, built, rest⟩ := shown.shows entry member
    exact ⟨index, target, bytes, named, onDevice, (same entry member).trans built, rest⟩

theorem Shown.filter (shown : Shown storage device uploads tiles built) (keep : K × AtlasTile → Bool) :
    Shown storage device uploads (tiles.filter keep) built where
  keys := shown.keys.sublist (List.filter_sublist.map Prod.fst)
  unshared := shown.unshared
  targeted := shown.targeted
  placed entry member := shown.placed entry (List.mem_of_mem_filter member)
  apart first member second member' :=
    shown.apart first (List.mem_of_mem_filter member) second (List.mem_of_mem_filter member')
  shows entry member := shown.shows entry (List.mem_of_mem_filter member)

theorem Shown.create {target : DeviceTexture} (shown : Shown storage device uploads tiles built)
    (vacant : storage.target id = none)
    (read : ∀ id', storage'.target id' =
      if id = id' then some (device.textures.length, target.format) else storage.target id')
    (inside : ∀ {id index format}, storage.target id = some (index, format) → index < device.textures.length) :
    Shown storage' ⟨device.textures ++ [target]⟩ uploads tiles built where
  keys := shown.keys
  unshared := by
    intro first second index format format' named named'
    rw [read] at named named'
    split_ifs at named named' with here here' here'
    · rw [← here, here']
    · cases named
      exact absurd (inside named') (lt_irrefl _)
    · cases named'
      exact absurd (inside named) (lt_irrefl _)
    · exact shown.unshared named named'
  targeted := by
    intro upload member
    obtain ⟨index, target', named, queued, onDevice⟩ := shown.targeted upload member
    refine ⟨index, target', ?_, queued, ?_⟩
    · rw [read, if_neg, named]
      rintro rfl
      rw [vacant] at named
      cases named
    · rw [List.getElem?_append_left (inside named), onDevice]
  placed := shown.placed
  apart := shown.apart
  shows := by
    intro entry member
    obtain ⟨index, target', bytes, named, onDevice, rest⟩ := shown.shows entry member
    refine ⟨index, target', bytes, ?_, ?_, rest⟩
    · rw [read, if_neg, named]
      intro here
      rw [← here, vacant] at named
      cases named
    · rw [List.getElem?_append_left (inside named), onDevice]

theorem Shown.vacate (shown : Shown storage device uploads tiles built)
    (read : ∀ id', storage'.target id' = if id = id' then none else storage.target id')
    (unused : ∀ entry ∈ tiles, entry.2.textureId ≠ id) :
    Shown storage' device (uploads.filter fun upload => upload.id ≠ id) tiles built where
  keys := shown.keys
  unshared := by
    intro first second index format format' named named'
    rw [read] at named named'
    split_ifs at named named'
    exact shown.unshared named named'
  targeted := by
    intro upload member
    obtain ⟨member, other⟩ := List.mem_filter.mp member
    obtain ⟨index, target, named, rest⟩ := shown.targeted upload member
    refine ⟨index, target, ?_, rest⟩
    rw [read, if_neg fun here => by simp [here] at other, named]
  placed := shown.placed
  apart := shown.apart
  shows := by
    intro entry member
    obtain ⟨index, target, bytes, named, onDevice, sized, holds⟩ := shown.shows entry member
    refine ⟨index, target, bytes, ?_, onDevice, sized, ?_⟩
    · rw [read, if_neg (unused entry member).symm, named]
    · rw [settled_filter]
      · exact holds
      · intro upload member' dropped queued
        obtain ⟨index', target', named', queued', -⟩ := shown.targeted upload member'
        have here : upload.id = id := by simpa using dropped
        rw [queued'] at queued
        cases queued
        exact unused entry member ((shown.unshared named named').trans here)

theorem Shown.insert [DecidableEq K] {tile : AtlasTile} {key : K} {bytes : List UInt8} {index : Nat}
    {target : DeviceTexture} {size : Size Int} (shown : Shown storage device uploads tiles built)
    (named : storage.target tile.textureId = some (index, target.format))
    (onDevice : device.textures[index]? = some target) (sized : target.Sized size)
    (fits : Fits tile.bounds size) (fresh : ∀ entry ∈ tiles, entry.1 ≠ key)
    (apart : ∀ entry ∈ tiles, entry.2.textureId = tile.textureId → Apart entry.2.bounds tile.bounds) :
    Shown storage device (uploads ++ [⟨tile.textureId, tile.bounds, swizzleUploadData bytes target.format, some index⟩])
      (tiles ++ [(key, tile)]) (Function.update built key (some (tile.bounds.size, bytes))) where
  keys := by
    rw [List.map_append, List.nodup_append]
    refine ⟨shown.keys, List.nodup_singleton key, ?_⟩
    intro other member last atLast
    obtain ⟨entry, inside, rfl⟩ := List.mem_map.mp member
    rw [List.mem_singleton.mp atLast]
    exact fresh entry inside
  unshared := shown.unshared
  targeted := by
    intro upload member
    rcases List.mem_append.mp member with member | member
    · exact shown.targeted upload member
    · cases List.mem_singleton.mp member
      exact ⟨index, target, named, rfl, onDevice⟩
  placed := by
    intro entry member
    rcases List.mem_append.mp member with member | member
    · exact shown.placed entry member
    · cases List.mem_singleton.mp member
      exact ⟨size, fits⟩
  apart := by
    intro first member second member' other same
    rcases List.mem_append.mp member with member | member
    · rcases List.mem_append.mp member' with member' | member'
      · exact shown.apart first member second member' other same
      · cases List.mem_singleton.mp member'
        exact apart first member same
    · cases List.mem_singleton.mp member
      rcases List.mem_append.mp member' with member' | member'
      · exact (apart second member' same.symm).symm
      · cases List.mem_singleton.mp member'
        exact absurd rfl other
  shows := by
    have shape := @settled_shape target uploads index
    intro entry member
    rcases List.mem_append.mp member with member | member
    · obtain ⟨index', target', bytes', named', onDevice', built', holds⟩ := shown.shows entry member
      refine ⟨index', target', bytes', named', onDevice', ?_, fun full => ?_⟩
      · rw [Function.update_of_ne (fresh entry member), built']
      · rw [settled_concat]
        split_ifs with here
        · cases here
          rw [onDevice] at onDevice'
          cases onDevice'
          have same : entry.2.textureId = tile.textureId := shown.unshared named' named
          obtain ⟨size', inside⟩ := shown.placed entry member
          exact (holds full).of_apart inside fits (sized.of_size shape.2) (apart entry member same) _
        · exact holds full
    · cases List.mem_singleton.mp member
      refine ⟨index, target, bytes, named, onDevice, Function.update_self .., fun full => ?_⟩
      rw [settled_concat, if_pos rfl]
      refine holds_write fits (sized.of_size shape.2) ?_
      rw [shape.1]
      exact full.swizzle

theorem Shown.flush (shown : Shown storage device uploads tiles built) :
    Shown storage (uploads.foldl (WgpuAtlasTextures.flushUpload storage) device) [] tiles built where
  keys := shown.keys
  unshared := shown.unshared
  targeted := by simp [Targeted]
  placed := shown.placed
  apart := shown.apart
  shows := by
    intro entry member
    obtain ⟨index, target, bytes, named, onDevice, sized, holds⟩ := shown.shows entry member
    have format : (settled uploads index target).format = target.format := settled_shape.1
    refine ⟨index, settled uploads index target, bytes, ?_, ?_, sized, ?_⟩
    · rw [format, named]
    · rw [textures_flush shown.targeted, onDevice, Option.map_some]
    · rw [format, settled_nil]
      exact holds

end Shown

/-! ## Operations -/

section Operations

variable {A K : Type} [DecidableEq K] {Live : A → Size Int → Set Grant → Prop} {etagere : Allocator A}

structure Inv (Live : A → Size Int → Set Grant → Prop) (textures : WgpuAtlasTextures A)
    (tiles : List (K × AtlasTile)) (built : K → Option (Size Int × List UInt8)) : Prop where
  tidy : Tidy Live textures.storage textures.device tiles
  shown : Shown textures.storage textures.device textures.pendingUploads tiles built

variable {self : WgpuAtlasTextures A} {tiles : List (K × AtlasTile)}
  {built : K → Option (Size Int × List UInt8)} {id : AtlasTextureId} {kind : AtlasTextureKind}
  {texture texture' : WgpuAtlasTexture A} {tile : AtlasTile} {key : K} {size : Size Int} {bytes : List UInt8}

theorem allocate_none (tried : texture.allocate etagere size = (none, texture')) : ∃ allocator,
    etagere.allocate texture.allocator size = (none, allocator) ∧
    texture' = { texture with allocator := allocator } := by
  unfold WgpuAtlasTexture.allocate at tried
  split at tried
  · next allocator refused =>
      obtain ⟨-, rfl⟩ := Prod.mk.inj tried
      exact ⟨allocator, refused, rfl⟩
  · cases tried

theorem allocate_some (tried : texture.allocate etagere size = (some tile, texture')) : ∃ allocation allocator,
    etagere.allocate texture.allocator size = (some allocation, allocator) ∧ tile.textureId = texture.id ∧
    tile.grant = ⟨allocation.id, ⟨allocation.min, size⟩⟩ ∧
    texture' = { texture with allocator := allocator, liveAtlasKeys := texture.liveAtlasKeys + 1 } := by
  unfold WgpuAtlasTexture.allocate at tried
  split at tried
  · cases tried
  · next allocation allocator granted =>
      cases tried
      exact ⟨allocation, allocator, granted, rfl, rfl, rfl⟩

omit [DecidableEq K] in
theorem Inv.refused (lawful : etagere.Lawful Live) (inv : Inv Live self tiles built)
    (found : self.storage.get id = some texture) (tried : texture.allocate etagere size = (none, texture')) :
    Inv Live { self with storage := self.storage.setSlot id (some texture') } tiles built := by
  obtain ⟨allocator, refused, rfl⟩ := allocate_none tried
  obtain ⟨named, count, target, place, onDevice, format, sized, live⟩ := inv.tidy.kept id texture found
  constructor
  · apply inv.tidy.setSlot found
    · exact ⟨named, count, target, place, onDevice, format, sized, lawful.refused live refused⟩
    · exact fun _ _ => rfl
    · exact fun _ _ => rfl
  · exact inv.shown.congr fun id' => WgpuAtlasStorage.target_setSlot found rfl rfl

omit [DecidableEq K] in
theorem tilesIn_concat : tilesIn id (tiles ++ [(key, tile)]) =
    if tile.textureId = id then tilesIn id tiles ++ [(key, tile)] else tilesIn id tiles := by
  unfold tilesIn
  rw [List.filter_append]
  by_cases here : tile.textureId = id <;> simp [here]

omit [DecidableEq K] in
theorem grants_concat : grants id (tiles ++ [(key, tile)]) =
    if tile.textureId = id then insert tile.grant (grants id tiles) else grants id tiles := by
  ext grant
  simp only [grants, List.mem_append, List.mem_singleton, or_and_right, exists_or, exists_eq_left]
  split_ifs with here
  · simp [here, or_comm, eq_comm]
  · simp [here]

theorem Inv.granted (bytes : List UInt8) (lawful : etagere.Lawful Live) (inv : Inv Live self tiles built)
    (found : self.storage.get id = some texture)
    (tried : texture.allocate etagere size = (some tile, texture'))
    (fresh : ∀ entry ∈ tiles, entry.1 ≠ key) :
    Inv Live ({ self with storage := self.storage.setSlot id (some texture') }.uploadTexture tile.textureId
        tile.bounds bytes)
      (tiles ++ [(key, tile)]) (Function.update built key (some (size, bytes))) := by
  obtain ⟨allocation, allocator, granted, here, grant, rfl⟩ := allocate_some tried
  obtain ⟨named, count, target, place, onDevice, format, sized, live⟩ := inv.tidy.kept id texture found
  obtain ⟨fits, apart, live'⟩ := lawful.granted live granted
  have bounds : tile.bounds = ⟨allocation.min, size⟩ := congrArg Grant.bounds grant
  have sizeEq : tile.bounds.size = size := by rw [bounds]
  subst named
  have read : (self.storage.setSlot texture.id
      (some { texture with allocator := allocator, liveAtlasKeys := texture.liveAtlasKeys + 1 })).get texture.id =
      some { texture with allocator := allocator, liveAtlasKeys := texture.liveAtlasKeys + 1 } := by
    rw [WgpuAtlasStorage.get_setSlot (WgpuAtlasStorage.lt_of_get found), if_pos rfl]
  constructor
  · apply inv.tidy.setSlot found
    · refine ⟨rfl, ?_, target, place, onDevice, format, sized, ?_⟩
      · rw [tilesIn_concat, if_pos here, List.length_append, List.length_singleton, count]
      · rw [grants_concat, if_pos here, grant]
        exact live'
    · intro id' other
      rw [tilesIn_concat, if_neg (here ▸ other.symm)]
    · intro id' other
      rw [grants_concat, if_neg (here ▸ other.symm)]
  · have shown : Shown (self.storage.setSlot texture.id
        (some { texture with allocator := allocator, liveAtlasKeys := texture.liveAtlasKeys + 1 }))
        self.device self.pendingUploads tiles built :=
      inv.shown.congr fun id' => WgpuAtlasStorage.target_setSlot found rfl rfl
    rw [← bounds] at fits apart
    have added : Shown _ _ _ (tiles ++ [(key, tile)]) (Function.update built key (some (tile.bounds.size, bytes))) :=
      shown.insert (by rw [here, format, WgpuAtlasStorage.target_of_get read]) onDevice sized fits fresh
        fun entry member same => apart entry.2.grant ⟨entry, member, same.trans here, rfl⟩
    simp only [WgpuAtlasTextures.uploadTexture]
    rw [here, read]
    rw [here, format, sizeEq] at added
    exact added

theorem atlasSize_sized (maxTextureSize : Nat) (minSize : Size Int) (format : TextureFormat)
    (texel : Nat → Nat → Nat → UInt8) :
    DeviceTexture.Sized ⟨⟨asU32 (WgpuAtlasTextures.atlasSize maxTextureSize minSize).width,
      asU32 (WgpuAtlasTextures.atlasSize maxTextureSize minSize).height⟩, format, texel⟩
        (WgpuAtlasTextures.atlasSize maxTextureSize minSize) := by
  have small : asI32 maxTextureSize < 2 ^ 31 := by
    have := Int.bmod_lt (x := maxTextureSize) (m := 2 ^ 32) (by decide)
    unfold asI32
    omega
  have width : asU32 (WgpuAtlasTextures.atlasSize maxTextureSize minSize).width =
      (WgpuAtlasTextures.atlasSize maxTextureSize minSize).width.toNat :=
    asU32_of_nonneg (by simp only [WgpuAtlasTextures.atlasSize]; omega)
      (by simp only [WgpuAtlasTextures.atlasSize]; omega)
  have height : asU32 (WgpuAtlasTextures.atlasSize maxTextureSize minSize).height =
      (WgpuAtlasTextures.atlasSize maxTextureSize minSize).height.toNat :=
    asU32_of_nonneg (by simp only [WgpuAtlasTextures.atlasSize]; omega)
      (by simp only [WgpuAtlasTextures.atlasSize]; omega)
  rw [width, height]
  constructor
  all_goals
    simp only [WgpuAtlasTextures.atlasSize]
    omega

theorem WgpuAtlasStorage.target_eq {storage storage' : WgpuAtlasStorage A} {added : WgpuAtlasTexture A}
    (read : ∀ id', storage'.get id' = if id = id' then some added else storage.get id') (id' : AtlasTextureId) :
    storage'.target id' = if id = id' then some (added.texture, added.format) else storage.target id' := by
  unfold target
  rw [read]
  split_ifs <;> rfl

/-- The texture that `push_texture` makes for a slot. -/
def newTexture (etagere : Allocator A) (index : Nat) (minSize : Size Int) (kind : AtlasTextureKind)
    (self : WgpuAtlasTextures A) : WgpuAtlasTexture A where
  id := ⟨index, kind⟩
  generation := self.nextTextureGeneration
  allocator := etagere.new (WgpuAtlasTextures.atlasSize self.maxTextureSize minSize)
  texture := self.device.textures.length
  format := self.textureFormat kind
  liveAtlasKeys := 0

/-- The textures after `push_texture`, with the slots and the free list it leaves. -/
def addTexture (minSize : Size Int) (kind : AtlasTextureKind) (textures : List (Option (WgpuAtlasTexture A)))
    (free : List Nat) (self : WgpuAtlasTextures A) : WgpuAtlasTextures A :=
  { self with
    device := (self.device.createTexture ⟨asU32 (WgpuAtlasTextures.atlasSize self.maxTextureSize minSize).width,
        asU32 (WgpuAtlasTextures.atlasSize self.maxTextureSize minSize).height⟩ (self.textureFormat kind)).2
    storage := self.storage.setList kind ⟨textures, free⟩
    nextTextureGeneration := (self.nextTextureGeneration + 1) % 2 ^ 64 }

omit [DecidableEq K] in
theorem Inv.addTexture {textures : List (Option (WgpuAtlasTexture A))} {free : List Nat} {index : Nat}
    (lawful : etagere.Lawful Live) (inv : Inv Live self tiles built) (slots : Vacancies textures free)
    (vacant : self.storage.get ⟨index, kind⟩ = none)
    (read : ∀ id', (self.storage.setList kind ⟨textures, free⟩).get id' =
      if (⟨index, kind⟩ : AtlasTextureId) = id' then some (newTexture etagere index size kind self)
      else self.storage.get id') :
    Inv Live (Atlas.addTexture size kind textures free self) tiles built := by
  have absent : self.storage.target ⟨index, kind⟩ = none := by
    rw [WgpuAtlasStorage.target, vacant, Option.map_none]
  constructor
  · apply inv.tidy.create slots read
    · intro entry member here
      obtain ⟨index, target, bytes, present, -⟩ := inv.shown.shows entry member
      rw [here, absent] at present
      cases present
    · rfl
    · rfl
    · rfl
    · rfl
    · exact atlasSize_sized _ _ _ _
    · exact lawful.new _
  · refine inv.shown.create absent (WgpuAtlasStorage.target_eq read) ?_
    intro id' index format named
    obtain ⟨texture, found, rfl, -⟩ := WgpuAtlasStorage.get_of_target named
    obtain ⟨-, -, target, place, onDevice, -⟩ := inv.tidy.kept id' texture found
    exact (List.getElem?_eq_some_iff.mp onDevice).1

theorem pushTexture_eq (etagere : Allocator A) (size : Size Int) (kind : AtlasTextureKind)
    (slots : Vacancies (self.storage.list kind).textures (self.storage.list kind).freeList) :
    ∃ index textures free, self.pushTexture etagere size kind = .ok (index, addTexture size kind textures free self) ∧
      Vacancies textures free ∧ self.storage.get ⟨index, kind⟩ = none ∧
      ∀ id', (self.storage.setList kind ⟨textures, free⟩).get id' =
        if (⟨index, kind⟩ : AtlasTextureId) = id' then some (newTexture etagere index size kind self)
        else self.storage.get id' := by
  cases last : (self.storage.list kind).freeList.getLast? with
  | none =>
    have noFree : (self.storage.list kind).freeList = [] := List.getLast?_eq_none_iff.mp last
    rw [noFree] at slots
    refine ⟨(self.storage.list kind).textures.length, (self.storage.list kind).textures ++
        [some (newTexture etagere (self.storage.list kind).textures.length size kind self)], [],
      ?_, slots.push, ?_, fun id' => WgpuAtlasStorage.get_setList_concat []⟩
    · simp only [WgpuAtlasTextures.pushTexture, noFree]
      rfl
    · rw [WgpuAtlasStorage.get, List.getElem?_eq_none le_rfl, Option.join_none]
  | some index =>
    have split : (self.storage.list kind).freeList = (self.storage.list kind).freeList.dropLast ++ [index] :=
      (List.dropLast_append_getLast? index last).symm
    rw [split] at slots
    have empty : (self.storage.list kind).textures[index]? = some none := (slots.mem_iff index).mp (by simp)
    have inside : index < (self.storage.list kind).textures.length := (List.getElem?_eq_some_iff.mp empty).1
    refine ⟨index, (self.storage.list kind).textures.set index
        (some (newTexture etagere index size kind self)), (self.storage.list kind).freeList.dropLast,
      ?_, slots.fill, ?_, fun id' => WgpuAtlasStorage.get_setList_set _ inside⟩
    · simp only [WgpuAtlasTextures.pushTexture, last, index_of_getElem? empty]
      rfl
    · rw [WgpuAtlasStorage.get, empty, Option.join_some]

omit [DecidableEq K] in
theorem Inv.pushTexture (size : Size Int) (kind : AtlasTextureKind) (lawful : etagere.Lawful Live)
    (inv : Inv Live self tiles built) : ∃ index after texture, self.pushTexture etagere size kind = .ok (index, after) ∧
    after.storage.get ⟨index, kind⟩ = some texture ∧ Inv Live after tiles built := by
  obtain ⟨index, textures, free, pushed, slots, vacant, read⟩ := pushTexture_eq etagere size kind (inv.tidy.slots kind)
  refine ⟨index, _, newTexture etagere index size kind self, pushed, ?_, inv.addTexture lawful slots vacant read⟩
  rw [Atlas.addTexture, read, if_pos rfl]

def withSlots (kind : AtlasTextureKind) (self : WgpuAtlasTextures A)
    (textures : List (Option (WgpuAtlasTexture A))) : WgpuAtlasTextures A :=
  { self with storage := self.storage.setList kind ⟨textures, (self.storage.list kind).freeList⟩ }

theorem withSlots_self : withSlots kind self (self.storage.list kind).textures = self := by
  change { self with storage := self.storage.setList kind (self.storage.list kind) } = self
  rw [WgpuAtlasStorage.setList_list]

theorem get_withSlots {textures : List (Option (WgpuAtlasTexture A))} {i : Nat}
    (occupied : textures[i]? = some (some texture)) :
    (withSlots kind self textures).storage.get ⟨i, kind⟩ = some texture := by
  rw [withSlots, WgpuAtlasStorage.get_setList, if_pos rfl, occupied, Option.join_some]

theorem setSlot_withSlots (textures : List (Option (WgpuAtlasTexture A))) (i : Nat) :
    { withSlots kind self textures with
      storage := (withSlots kind self textures).storage.setSlot ⟨i, kind⟩ (some texture) } =
      withSlots kind self (textures.set i (some texture)) := by
  simp [withSlots, WgpuAtlasStorage.setSlot]

omit [DecidableEq K] in
theorem Inv.scan (size : Size Int) (kind : AtlasTextureKind) (lawful : etagere.Lawful Live)
    (inv : Inv Live self tiles built) :
    (∃ textures, findMapRev (WgpuAtlasTexture.allocate etagere size) (self.storage.list kind).textures
        (self.storage.list kind).textures.length = (none, textures) ∧
      Inv Live (withSlots kind self textures) tiles built) ∨
    ∃ tile before i texture texture', findMapRev (WgpuAtlasTexture.allocate etagere size)
        (self.storage.list kind).textures (self.storage.list kind).textures.length =
          (some tile, before.set i (some texture')) ∧
      Inv Live (withSlots kind self before) tiles built ∧ before[i]? = some (some texture) ∧
        texture.allocate etagere size = (some tile, texture') := by
  apply findMapRev_rule (P := fun textures => Inv Live (withSlots kind self textures) tiles built)
  · intro textures i texture texture' here occupied tried
    have refused := here.refused lawful (get_withSlots occupied) tried
    rwa [setSlot_withSlots] at refused
  · rwa [withSlots_self]

theorem Inv.insert (kind : AtlasTextureKind) (size : Size Int) (bytes : List UInt8)
    (lawful : etagere.Lawful Live) (inv : Inv Live self tiles built)
    (fresh : ∀ entry ∈ tiles, entry.1 ≠ key) :
    ∃ result after, self.insert etagere kind size bytes = .ok (result, after) ∧
      match result with
      | none => Inv Live after tiles (Function.update built key (some (size, bytes)))
      | some tile => Inv Live after (tiles ++ [(key, tile)]) (Function.update built key (some (size, bytes))) := by
  simp only [WgpuAtlasTextures.insert, WgpuAtlasTextures.allocate]
  rcases inv.scan size kind lawful with
    ⟨textures, scan, here⟩ | ⟨tile, before, i, texture, texture', scan, here, occupied, tried⟩
  · obtain ⟨index, after, texture, pushed, read, inv'⟩ := here.pushTexture size kind lawful
    simp only [withSlots] at pushed
    cases tried : texture.allocate etagere size with
    | mk result texture' =>
      cases result with
      | none =>
        have refused := inv'.refused lawful read tried
        refine ⟨none, _, ?_, refused.tidy, refused.shown.record fun entry member =>
          Function.update_of_ne (fresh entry member) _ _⟩
        simp only [scan, pushed, read, tried, unwrap_some, ok_bind]
        rfl
      | some tile =>
        refine ⟨some tile, _, ?_, inv'.granted bytes lawful read tried fresh⟩
        simp only [scan, pushed, read, tried, unwrap_some, ok_bind]
        rfl
  · have granted := here.granted bytes lawful (get_withSlots occupied) tried fresh
    rw [setSlot_withSlots] at granted
    refine ⟨some tile, _, ?_, granted⟩
    simp only [scan]
    rfl

theorem tilesIn_filter (nodup : (tiles.map Prod.fst).Nodup) (member : (key, tile) ∈ tiles)
    (other : tile.textureId ≠ id) : tilesIn id (tiles.filter fun entry => entry.1 ≠ key) = tilesIn id tiles := by
  unfold tilesIn
  rw [List.filter_filter]
  apply List.filter_congr
  intro entry inside
  by_cases here : entry.2.textureId = id
  · have kept : entry.1 ≠ key := by
      intro eq
      rcases List.mem_cons.mp ((perm_cons_filter nodup member).mem_iff.mp inside) with rfl | inside
      · exact other here
      · exact absurd eq (by simpa using (List.mem_filter.mp inside).2)
    simp [kept]
  · simp [here]

theorem length_tilesIn_filter (nodup : (tiles.map Prod.fst).Nodup) (member : (key, tile) ∈ tiles) :
    (tilesIn tile.textureId tiles).length =
      (tilesIn tile.textureId (tiles.filter fun entry => entry.1 ≠ key)).length + 1 := by
  have perm := (perm_cons_filter nodup member).filter fun entry => entry.2.textureId = tile.textureId
  rw [List.filter_cons_of_pos (by simp)] at perm
  exact perm.length_eq

omit [DecidableEq K] in
theorem grants_eq_of_tilesIn {tiles' : List (K × AtlasTile)} (same : tilesIn id tiles' = tilesIn id tiles) :
    grants id tiles' = grants id tiles := by
  have read (entries : List (K × AtlasTile)) :
      grants id entries = {grant | ∃ entry ∈ tilesIn id entries, entry.2.grant = grant} := by
    ext grant
    simp [grants, tilesIn, and_assoc]
  rw [read, read, same]

theorem grants_filter (shown : Shown self.storage self.device self.pendingUploads tiles built)
    (member : (key, tile) ∈ tiles) :
    grants tile.textureId (tiles.filter fun entry => entry.1 ≠ key) = grants tile.textureId tiles \ {tile.grant} := by
  ext grant
  constructor
  · rintro ⟨entry, inside, here, rfl⟩
    obtain ⟨inside, other⟩ := List.mem_filter.mp inside
    refine ⟨⟨entry, inside, here, rfl⟩, ?_⟩
    intro same
    have apart := shown.apart entry inside (key, tile) member (by simpa using other) here
    obtain ⟨size, fits⟩ := shown.placed _ member
    have := fits.width
    have := fits.height
    rw [show entry.2.bounds = tile.bounds from congrArg Grant.bounds same] at apart
    unfold Apart at apart
    dsimp only at *
    omega
  · rintro ⟨⟨entry, inside, here, rfl⟩, other⟩
    refine ⟨entry, List.mem_filter.mpr ⟨inside, ?_⟩, here, rfl⟩
    rw [decide_eq_true_iff]
    intro eq
    rcases List.mem_cons.mp ((perm_cons_filter shown.keys member).mem_iff.mp inside) with rfl | inside
    · exact other rfl
    · exact absurd eq (by simpa using (List.mem_filter.mp inside).2)

theorem Inv.remove (lawful : etagere.Lawful Live) (inv : Inv Live self tiles built) (member : (key, tile) ∈ tiles) :
    ∃ after, self.remove etagere tile = .ok after ∧ Inv Live after (tiles.filter fun entry => entry.1 ≠ key) built := by
  obtain ⟨index, target, bytes, named, -⟩ := inv.shown.shows _ member
  obtain ⟨texture, found, -⟩ := WgpuAtlasStorage.get_of_target named
  obtain ⟨same, count, target, size, onDevice, format, sized, live⟩ := inv.tidy.kept _ texture found
  have slot := WgpuAtlasStorage.get_eq_some.mp found
  have nodup := inv.shown.keys
  have fewer := length_tilesIn_filter nodup member
  have others (id' : AtlasTextureId) (other : id' ≠ tile.textureId) := tilesIn_filter nodup member other.symm
  have held (id' : AtlasTextureId) (other : id' ≠ tile.textureId) := grants_eq_of_tilesIn (others id' other)
  have counted : checkedSub texture.liveAtlasKeys 1 =
      .ok (tilesIn tile.textureId (tiles.filter fun entry => entry.1 ≠ key)).length := by
    rw [count, fewer, checkedSub, if_pos (by omega), Nat.add_sub_cancel]
  dsimp only at slot same found
  simp only [WgpuAtlasTextures.remove, slot, WgpuAtlasTexture.decrementRefCount, counted, ok_bind, pure_bind,
    WgpuAtlasTexture.isUnreferenced, same, decide_eq_true_eq]
  by_cases last : (tilesIn tile.textureId (tiles.filter fun entry => entry.1 ≠ key)).length = 0
  · rw [if_pos last]
    refine ⟨_, rfl, inv.tidy.vacate found others held, ?_⟩
    apply (inv.shown.filter fun entry => entry.1 ≠ key).vacate
    · intro id'
      rw [WgpuAtlasStorage.target, WgpuAtlasStorage.get_setFree,
        WgpuAtlasStorage.get_setSlot (WgpuAtlasStorage.lt_of_get found)]
      split_ifs <;> rfl
    · intro entry inside here
      exact List.ne_nil_of_mem (List.mem_filter.mpr ⟨inside, by simpa using here⟩) (List.length_eq_zero_iff.mp last)
  · rw [if_neg last]
    refine ⟨_, rfl, inv.tidy.setSlot found ?_ others held, ?_⟩
    · refine ⟨rfl, rfl, target, size, onDevice, format, sized, ?_⟩
      rw [grants_filter inv.shown member]
      exact lawful.returned live ⟨_, member, rfl, rfl⟩
    · exact (inv.shown.filter _).congr fun id' => WgpuAtlasStorage.target_setSlot found rfl rfl

omit [DecidableEq K] in
theorem Inv.flush (inv : Inv Live self tiles built) : Inv Live self.flushUploads tiles built where
  tidy := by
    apply inv.tidy.onDevice
    intro index target onDevice
    refine ⟨settled self.pendingUploads index target, ?_, settled_shape⟩
    rw [WgpuAtlasTextures.flushUploads, textures_flush inv.shown.targeted, onDevice, Option.map_some]
  shown := inv.shown.flush

end Operations

end Pinrail.Atlas

import Slsfs.Datafunction.Caching
import Slsfs.Datafunction.Directory

/-!
# What filling the cache reads

After a miss `start_storage_perform` hands the reply of the backend to `write_to_cache` as a bare
pointer. How much is copied from there follows from the position and the size of the request alone:
block by block, the first `size` bytes. The reply is shorter than that when blocks are missing, and
an error text has a length of its own.

`write_to_cache` copies nothing for a range that wraps around, and nothing either where the loop of
`get_block_ids` does not end.
-/

namespace Slsfs.Datafunction

open LeveldbPack Ssbd

namespace Cache

section

variable (position size : UInt32) (data : Buf) (c : Cache) (uuid : Key)

/-- The loop of `write_to_cache` comes to the block with the number `k`: it returns from the blocks
before it. -/
def Comes (blockIds : List UInt32) (k : ℕ) : Prop :=
  match c.cachingMap.lookup uuid with
  | some _ => (updateBlocks position size data uuid (blockIds.take k) c).isSome
  | none => (collectBlocks position size data uuid (blockIds.take k) c ∅).isSome

/-- The byte at `i` behind the pointer is copied by `write_to_cache`. The copy for a block is made
before the block is entered into the list. -/
def Copied (i : ℕ) : Prop :=
  ∃ blockIds k blockId, getBlockIds position size = some blockIds ∧ blockIds[k]? = some blockId ∧
    Comes position size data c uuid blockIds k ∧ (copyOffset position blockId).toNat ≤ i ∧
    i < (copyOffset position blockId).toNat + (copySize position size blockId).toNat

variable {position size data c uuid}

private theorem getElem?_blockIds {blockIds : List UInt32} {k : ℕ} {blockId : UInt32}
    (hids : getBlockIds position size = some blockIds) (hk : blockIds[k]? = some blockId) :
    k < rounds position (position + size) ∧
      blockId = UInt32.ofNat (position.toNat / 4096 + k) := by
  rw [getBlockIds_eq_some hids, idsFrom, List.getElem?_map, Option.map_eq_some_iff] at hk
  obtain ⟨j, hj, rfl⟩ := hk
  obtain ⟨hlt, rfl⟩ := List.getElem?_eq_some_iff.mp hj
  rw [List.length_range] at hlt
  rw [List.getElem_range]
  exact ⟨hlt, rfl⟩

/-- Only the first `size` bytes are copied, and only for a range that does not wrap. -/
theorem Copied.lt_size {i : ℕ} (h : Copied position size data c uuid i) :
    i < size.toNat ∧ position.toNat + size.toNat < 2 ^ 32 ∧
      ¬Diverges position (position + size) := by
  obtain ⟨blockIds, k, blockId, hids, hk, -, hlo, hhi⟩ := h
  obtain ⟨hrounds, rfl⟩ := getElem?_blockIds hids hk
  obtain ⟨hfits, hlt⟩ := lt_size_of_lt_rounds hrounds
  rw [copyOffset_eq hrounds] at hlo hhi
  rw [copySize_eq hrounds] at hhi
  refine ⟨by omega, hfits, fun hdiverges ↦ ?_⟩
  have hzero : size ≠ 0 := by
    rintro rfl
    rw [UInt32.toNat_zero] at hlt
    omega
  rw [getBlockIds, if_neg hzero, blockIdsFrom_of_diverges _ hdiverges] at hids
  cases hids

/-- In a cache of the largest size nothing is ever evicted. -/
theorem collectBlocks_isSome (hcap : c.cap = 4294967295) (blockIds : List UInt32)
    (blocks : BlockMap) : (collectBlocks position size data uuid blockIds c blocks).isSome := by
  induction blockIds generalizing c blocks with
  | nil => rfl
  | cons blockId blockIds ih =>
    have hfits : ∀ n : UInt32, ¬c.cap < n := by
      intro n hlt
      rw [hcap, UInt32.lt_iff_toNat_lt] at hlt
      have := n.toNat_lt
      change 4294967295 < n.toNat at hlt
      omega
    obtain ⟨c', hset, hcap'⟩ : ∃ c', c.set none ⟨uuid, blockId, copySize position size blockId⟩
        = some c' ∧ c'.cap = c.cap := by
      rw [set]
      dsimp only
      rw [makeRoom_of_fits (hfits _)]
      exact ⟨_, rfl, rfl⟩
    rw [collectBlocks, hset]
    exact ih (hcap'.trans hcap) _

/-- **The first `size` bytes are copied** into a cache that has room for them. -/
theorem copied_of_lt_size (policy : EvictionPolicy) (hfits : position.toNat + size.toNat < 2 ^ 32)
    (hends : ¬Diverges position (position + size)) {i : ℕ} (hi : i < size.toNat) :
    Copied position size data (empty 4294967295 policy) uuid i := by
  have hsum := toNat_endpos hfits
  have hzero : size ≠ 0 := by
    rintro rfl
    rw [UInt32.toNat_zero] at hi
    omega
  have hids : getBlockIds position size
      = some (idsFrom position (rounds position (position + size))) := by
    rw [getBlockIds, if_neg hzero, blockIdsFrom_eq hends (by omega)]
  have hk : i / 4096 < rounds position (position + size) := by
    rw [lt_rounds_iff, hsum]
    omega
  refine ⟨_, i / 4096, UInt32.ofNat (position.toNat / 4096 + i / 4096), hids, ?_,
    collectBlocks_isSome rfl _ _, ?_, ?_⟩
  · rw [idsFrom, List.getElem?_map, List.getElem?_range hk, Option.map_some]
  · rw [copyOffset_eq hk]
    omega
  · rw [copyOffset_eq hk, copySize_eq hk]
    omega

end

/-- **Filling the cache.** For a request that misses, `write_to_cache` reads no byte outside the
buffer of the reply exactly if the reply is as long as the request asks, or the range wraps around,
or the loop over its blocks does not end. The cache may be in any state when the request misses, and
in any other when the reply arrives. -/
theorem fill_inside_iff (position size : UInt32) (uuid : Key) (buf : Buf) :
    (∀ c missed arrived : Cache, c.readFromCache ⟨uuid, position, size⟩ = some (none, missed) →
        ∀ i, Copied position size buf arrived uuid i → i < buf.length) ↔
      size.toNat ≤ buf.length ∨ 2 ^ 32 ≤ position.toNat + size.toNat ∨
        Diverges position (position + size) := by
  constructor
  · intro h
    by_contra hout
    obtain ⟨hshort, hrest⟩ := not_or.mp hout
    obtain ⟨hwrap, hends⟩ := not_or.mp hrest
    have hcopied : Copied position size buf (empty 4294967295 .lru) uuid buf.length :=
      copied_of_lt_size .lru (by omega) hends (by omega)
    have hmiss : (empty 4294967295 .lru).readFromCache ⟨uuid, position, size⟩
        = some (none, empty 4294967295 .lru) := rfl
    exact lt_irrefl _ (h _ _ _ hmiss buf.length hcopied)
  · rintro hcond c missed arrived - i hcopied
    obtain ⟨hlt, hfits, hends⟩ := hcopied.lt_size
    rcases hcond with hlong | hwrap | hdiverges
    · omega
    · omega
    · exact absurd hdiverges hends

/-- A read of one byte of a file that does not exist: the reply is empty, and a byte is copied from
behind it. -/
theorem fill_leaves_reply :
    performRead oneServer (fun _ ↦ 0) (fun _ ↦ Server.empty) ⟨rootId, 0, 1⟩ = some [] ∧
      (empty 65536 .lru).readFromCache ⟨rootId, 0, 1⟩ = some (none, empty 65536 .lru) ∧
      Copied 0 1 [] (empty 65536 .lru) rootId 0 := by
  refine ⟨by decide +kernel, rfl, [0], 0, 0, by decide +kernel, rfl, ?_, by decide, by decide⟩
  exact rfl

end Cache

end Slsfs.Datafunction

import Mathlib.Data.List.Sort
import Slsfs.Datafunction.Caching

/-!
# Which blocks the cache looks for

`get_block_ids` starts at the position of a request and goes on in whole blocks, where the backend
goes to the start of the next block. A range that does not start with a block can end in one block
more than it is long, and that block is not listed. The position and the end of the range are 32-bit
numbers, so a range that ends in the last block of the address space may never be passed.
-/

namespace Slsfs.Datafunction.Cache

open LeveldbPack

/-! ## The blocks of a range -/

/-- A byte of the range is in the block. -/
def Touches (input : ReadRequest) (b : ℕ) : Prop :=
  ∃ x, input.position.toNat ≤ x ∧ x < input.position.toNat + input.size.toNat ∧ x / 4096 = b

/-- The ids are those of the blocks of the range, in ascending order and each once, and they are the
blocks that `start_read` visits. -/
structure ExactIds (input : ReadRequest) (ids : List UInt32) : Prop where
  ascending : ids.Pairwise (· < ·)
  mem_iff : ∀ b, b ∈ ids.map UInt32.toNat ↔ Touches input b
  visited : ids.map UInt32.toNat = (input.chunks 4096).map Chunk.blockid

/-- **The condition.** The tail of the range does not enter one more block. -/
def TailStays (input : ReadRequest) : Prop :=
  input.size = 0 ∨ input.position.toNat % 4096 + (input.size.toNat - 1) % 4096 < 4096

section

variable {input : ReadRequest} {position size : UInt32}

private theorem map_toNat_idsFrom (position size : UInt32) :
    (idsFrom position (rounds position (position + size))).map UInt32.toNat
      = List.range' (position.toNat / 4096) (rounds position (position + size)) := by
  rw [idsFrom, List.map_map, List.range'_eq_map_range]
  exact List.map_congr_left fun k hk ↦ toNat_idsFrom (List.mem_range.mp hk)

private theorem touches_iff (hsize : 0 < input.size.toNat) (b : ℕ) :
    Touches input b ↔ input.position.toNat / 4096 ≤ b ∧
      b ≤ (input.position.toNat + input.size.toNat - 1) / 4096 := by
  constructor
  · rintro ⟨x, hlo, hhi, rfl⟩
    exact ⟨Nat.div_le_div_right hlo, Nat.div_le_div_right (by omega)⟩
  · rintro ⟨hlo, hhi⟩
    refine ⟨max input.position.toNat (4096 * b), le_max_left _ _, ?_, ?_⟩ <;> omega

private theorem mem_visited_iff (hfits : input.position.toNat + input.size.toNat < 2 ^ 32) (b : ℕ) :
    b ∈ (input.chunks 4096).map Chunk.blockid ↔ Touches input b := by
  rw [ReadRequest.chunks, toNat_endpos hfits, mem_map_blockid_iff (by decide), Touches]

private theorem mem_listed_iff (hfits : input.position.toNat + input.size.toNat < 2 ^ 32) (b : ℕ) :
    b ∈ (idsFrom input.position (rounds input.position (input.position + input.size))).map
        UInt32.toNat ↔
      input.position.toNat / 4096 ≤ b ∧
        b < input.position.toNat / 4096 + (input.size.toNat + 4095) / 4096 := by
  rw [map_toNat_idsFrom, List.mem_range'_1, rounds, toNat_endpos hfits, Nat.add_sub_cancel_left]

private theorem listed_iff_touches (hfits : input.position.toNat + input.size.toNat < 2 ^ 32) :
    (∀ b, b ∈ (idsFrom input.position
        (rounds input.position (input.position + input.size))).map UInt32.toNat ↔
      Touches input b) ↔ TailStays input := by
  rw [TailStays]
  rcases Nat.eq_zero_or_pos input.size.toNat with hzero | hpos
  · have hnone : ∀ b, ¬Touches input b := by
      rintro b ⟨x, hlo, hhi, -⟩
      omega
    refine ⟨fun _ ↦ .inl (UInt32.toNat_inj.mp hzero), fun _ b ↦ ?_⟩
    rw [mem_listed_iff hfits]
    exact ⟨fun h ↦ absurd h (by omega), fun h ↦ absurd h (hnone b)⟩
  · have hne : input.size ≠ 0 := by
      rintro hzero
      rw [hzero] at hpos
      exact absurd hpos (by decide)
    constructor
    · intro h
      -- the last block of the range is listed
      have hlast := (h _).mpr ((touches_iff hpos _).mpr ⟨Nat.div_le_div_right (by omega), le_rfl⟩)
      rw [mem_listed_iff hfits] at hlast
      refine .inr ?_
      omega
    · intro h b
      have htail := h.resolve_left hne
      rw [mem_listed_iff hfits, touches_iff hpos]
      omega

end

/-- **The block ids of a range.** For every range that ends a block below 2^32 or earlier, the cache
looks for exactly the blocks of the range, which are those that the backend reads, if and only if
the tail of the range does not enter one more block. -/
theorem exactIds_iff (input : ReadRequest)
    (h : input.position.toNat + input.size.toNat ≤ 2 ^ 32 - 4096) :
    (∃ ids, getBlockIds input.position input.size = some ids ∧ ExactIds input ids) ↔
      TailStays input := by
  have hfits : input.position.toNat + input.size.toNat < 2 ^ 32 := by omega
  have hends : ¬Diverges input.position (input.position + input.size) := by
    rw [Diverges, toNat_endpos hfits]
    omega
  rw [getBlockIds_of_not_diverges hends, ← listed_iff_touches hfits]
  constructor
  · rintro ⟨ids, hids, hexact⟩
    rw [← Option.some_inj.mp hids] at hexact
    exact hexact.mem_iff
  · intro hmem
    have hrange := map_toNat_idsFrom input.position input.size
    have hsorted : ((idsFrom input.position
        (rounds input.position (input.position + input.size))).map UInt32.toNat).Pairwise
          (· < ·) := by
      rw [hrange]
      exact List.pairwise_lt_range'
    refine ⟨_, rfl, ⟨?_, hmem, ?_⟩⟩
    · exact (List.pairwise_map.mp hsorted).imp UInt32.lt_iff_toNat_lt.mpr
    · have hvisited : ((input.chunks 4096).map Chunk.blockid).Pairwise (· < ·) :=
        List.pairwise_map.mpr (splitBlocks_pairwise (by decide) _)
      refine hsorted.eq_of_mem_iff hvisited fun b ↦ ?_
      rw [hmem, mem_visited_iff hfits]

/-- Two bytes, the last of block 0 and the first of block 1: only block 0 is listed. -/
theorem crossing_not_exact :
    (4095 : UInt32).toNat + (2 : UInt32).toNat ≤ 2 ^ 32 - 4096 ∧
      getBlockIds 4095 2 = some [0] ∧
      (ReadRequest.chunks 4096 ⟨.replicate 32 0, 4095, 2⟩).map Chunk.blockid = [0, 1] ∧
      ¬∃ ids, getBlockIds 4095 2 = some ids ∧ ExactIds ⟨.replicate 32 0, 4095, 2⟩ ids := by
  have hids : getBlockIds 4095 2 = some [0] := by decide +kernel
  have hchunks : (ReadRequest.chunks 4096 ⟨.replicate 32 0, 4095, 2⟩).map Chunk.blockid
      = [0, 1] := by decide +kernel
  refine ⟨by decide, hids, hchunks, ?_⟩
  rintro ⟨ids, heq, hexact⟩
  obtain rfl : [0] = ids := Option.some_inj.mp (hids.symm.trans heq)
  have hvisited := hexact.visited
  rw [hchunks] at hvisited
  cases hvisited

theorem exactIds_three_blocks :
    (8192 : UInt32).toNat + (12288 : UInt32).toNat ≤ 2 ^ 32 - 4096 ∧
      ∃ ids, getBlockIds 8192 12288 = some ids ∧ ExactIds ⟨.replicate 32 0, 8192, 12288⟩ ids :=
  ⟨by decide, (exactIds_iff ⟨.replicate 32 0, 8192, 12288⟩ (by decide)).mpr
    (.inr (by decide))⟩

/-! ## The rounds of the loop

A position in the last block of the address space wraps around to the first one before it can pass
the end; from there on the loop goes through the address space again and again. -/

/-- A request without bytes has no rounds, and for any other one the loop ends after at most `n`. -/
def EndsWithin (position size : UInt32) (n : ℕ) : Prop :=
  size = 0 ∨ (blockIdsFrom (position + size) n position).isSome

section

variable {position size : UInt32}

private theorem never_ends (h : Diverges position (position + size)) (n : ℕ) :
    ¬EndsWithin position size n := by
  rintro (hzero | hsome)
  · rw [hzero, UInt32.add_zero] at h
    exact not_diverges_self position h
  · rw [blockIdsFrom_of_diverges n h] at hsome
    cases hsome

private theorem endsWithin (h : ¬Diverges position (position + size)) :
    EndsWithin position size (size.toNat / 4096 + 1) := by
  refine .inr ?_
  rw [blockIdsFrom_eq h]
  · rfl
  · rw [UInt32.toNat_add]
    have := position.toNat_lt
    omega

end

/-- **The loop ends** within a round for each block and one more, unless the range ends behind the
last position that the loop can reach without wrapping around. Then it never ends. -/
theorem endsWithin_iff (position size : UInt32) :
    EndsWithin position size (size.toNat / 4096 + 1) ↔
      (position.toNat + size.toNat) % 2 ^ 32 ≤ position.toNat % 4096 + (2 ^ 32 - 4096) := by
  rw [← UInt32.toNat_add, ← not_lt]
  exact ⟨fun hends hdiverges ↦ never_ends hdiverges _ hends, endsWithin⟩

/-- One byte at the start of the last block: after it the loop is at position 0 again. -/
theorem last_block_never_ends :
    ¬EndsWithin 4294963200 1 ((1 : UInt32).toNat / 4096 + 1) ∧
      ∀ n, ¬EndsWithin 4294963200 1 n := by
  have hdiverges : Diverges 4294963200 (4294963200 + 1) := by
    rw [Diverges]
    decide
  exact ⟨never_ends hdiverges _, never_ends hdiverges⟩

end Slsfs.Datafunction.Cache

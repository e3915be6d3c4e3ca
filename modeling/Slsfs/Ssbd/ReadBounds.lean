import Slsfs.Ssbd.Block

/-!
# What a read touches of a stored block

`rawblocks::read` copies `min(size of the block - position, size)` bytes, in `size_t`. A position
past the end of the block makes the difference wrap around, and the copy then takes all the bytes
that were asked for from behind the block. A block may be shorter than any position: a first prepare
stores an empty one, and a short write stores a short one.
-/

namespace Slsfs.Ssbd

open LeveldbPack

namespace Server

/-- The indices of the block that the `copy_n` of `rawblocks::read` reads. -/
def rawblocksIndices (buf : Buf) (logicPosition size : ℕ) : List ℕ :=
  List.range' logicPosition
    (min (UInt64.ofNat buf.length - UInt64.ofNat logicPosition).toNat size)

/-- What the answer to a read should hold: the bytes of the block, and zeros behind its end. -/
def padded (block : Buf) (position size : ℕ) : Buf :=
  (List.range size).map fun i ↦ block[position + i]?.getD 0

section Count

variable {block : Buf} {position size : ℕ}

private theorem length_sub_toNat_of_lt (hpos : position < 2 ^ 16) (h : block.length < position) :
    2 ^ 32 ≤ (UInt64.ofNat block.length - UInt64.ofNat position).toNat := by
  rw [UInt64.toNat_sub, UInt64.toNat_ofNat', UInt64.toNat_ofNat',
    Nat.mod_eq_of_lt (by omega : block.length < 2 ^ 64),
    Nat.mod_eq_of_lt (by omega : position < 2 ^ 64)]
  omega

/-- **The copy stays inside the block** if the position does, or if nothing is asked for. -/
theorem rawblocksIndices_inside_iff (hlen : block.length < 2 ^ 64) (hpos : position < 2 ^ 16)
    (hsize : size < 2 ^ 32) :
    (∀ j ∈ rawblocksIndices block position size, j < block.length) ↔
      position ≤ block.length ∨ size = 0 := by
  constructor
  · intro h
    by_contra hout
    obtain ⟨hlt, hne⟩ := not_or.mp hout
    have hwrap := length_sub_toNat_of_lt hpos (Nat.lt_of_not_le hlt)
    have hmem : position ∈ rawblocksIndices block position size := by
      rw [rawblocksIndices, List.mem_range'_1]
      omega
    exact hlt (h position hmem).le
  · rintro (h | rfl) j hj
    · rw [rawblocksIndices, length_sub_toNat hlen h, List.mem_range'_1] at hj
      omega
    · rw [rawblocksIndices, Nat.min_zero] at hj
      exact absurd hj List.not_mem_nil

/-- A read that starts inside the block, or at its end, is answered with the bytes that are there
and zeros for the rest. -/
theorem readBuffer_eq_padded (stray : ℕ → UInt8) (hlen : block.length < 2 ^ 64)
    (h : position ≤ block.length ∨ size = 0) :
    readBuffer stray block position size = padded block position size := by
  rcases h with h | rfl
  · refine List.ext_getElem? fun i ↦ ?_
    by_cases hi : i < size
    · rw [getElem?_readBuffer stray hlen h hi, padded, List.getElem?_map, List.getElem?_range hi,
        Option.map_some]
    · rw [List.getElem?_eq_none (by rw [readBuffer_length]; omega),
        List.getElem?_eq_none (by simpa [padded] using hi)]
  · exact List.eq_nil_of_length_eq_zero (readBuffer_length ..)

end Count

/-- **Block read bounds.** Reading a block that is there touches nothing outside it, and answers
with its bytes followed by zeros, exactly if the position is not past its end or nothing is asked
for. -/
theorem startDbRead_inside_iff (stray : ℕ → UInt8) {s : Server} (pack : Packet) {block : Buf}
    (hdb : s.db pack.header.asString = some block) (hlen : block.length < 2 ^ 64) :
    ((∀ j ∈ rawblocksIndices block pack.header.position.toNat pack.header.datasize.toNat,
        j < block.length) ∧
      s.startDbRead stray pack =
        { header := { pack.header with type := .ack }
          data := padded block pack.header.position.toNat pack.header.datasize.toNat }) ↔
      pack.header.position.toNat ≤ block.length ∨ pack.header.datasize = 0 := by
  have hinside := rawblocksIndices_inside_iff hlen pack.header.position.toNat_lt
    pack.header.datasize.toNat_lt
  have hzero : pack.header.datasize.toNat = 0 ↔ pack.header.datasize = 0 := by
    rw [← UInt32.toNat_inj]
    rfl
  rw [← hzero, hinside]
  refine ⟨fun h ↦ h.1, fun h ↦ ⟨h, ?_⟩⟩
  rw [startDbRead, hdb]
  simp only [readBuffer_eq_padded stray hlen h]

/-- A prepare of one byte of block 0. -/
def prepareByte : Packet :=
  { Packet.createRequest (.replicate 32 0) .twoPcPrepare 3 0 0 1 (.replicate 4 0) with data := [5] }

/-- A read of the second byte of block 0. -/
def getSecondByte : Packet :=
  Packet.createRequest (.replicate 32 0) .get 0 0 1 1 (.replicate 4 0)

/-- The first prepare of a block stores an empty one. A read of its second byte then copies a byte
from outside it into the answer. -/
theorem startDbRead_leaves_block :
    ((empty.handle (fun _ ↦ 0) prepareByte).1.db getSecondByte.header.asString) = some [] ∧
      (¬∀ j ∈ rawblocksIndices [] getSecondByte.header.position.toNat
        getSecondByte.header.datasize.toNat, j < ([] : Buf).length) ∧
      ((empty.handle (fun _ ↦ 0) prepareByte).1.startDbRead (fun _ ↦ 7) getSecondByte).data = [7] ∧
      padded [] getSecondByte.header.position.toNat getSecondByte.header.datasize.toNat = [0] := by
  decide +kernel

theorem startDbRead_inside_first_byte :
    ∃ block, (empty.handle (fun _ ↦ 0) prepareByte).1.db
        { getSecondByte.header with position := 0 }.asString = some block ∧
      block.length < 2 ^ 64 ∧
      ((empty.handle (fun _ ↦ 0) prepareByte).1.startDbRead (fun _ ↦ 7)
        ⟨{ getSecondByte.header with position := 0 }, []⟩).data = padded block 0 1 := by
  have hdb : (empty.handle (fun _ ↦ 0) prepareByte).1.db
      { getSecondByte.header with position := 0 }.asString = some [] := by decide +kernel
  refine ⟨[], hdb, by decide, ?_⟩
  have h := (startDbRead_inside_iff (fun _ ↦ 7) ⟨{ getSecondByte.header with position := 0 }, []⟩
    hdb (by decide)).mpr (by decide)
  rw [h.2]
  rfl

end Server

end Slsfs.Ssbd

import Slsfs.Datafunction.BlockSplit
import Slsfs.Datafunction.ReadJob
import Slsfs.Lib.Gather

/-!
# Putting the answers of a read together

`start_read` makes a vector with as many places as its first loop has counted, sends one request
for each round of the second, and lets the callback that finds every place ready reply. The counter
is an `int`. As long as the blocks can be counted with it, the vector has one place for each
request, and whatever the order of the answers the last one to arrive makes the one reply, with the
buffers in the order of the blocks. From `2 ^ 31` blocks on the counter is negative, and as a
`size_t` it asks for a vector that cannot be had; the model keeps it, and there are always places
left empty.
-/

namespace Slsfs.Datafunction

open LeveldbPack

/-- The size `result_accumulator` is made with: the `int` as a `size_t`. -/
def accumulatorSize (resultVectorSize : Int32) : ℕ := resultVectorSize.toInt64.toUInt64.toNat

private theorem accumulatorSize_ofNat {n : ℕ} (h : n < 2 ^ 32) :
    accumulatorSize (Int32.ofNat n) = if n < 2 ^ 31 then n else n + (2 ^ 64 - 2 ^ 32) := by
  have hextend : accumulatorSize (Int32.ofNat n)
      = (BitVec.signExtend 64 (BitVec.ofNat 32 n)).toNat := rfl
  have hnat : (BitVec.ofNat 32 n).toNat = n := by rw [BitVec.toNat_ofNat, Nat.mod_eq_of_lt h]
  rw [hextend, BitVec.toNat_signExtend, BitVec.toNat_setWidth, BitVec.msb_eq_decide, hnat,
    Nat.mod_eq_of_lt (by omega)]
  by_cases hsmall : n < 2 ^ 31
  · rw [if_pos hsmall, if_neg (by simpa using hsmall), Nat.add_zero]
  · rw [if_neg hsmall, if_pos (by simpa using hsmall)]

/-- What `next` has been invoked with. -/
def readReplies (g : Gather Buf) : List Buf := g.handedOver.map List.flatten

theorem ReadJob.onBlock_put (job : ReadJob) {j : ℕ} (hj : j < job.accumulator.length) (body : Buf)
    {handedOver : List (List Buf)} (h : handedOver.map List.flatten = job.replies) :
    ∃ g, Gather.put ⟨job.accumulator, handedOver⟩ (j, body) = some g ∧
      g.slots = (job.onBlock j body).accumulator ∧
      readReplies g = (job.onBlock j body).replies := by
  refine ⟨_, if_pos hj, ?_, ?_⟩
  · rw [ReadJob.onBlock]
    split <;> rfl
  · rw [ReadJob.onBlock]
    dsimp only [readReplies]
    split
    · rename_i hall
      have hsome : (job.accumulator.set j (some body)).map (·.getD [])
          = (job.accumulator.set j (some body)).reduceOption := by
        generalize job.accumulator.set j (some body) = slots at hall
        induction slots with
        | nil => rfl
        | cons slot slots ih =>
          rw [List.all_cons, Bool.and_eq_true] at hall
          obtain ⟨value, rfl⟩ := Option.isSome_iff_exists.mp hall.1
          rw [List.map_cons, ih hall.2, List.reduceOption_cons_of_some]
          rfl
      rw [List.map_append, h, hsome]
      rfl
    · exact h

/-- The vector after the answers of some requests have arrived, each with its buffer. -/
def gathered (resultVectorSize : Int32) (response : ℕ → Buf) (arrived : List ℕ) :
    Option (Gather Buf) :=
  run Gather.put (Gather.empty (accumulatorSize resultVectorSize))
    (arrived.map fun j ↦ (j, response j))

/-- **The order of arrival does not matter.** For every order of the answers, nothing is replied
before the last one, and after it `next` has been invoked once, with the buffers in the order of
the requests. -/
def Reassembles (resultVectorSize : Int32) (reads : List (UInt32 × Piece)) : Prop :=
  ∀ (response : ℕ → Buf) (order : List ℕ), order.Perm (reads.map (·.1.toNat)) →
    (∀ front back, order = front ++ back → back ≠ [] →
      ∃ g, gathered resultVectorSize response front = some g ∧ readReplies g = []) ∧
    ∃ g, gathered resultVectorSize response order = some g ∧
      readReplies g = [(reads.map fun r ↦ response r.1.toNat).flatten]

private theorem reassembles_iff {reads : List (UInt32 × Piece)}
    (hindex : reads.map (·.1.toNat) = List.range reads.length) (hpos : 0 < reads.length)
    (hlt : reads.length < 2 ^ 32) :
    Reassembles (Int32.ofNat reads.length) reads ↔ reads.length < 2 ^ 31 := by
  have hsize := accumulatorSize_ofNat hlt
  have hle : reads.length ≤ accumulatorSize (Int32.ofNat reads.length) := by
    rw [hsize]
    split <;> omega
  have hgathered : ∀ (response : ℕ → Buf) (arrived : List ℕ), arrived ⊆ List.range reads.length →
      arrived.Nodup → gathered (Int32.ofNat reads.length) response arrived
        = some (Gather.filled (accumulatorSize (Int32.ofNat reads.length)) response arrived) :=
    fun response arrived hsub hnodup ↦ Gather.run_put response
      (fun j hj ↦ (List.mem_range.mp (hsub hj)).trans_le hle) hnodup
  constructor
  · intro h
    by_contra hlarge
    obtain ⟨-, g, hg, hreplies⟩ := h (fun _ ↦ []) (List.range reads.length) (hindex ▸ .refl _)
    rw [hgathered _ _ (List.Subset.refl _) List.nodup_range, Option.some_inj] at hg
    -- more places than requests: one of them stays empty
    have hshort : (List.range reads.length).length
        < accumulatorSize (Int32.ofNat reads.length) := by
      rw [List.length_range, hsize, if_neg hlarge]
      omega
    rw [← hg, readReplies, Gather.handedOver_filled_of_lt _ hshort] at hreplies
    cases hreplies
  · intro hsmall response order hperm
    rw [hindex] at hperm
    rw [if_pos hsmall] at hsize
    have hnodup : order.Nodup := hperm.nodup_iff.mpr List.nodup_range
    refine ⟨fun front back hsplit hback ↦ ?_, ?_⟩
    · have hfront : front ⊆ order := by
        rw [hsplit]
        exact List.subset_append_left front back
      refine ⟨_, hgathered response front (List.Subset.trans hfront hperm.subset)
        (List.Nodup.of_append_left (hsplit ▸ hnodup)), ?_⟩
      have hshort : front.length < reads.length := by
        have hlen := hperm.length_eq
        rw [hsplit, List.length_append, List.length_range] at hlen
        have := List.length_pos_of_ne_nil hback
        omega
      rw [readReplies, hsize, Gather.handedOver_filled_of_lt _ hshort, List.map_nil]
    · refine ⟨_, hgathered response order hperm.subset hnodup, ?_⟩
      rw [readReplies, hsize, Gather.handedOver_filled_of_perm _ hpos hperm, List.map_singleton,
        ← hindex, List.map_map]
      rfl

private theorem length_splitBlocks_le {blocksize : ℕ} (hB : 0 < blocksize) (realpos endpos : ℕ) :
    (splitBlocks blocksize realpos endpos).length ≤ endpos - realpos := by
  have hle := List.length_le_sum_of_one_le ((splitBlocks blocksize realpos endpos).map Chunk.length)
    (List.forall_mem_map.mpr fun c hc ↦ (within_of_mem hB hc).length_pos)
  rwa [List.length_map, splitBlocks_sum_length hB] at hle

private theorem read_loops {blocksize : UInt32} (hB : 1 ≤ blocksize) (position size : UInt32) :
    ∃ reads counted t w,
      Emits (startReadSendRound blocksize (position + size)) (position, 0) reads t ∧
      Emits (startReadCountRound blocksize (position + size)) (position, 0) counted w ∧
      w.2 = Int32.ofNat reads.length ∧
      reads.map (·.1.toNat) = List.range reads.length ∧ reads.length < 2 ^ 32 ∧
      (reads.Pairwise fun r r' ↦ r.2.blockid.toNat < r'.2.blockid.toNat) ∧
      reads.length
        = (splitBlocks blocksize.toNat position.toNat (position + size).toNat).length := by
  have hpos : 0 < blocksize.toNat := UInt32.le_iff_toNat_le.mp hB
  obtain ⟨pieces, t, hprepare, hmap⟩ := emits_start2pcPrepare hpos position (position + size)
  obtain ⟨w, hcount⟩ := emits_startReadCount hprepare
  obtain ⟨reads, v, hsend, hreads⟩ := emits_startReadSend hprepare
  have hlen : reads.length
      = (splitBlocks blocksize.toNat position.toNat (position + size).toNat).length := by
    have h := congrArg List.length (map_reads hreads hmap (f := fun p ↦ p.blockid.toNat)
      (g := Chunk.blockid) fun _ ↦ rfl)
    rwa [List.length_map, List.length_map] at h
  have hlt : reads.length < 2 ^ 32 := by
    have hle := length_splitBlocks_le hpos position.toNat (position + size).toNat
    have := (position + size).toNat_lt
    omega
  refine ⟨reads, _, v, w, hsend, hcount, ?_, ?_, hlt, reads_pairwise hpos hreads hmap, hlen⟩
  · have hpieces := congrArg List.length hreads
    rw [List.length_map, List.length_map] at hpieces
    rw [resultVectorSize_of_emits hcount, List.length_map, hpieces]
    exact Int32.zero_add _
  · have hindices := congrArg (List.map UInt32.toNat) (indices_of_emits hsend)
    rw [List.map_map, List.map_map] at hindices
    refine Eq.trans hindices ?_
    conv_rhs => rw [← List.map_id (List.range reads.length)]
    refine List.map_congr_left fun j hj ↦ ?_
    have := List.mem_range.mp hj
    simp only [Function.comp_apply, UInt32.zero_add, UInt32.toNat_ofNat', id]
    omega

/-- **Reassembly.** Both loops of `start_read` terminate for every block size, position and size.
If the second sends a request at all, then the order in which the answers arrive does not matter
exactly if there are fewer than `2 ^ 31` of them. The requests are in ascending order of their
blocks. -/
theorem read_reassembles_iff {blocksize : UInt32} (hB : 1 ≤ blocksize) (position size : UInt32) :
    ∃ reads counted t w,
      Emits (startReadSendRound blocksize (position + size)) (position, 0) reads t ∧
      Emits (startReadCountRound blocksize (position + size)) (position, 0) counted w ∧
      (reads.Pairwise fun r r' ↦ r.2.blockid < r'.2.blockid) ∧
      (1 ≤ reads.length → (Reassembles w.2 reads ↔ reads.length < 2 ^ 31)) := by
  obtain ⟨reads, counted, t, w, hsend, hcount, hsize, hindex, hlt, hsorted, -⟩ :=
    read_loops hB position size
  refine ⟨reads, counted, t, w, hsend, hcount, ?_, fun hpos ↦ ?_⟩
  · exact hsorted.imp fun h ↦ UInt32.lt_iff_toNat_lt.mpr h
  · rw [hsize]
    exact reassembles_iff hindex hpos hlt

private theorem length_splitBlocks_one (realpos endpos : ℕ) :
    (splitBlocks 1 realpos endpos).length = endpos - realpos := by
  have hone : ∀ l ∈ (splitBlocks 1 realpos endpos).map Chunk.length, l = 1 := by
    refine List.forall_mem_map.mpr fun c hc ↦ ?_
    have hwithin := within_of_mem Nat.zero_lt_one hc
    have := hwithin.fits
    have := hwithin.length_pos
    omega
  rw [← splitBlocks_sum_length Nat.zero_lt_one, List.eq_replicate_of_mem hone, List.sum_replicate,
    List.length_map]
  exact (Nat.mul_one _).symm

/-- A read of `2 ^ 31` bytes in blocks of one byte. All requests are sent, the counter has become
negative, and when every answer is there nothing has been replied. -/
theorem counter_overflows : ∃ reads counted t w,
    Emits (startReadSendRound 1 (0 + 2147483648)) (0, 0) reads t ∧
    Emits (startReadCountRound 1 (0 + 2147483648)) (0, 0) counted w ∧
    1 ≤ reads.length ∧ w.2 < 0 ∧ ¬Reassembles w.2 reads := by
  obtain ⟨reads, counted, t, w, hsend, hcount, hsize, hindex, hlt, -, hlength⟩ :=
    read_loops (by decide : (1 : UInt32) ≤ 1) 0 2147483648
  have hlen : reads.length = 2147483648 := hlength.trans (length_splitBlocks_one 0 2147483648)
  refine ⟨reads, counted, t, w, hsend, hcount, by omega, ?_, fun h ↦ ?_⟩
  · rw [hsize, hlen]
    decide
  · rw [hsize, reassembles_iff hindex (by omega) hlt] at h
    omega

theorem read_reassembles_three_blocks : ∃ reads counted t w,
    Emits (startReadSendRound 4 (5 + 9)) (5, 0) reads t ∧
      Emits (startReadCountRound 4 (5 + 9)) (5, 0) counted w ∧
      1 ≤ reads.length ∧ Reassembles w.2 reads := by
  have hB : (1 : UInt32) ≤ 4 := by decide
  obtain ⟨reads, counted, t, w, hsend, hcount, -, hiff⟩ := read_reassembles_iff hB 5 9
  have hconcrete : Emits (startReadSendRound 4 (5 + 9)) (5, 0)
      [(0, ⟨1, 1, 3⟩), (1, ⟨2, 0, 4⟩), (2, ⟨3, 0, 2⟩)] (14, 3) :=
    .next rfl (.next rfl (.next rfl (.stop rfl)))
  obtain ⟨hreads, -⟩ := hsend.unique hconcrete
  have hlen : reads.length = 3 := by rw [hreads]; rfl
  exact ⟨reads, counted, t, w, hsend, hcount, by omega, (hiff (by omega)).mpr (by omega)⟩

end Slsfs.Datafunction

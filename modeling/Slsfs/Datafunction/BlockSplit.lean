import Mathlib.Data.UInt
import Slsfs.Datafunction.BlockLoop
import Slsfs.Lib.Loop
import Slsfs.LeveldbPack

/-!
# The five block loops in 32 bits

The walk over a byte range is written out five times in `storage_conf_ssbd_backend`: in
`start_2pc_prepare`, `start_2pc_commit`, `start_replication`, and twice in `start_read`, which
counts the blocks before it sends. Each copy computes in `std::uint32_t`. Here each has its own
round, and all five are shown to terminate and to yield the pieces of `splitBlocks`, which is what
the rest of the development uses for them.

`start_read` counts in an `int`. The counter is the number of pieces only as far as that goes.
-/

namespace Slsfs.Datafunction

open LeveldbPack

/-! ## The rounds

Each round is what one pass through a loop of the source computes, from the variables of that loop
to their next values, or nothing when the loop ends. The variables are `std::uint32_t`, so sums and
differences wrap around. -/

/-- The three numbers that all the loops are about. -/
structure Piece where
  blockid : UInt32
  offset : UInt32
  size : UInt32
  deriving DecidableEq, Repr

/-- A round of `start_2pc_prepare`, over `currentpos` and `buffer_pointer_offset`. It sends the
piece with the bytes of the request from `buffer_pointer_offset` on. -/
def start2pcPrepareRound (blocksize endpos : UInt32) (s : UInt32 × UInt32) :
    Option ((Piece × UInt32) × UInt32 × UInt32) :=
  let (currentpos, bufferPointerOffset) := s
  if currentpos < endpos then
    let blockid := currentpos / blocksize
    let offset := currentpos % blocksize
    let blockwritesize := min (endpos - currentpos) (blocksize - offset)
    some ((⟨blockid, offset, blockwritesize⟩, bufferPointerOffset),
      currentpos + blockwritesize, bufferPointerOffset + blockwritesize)
  else none

/-- A round of `start_2pc_commit`. The offset into the request is kept up and not used. -/
def start2pcCommitRound (blocksize endpos : UInt32) (s : UInt32 × UInt32) :
    Option (Piece × UInt32 × UInt32) :=
  let (currentpos, bufferPointerOffset) := s
  if currentpos < endpos then
    let blockid := currentpos / blocksize
    let offset := currentpos % blocksize
    let blockwritesize := min (endpos - currentpos) (blocksize - offset)
    some (⟨blockid, offset, blockwritesize⟩,
      currentpos + blockwritesize, bufferPointerOffset + blockwritesize)
  else none

/-- A round of `start_replication`, which moves on before it goes through the replicas. -/
def startReplicationRound (blocksize endpos : UInt32) (s : UInt32 × UInt32) :
    Option (Piece × UInt32 × UInt32) :=
  let (currentpos, bufferPointerOffset) := s
  if currentpos < endpos then
    let blockid := currentpos / blocksize
    let offset := currentpos % blocksize
    let blockwritesize := min (endpos - currentpos) (blocksize - offset)
    let currentpos := currentpos + blockwritesize
    let bufferPointerOffset := bufferPointerOffset + blockwritesize
    some (⟨blockid, offset, blockwritesize⟩, currentpos, bufferPointerOffset)
  else none

/-- A round of the first loop of `start_read`, over `currentpos` and the `int` that counts. It has
no use for the block id. -/
def startReadCountRound (blocksize endpos : UInt32) (s : UInt32 × Int32) :
    Option ((UInt32 × UInt32) × UInt32 × Int32) :=
  let (currentpos, resultVectorSize) := s
  if currentpos < endpos then
    let offset := currentpos % blocksize
    let blockreadsize := min (endpos - currentpos) (blocksize - offset)
    some ((offset, blockreadsize), currentpos + blockreadsize, resultVectorSize + 1)
  else none

/-- A round of the second loop of `start_read`, over `currentpos` and `index`. -/
def startReadSendRound (blocksize endpos : UInt32) (s : UInt32 × UInt32) :
    Option ((UInt32 × Piece) × UInt32 × UInt32) :=
  let (currentpos, index) := s
  if currentpos < endpos then
    let blockid := currentpos / blocksize
    let offset := currentpos % blocksize
    let blockreadsize := min (endpos - currentpos) (blocksize - offset)
    some ((index, ⟨blockid, offset, blockreadsize⟩), currentpos + blockreadsize, index + 1)
  else none

/-- A piece and its place in the request, as numbers. -/
def Piece.chunk (p : Piece × UInt32) : Chunk where
  blockid := p.1.blockid.toNat
  offset := p.1.offset.toNat
  length := p.1.size.toNat
  bufferOffset := p.2.toNat

/-! ## The loop of a prepare

As long as the position is below the end, nothing in a round wraps around: the size of the piece is
at most what is left, and so the new position is at most the end. By induction on what is left the
loop ends, and its pieces are those of `splitBlocks`. -/

private theorem start2pcPrepareRound_of_lt
    {blocksize endpos currentpos bufferPointerOffset : UInt32}
    (hB : 0 < blocksize.toNat) (hpos : currentpos.toNat < endpos.toNat)
    (hoff : bufferPointerOffset.toNat ≤ currentpos.toNat) :
    ∃ p s', start2pcPrepareRound blocksize endpos (currentpos, bufferPointerOffset)
        = some (p, s') ∧
      Piece.chunk p = chunkAt blocksize.toNat endpos.toNat currentpos.toNat
        bufferPointerOffset.toNat ∧
      s'.1.toNat = currentpos.toNat + (Piece.chunk p).length ∧
      s'.2.toNat = bufferPointerOffset.toNat + (Piece.chunk p).length := by
  have hlt : currentpos < endpos := UInt32.lt_iff_toNat_lt.mpr hpos
  have hmod := Nat.mod_lt currentpos.toNat hB
  have hoffset : (currentpos % blocksize).toNat = currentpos.toNat % blocksize.toNat :=
    UInt32.toNat_mod ..
  have hsize : (min (endpos - currentpos) (blocksize - currentpos % blocksize)).toNat
      = min (endpos.toNat - currentpos.toNat)
          (blocksize.toNat - currentpos.toNat % blocksize.toNat) := by
    have hleft : (endpos - currentpos).toNat = endpos.toNat - currentpos.toNat :=
      UInt32.toNat_sub_of_le _ _ (UInt32.le_iff_toNat_le.mpr hpos.le)
    have hright : (blocksize - currentpos % blocksize).toNat
        = blocksize.toNat - currentpos.toNat % blocksize.toNat := by
      rw [UInt32.toNat_sub_of_le _ _ (UInt32.le_iff_toNat_le.mpr (by omega)), hoffset]
    rw [UInt32.toNat_min, hleft, hright]
  have hend := endpos.toNat_lt
  refine ⟨_, _, if_pos hlt, ?_, ?_, ?_⟩
  · simp only [Piece.chunk, chunkAt, UInt32.toNat_div, hoffset, hsize]
  · simp only [Piece.chunk, UInt32.toNat_add, hsize]
    exact Nat.mod_eq_of_lt (by omega)
  · simp only [Piece.chunk, UInt32.toNat_add, hsize]
    exact Nat.mod_eq_of_lt (by omega)

/-- **The loop of a prepare is the walk over the blocks.** -/
theorem emits_start2pcPrepare {blocksize : UInt32} (hB : 0 < blocksize.toNat)
    (realpos endpos : UInt32) :
    ∃ pieces t, Emits (start2pcPrepareRound blocksize endpos) (realpos, 0) pieces t ∧
      pieces.map Piece.chunk = splitBlocks blocksize.toNat realpos.toNat endpos.toNat := by
  have hall := blockLoop_induction endpos.toNat hB
    (P := fun pos off cs ↦ off ≤ pos → ∀ currentpos bufferPointerOffset : UInt32,
      currentpos.toNat = pos → bufferPointerOffset.toNat = off →
      ∃ pieces t, Emits (start2pcPrepareRound blocksize endpos)
        (currentpos, bufferPointerOffset) pieces t ∧ pieces.map Piece.chunk = cs)
    (fun pos off hend _ currentpos bufferPointerOffset hpos _ ↦ by
      have hle : ¬currentpos < endpos := fun h ↦ by
        have := UInt32.lt_iff_toNat_lt.mp h
        omega
      exact ⟨[], _, .stop (if_neg hle), rfl⟩)
    (fun pos off rest hpos ih hoff currentpos bufferPointerOffset hcurrent hbuffer ↦ by
      subst hcurrent hbuffer
      obtain ⟨p, s', hround, hchunk, hnext, hbuf⟩ := start2pcPrepareRound_of_lt hB hpos hoff
      rw [hchunk] at hnext hbuf
      obtain ⟨pieces, t, hemits, hmap⟩ := ih (by omega) s'.1 s'.2 hnext hbuf
      exact ⟨p :: pieces, t, .next hround hemits, by rw [List.map_cons, hchunk, hmap]⟩)
    (endpos.toNat - realpos.toNat) realpos.toNat 0 le_rfl
  exact hall (Nat.zero_le _) realpos 0 rfl rfl

/-! ## The other four keep step with it

They compute the same positions and sizes and leave out some of the rest. Instead of four more
inductions there is one: a loop whose round gives some function of the piece, and moves on as the
loop of the prepare does, gives that function of all its pieces. -/

/-- The piece at `currentpos`, in 32 bits. -/
def pieceAt (blocksize endpos currentpos : UInt32) : Piece where
  blockid := currentpos / blocksize
  offset := currentpos % blocksize
  size := min (endpos - currentpos) (blocksize - currentpos % blocksize)

section Copies

variable {blocksize endpos : UInt32} {s t : UInt32 × UInt32} {pieces : List (Piece × UInt32)}
  (h : Emits (start2pcPrepareRound blocksize endpos) s pieces t)

include h

/-- A loop with the same guard that moves on by the same piece, whatever else it keeps, goes through
the same pieces. -/
theorem emits_copy {κ β γ : Type*} (round : UInt32 × κ → Option (β × UInt32 × κ)) {f : Piece → γ}
    {g : β → γ} (hstop : ∀ pos k, ¬pos < endpos → round (pos, k) = none)
    (hnext : ∀ pos k, pos < endpos → ∃ b k', round (pos, k)
        = some (b, pos + (pieceAt blocksize endpos pos).size, k') ∧
      g b = f (pieceAt blocksize endpos pos)) (k : κ) :
    ∃ out v, Emits round (s.1, k) out v ∧ out.map g = pieces.map fun p ↦ f p.1 := by
  obtain ⟨out, v, hv, hout, -⟩ := h.simulate round (R := fun s u ↦ u.1 = s.1)
    (f := fun p ↦ f p.1) (g := g) (u := (s.1, k))
    (by
      rintro ⟨pos, off⟩ ⟨_, k⟩ rfl hs
      rw [start2pcPrepareRound] at hs
      split at hs
      · cases hs
      · exact hstop _ k ‹_›)
    (by
      rintro ⟨pos, off⟩ ⟨_, k⟩ a s' rfl hs
      rw [start2pcPrepareRound] at hs
      split at hs
      · cases hs
        obtain ⟨b, k', hround, hb⟩ := hnext _ k ‹_›
        exact ⟨b, _, hround, hb, rfl⟩
      · cases hs) rfl
  exact ⟨out, v, hv, hout⟩

private theorem emits_start2pcCommit :
    ∃ v, Emits (start2pcCommitRound blocksize endpos) (s.1, 0) (pieces.map Prod.fst) v := by
  obtain ⟨out, v, hv, hout⟩ := emits_copy h (start2pcCommitRound blocksize endpos)
    (f := id) (g := id) (fun _ _ hpos ↦ if_neg hpos) (fun _ _ hpos ↦ ⟨_, _, if_pos hpos, rfl⟩) 0
  rw [List.map_id] at hout
  exact ⟨v, hout ▸ hv⟩

private theorem emits_startReplication :
    ∃ v, Emits (startReplicationRound blocksize endpos) (s.1, 0) (pieces.map Prod.fst) v := by
  obtain ⟨out, v, hv, hout⟩ := emits_copy h (startReplicationRound blocksize endpos)
    (f := id) (g := id) (fun _ _ hpos ↦ if_neg hpos) (fun _ _ hpos ↦ ⟨_, _, if_pos hpos, rfl⟩) 0
  rw [List.map_id] at hout
  exact ⟨v, hout ▸ hv⟩

theorem emits_startReadCount :
    ∃ v, Emits (startReadCountRound blocksize endpos) (s.1, 0)
      (pieces.map fun p ↦ (p.1.offset, p.1.size)) v := by
  obtain ⟨out, v, hv, hout⟩ := emits_copy h (startReadCountRound blocksize endpos)
    (f := fun p ↦ (p.offset, p.size)) (g := id) (fun _ _ hpos ↦ if_neg hpos)
    (fun _ _ hpos ↦ ⟨_, _, if_pos hpos, rfl⟩) 0
  rw [List.map_id] at hout
  exact ⟨v, hout ▸ hv⟩

theorem emits_startReadSend :
    ∃ reads v, Emits (startReadSendRound blocksize endpos) (s.1, 0) reads v ∧
      reads.map Prod.snd = pieces.map Prod.fst :=
  emits_copy h (startReadSendRound blocksize endpos) (f := id) (g := Prod.snd)
    (fun _ _ hpos ↦ if_neg hpos) (fun _ _ hpos ↦ ⟨_, _, if_pos hpos, rfl⟩) 0

omit h in
theorem map_reads {γ : Type*} {chunks : List Chunk} {reads : List (UInt32 × Piece)}
    (hreads : reads.map Prod.snd = pieces.map Prod.fst) (hmap : pieces.map Piece.chunk = chunks)
    {f : Piece → γ} {g : Chunk → γ} (hfg : ∀ p, g (Piece.chunk p) = f p.1) :
    (reads.map fun r ↦ f r.2) = chunks.map g := by
  have h := congrArg (List.map f) hreads
  rw [List.map_map, List.map_map] at h
  rw [← hmap, List.map_map]
  exact h.trans (List.map_congr_left fun p _ ↦ (hfg p).symm)

end Copies

theorem resultVectorSize_of_emits {blocksize endpos : UInt32} {s t : UInt32 × Int32}
    {out : List (UInt32 × UInt32)} (h : Emits (startReadCountRound blocksize endpos) s out t) :
    t.2 = s.2 + Int32.ofNat out.length := by
  induction h with
  | stop => exact (Int32.add_zero _).symm
  | @next s s' t a out hs rest ih =>
    rw [startReadCountRound] at hs
    split at hs
    · cases hs
      rw [ih, List.length_cons, Nat.add_comm, Int32.ofNat_add, ← Int32.add_assoc]
      rfl
    · cases hs

theorem indices_of_emits {blocksize endpos : UInt32} {s t : UInt32 × UInt32}
    {out : List (UInt32 × Piece)} (h : Emits (startReadSendRound blocksize endpos) s out t) :
    out.map Prod.fst = (List.range out.length).map fun j ↦ s.2 + UInt32.ofNat j := by
  induction h with
  | stop => rfl
  | @next s s' t a out hs rest ih =>
    rw [startReadSendRound] at hs
    split at hs
    · cases hs
      rw [List.map_cons, ih, List.length_cons, List.range_succ_eq_map, List.map_cons, List.map_map]
      congr 1
      · exact (UInt32.add_zero _).symm
      · refine List.map_congr_left fun j _ ↦ ?_
        rw [Function.comp_apply, Nat.succ_eq_add_one, Nat.add_comm, UInt32.ofNat_add,
          ← UInt32.add_assoc]
        rfl
    · cases hs

/-! ## What the pieces are

They cover the range without gaps and overlaps, in ascending order, one for each block that the
range touches. `SplitsRange` is all of this, and it is proved for the lists that the loops give. -/

section Pieces

variable {blocksize endpos realpos : ℕ}

theorem splitBlocks_bufferOffset (hB : 0 < blocksize) {front back : List Chunk} {c : Chunk}
    (h : splitBlocks blocksize realpos endpos = front ++ c :: back) :
    c.bufferOffset = (front.map Chunk.length).sum := by
  have hall := blockLoop_induction endpos hB
    (P := fun _ off cs ↦ ∀ front c back, cs = front ++ c :: back →
      c.bufferOffset = off + (front.map Chunk.length).sum)
    (fun pos off _ front c back h ↦ by simp at h)
    (fun pos off rest _ ih front c back h ↦ by
      cases front with
      | nil =>
        obtain ⟨rfl, -⟩ := List.cons_eq_cons.mp h
        rfl
      | cons d front =>
        obtain ⟨rfl, hrest⟩ := List.cons_eq_cons.mp h
        rw [ih front c back hrest, List.map_cons, List.sum_cons, Nat.add_assoc])
    (endpos - realpos) realpos 0 le_rfl
  rw [hall front c back h, Nat.zero_add]

theorem splitBlocks_sum_length (hB : 0 < blocksize) :
    ((splitBlocks blocksize realpos endpos).map Chunk.length).sum = endpos - realpos := by
  have hall := blockLoop_induction endpos hB
    (P := fun pos _ cs ↦ (cs.map Chunk.length).sum = endpos - pos)
    (fun pos off hend ↦ (Nat.sub_eq_zero_of_le hend).symm)
    (fun pos off rest hpos ih ↦ by
      have hle : (chunkAt blocksize endpos pos off).length ≤ endpos - pos := min_le_left _ _
      rw [List.map_cons, List.sum_cons, ih]
      omega)
    (endpos - realpos) realpos 0 le_rfl
  exact hall

/-- Where a piece starts in the file. -/
def Chunk.start (blocksize : ℕ) (c : Chunk) : ℕ := c.blockid * blocksize + c.offset

/-- **What it means to split a range into blocks.** -/
structure SplitsRange (blocksize position size : ℕ) (cs : List Chunk) : Prop where
  length_pos : ∀ c ∈ cs, 0 < c.length
  fits : ∀ c ∈ cs, c.offset + c.length ≤ blocksize
  /-- Each piece starts where the ones before it end. -/
  consecutive : ∀ front c back, cs = front ++ c :: back →
    c.start blocksize = position + (front.map Chunk.length).sum
  bufferOffset : ∀ front c back, cs = front ++ c :: back →
    c.bufferOffset = (front.map Chunk.length).sum
  total : (cs.map Chunk.length).sum = size
  /-- Every byte of the range is in one piece and no other, and no piece leaves the range. -/
  covers_once : ∀ x, position ≤ x → x < position + size →
    ∃! j : ℕ, ∃ c : Chunk, cs[j]? = some c ∧ c.start blocksize ≤ x ∧
      x < c.start blocksize + c.length
  inside : ∀ c ∈ cs, position ≤ c.start blocksize ∧
    c.start blocksize + c.length ≤ position + size

private theorem Chunk.div_eq_blockid {c : Chunk} {x : ℕ} (hfits : c.offset + c.length ≤ blocksize)
    (hlo : c.start blocksize ≤ x) (hhi : x < c.start blocksize + c.length) :
    x / blocksize = c.blockid := by
  rw [Chunk.start] at hlo hhi
  refine Nat.div_eq_of_lt_le (by omega) ?_
  rw [Nat.add_one_mul]
  omega

private theorem splitBlocks_index_unique (hB : 0 < blocksize) {i j : ℕ} {c d : Chunk}
    (hc : (splitBlocks blocksize realpos endpos)[i]? = some c)
    (hd : (splitBlocks blocksize realpos endpos)[j]? = some d) (h : c.blockid = d.blockid) :
    i = j := by
  have hsorted : (splitBlocks blocksize realpos endpos).Pairwise fun c d ↦ c.blockid < d.blockid :=
    splitBlocks_pairwise hB realpos
  have hpair := List.pairwise_iff_getElem.mp hsorted
  obtain ⟨hi, rfl⟩ := List.getElem?_eq_some_iff.mp hc
  obtain ⟨hj, rfl⟩ := List.getElem?_eq_some_iff.mp hd
  rcases lt_trichotomy i j with hlt | heq | hgt
  · exact absurd h (hpair i j hi hj hlt).ne
  · exact heq
  · exact absurd h.symm (hpair j i hj hi hgt).ne

theorem reads_pairwise {size : UInt32} (hB : 0 < size.toNat) {pieces : List (Piece × UInt32)}
    {reads : List (UInt32 × Piece)} (hreads : reads.map Prod.snd = pieces.map Prod.fst)
    (hmap : pieces.map Piece.chunk = splitBlocks size.toNat realpos endpos) :
    reads.Pairwise fun r r' ↦ r.2.blockid.toNat < r'.2.blockid.toNat := by
  have hblocks : (reads.map fun r ↦ r.2.blockid.toNat)
      = (splitBlocks size.toNat realpos endpos).map Chunk.blockid :=
    map_reads hreads hmap (f := fun p ↦ p.blockid.toNat) fun _ ↦ rfl
  have hsorted : (splitBlocks size.toNat realpos endpos).Pairwise
      fun c d ↦ c.blockid < d.blockid := splitBlocks_pairwise hB realpos
  rw [← List.pairwise_map (R := fun a b : ℕ ↦ a < b), ← hblocks, List.pairwise_map] at hsorted
  exact hsorted

private theorem splitsRange_splitBlocks (hB : 0 < blocksize) (position size : ℕ) :
    SplitsRange blocksize position size (splitBlocks blocksize position (position + size)) where
  length_pos c hc := (within_of_mem hB hc).length_pos
  fits c hc := (within_of_mem hB hc).fits
  consecutive front c back h := by
    have hmem : c ∈ splitBlocks blocksize position (position + size) := by rw [h]; simp
    rw [← splitBlocks_bufferOffset hB h]
    exact (within_of_mem hB hmem).place
  bufferOffset front c back h := splitBlocks_bufferOffset hB h
  total := by rw [splitBlocks_sum_length hB, Nat.add_sub_cancel_left]
  covers_once x hlo hhi := by
    obtain ⟨c, hc, hblock, hstart, hend⟩ := exists_chunk hB hlo hhi
    obtain ⟨j, hj⟩ := List.mem_iff_getElem?.mp hc
    have hdiv := Nat.div_add_mod' x blocksize
    rw [← hblock] at hdiv
    refine ⟨j, ⟨c, hj, ?_, ?_⟩, ?_⟩
    · rw [Chunk.start]; omega
    · rw [Chunk.start]; omega
    · rintro i ⟨d, hi, hlo', hhi'⟩
      have hfits := (within_of_mem hB (List.mem_iff_getElem?.mpr ⟨i, hi⟩)).fits
      exact splitBlocks_index_unique hB hi hj
        ((Chunk.div_eq_blockid hfits hlo' hhi').symm.trans hblock.symm)
  inside c hc := by
    obtain ⟨-, -, hplace, hend⟩ := within_of_mem hB hc
    rw [Chunk.start]
    omega

end Pieces

/-- **The five loops.** For every block size and every range that does not wrap, the loop of a
prepare terminates and splits the range into blocks, and the other four loops terminate and go
through the same pieces: the commit and the replication over the same triples, the first loop of
`start_read` over their offsets and sizes, counting them, and the second over the triples again,
numbering them. -/
theorem blockLoops_split {blocksize position size : UInt32} (hB : 1 ≤ blocksize)
    (hend : position.toNat + size.toNat < 2 ^ 32) :
    ∃ pieces, (∃ t, Emits (start2pcPrepareRound blocksize (position + size)) (position, 0)
        pieces t) ∧
      SplitsRange blocksize.toNat position.toNat size.toNat (pieces.map Piece.chunk) ∧
      (∃ t, Emits (start2pcCommitRound blocksize (position + size)) (position, 0)
        (pieces.map Prod.fst) t) ∧
      (∃ t, Emits (startReplicationRound blocksize (position + size)) (position, 0)
        (pieces.map Prod.fst) t) ∧
      (∃ t, Emits (startReadCountRound blocksize (position + size)) (position, 0)
          (pieces.map fun p ↦ (p.1.offset, p.1.size)) t ∧
        t.2 = Int32.ofNat pieces.length) ∧
      ∃ reads, (∃ t, Emits (startReadSendRound blocksize (position + size)) (position, 0)
          reads t) ∧
        reads.map Prod.snd = pieces.map Prod.fst ∧
        reads.map Prod.fst = (List.range reads.length).map UInt32.ofNat := by
  have hpos : 0 < blocksize.toNat := UInt32.le_iff_toNat_le.mp hB
  have hsum := toNat_endpos hend
  obtain ⟨pieces, t, hprepare, hmap⟩ := emits_start2pcPrepare hpos position (position + size)
  obtain ⟨v, hcount⟩ := emits_startReadCount hprepare
  obtain ⟨reads, w, hsend, hreads⟩ := emits_startReadSend hprepare
  refine ⟨pieces, ⟨t, hprepare⟩, ?_, emits_start2pcCommit hprepare,
    emits_startReplication hprepare, ⟨v, hcount, ?_⟩, reads, ⟨w, hsend⟩, hreads, ?_⟩
  · rw [hmap, hsum]
    exact splitsRange_splitBlocks hpos position.toNat size.toNat
  · rw [resultVectorSize_of_emits hcount, List.length_map]
    exact Int32.zero_add _
  · rw [indices_of_emits hsend]
    exact List.map_congr_left fun j _ ↦ UInt32.zero_add _

theorem blockLoops_split_unaligned :
    (1 : UInt32) ≤ 4 ∧ (5 : UInt32).toNat + (9 : UInt32).toNat < 2 ^ 32 ∧
      ∃ pieces, (∃ t, Emits (start2pcPrepareRound 4 (5 + 9)) (5, 0) pieces t) ∧
        SplitsRange 4 5 9 (pieces.map Piece.chunk) := by
  have hB : (1 : UInt32) ≤ 4 := by decide
  have hend : (5 : UInt32).toNat + (9 : UInt32).toNat < 2 ^ 32 := by decide
  obtain ⟨pieces, hprepare, hsplit, -⟩ := blockLoops_split hB hend
  exact ⟨hB, hend, pieces, hprepare, hsplit⟩

/-! ## The pieces on the wire

The position of a packet has 16 bits, the offset of a piece has 32. Only the first piece of a range
can start inside its block, so this is a matter of where the range starts. -/

theorem splitBlocks_offset {blocksize endpos realpos : ℕ} (hB : 0 < blocksize) {c : Chunk}
    (hc : c ∈ splitBlocks blocksize realpos endpos) :
    c.blockid = realpos / blocksize ∧ c.offset = realpos % blocksize ∨
      realpos / blocksize < c.blockid ∧ c.offset = 0 := by
  have hall := blockLoop_induction endpos hB
    (P := fun pos _ cs ↦ ∀ c ∈ cs, pos < endpos ∧
      (c.blockid = pos / blocksize ∧ c.offset = pos % blocksize ∨
        pos / blocksize < c.blockid ∧ c.offset = 0))
    (fun pos off _ c hc ↦ absurd hc List.not_mem_nil)
    (fun pos off rest hpos ih c hc ↦ by
      refine ⟨hpos, ?_⟩
      rcases List.mem_cons.mp hc with rfl | hc
      · exact Or.inl ⟨rfl, rfl⟩
      · -- the next piece starts where this one ended its block
        obtain ⟨hlt, hoffset⟩ := ih c hc
        rw [add_chunkAt_length hB hlt, Nat.mul_div_cancel _ hB, Nat.mul_mod_left] at hoffset
        refine Or.inr ?_
        rcases hoffset with ⟨hblock, hzero⟩ | ⟨hblock, hzero⟩
        · exact ⟨by omega, hzero⟩
        · exact ⟨by omega, hzero⟩)
    (endpos - realpos) realpos 0 le_rfl
  exact (hall c hc).2

private theorem chunkAt_mem_splitBlocks {blocksize endpos realpos : ℕ} (h : realpos < endpos) :
    chunkAt blocksize endpos realpos 0 ∈ splitBlocks blocksize realpos endpos := by
  obtain ⟨rounds, hrounds⟩ := Nat.exists_eq_add_of_lt h
  have hsub : endpos - realpos = rounds + 1 := by omega
  rw [splitBlocks, hsub, blockLoop, if_pos h]
  exact List.mem_cons_self

private theorem splitBlocks_offset_lt_iff {blocksize : ℕ} (hB : 0 < blocksize) (position size : ℕ) :
    (∀ c ∈ splitBlocks blocksize position (position + size), c.offset < 2 ^ 16) ↔
      size = 0 ∨ position % blocksize < 2 ^ 16 := by
  constructor
  · intro h
    rcases Nat.eq_zero_or_pos size with hzero | hpos
    · exact Or.inl hzero
    · exact Or.inr (h _ (chunkAt_mem_splitBlocks (by omega)))
  · rintro (rfl | h) c hc
    · rw [Nat.add_zero, splitBlocks, Nat.sub_self, blockLoop] at hc
      exact absurd hc List.not_mem_nil
    · rcases splitBlocks_offset hB hc with ⟨-, heq⟩ | ⟨-, heq⟩ <;> rw [heq]
      · exact h
      · exact Nat.two_pow_pos 16

/-- What a server makes of a header: the block, the offset and the length. -/
def received (stream : Buf) : Option (ℕ × ℕ × ℕ) :=
  (PacketHeader.parse stream).map fun r ↦
    (r.1.blockid.toNat, r.1.position.toNat, r.1.datasize.toNat)

/-- The request `start_2pc_prepare` sends for a piece. `bytes` is the memory from `input.data()`
on. -/
def prepareRequest (uuid : Key) (checked : Bool) (version : UInt32) (salt : Salt)
    (bytes : ℕ → UInt8) (p : Piece × UInt32) : Packet :=
  { Packet.createRequest uuid (if checked then .twoPcPrepareQuick else .twoPcPrepare) version
      p.1.blockid.toNat p.1.offset.toNat p.1.size.toNat salt with
    data := (List.range p.1.size.toNat).map fun i ↦ bytes (p.2.toNat + i) }

/-- The request `start_read` sends for a piece. -/
def readRequestOf (uuid : Key) (salt : Salt) (r : UInt32 × Piece) : Packet :=
  Packet.createRequest uuid .get 0 r.2.blockid.toNat r.2.offset.toNat r.2.size.toNat salt

section Wire

variable (uuid : Key) (checked : Bool) (version : UInt32) (bytes : ℕ → UInt8) (rest : Buf)

/-- The piece arrives. -/
def Piece.Survives (p : Piece) (stream : Buf) : Prop :=
  received stream = some (p.blockid.toNat, p.offset.toNat, p.size.toNat)

private theorem survives_dump_iff {p : Piece} {h : PacketHeader} (hid : h.blockid = p.blockid)
    (hpos : h.position = UInt16.ofNat p.offset.toNat) (hsize : h.datasize = p.size) :
    p.Survives (h.dump ++ rest) ↔ p.offset.toNat < 2 ^ 16 := by
  rw [Piece.Survives, received, PacketHeader.parse_dump, Option.map_some, Option.some_inj,
    hid, hpos, hsize, UInt16.toNat_ofNat']
  constructor
  · intro h
    have hmod : p.offset.toNat % 2 ^ 16 = p.offset.toNat := (Prod.mk.inj (Prod.mk.inj h).2).1
    exact hmod ▸ Nat.mod_lt _ (Nat.two_pow_pos 16)
  · intro h
    rw [Nat.mod_eq_of_lt h]

private theorem prepare_survives_iff (salt : Salt) (p : Piece × UInt32) :
    p.1.Survives ((prepareRequest uuid checked version salt bytes p).sealedHeader.dump ++ rest) ↔
      p.1.offset.toNat < 2 ^ 16 :=
  survives_dump_iff rest (by simp [prepareRequest, Packet.sealedHeader, Packet.createRequest]) rfl
    (by simp [prepareRequest, Packet.sealedHeader])

private theorem read_survives_iff (salt : Salt) (r : UInt32 × Piece) :
    r.2.Survives ((readRequestOf uuid salt r).header.dump ++ rest) ↔
      r.2.offset.toNat < 2 ^ 16 :=
  survives_dump_iff rest (by simp [readRequestOf, Packet.createRequest]) rfl
    (by simp [readRequestOf, Packet.createRequest])

/-- **Offsets on the wire.** Whatever the block size, the pieces of a prepare and of a read arrive
with their block, offset and length exactly if the range is empty or starts within the first 64 KiB
of its block. -/
theorem pieces_survive_iff {blocksize position size : UInt32} (hB : 1 ≤ blocksize)
    (hend : position.toNat + size.toNat < 2 ^ 32) (salt : Piece → Salt) :
    ∃ pieces reads,
      (∃ t, Emits (start2pcPrepareRound blocksize (position + size)) (position, 0) pieces t) ∧
      (∃ t, Emits (startReadSendRound blocksize (position + size)) (position, 0) reads t) ∧
      (((∀ p ∈ pieces, p.1.Survives ((prepareRequest uuid checked version (salt p.1) bytes
            p).sealedHeader.dump ++ rest)) ∧
          ∀ r ∈ reads, r.2.Survives ((readRequestOf uuid (salt r.2) r).header.dump ++ rest)) ↔
        size = 0 ∨ position % blocksize < 2 ^ 16) := by
  have hpos : 0 < blocksize.toNat := UInt32.le_iff_toNat_le.mp hB
  have hsum := toNat_endpos hend
  obtain ⟨pieces, t, hprepare, hmap⟩ := emits_start2pcPrepare hpos position (position + size)
  obtain ⟨reads, w, hsend, hreads⟩ := emits_startReadSend hprepare
  refine ⟨pieces, reads, ⟨t, hprepare⟩, ⟨w, hsend⟩, ?_⟩
  have hpieces : (∀ p ∈ pieces, p.1.offset.toNat < 2 ^ 16) ↔
      size = 0 ∨ position % blocksize < 2 ^ 16 := by
    have hchunks := splitBlocks_offset_lt_iff hpos position.toNat size.toNat
    rw [← hsum, ← hmap, List.forall_mem_map] at hchunks
    rw [UInt32.lt_iff_toNat_lt, UInt32.toNat_mod, ← UInt32.toNat_inj]
    exact hchunks
  have hsame : (∀ r ∈ reads, r.2.offset.toNat < 2 ^ 16) ↔
      ∀ p ∈ pieces, p.1.offset.toNat < 2 ^ 16 := by
    have h : (∀ q ∈ reads.map Prod.snd, q.offset.toNat < 2 ^ 16) ↔
        ∀ q ∈ pieces.map Prod.fst, q.offset.toNat < 2 ^ 16 := by rw [hreads]
    rwa [List.forall_mem_map, List.forall_mem_map] at h
  simp only [prepare_survives_iff, read_survives_iff]
  rw [hsame, and_self, hpieces]

end Wire

/-- A read of one byte in the middle of a block of 128 KiB is a read of the first byte. -/
theorem offset_lost :
    Emits (start2pcPrepareRound 131072 (65536 + 1)) (65536, 0) [(⟨0, 65536, 1⟩, 0)] (65537, 1) ∧
      Emits (startReadSendRound 131072 (65536 + 1)) (65536, 0) [(0, ⟨0, 65536, 1⟩)] (65537, 1) ∧
      ¬Piece.Survives ⟨0, 65536, 1⟩ (prepareRequest (.replicate 32 0) false 0 (.replicate 4 0)
        (fun _ ↦ 7) (⟨0, 65536, 1⟩, 0)).sealedHeader.dump ∧
      received (readRequestOf (.replicate 32 0) (.replicate 4 0) (0, ⟨0, 65536, 1⟩)).header.dump
        = some (0, 0, 1) :=
  ⟨.next rfl (.stop rfl), .next rfl (.stop rfl), by
    rw [Piece.Survives]
    decide +kernel, by decide +kernel⟩

theorem pieces_survive_iff_small :
    (1 : UInt32) ≤ 4096 ∧ (5 : UInt32).toNat + (9 : UInt32).toNat < 2 ^ 32 ∧
      ∃ pieces reads,
        (∃ t, Emits (start2pcPrepareRound 4096 (5 + 9)) (5, 0) pieces t) ∧
        (∃ t, Emits (startReadSendRound 4096 (5 + 9)) (5, 0) reads t) ∧
        ∀ p ∈ pieces, p.1.Survives ((prepareRequest (.replicate 32 0) false 0 (.replicate 4 0)
          (fun _ ↦ 7) p).sealedHeader.dump ++ []) := by
  have hB : (1 : UInt32) ≤ 4096 := by decide
  have hend : (5 : UInt32).toNat + (9 : UInt32).toNat < 2 ^ 32 := by decide
  obtain ⟨pieces, reads, hprepare, hread, hiff⟩ := pieces_survive_iff (.replicate 32 0) false 0
    (fun _ ↦ 7) [] hB hend fun _ ↦ .replicate 4 0
  exact ⟨hB, hend, pieces, reads, hprepare, hread, (hiff.mpr (by decide)).1⟩

end Slsfs.Datafunction

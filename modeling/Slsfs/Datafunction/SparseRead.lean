import Mathlib.Algebra.Order.BigOperators.Group.List
import Mathlib.Algebra.Order.Ring.Nat
import Slsfs.Datafunction.BlockSplit
import Slsfs.Datafunction.Storage
import Slsfs.Ssbd.Frame
import Slsfs.Ssbd.ReadBounds

/-!
# Reads of files with holes

The reply of `start_read` is the concatenation of what the servers answer, block by block. A block
that is there answers as many bytes as were asked for, a block that is not there answers none, and
`start_read` does not look at the type of the answer. So behind a hole all bytes of the reply are at
the wrong place. `read_keeps_offsets_iff` says when the reply has every stored byte where it
belongs, for all contents that the stored blocks may have.

Block sizes are not bounded here, so the 16-bit offset of a packet shows too: a read that starts
64 KiB or more into its first block is answered from the wrong place of that block.
-/

namespace Slsfs.Datafunction

open LeveldbPack Ssbd

/-! ## Concatenations

An element of a concatenation is in one of the parts, and at which place of the whole depends on the
lengths of the parts before it. The parts will be the answers for the blocks of a range, which
ascend, so there is one way to say which of them come before a given block. -/

section Flatten

variable {α : Type*}

private theorem exists_split_of_getElem?_flatten {parts : List (List α)} {k : ℕ} {v : α}
    (h : parts.flatten[k]? = some v) :
    ∃ before part after i, parts = before ++ part :: after ∧
      k = before.flatten.length + i ∧ part[i]? = some v := by
  induction parts generalizing k with
  | nil => simp at h
  | cons part parts ih =>
    rw [List.flatten_cons] at h
    by_cases hk : k < part.length
    · rw [List.getElem?_append_left hk] at h
      exact ⟨[], part, parts, k, rfl, (Nat.zero_add k).symm, h⟩
    · rw [List.getElem?_append_right (by omega)] at h
      obtain ⟨before, part', after, i, hsplit, hk', hi⟩ := ih h
      refine ⟨part :: before, part', after, i, by rw [hsplit, List.cons_append], ?_, hi⟩
      rw [List.flatten_cons, List.length_append]
      omega

private theorem getElem?_flatten_split (before : List (List α)) {part : List α}
    (after : List (List α)) {i : ℕ} (hi : i < part.length) :
    (before ++ part :: after).flatten[before.flatten.length + i]? = part[i]? := by
  rw [List.flatten_append, List.getElem?_append_right (Nat.le_add_right _ _),
    Nat.add_sub_cancel_left, List.flatten_cons, List.getElem?_append_left hi]

private theorem split_unique {f : α → ℕ} {l before before' after after' : List α} {a a' : α}
    (hsorted : l.Pairwise fun a b ↦ f a < f b) (h : l = before ++ a :: after)
    (h' : l = before' ++ a' :: after') (ha : f a = f a') : before = before' ∧ a = a' := by
  rw [h] at hsorted h'
  obtain ⟨-, hrest, hcross⟩ := List.pairwise_append.mp hsorted
  rcases List.append_eq_append_iff.mp h' with ⟨mid, hbefore, hmid⟩ | ⟨mid, hbefore, hmid⟩
  · cases mid with
    | nil => exact ⟨by rw [hbefore, List.append_nil], (List.cons_eq_cons.mp hmid).1⟩
    | cons c mid =>
      have hmem : a' ∈ after := by
        rw [(List.cons_eq_cons.mp hmid).2]
        simp
      exact absurd ha ((List.pairwise_cons.mp hrest).1 a' hmem).ne
  · cases mid with
    | nil => exact ⟨by rw [hbefore, List.append_nil], (List.cons_eq_cons.mp hmid).1.symm⟩
    | cons c mid =>
      obtain ⟨rfl, -⟩ := List.cons_eq_cons.mp hmid
      have hmem : a' ∈ before := by
        rw [hbefore]
        simp
      exact absurd ha.symm (hcross a' hmem a List.mem_cons_self).ne

end Flatten

/-! ## What a read is answered with

The answer for a piece is empty if its block is missing. Otherwise it is as long as was asked for,
and starts at the offset cut to 16 bits. -/

section

variable (select : Key → UInt32 → ℕ) (uuid : Key)

/-- The block of a file, on the host that is selected for it. -/
def fileBlock (hosts : Hosts) (b : UInt32) : Option Buf :=
  (hosts (select uuid b)).db (blockKey (uuid, b))

/-- The byte stored at a position of the file. -/
def storedByte (blocksize : ℕ) (hosts : Hosts) (x : ℕ) : Option UInt8 :=
  (fileBlock select uuid hosts (UInt32.ofNat (x / blocksize))).bind (·[x % blocksize]?)

variable (stray : ℕ → UInt8) (salt : UInt32 × Piece → Salt)

/-- The buffer of the answer to one request. -/
def readAnswer (hosts : Hosts) (r : UInt32 × Piece) : Buf :=
  ((hosts (select uuid r.2.blockid)).handle stray (arrived (readRequestOf uuid (salt r) r))).2.data

/-- The reply: the buffers one after the other, whatever the types of the answers. -/
def readReply (hosts : Hosts) (reads : List (UInt32 × Piece)) : Buf :=
  (reads.map (readAnswer select uuid stray salt hosts)).flatten

/-- A missing block answers nothing. One that is there answers all that was asked for, from the
offset that is left of the one asked for in 16 bits. -/
theorem readAnswer_eq (hosts : Hosts) (r : UInt32 × Piece) :
    readAnswer select uuid stray salt hosts r
      = (fileBlock select uuid hosts r.2.blockid).elim []
        (Server.readBuffer stray · (r.2.offset.toNat % 2 ^ 16) r.2.size.toNat) := by
  have hread := readRequest_sent_of_get (p := readRequestOf uuid (salt r) r) rfl []
  rw [List.append_nil] at hread
  rw [readAnswer, arrived_eq hread, Server.handle_get _ _ _ rfl, Server.startDbRead]
  have hkey : (readRequestOf uuid (salt r) r).header.asString = blockKey (uuid, r.2.blockid) := by
    simp [PacketHeader.asString, blockKey, readRequestOf, Packet.createRequest]
  have hsize : (readRequestOf uuid (salt r) r).header.datasize.toNat = r.2.size.toNat := by
    simp [readRequestOf, Packet.createRequest]
  have hpos : (readRequestOf uuid (salt r) r).header.position.toNat
      = r.2.offset.toNat % 2 ^ 16 := by
    rw [readRequestOf, Packet.createRequest, UInt16.toNat_ofNat']
  dsimp only
  rw [hkey, hsize, hpos, fileBlock]
  cases (hosts (select uuid r.2.blockid)).db (blockKey (uuid, r.2.blockid)) with
  | none => rfl
  | some block => rfl

private theorem length_readAnswer (hosts : Hosts) (r : UInt32 × Piece) :
    (readAnswer select uuid stray salt hosts r).length
      = if fileBlock select uuid hosts r.2.blockid = none then 0 else r.2.size.toNat := by
  rw [readAnswer_eq]
  cases fileBlock select uuid hosts r.2.blockid with
  | none => rfl
  | some block => rw [Option.elim_some, Server.readBuffer_length, if_neg (Option.some_ne_none _)]

end

/-! ## The request a byte belongs to

A position of the range is asked for by one request, and those before it in the list are the
requests of the blocks before its block. -/

/-- The block, the offset and the length of a request. -/
def Piece.triple (p : Piece) : ℕ × ℕ × ℕ := (p.blockid.toNat, p.offset.toNat, p.size.toNat)

def Chunk.triple (c : Chunk) : ℕ × ℕ × ℕ := (c.blockid, c.offset, c.length)

/-- The byte at `x` is asked for by the request `r`, and `before` are the requests that come before
it. -/
structure AskedBy (blocksize position : ℕ) (before : List (UInt32 × Piece)) (r : UInt32 × Piece)
    (x : ℕ) : Prop where
  blockid : r.2.blockid.toNat = x / blocksize
  lower : r.2.offset.toNat ≤ x % blocksize
  upper : x % blocksize < r.2.offset.toNat + r.2.size.toNat
  /-- The place of the byte in the range. -/
  place : (before.map (·.2.size.toNat)).sum + (x % blocksize - r.2.offset.toNat) = x - position
  size_pos : ∀ q ∈ before, 0 < q.2.size.toNat
  /-- The requests before it are for the blocks of the range before that of `x`. -/
  before_iff : ∀ b, (∃ q ∈ before, q.2.blockid.toNat = b) ↔
    position / blocksize ≤ b ∧ b < x / blocksize
  offset : x / blocksize = position / blocksize ∧ r.2.offset.toNat = position % blocksize ∨
    position / blocksize < x / blocksize ∧ r.2.offset.toNat = 0

private theorem splitBlocks_front_iff {blocksize position endpos : ℕ} (hB : 0 < blocksize)
    {front back : List Chunk} {c : Chunk}
    (hsplit : splitBlocks blocksize position endpos = front ++ c :: back) (b : ℕ) :
    (∃ d ∈ front, d.blockid = b) ↔ position / blocksize ≤ b ∧ b < c.blockid := by
  have hsorted : (front ++ c :: back).Pairwise fun c d ↦ c.blockid < d.blockid := by
    rw [← hsplit]
    exact splitBlocks_pairwise hB position
  obtain ⟨-, hrest, hfront⟩ := List.pairwise_append.mp hsorted
  constructor
  · rintro ⟨d, hd, rfl⟩
    have hmem : d ∈ splitBlocks blocksize position endpos := by
      rw [hsplit]
      exact List.mem_append_left _ hd
    refine ⟨?_, hfront d hd c List.mem_cons_self⟩
    rcases splitBlocks_offset hB hmem with ⟨heq, -⟩ | ⟨hlt, -⟩
    · exact heq.ge
    · exact hlt.le
  · rintro ⟨hge, hlt⟩
    -- the first byte of the range that is in block `b`
    have hdiv := Nat.div_add_mod' position blocksize
    have hmod := Nat.mod_lt position hB
    have hlower : position / blocksize * blocksize ≤ b * blocksize := Nat.mul_le_mul_right _ hge
    have hupper : (b + 1) * blocksize ≤ c.blockid * blocksize := Nat.mul_le_mul_right _ hlt
    rw [Nat.add_one_mul] at hupper
    have hc := within_of_mem hB (c := c) (by rw [hsplit]; simp)
    have hin : max position (b * blocksize) < endpos := by
      have := hc.place
      have := hc.end_le
      have := hc.length_pos
      omega
    have hb : max position (b * blocksize) / blocksize = b := by
      refine Nat.div_eq_of_lt_le (le_max_right _ _) ?_
      rw [Nat.add_one_mul]
      omega
    obtain ⟨d, hd, hdblock, -⟩ := exists_chunk hB (le_max_left position (b * blocksize)) hin
    rw [hb] at hdblock
    rw [hsplit] at hd
    rcases List.mem_append.mp hd with hd | hd
    · exact ⟨d, hd, hdblock⟩
    · rcases List.mem_cons.mp hd with rfl | hd
      · omega
      · have := (List.pairwise_cons.mp hrest).1 d hd
        omega

private theorem exists_askedBy {blocksize position endpos : ℕ} (hB : 0 < blocksize)
    {reads : List (UInt32 × Piece)}
    (hreads : reads.map (·.2.triple)
      = (splitBlocks blocksize position endpos).map Chunk.triple) {x : ℕ} (hlo : position ≤ x)
    (hhi : x < endpos) :
    ∃ before r after, reads = before ++ r :: after ∧ AskedBy blocksize position before r x := by
  obtain ⟨c, hc, hblock, hlower, hupper⟩ := exists_chunk hB hlo hhi
  obtain ⟨front, back, hsplit⟩ := List.append_of_mem hc
  rw [hsplit, List.map_append, List.map_cons] at hreads
  obtain ⟨before, rest, rfl, hbefore, hrest⟩ := List.map_eq_append_iff.mp hreads
  obtain ⟨r, after, rfl, hr, -⟩ := List.map_eq_cons_iff.mp hrest
  obtain ⟨hrblock, hr'⟩ := Prod.mk.inj hr
  obtain ⟨hroffset, hrsize⟩ := Prod.mk.inj hr'
  have hsum : (before.map (·.2.size.toNat)).sum = (front.map Chunk.length).sum := by
    have h := congrArg (fun l ↦ (l.map fun t : ℕ × ℕ × ℕ ↦ t.2.2).sum) hbefore
    rw [List.map_map, List.map_map] at h
    exact h
  have hplace := (within_of_mem hB hc).place
  rw [splitBlocks_bufferOffset hB hsplit, hblock] at hplace
  have hdiv := Nat.div_add_mod' x blocksize
  refine ⟨before, r, after, rfl, hrblock.trans hblock, by omega, by omega, by omega, ?_, ?_, ?_⟩
  · intro q hq
    have hq' : q.2.triple ∈ front.map Chunk.triple := hbefore ▸ List.mem_map_of_mem hq
    obtain ⟨d, hd, hdq⟩ := List.mem_map.mp hq'
    have hsize : d.length = q.2.size.toNat := (Prod.mk.inj (Prod.mk.inj hdq).2).2
    rw [← hsize]
    exact (within_of_mem hB (by rw [hsplit]; exact List.mem_append_left _ hd)).length_pos
  · intro b
    have hiff : (∃ q ∈ before, q.2.blockid.toNat = b) ↔ ∃ d ∈ front, d.blockid = b := by
      have h : b ∈ (before.map (·.2.triple)).map Prod.fst ↔
          b ∈ (front.map Chunk.triple).map Prod.fst := by rw [hbefore]
      simp only [List.map_map, List.mem_map] at h
      exact h
    rw [hiff, splitBlocks_front_iff hB hsplit, hblock]
  · rw [hroffset, ← hblock]
    exact splitBlocks_offset hB hc

/-! ## Where the byte ends up

The place of a byte in the reply is its place in its own answer, behind all the answers before.
These are as long as they should be exactly if no block before is missing. -/

section

variable (select : Key → UInt32 → ℕ) (uuid : Key) (stray : ℕ → UInt8)
  (salt : UInt32 × Piece → Salt) (hosts : Hosts)

/-- The stored bytes of the range are where they belong. -/
def KeepsOffsets (blocksize position size : ℕ) (reads : List (UInt32 × Piece)) : Prop :=
  ∀ x byte, position ≤ x → x < position + size →
    storedByte select uuid blocksize hosts x = some byte →
    (readReply select uuid stray salt hosts reads)[x - position]? = some byte

variable {select uuid stray salt hosts} {blocksize position : ℕ}
  {before : List (UInt32 × Piece)} {r : UInt32 × Piece} {x : ℕ}

variable (select uuid stray salt hosts) in
/-- What comes before is as long as it should be exactly if no block is missing. -/
theorem length_before_eq_iff (hsize : ∀ q ∈ before, 0 < q.2.size.toNat) :
    (before.map (readAnswer select uuid stray salt hosts)).flatten.length
        = (before.map (·.2.size.toNat)).sum ↔
      ∀ q ∈ before, fileBlock select uuid hosts q.2.blockid ≠ none := by
  have hle : ∀ q ∈ before, (readAnswer select uuid stray salt hosts q).length
      ≤ q.2.size.toNat := by
    intro q _
    rw [length_readAnswer]
    split
    · exact Nat.zero_le _
    · exact le_rfl
  rw [List.length_flatten, List.map_map]
  constructor
  · intro h q hq hnone
    have hlt := List.sum_lt_sum (l := before)
      (fun q ↦ (readAnswer select uuid stray salt hosts q).length) (·.2.size.toNat) hle
      ⟨q, hq, by rw [length_readAnswer, if_pos hnone]; exact hsize q hq⟩
    exact absurd h hlt.ne
  · intro h
    refine congrArg List.sum (List.map_congr_left fun q hq ↦ ?_)
    rw [Function.comp_apply, length_readAnswer, if_neg (h q hq)]

/-- With no hole before it and the offset intact, a stored byte is where it belongs. -/
theorem getElem?_readReply (hasked : AskedBy blocksize position before r x)
    (after : List (UInt32 × Piece)) (hoffset : r.2.offset.toNat < 2 ^ 16)
    (hbefore : ∀ q ∈ before, fileBlock select uuid hosts q.2.blockid ≠ none) {block : Buf}
    (hblock : fileBlock select uuid hosts r.2.blockid = some block) (hlen : block.length < 2 ^ 64)
    (hin : x % blocksize < block.length) :
    (readReply select uuid stray salt hosts (before ++ r :: after))[x - position]?
      = block[x % blocksize]? := by
  have hlower := hasked.lower
  have hupper := hasked.upper
  have hanswer : (readAnswer select uuid stray salt hosts r)[x % blocksize - r.2.offset.toNat]?
      = block[x % blocksize]? := by
    rw [readAnswer_eq, hblock, Option.elim_some, Nat.mod_eq_of_lt hoffset,
      Server.readBuffer_getElem? stray hlen (by omega) (by omega), Nat.add_sub_cancel' hlower]
  have hlength : (readAnswer select uuid stray salt hosts r).length = r.2.size.toNat := by
    rw [length_readAnswer, if_neg (by rw [hblock]; exact Option.some_ne_none _)]
  rw [readReply, List.map_append, List.map_cons, ← hasked.place,
    ← (length_before_eq_iff select uuid stray salt hosts hasked.size_pos).mpr hbefore,
    getElem?_flatten_split _ _ (by omega), hanswer]

/-! ## Contents that tell the bytes apart

For the converse the reply has to show where each byte comes from. `marked` changes the contents:
all bytes are zero but one, which is a one. If the reply then has its one where it belongs, that
byte has come through, since nothing else can put a one there. -/

/-- The same blocks with other contents: zeros, and a one at index `i` of block `id`. -/
def marked (hosts : Hosts) (id : BlockId) (i : ℕ) : Hosts := fun h ↦
  { hosts h with
    db := fun key ↦ ((hosts h).db key).map fun block ↦
      if key = blockKey id then (List.replicate block.length 0).set i 1
      else List.replicate block.length 0 }

private theorem fileBlock_marked (select : Key → UInt32 → ℕ) (uuid : Key) (hosts : Hosts)
    (b b' : UInt32) (i : ℕ) :
    fileBlock select uuid (marked hosts (uuid, b) i) b'
      = (fileBlock select uuid hosts b').map fun block ↦
        if b' = b then (List.replicate block.length 0).set i 1
        else List.replicate block.length 0 := by
  have hkey : blockKey (uuid, b') = blockKey (uuid, b) ↔ b' = b :=
    ⟨fun h ↦ (Prod.mk.inj (blockKey_injective h)).2, fun h ↦ h ▸ rfl⟩
  simp only [fileBlock, marked, hkey]

/-- Two states of a file with the same blocks of the same lengths. -/
def SameLayout (select : Key → UInt32 → ℕ) (uuid : Key) (hosts hosts' : Hosts) : Prop :=
  ∀ b, (fileBlock select uuid hosts' b).map List.length
    = (fileBlock select uuid hosts b).map List.length

private theorem sameLayout_marked (select : Key → UInt32 → ℕ) (uuid : Key) (hosts : Hosts)
    (b : UInt32) (i : ℕ) : SameLayout select uuid hosts (marked hosts (uuid, b) i) := by
  intro b'
  rw [fileBlock_marked]
  cases fileBlock select uuid hosts b' with
  | none => rfl
  | some block =>
    simp only [Option.map_some]
    split
    · rw [List.length_set, List.length_replicate]
    · rw [List.length_replicate]

private theorem getElem?_of_readBuffer_one {block : Buf} {offset size i : ℕ}
    (h : (Server.readBuffer (fun _ ↦ 0) block offset size)[i]? = some 1) :
    block[offset + i]? = some 1 := by
  rw [Server.readBuffer] at h
  cases hread : Server.rawblocksRead block offset size with
  | none =>
    rw [hread, Option.elim_none, List.getElem?_map, Option.map_eq_some_iff] at h
    obtain ⟨_, -, hzero⟩ := h
    exact absurd hzero (by decide)
  | some bytes =>
    rw [hread, Option.elim_some] at h
    rw [Server.rawblocksRead] at hread
    split at hread
    · rw [Option.some_inj] at hread
      have hlen : bytes.length ≤ size := by
        rw [← hread, List.length_take]
        exact (min_le_left _ _).trans (min_le_right _ _)
      rw [getElem?_resize 0 hlen] at h
      split at h
      · rename_i hi
        rw [← hread, List.getElem?_take_of_lt, List.getElem?_drop] at h
        · exact h
        · rw [← hread, List.length_take] at hi
          omega
      · split at h
        · exact absurd (Option.some_inj.mp h) (by decide)
        · cases h
    · cases hread

/-- If the reply has the marked byte at the place of `x`, then it has come through whole. -/
theorem reached_of_marked {reads after : List (UInt32 × Piece)}
    (hsorted : reads.Pairwise fun r r' ↦ r.2.blockid.toNat < r'.2.blockid.toNat)
    (hsplit : reads = before ++ r :: after) (hasked : AskedBy blocksize position before r x)
    (hbyte : (readReply select uuid (fun _ ↦ 0) salt
      (marked hosts (uuid, r.2.blockid) (x % blocksize)) reads)[x - position]? = some 1) :
    (∀ q ∈ before, fileBlock select uuid hosts q.2.blockid ≠ none) ∧
      r.2.offset.toNat < 2 ^ 16 := by
  obtain ⟨parts, part, parts', i, hparts, hplace, hone⟩ := exists_split_of_getElem?_flatten hbyte
  obtain ⟨before', rest, hsplit', rfl, hrest⟩ := List.map_eq_append_iff.mp hparts
  obtain ⟨r', after', rfl, rfl, -⟩ := List.map_eq_cons_iff.mp hrest
  rw [readAnswer_eq, fileBlock_marked] at hone
  cases hfile : fileBlock select uuid hosts r'.2.blockid with
  | none => rw [hfile] at hone; simp at hone
  | some block =>
    rw [hfile, Option.map_some, Option.elim_some] at hone
    have hbyte' := getElem?_of_readBuffer_one hone
    -- only the marked block has a one, and only at the marked place
    have hzero : ∀ k : ℕ, (List.replicate block.length (0 : UInt8))[k]? ≠ some 1 := by
      intro k h
      rw [List.getElem?_replicate] at h
      split at h
      · exact absurd (Option.some_inj.mp h) (by decide)
      · cases h
    split at hbyte'
    · rename_i hblock
      have hindex : x % blocksize = r'.2.offset.toNat % 2 ^ 16 + i := by
        by_contra hne
        rw [List.getElem?_set_ne hne] at hbyte'
        exact hzero _ hbyte'
      obtain ⟨rfl, rfl⟩ := split_unique (f := fun r ↦ r.2.blockid.toNat) hsorted hsplit hsplit'
        (by rw [hblock])
      have hlower := hasked.lower
      have hsum := hasked.place
      rcases hasked.offset with ⟨hsame, -⟩ | ⟨-, hoffset⟩
      · have hnil : before = [] := by
          refine List.eq_nil_iff_forall_not_mem.mpr fun q hq ↦ ?_
          have := (hasked.before_iff q.2.blockid.toNat).mp ⟨q, hq, rfl⟩
          omega
        subst hnil
        rw [List.map_nil, List.sum_nil] at hsum
        rw [List.map_nil, List.flatten_nil, List.length_nil] at hplace
        have hmod := Nat.mod_lt r.2.offset.toNat (Nat.two_pow_pos 16)
        exact ⟨List.forall_mem_nil _, by omega⟩
      · refine ⟨fun q hq hnone ↦ ?_, by omega⟩
        have hwhole := (length_before_eq_iff select uuid (fun _ ↦ 0) salt
          (marked hosts (uuid, r.2.blockid) (x % blocksize)) hasked.size_pos).mp (by omega) q hq
        rw [fileBlock_marked, hnone] at hwhole
        exact hwhole rfl
    · exact absurd hbyte' (hzero _)

end

/-! ## When the reply keeps the offsets

`Intact` is the condition on one byte: no block before its block is missing, and if it is in the
first block then the offset of the read in that block fits into 16 bits. The reply keeps the offsets
for all contents exactly if every stored byte of the range meets it. -/

section

variable {select : Key → UInt32 → ℕ} {uuid : Key} {hosts hosts' : Hosts}

private theorem SameLayout.exists_block (h : SameLayout select uuid hosts hosts') {b : UInt32}
    {block' : Buf} (hblock' : fileBlock select uuid hosts' b = some block') :
    ∃ block, fileBlock select uuid hosts b = some block ∧ block.length = block'.length := by
  have hb := h b
  rw [hblock', Option.map_some] at hb
  exact Option.map_eq_some_iff.mp hb.symm

private theorem SameLayout.ne_none (h : SameLayout select uuid hosts hosts') {b : UInt32}
    (hblock : fileBlock select uuid hosts b ≠ none) : fileBlock select uuid hosts' b ≠ none := by
  intro hnone
  have hb := h b
  rw [hnone, Option.map_none] at hb
  exact hblock (Option.map_eq_none_iff.mp hb.symm)

private theorem storedByte_eq_some_iff {blocksize x : ℕ} {byte : UInt8} :
    storedByte select uuid blocksize hosts x = some byte ↔
      ∃ block, fileBlock select uuid hosts (UInt32.ofNat (x / blocksize)) = some block ∧
        block[x % blocksize]? = some byte := by
  rw [storedByte, Option.bind_eq_some_iff]

variable (select uuid hosts) in
/-- The blocks of the range before that of `x` are there, and if `x` is in the first block then its
offset fits a packet. -/
def Intact (blocksize position x : ℕ) : Prop :=
  (∀ b, position / blocksize ≤ b → b < x / blocksize →
      fileBlock select uuid hosts (UInt32.ofNat b) ≠ none) ∧
    (x / blocksize = position / blocksize → position % blocksize < 2 ^ 16)

private theorem intact_iff {blocksize position x : ℕ} {before : List (UInt32 × Piece)}
    {r : UInt32 × Piece} (hasked : AskedBy blocksize position before r x) :
    Intact select uuid hosts blocksize position x ↔
      (∀ q ∈ before, fileBlock select uuid hosts q.2.blockid ≠ none) ∧
        r.2.offset.toNat < 2 ^ 16 := by
  have hblocks : (∀ b, position / blocksize ≤ b → b < x / blocksize →
        fileBlock select uuid hosts (UInt32.ofNat b) ≠ none) ↔
      ∀ q ∈ before, fileBlock select uuid hosts q.2.blockid ≠ none := by
    constructor
    · intro h q hq
      obtain ⟨hge, hlt⟩ := (hasked.before_iff q.2.blockid.toNat).mp ⟨q, hq, rfl⟩
      have hb := h _ hge hlt
      rwa [UInt32.ofNat_toNat] at hb
    · intro h b hge hlt
      obtain ⟨q, hq, rfl⟩ := (hasked.before_iff b).mpr ⟨hge, hlt⟩
      rw [UInt32.ofNat_toNat]
      exact h q hq
  rw [Intact, hblocks]
  refine and_congr_right fun _ ↦ ?_
  rcases hasked.offset with ⟨hsame, hoffset⟩ | ⟨hlater, hoffset⟩
  · rw [hoffset]
    exact ⟨fun h ↦ h hsame, fun h _ ↦ h⟩
  · exact iff_of_true (fun hsame ↦ absurd hsame hlater.ne') (by omega)

end

theorem exists_reads {blocksize : UInt32} (hB : 0 < blocksize.toNat) (position endpos : UInt32) :
    ∃ reads t, Emits (startReadSendRound blocksize endpos) (position, 0) reads t ∧
      reads.map (·.2.triple)
        = (splitBlocks blocksize.toNat position.toNat endpos.toNat).map Chunk.triple ∧
      reads.Pairwise fun r r' ↦ r.2.blockid.toNat < r'.2.blockid.toNat := by
  obtain ⟨pieces, t, hprepare, hmap⟩ := emits_start2pcPrepare hB position endpos
  obtain ⟨reads, v, hsend, hreads⟩ := emits_startReadSend hprepare
  exact ⟨reads, v, hsend, map_reads hreads hmap (f := Piece.triple) fun _ ↦ rfl,
    reads_pairwise hB hreads hmap⟩

/-- A read that has the servers to itself is answered with this reply. -/
theorem performRead_eq_readReply (cfg : Config) (stray : ℕ → UInt8) (hosts : Hosts)
    {input : ReadRequest} (hne : input.chunks cfg.blocksize ≠ []) :
    ∃ reads t, Emits (startReadSendRound (UInt32.ofNat cfg.blocksize)
        (input.position + input.size)) (input.position, 0) reads t ∧
      performRead cfg stray hosts input = some (readReply
        (fun uuid b ↦ cfg.selectReplica uuid b.toNat 0) input.uuid stray
        (fun _ ↦ List.Vector.replicate 4 0) hosts reads) := by
  have hB : (UInt32.ofNat cfg.blocksize).toNat = cfg.blocksize := by
    have := cfg.blocksize_le
    rw [UInt32.toNat_ofNat', Nat.mod_eq_of_lt (by omega)]
  have hsize : input.size ≠ 0 := fun hzero ↦ hne (ReadRequest.chunks_of_size_zero hzero)
  have hpos : 0 < (UInt32.ofNat cfg.blocksize).toNat := by
    rw [hB]
    exact cfg.blocksize_pos
  obtain ⟨reads, t, hsend, htriples, -⟩ := exists_reads hpos input.position
    (input.position + input.size)
  refine ⟨reads, t, hsend, ?_⟩
  rw [hB] at htriples
  rw [performRead, if_neg hsize, if_neg hne, readReply, ReadRequest.chunks]
  -- both sides are functions of the triples
  have hanswers := congrArg (List.map fun n : ℕ × ℕ × ℕ ↦
    ((hosts (cfg.selectReplica input.uuid n.1 0)).handle stray (arrived (Packet.createRequest
      input.uuid .get 0 n.1 n.2.1 n.2.2 (List.Vector.replicate 4 0)))).2.data) htriples
  rw [List.map_map, List.map_map] at hanswers
  exact congrArg (fun answers ↦ some (List.flatten answers)) hanswers.symm

/-- **Reads of files with holes.** For every block size and every range, the reply has every stored
byte of the range at its place, for all contents that blocks of these lengths may have, exactly if
no block of the range is missing before a stored byte and the offset into the first block fits the
16 bits of a packet, or no stored byte of that block is in the range. -/
theorem read_keeps_offsets_iff {blocksize position size : UInt32} (hB : 1 ≤ blocksize)
    (hend : position.toNat + size.toNat < 2 ^ 32) (select : Key → UInt32 → ℕ) (uuid : Key)
    (salt : UInt32 × Piece → Salt) {hosts : Hosts}
    (hlen : ∀ b block, fileBlock select uuid hosts b = some block → block.length < 2 ^ 64) :
    ∃ reads, (∃ t, Emits (startReadSendRound blocksize (position + size)) (position, 0)
        reads t) ∧
      ((∀ hosts' stray, SameLayout select uuid hosts hosts' →
          KeepsOffsets select uuid stray salt hosts' blocksize.toNat position.toNat size.toNat
            reads) ↔
        ∀ x, position.toNat ≤ x → x < position.toNat + size.toNat →
          storedByte select uuid blocksize.toNat hosts x ≠ none →
          Intact select uuid hosts blocksize.toNat position.toNat x) := by
  have hpos : 0 < blocksize.toNat := UInt32.le_iff_toNat_le.mp hB
  have hsum := toNat_endpos hend
  obtain ⟨reads, t, hsend, htriples, hsorted⟩ := exists_reads hpos position (position + size)
  rw [hsum] at htriples
  refine ⟨reads, ⟨t, hsend⟩, fun h x hlo hhi hstored ↦ ?_, fun h hosts' stray hlayout x byte hlo hhi
    hstored ↦ ?_⟩
  · obtain ⟨before, r, after, hsplit, hasked⟩ := exists_askedBy hpos htriples hlo hhi
    have hid : UInt32.ofNat (x / blocksize.toNat) = r.2.blockid := by
      rw [← hasked.blockid, UInt32.ofNat_toNat]
    obtain ⟨byte, hbyte⟩ := Option.ne_none_iff_exists'.mp hstored
    obtain ⟨block, hblock, hget⟩ := storedByte_eq_some_iff.mp hbyte
    rw [intact_iff hasked]
    refine reached_of_marked hsorted hsplit hasked (h _ _
      (sameLayout_marked select uuid hosts r.2.blockid (x % blocksize.toNat)) x 1 hlo hhi ?_)
    refine storedByte_eq_some_iff.mpr ⟨_, by rw [fileBlock_marked, hblock, Option.map_some], ?_⟩
    rw [if_pos hid, List.getElem?_set_self]
    rw [List.length_replicate]
    exact (List.getElem?_eq_some_iff.mp hget).1
  · obtain ⟨before, r, after, rfl, hasked⟩ := exists_askedBy hpos htriples hlo hhi
    have hid : UInt32.ofNat (x / blocksize.toNat) = r.2.blockid := by
      rw [← hasked.blockid, UInt32.ofNat_toNat]
    obtain ⟨block', hblock', hget⟩ := storedByte_eq_some_iff.mp hstored
    obtain ⟨block, hblock, hlength⟩ := hlayout.exists_block hblock'
    have hin := (List.getElem?_eq_some_iff.mp hget).1
    have hintact := h x hlo hhi (by
      rw [storedByte, hblock, Option.bind_some, List.getElem?_eq_getElem (by omega)]
      exact Option.some_ne_none _)
    obtain ⟨hbefore, hoffset⟩ := (intact_iff hasked).mp hintact
    rw [hid] at hblock' hblock
    rw [getElem?_readReply hasked after hoffset (fun q hq ↦ hlayout.ne_none (hbefore q hq)) hblock'
      (by have := hlen _ _ hblock; omega) hin, hget]

/-- A server on which block 1 of a file has been written and block 0 has not. -/
def holedServer : Server :=
  Server.empty.handleAll (fun _ ↦ 0)
    [{ Packet.createRequest (.replicate 32 0) .twoPcPrepare 1 1 0 4 (.replicate 4 0) with
        data := [1, 2, 3, 4] },
      Packet.createRequest (.replicate 32 0) .twoPcCommitExecute 1 1 0 0 (.replicate 4 0)]

/-- A read of both blocks: the four bytes of block 1 are at the start of the reply, and at their own
place there is nothing. -/
theorem hole_shifts :
    Emits (startReadSendRound 4 (0 + 8)) (0, 0) [(0, ⟨0, 0, 4⟩), (1, ⟨1, 0, 4⟩)] (8, 2) ∧
      storedByte (fun _ _ ↦ 0) (.replicate 32 0) 4 (fun _ ↦ holedServer) 4 = some 1 ∧
      readReply (fun _ _ ↦ 0) (.replicate 32 0) (fun _ ↦ 0) (fun _ ↦ .replicate 4 0)
        (fun _ ↦ holedServer) [(0, ⟨0, 0, 4⟩), (1, ⟨1, 0, 4⟩)] = [1, 2, 3, 4] ∧
      ¬KeepsOffsets (fun _ _ ↦ 0) (.replicate 32 0) (fun _ ↦ 0) (fun _ ↦ .replicate 4 0)
        (fun _ ↦ holedServer) 4 0 8 [(0, ⟨0, 0, 4⟩), (1, ⟨1, 0, 4⟩)] := by
  have hstored : storedByte (fun _ _ ↦ 0) (.replicate 32 0) 4 (fun _ ↦ holedServer) 4
      = some 1 := by decide +kernel
  have hreply : readReply (fun _ _ ↦ 0) (.replicate 32 0) (fun _ ↦ 0) (fun _ ↦ .replicate 4 0)
      (fun _ ↦ holedServer) [(0, ⟨0, 0, 4⟩), (1, ⟨1, 0, 4⟩)] = [1, 2, 3, 4] := by decide +kernel
  refine ⟨.next rfl (.next rfl (.stop rfl)), hstored, hreply, fun h ↦ ?_⟩
  have hbyte := h 4 1 (by decide) (by decide) hstored
  rw [hreply] at hbyte
  cases hbyte

theorem read_keeps_offsets_second_block :
    (∀ b block, fileBlock (fun _ _ ↦ 0) (.replicate 32 0) (fun _ ↦ holedServer) b = some block →
        block.length < 2 ^ 64) ∧
      ∃ reads, (∃ t, Emits (startReadSendRound 4 (4 + 4)) (4, 0) reads t) ∧
        KeepsOffsets (fun _ _ ↦ 0) (.replicate 32 0) (fun _ ↦ 0) (fun _ ↦ .replicate 4 0)
          (fun _ ↦ holedServer) 4 4 4 reads := by
  have hlen : ∀ b block, fileBlock (fun _ _ ↦ 0) (.replicate 32 0) (fun _ ↦ holedServer) b
      = some block → block.length < 2 ^ 64 := by
    intro b block hblock
    by_cases hb : b = 1
    · have hone : fileBlock (fun _ _ ↦ 0) (.replicate 32 0) (fun _ ↦ holedServer) 1
          = some [1, 2, 3, 4] := by decide +kernel
      rw [hb, hone, Option.some_inj] at hblock
      rw [← hblock]
      decide
    · have hother : holedServer.block (.replicate 32 0, b)
          = Server.empty.block (.replicate 32 0, b) :=
        Server.block_handleAll_of_ne _ _ fun pack hpack heq ↦ by
          have hone : (blockId pack).2 = 1 := by
            rcases List.mem_cons.mp hpack with rfl | hpack
            · rfl
            · rcases List.mem_singleton.mp hpack with rfl
              rfl
          exact hb ((congrArg Prod.snd heq).symm.trans hone)
      have hnone : holedServer.db (blockKey (.replicate 32 0, b)) = none :=
        congrArg Block.content hother
      rw [fileBlock, hnone] at hblock
      cases hblock
  refine ⟨hlen, ?_⟩
  obtain ⟨reads, hsend, hiff⟩ := read_keeps_offsets_iff (by decide : (1 : UInt32) ≤ 4)
    (by decide : (4 : UInt32).toNat + (4 : UInt32).toNat < 2 ^ 32) (fun _ _ ↦ 0) (.replicate 32 0)
    (fun _ ↦ .replicate 4 0) hlen
  refine ⟨reads, hsend, hiff.mpr (fun x hlo hhi _ ↦ ⟨fun b hge hlt ↦ ?_, fun _ ↦ by decide⟩) _ _
    fun b ↦ rfl⟩
  have hx : x / 4 = 1 := by
    have : (4 : UInt32).toNat = 4 := rfl
    omega
  have : (4 : UInt32).toNat / (4 : UInt32).toNat = 1 := rfl
  have : x / (4 : UInt32).toNat = x / 4 := rfl
  omega

end Slsfs.Datafunction

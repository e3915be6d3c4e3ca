import Mathlib.Algebra.GroupWithZero.Nat
import Mathlib.Data.List.Basic
import Mathlib.Order.Nat
import Mathlib.Tactic.Common

/-!
# Splitting a byte range into blocks

`storage_conf_ssbd_backend` walks over a byte range block by block in four places: to prepare, to
commit, to replicate and to read. All four loops compute the same three numbers in each round, so
the walk is one definition, `splitBlocks`, and each of the four maps its own packets over it.

The loop is by recursion on a bound for the number of rounds. Every round advances by at least one
byte, so the length of the range is bound enough, and `blockLoop_induction` is the induction that
remains once the bound is out of sight.
-/

namespace Slsfs.Datafunction

/-! ## The walk

`endpos` is a sum of 32-bit numbers. For a range that does not wrap around it is the sum itself. -/

theorem toNat_endpos {realpos size : UInt32} (h : realpos.toNat + size.toNat < 2 ^ 32) :
    (realpos + size).toNat = realpos.toNat + size.toNat := by
  rw [UInt32.toNat_add, Nat.mod_eq_of_lt h]

/-- One round of the loop: the piece of the range that lies in block `blockid`. -/
structure Chunk where
  blockid : ℕ
  /-- Where the piece starts within its block. -/
  offset : ℕ
  length : ℕ
  /-- Where the piece starts within the buffer, `buffer_pointer_offset`. -/
  bufferOffset : ℕ
  deriving DecidableEq, Repr

/-- The piece at `currentpos`: up to the end of the range or of the block, whichever is nearer. -/
def chunkAt (blocksize endpos currentpos bufferOffset : ℕ) : Chunk where
  blockid := currentpos / blocksize
  offset := currentpos % blocksize
  length := min (endpos - currentpos) (blocksize - currentpos % blocksize)
  bufferOffset

def blockLoop (blocksize endpos : ℕ) : ℕ → ℕ → ℕ → List Chunk
  | 0, _, _ => []
  | rounds + 1, currentpos, bufferOffset =>
    if currentpos < endpos then
      let c := chunkAt blocksize endpos currentpos bufferOffset
      c :: blockLoop blocksize endpos rounds (currentpos + c.length) (bufferOffset + c.length)
    else []

/-- The pieces of `[realpos, endpos)` in the order of the loop. -/
def splitBlocks (blocksize realpos endpos : ℕ) : List Chunk :=
  blockLoop blocksize endpos (endpos - realpos) realpos 0

variable {blocksize endpos : ℕ}

theorem chunkAt_length_pos (hB : 0 < blocksize) {pos off : ℕ} (hpos : pos < endpos) :
    0 < (chunkAt blocksize endpos pos off).length := by
  have hmod := Nat.mod_lt pos hB
  simp only [chunkAt]
  omega

variable (endpos) in
/-- Induction along the loop: what holds of the end of the range, and is passed on from the rest of
the pieces to all of them, holds of the pieces from any position. -/
theorem blockLoop_induction (hB : 0 < blocksize) {P : ℕ → ℕ → List Chunk → Prop}
    (hdone : ∀ pos off, endpos ≤ pos → P pos off [])
    (hround : ∀ pos off rest, pos < endpos →
      P (pos + (chunkAt blocksize endpos pos off).length)
        (off + (chunkAt blocksize endpos pos off).length) rest →
      P pos off (chunkAt blocksize endpos pos off :: rest)) :
    ∀ rounds pos off, endpos - pos ≤ rounds → P pos off (blockLoop blocksize endpos rounds pos off)
  | 0, pos, off, h => hdone pos off (by omega)
  | rounds + 1, pos, off, h => by
    rw [blockLoop]
    by_cases hpos : pos < endpos
    · have hlen : 0 < (chunkAt blocksize endpos pos off).length := chunkAt_length_pos hB hpos
      rw [if_pos hpos]
      exact hround pos off _ hpos (blockLoop_induction hB hdone hround rounds _ _ (by omega))
    · rw [if_neg hpos]
      exact hdone pos off (by omega)

/-! ## The pieces

A piece is inside its block and inside the range (`Chunk.Within`), and its place in the file is that
of its bytes in the buffer. The pieces are in ascending order of their blocks and fill the range, so
buffers of their lengths, one after the other, make a buffer for the range (`flatten_pieces`). -/

/-- What each piece of `[realpos, endpos)` satisfies. -/
structure Chunk.Within (blocksize realpos endpos : ℕ) (c : Chunk) : Prop where
  length_pos : 0 < c.length
  fits : c.offset + c.length ≤ blocksize
  /-- The piece is where its block and offset say, counted from the start of the buffer. -/
  place : c.blockid * blocksize + c.offset = realpos + c.bufferOffset
  end_le : realpos + c.bufferOffset + c.length ≤ endpos

private theorem chunkAt_within (hB : 0 < blocksize) {realpos pos off : ℕ}
    (hoff : pos = realpos + off) (hpos : pos < endpos) :
    (chunkAt blocksize endpos pos off).Within blocksize realpos endpos := by
  have hmod := Nat.mod_lt pos hB
  have hdiv := Nat.div_add_mod' pos blocksize
  refine ⟨chunkAt_length_pos hB hpos, ?_, ?_, ?_⟩ <;> simp only [chunkAt] <;> omega

theorem within_of_mem (hB : 0 < blocksize) {realpos : ℕ} {c : Chunk}
    (hc : c ∈ splitBlocks blocksize realpos endpos) : c.Within blocksize realpos endpos := by
  have hall := blockLoop_induction endpos hB
    (P := fun pos off cs ↦ pos = realpos + off → ∀ c ∈ cs, c.Within blocksize realpos endpos)
    (fun pos off _ _ c hc ↦ absurd hc List.not_mem_nil)
    (fun pos off rest hpos ih hoff c hc ↦ by
      rcases List.mem_cons.mp hc with rfl | hc
      · exact chunkAt_within hB hoff hpos
      · exact ih (by omega) c hc)
    (endpos - realpos) realpos 0 le_rfl
  exact hall rfl c hc

theorem add_chunkAt_length (hB : 0 < blocksize) {pos off : ℕ}
    (h : pos + (chunkAt blocksize endpos pos off).length < endpos) :
    pos + (chunkAt blocksize endpos pos off).length = (pos / blocksize + 1) * blocksize := by
  have hmod := Nat.mod_lt pos hB
  have hdiv := Nat.div_add_mod' pos blocksize
  simp only [chunkAt] at h ⊢
  rw [Nat.add_one_mul]
  omega

private theorem chunkAt_next_block (hB : 0 < blocksize) {pos off : ℕ} :
    pos + (chunkAt blocksize endpos pos off).length < endpos →
      pos / blocksize < (pos + (chunkAt blocksize endpos pos off).length) / blocksize := by
  intro h
  rw [add_chunkAt_length hB h, Nat.mul_div_cancel _ hB]
  exact Nat.lt_succ_self _

/-- The blocks are visited in ascending order, so no block is visited twice. -/
theorem splitBlocks_pairwise (hB : 0 < blocksize) (realpos : ℕ) :
    (splitBlocks blocksize realpos endpos).Pairwise fun c d ↦ c.blockid < d.blockid := by
  have hall := blockLoop_induction endpos hB
    (P := fun pos _ cs ↦ (∀ c ∈ cs, pos < endpos ∧ pos / blocksize ≤ c.blockid) ∧
      cs.Pairwise fun c d ↦ c.blockid < d.blockid)
    (fun pos off _ ↦ ⟨fun c hc ↦ absurd hc List.not_mem_nil, List.Pairwise.nil⟩)
    (fun pos off rest hpos ih ↦ by
      have hrest : ∀ c ∈ rest, pos / blocksize < c.blockid := fun c hc ↦
        (chunkAt_next_block hB (ih.1 c hc).1).trans_le (ih.1 c hc).2
      refine ⟨fun c hc ↦ ⟨hpos, ?_⟩, List.pairwise_cons.mpr ⟨hrest, ih.2⟩⟩
      rcases List.mem_cons.mp hc with rfl | hc
      · exact le_rfl
      · exact (hrest c hc).le)
    (endpos - realpos) realpos 0 le_rfl
  exact hall.2

/-- Every position of the range lies in one of the pieces. -/
theorem exists_chunk (hB : 0 < blocksize) {realpos x : ℕ} (hlo : realpos ≤ x) (hhi : x < endpos) :
    ∃ c ∈ splitBlocks blocksize realpos endpos,
      c.blockid = x / blocksize ∧ c.offset ≤ x % blocksize ∧
        x % blocksize < c.offset + c.length := by
  have hall := blockLoop_induction endpos hB
    (P := fun pos _ cs ↦ pos ≤ x → ∃ c ∈ cs, c.blockid = x / blocksize ∧
      c.offset ≤ x % blocksize ∧ x % blocksize < c.offset + c.length)
    (fun pos off hend hle ↦ by omega)
    (fun pos off rest hpos ih hle ↦ by
      by_cases hx : x < pos + (chunkAt blocksize endpos pos off).length
      · -- `x` is in this piece, hence in the block of `pos`
        have hmod := Nat.mod_lt pos hB
        have hdiv := Nat.div_add_mod' pos blocksize
        have hsplit : x = (pos % blocksize + (x - pos)) + (pos / blocksize) * blocksize := by omega
        have hsmall : pos % blocksize + (x - pos) < blocksize := by
          simp only [chunkAt] at hx
          omega
        have hxdiv : x / blocksize = pos / blocksize := by
          rw [hsplit, Nat.add_mul_div_right _ _ hB, Nat.div_eq_of_lt hsmall, Nat.zero_add]
        have hxmod : x % blocksize = pos % blocksize + (x - pos) := by
          rw [hsplit, Nat.add_mul_mod_self_right, Nat.mod_eq_of_lt hsmall]
          omega
        refine ⟨_, List.mem_cons_self, hxdiv.symm, ?_, ?_⟩
        · rw [hxmod]; simp only [chunkAt]; omega
        · rw [hxmod]; simp only [chunkAt] at hx ⊢; omega
      · obtain ⟨c, hc, hspec⟩ := ih (by omega)
        exact ⟨c, List.mem_cons_of_mem _ hc, hspec⟩)
    (endpos - realpos) realpos 0 le_rfl
  exact hall hlo

theorem mem_map_blockid_iff (hB : 0 < blocksize) {realpos b : ℕ} :
    b ∈ (splitBlocks blocksize realpos endpos).map Chunk.blockid ↔
      ∃ x, realpos ≤ x ∧ x < endpos ∧ x / blocksize = b := by
  rw [List.mem_map]
  constructor
  · rintro ⟨c, hc, rfl⟩
    obtain ⟨hpos, hfits, hplace, hend⟩ := within_of_mem hB hc
    refine ⟨realpos + c.bufferOffset, Nat.le_add_right _ _, by omega, ?_⟩
    rw [← hplace, Nat.mul_comm, Nat.mul_add_div hB, Nat.div_eq_of_lt (by omega), Nat.add_zero]
  · rintro ⟨x, hlo, hhi, rfl⟩
    obtain ⟨c, hc, hblock, -⟩ := exists_chunk hB hlo hhi
    exact ⟨c, hc, hblock⟩

/-- Putting the pieces of a range back together: buffers of the lengths of the pieces, joined, are
as long as the range, and each lies where its piece says. -/
theorem flatten_pieces {α : Type*} (hB : 0 < blocksize) (realpos : ℕ) {bufs : List (List α)}
    (h : List.Forall₂ (fun c buf ↦ List.length buf = Chunk.length c)
      (splitBlocks blocksize realpos endpos) bufs) :
    bufs.flatten.length = endpos - realpos ∧
      ∀ (j : ℕ) (c : Chunk) (buf : List α) (i : ℕ),
        (splitBlocks blocksize realpos endpos)[j]? = some c → bufs[j]? = some buf →
        i < c.length → bufs.flatten[c.bufferOffset + i]? = buf[i]? := by
  have hall := blockLoop_induction endpos hB
    (P := fun pos off cs ↦ ∀ bufs : List (List α),
      List.Forall₂ (fun c buf ↦ List.length buf = Chunk.length c) cs bufs →
      bufs.flatten.length = endpos - pos ∧ ∀ (j : ℕ) (c : Chunk) (buf : List α) (i : ℕ),
        cs[j]? = some c → bufs[j]? = some buf → i < c.length → off ≤ c.bufferOffset ∧
          bufs.flatten[c.bufferOffset - off + i]? = buf[i]?)
    (fun pos off hend bufs hbufs ↦ by
      cases hbufs
      exact ⟨(Nat.sub_eq_zero_of_le hend).symm, fun j c buf i hc ↦ by
        rw [List.getElem?_nil] at hc; cases hc⟩)
    (fun pos off rest hpos ih bufs hbufs ↦ by
      cases hbufs
      rename_i buf bufs' hlen hrest
      obtain ⟨hflat, hget⟩ := ih bufs' hrest
      have hle : (chunkAt blocksize endpos pos off).length ≤ endpos - pos := by
        simp only [chunkAt]; omega
      have hoff : (chunkAt blocksize endpos pos off).bufferOffset = off := rfl
      rw [List.flatten_cons]
      refine ⟨by rw [List.length_append, hflat, hlen]; omega, ?_⟩
      intro j c b i hc hb hi
      cases j with
      | zero =>
        rw [List.getElem?_cons_zero, Option.some_inj] at hc hb
        subst hc hb
        rw [hoff, Nat.sub_self, Nat.zero_add, List.getElem?_append_left (by omega)]
        exact ⟨le_rfl, rfl⟩
      | succ j =>
        rw [List.getElem?_cons_succ] at hc hb
        obtain ⟨hge, heq⟩ := hget j c b i hc hb hi
        refine ⟨by omega, ?_⟩
        rw [List.getElem?_append_right (by omega), ← heq]
        congr 1
        omega)
    (endpos - realpos) realpos 0 le_rfl bufs h
  refine ⟨hall.1, fun j c buf i hc hb hi ↦ ?_⟩
  have := (hall.2 j c buf i hc hb hi).2
  rwa [Nat.sub_zero] at this

theorem splitBlocks_ne_nil (hB : 0 < blocksize) {realpos : ℕ} (h : realpos < endpos) :
    splitBlocks blocksize realpos endpos ≠ [] := by
  obtain ⟨c, hc, -⟩ := exists_chunk hB (le_refl realpos) h
  exact List.ne_nil_of_mem hc

end Slsfs.Datafunction

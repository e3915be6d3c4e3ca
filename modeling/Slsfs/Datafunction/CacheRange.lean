import Slsfs.Datafunction.CacheFreshness

/-!
# What a hit returns after one fill

Blocks are keyed by `position / 4096`, but cut from the data at multiples of 4096 counted from its
start, and a hit returns blocks whole. So after one fill a read gets the bytes of the data from a
multiple of 4096 on, up to the end of a block or of the data, wherever in the first block it
starts and however few bytes it asks for.
-/

namespace Slsfs.Datafunction

open LeveldbPack

namespace FileRequest

def uuid : FileRequest → Key
  | .read input => input.uuid
  | .write input => input.uuid

def position : FileRequest → UInt32
  | .read input => input.position
  | .write input => input.position

/-- The bytes the request hands to the cache. -/
def filled {σ : Type*} (backend : Backend σ) (b : σ) : FileRequest → Buf
  | .read input => backend.performRead b input
  | .write input => input.data

end FileRequest

/-- `buf` is what `data`, placed at `position`, puts in the range of the read. -/
def Exact (position : UInt32) (data : Buf) (input : ReadRequest) (buf : Buf) : Prop :=
  buf.length = input.size.toNat ∧ ∀ i < input.size.toNat,
    position.toNat ≤ input.position.toNat + i ∧
    input.position.toNat + i < position.toNat + data.length ∧
    buf[i]? = data[input.position.toNat + i - position.toNat]?

/-- Where the first block of the read was cut from the data. -/
def firstCut (position : UInt32) (input : ReadRequest) : ℕ :=
  4096 * (input.position.toNat / 4096 - position.toNat / 4096)

/-- The read ends below 2^32 and lies in the range of the data, it is for whole blocks or up to the
end of the data, and the data has the same bytes where it is read as where it was cut. -/
def Cut (position : UInt32) (data : Buf) (input : ReadRequest) : Prop :=
  position.toNat ≤ input.position.toNat ∧
  input.position.toNat + input.size.toNat ≤ position.toNat + data.length ∧
  input.position.toNat + input.size.toNat < 2 ^ 32 ∧
  firstCut position input + input.size.toNat ≤ data.length ∧
  (input.size.toNat % 4096 = 0 ∨ firstCut position input + input.size.toNat = data.length) ∧
  (data.drop (firstCut position input)).take input.size.toNat
    = (data.drop (input.position.toNat - position.toNat)).take input.size.toNat

instance (position : UInt32) (data : Buf) (input : ReadRequest) :
    Decidable (Cut position data input) :=
  inferInstanceAs (Decidable (_ ∧ _ ∧ _ ∧ _ ∧ (_ ∨ _) ∧ _))

/-! ## What a hit returns

A fill with one request leaves the blocks of that request in an empty cache, and nothing else. A hit
finds all the blocks it needs among them, and puts them together: this is a part of the data from
one of its cuts on, and as long as the blocks of the hit. -/

private theorem flatten_windows {α : Type*} (l : List α) (blocksize first m : ℕ) :
    ((List.range m).map fun k ↦ (l.drop (blocksize * (first + k))).take blocksize).flatten
      = (l.drop (blocksize * first)).take (blocksize * m) := by
  induction m with
  | zero => rw [List.range_zero, Nat.mul_zero, List.take_zero]; rfl
  | succ m ih =>
    rw [List.range_succ, List.map_append, List.flatten_append, ih, List.map_singleton,
      List.flatten_singleton, Nat.mul_succ, List.take_add, List.drop_drop, Nat.mul_add]

section

variable {σ : Type*} {backend : Backend σ} {cachesize : UInt32} {policy : EvictionPolicy} {b : σ}
  {fill : FileRequest} {s : Storage σ}

private theorem lookup_fill
    (hfill : performStep backend ⟨Cache.empty cachesize policy, b⟩ fill = some s)
    {key : Key} {blockId : UInt32} {buf : Buf}
    (hbuf : s.cache.cachingMap.lookup₂ key blockId = some buf) :
    ∃ k, blockId.toNat = fill.position.toNat / 4096 + k ∧
      buf = ((fill.filled backend b).drop (4096 * k)).take 4096 := by
  have hempty : ∀ {key : Key} {blockId : UInt32} {buf : Buf},
      (Cache.empty cachesize policy).cachingMap.lookup₂ key blockId ≠ some buf :=
    fun h ↦ nomatch h
  have hfilled : ∀ {data : Buf} {position size : UInt32} {uuid : Key} {c : Cache},
      data.length = size.toNat →
      (Cache.empty cachesize policy).writeToCache position size data uuid = some c →
      c.cachingMap.lookup₂ key blockId = some buf →
        ∃ k, blockId.toNat = position.toNat / 4096 + k ∧
          buf = (data.drop (4096 * k)).take 4096 := by
    intro data position size uuid c hdata hwrite hlookup
    rcases Cache.lookup_writeToCache hwrite hlookup with hold | ⟨-, ⟨ids, hids, hmem⟩, rfl⟩
    · exact absurd hold hempty
    · obtain ⟨k, hid, -, heq⟩ := Cache.added_block hdata hids hmem
      exact ⟨k, hid, heq⟩
  obtain ⟨w, c, rfl, hwrite, rfl⟩ | ⟨r, hit, c, rfl, hhit, -⟩ |
    ⟨r, c₁, c, rfl, hmiss, hwrite, rfl⟩ := performStep_cases hfill
  · exact hfilled (toNat_size_write w).symm hwrite hbuf
  · cases hhit
  · cases hmiss
    have hdata : (backend.performRead b r).length = r.size.toNat := by
      rw [backend.performRead_eq, List.length_map, List.length_range]
    exact hfilled hdata hwrite hbuf

/-- **What a hit is made of.** -/
theorem hit_after_fill
    (hfill : performStep backend ⟨Cache.empty cachesize policy, b⟩ fill = some s)
    {input : ReadRequest} {buf : Buf} {c : Cache}
    (hhit : s.cache.readFromCache input = some (some buf, c)) :
    buf = ((fill.filled backend b).drop (firstCut fill.position input)).take
      (4096 * Cache.rounds input.position (input.position + input.size)) := by
  obtain ⟨ids, hids, hall, rfl⟩ := Cache.readFromCache_hit hhit
  have heach : ∀ j < Cache.rounds input.position (input.position + input.size),
      ∃ k, input.position.toNat / 4096 + j = fill.position.toNat / 4096 + k ∧
        s.cache.cachingMap.lookup₂ input.uuid (UInt32.ofNat (input.position.toNat / 4096 + j))
          = some (((fill.filled backend b).drop (4096 * k)).take 4096) := by
    intro j hj
    rw [Cache.getBlockIds_eq_some hids] at hall
    obtain ⟨block, hblock⟩ := Option.isSome_iff_exists.mp
      (hall _ (List.mem_map_of_mem (List.mem_range.mpr hj)))
    obtain ⟨k, hid, rfl⟩ := lookup_fill hfill hblock
    rw [Cache.toNat_idsFrom hj] at hid
    exact ⟨k, hid, hblock⟩
  rw [Cache.getBlockIds_eq_some hids, Cache.idsFrom, firstCut, ← flatten_windows, List.map_map]
  refine congrArg List.flatten (List.map_congr_left fun j hj ↦ ?_)
  rw [List.mem_range] at hj
  -- the first block of the read is cached, so the read does not start in a block before the data
  obtain ⟨first, hfirst, -⟩ := heach 0 (by omega)
  obtain ⟨k, hk, hblock⟩ := heach j hj
  rw [Function.comp_apply, hblock, Option.getD_some,
    show k = input.position.toNat / 4096 - fill.position.toNat / 4096 + j by omega]

/-! ## When these are the right bytes

The part starts where the read does if the read is at one of the cuts, and ends where it does if the
read is a number of whole blocks or goes up to the end of the data. If it starts elsewhere, the
bytes may still happen to be the same, which is the last condition of `Cut`. -/

private theorem rounds_of_fits {input : ReadRequest}
    (hfits : input.position.toNat + input.size.toNat < 2 ^ 32) :
    Cache.rounds input.position (input.position + input.size)
      = (input.size.toNat + 4095) / 4096 := by
  rw [Cache.rounds, UInt32.toNat_add, Nat.mod_eq_of_lt hfits, Nat.add_sub_cancel_left]

private theorem rounds_of_wraps {input : ReadRequest}
    (hwraps : ¬ input.position.toNat + input.size.toNat < 2 ^ 32) :
    Cache.rounds input.position (input.position + input.size) = 0 := by
  have := input.position.toNat_lt
  have := input.size.toNat_lt
  rw [Cache.rounds, UInt32.toNat_add]
  omega

private theorem exact_take_iff {position : UInt32} {data : Buf} {input : ReadRequest} {cut : ℕ}
    (hpos : 0 < input.size.toNat) (hcut : cut + input.size.toNat ≤ data.length) :
    Exact position data input ((data.drop cut).take input.size.toNat) ↔
      position.toNat ≤ input.position.toNat ∧
      input.position.toNat + input.size.toNat ≤ position.toNat + data.length ∧
      (data.drop cut).take input.size.toNat
        = (data.drop (input.position.toNat - position.toNat)).take input.size.toNat := by
  have hlen : ((data.drop cut).take input.size.toNat).length = input.size.toNat := by
    rw [List.length_take, List.length_drop]
    omega
  constructor
  · rintro ⟨-, h⟩
    have hlo := (h 0 hpos).1
    have hhi := (h (input.size.toNat - 1) (by omega)).2.1
    refine ⟨by omega, by omega, List.ext_getElem? fun i ↦ ?_⟩
    by_cases hi : i < input.size.toNat
    · rw [(h i hi).2.2, List.getElem?_take_of_lt hi, List.getElem?_drop]
      congr 1
      omega
    · rw [List.getElem?_eq_none (by omega), List.getElem?_eq_none]
      rw [List.length_take]
      omega
  · rintro ⟨hlo, hhi, heq⟩
    refine ⟨hlen, fun i hi ↦ ⟨by omega, by omega, ?_⟩⟩
    rw [heq, List.getElem?_take_of_lt hi, List.getElem?_drop]
    congr 1
    omega

/-- **When a hit is exact.** After one fill, a hit returns exactly the bytes of the range of the
read if it asks for none, or if it is cut as the fill was. -/
theorem hit_exact_iff
    (hfill : performStep backend ⟨Cache.empty cachesize policy, b⟩ fill = some s)
    {input : ReadRequest} {buf : Buf} {c : Cache}
    (hhit : s.cache.readFromCache input = some (some buf, c)) :
    Exact fill.position (fill.filled backend b) input buf ↔
      input.size = 0 ∨ Cut fill.position (fill.filled backend b) input := by
  have hbuf := hit_after_fill hfill hhit
  generalize fill.filled backend b = data at hbuf ⊢
  rw [← UInt32.toNat_inj, UInt32.toNat_zero, Cut]
  by_cases hzero : input.size.toNat = 0
  · refine iff_of_true ⟨?_, fun i hi ↦ absurd hi (by omega)⟩ (.inl hzero)
    have hrounds : Cache.rounds input.position (input.position + input.size) = 0 := by
      by_cases hfits : input.position.toNat + input.size.toNat < 2 ^ 32
      · rw [rounds_of_fits hfits]
        omega
      · exact rounds_of_wraps hfits
    rw [hbuf, hrounds, hzero]
    rfl
  have hpos : 0 < input.size.toNat := Nat.pos_of_ne_zero hzero
  by_cases hfits : input.position.toNat + input.size.toNat < 2 ^ 32
  · rw [rounds_of_fits hfits] at hbuf
    generalize firstCut fill.position input = cut at hbuf ⊢
    by_cases hcut : cut + input.size.toNat ≤ data.length ∧
        (input.size.toNat % 4096 = 0 ∨ cut + input.size.toNat = data.length)
    · have htake : buf = (data.drop cut).take input.size.toNat := by
        rw [hbuf, List.take_eq_take_iff, List.length_drop]
        omega
      rw [htake, exact_take_iff hpos hcut.1]
      constructor
      · rintro ⟨hlo, hhi, heq⟩
        exact .inr ⟨hlo, hhi, hfits, hcut.1, hcut.2, heq⟩
      · rintro (h | ⟨hlo, hhi, -, -, -, heq⟩)
        · exact absurd h hzero
        · exact ⟨hlo, hhi, heq⟩
    · -- the blocks have another length than the read
      refine iff_of_false ?_ ?_
      · rintro ⟨hlen, -⟩
        rw [hbuf, List.length_take, List.length_drop] at hlen
        omega
      · rintro (h | ⟨-, -, -, hle, hend, -⟩)
        · exact hzero h
        · exact hcut ⟨hle, hend⟩
  · refine iff_of_false ?_ ?_
    · rintro ⟨hlen, -⟩
      rw [hbuf, rounds_of_wraps hfits] at hlen
      exact hzero hlen.symm
    · rintro (h | ⟨-, -, hlt, -⟩)
      · exact hzero h
      · exact hfits hlt

end

/-! ## Two reads

Both follow a write of two bytes. The first one asks for all of it, the second one for the second
byte. -/

/-- Two bytes at the start of a file. -/
def startBytes : WriteRequest := ⟨List.Vector.replicate 32 0, 0, [7, 8], by decide⟩

/-- The two bytes read back. -/
theorem hit_exact_both :
    ∃ s buf c, performStep Backend.memory ⟨Cache.empty 8192 .lru, fun _ _ ↦ 0⟩ (.write startBytes)
        = some s ∧
      s.cache.readFromCache ⟨startBytes.uuid, 0, 2⟩ = some (some buf, c) ∧
      Exact 0 startBytes.data ⟨startBytes.uuid, 0, 2⟩ buf := by
  obtain ⟨s, hs⟩ := Option.isSome_iff_exists.mp (show (performStep Backend.memory
    ⟨Cache.empty 8192 .lru, fun _ _ ↦ 0⟩ (.write startBytes)).isSome by decide +kernel)
  have hall : ∀ s ∈ performStep Backend.memory ⟨Cache.empty 8192 .lru, fun _ _ ↦ 0⟩
      (.write startBytes),
      (s.cache.readFromCache ⟨startBytes.uuid, 0, 2⟩).map Prod.fst = some (some [7, 8]) := by
    decide +kernel
  obtain ⟨⟨_, c⟩, hhit, rfl⟩ := Option.map_eq_some_iff.mp (hall s hs)
  exact ⟨s, _, c, hs, hhit, (hit_exact_iff hs hhit).mpr (.inr (by decide +kernel))⟩

/-- **A read of the second byte gets both.** -/
theorem hit_of_wrong_range :
    ∃ s c, performStep Backend.memory ⟨Cache.empty 8192 .lru, fun _ _ ↦ 0⟩ (.write startBytes)
        = some s ∧
      s.cache.readFromCache ⟨startBytes.uuid, 1, 1⟩ = some (some [7, 8], c) ∧
      ¬ Exact 0 startBytes.data ⟨startBytes.uuid, 1, 1⟩ [7, 8] := by
  obtain ⟨s, hs⟩ := Option.isSome_iff_exists.mp (show (performStep Backend.memory
    ⟨Cache.empty 8192 .lru, fun _ _ ↦ 0⟩ (.write startBytes)).isSome by decide +kernel)
  have hall : ∀ s ∈ performStep Backend.memory ⟨Cache.empty 8192 .lru, fun _ _ ↦ 0⟩
      (.write startBytes),
      (s.cache.readFromCache ⟨startBytes.uuid, 1, 1⟩).map Prod.fst = some (some [7, 8]) := by
    decide +kernel
  obtain ⟨⟨_, c⟩, hhit, rfl⟩ := Option.map_eq_some_iff.mp (hall s hs)
  exact ⟨s, c, hs, hhit, fun h ↦ absurd h.1 (by decide)⟩

end Slsfs.Datafunction

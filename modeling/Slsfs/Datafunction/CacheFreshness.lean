import Mathlib.Data.List.GetD
import Slsfs.Datafunction.Caching
import Slsfs.Lib.Run

/-!
# The cache in front of the storage

`start_storage_perform` writes to the storage and then to the cache, and reads from the storage
only what the cache does not have. The storage is any store of bytes. Requests are handled one
after the other and are for whole blocks.

`LRUCache::set` counts on `emplace()` to "replace existing entry", which `emplace` does not do: a
block that is cached keeps its bytes when it is written again. So the cache agrees with the
storage along a run as long as no write is for a block that is cached with other bytes.
-/

namespace Slsfs.Datafunction

open LeveldbPack

/-- A storage whose operations succeed. The bytes of a file go on for ever: every read finds all its
blocks, and returns as many bytes as it asks for. -/
structure Backend (σ : Type*) where
  content : σ → Key → ℕ → UInt8
  performRead : σ → ReadRequest → Buf
  performWrite : σ → WriteRequest → Buf × σ
  /-- A read returns the bytes that are there. -/
  performRead_eq : ∀ b input, performRead b input =
    (List.range input.size.toNat).map fun i ↦ content b input.uuid (input.position.toNat + i)
  /-- A write changes the bytes it is for. -/
  content_performWrite : ∀ b input key x, content (performWrite b input).2 key x =
    if key = input.uuid ∧ input.position.toNat ≤ x ∧ x < input.position.toNat + input.data.length
      then input.data.getD (x - input.position.toNat) 0 else content b key x

/-- The bytes in memory. -/
def Backend.memory : Backend (Key → ℕ → UInt8) where
  content b := b
  performRead b input :=
    (List.range input.size.toNat).map fun i ↦ b input.uuid (input.position.toNat + i)
  performWrite b input := (Write.ok, fun key x ↦
    if key = input.uuid ∧ input.position.toNat ≤ x ∧ x < input.position.toNat + input.data.length
      then input.data.getD (x - input.position.toNat) 0 else b key x)
  performRead_eq _ _ := rfl
  content_performWrite _ _ _ _ := rfl

/-- A file request. -/
inductive FileRequest where
  | read (input : ReadRequest)
  | write (input : WriteRequest)

/-- A datafunction and its storage. -/
structure Storage (σ : Type*) where
  cache : Cache
  backend : σ

section

variable {σ : Type*} (backend : Backend σ)

/-- The answer to a file request, and what is stored afterwards. -/
def startStoragePerform (enableCache : Bool) (s : Storage σ) :
    FileRequest → Option (Buf × Storage σ)
  | .write input =>
    let (answer, b) := backend.performWrite s.backend input
    if enableCache then
      (s.cache.writeToCache input.position input.size input.data input.uuid).map
        fun c ↦ (answer, ⟨c, b⟩)
    else some (answer, ⟨s.cache, b⟩)
  | .read input =>
    match s.cache.readFromCache input with
    | none => none
    | some (some cachedFile, c) => some (cachedFile, ⟨c, s.backend⟩)
    | some (none, c) =>
      let buf := backend.performRead s.backend input
      if enableCache then
        (c.writeToCache input.position input.size buf input.uuid).map
          fun c ↦ (buf, ⟨c, s.backend⟩)
      else some (buf, ⟨c, s.backend⟩)

/-- A request with the cache enabled. -/
def performStep (s : Storage σ) (input : FileRequest) : Option (Storage σ) :=
  (startStoragePerform backend true s input).map Prod.snd

variable {backend}

/-- What a request can be: a write, a hit, or a miss. -/
theorem performStep_cases {s s' : Storage σ} {input : FileRequest}
    (h : performStep backend s input = some s') :
    (∃ w c, input = .write w ∧
      s.cache.writeToCache w.position w.size w.data w.uuid = some c ∧
      s' = ⟨c, (backend.performWrite s.backend w).2⟩) ∨
    (∃ r buf c, input = .read r ∧ s.cache.readFromCache r = some (some buf, c) ∧
      s' = ⟨c, s.backend⟩) ∨
    ∃ r c₁ c, input = .read r ∧ s.cache.readFromCache r = some (none, c₁) ∧
      c₁.writeToCache r.position r.size (backend.performRead s.backend r) r.uuid = some c ∧
      s' = ⟨c, s.backend⟩ := by
  cases input with
  | write w =>
    rw [performStep, startStoragePerform] at h
    dsimp only at h
    rw [if_pos rfl, Option.map_map, Option.map_eq_some_iff] at h
    obtain ⟨c, hc, rfl⟩ := h
    exact .inl ⟨w, c, rfl, hc, rfl⟩
  | read r =>
    rw [performStep, startStoragePerform] at h
    split at h
    · cases h
    · rename_i buf c hread
      cases h
      exact .inr (.inl ⟨r, buf, c, rfl, hread, rfl⟩)
    · rename_i c₁ hread
      rw [if_pos rfl, Option.map_map, Option.map_eq_some_iff] at h
      obtain ⟨c, hc, rfl⟩ := h
      exact .inr (.inr ⟨r, c₁, c, rfl, hread, hc, rfl⟩)

end

/-! ## Whole blocks

The blocks of a request are cut from its data at multiples of 4096, and are keyed by the position in
the file divided by 4096. For a request of whole blocks the two are the same cuts, and a block of
the storage after a write is a block of the data, or what it was before. -/

/-- The request is for whole blocks. -/
def FileRequest.WholeBlocks : FileRequest → Prop
  | .read input => input.position.toNat % 4096 = 0 ∧ input.size.toNat % 4096 = 0
  | .write input => input.position.toNat % 4096 = 0 ∧ input.data.length % 4096 = 0

/-- A block that is cached when it is written is cached with the bytes written. -/
def KeepsCached {σ : Type*} (s : Storage σ) : FileRequest → Prop
  | .read _ => True
  | .write input => ∀ k < input.data.length / 4096,
      ∀ buf ∈ s.cache.cachingMap.lookup₂ input.uuid
          (UInt32.ofNat (input.position.toNat / 4096 + k)),
        buf = (input.data.drop (4096 * k)).take 4096

instance : DecidablePred FileRequest.WholeBlocks
  | .read _ => inferInstanceAs (Decidable (_ ∧ _))
  | .write _ => inferInstanceAs (Decidable (_ ∧ _))

instance {σ : Type*} (s : Storage σ) : DecidablePred (KeepsCached s)
  | .read _ => inferInstanceAs (Decidable True)
  | .write input => inferInstanceAs (Decidable (∀ k < input.data.length / 4096, ∀ buf ∈ _, _))

section

variable {σ : Type*} (backend : Backend σ)

/-- The bytes of a block. -/
def Backend.block (b : σ) (key : Key) (blockId : UInt32) : Buf :=
  (List.range 4096).map fun i ↦ backend.content b key (blockId.toNat * 4096 + i)

/-- **The invariant.** What is cached is what is stored. -/
def Coherent (s : Storage σ) : Prop :=
  ∀ key blockId buf, s.cache.cachingMap.lookup₂ key blockId = some buf →
    buf = backend.block s.backend key blockId

variable {backend}

theorem toNat_size_write (input : WriteRequest) : input.size.toNat = input.data.length :=
  UInt32.toNat_ofNat_of_lt' input.size_lt

private theorem take_drop_eq_map {data : Buf} {offset : ℕ} {f : ℕ → UInt8}
    (hlen : offset + 4096 ≤ data.length) (h : ∀ i < 4096, data.getD (offset + i) 0 = f i) :
    (data.drop offset).take 4096 = (List.range 4096).map f := by
  refine List.ext_getElem ?_ fun i hi hi' ↦ ?_
  · rw [List.length_take, List.length_drop, List.length_map, List.length_range]
    omega
  · rw [List.length_map, List.length_range] at hi'
    rw [List.getElem_take, List.getElem_drop, List.getElem_map, List.getElem_range, ← h i hi',
      List.getD_eq_getElem]

theorem block_performWrite_of_mem {b : σ} {input : WriteRequest}
    (hpos : input.position.toNat % 4096 = 0) (hlen : input.data.length % 4096 = 0)
    {blockId : UInt32} {k : ℕ} (hid : blockId.toNat = input.position.toNat / 4096 + k)
    (hk : 4096 * k < input.data.length) :
    backend.block (backend.performWrite b input).2 input.uuid blockId
      = (input.data.drop (4096 * k)).take 4096 := by
  refine (take_drop_eq_map (by omega) fun i hi ↦ ?_).symm
  rw [backend.content_performWrite, if_pos ⟨rfl, by omega, by omega⟩]
  congr 1
  omega

theorem block_performWrite_of_notMem {b : σ} {input : WriteRequest}
    (hpos : input.position.toNat % 4096 = 0) {key : Key} {blockId : UInt32}
    (h : ¬ (key = input.uuid ∧ input.position.toNat ≤ blockId.toNat * 4096 ∧
      blockId.toNat * 4096 < input.position.toNat + input.data.length)) :
    backend.block (backend.performWrite b input).2 key blockId
      = backend.block b key blockId := by
  rw [Backend.block, Backend.block]
  refine List.map_congr_left fun i hi ↦ ?_
  rw [List.mem_range] at hi
  rw [backend.content_performWrite, if_neg]
  rintro ⟨hkey, hlo, hhi⟩
  exact h ⟨hkey, Nat.le_of_lt_succ (by omega), Nat.lt_of_le_of_lt (Nat.le_add_right _ _) hhi⟩

theorem block_performRead {b : σ} {input : ReadRequest}
    (hpos : input.position.toNat % 4096 = 0) (hsize : input.size.toNat % 4096 = 0)
    {blockId : UInt32} {k : ℕ} (hid : blockId.toNat = input.position.toNat / 4096 + k)
    (hk : 4096 * k < input.size.toNat) :
    ((backend.performRead b input).drop (4096 * k)).take 4096
      = backend.block b input.uuid blockId := by
  rw [backend.performRead_eq]
  refine take_drop_eq_map (by rw [List.length_map, List.length_range]; omega) fun i hi ↦ ?_
  rw [List.getD_eq_getElem _ _ (by rw [List.length_map, List.length_range]; omega),
    List.getElem_map, List.getElem_range]
  congr 1
  omega

/-! ## Coherence along a run

A block that is cached was written there with the bytes of the storage at that time. A later write
of the same block would have to replace it, and does not; `KeepsCached` asks that it be the same
bytes. What is evicted does no harm, as the cache only becomes smaller. -/

theorem Coherent.mono {s s' : Storage σ} (h : Coherent backend s)
    (hshrinks : FiniteMap.Shrinks s.cache.cachingMap s'.cache.cachingMap)
    (hb : s'.backend = s.backend) : Coherent backend s' := by
  intro key blockId buf hbuf
  rw [hb]
  exact h key blockId buf (hshrinks key blockId buf hbuf)

private theorem coherent_write {s : Storage σ} {input : WriteRequest} {c : Cache}
    (hwhole : FileRequest.WholeBlocks (.write input)) (hkeeps : KeepsCached s (.write input))
    (h : s.cache.writeToCache input.position input.size input.data input.uuid = some c)
    (hs : Coherent backend s) :
    Coherent backend ⟨c, (backend.performWrite s.backend input).2⟩ := by
  obtain ⟨hpos, hlen⟩ := hwhole
  intro key blockId buf hbuf
  dsimp only at hbuf ⊢
  rcases Cache.lookup_writeToCache h hbuf with hold | ⟨rfl, ⟨ids, hids, hmem⟩, rfl⟩
  · by_cases hin : key = input.uuid ∧ input.position.toNat ≤ blockId.toNat * 4096 ∧
        blockId.toNat * 4096 < input.position.toNat + input.data.length
    · -- a cached block that is written: its bytes are not replaced, but they are the same
      obtain ⟨rfl, hlo, hhi⟩ := hin
      obtain ⟨k, hk⟩ : ∃ k, blockId.toNat = input.position.toNat / 4096 + k :=
        ⟨blockId.toNat - input.position.toNat / 4096, by omega⟩
      have hid : UInt32.ofNat (input.position.toNat / 4096 + k) = blockId := by
        rw [← hk, UInt32.ofNat_toNat]
      rw [block_performWrite_of_mem hpos hlen hk (by omega)]
      exact hkeeps k (by omega) buf (by rw [hid]; exact hold)
    · rw [block_performWrite_of_notMem hpos hin]
      exact hs key blockId buf hold
  · obtain ⟨k, hid, hk, heq⟩ := Cache.added_block (toNat_size_write input).symm hids hmem
    rw [block_performWrite_of_mem hpos hlen hid hk, heq]

private theorem coherent_read {s : Storage σ} {input : ReadRequest} {c c' : Cache}
    (hwhole : FileRequest.WholeBlocks (.read input))
    (hread : s.cache.readFromCache input = some (none, c))
    (h : c.writeToCache input.position input.size (backend.performRead s.backend input) input.uuid
      = some c') (hs : Coherent backend s) : Coherent backend ⟨c', s.backend⟩ := by
  obtain ⟨hpos, hsize⟩ := hwhole
  have hdata : (backend.performRead s.backend input).length = input.size.toNat := by
    rw [backend.performRead_eq, List.length_map, List.length_range]
  intro key blockId buf hbuf
  rcases Cache.lookup_writeToCache h hbuf with hold | ⟨rfl, ⟨ids, hids, hmem⟩, rfl⟩
  · exact hs key blockId buf (Cache.shrinks_readFromCache hread key blockId buf hold)
  · obtain ⟨k, hid, hk, heq⟩ := Cache.added_block hdata hids hmem
    rw [heq]
    exact block_performRead hpos hsize hid (by omega)

private theorem coherent_step {s s' : Storage σ} {input : FileRequest}
    (hC : input.WholeBlocks ∧ KeepsCached s input) (h : performStep backend s input = some s')
    (hs : Coherent backend s) : Coherent backend s' := by
  obtain ⟨w, c, rfl, hwrite, rfl⟩ | ⟨r, buf, c, rfl, hhit, rfl⟩ |
    ⟨r, c₁, c, rfl, hmiss, hwrite, rfl⟩ := performStep_cases h
  · exact coherent_write hC.1 hC.2 hwrite hs
  · exact hs.mono (Cache.shrinks_readFromCache hhit) rfl
  · exact coherent_read hC.1 hmiss hwrite hs

private theorem flatten_blocks (f : ℕ → UInt8) (blocksize m : ℕ) :
    ((List.range m).map fun k ↦ (List.range blocksize).map fun i ↦ f (blocksize * k + i)).flatten
      = (List.range (blocksize * m)).map f := by
  induction m with
  | zero => rfl
  | succ m ih =>
    rw [List.range_succ, List.map_append, List.flatten_append, ih, Nat.mul_succ, List.range_add,
      List.map_append, List.map_map, List.map_singleton, List.flatten_singleton]
    rfl

theorem hit_of_coherent {s : Storage σ} (hs : Coherent backend s) {input : ReadRequest}
    (hwhole : FileRequest.WholeBlocks (.read input))
    (hfits : input.size = 0 ∨ input.position.toNat + input.size.toNat < 2 ^ 32) {buf : Buf}
    {c : Cache} (hhit : s.cache.readFromCache input = some (some buf, c)) :
    buf = backend.performRead s.backend input := by
  obtain ⟨hpos, hsize⟩ := hwhole
  obtain ⟨ids, hids, hall, rfl⟩ := Cache.readFromCache_hit hhit
  have hrounds : 4096 * Cache.rounds input.position (input.position + input.size)
      = input.size.toNat := by
    rcases hfits with hzero | hfits
    · rw [hzero, UInt32.add_zero, Cache.rounds, Nat.sub_self]
      rfl
    · rw [Cache.rounds, UInt32.toNat_add, Nat.mod_eq_of_lt hfits]
      omega
  have hblock : ∀ id ∈ ids, (s.cache.cachingMap.lookup₂ input.uuid id).getD []
      = (List.range 4096).map fun i ↦ backend.content s.backend input.uuid
        (id.toNat * 4096 + i) := by
    intro id hid
    obtain ⟨block, hblock⟩ := Option.isSome_iff_exists.mp (hall id hid)
    rw [hblock, Option.getD_some, hs _ _ _ hblock, Backend.block]
  rw [List.map_congr_left hblock, Cache.getBlockIds_eq_some hids, Cache.idsFrom, List.map_map,
    backend.performRead_eq, ← hrounds, ← flatten_blocks]
  refine congrArg List.flatten (List.map_congr_left fun k hk ↦ ?_)
  have hx : (input.position.toNat / 4096 + k) * 4096 = input.position.toNat + 4096 * k := by
    rw [Nat.add_mul, Nat.div_mul_cancel (Nat.dvd_of_mod_eq_zero hpos), Nat.mul_comm k]
  rw [Function.comp_apply, Cache.toNat_idsFrom (List.mem_range.mp hk), hx]
  refine congrArg (List.map · _) (funext fun i ↦ ?_)
  rw [Nat.add_assoc]

private theorem coherent_empty (cachesize : UInt32) (policy : EvictionPolicy) (b : σ) :
    Coherent backend ⟨Cache.empty cachesize policy, b⟩ := fun _ _ _ h ↦ nomatch h

/-- **Freshness.** In a run of requests for whole blocks in which every write leaves the cached
blocks what they are, a hit returns what the storage would. -/
theorem hit_is_fresh {cachesize : UInt32} {policy : EvictionPolicy} {b : σ}
    {es : List FileRequest} {s : Storage σ}
    (hrun : run (performStep backend) ⟨Cache.empty cachesize policy, b⟩ es = some s)
    (hmeets : Meets (performStep backend) (fun s input ↦ input.WholeBlocks ∧ KeepsCached s input)
      ⟨Cache.empty cachesize policy, b⟩ es)
    {input : ReadRequest} (hwhole : FileRequest.WholeBlocks (.read input))
    (hfits : input.size = 0 ∨ input.position.toNat + input.size.toNat < 2 ^ 32) {buf : Buf}
    {c : Cache} (hhit : s.cache.readFromCache input = some (some buf, c)) :
    buf = backend.performRead s.backend input := by
  have hcoherent : Coherent backend s := invariant_run (I := Coherent backend)
    (fun _ _ _ hC h hs ↦ coherent_step hC h hs) hmeets hrun (coherent_empty cachesize policy b)
  exact hit_of_coherent hcoherent hwhole hfits hhit

end
/-! ## Two runs

A write and a read of the block next to it, and then two writes of the same block. -/

/-- A whole block of one byte. -/
def oneBlock (position : UInt32) (byte : UInt8) : WriteRequest :=
  ⟨List.Vector.replicate 32 0, position, List.replicate 4096 byte, by
    rw [List.length_replicate]; decide⟩

def readOne (position : UInt32) : ReadRequest :=
  ⟨List.Vector.replicate 32 0, position, 4096⟩

/-- A block that is written once. -/
theorem hit_is_fresh_one_write :
    ∃ s buf c, run (performStep Backend.memory) ⟨Cache.empty 8192 .lru, fun _ _ ↦ 0⟩
        [.write (oneBlock 0 7), .read (readOne 4096)] = some s ∧
      s.cache.readFromCache (readOne 0) = some (some buf, c) ∧
      buf = Backend.memory.performRead s.backend (readOne 0) := by
  obtain ⟨s, hs⟩ := Option.isSome_iff_exists.mp (show (run (performStep Backend.memory)
    ⟨Cache.empty 8192 .lru, fun _ _ ↦ 0⟩
    [.write (oneBlock 0 7), .read (readOne 4096)]).isSome by decide +kernel)
  have hall : ∀ s ∈ run (performStep Backend.memory) ⟨Cache.empty 8192 .lru, fun _ _ ↦ 0⟩
      [.write (oneBlock 0 7), .read (readOne 4096)],
      (((s.cache.readFromCache (readOne 0)).map Prod.fst).join).isSome := by decide +kernel
  obtain ⟨buf, hbuf⟩ := Option.isSome_iff_exists.mp (hall s hs)
  obtain ⟨⟨_, c⟩, hhit, rfl⟩ := Option.map_eq_some_iff.mp (Option.join_eq_some_iff.mp hbuf)
  exact ⟨s, buf, c, hs, hhit,
    hit_is_fresh hs (by decide +kernel) (by decide +kernel) (by decide +kernel) hhit⟩

/-- **An overwritten block is served with its old bytes.** -/
theorem overwritten_block_stale :
    ∃ s buf c, run (performStep Backend.memory) ⟨Cache.empty 8192 .lru, fun _ _ ↦ 0⟩
        [.write (oneBlock 0 7), .write (oneBlock 0 8)] = some s ∧
      s.cache.readFromCache (readOne 0) = some (some buf, c) ∧ buf.head? = some 7 ∧
      buf ≠ Backend.memory.performRead s.backend (readOne 0) := by
  obtain ⟨s, hs⟩ := Option.isSome_iff_exists.mp (show (run (performStep Backend.memory)
    ⟨Cache.empty 8192 .lru, fun _ _ ↦ 0⟩
    [.write (oneBlock 0 7), .write (oneBlock 0 8)]).isSome by decide +kernel)
  have hall : ∀ s ∈ run (performStep Backend.memory) ⟨Cache.empty 8192 .lru, fun _ _ ↦ 0⟩
      [.write (oneBlock 0 7), .write (oneBlock 0 8)],
      (((s.cache.readFromCache (readOne 0)).map Prod.fst).join).map List.head?
        = some (some 7) ∧
      (Backend.memory.performRead s.backend (readOne 0)).head? = some 8 := by
    decide +kernel
  obtain ⟨hread, hstored⟩ := hall s hs
  obtain ⟨buf, hbuf, hhead⟩ := Option.map_eq_some_iff.mp hread
  obtain ⟨⟨_, c⟩, hhit, rfl⟩ := Option.map_eq_some_iff.mp (Option.join_eq_some_iff.mp hbuf)
  refine ⟨s, buf, c, hs, hhit, hhead, ?_⟩
  intro heq
  rw [heq, hstored] at hhead
  exact absurd hhead (by decide)

end Slsfs.Datafunction

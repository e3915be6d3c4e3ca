import Mathlib.Algebra.GroupWithZero.Nat
import Slsfs.Datafunction.ReadJob
import Slsfs.Lib.EmplaceMap

/-!
# The block cache of a datafunction

`caching.hpp`: blocks of 4096 bytes in a map from files to maps from block ids to buffers, and a
list that says in which order they are evicted. `oneapi::tbb::concurrent_hash_map::emplace` inserts
only if the key is absent.

The operations are partial. `none` stands for an operation that does not return: the loop of
`get_block_ids` never ends when the position wraps around, evicting from an empty list deletes the
sentinel node, and `read_from_cache` holds a read lock on its file while `set` may want to evict a
block of the same file, which waits for ever.

Left out are the metrics, the transfer of tables and the mutex.
-/

namespace Slsfs.Datafunction

open LeveldbPack

abbrev BlockMap := FiniteMap UInt32 Buf

abbrev CachingMap := FiniteMap Key BlockMap

/-- `cache_entry`, without the time stamp. -/
structure CacheEntry where
  fileKey : Key
  blockId : UInt32
  dataSize : UInt32
  deriving DecidableEq

/-- Entries are told apart by file and block. -/
def CacheEntry.same (a b : CacheEntry) : Bool := a.fileKey = b.fileKey && a.blockId = b.blockId

/-- The file and the block of an entry. -/
def CacheEntry.id (entry : CacheEntry) : Key × UInt32 := (entry.fileKey, entry.blockId)

theorem CacheEntry.same_iff {a b : CacheEntry} : a.same b = true ↔ a.id = b.id := by
  rw [same, Bool.and_eq_true, decide_eq_true_iff, decide_eq_true_iff, id, id, Prod.mk.injEq]

inductive EvictionPolicy where
  | lru
  | fifo
  deriving DecidableEq

/-- `cache` with its `LRUCache`. The nodes go from the tail of the list to its head, so the first
is the next to be evicted; the map `m` is their index. The size is an `int` and is compared as an
unsigned number. -/
structure Cache where
  evictionPolicy : EvictionPolicy
  cap : UInt32
  curSize : UInt32
  nodes : List CacheEntry
  cachingMap : CachingMap

namespace Cache

/-- `fullsize_`. -/
def blocksize : UInt32 := 4096

def empty (cachesize : UInt32) (policy : EvictionPolicy) : Cache := ⟨policy, cachesize, 0, [], ∅⟩

/-! ## The operations

`set` takes the node of its block off, makes room and puts the node where it is evicted last.
`read_from_cache` goes through the blocks of the range, sets the node of each unless the list is a
fifo, and gives up at the first one that is not there. `write_to_cache` sets the nodes of all its
blocks and puts in those that are not there. -/

/-- The caller may hold a lock on a file. -/
def deleteEntryFromCache (held : Option Key) (map : CachingMap) (entry : CacheEntry) :
    Option CachingMap :=
  match map.lookup entry.fileKey with
  | none => some map
  | some blocks =>
    -- the caller holds the lock that is waited for
    if held = some entry.fileKey then none
    else
      let blocks := blocks.erase entry.blockId
      some (if blocks.entries.isEmpty then map.erase entry.fileKey
        else map.insert entry.fileKey blocks)

/-- The loop of `LRUCache::set`, which makes room for `size` bytes. -/
def makeRoom (held : Option Key) (size cap : UInt32) :
    List CacheEntry → UInt32 → CachingMap → Option (List CacheEntry × UInt32 × CachingMap)
  -- with nothing left to evict, `tail->prev` is the head of the list itself
  | [], curSize, map => if cap < curSize + size then none else some ([], curSize, map)
  | entry :: nodes, curSize, map =>
    if cap < curSize + size then
      match deleteEntryFromCache held map entry with
      | none => none
      | some map => makeRoom held size cap nodes (curSize - entry.dataSize) map
    else some (entry :: nodes, curSize, map)

/-- `LRUCache::set`. -/
def set (held : Option Key) (c : Cache) (key : CacheEntry) : Option Cache :=
  let (nodes, curSize) := match c.nodes.find? key.same with
    | none => (c.nodes, c.curSize)
    | some exist => (c.nodes.eraseP key.same, c.curSize - exist.dataSize)
  match makeRoom held key.dataSize c.cap nodes curSize c.cachingMap with
  | none => none
  | some (nodes, curSize, map) =>
    some { c with
      nodes := nodes ++ [key]
      curSize := curSize + key.dataSize
      cachingMap := map }

/-- The loop of `get_block_ids`. After 2^20 rounds the position is back where it was. -/
def blockIdsFrom (endpos : UInt32) : ℕ → UInt32 → Option (List UInt32)
  | 0, currentpos => if currentpos < endpos then none else some []
  | rounds + 1, currentpos =>
    if currentpos < endpos then
      (blockIdsFrom endpos rounds (currentpos + blocksize)).map (currentpos / blocksize :: ·)
    else some []

def getBlockIds (position size : UInt32) : Option (List UInt32) :=
  if size = 0 then some [] else blockIdsFrom (position + size) (2 ^ 20) position

/-- The loop of `read_from_cache`, over the blocks of the file that is locked. -/
def readBlocks (uuid : Key) (blocks : BlockMap) :
    List UInt32 → Cache → Buf → Option (Option Buf × Cache)
  | [], c, toReturn => some (some toReturn, c)
  | blockId :: blockIds, c, toReturn =>
    match blocks.lookup blockId with
    | none => some (none, c)
    | some block =>
      let touched := if c.evictionPolicy = .fifo then some c
        else c.set (some uuid) ⟨uuid, blockId, UInt32.ofNat block.length⟩
      match touched with
      | none => none
      | some c => readBlocks uuid blocks blockIds c (toReturn ++ block)

/-- What is found, or nothing on a miss, and the cache afterwards. -/
def readFromCache (c : Cache) (input : ReadRequest) : Option (Option Buf × Cache) :=
  match c.cachingMap.lookup input.uuid with
  | none => some (none, c)
  | some blocks =>
    match getBlockIds input.position input.size with
    | none => none
    | some blockIds => readBlocks input.uuid blocks blockIds c []

section Write

variable (position size : UInt32) (data : Buf)

/-- Where the bytes of a block start, counted from the start of the data. -/
def copyOffset (blockId : UInt32) : UInt32 := (blockId - position / blocksize) * blocksize

def copySize (blockId : UInt32) : UInt32 := min blocksize (size - copyOffset position blockId)

def toEmplace (blockId : UInt32) : Buf :=
  (data.drop (copyOffset position blockId).toNat).take (copySize position size blockId).toNat

/-- The loop of `write_to_cache` for a file that is cached. A file whose last block is evicted on
the way is not cached any more. -/
def updateBlocks (uuid : Key) : List UInt32 → Cache → Option Cache
  | [], c => some c
  | blockId :: blockIds, c =>
    match c.set none ⟨uuid, blockId, copySize position size blockId⟩ with
    | none => none
    | some c =>
      match c.cachingMap.lookup uuid with
      | none => updateBlocks uuid blockIds c
      -- a block that is cached keeps its bytes, `emplace` does not replace them
      | some blocks =>
        updateBlocks uuid blockIds { c with
          cachingMap := c.cachingMap.insert uuid
            (blocks.emplace blockId (toEmplace position size data blockId)) }

/-- The loop for a file that is not cached, which collects the blocks in a map of its own. -/
def collectBlocks (uuid : Key) :
    List UInt32 → Cache → BlockMap → Option (Cache × BlockMap)
  | [], c, blocks => some (c, blocks)
  | blockId :: blockIds, c, blocks =>
    match c.set none ⟨uuid, blockId, copySize position size blockId⟩ with
    | none => none
    | some c =>
      collectBlocks uuid blockIds c (blocks.emplace blockId (toEmplace position size data blockId))

/-- `write_to_cache`, with the fields of the request it looks at. -/
def writeToCache (c : Cache) (uuid : Key) : Option Cache :=
  match getBlockIds position size with
  | none => none
  | some blockIds =>
    match c.cachingMap.lookup uuid with
    | some _ => updateBlocks position size data uuid blockIds c
    | none =>
      match collectBlocks position size data uuid blockIds c ∅ with
      | none => none
      | some (c, blocks) => some { c with cachingMap := c.cachingMap.emplace uuid blocks }

end Write

/-! ## The ids of a range

The loop is that of a counter which wraps around. It ends unless the last position it can reach
below 2^32 is still before the end, and then it has counted through the blocks of the range.
-/

@[simp] theorem toNat_blocksize : blocksize.toNat = 4096 := rfl

/-- The number of rounds for the range from `position` to `endpos`. -/
def rounds (position endpos : UInt32) : ℕ := (endpos.toNat - position.toNat + 4095) / 4096

/-- The `count` ids from the block of `position` on. -/
def idsFrom (position : UInt32) (count : ℕ) : List UInt32 :=
  (List.range count).map fun k ↦ UInt32.ofNat (position.toNat / 4096 + k)

/-- From the last block of the address space the counter goes back to the first. -/
def Diverges (position endpos : UInt32) : Prop :=
  position.toNat % 4096 + (2 ^ 32 - 4096) < endpos.toNat

private theorem toNat_add_blocksize (position : UInt32) :
    (position + blocksize).toNat = (position.toNat + 4096) % 2 ^ 32 := by
  rw [UInt32.toNat_add, toNat_blocksize]

theorem blockIdsFrom_of_diverges {endpos : UInt32} (fuel : ℕ) {position : UInt32}
    (h : Diverges position endpos) : blockIdsFrom endpos fuel position = none := by
  have hlt := position.toNat_lt
  have hbelow : position < endpos := by
    rw [Diverges] at h
    rw [UInt32.lt_iff_toNat_lt]
    omega
  induction fuel generalizing position with
  | zero => rw [blockIdsFrom, if_pos hbelow]
  | succ fuel ih =>
    have hnext : Diverges (position + blocksize) endpos := by
      rw [Diverges] at h ⊢
      rw [toNat_add_blocksize]
      omega
    have hlt' := (position + blocksize).toNat_lt
    rw [blockIdsFrom, if_pos hbelow, ih hnext hlt' ?_]
    · rfl
    · rw [Diverges] at hnext
      rw [UInt32.lt_iff_toNat_lt]
      omega

theorem blockIdsFrom_eq {endpos : UInt32} {fuel : ℕ} {position : UInt32}
    (h : ¬ Diverges position endpos) (hfuel : endpos.toNat ≤ position.toNat + 4096 * fuel) :
    blockIdsFrom endpos fuel position = some (idsFrom position (rounds position endpos)) := by
  have hnone : ∀ {q : UInt32}, ¬ q < endpos → idsFrom q (rounds q endpos) = [] := by
    intro q hq
    rw [UInt32.lt_iff_toNat_lt] at hq
    have hzero : rounds q endpos = 0 := by
      rw [rounds]
      omega
    rw [hzero]
    rfl
  induction fuel generalizing position with
  | zero =>
    have hge : ¬ position < endpos := by
      rw [UInt32.lt_iff_toNat_lt]
      omega
    rw [blockIdsFrom, if_neg hge, hnone hge]
  | succ fuel ih =>
    by_cases hbelow : position < endpos
    · -- the next position does not wrap: this would be a position from which the loop diverges
      have hlt := position.toNat_lt
      have hend := endpos.toNat_lt
      have hbelow' := UInt32.lt_iff_toNat_lt.mp hbelow
      rw [Diverges] at h
      have hnext : (position + blocksize).toNat = position.toNat + 4096 := by
        rw [toNat_add_blocksize]
        omega
      have hcount : rounds position endpos = rounds (position + blocksize) endpos + 1 := by
        rw [rounds, rounds, hnext]
        omega
      have hid : position / blocksize = UInt32.ofNat (position.toNat / 4096) := by
        rw [← UInt32.toNat_inj, UInt32.toNat_div, toNat_blocksize, UInt32.toNat_ofNat_of_lt']
        exact (Nat.div_le_self ..).trans_lt hlt
      have hrest : blockIdsFrom endpos fuel (position + blocksize)
          = some (idsFrom (position + blocksize) (rounds (position + blocksize) endpos)) := by
        refine ih ?_ ?_
        · rw [Diverges, hnext]
          omega
        · rw [hnext]
          omega
      rw [blockIdsFrom, if_pos hbelow, hrest, hcount, Option.map_some, Option.some_inj, idsFrom,
        idsFrom, hnext, hid, List.range_succ_eq_map, List.map_cons, List.map_map]
      refine congrArg₂ List.cons rfl (List.map_congr_left fun k _ ↦ congrArg UInt32.ofNat ?_)
      omega
    · rw [blockIdsFrom, if_neg hbelow, hnone hbelow]

theorem not_diverges_self (position : UInt32) : ¬Diverges position position := by
  have hlt := position.toNat_lt
  rw [Diverges]
  omega

theorem getBlockIds_of_not_diverges {position size : UInt32}
    (h : ¬Diverges position (position + size)) :
    getBlockIds position size = some (idsFrom position (rounds position (position + size))) := by
  have hend := (position + size).toNat_lt
  rw [getBlockIds]
  split
  · rename_i hzero
    rw [hzero, UInt32.add_zero, rounds, Nat.sub_self]
    rfl
  · exact blockIdsFrom_eq h (by omega)

/-- **The blocks of a range.** Where the loop ends, it lists them in order. -/
theorem getBlockIds_eq_some {position size : UInt32} {ids : List UInt32}
    (h : getBlockIds position size = some ids) :
    ids = idsFrom position (rounds position (position + size)) := by
  have hends : ¬Diverges position (position + size) := by
    intro hdiverges
    rw [getBlockIds] at h
    split at h
    · rename_i hzero
      rw [hzero, UInt32.add_zero] at hdiverges
      exact not_diverges_self position hdiverges
    · rw [blockIdsFrom_of_diverges _ hdiverges] at h
      cases h
  rw [getBlockIds_of_not_diverges hends] at h
  exact (Option.some_inj.mp h).symm

/-! ## Where there is room

The sizes of the nodes add up to the size of the cache. If the new node fits as well, nothing is
evicted. -/

/-- The bytes the nodes stand for. -/
def totalSize (nodes : List CacheEntry) : ℕ := (nodes.map fun node ↦ node.dataSize.toNat).sum

/-- The map `m` has one node for each file and block. -/
def Indexed (nodes : List CacheEntry) : Prop := nodes.Pairwise fun a b ↦ a.id ≠ b.id

instance (nodes : List CacheEntry) : Decidable (Indexed nodes) :=
  inferInstanceAs (Decidable (nodes.Pairwise fun a b ↦ a.id ≠ b.id))

@[simp] theorem totalSize_append (nodes nodes' : List CacheEntry) :
    totalSize (nodes ++ nodes') = totalSize nodes + totalSize nodes' := by
  rw [totalSize, List.map_append, List.sum_append, totalSize, totalSize]

@[simp] theorem totalSize_cons (node : CacheEntry) (nodes : List CacheEntry) :
    totalSize (node :: nodes) = node.dataSize.toNat + totalSize nodes := by
  rw [totalSize, List.map_cons, List.sum_cons, totalSize]

@[simp] theorem totalSize_nil : totalSize [] = 0 := rfl

theorem totalSize_reverse (nodes : List CacheEntry) :
    totalSize nodes.reverse = totalSize nodes := by
  rw [totalSize, List.map_reverse, List.sum_reverse, totalSize]

theorem indexed_reverse {nodes : List CacheEntry} : Indexed nodes.reverse ↔ Indexed nodes := by
  rw [Indexed, List.pairwise_reverse]
  exact List.Pairwise.iff fun _ _ ↦ ne_comm

theorem makeRoom_of_fits {held : Option Key} {size cap curSize : UInt32}
    (h : ¬ cap < curSize + size) (nodes : List CacheEntry) (map : CachingMap) :
    makeRoom held size cap nodes curSize map = some (nodes, curSize, map) := by
  cases nodes with
  | nil => rw [makeRoom, if_neg h]
  | cons entry nodes => rw [makeRoom, if_neg h]

theorem set_of_fits {held : Option Key} {c : Cache} {key : CacheEntry}
    (hnew : ∀ node ∈ c.nodes, node.id ≠ key.id) (hroom : ¬ c.cap < c.curSize + key.dataSize) :
    c.set held key = some { c with
      nodes := c.nodes ++ [key]
      curSize := c.curSize + key.dataSize } := by
  have hfind : c.nodes.find? key.same = none :=
    List.find?_eq_none.mpr fun node hnode hsame ↦
      hnew node hnode (CacheEntry.same_iff.mp hsame).symm
  rw [set, hfind]
  dsimp only
  rw [makeRoom_of_fits hroom]

/-! ## What stays in the map

Making room only removes blocks. What `write_to_cache` leaves was there before or is one of its own
blocks, and what `read_from_cache` returns are the blocks one after the other.
-/

private theorem shrinks_deleteEntryFromCache {held : Option Key} {map map' : CachingMap}
    {entry : CacheEntry} (h : deleteEntryFromCache held map entry = some map') :
    FiniteMap.Shrinks map map' := by
  rw [deleteEntryFromCache] at h
  split at h
  · cases h
    exact FiniteMap.Shrinks.refl _
  · rename_i blocks hblocks
    split at h
    · cases h
    · dsimp only at h
      split at h
      · cases h
        exact FiniteMap.shrinks_erase _ _
      · cases h
        exact FiniteMap.shrinks_insert_erase hblocks _

private theorem shrinks_makeRoom {held : Option Key} {size cap : UInt32} {nodes : List CacheEntry}
    {curSize : UInt32} {map : CachingMap} {r : List CacheEntry × UInt32 × CachingMap}
    (h : makeRoom held size cap nodes curSize map = some r) : FiniteMap.Shrinks map r.2.2 := by
  induction nodes generalizing curSize map with
  | nil =>
    rw [makeRoom] at h
    split at h
    · cases h
    · cases h
      exact FiniteMap.Shrinks.refl _
  | cons entry nodes ih =>
    rw [makeRoom] at h
    split at h
    · split at h
      · cases h
      · rename_i hdelete
        exact (shrinks_deleteEntryFromCache hdelete).trans (ih h)
    · cases h
      exact FiniteMap.Shrinks.refl _

theorem shrinks_set {held : Option Key} {c c' : Cache} {key : CacheEntry}
    (h : c.set held key = some c') : FiniteMap.Shrinks c.cachingMap c'.cachingMap := by
  rw [set] at h
  dsimp only at h
  split at h
  · cases h
  · rename_i hroom
    cases h
    exact shrinks_makeRoom hroom

private theorem readBlocks_spec {uuid : Key} {blocks : BlockMap} {ids : List UInt32} {c c' : Cache}
    {acc : Buf} {found : Option Buf} (h : readBlocks uuid blocks ids c acc = some (found, c')) :
    FiniteMap.Shrinks c.cachingMap c'.cachingMap ∧
      ∀ buf, found = some buf →
        (∀ id ∈ ids, (blocks.lookup id).isSome) ∧
        buf = acc ++ (ids.map fun id ↦ (blocks.lookup id).getD []).flatten := by
  induction ids generalizing c acc with
  | nil =>
    cases h
    refine ⟨FiniteMap.Shrinks.refl _, fun buf hbuf ↦ ⟨by simp, ?_⟩⟩
    cases hbuf
    simp
  | cons id ids ih =>
    rw [readBlocks] at h
    split at h
    · cases h
      exact ⟨FiniteMap.Shrinks.refl _, fun _ hbuf ↦ nomatch hbuf⟩
    · rename_i block hblock
      dsimp only at h
      split at h
      · cases h
      · rename_i c₁ htouched
        have htouch : FiniteMap.Shrinks c.cachingMap c₁.cachingMap := by
          split at htouched
          · cases htouched
            exact FiniteMap.Shrinks.refl _
          · exact shrinks_set htouched
        obtain ⟨hshrinks, hfound⟩ := ih h
        refine ⟨htouch.trans hshrinks, fun buf hbuf ↦ ?_⟩
        obtain ⟨hall, hbytes⟩ := hfound buf hbuf
        refine ⟨?_, ?_⟩
        · intro i hi
          rcases List.mem_cons.mp hi with rfl | hi
          · rw [hblock]
            rfl
          · exact hall i hi
        · rw [hbytes, List.map_cons, List.flatten_cons, hblock, Option.getD_some,
            List.append_assoc]

theorem shrinks_readFromCache {c c' : Cache} {input : ReadRequest} {found : Option Buf}
    (h : c.readFromCache input = some (found, c')) :
    FiniteMap.Shrinks c.cachingMap c'.cachingMap := by
  rw [readFromCache] at h
  split at h
  · cases h
    exact FiniteMap.Shrinks.refl _
  · split at h
    · cases h
    · exact (readBlocks_spec h).1

/-- **What a hit returns.** -/
theorem readFromCache_hit {c c' : Cache} {input : ReadRequest} {buf : Buf}
    (h : c.readFromCache input = some (some buf, c')) :
    ∃ ids, getBlockIds input.position input.size = some ids ∧
      (∀ id ∈ ids, (c.cachingMap.lookup₂ input.uuid id).isSome) ∧
      buf = (ids.map fun id ↦ (c.cachingMap.lookup₂ input.uuid id).getD []).flatten := by
  rw [readFromCache] at h
  split at h
  · cases h
  · rename_i blocks hblocks
    have hlookup : ∀ id, c.cachingMap.lookup₂ input.uuid id = blocks.lookup id := by
      intro id
      rw [FiniteMap.lookup₂, hblocks]
      rfl
    split at h
    · cases h
    · rename_i ids hids
      obtain ⟨hall, hbuf⟩ := (readBlocks_spec h).2 buf rfl
      simp only [hlookup]
      exact ⟨ids, hids, hall, by rw [hbuf, List.nil_append]⟩

section Write

variable {position size : UInt32} {data : Buf}

theorem lookup_updateBlocks {uuid : Key} {ids : List UInt32} {c c' : Cache}
    (h : updateBlocks position size data uuid ids c = some c') {k : Key} {id : UInt32} {buf : Buf}
    (hbuf : c'.cachingMap.lookup₂ k id = some buf) :
    c.cachingMap.lookup₂ k id = some buf ∨
      k = uuid ∧ id ∈ ids ∧ buf = toEmplace position size data id := by
  induction ids generalizing c with
  | nil =>
    cases h
    exact .inl hbuf
  | cons i ids ih =>
    rw [updateBlocks] at h
    split at h
    · cases h
    · rename_i c₁ hset
      have hshrinks := shrinks_set hset
      split at h
      · rcases ih h with hold | ⟨hk, hmem, hnew⟩
        · exact .inl (hshrinks _ _ _ hold)
        · exact .inr ⟨hk, List.mem_cons_of_mem _ hmem, hnew⟩
      · rename_i blocks hblocks
        rcases ih h with hold | ⟨hk, hmem, hnew⟩
        · by_cases hk : k = uuid
          · subst hk
            rw [FiniteMap.lookup₂_insert] at hold
            by_cases hi : id = i
            · subst hi
              rw [FiniteMap.lookup_emplace, Option.some_inj] at hold
              cases hthere : blocks.lookup id with
              | none =>
                rw [hthere] at hold
                exact .inr ⟨rfl, List.mem_cons_self, hold.symm⟩
              | some old =>
                rw [hthere] at hold
                cases hold
                exact .inl (hshrinks _ _ _ (FiniteMap.lookup₂_eq_some.mpr ⟨_, hblocks, hthere⟩))
            · rw [FiniteMap.lookup_emplace_of_ne _ _ hi] at hold
              exact .inl (hshrinks _ _ _ (FiniteMap.lookup₂_eq_some.mpr ⟨_, hblocks, hold⟩))
          · rw [FiniteMap.lookup₂_insert_of_ne _ _ _ hk] at hold
            exact .inl (hshrinks _ _ _ hold)
        · exact .inr ⟨hk, List.mem_cons_of_mem _ hmem, hnew⟩

private theorem collectBlocks_spec {uuid : Key} {ids : List UInt32} {c c' : Cache}
    {blocks blocks' : BlockMap}
    (h : collectBlocks position size data uuid ids c blocks = some (c', blocks')) :
    FiniteMap.Shrinks c.cachingMap c'.cachingMap ∧
      ∀ id buf, blocks'.lookup id = some buf →
        blocks.lookup id = some buf ∨ id ∈ ids ∧ buf = toEmplace position size data id := by
  induction ids generalizing c blocks with
  | nil =>
    cases h
    exact ⟨FiniteMap.Shrinks.refl _, fun id buf hbuf ↦ .inl hbuf⟩
  | cons i ids ih =>
    rw [collectBlocks] at h
    split at h
    · cases h
    · rename_i c₁ hset
      obtain ⟨hshrinks, hblocks⟩ := ih h
      refine ⟨(shrinks_set hset).trans hshrinks, fun id buf hbuf ↦ ?_⟩
      rcases hblocks id buf hbuf with hold | ⟨hmem, hnew⟩
      · by_cases hi : id = i
        · subst hi
          rw [FiniteMap.lookup_emplace, Option.some_inj] at hold
          cases hthere : blocks.lookup id with
          | none =>
            rw [hthere] at hold
            exact .inr ⟨List.mem_cons_self, hold.symm⟩
          | some old =>
            rw [hthere] at hold
            exact .inl (congrArg some hold)
        · rw [FiniteMap.lookup_emplace_of_ne _ _ hi] at hold
          exact .inl hold
      · exact .inr ⟨List.mem_cons_of_mem _ hmem, hnew⟩

/-- **What a write leaves cached** was cached before or is a block of the write. -/
theorem lookup_writeToCache {c c' : Cache} {uuid : Key}
    (h : c.writeToCache position size data uuid = some c') {k : Key} {id : UInt32} {buf : Buf}
    (hbuf : c'.cachingMap.lookup₂ k id = some buf) :
    c.cachingMap.lookup₂ k id = some buf ∨
      k = uuid ∧ (∃ ids, getBlockIds position size = some ids ∧ id ∈ ids) ∧
        buf = toEmplace position size data id := by
  rw [writeToCache] at h
  split at h
  · cases h
  · rename_i ids hids
    split at h
    · rcases lookup_updateBlocks h hbuf with hold | ⟨hk, hmem, hnew⟩
      · exact .inl hold
      · exact .inr ⟨hk, ⟨ids, hids, hmem⟩, hnew⟩
    · split at h
      · cases h
      · rename_i c₁ blocks hcollect
        cases h
        obtain ⟨hshrinks, hblocks⟩ := collectBlocks_spec hcollect
        obtain ⟨inner, hinner, hbuf⟩ := FiniteMap.lookup₂_eq_some.mp hbuf
        by_cases hk : k = uuid
        · subst hk
          rw [FiniteMap.lookup_emplace, Option.some_inj] at hinner
          cases hthere : c₁.cachingMap.lookup k with
          | none =>
            rw [hthere, Option.getD_none] at hinner
            subst hinner
            rcases hblocks id buf hbuf with hnone | ⟨hmem, hnew⟩
            · cases hnone
            · exact .inr ⟨rfl, ⟨ids, hids, hmem⟩, hnew⟩
          | some old =>
            rw [hthere, Option.getD_some] at hinner
            subst hinner
            exact .inl (hshrinks _ _ _ (FiniteMap.lookup₂_eq_some.mpr ⟨_, hthere, hbuf⟩))
        · rw [FiniteMap.lookup_emplace_of_ne _ _ hk] at hinner
          exact .inl (hshrinks _ _ _ (FiniteMap.lookup₂_eq_some.mpr ⟨_, hinner, hbuf⟩))

end Write

/-! ## The blocks of a write

The blocks of a write that does not wrap around are numbered on from the one its position is in, and
differ. Each is cut from the data at a multiple of 4096 from its start, with 4096 bytes but for the
last one. -/

theorem lt_rounds_iff {position endpos : UInt32} {k : ℕ} :
    k < rounds position endpos ↔ position.toNat + 4096 * k < endpos.toNat := by
  rw [rounds]
  omega

theorem lt_size_of_lt_rounds {position size : UInt32} {k : ℕ}
    (hk : k < rounds position (position + size)) :
    position.toNat + size.toNat < 2 ^ 32 ∧ 4096 * k < size.toNat := by
  rw [lt_rounds_iff, UInt32.toNat_add] at hk
  have := position.toNat_lt
  have := size.toNat_lt
  omega

theorem toNat_idsFrom {position size : UInt32} {k : ℕ}
    (hk : k < rounds position (position + size)) :
    (UInt32.ofNat (position.toNat / 4096 + k)).toNat = position.toNat / 4096 + k := by
  obtain ⟨hfits, hlt⟩ := lt_size_of_lt_rounds hk
  exact UInt32.toNat_ofNat_of_lt' (by rw [UInt32.size]; omega)

theorem nodup_idsFrom (position size : UInt32) :
    (idsFrom position (rounds position (position + size))).Nodup := by
  refine List.Nodup.map_on ?_ List.nodup_range
  intro j hj k hk heq
  have hnat := congrArg UInt32.toNat heq
  rw [toNat_idsFrom (List.mem_range.mp hj), toNat_idsFrom (List.mem_range.mp hk)] at hnat
  omega

theorem copyOffset_eq {position size : UInt32} {k : ℕ}
    (hk : k < rounds position (position + size)) :
    (copyOffset position (UInt32.ofNat (position.toNat / 4096 + k))).toNat = 4096 * k := by
  obtain ⟨hfits, hlt⟩ := lt_size_of_lt_rounds hk
  have hid := toNat_idsFrom hk
  have hsub : (UInt32.ofNat (position.toNat / 4096 + k) - position / blocksize).toNat = k := by
    rw [UInt32.toNat_sub_of_le, hid, UInt32.toNat_div, toNat_blocksize, Nat.add_sub_cancel_left]
    rw [UInt32.le_iff_toNat_le, hid, UInt32.toNat_div, toNat_blocksize]
    omega
  rw [copyOffset, UInt32.toNat_mul, hsub, toNat_blocksize]
  omega

theorem copySize_eq {position size : UInt32} {k : ℕ}
    (hk : k < rounds position (position + size)) :
    (copySize position size (UInt32.ofNat (position.toNat / 4096 + k))).toNat
      = min 4096 (size.toNat - 4096 * k) := by
  have hlt := (lt_size_of_lt_rounds hk).2
  have hoffset := copyOffset_eq hk
  have hle : copyOffset position (UInt32.ofNat (position.toNat / 4096 + k)) ≤ size := by
    rw [UInt32.le_iff_toNat_le, hoffset]
    omega
  rw [copySize, UInt32.toNat_min, toNat_blocksize, UInt32.toNat_sub_of_le _ _ hle, hoffset]

theorem toNat_copySize_le (position size id : UInt32) :
    (copySize position size id).toNat ≤ 4096 := by
  rw [copySize, UInt32.toNat_min, toNat_blocksize]
  exact Nat.min_le_left _ _

/-- The block with the number `k` of a write is cut from the data at `4096 * k`, wherever the write
starts. -/
theorem toEmplace_eq {position size : UInt32} {data : Buf} (hdata : data.length = size.toNat)
    {k : ℕ} (hk : k < rounds position (position + size)) :
    toEmplace position size data (UInt32.ofNat (position.toNat / 4096 + k))
      = (data.drop (4096 * k)).take 4096 := by
  rw [toEmplace, copyOffset_eq hk, copySize_eq hk, ← hdata, ← List.length_drop,
    ← List.take_eq_take_min]

theorem added_block {position size : UInt32} {data : Buf}
    (hdata : data.length = size.toNat) {ids : List UInt32} {blockId : UInt32}
    (hids : getBlockIds position size = some ids) (hmem : blockId ∈ ids) :
    ∃ k, blockId.toNat = position.toNat / 4096 + k ∧ 4096 * k < data.length ∧
      toEmplace position size data blockId = (data.drop (4096 * k)).take 4096 := by
  rw [getBlockIds_eq_some hids, idsFrom, List.mem_map] at hmem
  obtain ⟨k, hk, rfl⟩ := hmem
  rw [List.mem_range] at hk
  rw [hdata]
  exact ⟨k, toNat_idsFrom hk, (lt_size_of_lt_rounds hk).2,
    toEmplace_eq hdata hk⟩

end Cache

end Slsfs.Datafunction

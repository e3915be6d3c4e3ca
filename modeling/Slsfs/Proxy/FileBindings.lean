import Slsfs.Datafunction.CacheTransfer

/-!
# The files of a cache table

Before the proxy hands a table on it takes the file keys from it, `get_fileids_from_transfer`, to
send the requests for these files to the next worker. It skips a record by searching for the space
at its end, where the worker's own parser counts bytes. So the two part as soon as a block id or a
size has a byte that is a space: from there on the proxy takes its keys from the middle of records,
and it never finds its way back.

The search is `Lib.Delimited.searchHeads`, with the keys for heads and the blocks of a file for
bodies.
-/

namespace Slsfs.Proxy

open LeveldbPack Datafunction

/-- The key of each record; `none` if 32 bytes are copied from where the table has fewer. -/
def getFileidsFromTransfer (table : Buf) : Option (List Key) :=
  searchHeads 32 32 table.length table

/-- No byte of a block id or a size in the table is a space. -/
def Spaceless (c : Cache) : Prop :=
  (∀ block ∈ c.cachingMap.entries₂,
    32 ∉ word block.2.1 ∧ 32 ∉ word (UInt32.ofNat block.2.2.length)) ∧
  ∀ node ∈ c.nodes, 32 ∉ word node.blockId ∧ 32 ∉ word node.dataSize

private theorem notMem_blocksTable {delim : UInt8} (hcomma : delim ≠ 44)
    {blocks : List (UInt32 × UInt32)} :
    delim ∉ Cache.blocksTable blocks ↔
      ∀ block ∈ blocks, delim ∉ word block.1 ∧ delim ∉ word block.2 := by
  induction blocks with
  | nil => simp [Cache.blocksTable]
  | cons block blocks ih =>
    obtain ⟨blockId, size⟩ := block
    cases blocks with
    | nil => simp [Cache.blocksTable]
    | cons next blocks =>
      rw [List.forall_mem_cons, ← ih, Cache.blocksTable, List.mem_append, List.mem_append,
        List.mem_cons]
      tauto

private theorem notMem_fileRecord (key : Key) (blocks : BlockMap) :
    32 ∉ (Cache.fileRecord key blocks).body ↔ ∀ block ∈ blocks.entries,
      32 ∉ word block.1 ∧ 32 ∉ word (UInt32.ofNat block.2.length) := by
  have hcolon : (32 : UInt8) ≠ 58 := by decide
  have hcomma : (32 : UInt8) ≠ 44 := by decide
  rw [Cache.fileRecord, List.mem_cons, not_or, notMem_blocksTable hcomma, Cache.blockSizes,
    List.forall_mem_map]
  exact and_iff_right hcolon

private theorem notMem_nodeRecord (node : CacheEntry) :
    32 ∉ (Cache.nodeRecord node).body ↔ 32 ∉ word node.blockId ∧ 32 ∉ word node.dataSize := by
  have hdot : (32 : UInt8) ≠ 46 := by decide
  rw [Cache.nodeRecord, List.mem_cons, not_or, List.mem_append, not_or]
  exact and_iff_right hdot

/-- **The proxy reads the keys of the records exactly if no id and no size has a space in it.** -/
theorem getFileids_eq_iff (c : Cache) (cacheHits evictions : ℕ) :
    getFileidsFromTransfer (Cache.onWorkerClose (Cache.getTables cacheHits evictions c))
        = some (c.cachingMap.entries.map (fun file ↦ file.1) ++ c.nodes.map CacheEntry.fileKey) ↔
      Spaceless c := by
  have hkeys : c.cachingMap.entries.map (fun file ↦ file.1) ++ c.nodes.map CacheEntry.fileKey
      = c.records.map Record.head := by
    rw [Cache.records, List.map_append, List.map_map, List.map_map]
    rfl
  rw [getFileidsFromTransfer, Cache.onWorkerClose_getTables, hkeys,
    searchHeads_eq_iff (Cache.length_records_le c.records), Cache.records, List.forall_mem_append,
    List.forall_mem_map, List.forall_mem_map, Spaceless, FiniteMap.entries₂,
    List.forall_mem_flatMap]
  refine and_congr (forall₂_congr fun file _ ↦ ?_)
    (forall₂_congr fun node _ ↦ notMem_nodeRecord node)
  rw [notMem_fileRecord, List.forall_mem_map]

/-- The block at byte 131072 of a file, which has the number 32. -/
def blockThirtyTwo : Cache where
  evictionPolicy := .lru
  cap := 4096
  curSize := 4096
  nodes := [⟨List.Vector.replicate 32 0, 32, 4096⟩]
  cachingMap := AList.insert (List.Vector.replicate 32 0)
    (AList.insert 32 (List.replicate 4096 7) ∅) ∅

/-- The last of three keys is copied from where there are only eight bytes left. -/
theorem getFileids_blockThirtyTwo :
    (∀ file ∈ blockThirtyTwo.cachingMap.entries, file.2.entries ≠ []) ∧
      getFileidsFromTransfer (Cache.onWorkerClose (Cache.getTables 0 0 blockThirtyTwo)) = none := by
  decide +kernel

end Slsfs.Proxy

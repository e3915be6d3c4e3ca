import Slsfs.Datafunction.Caching
import Slsfs.Lib.Delimited

/-!
# Handing a cache over

Before a datafunction stops it sends what it has cached as a table, `get_tables`, and the next one
fetches the same blocks and puts them on its own list in the same order, `build_cache`. The proxy in
between takes the two counters at the end of the table off, `on_worker_close`.

A record of the table is a key and the blocks of the file with that key, or a key and one node of
the list. All fields have a fixed width, and the parser tells the records apart by the byte behind
the key, so that it does not matter if a field contains a byte that is also used as a delimiter.

The association lists of the model are in an arbitrary order, and this order stands for that in
which the hash maps are iterated.
-/

namespace Slsfs.Datafunction

open LeveldbPack

/-- A 32-bit number as `memcpy` copies it. -/
def word (n : UInt32) : Buf := (littleEndian 4 n.toNat).toList

/-- The number at the start of a buffer. -/
def cutWord (buf : Buf) : Option (UInt32 × Buf) :=
  (cut 4 buf).map fun field ↦ (UInt32.ofNat (ofLittleEndian field.1), field.2)

@[simp] theorem cutWord_append (n : UInt32) (rest : Buf) :
    cutWord (word n ++ rest) = some (n, rest) := by
  rw [cutWord, word, cut_append, Option.map_some, ofLittleEndian_littleEndian,
    Nat.mod_eq_of_lt (by have := n.toNat_lt; omega), UInt32.ofNat_toNat]

namespace Cache

/-! ## The table

One record for each file, with the ids and sizes of its blocks, and behind them one for each node,
from the tail of the list to its head. -/

/-- The ids and sizes of the blocks of a file, with a comma after each but the last. -/
def blocksTable : List (UInt32 × UInt32) → Buf
  | [] => []
  | [(blockId, size)] => word blockId ++ word size
  | (blockId, size) :: block :: blocks =>
    word blockId ++ (word size ++ (44 :: blocksTable (block :: blocks)))

/-- The blocks of a file with their sizes. -/
def blockSizes (blocks : BlockMap) : List (UInt32 × UInt32) :=
  blocks.entries.map fun block ↦ (block.1, UInt32.ofNat block.2.length)

/-- The record of a file, up to the space that ends it. -/
def fileRecord (key : Key) (blocks : BlockMap) : Record 32 :=
  ⟨key, 58 :: blocksTable (blockSizes blocks)⟩

/-- The record of a node. -/
def nodeRecord (node : CacheEntry) : Record 32 :=
  ⟨node.fileKey, 46 :: (word node.blockId ++ word node.dataSize)⟩

/-- The records of the table: the files, and then the nodes from the tail to the head. -/
def records (c : Cache) : List (Record 32) :=
  (c.cachingMap.entries.map fun file ↦ fileRecord file.1 file.2) ++ c.nodes.map nodeRecord

/-- `get_tables`. Of the two counters four bytes are sent. -/
def getTables (cacheHits evictions : ℕ) (c : Cache) : Buf :=
  c.records.flatMap (Record.bytes 32) ++
    ((littleEndian 4 cacheHits).toList ++ (littleEndian 4 evictions).toList)

/-- What `on_worker_close` leaves of the table. -/
def onWorkerClose (table : Buf) : Buf := table.take (table.length - 8)

/-! ## The parser

It goes through the table record by record. A record of a file starts reads of its blocks, one after
the other; a record of a node puts the node on the list. -/

/-- The read of a block. -/
def blockRequest (key : Key) (blockId size : UInt32) : ReadRequest :=
  ⟨key, blockId * 4096, size⟩

/-- The inner loop of `build_cache`, behind the key of a record: the reads it starts, the cache and
the rest of the table. `none` if the iterator leaves the table. -/
def buildRecord (held : Option Key) (key : Key) :
    ℕ → Buf → Cache → Option (List ReadRequest × Cache × Buf)
  | 0, _, _ => none
  | _ + 1, [], _ => none
  | rounds + 1, byte :: table, c =>
    if byte = 32 then some ([], c, table)
    else
      match cutWord table with
      | none => none
      | some (bid, table) =>
        match cutWord table with
        | none => none
        | some (size, table) =>
          -- a node, whose record ends behind it; the byte there is skipped unseen
          if byte = 46 then
            match c.set held ⟨key, bid, size⟩, table with
            | some c, _ :: table => some ([], c, table)
            | _, _ => none
          else
            (buildRecord held key rounds table c).map fun r ↦
              (blockRequest key bid size :: r.1, r.2)

/-- `build_cache`: the backend reads in the order they are started, and the cache before the first
of them is answered. The lock on the file of a record is only held if the file was there before. -/
def buildCache : ℕ → Buf → Cache → Option (List ReadRequest × Cache)
  | 0, table, c => if table.isEmpty then some ([], c) else none
  | rounds + 1, table, c =>
    if table.isEmpty then some ([], c)
    else
      match cut 32 table with
      | none => none
      | some (key, rest) =>
        let held := if (c.cachingMap.lookup key).isSome then some key else none
        let c := { c with cachingMap := c.cachingMap.emplace key ∅ }
        match buildRecord held key table.length rest c with
        | none => none
        | some (reads, c, rest) =>
          (buildCache rounds rest c).map fun r ↦ (reads ++ r.1, r.2)

/-! ## A record

The parser, at the start of a record, takes just this record off and goes on behind it. -/

private theorem buildRecord_blocks (held : Option Key) (key : Key) (c : Cache) (rest : Buf)
    {byte : UInt8}
    (hspace : byte ≠ 32) (hdot : byte ≠ 46) {blocks : List (UInt32 × UInt32)} (hne : blocks ≠ [])
    {rounds : ℕ} (hrounds : blocks.length < rounds) :
    buildRecord held key rounds (byte :: (blocksTable blocks ++ 32 :: rest)) c
      = some (blocks.map fun block ↦ blockRequest key block.1 block.2, c, rest) := by
  induction blocks generalizing rounds byte with
  | nil => exact absurd rfl hne
  | cons block blocks ih =>
    obtain ⟨blockId, size⟩ := block
    rw [List.length_cons] at hrounds
    obtain ⟨k, rfl⟩ : ∃ k, rounds = k + 1 := ⟨rounds - 1, by omega⟩
    rw [buildRecord, if_neg hspace]
    cases blocks with
    | nil =>
      obtain ⟨j, rfl⟩ : ∃ j, k = j + 1 := ⟨k - 1, by rw [List.length_nil] at hrounds; omega⟩
      rw [blocksTable, List.append_assoc, cutWord_append]
      dsimp only
      rw [cutWord_append]
      dsimp only
      rw [if_neg hdot, buildRecord, if_pos rfl]
      rfl
    | cons block blocks =>
      rw [blocksTable, List.append_assoc, cutWord_append]
      dsimp only
      rw [List.append_assoc, cutWord_append]
      dsimp only
      rw [if_neg hdot, List.cons_append, ih (by decide) (by decide) (by simp) (by omega)]
      rfl

private theorem buildRecord_node (held : Option Key) {node : CacheEntry} (rest : Buf) {c c' : Cache}
    (hset : c.set held node = some c') (rounds : ℕ) :
    buildRecord held node.fileKey (rounds + 1)
        (46 :: (word node.blockId ++ (word node.dataSize ++ 32 :: rest))) c
      = some ([], c', rest) := by
  rw [buildRecord, if_neg (by decide), cutWord_append]
  dsimp only
  rw [cutWord_append]
  dsimp only
  rw [if_pos rfl, hset]

private theorem buildCache_record {r : Record 32} {rest : Buf} {c c' : Cache}
    {reads : List ReadRequest}
    (h : ∀ held, buildRecord held r.head (Record.bytes 32 r ++ rest).length (r.body ++ 32 :: rest)
      { c with cachingMap := c.cachingMap.emplace r.head ∅ } = some (reads, c', rest))
    (rounds : ℕ) :
    buildCache (rounds + 1) (Record.bytes 32 r ++ rest) c
      = (buildCache rounds rest c').map fun out ↦ (reads ++ out.1, out.2) := by
  have hcut : cut 32 (Record.bytes 32 r ++ rest) = some (r.head, r.body ++ 32 :: rest) := by
    rw [Record.bytes, List.append_assoc, cut_append, List.append_assoc]
    rfl
  rw [buildCache, if_neg (by simp [Record.bytes]), hcut]
  dsimp only
  rw [h]

/-! ## The files

Their records start the reads and leave the list alone. The table has more bytes than a record has
blocks, so there are rounds enough for each of them. -/

private theorem length_blockSizes_lt (blocks : BlockMap) (key : Key) (rest : Buf) :
    (blockSizes blocks).length < (Record.bytes 32 (fileRecord key blocks) ++ rest).length := by
  have hle : ∀ sizes : List (UInt32 × UInt32), sizes.length ≤ (blocksTable sizes).length := by
    intro sizes
    induction sizes with
    | nil => exact Nat.zero_le _
    | cons block sizes ih =>
      cases sizes with
      | nil => simp [blocksTable, word]
      | cons next sizes =>
        rw [blocksTable]
        simp only [List.length_append, List.length_cons] at ih ⊢
        omega
  have := hle (blockSizes blocks)
  simp only [Record.bytes, fileRecord, List.length_append, List.length_cons]
  omega

private theorem buildCache_files (files : List (Sigma fun _ : Key ↦ BlockMap))
    (hne : ∀ file ∈ files, file.2.entries ≠ []) (rounds : ℕ) (rest : Buf) (c : Cache) :
    ∃ map, buildCache (files.length + rounds)
        ((files.map fun file ↦ fileRecord file.1 file.2).flatMap (Record.bytes 32) ++ rest) c
      = (buildCache rounds rest { c with cachingMap := map }).map fun r ↦
        ((files.flatMap fun file ↦ (blockSizes file.2).map fun block ↦
          blockRequest file.1 block.1 block.2) ++ r.1, r.2) := by
  induction files generalizing c with
  | nil => exact ⟨c.cachingMap, by simp⟩
  | cons file files ih =>
    obtain ⟨map, hrest⟩ := ih (fun f hf ↦ hne f (List.mem_cons_of_mem _ hf))
      { c with cachingMap := c.cachingMap.emplace file.1 ∅ }
    refine ⟨map, ?_⟩
    have hsizes : blockSizes file.2 ≠ [] := by
      rw [blockSizes, ne_eq, List.map_eq_nil_iff]
      exact hne file List.mem_cons_self
    rw [List.length_cons, Nat.add_right_comm, List.map_cons, List.flatMap_cons, List.append_assoc,
      buildCache_record fun held ↦ buildRecord_blocks held file.1 _ _ (by decide) (by decide) hsizes
        (length_blockSizes_lt file.2 file.1 _),
      show (fileRecord file.1 file.2).head = file.1 from rfl, hrest, Option.map_map]
    simp [Function.comp_def]

/-! ## The nodes -/

/-- The records of the nodes put them on the list again, in the same order. -/
theorem buildCache_nodes {nodes : List CacheEntry} {rounds : ℕ} (hrounds : nodes.length ≤ rounds)
    {c : Cache} (hindexed : Indexed (c.nodes ++ nodes))
    (hsize : c.curSize.toNat = totalSize c.nodes)
    (hfits : totalSize (c.nodes ++ nodes) ≤ c.cap.toNat) :
    ∃ c' : Cache, buildCache rounds ((nodes.map nodeRecord).flatMap (Record.bytes 32)) c
        = some ([], c') ∧ c'.nodes = c.nodes ++ nodes ∧
      c'.curSize.toNat = totalSize (c.nodes ++ nodes) := by
  induction nodes generalizing rounds c with
  | nil =>
    refine ⟨c, ?_, ?_, ?_⟩
    · cases rounds <;> rfl
    · rw [List.append_nil]
    · rw [List.append_nil, hsize]
  | cons node nodes ih =>
    rw [List.length_cons] at hrounds
    obtain ⟨k, rfl⟩ : ∃ k, rounds = k + 1 := ⟨rounds - 1, by omega⟩
    rw [totalSize_append, totalSize_cons] at hfits
    have hcap := c.cap.toNat_lt
    have hsum : (c.curSize + node.dataSize).toNat = totalSize c.nodes + node.dataSize.toNat := by
      rw [UInt32.toNat_add, hsize]
      omega
    have hnew : ∀ old ∈ c.nodes, old.id ≠ node.id := fun old hold ↦
      (List.pairwise_append.mp hindexed).2.2 old hold node List.mem_cons_self
    let c₁ : Cache := { c with cachingMap := c.cachingMap.emplace node.fileKey ∅ }
    let c₂ : Cache := { c₁ with
      nodes := c.nodes ++ [node]
      curSize := c.curSize + node.dataSize }
    have hset : ∀ held, c₁.set held node = some c₂ := by
      intro held
      refine set_of_fits (c := c₁) hnew ?_
      change ¬ c.cap < c.curSize + node.dataSize
      rw [UInt32.lt_iff_toNat_lt, hsum]
      omega
    obtain ⟨c', hbuild, hnodes, hsize'⟩ := ih (show nodes.length ≤ k by omega) (c := c₂)
      (by rw [List.append_assoc]; exact hindexed)
      (by rw [hsum, totalSize_append, totalSize_cons, totalSize_nil, Nat.add_zero])
      (by
        rw [totalSize_append, totalSize_append, totalSize_cons, totalSize_nil]
        change _ ≤ c.cap.toNat
        omega)
    refine ⟨c', ?_, ?_, ?_⟩
    · have hrecord : ∀ held rest, buildRecord held node.fileKey
          (Record.bytes 32 (nodeRecord node) ++ rest).length
          ((nodeRecord node).body ++ 32 :: rest) c₁
            = some ([], c₂, rest) := by
        intro held rest
        obtain ⟨j, hj⟩ : ∃ j, (Record.bytes 32 (nodeRecord node) ++ rest).length = j + 1 :=
          ⟨_, (Nat.succ_pred_eq_of_pos (List.length_pos_of_ne_nil (by simp [Record.bytes]))).symm⟩
        rw [hj, nodeRecord, List.cons_append, List.append_assoc]
        exact buildRecord_node held rest (hset held) j
      rw [List.map_cons, List.flatMap_cons, buildCache_record fun held ↦ hrecord held _, hbuild]
      rfl
    · rw [hnodes, List.append_assoc]
      rfl
    · rw [hsize', List.append_assoc]
      rfl

/-! ## The round trip

The nodes are set from the tail on, each at the head, so the list comes out in its old order.
Nothing is evicted on the way, since all of them fitted in a cache of the same size. -/

theorem onWorkerClose_getTables (cacheHits evictions : ℕ) (c : Cache) :
    onWorkerClose (getTables cacheHits evictions c) = c.records.flatMap (Record.bytes 32) := by
  rw [onWorkerClose, getTables]
  exact List.take_left' (by simp)

theorem length_records_le (rs : List (Record 32)) :
    rs.length ≤ (rs.flatMap (Record.bytes 32)).length := by
  induction rs with
  | nil => exact Nat.zero_le _
  | cons r rs ih =>
    rw [List.flatMap_cons, List.length_append, List.length_cons]
    have : 0 < (Record.bytes 32 r).length :=
      List.length_pos_of_ne_nil (by simp [Record.bytes])
    omega

/-- **The cache that is handed over is built again.** The table is read to its end, there is one
read for each cached block, and the list has the same nodes in the same order. -/
theorem buildCache_getTables (c : Cache) (cacheHits evictions : ℕ) (hindexed : Indexed c.nodes)
    (hfits : totalSize c.nodes ≤ c.cap.toNat)
    (hblocks : ∀ file ∈ c.cachingMap.entries, file.2.entries ≠ []) :
    ∃ reads c',
      buildCache (onWorkerClose (getTables cacheHits evictions c)).length
          (onWorkerClose (getTables cacheHits evictions c)) (empty c.cap c.evictionPolicy)
        = some (reads, c') ∧
      (c.cachingMap.entries₂.map fun block ↦ (block.1, block.2.1)).Nodup ∧
      reads = c.cachingMap.entries₂.map (fun block ↦
        ⟨block.1, block.2.1 * 4096, UInt32.ofNat block.2.2.length⟩) ∧
      c'.nodes = c.nodes ∧ c'.curSize.toNat = totalSize c.nodes := by
  have hlen := length_records_le c.records
  rw [records, List.length_append, List.length_map, List.length_map] at hlen
  rw [onWorkerClose_getTables, records]
  obtain ⟨k, hk⟩ := Nat.exists_eq_add_of_le hlen
  obtain ⟨map, hfiles⟩ := buildCache_files c.cachingMap.entries hblocks (c.nodes.length + k)
    ((c.nodes.map nodeRecord).flatMap (Record.bytes 32)) (empty c.cap c.evictionPolicy)
  have hrounds : c.nodes.length ≤ c.nodes.length + k := Nat.le_add_right _ _
  obtain ⟨c', hnodes, heq, hsize⟩ := buildCache_nodes hrounds
    (c := { empty c.cap c.evictionPolicy with cachingMap := map }) hindexed rfl hfits
  refine ⟨_, c', ?_, FiniteMap.nodup_entries₂ _, rfl, heq, hsize⟩
  rw [hk, List.flatMap_append, Nat.add_assoc, hfiles, hnodes, Option.map_some, List.append_nil,
    FiniteMap.entries₂, List.map_flatMap]
  simp [blockSizes, blockRequest, Function.comp_def]

/-- A file with two blocks whose ids and sizes are the bytes of a space and of a dot. -/
def spaced : Cache where
  evictionPolicy := .lru
  cap := 4096
  curSize := 78
  nodes := [⟨List.Vector.replicate 32 32, 46, 46⟩, ⟨List.Vector.replicate 32 32, 32, 32⟩]
  cachingMap := AList.insert (List.Vector.replicate 32 32)
    (AList.insert 32 (List.replicate 32 7) (AList.insert 46 (List.replicate 46 7) ∅)) ∅

/-- Delimiters in the key, the ids and the sizes do not disturb the round trip. -/
theorem buildCache_spaced :
    ∃ reads c',
      buildCache (onWorkerClose (getTables 3 1 spaced)).length
          (onWorkerClose (getTables 3 1 spaced)) (empty 4096 .lru) = some (reads, c') ∧
      reads = [⟨List.Vector.replicate 32 32, 131072, 32⟩,
        ⟨List.Vector.replicate 32 32, 188416, 46⟩] ∧
      c'.nodes = spaced.nodes := by
  obtain ⟨reads, c', hbuild, -, hreads, hnodes, -⟩ :=
    buildCache_getTables spaced 3 1 (by decide) (by decide) (by decide)
  exact ⟨reads, c', hbuild, hreads.trans (by decide), hnodes⟩

end Cache

end Slsfs.Datafunction

import Mathlib.Data.List.Infix
import Slsfs.Datafunction.CacheRange
import Slsfs.Datafunction.LruList

/-!
# The map and the list of the cache

The blocks are in `caching_map_` and the order of eviction is in the list of `LRUCache`, and
`write_to_cache` updates the two one after the other. They agree along a run as long as no request
comes to one of the places where they part:

* a request of no bytes for a file that is not cached puts an empty block map there;
* the blocks of a file that is not cached are collected aside, and those that `set` evicts on the
  way are put in the map all the same;
* a block that is cached keeps its bytes, and their number, when it is written again;
* a file of which the last block is evicted, to make room for another one of its blocks, is not in
  the map any more when that block is to be put there.
-/

namespace Slsfs.Datafunction

open LeveldbPack

namespace Cache

/-! ## The books

`Tracked` are the blocks that the list knows, `Booked` says that the map has the same blocks and
that the sizes agree with the lengths of the buffers. A node is never larger than a block of the
cache. -/

/-- The list keeps track of the blocks. -/
def Tracked (nodes : List CacheEntry) (store : Key × UInt32 → Option Buf) : Prop :=
  Tracks CacheEntry.id (fun node ↦ node.dataSize.toNat) List.length nodes store

/-- **The invariant.** -/
structure Booked (c : Cache) : Prop where
  sound : c.Sound
  small : ∀ node ∈ c.nodes, node.dataSize.toNat ≤ 4096
  tracked : Tracked c.nodes (store c.cachingMap)
  noneEmpty : c.cachingMap.NoneEmpty

private theorem booked_empty (cachesize : UInt32) (policy : EvictionPolicy) :
    Booked (empty cachesize policy) where
  sound := ⟨List.Pairwise.nil, rfl, Nat.zero_le _⟩
  small := fun _ h ↦ nomatch h
  tracked := ⟨List.Pairwise.nil, fun _ h ↦ (nomatch h), fun _ _ h ↦ (nomatch h)⟩
  noneEmpty := fun _ _ h ↦ nomatch h

private theorem Booked.exists_node {c : Cache} (h : Booked c) {id : Key × UInt32} {buf : Buf}
    (hbuf : store c.cachingMap id = some buf) :
    ∃ node ∈ c.nodes, node.id = id ∧ node.dataSize.toNat = buf.length := by
  obtain ⟨node, hnode, rfl⟩ := h.tracked.listed id buf hbuf
  obtain ⟨buf', hbuf', hsize⟩ := h.tracked.held node hnode
  rw [hbuf, Option.some_inj] at hbuf'
  subst hbuf'
  exact ⟨node, hnode, rfl, hsize.symm⟩

theorem small_append {nodes kept : List CacheEntry} {key : CacheEntry}
    (h : ∀ node ∈ nodes, node.dataSize.toNat ≤ 4096) (hkept : kept.Sublist nodes)
    (hkey : key.dataSize.toNat ≤ 4096) : ∀ node ∈ kept ++ [key], node.dataSize.toNat ≤ 4096 := by
  intro node hnode
  rcases List.mem_append.mp hnode with hnode | hnode
  · exact h node (hkept.subset hnode)
  · rw [List.mem_singleton.mp hnode]
    exact hkey

/-! ## Reading

A hit moves the nodes of its blocks to the head, one after the other, and changes nothing in the
map. -/

theorem Booked.set_of_mem {c : Cache} (h : Booked c) {node : CacheEntry} (hnode : node ∈ c.nodes)
    (held : Option Key) :
    ∃ c', c.set held node = some c' ∧ Booked c' ∧ c'.cachingMap = c.cachingMap ∧
      c'.cap = c.cap := by
  obtain ⟨c', hset, hnodes, hmap, hcap, hsound⟩ := Cache.set_of_mem h.sound hnode held
  refine ⟨c', hset, ⟨hsound, ?_, ?_, by rw [hmap]; exact h.noneEmpty⟩, hmap, hcap⟩
  · rw [hnodes]
    exact small_append h.small List.filter_sublist (h.small node hnode)
  rw [hnodes, hmap]
  refine h.tracked.touch List.filter_sublist (fun other hother ↦ (mem_others.mp hother).2)
    (h.tracked.held node hnode) (fun _ _ ↦ rfl) ?_
  intro id buf hne hbuf
  obtain ⟨other, hother, rfl⟩ := h.tracked.listed id buf hbuf
  exact ⟨other, mem_others.mpr ⟨hother, hne⟩, rfl⟩

theorem readBlocks_booked {uuid : Key} {blocks : BlockMap} {c : Cache} (h : Booked c)
    (hblocks : c.cachingMap.lookup uuid = some blocks) (ids : List UInt32) (acc : Buf) :
    ∃ found c', readBlocks uuid blocks ids c acc = some (found, c') ∧ Booked c' ∧
      c'.cachingMap = c.cachingMap ∧ c'.cap = c.cap ∧
      (found = none → ¬ ∀ id ∈ ids, (blocks.lookup id).isSome) ∧
      ∀ id ∈ ids.head?, blocks.lookup id = none → c' = c := by
  induction ids generalizing c acc with
  | nil =>
    exact ⟨some acc, c, rfl, h, rfl, rfl, fun hnone ↦ (nomatch hnone), fun _ hid ↦ (nomatch hid)⟩
  | cons id ids ih =>
    rw [readBlocks]
    cases hblock : blocks.lookup id with
    | none =>
      refine ⟨none, c, rfl, h, rfl, rfl, fun _ hall ↦ ?_, fun _ _ _ ↦ rfl⟩
      have := hall id List.mem_cons_self
      rw [hblock] at this
      cases this
    | some block =>
      have hstore : store c.cachingMap (uuid, id) = some block :=
        FiniteMap.lookup₂_eq_some.mpr ⟨blocks, hblocks, hblock⟩
      obtain ⟨c₁, htouch, hbooked, hmap, hcap⟩ : ∃ c₁, (if c.evictionPolicy = .fifo then some c
          else c.set (some uuid) ⟨uuid, id, UInt32.ofNat block.length⟩) = some c₁ ∧ Booked c₁ ∧
            c₁.cachingMap = c.cachingMap ∧ c₁.cap = c.cap := by
        split
        · exact ⟨c, rfl, h, rfl, rfl⟩
        · obtain ⟨node, hnode, hid, hsize⟩ := h.exists_node hstore
          have heq : (⟨uuid, id, UInt32.ofNat block.length⟩ : CacheEntry) = node := by
            rw [← hsize, UInt32.ofNat_toNat]
            obtain ⟨hfile, hblockId⟩ := Prod.mk.inj hid
            rw [← hfile, ← hblockId]
          rw [heq]
          exact h.set_of_mem hnode (some uuid)
      obtain ⟨found, c', hread, hbooked', hmap', hcap', hfound, -⟩ :=
        ih hbooked (by rw [hmap]; exact hblocks) (acc ++ block)
      refine ⟨found, c', ?_, hbooked', hmap'.trans hmap, hcap'.trans hcap, ?_, ?_⟩
      · dsimp only
        rw [htouch]
        exact hread
      · intro hnone hall
        exact hfound hnone fun i hi ↦ hall i (List.mem_cons_of_mem _ hi)
      · intro i hi hnone
        rw [List.head?_cons, Option.mem_some_iff] at hi
        subst hi
        rw [hblock] at hnone
        cases hnone

/-! ## Writing to a file that is cached

Each block is first put in the list, which may evict others, and then in the map. The two agree
after the round if the block is put in the map where it is not there yet, that is, if the file still
is. A round that evicts the last block of the file makes them part. -/

theorem Evicts.store_of_kept {size cap : UInt32} {nodes dropped kept : List CacheEntry}
    {map map' : CachingMap} (h : Evicts size cap nodes map dropped kept map')
    (hindexed : Indexed nodes) {node : CacheEntry} (hnode : node ∈ kept) :
    store map' node.id = store map node.id := by
  rw [h.store_eq, if_neg]
  intro hmem
  obtain ⟨other, hother, heq⟩ := List.mem_map.mp hmem
  rw [h.nodes_eq] at hindexed
  exact (List.pairwise_append.mp hindexed).2.2 other hother node hnode heq

theorem Evicts.kept_of_store {size cap : UInt32} {nodes dropped kept : List CacheEntry}
    {map map' : CachingMap} (h : Evicts size cap nodes map dropped kept map')
    {id : Key × UInt32} {buf : Buf} (hbuf : store map' id = some buf) :
    store map id = some buf ∧ ∀ node ∈ nodes, node.id = id → node ∈ kept := by
  rw [h.store_eq] at hbuf
  split at hbuf
  · cases hbuf
  · rename_i hdropped
    refine ⟨hbuf, fun node hnode heq ↦ ?_⟩
    rw [h.nodes_eq] at hnode
    rcases List.mem_append.mp hnode with hnode | hnode
    · exact absurd (List.mem_map.mpr ⟨node, hnode, heq⟩) hdropped
    · exact hnode

theorem store_insert_emplace {map : CachingMap} {key : CacheEntry} {blocks : BlockMap}
    (hblocks : map.lookup key.fileKey = some blocks) (buf : Buf) (id : Key × UInt32) :
    store (map.insert key.fileKey (blocks.emplace key.blockId buf)) id
      = if id = key.id then some ((store map id).getD buf) else store map id := by
  obtain ⟨file, blockId⟩ := id
  rw [store, store]
  by_cases hfile : file = key.fileKey
  · subst hfile
    rw [FiniteMap.lookup₂_insert, FiniteMap.lookup₂, hblocks, Option.bind_some]
    by_cases hblock : blockId = key.blockId
    · subst hblock
      have heq : (key.fileKey, key.blockId) = key.id := rfl
      rw [if_pos heq, FiniteMap.lookup_emplace]
    · have hne : (key.fileKey, blockId) ≠ key.id := fun h ↦ hblock (Prod.mk.inj h).2
      rw [if_neg hne, FiniteMap.lookup_emplace_of_ne _ _ hblock]
  · have hne : (file, blockId) ≠ key.id := fun h ↦ hfile (Prod.mk.inj h).1
    rw [if_neg hne, FiniteMap.lookup₂_insert_of_ne _ _ _ hfile]

/-- After room has been made for a block its file is still cached: the block itself is, or there is
room for a node of the file with all that were used later. -/
def Stays (c : Cache) (key : CacheEntry) : Prop :=
  (store c.cachingMap key.id).isSome ∨ ∃ recent ∈ c.nodes.tails,
    (∃ node ∈ recent.head?, node.fileKey = key.fileKey) ∧
      totalSize recent + key.dataSize.toNat ≤ c.cap.toNat

instance (c : Cache) (key : CacheEntry) : Decidable (Stays c key) :=
  inferInstanceAs (Decidable (_ ∨ ∃ recent ∈ c.nodes.tails,
    (∃ node ∈ recent.head?, node.fileKey = key.fileKey) ∧ _))

theorem Booked.update {c : Cache} (h : Booked c) (hroomy : c.Roomy) (key : CacheEntry)
    (hkey : key.dataSize.toNat ≤ 4096)
    {buf : Buf} (hbuf : buf.length = key.dataSize.toNat)
    (hold : ∀ old, store c.cachingMap key.id = some old → old.length = key.dataSize.toNat)
    (hstays : Stays c key) :
    ∃ c₁ blocks c', c.set none key = some c₁ ∧ c₁.cachingMap.lookup key.fileKey = some blocks ∧
      c' = { c₁ with
        cachingMap := c₁.cachingMap.insert key.fileKey (blocks.emplace key.blockId buf) } ∧
      Booked c' ∧ c'.cap = c.cap ∧ (∃ kept, c'.nodes = kept ++ [key]) ∧
      ∀ id old, id ≠ key.id → store c'.cachingMap id = some old →
        store c.cachingMap id = some old := by
  obtain ⟨dropped, kept, c₁, hset, hevicts, hnodes, hcap₁, hsound⟩ :=
    set_spec h.sound hroomy hkey
  have hothers : Indexed (others c.nodes key.id) :=
    List.Pairwise.sublist List.filter_sublist h.sound.indexed
  have hkept : kept.Sublist (others c.nodes key.id) := by
    rw [hevicts.nodes_eq]
    exact List.sublist_append_right dropped kept
  -- the block itself is not evicted, since its node was taken off before
  have hself : store c₁.cachingMap key.id = store c.cachingMap key.id := by
    rw [hevicts.store_eq, if_neg]
    intro hmem
    obtain ⟨node, hnode, heq⟩ := List.mem_map.mp hmem
    have : node ∈ others c.nodes key.id := by
      rw [hevicts.nodes_eq]
      exact List.mem_append_left _ hnode
    exact (mem_others.mp this).2 heq
  -- some block of the file is left
  obtain ⟨blockId, hleft⟩ : ∃ blockId, (store c₁.cachingMap (key.fileKey, blockId)).isSome := by
    by_cases hcached : (store c.cachingMap key.id).isSome
    · exact ⟨key.blockId, by rw [← hself] at hcached; exact hcached⟩
    · obtain ⟨recent, hrecent, ⟨node, hnode, hfile⟩, hroom⟩ := hstays.resolve_left hcached
      have hall : others c.nodes key.id = c.nodes := by
        refine others_eq_self fun other hother heq ↦ hcached ?_
        obtain ⟨old, hget, -⟩ := h.tracked.held other hother
        rw [heq] at hget
        rw [hget]
        rfl
      -- what is used later than a node of the file stays, and so does that node
      have hsuffix := hevicts.longest recent
        (by rw [hall]; exact (List.mem_tails _ _).mp hrecent) hroom
      have hmem : node ∈ kept := hsuffix.subset (List.mem_of_mem_head? hnode)
      obtain ⟨old, hget, -⟩ := h.tracked.held node (List.filter_sublist.subset (hkept.subset hmem))
      refine ⟨node.blockId, ?_⟩
      rw [← hfile]
      change (store c₁.cachingMap node.id).isSome
      rw [hevicts.store_of_kept hothers hmem, hget]
      rfl
  obtain ⟨old, hold'⟩ := Option.isSome_iff_exists.mp hleft
  obtain ⟨blocks, hblocks, -⟩ := FiniteMap.lookup₂_eq_some.mp hold'
  have hstore := store_insert_emplace hblocks buf
  refine ⟨c₁, blocks, _, hset, hblocks, rfl,
    ⟨⟨hsound.indexed, hsound.size, hsound.fits⟩, ?_, ?_, ?_⟩,
    hcap₁, ⟨kept, hnodes⟩, ?_⟩
  · rw [hnodes]
    exact small_append h.small (hkept.trans List.filter_sublist) hkey
  · rw [hnodes]
    refine h.tracked.touch (hkept.trans List.filter_sublist)
      (fun node hnode ↦ (mem_others.mp (hkept.subset hnode)).2) ?_ ?_ ?_
    · rw [hstore, if_pos rfl, hself]
      refine ⟨_, rfl, ?_⟩
      cases hget : store c.cachingMap key.id with
      | none => exact hbuf
      | some old => exact hold old hget
    · intro node hnode
      rw [hstore, if_neg (mem_others.mp (hkept.subset hnode)).2,
        hevicts.store_of_kept hothers hnode]
    · intro id old hne hget
      rw [hstore, if_neg hne] at hget
      obtain ⟨hprev, hmem⟩ := hevicts.kept_of_store hget
      obtain ⟨node, hnode, heq, -⟩ := h.exists_node hprev
      exact ⟨node, hmem node (mem_others.mpr ⟨hnode, heq ▸ hne⟩) heq, heq⟩
  · refine (hevicts.noneEmpty h.noneEmpty).insert _ ?_
    exact FiniteMap.entries_ne_nil_of_lookup (FiniteMap.lookup_emplace blocks key.blockId buf)
  · intro id old hne hget
    rw [hstore, if_neg hne] at hget
    exact (hevicts.kept_of_store hget).1

section Write

variable {position size : UInt32} {data : Buf} {uuid : Key}

private theorem updateBlocks_booked {ids : List UInt32} {c : Cache} (h : Booked c)
    (hroomy : c.Roomy) (hnodup : ids.Nodup)
    (hlen : ∀ id ∈ ids,
      (toEmplace position size data id).length = (copySize position size id).toNat)
    (hold : ∀ id ∈ ids, ∀ old, store c.cachingMap (uuid, id) = some old →
      old.length = (copySize position size id).toNat)
    (hstays : ∀ id ∈ ids.head?, Stays c ⟨uuid, id, copySize position size id⟩)
    (hpairs : ids.Pairwise fun a b ↦
      (copySize position size a).toNat + (copySize position size b).toNat ≤ c.cap.toNat) :
    ∃ c', updateBlocks position size data uuid ids c = some c' ∧ Booked c' ∧ c'.cap = c.cap := by
  induction ids generalizing c with
  | nil => exact ⟨c, rfl, h, rfl⟩
  | cons id ids ih =>
    obtain ⟨c₁, blocks, c₂, hset, hblocks, rfl, hbooked, hcap₂, ⟨kept, hnodes⟩, hprev⟩ :=
      h.update hroomy ⟨uuid, id, copySize position size id⟩ (toNat_copySize_le position size id)
        (hlen id List.mem_cons_self) (hold id List.mem_cons_self) (hstays id rfl)
    obtain ⟨hnotMem, hnodup'⟩ := List.nodup_cons.mp hnodup
    obtain ⟨hpair, hpairs'⟩ := List.pairwise_cons.mp hpairs
    obtain ⟨c', hrest, hbooked', hcap'⟩ := ih hbooked (hroomy.of_cap hcap₂) hnodup'
      (fun i hi ↦ hlen i (List.mem_cons_of_mem _ hi))
      (fun i hi old hget ↦ hold i (List.mem_cons_of_mem _ hi) old
        (hprev _ old (fun heq ↦ hnotMem (by
          obtain ⟨-, rfl⟩ := Prod.mk.inj heq
          exact hi)) hget))
      -- from the second round on the file stays cached through the block before
      (fun i hi ↦ .inr ⟨[⟨uuid, id, copySize position size id⟩], by
          rw [hnodes]
          exact (List.mem_tails _ _).mpr (List.suffix_append _ _),
        ⟨_, rfl, rfl⟩, by
          rw [hcap₂, totalSize_cons, totalSize_nil]
          exact hpair i (List.mem_of_mem_head? hi)⟩)
      (by rw [hcap₂]; exact hpairs')
    refine ⟨c', ?_, hbooked', hcap'.trans hcap₂⟩
    rw [updateBlocks, hset]
    dsimp only
    rw [hblocks]
    exact hrest

/-! ## Writing to a file that is not cached

The blocks are put in the list one by one, and aside for the map. In the middle of the loop the list
has blocks that the map does not have: those collected so far (`Collecting`). None of them may be
evicted on the way, for then it would be put in the map all the same. -/

/-- The blocks of the map and those that are collected for one more file. -/
def storeWith (map : CachingMap) (uuid : Key) (blocks : BlockMap) (id : Key × UInt32) :
    Option Buf :=
  if id.1 = uuid then blocks.lookup id.2 else store map id

/-- Between two rounds of the loop: the list already has the blocks that are collected. Together
with those to come they fit. -/
structure Collecting (c : Cache) (uuid : Key) (blocks : BlockMap) (left : ℕ) : Prop where
  sound : c.Sound
  small : ∀ node ∈ c.nodes, node.dataSize.toNat ≤ 4096
  tracked : Tracked c.nodes (storeWith c.cachingMap uuid blocks)
  noneEmpty : c.cachingMap.NoneEmpty
  absent : c.cachingMap.lookup uuid = none
  recent : ∃ mine, mine <:+ c.nodes ∧ (∀ node ∈ c.nodes, node.fileKey = uuid → node ∈ mine) ∧
    totalSize mine + left ≤ c.cap.toNat

theorem lookup_eq_none {map : CachingMap} (h : map.NoneEmpty) {uuid : Key}
    (hnone : ∀ blockId, store map (uuid, blockId) = none) : map.lookup uuid = none := by
  by_contra hsome
  obtain ⟨blocks, hblocks⟩ := Option.ne_none_iff_exists'.mp hsome
  obtain ⟨⟨blockId, buf⟩, hmem⟩ := List.exists_mem_of_ne_nil _ (h uuid blocks hblocks)
  have hstore : store map (uuid, blockId) = some buf :=
    FiniteMap.lookup₂_eq_some.mpr ⟨blocks, hblocks, AList.mem_lookup_iff.mpr hmem⟩
  rw [hnone blockId] at hstore
  cases hstore

theorem Collecting.collect {c : Cache} (key : CacheEntry) {blocks : BlockMap} {left : ℕ}
    (h : Collecting c key.fileKey blocks (key.dataSize.toNat + left)) (hroomy : c.Roomy)
    (hkey : key.dataSize.toNat ≤ 4096) {buf : Buf}
    (hbuf : buf.length = key.dataSize.toNat) (hnew : blocks.lookup key.blockId = none) :
    ∃ c', c.set none key = some c' ∧ c'.cap = c.cap ∧
      Collecting c' key.fileKey (blocks.emplace key.blockId buf) left := by
  obtain ⟨dropped, kept, c', hset, hevicts, hnodes, hcap', hsound⟩ :=
    set_spec h.sound hroomy hkey
  -- every node is that of a block, and this block is new
  have hother : ∀ node ∈ c.nodes, node.id ≠ key.id := by
    intro node hnode heq
    obtain ⟨old, hold, -⟩ := h.tracked.held node hnode
    rw [heq, storeWith, if_pos (show key.id.1 = key.fileKey from rfl)] at hold
    cases hnew.symm.trans hold
  rw [others_eq_self hother] at hevicts
  have hkept : kept <:+ c.nodes := ⟨dropped, hevicts.nodes_eq.symm⟩
  obtain ⟨mine, hmine, hall, hfits⟩ := h.recent
  -- the blocks collected so far are the last ones used, so none of them is evicted
  have hmine' : mine <:+ kept := hevicts.longest mine hmine (by omega)
  have habsent : ∀ blockId, store c.cachingMap (key.fileKey, blockId) = none := by
    intro blockId
    rw [store, FiniteMap.lookup₂, h.absent]
    rfl
  have hnoneEmpty := hevicts.noneEmpty h.noneEmpty
  have hemplace : (blocks.emplace key.blockId buf).lookup key.blockId = some buf := by
    rw [FiniteMap.lookup_emplace, hnew, Option.getD_none]
  have hblock : ∀ id : Key × UInt32, id ≠ key.id → id.1 = key.fileKey →
      (blocks.emplace key.blockId buf).lookup id.2 = blocks.lookup id.2 := by
    intro id hne hfile
    exact FiniteMap.lookup_emplace_of_ne _ _ fun heq ↦ hne (Prod.ext hfile heq)
  refine ⟨c', hset, hcap', hsound, ?_, ?_, hnoneEmpty, ?_, ?_⟩
  · rw [hnodes]
    exact small_append h.small hkept.sublist hkey
  · rw [hnodes]
    refine h.tracked.touch hkept.sublist
      (fun node hnode ↦ hother node (hkept.subset hnode)) ?_ ?_ ?_
    · rw [storeWith, if_pos (show key.id.1 = key.fileKey from rfl)]
      exact ⟨buf, hemplace, hbuf⟩
    · intro node hnode
      rw [storeWith, storeWith]
      split
      · rename_i hfile
        exact hblock node.id (hother node (hkept.subset hnode)) hfile
      · exact hevicts.store_of_kept h.sound.indexed hnode
    · intro id old hne hold
      rw [storeWith] at hold
      split at hold
      · rename_i hfile
        rw [hblock id hne hfile] at hold
        obtain ⟨node, hnode, heq⟩ := h.tracked.listed id old (by rw [storeWith, if_pos hfile, hold])
        refine ⟨node, hmine'.subset (hall node hnode ?_), heq⟩
        rw [← hfile, ← heq]
        rfl
      · rename_i hfile
        obtain ⟨hprev, hmem⟩ := hevicts.kept_of_store hold
        obtain ⟨node, hnode, heq⟩ := h.tracked.listed id old
          (by rw [storeWith, if_neg hfile, hprev])
        exact ⟨node, hmem node hnode heq, heq⟩
  · refine lookup_eq_none hnoneEmpty fun blockId ↦ ?_
    rw [hevicts.store_eq, habsent]
    split <;> rfl
  · refine ⟨mine ++ [key], ?_, ?_, ?_⟩
    · rw [hnodes]
      obtain ⟨before, rfl⟩ := hmine'
      exact ⟨before, by rw [List.append_assoc]⟩
    · intro node hnode hfile
      rw [hnodes] at hnode
      rcases List.mem_append.mp hnode with hnode | hnode
      · exact List.mem_append_left _ (hall node (hkept.subset hnode) hfile)
      · exact List.mem_append_right _ hnode
    · rw [hcap', totalSize_append, totalSize_cons, totalSize_nil]
      omega

private theorem collectBlocks_collecting {ids : List UInt32} {c : Cache} {blocks : BlockMap}
    (h : Collecting c uuid blocks (ids.map fun id ↦ (copySize position size id).toNat).sum)
    (hroomy : c.Roomy) (hnodup : ids.Nodup)
    (hlen : ∀ id ∈ ids,
      (toEmplace position size data id).length = (copySize position size id).toNat)
    (hnew : ∀ id ∈ ids, blocks.lookup id = none) :
    ∃ c' blocks', collectBlocks position size data uuid ids c blocks = some (c', blocks') ∧
      Collecting c' uuid blocks' 0 ∧ c'.cap = c.cap ∧
      (ids ≠ [] ∨ blocks.entries ≠ [] → blocks'.entries ≠ []) := by
  induction ids generalizing c blocks with
  | nil => exact ⟨c, blocks, rfl, h, rfl, fun hne ↦ hne.resolve_left fun hnil ↦ hnil rfl⟩
  | cons id ids ih =>
    rw [List.map_cons, List.sum_cons] at h
    obtain ⟨hnotMem, hnodup'⟩ := List.nodup_cons.mp hnodup
    obtain ⟨c₁, hset, hcap₁, hcollect⟩ := Collecting.collect
      ⟨uuid, id, copySize position size id⟩ h hroomy (toNat_copySize_le position size id)
      (hlen id List.mem_cons_self) (hnew id List.mem_cons_self)
    obtain ⟨c', blocks', hrest, hdone, hcap', hne⟩ := ih hcollect (hroomy.of_cap hcap₁)
      hnodup' (fun i hi ↦ hlen i (List.mem_cons_of_mem _ hi))
      (fun i hi ↦ by
        have hne : i ≠ id := fun heq ↦ hnotMem (heq ▸ hi)
        exact (FiniteMap.lookup_emplace_of_ne _ _ hne).trans (hnew i (List.mem_cons_of_mem _ hi)))
    refine ⟨c', blocks', ?_, hdone, hcap'.trans hcap₁, fun _ ↦ hne (.inr ?_)⟩
    · rw [collectBlocks, hset]
      exact hrest
    · exact FiniteMap.entries_ne_nil_of_lookup (FiniteMap.lookup_emplace blocks id _)

theorem Collecting.emplace {c : Cache} {blocks : BlockMap} (h : Collecting c uuid blocks 0)
    (hne : blocks.entries ≠ []) :
    Booked { c with cachingMap := c.cachingMap.emplace uuid blocks } := by
  have hinsert : c.cachingMap.emplace uuid blocks = c.cachingMap.insert uuid blocks := by
    rw [FiniteMap.emplace, h.absent]
    rfl
  refine ⟨⟨h.sound.indexed, h.sound.size, h.sound.fits⟩, h.small, ?_, ?_⟩
  · refine h.tracked.congr fun id ↦ ?_
    rw [hinsert, storeWith, store]
    split
    · rename_i hfile
      rw [hfile, FiniteMap.lookup₂_insert]
    · rename_i hfile
      rw [FiniteMap.lookup₂_insert_of_ne _ _ _ hfile]
      rfl
  · rw [hinsert]
    exact h.noneEmpty.insert uuid hne

/-! ## The blocks of a request

How many blocks a request has, which ids and which sizes. The last block may be shorter than the
others; the sizes add up to that of the request. -/

/-- The number of blocks of a request. -/
def blockCount (size : UInt32) : ℕ := (size.toNat + 4095) / 4096

/-- The id of the block number `k`. -/
def blockNo (position : UInt32) (k : ℕ) : UInt32 := UInt32.ofNat (position.toNat / 4096 + k)

/-- The number of bytes of the block number `k`. -/
def newSize (size : UInt32) (k : ℕ) : ℕ := min 4096 (size.toNat - 4096 * k)

section

variable (hrange : position.toNat + size.toNat < 2 ^ 31)

include hrange

private theorem rounds_eq_blockCount : rounds position (position + size) = blockCount size := by
  rw [rounds, UInt32.toNat_add, blockCount]
  omega

private theorem getBlockIds_eq :
    getBlockIds position size = some ((List.range (blockCount size)).map (blockNo position)) := by
  have hends : ¬Diverges position (position + size) := by
    rw [Diverges, UInt32.toNat_add]
    omega
  rw [getBlockIds_of_not_diverges hends, rounds_eq_blockCount hrange]
  rfl

private theorem copySize_blockNo {k : ℕ} (hk : k < blockCount size) :
    (copySize position size (blockNo position k)).toNat = newSize size k :=
  copySize_eq (by rwa [rounds_eq_blockCount hrange])

private theorem length_toEmplace (hdata : data.length = size.toNat) {k : ℕ}
    (hk : k < blockCount size) :
    (toEmplace position size data (blockNo position k)).length = newSize size k := by
  rw [blockNo, toEmplace_eq hdata (by rwa [rounds_eq_blockCount hrange]), List.length_take,
    List.length_drop, hdata, newSize]

private theorem nodup_blockNos : ((List.range (blockCount size)).map (blockNo position)).Nodup := by
  rw [← rounds_eq_blockCount hrange]
  exact nodup_idsFrom position size

end

theorem sum_newSize (size : UInt32) (count : ℕ) :
    ((List.range count).map (newSize size)).sum = min size.toNat (4096 * count) := by
  induction count with
  | zero => simp
  | succ count ih =>
    rw [List.range_succ, List.map_append, List.sum_append, ih, List.map_singleton,
      List.sum_singleton, newSize]
    omega

/-! ## A request

`Writable` is what the first sections ask for, in terms of the cache before the request and the size
of the request. -/

/-- What `write_to_cache` needs. For a file that is not cached: there are bytes, and the cache is
large enough for all of them. For a file that is cached: the blocks that are cached have the sizes
they are written with, two blocks fit in the cache if there are two, and the file stays cached while
room is made for the first of them. -/
def Writable (c : Cache) (uuid : Key) (position size : UInt32) : Prop :=
  if (c.cachingMap.lookup uuid).isNone then 0 < size.toNat ∧ size.toNat ≤ c.cap.toNat
  else
    (∀ k < blockCount size, ∀ old ∈ store c.cachingMap (uuid, blockNo position k),
      old.length = newSize size k) ∧
    min size.toNat 8192 ≤ c.cap.toNat ∧
    (size = 0 ∨ Stays c ⟨uuid, blockNo position 0, UInt32.ofNat (newSize size 0)⟩)

instance (c : Cache) (uuid : Key) (position size : UInt32) :
    Decidable (Writable c uuid position size) :=
  inferInstanceAs (Decidable (if (c.cachingMap.lookup uuid).isNone then _ ∧ _
    else (∀ k < blockCount size, ∀ old ∈ store c.cachingMap (uuid, blockNo position k),
      old.length = newSize size k) ∧ _ ∧ _))

private theorem writeToCache_booked {c : Cache} (h : Booked c) (hroomy : c.Roomy)
    (hrange : position.toNat + size.toNat < 2 ^ 31)
    (hdata : data.length = size.toNat) (hwritable : Writable c uuid position size) :
    ∃ c', c.writeToCache position size data uuid = some c' ∧ Booked c' ∧ c'.cap = c.cap := by
  have hnodup := nodup_blockNos hrange
  have hlen : ∀ id ∈ (List.range (blockCount size)).map (blockNo position),
      (toEmplace position size data id).length = (copySize position size id).toNat := by
    intro id hid
    obtain ⟨k, hk, rfl⟩ := List.mem_map.mp hid
    rw [length_toEmplace hrange hdata (List.mem_range.mp hk),
      copySize_blockNo hrange (List.mem_range.mp hk)]
  rw [writeToCache, getBlockIds_eq hrange]
  dsimp only
  rw [Writable] at hwritable
  cases hlookup : c.cachingMap.lookup uuid with
  | none =>
    rw [hlookup, if_pos Option.isNone_none] at hwritable
    obtain ⟨hpos, hfits⟩ := hwritable
    have hsum : (((List.range (blockCount size)).map (blockNo position)).map fun id ↦
        (copySize position size id).toNat).sum = size.toNat := by
      have hsizes : ((List.range (blockCount size)).map (blockNo position)).map
          (fun id ↦ (copySize position size id).toNat)
            = (List.range (blockCount size)).map (newSize size) := by
        rw [List.map_map]
        exact List.map_congr_left fun k hk ↦ copySize_blockNo hrange (List.mem_range.mp hk)
      rw [hsizes, sum_newSize, blockCount]
      omega
    have habsent : ∀ blockId, store c.cachingMap (uuid, blockId) = none := by
      intro blockId
      rw [store, FiniteMap.lookup₂, hlookup]
      rfl
    have hstart : Collecting c uuid ∅ (((List.range (blockCount size)).map (blockNo position)).map
        fun id ↦ (copySize position size id).toNat).sum := by
      refine ⟨h.sound, h.small, h.tracked.congr fun id ↦ ?_, h.noneEmpty, hlookup, [],
        List.nil_suffix, ?_, ?_⟩
      · rw [storeWith]
        split
        · rename_i hfile
          rw [← hfile] at habsent
          exact (habsent id.2).symm
        · rfl
      · intro node hnode hfile
        obtain ⟨old, hold, -⟩ := h.tracked.held node hnode
        have hnone := habsent node.blockId
        rw [← hfile] at hnone
        cases hnone.symm.trans hold
      · rw [hsum, totalSize_nil, Nat.zero_add]
        exact hfits
    obtain ⟨c', blocks, hcollect, hdone, hcap', hne⟩ :=
      collectBlocks_collecting hstart hroomy hnodup hlen fun _ _ ↦ rfl
    have hids : (List.range (blockCount size)).map (blockNo position) ≠ [] := by
      rw [ne_eq, List.map_eq_nil_iff, List.range_eq_nil, blockCount]
      omega
    refine ⟨_, ?_, hdone.emplace (hne (.inl hids)), hcap'⟩
    rw [hcollect]
  | some blocks =>
    rw [hlookup, if_neg (by simp)] at hwritable
    obtain ⟨hold, htwo, hstays⟩ := hwritable
    refine updateBlocks_booked h hroomy hnodup hlen ?_ ?_ ?_
    · intro id hid old hget
      obtain ⟨k, hk, rfl⟩ := List.mem_map.mp hid
      rw [copySize_blockNo hrange (List.mem_range.mp hk)]
      exact hold k (List.mem_range.mp hk) old hget
    · intro id hid
      have hmem := List.mem_of_mem_head? hid
      obtain ⟨k, hk, -⟩ := List.mem_map.mp hmem
      have hcount : 0 < blockCount size := (Nat.zero_le k).trans_lt (List.mem_range.mp hk)
      obtain ⟨count, hsucc⟩ : ∃ count, blockCount size = count + 1 :=
        ⟨blockCount size - 1, by omega⟩
      rw [hsucc, List.range_succ_eq_map, List.map_cons, List.head?_cons, Option.mem_some_iff] at hid
      subst hid
      have hfirst : copySize position size (blockNo position 0)
          = UInt32.ofNat (newSize size 0) := by
        rw [← copySize_blockNo hrange hcount, UInt32.ofNat_toNat]
      rw [hfirst]
      refine hstays.resolve_left fun hzero ↦ ?_
      rw [blockCount, hzero] at hcount
      exact absurd hcount (by decide)
    · refine List.pairwise_map.mpr (List.pairwise_lt_range.imp_of_mem fun {j k} hj hk hjk ↦ ?_)
      rw [List.mem_range] at hj hk
      rw [copySize_blockNo hrange hj, copySize_blockNo hrange hk, newSize, newSize]
      rw [blockCount] at hj hk
      omega

end Write

/-! ## The books -/

/-- **The books are right**: the list has the keys of the map, each node has the size of its block,
no file is cached without a block, and the blocks fit in the cache. -/
structure Bookkept (c : Cache) : Prop where
  keys : ∀ file blockId, (∃ node ∈ c.nodes, node.fileKey = file ∧ node.blockId = blockId) ↔
    (c.cachingMap.lookup₂ file blockId).isSome
  sizes : ∀ node ∈ c.nodes, ∀ buf ∈ c.cachingMap.lookup₂ node.fileKey node.blockId,
    node.dataSize.toNat = buf.length
  noneEmpty : ∀ file ∈ c.cachingMap.entries, file.2.entries ≠ []
  total : (c.cachingMap.entries₂.map fun block ↦ block.2.2.length).sum ≤ c.cap.toNat

private theorem Booked.bookkept {c : Cache} (h : Booked c) : Bookkept c where
  keys := by
    intro file blockId
    constructor
    · rintro ⟨node, hnode, rfl, rfl⟩
      obtain ⟨buf, hbuf, -⟩ := h.tracked.held node hnode
      change (store c.cachingMap node.id).isSome
      rw [hbuf]
      rfl
    · intro hsome
      obtain ⟨buf, hbuf⟩ := Option.isSome_iff_exists.mp hsome
      obtain ⟨node, hnode, hid, -⟩ := h.exists_node
        (show store c.cachingMap (file, blockId) = some buf from hbuf)
      exact ⟨node, hnode, (Prod.mk.inj hid).1, (Prod.mk.inj hid).2⟩
  sizes := by
    intro node hnode buf hbuf
    obtain ⟨buf', hbuf', hsize⟩ := h.tracked.held node hnode
    obtain rfl : buf = buf' := Option.some_inj.mp (hbuf.symm.trans hbuf')
    exact hsize.symm
  noneEmpty := by
    intro file hfile
    exact h.noneEmpty file.1 file.2 (AList.mem_lookup_iff.mpr hfile)
  total := by
    have hsum := h.tracked.sum_eq
      (c.cachingMap.entries₂.map fun block ↦ ((block.1, block.2.1), block.2.2))
      (by
        rw [List.map_map]
        exact FiniteMap.nodup_entries₂ c.cachingMap)
      (by
        rintro ⟨file, blockId⟩ buf
        refine Iff.trans ?_ FiniteMap.mem_entries₂
        rw [List.mem_map]
        constructor
        · rintro ⟨⟨file', blockId', buf'⟩, hmem, heq⟩
          cases heq
          exact hmem
        · exact fun hmem ↦ ⟨_, hmem, rfl⟩)
    rw [List.map_map] at hsum
    exact hsum.trans_le h.sound.fits

end Cache

/-! ## Along a run

A request that hits reads, and a request that does not reads from the storage and writes; a write
writes. `indexed_run` holds in every run, also in those in which the map and the list part: `set`
never makes a second node for a block. -/

def FileRequest.size : FileRequest → UInt32
  | .read input => input.size
  | .write input => input.size

/-- A read of which all blocks are cached. -/
def FileRequest.Hits (c : Cache) : FileRequest → Prop
  | .read input => (c.cachingMap.lookup input.uuid).isSome ∧
      ∀ k < Cache.blockCount input.size,
        (Cache.store c.cachingMap (input.uuid, Cache.blockNo input.position k)).isSome
  | .write _ => False

/-- The request does not come to a place where the map and the list part. -/
def FileRequest.Tidy (c : Cache) (input : FileRequest) : Prop :=
  input.Hits c ∨ Cache.Writable c input.uuid input.position input.size

instance (c : Cache) : (input : FileRequest) → Decidable (input.Hits c)
  | .read input => inferInstanceAs (Decidable (_ ∧ ∀ k < Cache.blockCount input.size, _))
  | .write _ => inferInstanceAs (Decidable False)

instance (c : Cache) (input : FileRequest) : Decidable (input.Tidy c) :=
  inferInstanceAs (Decidable (_ ∨ _))

section

variable {σ : Type*} {backend : Backend σ}

private theorem readFromCache_booked {c : Cache} (h : c.Booked) {input : ReadRequest}
    (hrange : input.position.toNat + input.size.toNat < 2 ^ 31)
    (htidy : FileRequest.Tidy c (.read input)) :
    ∃ found c', c.readFromCache input = some (found, c') ∧ c'.Booked ∧ c'.cap = c.cap ∧
      (found = none → Cache.Writable c' input.uuid input.position input.size) := by
  rw [Cache.readFromCache]
  cases hlookup : c.cachingMap.lookup input.uuid with
  | none =>
    refine ⟨none, c, rfl, h, rfl, fun _ ↦ htidy.resolve_left fun hhits ↦ ?_⟩
    have := hhits.1
    rw [hlookup] at this
    cases this
  | some blocks =>
    rw [Cache.getBlockIds_eq hrange]
    obtain ⟨found, c', hread, hbooked, hmap, hcap, hfound, hsame⟩ :=
      Cache.readBlocks_booked h hlookup
        ((List.range (Cache.blockCount input.size)).map (Cache.blockNo input.position)) []
    refine ⟨found, c', hread, hbooked, hcap, fun hnone ↦ ?_⟩
    have hstore : ∀ id, Cache.store c.cachingMap (input.uuid, id) = blocks.lookup id := by
      intro id
      rw [Cache.store, FiniteMap.lookup₂, hlookup]
      rfl
    have hwritable : Cache.Writable c input.uuid input.position input.size := by
      refine htidy.resolve_left fun hhits ↦ hfound hnone fun id hid ↦ ?_
      obtain ⟨k, hk, rfl⟩ := List.mem_map.mp hid
      rw [← hstore]
      exact hhits.2 k (List.mem_range.mp hk)
    -- if the first block is cached, it stays so; if not, no node has been moved
    rw [Cache.Writable, hmap, hlookup, if_neg (by simp), hcap]
    rw [Cache.Writable, hlookup, if_neg (by simp)] at hwritable
    obtain ⟨hold, htwo, hstays⟩ := hwritable
    refine ⟨hold, htwo, hstays.imp_right fun hstays ↦ ?_⟩
    cases hfirst : blocks.lookup (Cache.blockNo input.position 0) with
    | some block =>
      refine .inl ?_
      rw [hmap]
      change (Cache.store c.cachingMap (input.uuid, Cache.blockNo input.position 0)).isSome
      rw [hstore, hfirst]
      rfl
    | none =>
      rcases Nat.eq_zero_or_pos (Cache.blockCount input.size) with hzero | hpos
      · rw [hzero, List.range_zero, List.map_nil] at hfound
        exact absurd (fun id hid ↦ absurd hid List.not_mem_nil) (hfound hnone)
      · obtain ⟨count, hsucc⟩ : ∃ count, Cache.blockCount input.size = count + 1 :=
          ⟨Cache.blockCount input.size - 1, by omega⟩
        rw [hsucc, List.range_succ_eq_map, List.map_cons, List.head?_cons] at hsame
        rw [hsame _ rfl hfirst]
        exact hstays

private theorem booked_step {s : Storage σ} (hroomy : s.cache.Roomy) (h : s.cache.Booked)
    {input : FileRequest} (hrange : input.position.toNat + input.size.toNat < 2 ^ 31)
    (htidy : input.Tidy s.cache) :
    ∃ s', performStep backend s input = some s' ∧ s'.cache.Roomy ∧ s'.cache.Booked := by
  cases input with
  | write input =>
    change input.position.toNat + input.size.toNat < 2 ^ 31 at hrange
    have hwritable : Cache.Writable s.cache input.uuid input.position input.size :=
      htidy.resolve_left id
    obtain ⟨c', hwrite, hbooked, hcap⟩ := Cache.writeToCache_booked h hroomy hrange
      (toNat_size_write input).symm hwritable
    refine ⟨⟨c', (backend.performWrite s.backend input).2⟩, ?_, ?_, hbooked⟩
    · rw [performStep, startStoragePerform]
      dsimp only
      rw [if_pos rfl, hwrite]
      rfl
    · exact hroomy.of_cap hcap
  | read input =>
    change input.position.toNat + input.size.toNat < 2 ^ 31 at hrange
    obtain ⟨found, c₁, hread, hbooked₁, hcap₁, hwritable⟩ := readFromCache_booked h hrange htidy
    have hroomy₁ : c₁.Roomy := hroomy.of_cap hcap₁
    cases found with
    | some buf =>
      refine ⟨⟨c₁, s.backend⟩, ?_, hroomy₁, hbooked₁⟩
      rw [performStep, startStoragePerform, hread]
      rfl
    | none =>
      have hdata : (backend.performRead s.backend input).length = input.size.toNat := by
        rw [backend.performRead_eq, List.length_map, List.length_range]
      obtain ⟨c', hwrite, hbooked, hcap⟩ := Cache.writeToCache_booked hbooked₁ hroomy₁
        hrange hdata (hwritable rfl)
      refine ⟨⟨c', s.backend⟩, ?_, ?_, hbooked⟩
      · rw [performStep, startStoragePerform, hread]
        dsimp only
        rw [if_pos rfl, hwrite]
        rfl
      · exact hroomy₁.of_cap hcap

/-- In every run, right or wrong, there is one node for each block. -/
theorem indexed_run {cachesize : UInt32} {policy : EvictionPolicy} {b : σ} {es : List FileRequest}
    {s : Storage σ}
    (hrun : run (performStep backend) ⟨Cache.empty cachesize policy, b⟩ es = some s) :
    Cache.Indexed s.cache.nodes := by
  refine invariant_run_of_step (I := fun s : Storage σ ↦ Cache.Indexed s.cache.nodes) ?_ hrun
    List.Pairwise.nil
  intro s input s' hstep hs
  obtain ⟨w, c, rfl, hwrite, rfl⟩ | ⟨r, buf, c, rfl, hhit, rfl⟩ |
    ⟨r, c₁, c, rfl, hmiss, hwrite, rfl⟩ := performStep_cases hstep
  · exact Cache.kept_writeToCache (I := fun c ↦ Cache.Indexed c.nodes) Cache.indexed_set
      (fun _ h ↦ h) hwrite hs
  · exact Cache.kept_readFromCache (I := fun c ↦ Cache.Indexed c.nodes) Cache.indexed_set hhit hs
  · have hread := Cache.kept_readFromCache (I := fun c ↦ Cache.Indexed c.nodes) Cache.indexed_set
      hmiss hs
    exact Cache.kept_writeToCache (I := fun c ↦ Cache.Indexed c.nodes) Cache.indexed_set
      (fun _ h ↦ h) hwrite hread

/-- **Bookkeeping.** In a run of requests that do not come to a place where the map and the list
part, every request is handled and the books are right after it. -/
theorem bookkept_run {cachesize : UInt32} (hmin : 4096 ≤ cachesize.toNat)
    (hmax : cachesize.toNat + 4096 < 2 ^ 32) (policy : EvictionPolicy) (b : σ)
    {es : List FileRequest}
    (hrange : ∀ input ∈ es, input.position.toNat + input.size.toNat < 2 ^ 31)
    (hmeets : Meets (performStep backend) (fun s input ↦ input.Tidy s.cache)
      ⟨Cache.empty cachesize policy, b⟩ es) :
    ∃ s, run (performStep backend) ⟨Cache.empty cachesize policy, b⟩ es = some s ∧
      s.cache.Bookkept := by
  obtain ⟨s, hrun, -, hbooked⟩ := exists_run (I := fun s ↦ s.cache.Roomy ∧ s.cache.Booked)
    (fun s input hinput htidy hs ↦ booked_step hs.1 hs.2 (hrange input hinput) htidy) hmeets
    ⟨⟨hmin, hmax⟩, Cache.booked_empty cachesize policy⟩
  exact ⟨s, hrun, hbooked.bookkept⟩

end

/-- A write of a few bytes to the file whose id is all zeros. -/
def shortWrite (position : UInt32) (data : Buf) (hdata : data.length < 2 ^ 32) : FileRequest :=
  .write ⟨List.Vector.replicate 32 0, position, data, hdata⟩

/-- Two blocks, one of them written twice with the same size. -/
theorem bookkept_short_writes :
    ∃ s, run (performStep Backend.memory) ⟨Cache.empty 4096 .lru, fun _ _ ↦ 0⟩
        [shortWrite 0 [1, 2, 3] (by decide), shortWrite 4096 [4] (by decide),
          shortWrite 0 [5, 6, 7] (by decide)] = some s ∧ s.cache.Bookkept :=
  bookkept_run (by decide) (by decide) .lru _ (by decide +kernel) (by decide +kernel)

/-- **A block that is written again with fewer bytes keeps them all**, and its node has the new
number. -/
theorem rewritten_block_not_bookkept :
    ∃ s, run (performStep Backend.memory) ⟨Cache.empty 4096 .lru, fun _ _ ↦ 0⟩
        [shortWrite 0 [1, 2, 3] (by decide), shortWrite 0 [4] (by decide)] = some s ∧
      ¬ s.cache.Bookkept := by
  obtain ⟨s, hs⟩ := Option.isSome_iff_exists.mp (show (run (performStep Backend.memory)
    ⟨Cache.empty 4096 .lru, fun _ _ ↦ 0⟩
    [shortWrite 0 [1, 2, 3] (by decide), shortWrite 0 [4] (by decide)]).isSome by decide +kernel)
  have hall : ∀ s ∈ run (performStep Backend.memory) ⟨Cache.empty 4096 .lru, fun _ _ ↦ 0⟩
      [shortWrite 0 [1, 2, 3] (by decide), shortWrite 0 [4] (by decide)],
      ∃ node ∈ s.cache.nodes, ∃ buf ∈ s.cache.cachingMap.lookup₂ node.fileKey node.blockId,
        node.dataSize.toNat ≠ buf.length := by decide +kernel
  obtain ⟨node, hnode, buf, hbuf, hne⟩ := hall s hs
  exact ⟨s, hs, fun h ↦ hne (h.sizes node hnode buf hbuf)⟩

end Slsfs.Datafunction

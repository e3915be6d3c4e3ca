import Slsfs.Datafunction.Caching
import Slsfs.Lib.Recency

/-!
# Setting a node

What `LRUCache::set` does to the list and to the map, said once: the node of the same block is
taken off, nodes are evicted from the tail with their blocks until there is room, and the new node
is put at the head. Which nodes stay is said by their sizes: those of the longest end of the list
for which there is room.
-/

namespace Slsfs.Datafunction

open LeveldbPack

namespace Cache

/-- The stored block of a file and a block id. -/
def store (map : CachingMap) (id : Key × UInt32) : Option Buf := map.lookup₂ id.1 id.2

/-! ## Evicting

`makeRoom` goes on from the tail until there is room. Each node takes its block out of the map, and
the file with its last block. `Evicts` is the relation between before and after: the nodes are those
kept and those dropped, and of the map nothing is gone but the blocks of the latter. -/

private theorem deleteEntryFromCache_spec (map : CachingMap) (entry : CacheEntry) :
    ∃ map' : CachingMap, deleteEntryFromCache none map entry = some map' ∧
      (∀ id, store map' id = if id = entry.id then none else store map id) ∧
      (map.NoneEmpty → map'.NoneEmpty) := by
  have hiff : ∀ id : Key × UInt32, id = entry.id ↔ id.1 = entry.fileKey ∧ id.2 = entry.blockId :=
    fun id ↦ Prod.ext_iff
  rw [deleteEntryFromCache]
  split
  · rename_i hnone
    refine ⟨map, rfl, fun id ↦ ?_, fun h ↦ h⟩
    split
    · rename_i hid
      rw [store, ((hiff id).mp hid).1, FiniteMap.lookup₂, hnone]
      rfl
    · rfl
  · rename_i blocks hblocks
    rw [if_neg (by simp)]
    dsimp only
    have hkept := FiniteMap.lookup₂_insert_erase hblocks entry.blockId
    split
    · -- the last block of the file goes with it
      rename_i hempty
      refine ⟨_, rfl, fun id ↦ ?_, fun h ↦ h.erase _⟩
      have hnone : ∀ b, (blocks.erase entry.blockId).lookup b = none := by
        intro b
        by_contra hsome
        obtain ⟨v, hv⟩ := Option.ne_none_iff_exists'.mp hsome
        exact FiniteMap.entries_ne_nil_of_lookup hv (List.isEmpty_iff.mp hempty)
      rw [store, FiniteMap.lookup₂_erase]
      by_cases hfile : id.1 = entry.fileKey
      · rw [if_pos hfile]
        split
        · rfl
        · rename_i hid
          have hsame := hkept id.1 id.2
          rw [hfile, FiniteMap.lookup₂_insert, hnone,
            if_neg fun h ↦ hid ((hiff id).mpr ⟨hfile, h.2⟩),
            ← hfile] at hsame
          exact hsame
      · rw [if_neg hfile, if_neg fun h ↦ hfile ((hiff id).mp h).1]
        rfl
    · rename_i hsome
      refine ⟨_, rfl, fun id ↦ ?_, fun h ↦ h.insert _ fun hnil ↦ hsome (by rw [hnil]; rfl)⟩
      rw [store, hkept, store]
      exact if_congr (hiff id).symm rfl rfl

/-- The outcome of making room for `size` bytes: `dropped` are evicted and `kept` stay. -/
structure Evicts (size cap : UInt32) (nodes : List CacheEntry) (map : CachingMap)
    (dropped kept : List CacheEntry) (map' : CachingMap) : Prop where
  nodes_eq : nodes = dropped ++ kept
  room : totalSize kept + size.toNat ≤ cap.toNat
  /-- Nothing is evicted for which there is room. -/
  longest : ∀ recent, recent <:+ nodes → totalSize recent + size.toNat ≤ cap.toNat →
    recent <:+ kept
  store_eq : ∀ id, store map' id = if id ∈ dropped.map CacheEntry.id then none else store map id
  noneEmpty : map.NoneEmpty → map'.NoneEmpty

/-- Either all nodes are kept, or the last node that is evicted would not have fitted. -/
theorem Evicts.all_or_last {size cap : UInt32} {nodes dropped kept : List CacheEntry}
    {map map' : CachingMap} (h : Evicts size cap nodes map dropped kept map') :
    kept = nodes ∨
      ∃ last ∈ dropped, cap.toNat < totalSize kept + last.dataSize.toNat + size.toNat := by
  rcases List.eq_nil_or_concat dropped with rfl | ⟨rest, last, rfl⟩
  · exact .inl h.nodes_eq.symm
  · refine .inr ⟨last, by simp, ?_⟩
    by_contra hroom
    have hsuffix : last :: kept <:+ nodes := ⟨rest, by rw [h.nodes_eq]; simp⟩
    have hlength := (h.longest (last :: kept) hsuffix (by rw [totalSize_cons]; omega)).length_le
    rw [List.length_cons] at hlength
    omega

private theorem makeRoom_spec {size cap : UInt32} (hle : size.toNat ≤ cap.toNat)
    {nodes : List CacheEntry}
    {curSize : UInt32} (map : CachingMap) (hsize : curSize.toNat = totalSize nodes)
    (hlt : totalSize nodes + size.toNat < 2 ^ 32) :
    ∃ dropped kept curSize' map', makeRoom none size cap nodes curSize map
        = some (kept, curSize', map') ∧ curSize'.toNat = totalSize kept ∧
      Evicts size cap nodes map dropped kept map' := by
  have hsum : (curSize + size).toNat = totalSize nodes + size.toNat := by
    rw [UInt32.toNat_add, hsize, Nat.mod_eq_of_lt hlt]
  by_cases hroom : cap < curSize + size
  · rw [UInt32.lt_iff_toNat_lt, hsum] at hroom
    induction nodes generalizing curSize map with
    | nil =>
      rw [totalSize_nil] at hroom
      omega
    | cons entry nodes ih =>
      obtain ⟨map₁, hdelete, hstore₁, hnone₁⟩ := deleteEntryFromCache_spec map entry
      rw [totalSize_cons] at hsize hlt hroom hsum
      have hsize₁ : (curSize - entry.dataSize).toNat = totalSize nodes := by
        rw [UInt32.toNat_sub_of_le _ _ (by rw [UInt32.le_iff_toNat_le]; omega)]
        omega
      have hsum₁ : (curSize - entry.dataSize + size).toNat = totalSize nodes + size.toNat := by
        rw [UInt32.toNat_add, hsize₁, Nat.mod_eq_of_lt (by omega)]
      have hrest : ∃ dropped kept curSize' map', makeRoom none size cap nodes
            (curSize - entry.dataSize) map₁ = some (kept, curSize', map') ∧
          curSize'.toNat = totalSize kept ∧ Evicts size cap nodes map₁ dropped kept map' := by
        by_cases hmore : cap < curSize - entry.dataSize + size
        · rw [UInt32.lt_iff_toNat_lt, hsum₁] at hmore
          exact ih map₁ hsize₁ (by omega) hsum₁ hmore
        · refine ⟨[], nodes, _, map₁, makeRoom_of_fits hmore nodes map₁, hsize₁, ?_⟩
          rw [UInt32.lt_iff_toNat_lt, hsum₁] at hmore
          exact ⟨rfl, by omega, fun recent hrecent _ ↦ hrecent, fun id ↦ by simp, fun h ↦ h⟩
      obtain ⟨dropped, kept, curSize', map', hmake, hsize', hevicts⟩ := hrest
      refine ⟨entry :: dropped, kept, curSize', map', ?_, hsize', ?_⟩
      · rw [makeRoom, if_pos (by rw [UInt32.lt_iff_toNat_lt, hsum]; exact hroom), hdelete]
        exact hmake
      · refine ⟨by rw [hevicts.nodes_eq, List.cons_append], hevicts.room, ?_, ?_,
          fun h ↦ hevicts.noneEmpty (hnone₁ h)⟩
        · intro recent hrecent hfits
          rcases List.suffix_cons_iff.mp hrecent with rfl | hrecent
          · rw [totalSize_cons] at hfits
            omega
          · exact hevicts.longest recent hrecent hfits
        · intro id
          rw [hevicts.store_eq, hstore₁, List.map_cons]
          simp only [List.mem_cons]
          by_cases hid : id = entry.id <;> by_cases hdropped : id ∈ dropped.map CacheEntry.id <;>
            simp [hid, hdropped]
  · refine ⟨[], nodes, curSize, map, makeRoom_of_fits hroom nodes map, hsize, ?_⟩
    rw [UInt32.lt_iff_toNat_lt, hsum] at hroom
    exact ⟨rfl, by omega, fun recent hrecent _ ↦ hrecent, fun id ↦ by simp, fun h ↦ h⟩

/-! ## The node of the same block

A block has one node at most (`Indexed`). `others` are the nodes of the other blocks; `set` starts
by taking the node of its own block off, which leaves them. -/

/-- The nodes of the other blocks. -/
def others (nodes : List CacheEntry) (id : Key × UInt32) : List CacheEntry :=
  nodes.filter fun node ↦ node.id ≠ id

theorem mem_others {nodes : List CacheEntry} {id : Key × UInt32} {node : CacheEntry} :
    node ∈ others nodes id ↔ node ∈ nodes ∧ node.id ≠ id := by
  rw [others, List.mem_filter, decide_eq_true_iff]

theorem others_eq_self {nodes : List CacheEntry} {id : Key × UInt32}
    (h : ∀ node ∈ nodes, node.id ≠ id) : others nodes id = nodes :=
  List.filter_eq_self.mpr fun node hnode ↦ decide_eq_true (h node hnode)

theorem others_append (nodes nodes' : List CacheEntry) (id : Key × UInt32) :
    others (nodes ++ nodes') id = others nodes id ++ others nodes' id :=
  List.filter_append nodes nodes'

theorem others_reverse (nodes : List CacheEntry) (id : Key × UInt32) :
    others nodes.reverse id = (others nodes id).reverse :=
  List.filter_reverse

private theorem exists_split {nodes : List CacheEntry} (h : Indexed nodes) {node : CacheEntry}
    (hnode : node ∈ nodes) :
    ∃ before after, nodes = before ++ node :: after ∧ others nodes node.id = before ++ after ∧
      ∀ other ∈ before ++ after, other.id ≠ node.id := by
  obtain ⟨before, after, rfl⟩ := List.append_of_mem hnode
  obtain ⟨-, hafter, hbefore⟩ := List.pairwise_append.mp h
  have hother : ∀ other ∈ before ++ after, other.id ≠ node.id := by
    intro other hmem
    rcases List.mem_append.mp hmem with hmem | hmem
    · exact hbefore other hmem node List.mem_cons_self
    · exact ((List.pairwise_cons.mp hafter).1 other hmem).symm
  refine ⟨before, after, rfl, ?_, hother⟩
  have hself := others_eq_self hother
  rw [others_append] at hself
  rw [others_append, others, others, List.filter_cons_of_neg (by simp)]
  exact hself

theorem eraseP_eq_others {nodes : List CacheEntry} (h : Indexed nodes) (key : CacheEntry) :
    nodes.eraseP key.same = others nodes key.id := by
  -- `eraseP` takes off the first node only, and there is no second one
  by_cases hex : ∃ node ∈ nodes, node.id = key.id
  · obtain ⟨node, hnode, hid⟩ := hex
    obtain ⟨before, after, hnodes, hothers, hother⟩ := exists_split h hnode
    have hkey : ∀ other ∈ before, ¬ key.same other = true := by
      intro other hmem hsame
      exact hother other (List.mem_append_left _ hmem)
        ((CacheEntry.same_iff.mp hsame).symm.trans hid.symm)
    rw [← hid, hothers, hnodes, List.eraseP_append_right _ hkey,
      List.eraseP_cons_of_pos (CacheEntry.same_iff.mpr hid.symm)]
  · have hne : ∀ node ∈ nodes, node.id ≠ key.id := fun node hnode heq ↦ hex ⟨node, hnode, heq⟩
    rw [others_eq_self hne, List.eraseP_of_forall_not fun node hnode hsame ↦
      hne node hnode (CacheEntry.same_iff.mp hsame).symm]

theorem set_eq_map (c : Cache) (held : Option Key) (key : CacheEntry) :
    c.set held key = (makeRoom held key.dataSize c.cap
      (c.nodes.find? key.same |>.elim c.nodes fun _ ↦ c.nodes.eraseP key.same)
      (c.nodes.find? key.same |>.elim c.curSize fun exist ↦ c.curSize - exist.dataSize)
      c.cachingMap).map fun r ↦ { c with
        nodes := r.1 ++ [key]
        curSize := r.2.1 + key.dataSize
        cachingMap := r.2.2 } := by
  rw [set]
  cases c.nodes.find? key.same <;> dsimp only [Option.elim] <;> split <;> rename_i hroom <;>
    rw [hroom] <;> rfl

private theorem set_eq {c : Cache} (hindexed : Indexed c.nodes) (key : CacheEntry) :
    ∃ curSize : UInt32, (c.curSize.toNat = totalSize c.nodes →
        curSize.toNat = totalSize (others c.nodes key.id)) ∧
      ∀ held, c.set held key
        = (makeRoom held key.dataSize c.cap (others c.nodes key.id) curSize c.cachingMap).map
          fun r ↦ { c with
            nodes := r.1 ++ [key]
            curSize := r.2.1 + key.dataSize
            cachingMap := r.2.2 } := by
  have hset := fun held ↦ set_eq_map c held key
  cases hfind : c.nodes.find? key.same with
  | none =>
    have hself : others c.nodes key.id = c.nodes := by
      refine others_eq_self fun node hnode heq ↦ ?_
      exact List.find?_eq_none.mp hfind node hnode (CacheEntry.same_iff.mpr heq.symm)
    rw [hfind] at hset
    rw [hself]
    exact ⟨c.curSize, id, hset⟩
  | some exist =>
    have hexist : exist.id = key.id := (CacheEntry.same_iff.mp (List.find?_some hfind)).symm
    obtain ⟨before, after, hnodes, hothers, -⟩ :=
      exists_split hindexed (List.mem_of_find?_eq_some hfind)
    rw [hfind, Option.elim_some, Option.elim_some, eraseP_eq_others hindexed key] at hset
    refine ⟨c.curSize - exist.dataSize, fun hsize ↦ ?_, hset⟩
    rw [hnodes, totalSize_append, totalSize_cons] at hsize
    rw [← hexist, hothers, totalSize_append,
      UInt32.toNat_sub_of_le _ _ (by rw [UInt32.le_iff_toNat_le]; omega)]
    omega

/-! ## Setting

With the books in order (`Sound`), in a cache that has room for a block and is not so large that its
size wraps around (`Roomy`), `set` returns, and the list is the new node in front of the longest end
of the other nodes that there is room for. `set_of_room` has the case in which nothing is
evicted. -/

/-- The size of the list is that of its nodes, and they fit. -/
structure Sound (c : Cache) : Prop where
  indexed : Indexed c.nodes
  size : c.curSize.toNat = totalSize c.nodes
  fits : totalSize c.nodes ≤ c.cap.toNat

/-- The size of the node of a block, if there is one. -/
def nodeSize (nodes : List CacheEntry) (id : Key × UInt32) : ℕ :=
  totalSize (nodes.filter fun node ↦ node.id = id)

theorem totalSize_eq_others_add (nodes : List CacheEntry) (id : Key × UInt32) :
    totalSize nodes = totalSize (others nodes id) + nodeSize nodes id := by
  induction nodes with
  | nil => rfl
  | cons node nodes ih =>
    rw [others, nodeSize] at ih ⊢
    rw [List.filter_cons, List.filter_cons]
    by_cases hid : node.id = id
    · rw [if_neg (by simpa using hid), if_pos (by simpa using hid), totalSize_cons, totalSize_cons]
      omega
    · rw [if_pos (by simpa using hid), if_neg (by simpa using hid), totalSize_cons, totalSize_cons]
      omega

private theorem indexed_append {kept : List CacheEntry} {key : CacheEntry} (h : Indexed kept)
    (hkey : ∀ node ∈ kept, node.id ≠ key.id) : Indexed (kept ++ [key]) := by
  refine List.pairwise_append.mpr ⟨h, List.pairwise_singleton _ _, fun node hnode other hother ↦ ?_⟩
  rw [List.mem_singleton.mp hother]
  exact hkey node hnode

private theorem suffix_makeRoom {held : Option Key} {size cap : UInt32} {nodes : List CacheEntry}
    {curSize : UInt32} {map : CachingMap} {r : List CacheEntry × UInt32 × CachingMap}
    (h : makeRoom held size cap nodes curSize map = some r) : r.1 <:+ nodes := by
  induction nodes generalizing curSize map with
  | nil =>
    rw [makeRoom] at h
    split at h
    · cases h
    · cases h
      exact List.suffix_refl _
  | cons entry nodes ih =>
    rw [makeRoom] at h
    split at h
    · split at h
      · cases h
      · exact (ih h).trans (List.suffix_cons entry nodes)
    · cases h
      exact List.suffix_refl _

/-- Whatever else is wrong, there is one node for each block. -/
theorem indexed_set {held : Option Key} {c c' : Cache} {key : CacheEntry}
    (h : c.set held key = some c') (hindexed : Indexed c.nodes) : Indexed c'.nodes := by
  obtain ⟨curSize, -, hset⟩ := set_eq hindexed key
  rw [hset] at h
  obtain ⟨r, hroom, rfl⟩ := Option.map_eq_some_iff.mp h
  have hkept : r.1.Sublist (others c.nodes key.id) := (suffix_makeRoom hroom).sublist
  exact indexed_append (List.Pairwise.sublist (hkept.trans List.filter_sublist) hindexed)
    fun node hnode ↦ (mem_others.mp (hkept.subset hnode)).2

/-- **What `set` does** with an entry for which there can be room, as long as the sum of the two
sizes stays below 2^32. -/
theorem set_spec_of_le {c : Cache} (hsound : c.Sound) {key : CacheEntry}
    (hle : key.dataSize.toNat ≤ c.cap.toNat) (hmax : c.cap.toNat + key.dataSize.toNat < 2 ^ 32) :
    ∃ dropped kept c', c.set none key = some c' ∧
      Evicts key.dataSize c.cap (others c.nodes key.id) c.cachingMap dropped kept c'.cachingMap ∧
      c'.nodes = kept ++ [key] ∧ c'.cap = c.cap ∧ c'.Sound := by
  obtain ⟨curSize, hcurSize, hset⟩ := set_eq hsound.indexed key
  have htotal := totalSize_eq_others_add c.nodes key.id
  have hfits := hsound.fits
  obtain ⟨dropped, kept, curSize', map', hmake, hsize', hevicts⟩ := makeRoom_spec hle c.cachingMap
    (hcurSize hsound.size) (by omega)
  have hroom := hevicts.room
  refine ⟨dropped, kept, { c with
    nodes := kept ++ [key]
    curSize := curSize' + key.dataSize
    cachingMap := map' }, ?_, hevicts, rfl, rfl, ?_⟩
  · rw [hset, hmake]
    rfl
  · have hkept : kept.Sublist (others c.nodes key.id) := by
      rw [hevicts.nodes_eq]
      exact List.sublist_append_right dropped kept
    refine ⟨indexed_append (List.Pairwise.sublist (hkept.trans List.filter_sublist) hsound.indexed)
      fun node hnode ↦ (mem_others.mp (hkept.subset hnode)).2, ?_, ?_⟩
    · change (curSize' + key.dataSize).toNat = _
      rw [totalSize_append, totalSize_cons, totalSize_nil, UInt32.toNat_add, hsize']
      omega
    · rw [totalSize_append, totalSize_cons, totalSize_nil]
      exact hroom

/-- The cache is large enough for a block, and not so large that its size and that of a block reach
2^32 together. -/
structure Roomy (c : Cache) : Prop where
  min : 4096 ≤ c.cap.toNat
  max : c.cap.toNat + 4096 < 2 ^ 32

theorem Roomy.of_cap {c c' : Cache} (h : c.Roomy) (hcap : c'.cap = c.cap) : c'.Roomy := by
  refine ⟨?_, ?_⟩ <;> rw [hcap]
  · exact h.min
  · exact h.max

theorem set_spec {c : Cache} (hsound : c.Sound) (hroomy : c.Roomy) {key : CacheEntry}
    (hkey : key.dataSize.toNat ≤ 4096) :
    ∃ dropped kept c', c.set none key = some c' ∧
      Evicts key.dataSize c.cap (others c.nodes key.id) c.cachingMap dropped kept c'.cachingMap ∧
      c'.nodes = kept ++ [key] ∧ c'.cap = c.cap ∧ c'.Sound := by
  have hmax := hroomy.max
  exact set_spec_of_le hsound (hkey.trans hroomy.min) (by omega)

/-- Where there is room without the node of the same block nothing is evicted, whatever lock is
held. -/
theorem set_of_room {c : Cache} (hsound : c.Sound) {key : CacheEntry}
    (hroom : totalSize (others c.nodes key.id) + key.dataSize.toNat ≤ c.cap.toNat)
    (held : Option Key) :
    ∃ c', c.set held key = some c' ∧ c'.nodes = others c.nodes key.id ++ [key] ∧
      c'.cachingMap = c.cachingMap ∧ c'.cap = c.cap ∧ c'.Sound := by
  obtain ⟨curSize, hcurSize, hset⟩ := set_eq hsound.indexed key
  have hcap := c.cap.toNat_lt
  have hsum : (curSize + key.dataSize).toNat
      = totalSize (others c.nodes key.id) + key.dataSize.toNat := by
    rw [UInt32.toNat_add, hcurSize hsound.size]
    omega
  refine ⟨{ c with
    nodes := others c.nodes key.id ++ [key]
    curSize := curSize + key.dataSize }, ?_, rfl, rfl, rfl, ?_⟩
  · rw [hset, makeRoom_of_fits]
    · rfl
    · rw [UInt32.lt_iff_toNat_lt, hsum]
      omega
  · refine ⟨indexed_append (List.Pairwise.sublist List.filter_sublist hsound.indexed)
      fun other hmem ↦ (mem_others.mp hmem).2, ?_, ?_⟩
    · rw [totalSize_append, totalSize_cons, totalSize_nil]
      exact hsum
    · rw [totalSize_append, totalSize_cons, totalSize_nil]
      exact hroom

theorem nodeSize_of_mem {nodes : List CacheEntry} (h : Indexed nodes) {node : CacheEntry}
    (hnode : node ∈ nodes) : nodeSize nodes node.id = node.dataSize.toNat := by
  obtain ⟨before, after, hnodes, hothers, -⟩ := exists_split h hnode
  have htotal := totalSize_eq_others_add nodes node.id
  rw [hothers, hnodes, totalSize_append, totalSize_append, totalSize_cons, ← hnodes] at htotal
  omega

theorem nodeSize_eq_zero {nodes : List CacheEntry} {id : Key × UInt32}
    (h : ∀ node ∈ nodes, node.id ≠ id) : nodeSize nodes id = 0 := by
  have hnil : (nodes.filter fun node ↦ node.id = id) = [] :=
    List.filter_eq_nil_iff.mpr fun node hnode ↦ by simpa using h node hnode
  rw [nodeSize, hnil, totalSize_nil]

theorem nodeSize_le {nodes : List CacheEntry} (h : Indexed nodes) {bound : ℕ}
    (hbound : ∀ node ∈ nodes, node.dataSize.toNat ≤ bound) (id : Key × UInt32) :
    nodeSize nodes id ≤ bound := by
  by_cases hex : ∃ node ∈ nodes, node.id = id
  · obtain ⟨node, hnode, rfl⟩ := hex
    rw [nodeSize_of_mem h hnode]
    exact hbound node hnode
  · rw [nodeSize_eq_zero fun node hnode heq ↦ hex ⟨node, hnode, heq⟩]
    exact Nat.zero_le bound

theorem set_of_mem {c : Cache} (hsound : c.Sound) {node : CacheEntry} (hnode : node ∈ c.nodes)
    (held : Option Key) :
    ∃ c', c.set held node = some c' ∧ c'.nodes = others c.nodes node.id ++ [node] ∧
      c'.cachingMap = c.cachingMap ∧ c'.cap = c.cap ∧ c'.Sound := by
  refine set_of_room hsound ?_ held
  have htotal := totalSize_eq_others_add c.nodes node.id
  rw [nodeSize_of_mem hsound.indexed hnode] at htotal
  have hfits := hsound.fits
  omega

/-! ## What every operation keeps

Both operations of the cache on the list are made of `set`. What holds of a list and a map and is
kept by `set` is kept by them too, if it does not depend on what blocks are added in between. -/

section Kept

variable {I : Cache → Prop}
  (hset : ∀ {held : Option Key} {c c' : Cache} {key : CacheEntry},
    c.set held key = some c' → I c → I c')
  (hmap : ∀ {c : Cache} (map : CachingMap), I c → I { c with cachingMap := map })

include hset in
theorem kept_readFromCache {c c' : Cache} {input : ReadRequest} {found : Option Buf}
    (h : c.readFromCache input = some (found, c')) (hc : I c) : I c' := by
  have hloop : ∀ {uuid : Key} {blocks : BlockMap} (ids : List UInt32) {c : Cache} {acc : Buf},
      readBlocks uuid blocks ids c acc = some (found, c') → I c → I c' := by
    intro uuid blocks ids
    induction ids with
    | nil =>
      intro c acc h hc
      cases h
      exact hc
    | cons id ids ih =>
      intro c acc h hc
      rw [readBlocks] at h
      split at h
      · cases h
        exact hc
      · dsimp only at h
        split at h
        · cases h
        · rename_i c₁ htouch
          refine ih h ?_
          split at htouch
          · cases htouch
            exact hc
          · exact hset htouch hc
  rw [readFromCache] at h
  split at h
  · cases h
    exact hc
  · split at h
    · cases h
    · exact hloop _ h hc

include hset hmap

theorem kept_writeToCache {position size : UInt32} {data : Buf} {uuid : Key} {c c' : Cache}
    (h : c.writeToCache position size data uuid = some c') (hc : I c) : I c' := by
  have hupdate : ∀ (ids : List UInt32) {c c' : Cache},
      updateBlocks position size data uuid ids c = some c' → I c → I c' := by
    intro ids
    induction ids with
    | nil =>
      intro c c' h hc
      cases h
      exact hc
    | cons id ids ih =>
      intro c c' h hc
      rw [updateBlocks] at h
      split at h
      · cases h
      · rename_i hone
        split at h
        · exact ih h (hset hone hc)
        · exact ih h (hmap _ (hset hone hc))
  have hcollect : ∀ (ids : List UInt32) {c c' : Cache} {blocks blocks' : BlockMap},
      collectBlocks position size data uuid ids c blocks = some (c', blocks') → I c → I c' := by
    intro ids
    induction ids with
    | nil =>
      intro c c' blocks blocks' h hc
      cases h
      exact hc
    | cons id ids ih =>
      intro c c' blocks blocks' h hc
      rw [collectBlocks] at h
      split at h
      · cases h
      · rename_i hone
        exact ih h (hset hone hc)
  rw [writeToCache] at h
  split at h
  · cases h
  · split at h
    · exact hupdate _ h hc
    · split at h
      · cases h
      · rename_i hone
        cases h
        exact hmap _ (hcollect _ hone hc)

end Kept

end Cache

end Slsfs.Datafunction

import Slsfs.Datafunction.Bookkeeping

/-!
# Requests that the storage rejects

The callbacks of `start_storage_perform` get the reply of the storage and write to the cache
whatever it says: after a write the bytes of the request, after a read as many bytes from the start
of the reply as the request is for. So the bytes of a rejected write, or those of the text of an
error and what is behind it in memory, are served later.

What is cached stays what it is only if nothing is put in and nothing is evicted: if the request
has no blocks, or if all its blocks are cached, so that they are not replaced, and there is room for
them with the sizes they are written with.
-/

namespace Slsfs.Datafunction

open LeveldbPack

/-! ## What is copied

A write copies from the request, and a read copies from the reply, as many bytes as the request
says. A reply that is shorter, such as the text of an error, is read past its end; what is there is
a parameter. -/

/-- The reply of `start_read` after 30 seconds. -/
def readTimeout : Buf := ascii "Error: Read Request Timeout"

/-- The bytes `write_to_cache` copies from a reply, which may go on behind its end. -/
def copied (stray : ℕ → UInt8) (reply : Buf) (size : UInt32) : Buf :=
  (List.range size.toNat).map fun i ↦ reply.getD i (stray i)

/-- The cache after a request for which the storage is asked and gives a reply. `none` if it is not
asked, or if the request does not return. -/
def askStorage (stray : ℕ → UInt8) (c : Cache) (reply : Buf) : FileRequest → Option Cache
  | .write input => c.writeToCache input.position input.size input.data input.uuid
  | .read input =>
    match c.readFromCache input with
    | some (none, c) =>
      c.writeToCache input.position input.size (copied stray reply input.size) input.uuid
    | _ => none

/-- The same blocks are cached with the same bytes. -/
def Unchanged (c c' : Cache) : Prop :=
  ∀ id, Cache.store c'.cachingMap id = Cache.store c.cachingMap id

/-- Later hits then return what was cached before. -/
theorem Unchanged.hit {c c' c₂ : Cache} (h : Unchanged c c') {input : ReadRequest} {buf : Buf}
    (hhit : c'.readFromCache input = some (some buf, c₂)) :
    ∃ ids, Cache.getBlockIds input.position input.size = some ids ∧
      (∀ id ∈ ids, (Cache.store c.cachingMap (input.uuid, id)).isSome) ∧
      buf = (ids.map fun id ↦ (Cache.store c.cachingMap (input.uuid, id)).getD []).flatten := by
  obtain ⟨ids, hids, hall, hbuf⟩ := Cache.readFromCache_hit hhit
  refine ⟨ids, hids, fun id hid ↦ ?_, hbuf.trans ?_⟩
  · rw [← h]
    exact hall id hid
  · refine congrArg List.flatten (List.map_congr_left fun id _ ↦ ?_)
    rw [← h]
    rfl

/-- With a storage that works, a request is a hit or a request with that storage's reply. -/
theorem askStorage_of_performStep {σ : Type*} {backend : Backend σ} (stray : ℕ → UInt8)
    {s s' : Storage σ} {input : FileRequest} (h : performStep backend s input = some s') :
    (∃ r buf c, input = .read r ∧ s.cache.readFromCache r = some (some buf, c) ∧ s'.cache = c) ∨
      ∃ reply, askStorage stray s.cache reply input = some s'.cache := by
  obtain ⟨w, c, rfl, hwrite, rfl⟩ | ⟨r, buf, c, rfl, hhit, rfl⟩ |
    ⟨r, c₁, c, rfl, hmiss, hwrite, rfl⟩ := performStep_cases h
  · exact .inr ⟨Write.ok, hwrite⟩
  · exact .inl ⟨r, buf, c, rfl, hhit, rfl⟩
  · refine .inr ⟨backend.performRead s.backend r, ?_⟩
    have hcopied : copied stray (backend.performRead s.backend r) r.size
        = backend.performRead s.backend r := by
      have hlen : (backend.performRead s.backend r).length = r.size.toNat := by
        rw [backend.performRead_eq, List.length_map, List.length_range]
      refine List.ext_getElem (by rw [copied, List.length_map, List.length_range, hlen])
        fun i hi hi' ↦ ?_
      simp only [copied, List.getElem_map, List.getElem_range]
      exact List.getD_eq_getElem _ _ hi'
    rw [askStorage, hmiss]
    dsimp only
    rw [hcopied]
    exact hwrite

namespace Cache

variable {position size : UInt32} {data : Buf} {uuid : Key}

/-! ## A file that is not cached

Then the blocks are collected aside and put in the map at the end. If there are any, something is
cached afterwards that was not before. A request without blocks puts an empty block map there, and
no block is any different. -/

private theorem absent_deleteEntryFromCache {held : Option Key} {map map' : CachingMap}
    {entry : CacheEntry}
    (h : deleteEntryFromCache held map entry = some map') (habsent : map.lookup uuid = none) :
    map'.lookup uuid = none := by
  rw [deleteEntryFromCache] at h
  split at h
  · cases h
    exact habsent
  · rename_i blocks hblocks
    have hne : uuid ≠ entry.fileKey := by
      rintro rfl
      rw [habsent] at hblocks
      cases hblocks
    split at h
    · cases h
    · dsimp only at h
      split at h
      · cases h
        rwa [AList.lookup_erase_ne hne]
      · cases h
        rwa [AList.lookup_insert_ne hne]

private theorem absent_set {held : Option Key} {c c' : Cache} {key : CacheEntry}
    (h : c.set held key = some c') (habsent : c.cachingMap.lookup uuid = none) :
    c'.cachingMap.lookup uuid = none := by
  have hroom : ∀ {nodes : List CacheEntry} {curSize : UInt32} {map : CachingMap}
      {r : List CacheEntry × UInt32 × CachingMap},
      makeRoom held key.dataSize c.cap nodes curSize map = some r → map.lookup uuid = none →
        r.2.2.lookup uuid = none := by
    intro nodes
    induction nodes with
    | nil =>
      intro curSize map r h habsent
      rw [makeRoom] at h
      split at h
      · cases h
      · cases h
        exact habsent
    | cons entry nodes ih =>
      intro curSize map r h habsent
      rw [makeRoom] at h
      split at h
      · split at h
        · cases h
        · rename_i hdelete
          exact ih h (absent_deleteEntryFromCache hdelete habsent)
      · cases h
        exact habsent
  rw [set] at h
  dsimp only at h
  split at h
  · cases h
  · rename_i hmake
    cases h
    exact hroom hmake habsent

private theorem isSome_collectBlocks {ids : List UInt32} {c c' : Cache} {blocks blocks' : BlockMap}
    (h : collectBlocks position size data uuid ids c blocks = some (c', blocks'))
    (habsent : c.cachingMap.lookup uuid = none) :
    c'.cachingMap.lookup uuid = none ∧
      ∀ id, id ∈ ids ∨ (blocks.lookup id).isSome → (blocks'.lookup id).isSome := by
  induction ids generalizing c blocks with
  | nil =>
    cases h
    exact ⟨habsent, fun id hid ↦ hid.resolve_left (List.not_mem_nil)⟩
  | cons i ids ih =>
    rw [collectBlocks] at h
    split at h
    · cases h
    · rename_i c₁ hset
      obtain ⟨habsent', hall⟩ := ih h (absent_set hset habsent)
      refine ⟨habsent', fun id hid ↦ hall id ?_⟩
      by_cases hi : id = i
      · subst hi
        rw [FiniteMap.lookup_emplace]
        exact .inr rfl
      · rw [FiniteMap.lookup_emplace_of_ne _ _ hi]
        exact hid.imp_left fun hmem ↦ (List.mem_cons.mp hmem).resolve_left hi

/-- **A file that is not cached** stays so exactly if the request has no blocks. -/
theorem unchanged_iff_of_absent {c c' : Cache} (habsent : c.cachingMap.lookup uuid = none)
    (h : c.writeToCache position size data uuid = some c') :
    Unchanged c c' ↔ rounds position (position + size) = 0 := by
  have hnone : ∀ id, store c.cachingMap (uuid, id) = none := by
    intro id
    rw [store, FiniteMap.lookup₂, habsent]
    rfl
  rw [writeToCache] at h
  split at h
  · cases h
  · rename_i ids hids
    have hcount := getBlockIds_eq_some hids
    rw [habsent] at h
    dsimp only at h
    split at h
    · cases h
    · rename_i c₁ blocks hcollect
      cases h
      obtain ⟨habsent₁, hall⟩ := isSome_collectBlocks hcollect habsent
      -- making room never puts a file in, so there is nothing for `emplace` to keep
      have hinsert : c₁.cachingMap.emplace uuid blocks = c₁.cachingMap.insert uuid blocks := by
        rw [FiniteMap.emplace, habsent₁]
        rfl
      constructor
      · intro hsame
        by_contra hpos
        have hmem : UInt32.ofNat (position.toNat / 4096 + 0) ∈ ids := by
          rw [hcount, idsFrom]
          exact List.mem_map_of_mem (List.mem_range.mpr (by omega))
        have hsome := hall _ (.inl hmem)
        have hstore := hsame (uuid, UInt32.ofNat (position.toNat / 4096 + 0))
        rw [hnone, store, hinsert, FiniteMap.lookup₂_insert] at hstore
        rw [hstore] at hsome
        cases hsome
      · intro hzero id
        rw [hzero] at hcount
        rw [hcount] at hcollect
        cases hcollect
        rw [store, hinsert]
        by_cases hfile : id.1 = uuid
        · rw [hfile, FiniteMap.lookup₂_insert]
          have := hnone id.2
          rw [← hfile] at this
          exact this.symm
        · rw [FiniteMap.lookup₂_insert_of_ne _ _ _ hfile]
          rfl

/-! ## A file that is cached

A block that is cached is not replaced, so its bytes stay. Its node moves to the head with the size
it is written with, which may be larger than before; so what has to fit is the sum of the sizes that
the nodes will have at the end. -/

/-- The size of the node of a block that `set` finds and takes off. -/
def foundSize (nodes : List CacheEntry) (id : Key × UInt32) : UInt32 :=
  (nodes.find? fun node ↦ node.id = id).elim 0 CacheEntry.dataSize

private theorem foundSize_cons (node : CacheEntry) (nodes : List CacheEntry) (id : Key × UInt32) :
    foundSize (node :: nodes) id = if node.id = id then node.dataSize else foundSize nodes id := by
  rw [foundSize, List.find?_cons]
  by_cases hid : node.id = id
  · rw [if_pos hid, decide_eq_true hid]
    rfl
  · rw [if_neg hid, decide_eq_false hid]
    rfl

private theorem foundSize_touch (nodes : List CacheEntry) {key : CacheEntry} {id : Key × UInt32}
    (hne : id ≠ key.id) :
    foundSize (nodes.eraseP key.same ++ [key]) id = foundSize nodes id := by
  have happend : ∀ nodes : List CacheEntry, foundSize (nodes ++ [key]) id = foundSize nodes id := by
    intro nodes
    induction nodes with
    | nil => rw [List.nil_append, foundSize_cons, if_neg hne.symm]
    | cons node nodes ih => rw [List.cons_append, foundSize_cons, ih, foundSize_cons]
  rw [happend]
  induction nodes with
  | nil => rfl
  | cons node nodes ih =>
    by_cases hsame : key.same node
    · have hid : node.id ≠ id := by
        rw [← CacheEntry.same_iff.mp hsame]
        exact hne.symm
      rw [List.eraseP_cons_of_pos hsame, foundSize_cons, if_neg hid]
    · rw [List.eraseP_cons_of_neg hsame, foundSize_cons, ih, foundSize_cons]

private theorem toNat_foundSize {nodes : List CacheEntry} (h : Indexed nodes) (id : Key × UInt32) :
    (foundSize nodes id).toNat = nodeSize nodes id := by
  rw [foundSize]
  cases hfind : nodes.find? fun node ↦ node.id = id with
  | none =>
    rw [nodeSize_eq_zero fun node hnode heq ↦
      List.find?_eq_none.mp hfind node hnode (decide_eq_true heq)]
    rfl
  | some node =>
    have hid : node.id = id := by simpa using List.find?_some hfind
    rw [← hid, nodeSize_of_mem h (List.mem_of_find?_eq_some hfind)]
    rfl

private theorem set_of_found {held : Option Key} {c : Cache} (key : CacheEntry)
    (hroom : c.curSize - foundSize c.nodes key.id + key.dataSize ≤ c.cap) :
    c.set held key = some { c with
      nodes := c.nodes.eraseP key.same ++ [key]
      curSize := c.curSize - foundSize c.nodes key.id + key.dataSize } := by
  have hsame : key.same = fun node ↦ decide (node.id = key.id) := by
    funext node
    rw [Bool.eq_iff_iff, CacheEntry.same_iff, decide_eq_true_iff, eq_comm]
  have hnot := UInt32.not_lt.mpr hroom
  cases hfind : c.nodes.find? key.same with
  | none =>
    have hzero : foundSize c.nodes key.id = 0 := by
      rw [foundSize, ← hsame, hfind]
      rfl
    rw [hzero, UInt32.sub_zero] at hnot ⊢
    rw [set, hfind, List.eraseP_of_forall_not (List.find?_eq_none.mp hfind)]
    dsimp only
    rw [makeRoom_of_fits hnot]
  | some exist =>
    have hexist : foundSize c.nodes key.id = exist.dataSize := by
      rw [foundSize, ← hsame, hfind]
      rfl
    rw [hexist] at hnot ⊢
    rw [set, hfind]
    dsimp only
    rw [makeRoom_of_fits hnot]

/-- Replacing nodes by others of new sizes one after the other never exceeds the capacity. -/
def Fits (cap : UInt32) : UInt32 → List (UInt32 × UInt32) → Prop
  | _, [] => True
  | curSize, (old, new) :: rest =>
    curSize - old + new ≤ cap ∧ Fits cap (curSize - old + new) rest

instance decidableFits (cap : UInt32) : ∀ curSize sizes, Decidable (Fits cap curSize sizes)
  | _, [] => .isTrue trivial
  | curSize, (old, new) :: rest =>
    have := decidableFits cap (curSize - old + new) rest
    inferInstanceAs (Decidable (_ ∧ _))

/-- The sizes of the nodes of some blocks, and those of their new nodes. -/
def resized (position size : UInt32) (uuid : Key) (nodes : List CacheEntry) (ids : List UInt32) :
    List (UInt32 × UInt32) :=
  ids.map fun id ↦ (foundSize nodes (uuid, id), copySize position size id)

private theorem resized_touch {nodes : List CacheEntry} {key : CacheEntry} {ids : List UInt32}
    (hne : key.blockId ∉ ids) :
    resized position size uuid (nodes.eraseP key.same ++ [key]) ids
      = resized position size uuid nodes ids := by
  refine List.map_congr_left fun id hid ↦ ?_
  rw [foundSize_touch]
  rintro heq
  obtain ⟨-, rfl⟩ := Prod.mk.inj heq
  exact hne hid

variable (data) in
/-- If the blocks are cached and there is room for them, nothing is put in or evicted. -/
theorem updateBlocks_of_fits {ids : List UInt32} {c : Cache} (hnodup : ids.Nodup)
    (hcached : ∀ id ∈ ids, (store c.cachingMap (uuid, id)).isSome)
    (hfits : Fits c.cap c.curSize (resized position size uuid c.nodes ids)) :
    ∃ c', updateBlocks position size data uuid ids c = some c' ∧ Unchanged c c' := by
  induction ids generalizing c with
  | nil => exact ⟨c, rfl, fun _ ↦ rfl⟩
  | cons id ids ih =>
    obtain ⟨hnotMem, hnodup'⟩ := List.nodup_cons.mp hnodup
    let key : CacheEntry := ⟨uuid, id, copySize position size id⟩
    obtain ⟨hroom, hrest⟩ := hfits
    obtain ⟨old, hold⟩ := Option.isSome_iff_exists.mp (hcached id List.mem_cons_self)
    obtain ⟨blocks, hblocks, -⟩ := FiniteMap.lookup₂_eq_some.mp hold
    let c₂ : Cache := { c with
      nodes := c.nodes.eraseP key.same ++ [key]
      curSize := c.curSize - foundSize c.nodes key.id + key.dataSize
      cachingMap := c.cachingMap.insert uuid
        (blocks.emplace id (toEmplace position size data id)) }
    have hsame : Unchanged c c₂ := by
      intro i
      refine (store_insert_emplace (show c.cachingMap.lookup key.fileKey = some blocks from hblocks)
        (toEmplace position size data id) i).trans ?_
      split
      · rename_i heq
        rw [heq, show store c.cachingMap key.id = some old from hold]
        rfl
      · rfl
    obtain ⟨c', hupdate, hsame'⟩ := ih (c := c₂) hnodup'
      (fun i hi ↦ by
        rw [hsame]
        exact hcached i (List.mem_cons_of_mem _ hi))
      (by
        rw [show c₂.nodes = c.nodes.eraseP key.same ++ [key] from rfl, resized_touch hnotMem]
        exact hrest)
    refine ⟨c', ?_, fun i ↦ (hsame' i).trans (hsame i)⟩
    rw [updateBlocks, set_of_found key hroom]
    dsimp only
    rw [hblocks]
    exact hupdate

/-! ## In the middle of a write

Conversely, if nothing has changed after a write that is not larger than the cache, then its blocks
were cached, and none was evicted on the way: a block that is evicted and put in again takes the
place of another one, because the sizes do not get smaller before the last block.
-/

/-- Between two rounds of the loop. `mine` are the nodes of the blocks that are done, and all other
nodes have the blocks they had `before`. -/
structure Mid (before : Key × UInt32 → Option Buf) (c : Cache) (mine : List CacheEntry) :
    Prop where
  sound : c.Sound
  small : ∀ node ∈ c.nodes, node.dataSize.toNat ≤ 4096
  suffix : mine <:+ c.nodes
  present : ∀ node ∈ mine, (store c.cachingMap node.id).isSome
  old : ∀ node ∈ c.nodes, node ∉ mine →
    store c.cachingMap node.id = before node.id ∧
      ∃ buf, before node.id = some buf ∧ buf.length = node.dataSize.toNat
  listed : ∀ id buf, store c.cachingMap id = some buf → ∃ node ∈ c.nodes, node.id = id

theorem Booked.mid {c : Cache} (h : Booked c) : Mid (store c.cachingMap) c [] where
  sound := h.sound
  small := h.small
  suffix := List.nil_suffix
  present := fun _ hnode ↦ nomatch hnode
  old := fun node hnode _ ↦ ⟨rfl, h.tracked.held node hnode⟩
  listed := h.tracked.listed

/-- What is evicted was there before. -/
structure Evicted (before : Key × UInt32 → Option Buf) (c : Cache) (id : Key × UInt32) : Prop where
  before : ∃ buf, before id = some buf ∧ c.cap.toNat < totalSize c.nodes + buf.length
  gone : store c.cachingMap id = none

theorem Mid.step {before : Key × UInt32 → Option Buf} {c : Cache} {mine : List CacheEntry}
    (h : Mid before c mine) (hroomy : c.Roomy)
    (key : CacheEntry) (hkey : key.dataSize.toNat ≤ 4096)
    (hmine : totalSize mine + key.dataSize.toNat ≤ c.cap.toNat)
    (hnew : ∀ node ∈ mine, node.id ≠ key.id) {c₁ : Cache} (hset : c.set none key = some c₁)
    {blocks : BlockMap} (hblocks : c₁.cachingMap.lookup key.fileKey = some blocks) (buf : Buf)
    {c₂ : Cache} (hc₂ : c₂ = { c₁ with
      cachingMap := c₁.cachingMap.insert key.fileKey (blocks.emplace key.blockId buf) }) :
    Mid before c₂ (mine ++ [key]) ∧ c₂.cap = c.cap ∧
      (∀ id, id ≠ key.id → store c.cachingMap id = none → store c₂.cachingMap id = none) ∧
      (store c.cachingMap key.id = none → store c₂.cachingMap key.id = some buf) ∧
      (totalSize (others c.nodes key.id) + key.dataSize.toNat ≤ c.cap.toNat ∧
          c₂.nodes = others c.nodes key.id ++ [key] ∨
        ∃ id, Evicted before c₂ id) := by
  obtain ⟨dropped, kept, c₁', hset', hevicts, hnodes, hcap₁, hsound⟩ :=
    set_spec h.sound hroomy hkey
  obtain rfl : c₁ = c₁' := Option.some_inj.mp (hset.symm.trans hset')
  have hothers : Indexed (others c.nodes key.id) :=
    List.Pairwise.sublist List.filter_sublist h.sound.indexed
  have hkept : kept <:+ others c.nodes key.id := ⟨dropped, hevicts.nodes_eq.symm⟩
  -- the blocks that are done are the last ones used, so they stay
  have hsuffix : mine <:+ kept := by
    refine hevicts.longest mine ?_ hmine
    obtain ⟨rest, hrest⟩ := h.suffix
    refine ⟨others rest key.id, ?_⟩
    rw [← hrest, others_append, others_eq_self hnew]
  have hstore : ∀ id, store c₂.cachingMap id
      = if id = key.id then some ((store c₁.cachingMap id).getD buf)
        else store c₁.cachingMap id := by
    rw [hc₂]
    exact store_insert_emplace hblocks buf
  have hnodes₂ : c₂.nodes = kept ++ [key] := by rw [hc₂, ← hnodes]
  have hcap₂ : c₂.cap = c.cap := by rw [hc₂, ← hcap₁]
  have hother : ∀ node ∈ kept, node.id ≠ key.id := fun node hnode ↦
    (mem_others.mp (hkept.subset hnode)).2
  have hsame : ∀ node ∈ kept, store c₂.cachingMap node.id = store c.cachingMap node.id := by
    intro node hnode
    rw [hstore, if_neg (hother node hnode), hevicts.store_of_kept hothers hnode]
  refine ⟨⟨?_, ?_, ?_, ?_, ?_, ?_⟩, hcap₂, ?_, ?_, ?_⟩
  · rw [hc₂]
    exact ⟨hsound.indexed, hsound.size, hsound.fits⟩
  · rw [hnodes₂]
    exact small_append h.small (hkept.sublist.trans List.filter_sublist) hkey
  · rw [hnodes₂]
    obtain ⟨rest, rfl⟩ := hsuffix
    exact ⟨rest, by rw [List.append_assoc]⟩
  · intro node hnode
    rcases List.mem_append.mp hnode with hnode | hnode
    · rw [hsame node (hsuffix.subset hnode)]
      exact h.present node hnode
    · rw [List.mem_singleton.mp hnode, hstore, if_pos rfl]
      rfl
  · intro node hnode hnot
    rw [hnodes₂] at hnode
    rcases List.mem_append.mp hnode with hnode | hnode
    · rw [hsame node hnode]
      exact h.old node (List.filter_sublist.subset (hkept.subset hnode))
        fun hmem ↦ hnot (List.mem_append_left _ hmem)
    · exact absurd (List.mem_append_right _ hnode) hnot
  · intro id old hold
    rw [hnodes₂]
    by_cases hid : id = key.id
    · exact ⟨key, List.mem_append_right _ (List.mem_singleton_self key), hid.symm⟩
    · rw [hstore, if_neg hid] at hold
      obtain ⟨hprev, hmem⟩ := hevicts.kept_of_store hold
      obtain ⟨node, hnode, rfl⟩ := h.listed id old hprev
      exact ⟨node, List.mem_append_left _ (hmem node (mem_others.mpr ⟨hnode, hid⟩) rfl), rfl⟩
  · intro id hid hnone
    rw [hstore, if_neg hid, hevicts.store_eq, hnone]
    split <;> rfl
  · intro hnone
    rw [hstore, if_pos rfl, hevicts.store_eq, hnone]
    split <;> rfl
  · rcases hevicts.all_or_last with hall | ⟨last, hdropped, hbig⟩
    · refine .inl ⟨?_, by rw [hnodes₂, hall]⟩
      rw [← hall]
      exact hevicts.room
    · -- the last node that was evicted did not fit
      have hlast : last ∈ others c.nodes key.id := by
        rw [hevicts.nodes_eq]
        exact List.mem_append_left _ hdropped
      have hnot : last ∉ mine := by
        intro hmem
        rw [hevicts.nodes_eq] at hothers
        exact (List.pairwise_append.mp hothers).2.2 last hdropped last (hsuffix.subset hmem) rfl
      obtain ⟨-, old, hold, hlen⟩ := h.old last (mem_others.mp hlast).1 hnot
      refine .inr ⟨last.id, ⟨old, hold, ?_⟩, ?_⟩
      · rw [hcap₂, hnodes₂, hlen, totalSize_append, totalSize_cons, totalSize_nil]
        omega
      · rw [hstore, if_neg (mem_others.mp hlast).2, hevicts.store_eq,
          if_pos (List.mem_map_of_mem hdropped)]

/-- What is left to do: the blocks `ids`, which are full but for the last of them and fit in the
cache with those that are done. -/
structure Todo (position size : UInt32) (data : Buf) (uuid : Key) (c : Cache)
    (mine : List CacheEntry) (ids : List UInt32) : Prop where
  roomy : c.Roomy
  nodup : ids.Nodup
  fresh : ∀ id ∈ ids, ∀ node ∈ mine, node.id ≠ (uuid, id)
  fits : totalSize mine + (ids.map fun id ↦ (copySize position size id).toNat).sum ≤ c.cap.toNat
  full : ids.Pairwise fun a _ ↦ (copySize position size a).toNat = 4096
  length : ∀ id ∈ ids, (toEmplace position size data id).length = (copySize position size id).toNat

private theorem absent_updateBlocks {ids : List UInt32} {c c' : Cache}
    (h : updateBlocks position size data uuid ids c = some c')
    (habsent : c.cachingMap.lookup uuid = none) : c'.cachingMap.lookup uuid = none := by
  induction ids generalizing c with
  | nil =>
    cases h
    exact habsent
  | cons id ids ih =>
    rw [updateBlocks] at h
    split at h
    · cases h
    · rename_i c₁ hset
      have habsent₁ := absent_set hset habsent
      rw [habsent₁] at h
      exact ih h habsent₁

theorem Mid.round {before : Key × UInt32 → Option Buf} {c c' : Cache} {mine : List CacheEntry}
    {id : UInt32} {ids : List UInt32} (h : Mid before c mine)
    (htodo : Todo position size data uuid c mine (id :: ids))
    (hupdate : updateBlocks position size data uuid (id :: ids) c = some c')
    (hfile : (c'.cachingMap.lookup uuid).isSome) :
    ∃ c₂ key, key.id = (uuid, id) ∧ key.dataSize = copySize position size id ∧
      updateBlocks position size data uuid ids c₂ = some c' ∧ Mid before c₂ (mine ++ [key]) ∧
      Todo position size data uuid c₂ (mine ++ [key]) ids ∧ c₂.cap = c.cap ∧
      (∀ other, other ≠ (uuid, id) → store c.cachingMap other = none →
        store c₂.cachingMap other = none) ∧
      (store c.cachingMap (uuid, id) = none →
        store c₂.cachingMap (uuid, id) = some (toEmplace position size data id)) ∧
      (totalSize (others c.nodes (uuid, id)) + (copySize position size id).toNat ≤ c.cap.toNat ∧
          c₂.nodes = others c.nodes (uuid, id) ++ [key] ∨
        ∃ other, Evicted before c₂ other) := by
  obtain ⟨hnotMem, hnodup⟩ := List.nodup_cons.mp htodo.nodup
  have hfits := htodo.fits
  rw [List.map_cons, List.sum_cons] at hfits
  rw [updateBlocks] at hupdate
  split at hupdate
  · cases hupdate
  · rename_i c₁ hset
    split at hupdate
    · -- the file is not cached any more, and never again
      rename_i habsent
      rw [absent_updateBlocks hupdate habsent] at hfile
      cases hfile
    · rename_i blocks hblocks
      obtain ⟨hmid, hcap, hgone, hput, hroom⟩ := h.step htodo.roomy
        ⟨uuid, id, copySize position size id⟩ (toNat_copySize_le position size id)
        (by change totalSize mine + (copySize position size id).toNat ≤ _; omega)
        (htodo.fresh id List.mem_cons_self) hset hblocks (toEmplace position size data id) rfl
      refine ⟨_, ⟨uuid, id, copySize position size id⟩, rfl, rfl, hupdate, hmid, ?_, hcap, hgone,
        hput, hroom⟩
      refine ⟨htodo.roomy.of_cap hcap, hnodup, ?_, ?_,
        (List.pairwise_cons.mp htodo.full).2, fun i hi ↦ htodo.length i (List.mem_cons_of_mem _ hi)⟩
      · intro i hi node hnode
        rcases List.mem_append.mp hnode with hnode | hnode
        · exact htodo.fresh i (List.mem_cons_of_mem _ hi) node hnode
        · rw [List.mem_singleton.mp hnode]
          intro heq
          obtain ⟨-, rfl⟩ := Prod.mk.inj heq
          exact hnotMem hi
      · rw [hcap, totalSize_append, totalSize_cons, totalSize_nil]
        change totalSize mine + ((copySize position size id).toNat + 0) + _ ≤ _
        omega

private theorem Mid.isSome_updateBlocks {before : Key × UInt32 → Option Buf} {c c' : Cache}
    {mine : List CacheEntry} {ids : List UInt32} (h : Mid before c mine)
    (htodo : Todo position size data uuid c mine ids)
    (hupdate : updateBlocks position size data uuid ids c = some c')
    (hfile : (c'.cachingMap.lookup uuid).isSome) :
    (∀ node ∈ mine, (store c'.cachingMap node.id).isSome) ∧
      ∀ id ∈ ids, (store c'.cachingMap (uuid, id)).isSome := by
  induction ids generalizing c mine with
  | nil =>
    cases hupdate
    exact ⟨h.present, fun _ hid ↦ nomatch hid⟩
  | cons id ids ih =>
    obtain ⟨c₂, key, hkey, -, hupdate', hmid, htodo', -⟩ := h.round htodo hupdate hfile
    obtain ⟨hmine, hids⟩ := ih hmid htodo' hupdate'
    refine ⟨fun node hnode ↦ hmine node (List.mem_append_left _ hnode), fun i hi ↦ ?_⟩
    rcases List.mem_cons.mp hi with rfl | hi
    · have := hmine key (List.mem_append_right _ (List.mem_singleton_self key))
      rwa [hkey] at this
    · exact hids i hi

/-- Once something is evicted, something is missing at the end. -/
theorem Mid.not_restored {before : Key × UInt32 → Option Buf} {c c' : Cache}
    {mine : List CacheEntry} {ids : List UInt32} (h : Mid before c mine)
    (htodo : Todo position size data uuid c mine ids)
    (hupdate : updateBlocks position size data uuid ids c = some c')
    (hfile : (c'.cachingMap.lookup uuid).isSome) {lost : Key × UInt32}
    (hlost : Evicted before c lost) : ¬ ∀ id, store c'.cachingMap id = before id := by
  intro hsame
  -- what is not put in again stays away
  have haway : ∀ {c : Cache} {ids : List UInt32} {lost : Key × UInt32},
      updateBlocks position size data uuid ids c = some c' → Evicted before c lost →
      lost.1 = uuid ∧ lost.2 ∈ ids := by
    intro c ids lost hupdate hlost
    obtain ⟨buf, hbuf, -⟩ := hlost.before
    have hend : c'.cachingMap.lookup₂ lost.1 lost.2 = some buf := (hsame lost).trans hbuf
    rcases lookup_updateBlocks hupdate hend with hstill | ⟨hfile, hmem, -⟩
    · cases hlost.gone.symm.trans hstill
    · exact ⟨hfile, hmem⟩
  induction ids generalizing c mine lost with
  | nil => exact absurd (haway hupdate hlost).2 List.not_mem_nil
  | cons id ids ih =>
    obtain ⟨hnotMem, -⟩ := List.nodup_cons.mp htodo.nodup
    obtain ⟨c₂, key, hkey, hsize, hupdate', hmid, htodo', hcap, hgone, hput, hroom⟩ :=
      h.round htodo hupdate hfile
    rcases hroom with ⟨hroom, hnodes⟩ | ⟨other, hother⟩
    · obtain ⟨hlostFile, hlostMem⟩ := haway hupdate hlost
      obtain ⟨buf, hbuf, hover⟩ := hlost.before
      have htotal := totalSize_eq_others_add c.nodes (uuid, id)
      by_cases hid : lost = (uuid, id)
      · -- it is put in again now, with the size it had, for which there was no room
        subst hid
        have hnone : ∀ node ∈ c.nodes, node.id ≠ (uuid, id) := by
          intro node hnode heq
          obtain ⟨hold, old, hget, -⟩ := h.old node hnode fun hmem ↦
            htodo.fresh id List.mem_cons_self node hmem heq
          rw [heq, hlost.gone] at hold
          rw [heq, ← hold] at hget
          cases hget
        have hend : c'.cachingMap.lookup₂ uuid id = some buf := (hsame (uuid, id)).trans hbuf
        have hbytes : buf = toEmplace position size data id := by
          rcases lookup_updateBlocks hupdate' hend with hstill | ⟨-, hmem, -⟩
          · exact Option.some_inj.mp (hstill.symm.trans (hput hlost.gone))
          · exact absurd hmem hnotMem
        have hlen := htodo.length id List.mem_cons_self
        rw [others_eq_self hnone] at hroom
        rw [hbytes, hlen] at hover
        omega
      · -- it comes later, so this block is full and the list did not get smaller
        have hlater : lost.2 ∈ ids := by
          refine (List.mem_cons.mp hlostMem).resolve_left fun heq ↦ hid ?_
          exact Prod.ext hlostFile heq
        have hfull := (List.pairwise_cons.mp htodo.full).1 lost.2 hlater
        have hle := nodeSize_le h.sound.indexed h.small (uuid, id)
        refine ih hmid htodo' hupdate' ⟨⟨buf, hbuf, ?_⟩, hgone lost hid hlost.gone⟩
        rw [hcap, hnodes, totalSize_append, totalSize_cons, totalSize_nil, hsize]
        omega
    · exact ih hmid htodo' hupdate' hother

private theorem Mid.fits_of_same {before : Key × UInt32 → Option Buf} {c c' : Cache}
    {mine : List CacheEntry} {ids : List UInt32} (h : Mid before c mine)
    (htodo : Todo position size data uuid c mine ids)
    (hupdate : updateBlocks position size data uuid ids c = some c')
    (hfile : (c'.cachingMap.lookup uuid).isSome)
    (hsame : ∀ id, store c'.cachingMap id = before id) :
    Fits c.cap c.curSize (resized position size uuid c.nodes ids) := by
  induction ids generalizing c mine with
  | nil => trivial
  | cons id ids ih =>
    obtain ⟨hnotMem, -⟩ := List.nodup_cons.mp htodo.nodup
    obtain ⟨c₂, key, hkey, hsize, hupdate', hmid, htodo', hcap, -, -, hroom⟩ :=
      h.round htodo hupdate hfile
    rcases hroom with ⟨hroom, hnodes⟩ | ⟨other, hother⟩
    · have hrest := ih hmid htodo' hupdate'
      have hblockId : key.blockId = id := (Prod.mk.inj hkey).2
      have hfound := toNat_foundSize h.sound.indexed (uuid, id)
      have htotal := totalSize_eq_others_add c.nodes (uuid, id)
      have hold := h.sound.size
      have hnew := hmid.sound.size
      rw [hnodes, totalSize_append, totalSize_cons, totalSize_nil, hsize] at hnew
      -- the 32-bit sum does not wrap, since the nodes fit in the cache
      have hcur : c.curSize - foundSize c.nodes (uuid, id) + copySize position size id
          = c₂.curSize := by
        refine UInt32.toNat_inj.mp ?_
        rw [UInt32.toNat_add, UInt32.toNat_sub_of_le _ _ (by rw [UInt32.le_iff_toNat_le]; omega)]
        have := c₂.curSize.toNat_lt
        omega
      rw [hcap, hnodes, ← hkey, ← eraseP_eq_others h.sound.indexed key,
        resized_touch (by rwa [hblockId])] at hrest
      rw [resized, List.map_cons, Fits, hcur]
      refine ⟨?_, hrest⟩
      rw [UInt32.le_iff_toNat_le]
      omega
    · exact absurd hsame (hmid.not_restored htodo' hupdate' hfile hother)

/-! ## The blocks of a request

They are pairwise different, so each of them is put in or moved once. A block that was not cached is
cached afterwards if anything is returned at all, or it was evicted again, and then another block
took its place. -/

/-- The ids of the blocks of a range, where the loop that lists them ends. -/
def blockIds (position size : UInt32) : List UInt32 :=
  idsFrom position (rounds position (position + size))

variable (position uuid) in
private theorem todo_start {c : Cache} (hroomy : c.Roomy) (hdata : data.length = size.toNat)
    (hsize : size.toNat ≤ c.cap.toNat) :
    Todo position size data uuid c [] (blockIds position size) where
  roomy := hroomy
  nodup := nodup_idsFrom position size
  fresh := fun _ _ _ hnode ↦ nomatch hnode
  fits := by
    have hsizes : (blockIds position size).map (fun id ↦ (copySize position size id).toNat)
        = (List.range (rounds position (position + size))).map (newSize size) := by
      rw [blockIds, idsFrom, List.map_map]
      exact List.map_congr_left fun k hk ↦ copySize_eq (List.mem_range.mp hk)
    rw [hsizes, sum_newSize, totalSize_nil]
    omega
  full := by
    refine List.pairwise_map.mpr (List.pairwise_lt_range.imp_of_mem fun {j k} hj hk hjk ↦ ?_)
    have hlt := (lt_size_of_lt_rounds (List.mem_range.mp hk)).2
    rw [copySize_eq (List.mem_range.mp hj)]
    omega
  length := by
    intro id hid
    obtain ⟨k, hk, rfl⟩ := List.mem_map.mp hid
    rw [toEmplace_eq hdata (List.mem_range.mp hk), copySize_eq (List.mem_range.mp hk),
      List.length_take, List.length_drop, hdata]

/-- **A file that is cached**, and a request that is not larger than the cache: if nothing has
changed, the blocks were cached and there was room for them. -/
theorem cached_of_unchanged {c c' : Cache} (hbooked : c.Booked) (hroomy : c.Roomy)
    (hcached : (c.cachingMap.lookup uuid).isSome) (hdata : data.length = size.toNat)
    (hsize : size.toNat ≤ c.cap.toNat)
    (h : c.writeToCache position size data uuid = some c') (hsame : Unchanged c c') :
    (∀ id ∈ blockIds position size, (store c.cachingMap (uuid, id)).isSome) ∧
      Fits c.cap c.curSize
        (resized position size uuid c.nodes (blockIds position size)) := by
  obtain ⟨blocks, hblocks⟩ := Option.isSome_iff_exists.mp hcached
  have hfile : (c'.cachingMap.lookup uuid).isSome := by
    -- a block of the file was cached and still is, and with it the file
    obtain ⟨⟨id, buf⟩, hmem⟩ := List.exists_mem_of_ne_nil _ (hbooked.noneEmpty uuid blocks hblocks)
    have hstore : store c.cachingMap (uuid, id) = some buf :=
      FiniteMap.lookup₂_eq_some.mpr ⟨blocks, hblocks, AList.mem_lookup_iff.mpr hmem⟩
    obtain ⟨blocks', hblocks', -⟩ := FiniteMap.lookup₂_eq_some.mp ((hsame (uuid, id)).trans hstore)
    rw [show c'.cachingMap.lookup uuid = some blocks' from hblocks']
    rfl
  rw [writeToCache] at h
  split at h
  · cases h
  · rename_i ids hids
    obtain rfl : ids = blockIds position size := getBlockIds_eq_some hids
    rw [hblocks] at h
    dsimp only at h
    have htodo := todo_start position uuid hroomy hdata hsize
    refine ⟨fun id hid ↦ ?_, hbooked.mid.fits_of_same htodo h hfile hsame⟩
    rw [← hsame]
    exact (hbooked.mid.isSome_updateBlocks htodo h hfile).2 id hid

end Cache

/-! ## Rejected requests

`Keeps` puts the two kinds of files together. A read that comes to the storage has missed a block,
and that block is cached afterwards; so for a file that is cached only a write can leave everything
as it was. -/

/-- A write all of whose blocks are cached, with room for them in their new sizes. -/
def FileRequest.Overwrites (c : Cache) : FileRequest → Prop
  | .read _ => False
  | .write input =>
    (∀ id ∈ Cache.blockIds input.position input.size,
      (Cache.store c.cachingMap (input.uuid, id)).isSome) ∧
    Cache.Fits c.cap c.curSize
      (Cache.resized input.position input.size input.uuid c.nodes
        (Cache.blockIds input.position input.size))

instance (c : Cache) : ∀ input : FileRequest, Decidable (input.Overwrites c)
  | .read _ => inferInstanceAs (Decidable False)
  -- over the blocks of the request, not over all ids
  | .write _ => @instDecidableAnd _ _ (List.decidableBAll _ _) (Cache.decidableFits _ _ _)

/-- The request puts nothing in the cache and evicts nothing: its file is not cached and it has no
blocks, or its file is cached and its blocks take the place of others. -/
def FileRequest.Keeps (c : Cache) (input : FileRequest) : Prop :=
  if (c.cachingMap.lookup input.uuid).isNone then input.position + input.size ≤ input.position
  else input.Overwrites c

instance (c : Cache) (input : FileRequest) : Decidable (input.Keeps c) :=
  inferInstanceAs (Decidable (ite _ _ _))

private theorem rounds_eq_zero_iff {position size : UInt32} :
    Cache.rounds position (position + size) = 0 ↔ position + size ≤ position := by
  rw [UInt32.le_iff_toNat_le, Cache.rounds]
  omega

/-- What the storage is asked for comes to `write_to_cache`, with a cache in which only nodes have
been moved. -/
theorem askStorage_cases {stray : ℕ → UInt8} {c c' : Cache} {reply : Buf} {input : FileRequest}
    (h : askStorage stray c reply input = some c') :
    (∃ w, input = .write w ∧ c.writeToCache w.position w.size w.data w.uuid = some c') ∨
    ∃ r c₁, input = .read r ∧ c.readFromCache r = some (none, c₁) ∧
      c₁.writeToCache r.position r.size (copied stray reply r.size) r.uuid = some c' := by
  cases input with
  | write w => exact .inl ⟨w, rfl, h⟩
  | read r =>
    rw [askStorage] at h
    split at h
    · rename_i c₁ hmiss
      exact .inr ⟨r, c₁, rfl, hmiss, h⟩
    · cases h

private theorem length_copied (stray : ℕ → UInt8) (reply : Buf) (size : UInt32) :
    (copied stray reply size).length = size.toNat := by
  rw [copied, List.length_map, List.length_range]

private theorem unchanged_iff_of_not_cached {stray : ℕ → UInt8} {c c' : Cache} {reply : Buf}
    {input : FileRequest} (habsent : c.cachingMap.lookup input.uuid = none)
    (h : askStorage stray c reply input = some c') :
    Unchanged c c' ↔ input.position + input.size ≤ input.position := by
  obtain ⟨w, rfl, hwrite⟩ | ⟨r, c₁, rfl, hmiss, hwrite⟩ := askStorage_cases h
  · exact (Cache.unchanged_iff_of_absent habsent hwrite).trans rounds_eq_zero_iff
  · change c.cachingMap.lookup r.uuid = none at habsent
    rw [Cache.readFromCache, habsent] at hmiss
    cases hmiss
    exact (Cache.unchanged_iff_of_absent habsent hwrite).trans rounds_eq_zero_iff

private theorem unchanged_of_overwrites {c c' : Cache} {w : WriteRequest} {blocks : BlockMap}
    (hlookup : c.cachingMap.lookup w.uuid = some blocks)
    (hwrite : c.writeToCache w.position w.size w.data w.uuid = some c')
    (h : (FileRequest.write w).Overwrites c) : Unchanged c c' := by
  obtain ⟨hcached, hfits⟩ := h
  rw [Cache.writeToCache] at hwrite
  split at hwrite
  · cases hwrite
  · rename_i ids hids
    obtain rfl : ids = Cache.blockIds w.position w.size := Cache.getBlockIds_eq_some hids
    rw [hlookup] at hwrite
    obtain ⟨c'', hupdate, hsame⟩ := Cache.updateBlocks_of_fits w.data
      (Cache.nodup_idsFrom w.position w.size) hcached hfits
    obtain rfl : c'' = c' := Option.some_inj.mp (hupdate.symm.trans hwrite)
    exact hsame

private theorem not_unchanged_of_missed {c c₁ c' : Cache} (hbooked : c.Booked) (hroomy : c.Roomy)
    {r : ReadRequest} {blocks : BlockMap} (hlookup : c.cachingMap.lookup r.uuid = some blocks)
    {data : Buf} (hdata : data.length = r.size.toNat) (hsize : r.size.toNat ≤ c.cap.toNat)
    (hmiss : c.readFromCache r = some (none, c₁))
    (hwrite : c₁.writeToCache r.position r.size data r.uuid = some c') : ¬ Unchanged c c' := by
  intro hsame
  rw [Cache.readFromCache, hlookup] at hmiss
  dsimp only at hmiss
  split at hmiss
  · cases hmiss
  · rename_i ids hids
    obtain rfl : ids = Cache.blockIds r.position r.size := Cache.getBlockIds_eq_some hids
    obtain ⟨found, c₂, hread, hbooked₁, hmap, hcap, hfound, -⟩ :=
      Cache.readBlocks_booked hbooked hlookup (Cache.blockIds r.position r.size) []
    rw [hread, Option.some_inj, Prod.mk.injEq] at hmiss
    obtain ⟨rfl, rfl⟩ := hmiss
    obtain ⟨hcached, -⟩ := Cache.cached_of_unchanged hbooked₁
      (hroomy.of_cap hcap) (by rw [hmap, hlookup]; rfl) hdata (by rw [hcap]; exact hsize) hwrite
      fun id ↦ by rw [hmap]; exact hsame id
    refine hfound rfl fun id hid ↦ ?_
    have hsome := hcached id hid
    rw [hmap, Cache.store, FiniteMap.lookup₂, hlookup] at hsome
    exact hsome

/-- **What a rejected request leaves of the cache.** Whatever the reply is, the cached blocks are
what they were if the request puts nothing in and evicts nothing, and, from right books and for a
request that is not larger than the cache, only then. -/
theorem unchanged_of_keeps (stray : ℕ → UInt8) {c c' : Cache} {reply : Buf} {input : FileRequest}
    (h : askStorage stray c reply input = some c') :
    (input.Keeps c → Unchanged c c') ∧
      (c.Booked → c.Roomy → input.size.toNat ≤ c.cap.toNat → Unchanged c c' → input.Keeps c) := by
  cases hlookup : c.cachingMap.lookup input.uuid with
  | none =>
    have hiff := unchanged_iff_of_not_cached hlookup h
    rw [FileRequest.Keeps, hlookup, if_pos Option.isNone_none]
    exact ⟨hiff.mpr, fun _ _ _ ↦ hiff.mp⟩
  | some blocks =>
    rw [FileRequest.Keeps, hlookup, if_neg (by simp)]
    obtain ⟨w, rfl, hwrite⟩ | ⟨r, c₁, rfl, hmiss, hwrite⟩ := askStorage_cases h
    · change c.cachingMap.lookup w.uuid = some blocks at hlookup
      refine ⟨unchanged_of_overwrites hlookup hwrite, fun hbooked hroomy hsize hsame ↦ ?_⟩
      exact Cache.cached_of_unchanged hbooked hroomy (by rw [hlookup]; rfl)
        (toNat_size_write w).symm hsize hwrite hsame
    · change c.cachingMap.lookup r.uuid = some blocks at hlookup
      refine ⟨False.elim, fun hbooked hroomy hsize hsame ↦ ?_⟩
      exact not_unchanged_of_missed hbooked hroomy hlookup (length_copied stray reply r.size) hsize
        hmiss hwrite hsame

/-- The cache after three bytes have been written. -/
def threeBytes : Option Cache :=
  (Cache.empty 4096 .lru).writeToCache 0 3 [1, 2, 3] (List.Vector.replicate 32 0)

/-- A write that is rejected, where as many bytes are cached. -/
theorem unchanged_three_bytes :
    ∃ c c', threeBytes = some c ∧ askStorage (fun _ ↦ 0) c Write.foundPending
        (shortWrite 0 [5, 6, 7] (by decide)) = some c' ∧ Unchanged c c' := by
  obtain ⟨c', hc'⟩ := Option.isSome_iff_exists.mp (show (threeBytes.bind fun c ↦
    askStorage (fun _ ↦ 0) c Write.foundPending
      (shortWrite 0 [5, 6, 7] (by decide))).isSome by decide +kernel)
  obtain ⟨c, hc, hask⟩ := Option.bind_eq_some_iff.mp hc'
  have hkeeps : ∀ c ∈ threeBytes, (shortWrite 0 [5, 6, 7] (by decide)).Keeps c := by
    decide +kernel
  exact ⟨c, c', hc, hask, (unchanged_of_keeps _ hask).1 (hkeeps c hc)⟩

/-- **A rejected write is served, and so is the text of an error**, where nothing was cached. -/
theorem rejected_served :
    (∃ c c', askStorage (fun _ ↦ 0) (Cache.empty 4096 .lru) Write.foundPending
        (shortWrite 0 [4] (by decide)) = some c ∧ ¬ Unchanged (Cache.empty 4096 .lru) c ∧
      c.readFromCache ⟨List.Vector.replicate 32 0, 0, 1⟩ = some (some [4], c')) ∧
    ∃ c c', askStorage (fun _ ↦ 0) (Cache.empty 4096 .lru) readTimeout
        (.read ⟨List.Vector.replicate 32 0, 0, 5⟩) = some c ∧
      ¬ Unchanged (Cache.empty 4096 .lru) c ∧
      c.readFromCache ⟨List.Vector.replicate 32 0, 0, 5⟩ = some (some (ascii "Error"), c') := by
  have hserved : ∀ {reply : Buf} {input : FileRequest} {r : ReadRequest} {buf : Buf},
      (askStorage (fun _ ↦ 0) (Cache.empty 4096 .lru) reply input).isSome →
      (∀ c ∈ askStorage (fun _ ↦ 0) (Cache.empty 4096 .lru) reply input,
        (Cache.store c.cachingMap (List.Vector.replicate 32 0, 0)).isSome ∧
          (c.readFromCache r).map Prod.fst = some (some buf)) →
      ∃ c c', askStorage (fun _ ↦ 0) (Cache.empty 4096 .lru) reply input = some c ∧
        ¬ Unchanged (Cache.empty 4096 .lru) c ∧ c.readFromCache r = some (some buf, c') := by
    intro reply input r buf hsome hall
    obtain ⟨c, hc⟩ := Option.isSome_iff_exists.mp hsome
    obtain ⟨hstored, hhit⟩ := hall c hc
    obtain ⟨⟨found, c'⟩, hread, rfl⟩ := Option.map_eq_some_iff.mp hhit
    refine ⟨c, c', hc, fun hsame ↦ ?_, hread⟩
    rw [hsame] at hstored
    cases hstored
  exact ⟨hserved (by decide +kernel) (by decide +kernel),
    hserved (by decide +kernel) (by decide +kernel)⟩

end Slsfs.Datafunction

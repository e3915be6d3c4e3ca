import Mathlib.Algebra.Order.BigOperators.Group.List
import Mathlib.Algebra.Order.Group.Nat
import Slsfs.Datafunction.LruList
import Slsfs.Lib.Linked
import Slsfs.Lib.Run

/-!
# `LRUCache` with its pointers

The list of `Cache` is a doubly linked list in the source, between two sentinel nodes, with an
ordered map `m` from entries to nodes and a running size in an `int`. Here `addnode`, `deletenode`
and `set` are modelled on a heap of nodes, and `Represents` says when the heap and the map hold a
list. Every `set` is shown to do what `Cache.set` does to that list; the rest is about lists.

The block map is shared with the cache, which adds blocks to it between two calls. A deleted node is
gone from the heap, and its address may be handed out again.
-/

namespace Slsfs.Datafunction

open LeveldbPack Cache

/-! ## Nodes on a heap

A node has an entry and two pointers. `head` and `tail` point to sentinel nodes that carry no entry,
so putting in and taking out need no case for the ends of the list. The map `m` leads from an entry
to its node, and `pick` is the allocator: it may return any address at which there is no node. -/

/-- `LRUCache`. The addresses are those of the nodes. Entries are compared by file and block, so the
map is one from these. -/
structure LRUCache where
  heap : Heap CacheEntry
  head : ℕ
  tail : ℕ
  cap : UInt32
  curSize : Int32
  m : FiniteMap (Key × UInt32) ℕ
  cachingMap : CachingMap

namespace LRUCache

/-- The entry of the two sentinels. -/
def sentinel : CacheEntry := ⟨.replicate 32 0, 0, 0⟩

/-- The constructor. -/
def create (new : Allocator CacheEntry) (capacity : UInt32) (cachingMap : CachingMap) : LRUCache :=
  let head := new.pick ∅
  let tail := new.pick (AList.insert head ⟨sentinel, none, none⟩ ∅)
  { heap := AList.insert tail ⟨sentinel, some head, none⟩
      (AList.insert head ⟨sentinel, none, some tail⟩ ∅)
    head := head
    tail := tail
    cap := capacity
    curSize := 0
    m := ∅
    cachingMap := cachingMap }

/-- The sizes are added as unsigned numbers and stored in an `int`. -/
def addnode (s : LRUCache) (temp : ℕ) : Option LRUCache := do
  let node ← s.heap.lookup temp
  let heap ← s.heap.insertAfter s.head temp
  return { s with
    curSize := (s.curSize.toUInt32 + node.key.dataSize).toInt32
    heap := heap }

def deletenode (s : LRUCache) (temp : ℕ) : Option LRUCache := do
  let node ← s.heap.lookup temp
  let heap ← s.heap.unlink temp
  return { s with
    curSize := (s.curSize.toUInt32 - node.key.dataSize).toInt32
    heap := heap }

/-- The body of the loop of `set`. -/
def evict (s : LRUCache) : Option LRUCache := do
  let last ← s.heap.prevOf s.tail
  let node ← s.heap.lookup last
  let map ← deleteEntryFromCache none s.cachingMap node.key
  deletenode { s with
    cachingMap := map
    m := s.m.erase node.key.id } last

/-- The loop of `set`; `none` if it goes on for more than `rounds` rounds. -/
def makeRoom (size : UInt32) : ℕ → LRUCache → Option LRUCache
  | 0, s => if s.cap < s.curSize.toUInt32 + size then none else some s
  | rounds + 1, s =>
    if s.cap < s.curSize.toUInt32 + size then s.evict.bind (makeRoom size rounds) else some s

/-- The first lines of `set`: the node of the same block is deleted. -/
def replaceExisting (s : LRUCache) (key : CacheEntry) : Option LRUCache :=
  match s.m.lookup key.id with
  | none => some s
  | some exist => deletenode { s with m := s.m.erase key.id } exist

/-- `set`. The loop has as many rounds as there are entries in the map. -/
def set (s : LRUCache) (new : Allocator CacheEntry) (key : CacheEntry) : Option LRUCache := do
  let s ← s.replaceExisting key
  let s ← makeRoom key.dataSize s.m.entries.length s
  let temp := new.pick s.heap
  let s ← addnode { s with heap := AList.insert temp ⟨key, none, none⟩ s.heap } temp
  let first ← s.heap.nextOf s.head
  return { s with m := s.m.insert key.id first }

/-! ## What the pointers stand for

`Represents s nodes` says that the nodes are reached one after the other from `head` and backwards
from `tail`, that the map has exactly these entries, and that the running size is the sum of their
sizes. Each operation of the class is followed by a lemma that gives the list it leads to: `addnode`
puts a node at the head, `deletenode` takes one out, `evict` takes the last one off. What an
operation does not touch is said by `Fixed`, once for all of them. -/

/-- The nodes between the sentinels, from the head to the tail, with their addresses. -/
structure Represents (s : LRUCache) (nodes : List (ℕ × CacheEntry)) : Prop where
  linked : Linked s.heap (s.head :: (nodes.map Prod.fst ++ [s.tail]))
  keys : ∀ node ∈ nodes, s.heap.keyOf node.1 = some node.2
  sentinels : s.heap.keyOf s.head = some sentinel ∧ s.heap.keyOf s.tail = some sentinel
  indexed : Indexed (nodes.map Prod.snd)
  /-- The map leads from each entry to its node, and to nothing else. -/
  index : ∀ id a, s.m.lookup id = some a ↔ ∃ entry, (a, entry) ∈ nodes ∧ entry.id = id

/-- The list and the rest of the state, as the model without pointers has it. -/
def cache (policy : EvictionPolicy) (s : LRUCache) (nodes : List (ℕ × CacheEntry)) : Cache where
  evictionPolicy := policy
  cap := s.cap
  curSize := s.curSize.toUInt32
  nodes := (nodes.map Prod.snd).reverse
  cachingMap := s.cachingMap

/-- The members that only the constructor assigns. -/
structure Fixed (s s' : LRUCache) : Prop where
  cap : s'.cap = s.cap
  head : s'.head = s.head
  tail : s'.tail = s.tail

theorem Fixed.refl (s : LRUCache) : Fixed s s := ⟨rfl, rfl, rfl⟩

theorem Fixed.trans {s₁ s₂ s₃ : LRUCache} (h : Fixed s₁ s₂) (h' : Fixed s₂ s₃) : Fixed s₁ s₃ :=
  ⟨h'.cap.trans h.cap, h'.head.trans h.head, h'.tail.trans h.tail⟩

namespace Represents

variable {s : LRUCache} {nodes : List (ℕ × CacheEntry)}

theorem congr (h : s.Represents nodes) (map : CachingMap) :
    Represents { s with cachingMap := map } nodes :=
  ⟨h.linked, h.keys, h.sentinels, h.indexed, h.index⟩

theorem length_le (h : s.Represents nodes) : nodes.length ≤ s.m.entries.length := by
  have hnodup : (nodes.map fun node ↦ node.2.id).Nodup := by
    have hindexed := h.indexed
    rw [Indexed, List.pairwise_map] at hindexed
    exact List.pairwise_map.mpr hindexed
  have hsubset : (nodes.map fun node ↦ node.2.id) ⊆ s.m.keys := by
    intro id hid
    obtain ⟨⟨a, entry⟩, hnode, rfl⟩ := List.mem_map.mp hid
    have hlookup := (h.index entry.id a).mpr ⟨entry, hnode, rfl⟩
    exact AList.mem_keys.mpr (AList.lookup_isSome.mp (by rw [hlookup]; rfl))
  have hle := (List.subperm_of_subset hnodup hsubset).length_le
  rw [List.length_map, AList.keys, List.keys, List.length_map] at hle
  exact hle

private theorem lookup_eq (h : s.Represents nodes) {a : ℕ} {entry : CacheEntry}
    (hnode : (a, entry) ∈ nodes) : ∃ cell, s.heap.lookup a = some cell ∧ cell.key = entry :=
  Option.map_eq_some_iff.mp (h.keys _ hnode)

private theorem id_ne {before after : List (ℕ × CacheEntry)} {a : ℕ} {entry : CacheEntry}
    (h : s.Represents (before ++ (a, entry) :: after)) :
    ∀ node ∈ before ++ after, node.2.id ≠ entry.id := by
  have hindexed := h.indexed
  rw [List.map_append, List.map_cons] at hindexed
  obtain ⟨-, hafter, hbefore⟩ := List.pairwise_append.mp hindexed
  intro node hnode
  rcases List.mem_append.mp hnode with hnode | hnode
  · exact hbefore _ (List.mem_map_of_mem hnode) _ List.mem_cons_self
  · exact ((List.pairwise_cons.mp hafter).1 _ (List.mem_map_of_mem hnode)).symm

private theorem index_erase {before after : List (ℕ × CacheEntry)} {a : ℕ} {entry : CacheEntry}
    (h : s.Represents (before ++ (a, entry) :: after)) (id : Key × UInt32) (b : ℕ) :
    (s.m.erase entry.id).lookup id = some b ↔
      ∃ other, (b, other) ∈ before ++ after ∧ other.id = id := by
  by_cases hid : id = entry.id
  · rw [hid, AList.lookup_erase]
    constructor
    · intro hnone
      cases hnone
    · rintro ⟨other, hnode, hother⟩
      exact absurd hother (h.id_ne _ hnode)
  · rw [AList.lookup_erase_ne hid, h.index]
    refine exists_congr fun other ↦ and_congr_left fun hother ↦ ?_
    have hhere : (b, other) ≠ (a, entry) := by
      rintro heq
      exact hid (hother ▸ congrArg (fun node ↦ CacheEntry.id node.2) heq)
    simp [hhere]

/-- **Taking a node off the list and out of the map.** -/
theorem deletenode {before after : List (ℕ × CacheEntry)} {a : ℕ} {entry : CacheEntry}
    (h : s.Represents (before ++ (a, entry) :: after)) (map : CachingMap) :
    ∃ s', LRUCache.deletenode { s with cachingMap := map, m := s.m.erase entry.id } a = some s' ∧
      s'.Represents (before ++ after) ∧
      s'.curSize = (s.curSize.toUInt32 - entry.dataSize).toInt32 ∧ s'.cachingMap = map ∧
      Fixed s s' := by
  have hmem : (a, entry) ∈ before ++ (a, entry) :: after := by simp
  obtain ⟨cell, hcell, rfl⟩ := h.lookup_eq hmem
  -- the sentinels are on both sides of the node
  obtain ⟨front, p, hfront⟩ : ∃ front p, s.head :: before.map Prod.fst = front ++ [p] :=
    ⟨_, _, (List.dropLast_append_getLast (List.cons_ne_nil _ _)).symm⟩
  obtain ⟨n, rest, hrest⟩ : ∃ n rest, after.map Prod.fst ++ [s.tail] = n :: rest :=
    List.exists_cons_of_ne_nil (by simp)
  have hpath : s.head :: ((before ++ (a, cell.key) :: after).map Prod.fst ++ [s.tail])
      = front ++ p :: a :: n :: rest := by
    rw [List.map_append, List.map_cons, List.append_assoc, List.cons_append, hrest,
      ← List.cons_append, hfront, List.append_assoc]
    rfl
  have hpath' : s.head :: ((before ++ after).map Prod.fst ++ [s.tail])
      = front ++ p :: n :: rest := by
    rw [List.map_append, List.append_assoc, hrest, ← List.cons_append, hfront, List.append_assoc]
    rfl
  have hlinked := h.linked
  rw [hpath] at hlinked
  obtain ⟨ha, heap', hunlink, hlinked', hkeys⟩ := hlinked.unlink
  rw [← hpath'] at hlinked' ha
  have hne : ∀ x, x ∈ s.head :: ((before ++ after).map Prod.fst ++ [s.tail]) → x ≠ a :=
    fun x hx heq ↦ ha (heq ▸ hx)
  refine ⟨{ s with
      cachingMap := map
      m := s.m.erase cell.key.id
      curSize := (s.curSize.toUInt32 - cell.key.dataSize).toInt32
      heap := heap' }, ?_, ⟨hlinked', ?_, ⟨?_, ?_⟩, ?_, ?_⟩, rfl, rfl, rfl, rfl, rfl⟩
  · simp only [LRUCache.deletenode, hcell, hunlink, Option.bind_eq_bind, Option.bind_some]
    rfl
  · intro node hnode
    have hmem' : node ∈ before ++ (a, cell.key) :: after := by
      rcases List.mem_append.mp hnode with hnode | hnode <;> simp [hnode]
    rw [hkeys, if_neg (hne _ ?_), h.keys node hmem']
    exact List.mem_cons_of_mem _ (List.mem_append_left _ (List.mem_map_of_mem hnode))
  · rw [hkeys, if_neg (hne _ List.mem_cons_self), h.sentinels.1]
  · rw [hkeys, if_neg (hne _ (by simp)), h.sentinels.2]
  · refine List.Pairwise.sublist ?_ h.indexed
    exact ((List.sublist_cons_self _ _).append_left before).map Prod.snd
  · exact h.index_erase

private theorem prevOf_tail {a : ℕ} {entry : CacheEntry}
    (h : s.Represents (nodes ++ [(a, entry)])) :
    s.heap.prevOf s.tail = some a := by
  have hlinks := h.linked.links
  rw [List.map_append, List.map_cons, List.map_nil, List.append_assoc, List.singleton_append,
    ← List.cons_append] at hlinks
  exact (List.isChain_append_cons_cons.mp hlinks).2.1.2

/-- **One round of the loop.** -/
theorem evict {a : ℕ} {entry : CacheEntry} (h : s.Represents (nodes ++ [(a, entry)]))
    {map : CachingMap} (hmap : deleteEntryFromCache none s.cachingMap entry = some map) :
    ∃ s', s.evict = some s' ∧ s'.Represents nodes ∧
      s'.curSize = (s.curSize.toUInt32 - entry.dataSize).toInt32 ∧ s'.cachingMap = map ∧
      Fixed s s' := by
  have hmem : (a, entry) ∈ nodes ++ [(a, entry)] := by simp
  obtain ⟨cell, hcell, rfl⟩ := h.lookup_eq hmem
  obtain ⟨s', hdelete, hs', hrest⟩ := h.deletenode map
  rw [List.append_nil] at hs'
  refine ⟨s', ?_, hs', hrest⟩
  simp only [LRUCache.evict, h.prevOf_tail, hcell, hmap, Option.bind_eq_bind, Option.bind_some]
  exact hdelete

/-- **The loop** evicts what `Cache.makeRoom` evicts. There are never more rounds than nodes, so the
sentinels are not reached. -/
theorem makeRoom {size : UInt32} {rounds : ℕ} (h : s.Represents nodes)
    (hrounds : nodes.length ≤ rounds) {kept : List CacheEntry} {curSize : UInt32}
    {map : CachingMap}
    (hmake : Cache.makeRoom none size s.cap (nodes.map Prod.snd).reverse s.curSize.toUInt32
      s.cachingMap = some (kept, curSize, map)) :
    ∃ s' nodes', s.makeRoom size rounds = some s' ∧ s'.Represents nodes' ∧ nodes' <+: nodes ∧
      (nodes'.map Prod.snd).reverse = kept ∧ s'.curSize.toUInt32 = curSize ∧
      s'.cachingMap = map ∧ Fixed s s' := by
  induction nodes using List.reverseRecOn generalizing s rounds with
  | nil =>
    rw [List.map_nil, List.reverse_nil, Cache.makeRoom] at hmake
    split at hmake
    · cases hmake
    · rename_i hroom
      cases hmake
      refine ⟨s, [], ?_, h, List.prefix_refl _, rfl, rfl, rfl, Fixed.refl s⟩
      cases rounds <;> rw [LRUCache.makeRoom, if_neg hroom]
  | append_singleton nodes node ih =>
    obtain ⟨a, entry⟩ := node
    rw [List.length_append, List.length_singleton] at hrounds
    obtain ⟨rounds, rfl⟩ := Nat.exists_eq_add_of_le' (Nat.le_of_add_left_le hrounds)
    rw [List.map_append, List.map_cons, List.map_nil, List.reverse_append, List.reverse_singleton,
      List.singleton_append, Cache.makeRoom] at hmake
    split at hmake
    · rename_i hfull
      split at hmake
      · cases hmake
      · rename_i map₁ hmap₁
        obtain ⟨s₁, hevict, hs₁, hsize₁, hcaching₁, hfixed₁⟩ := h.evict hmap₁
        have hsize₁' : s₁.curSize.toUInt32 = s.curSize.toUInt32 - entry.dataSize := by
          rw [hsize₁, UInt32.toUInt32_toInt32]
        rw [← hfixed₁.cap, ← hsize₁', ← hcaching₁] at hmake
        obtain ⟨s', nodes', hloop, hs', hpre, hkept, hsize, hcaching, hfixed⟩ :=
          ih hs₁ (show nodes.length ≤ rounds by omega) hmake
        refine ⟨s', nodes', ?_, hs', hpre.trans (List.prefix_append _ _), hkept, hsize, hcaching,
          hfixed₁.trans hfixed⟩
        rw [LRUCache.makeRoom, if_pos hfull, hevict]
        exact hloop
    · rename_i hroom
      cases hmake
      refine ⟨s, nodes ++ [(a, entry)], ?_, h, List.prefix_refl _, ?_, rfl, rfl, Fixed.refl s⟩
      · rw [LRUCache.makeRoom, if_neg hroom]
      · rw [List.map_append, List.map_cons, List.map_nil, List.reverse_append,
          List.reverse_singleton, List.singleton_append]

private theorem index_insert (h : s.Represents nodes) {key : CacheEntry}
    (hkey : ∀ node ∈ nodes, node.2.id ≠ key.id) (temp : ℕ) (id : Key × UInt32) (b : ℕ) :
    (s.m.insert key.id temp).lookup id = some b ↔
      ∃ entry, (b, entry) ∈ (temp, key) :: nodes ∧ entry.id = id := by
  by_cases hid : id = key.id
  · rw [hid, AList.lookup_insert, Option.some_inj]
    constructor
    · rintro rfl
      exact ⟨key, List.mem_cons_self, rfl⟩
    · rintro ⟨entry, hnode, hentry⟩
      rcases List.mem_cons.mp hnode with heq | hnode
      · exact (congrArg Prod.fst heq).symm
      · exact absurd hentry (hkey _ hnode)
  · rw [AList.lookup_insert_ne hid, h.index]
    refine exists_congr fun entry ↦ and_congr_left fun hentry ↦ ?_
    have hother : (b, entry) ≠ (temp, key) := by
      rintro heq
      exact hid (hentry ▸ congrArg (fun node ↦ CacheEntry.id node.2) heq)
    simp [hother]

private theorem pick_not_mem (h : s.Represents nodes) (new : Allocator CacheEntry) :
    new.pick s.heap ∉ s.head :: (nodes.map Prod.fst ++ [s.tail]) := by
  have hfree : s.heap.keyOf (new.pick s.heap) = none := by
    rw [Heap.keyOf, new.free, Option.map_none]
  intro hmem
  simp only [List.mem_cons, List.mem_append, List.not_mem_nil, or_false] at hmem
  rcases hmem with heq | hmem | heq
  · rw [heq, h.sentinels.1] at hfree
    cases hfree
  · obtain ⟨node, hnode, heq⟩ := List.mem_map.mp hmem
    rw [← heq, h.keys node hnode] at hfree
    cases hfree
  · rw [heq, h.sentinels.2] at hfree
    cases hfree

/-- **Putting a new node at the head and into the map.** -/
theorem addnode (h : s.Represents nodes) (new : Allocator CacheEntry) {key : CacheEntry}
    (hkey : ∀ node ∈ nodes, node.2.id ≠ key.id) :
    ∃ temp s', LRUCache.addnode
        { s with heap := AList.insert (new.pick s.heap) ⟨key, none, none⟩ s.heap }
          (new.pick s.heap) = some s' ∧
      s'.heap.nextOf s'.head = some temp ∧
      Represents { s' with m := s'.m.insert key.id temp } ((temp, key) :: nodes) ∧
      s'.curSize = (s.curSize.toUInt32 + key.dataSize).toInt32 ∧ s'.cachingMap = s.cachingMap ∧
      Fixed s s' := by
  have hfresh := h.pick_not_mem new
  obtain ⟨n, rest, hrest⟩ : ∃ n rest, nodes.map Prod.fst ++ [s.tail] = n :: rest :=
    List.exists_cons_of_ne_nil (by simp)
  have hlinked := h.linked.insert_fresh hfresh ⟨key, none, none⟩
  rw [hrest] at hlinked hfresh
  obtain ⟨heap', hinsert, hlinked', hkeys⟩ := hlinked.insertAfter hfresh
    (by rw [Heap.keyOf_insert]; rfl)
  have hnext := (List.isChain_cons_cons.mp hlinked'.links).1.1
  have hold : ∀ x ∈ s.head :: n :: rest, heap'.keyOf x = s.heap.keyOf x := by
    intro x hx
    have hne : x ≠ new.pick s.heap := fun heq ↦ hfresh (heq ▸ hx)
    rw [hkeys, Heap.keyOf_insert_of_ne _ _ hne]
  rw [← hrest] at hlinked' hold
  refine ⟨new.pick s.heap, { s with
      curSize := (s.curSize.toUInt32 + key.dataSize).toInt32
      heap := heap' }, ?_, hnext, ⟨hlinked', ?_, ⟨?_, ?_⟩, ?_, ?_⟩, rfl, rfl, rfl, rfl, rfl⟩
  · simp only [LRUCache.addnode, AList.lookup_insert, hinsert, Option.bind_eq_bind,
      Option.bind_some]
    rfl
  · intro node hnode
    rcases List.mem_cons.mp hnode with rfl | hnode
    · rw [hkeys, Heap.keyOf_insert]
    · refine (hold _ ?_).trans (h.keys node hnode)
      exact List.mem_cons_of_mem _ (List.mem_append_left _ (List.mem_map_of_mem hnode))
  · exact (hold _ List.mem_cons_self).trans h.sentinels.1
  · exact (hold _ (by simp)).trans h.sentinels.2
  · rw [List.map_cons]
    refine List.pairwise_cons.mpr ⟨fun other hother ↦ ?_, h.indexed⟩
    obtain ⟨node, hnode, rfl⟩ := List.mem_map.mp hother
    exact (hkey node hnode).symm
  · exact h.index_insert hkey (new.pick s.heap)

/-- **The first lines of `set`** in both models. -/
theorem replaceExisting (h : s.Represents nodes) (policy : EvictionPolicy) (key : CacheEntry) :
    ∃ s₁ nodes₁, s.replaceExisting key = some s₁ ∧ s₁.Represents nodes₁ ∧
      (∀ node ∈ nodes₁, node.2.id ≠ key.id) ∧
      (s.cache policy nodes).set none key
        = (Cache.makeRoom none key.dataSize s₁.cap (nodes₁.map Prod.snd).reverse
            s₁.curSize.toUInt32 s₁.cachingMap).map (fun r ↦ { s.cache policy nodes with
          nodes := r.1 ++ [key]
          curSize := r.2.1 + key.dataSize
          cachingMap := r.2.2 }) ∧
      Fixed s s₁ := by
  cases hlookup : s.m.lookup key.id with
  | none =>
    have hnone : ∀ node ∈ nodes, node.2.id ≠ key.id := by
      rintro ⟨a, entry⟩ hnode hid
      have hsome := (h.index key.id a).mpr ⟨entry, hnode, hid⟩
      rw [hlookup] at hsome
      cases hsome
    have hfind : (s.cache policy nodes).nodes.find? key.same = none := by
      refine List.find?_eq_none.mpr fun other hother hsame ↦ ?_
      obtain ⟨node, hnode, rfl⟩ := List.mem_map.mp (List.mem_reverse.mp hother)
      exact hnone node hnode (CacheEntry.same_iff.mp hsame).symm
    refine ⟨s, nodes, by rw [LRUCache.replaceExisting, hlookup], h, hnone, ?_, Fixed.refl s⟩
    rw [set_eq_map, hfind]
    rfl
  | some a =>
    obtain ⟨entry, hnode, hid⟩ := (h.index key.id a).mp hlookup
    obtain ⟨before, after, rfl⟩ := List.append_of_mem hnode
    obtain ⟨s₁, hdelete, hs₁, hsize, hcaching, hfixed⟩ := h.deletenode s.cachingMap
    have hother := h.id_ne
    rw [hid] at hdelete hother
    have hnodes : (s.cache policy (before ++ (a, entry) :: after)).nodes
        = (after.map Prod.snd).reverse ++ entry :: (before.map Prod.snd).reverse := by
      rw [cache, List.map_append, List.map_cons, List.reverse_append, List.reverse_cons,
        List.append_assoc, List.singleton_append]
    have hafter : ∀ other ∈ (after.map Prod.snd).reverse, ¬key.same other = true := by
      intro other hmem hsame
      obtain ⟨node, hnode, rfl⟩ := List.mem_map.mp (List.mem_reverse.mp hmem)
      exact hother node (List.mem_append_right _ hnode) (CacheEntry.same_iff.mp hsame).symm
    have hsame : key.same entry = true := CacheEntry.same_iff.mpr hid.symm
    refine ⟨s₁, before ++ after, by rw [LRUCache.replaceExisting, hlookup]; exact hdelete, hs₁,
      hother, ?_, hfixed⟩
    rw [set_eq_map, hnodes, List.find?_append, List.find?_eq_none.mpr hafter, Option.none_or,
      List.find?_cons_of_pos hsame, Option.elim_some, Option.elim_some,
      List.eraseP_append_right _ hafter, List.eraseP_cons_of_pos hsame, hsize,
      UInt32.toUInt32_toInt32, List.map_append, List.reverse_append, hfixed.cap, hcaching]
    rfl

/-- **Refinement.** `set` does to the list what the model without pointers does. -/
theorem set (h : s.Represents nodes) (policy : EvictionPolicy) (new : Allocator CacheEntry)
    {key : CacheEntry} {c' : Cache} (hset : (s.cache policy nodes).set none key = some c') :
    ∃ s' nodes', s.set new key = some s' ∧ s'.Represents nodes' ∧ s'.cache policy nodes' = c' ∧
      Fixed s s' := by
  obtain ⟨s₁, nodes₁, hreplace, hs₁, hother, hlist, hfixed₁⟩ :=
    h.replaceExisting policy key
  rw [hlist] at hset
  obtain ⟨⟨kept, curSize, map⟩, hmake, rfl⟩ := Option.map_eq_some_iff.mp hset
  obtain ⟨s₂, nodes₂, hloop, hs₂, hpre, hkept, hsize₂, hcaching₂, hfixed₂⟩ :=
    hs₁.makeRoom hs₁.length_le hmake
  obtain ⟨temp, s₃, hadd, hnext, hs₃, hsize₃, hcaching₃, hfixed₃⟩ :=
    hs₂.addnode new (fun node hnode ↦ hother node (hpre.subset hnode))
  have hfixed : Fixed s s₃ := (hfixed₁.trans hfixed₂).trans hfixed₃
  refine ⟨_, (temp, key) :: nodes₂, ?_, hs₃, ?_, ⟨hfixed.cap, hfixed.head, hfixed.tail⟩⟩
  · simp only [LRUCache.set, hreplace, hloop, hadd, hnext, Option.bind_eq_bind, Option.bind_some]
    rfl
  · rw [cache, List.map_cons, List.reverse_cons, hkept, hsize₃, UInt32.toUInt32_toInt32, hsize₂,
      hcaching₃, hcaching₂, hfixed.cap]
    rfl

end Represents

/-! ## Runs

`history` are the entries of the calls of `set`, latest first, each block once. The list of the
class is the longest end of that history for which there is room, as long as each call finds room
for its own node; that is what makes it a list of the least recently used. An eviction goes on from
the tail until the new node fits, so what is evicted is the shortest end that is enough
(`EvictsShortest`). -/

/-- What happens to the structure: a call of `set`, or a change of the block map by others. -/
inductive Call where
  | set (key : CacheEntry) (new : Allocator CacheEntry)
  | elsewhere (map : CachingMap)

def call (s : LRUCache) : Call → Option LRUCache
  | .set key new => s.set new key
  | .elsewhere map => some { s with cachingMap := map }

/-- The entries that were set, the last one first. -/
def history (calls : List Call) : List CacheEntry :=
  (calls.filterMap fun
    | .set key _ => some key
    | .elsewhere _ => none).reverse

/-- The entries of a history in the order of their most recent `set`, one for each block. -/
def recency : List CacheEntry → List CacheEntry
  | [] => []
  | key :: older => key :: others (recency older) key.id

/-- What a `set` leaves of the other entries, from the head to the tail: `dropped` is evicted, the
shortest end without which there is room, and its blocks are what goes from the block map. -/
structure EvictsShortest (key : CacheEntry) (cap : UInt32) (entries entries' : List CacheEntry)
    (map map' : CachingMap) (dropped : List CacheEntry) : Prop where
  kept : ∃ kept, others entries key.id = kept ++ dropped ∧ entries' = key :: kept
  room : totalSize entries' ≤ cap.toNat
  shortest : ∀ kept' dropped', others entries key.id = kept' ++ dropped' →
    totalSize kept' + key.dataSize.toNat ≤ cap.toNat → dropped <:+ dropped'
  store_eq : ∀ id, store map' id = if id ∈ dropped.map CacheEntry.id then none else store map id

/-- The invariant of a run: the list is the start of the entries by recency, and it fits. -/
structure IsLru (s : LRUCache) (nodes : List (ℕ × CacheEntry)) (past : List CacheEntry) :
    Prop where
  represents : s.Represents nodes
  size : s.curSize.toUInt32.toNat = totalSize (nodes.map Prod.snd)
  fits : totalSize (nodes.map Prod.snd) ≤ s.cap.toNat
  recent : nodes.map Prod.snd <+: recency past

namespace IsLru

variable {s : LRUCache} {nodes : List (ℕ × CacheEntry)} {past : List CacheEntry}

theorem sound (h : s.IsLru nodes past) (policy : EvictionPolicy) :
    (s.cache policy nodes).Sound where
  indexed := indexed_reverse.mpr h.represents.indexed
  size := h.size.trans (totalSize_reverse _).symm
  fits := (totalSize_reverse _).trans_le h.fits

private theorem evictsShortest {key : CacheEntry} {cap : UInt32}
    {entries dropped kept : List CacheEntry} {map map' : CachingMap}
    (h : Evicts key.dataSize cap (others entries.reverse key.id) map dropped kept map') :
    EvictsShortest key cap entries (key :: kept.reverse) map map' dropped.reverse := by
  have hsplit : others entries key.id = kept.reverse ++ dropped.reverse := by
    rw [← List.reverse_append, ← h.nodes_eq, others_reverse, List.reverse_reverse]
  refine ⟨⟨kept.reverse, hsplit, rfl⟩, ?_, ?_, ?_⟩
  · have hroom := h.room
    rw [totalSize_cons, totalSize_reverse]
    omega
  · intro kept' dropped' hsplit' hfits
    have hsuffix : kept'.reverse <:+ kept := by
      refine h.longest _ ?_ (by rwa [totalSize_reverse])
      rw [others_reverse, List.reverse_suffix, hsplit']
      exact List.prefix_append kept' dropped'
    have hlength := congrArg List.length (hsplit.symm.trans hsplit')
    have hle := hsuffix.length_le
    rw [List.length_reverse] at hle
    simp only [List.length_append, List.length_reverse] at hlength
    have hdropped : dropped.reverse <:+ others entries key.id :=
      hsplit ▸ List.suffix_append kept.reverse dropped.reverse
    have hdropped' : dropped' <:+ others entries key.id :=
      hsplit' ▸ List.suffix_append kept' dropped'
    refine List.suffix_of_suffix_length_le hdropped hdropped' ?_
    rw [List.length_reverse]
    omega
  · intro id
    rw [h.store_eq, List.map_reverse]
    simp only [List.mem_reverse]

/-- **One call of `set`.** -/
theorem set (h : s.IsLru nodes past) (hcap : s.cap.toNat < 2 ^ 31) {key : CacheEntry}
    (hkey : key.dataSize ≤ s.cap) (new : Allocator CacheEntry) :
    ∃ s' nodes' dropped, s.set new key = some s' ∧ s'.IsLru nodes' (key :: past) ∧
      EvictsShortest key s.cap (nodes.map Prod.snd) (nodes'.map Prod.snd) s.cachingMap
        s'.cachingMap dropped ∧
      Fixed s s' := by
  have hle := UInt32.le_iff_toNat_le.mp hkey
  have hsum : s.cap.toNat + key.dataSize.toNat < 2 ^ 32 := by omega
  obtain ⟨dropped, kept, c', hset, hevicts, hnodes, -, hsound⟩ :=
    set_spec_of_le (h.sound .lru) hle hsum
  obtain ⟨s', nodes', hset', hs', rfl, hfixed⟩ := h.represents.set .lru new hset
  have hentries : nodes'.map Prod.snd = key :: kept.reverse := by
    have hreverse : (nodes'.map Prod.snd).reverse = kept ++ [key] := hnodes
    rw [List.reverse_eq_iff.mp hreverse, List.reverse_append, List.reverse_singleton,
      List.singleton_append]
  have hshortest := evictsShortest hevicts
  refine ⟨s', nodes', dropped.reverse, hset', ⟨hs', ?_, ?_, ?_⟩, ?_, hfixed⟩
  · exact hsound.size.trans (totalSize_reverse _)
  · exact (totalSize_reverse _).symm.trans_le hsound.fits
  · obtain ⟨kept', hsplit, hkept⟩ := hshortest.kept
    rw [hentries, hkept, recency, List.cons_prefix_cons]
    refine ⟨rfl, List.IsPrefix.trans ?_ (h.recent.filter _)⟩
    rw [others] at hsplit
    rw [hsplit]
    exact List.prefix_append kept' _
  · rw [hentries]
    exact hshortest

end IsLru

private theorem isLru_create (new : Allocator CacheEntry) (capacity : UInt32) (map : CachingMap) :
    (create new capacity map).IsLru [] [] := by
  have hne : (create new capacity map).head ≠ (create new capacity map).tail := by
    intro heq
    have hfree := new.free (AList.insert (new.pick ∅) ⟨sentinel, none, none⟩ ∅)
    rw [show new.pick (AList.insert (new.pick ∅) ⟨sentinel, none, none⟩ ∅) = new.pick ∅
      from heq.symm, AList.lookup_insert] at hfree
    cases hfree
  have htail : (create new capacity map).heap.lookup (create new capacity map).tail
      = some ⟨sentinel, some (create new capacity map).head, none⟩ := AList.lookup_insert _
  have hhead : (create new capacity map).heap.lookup (create new capacity map).head
      = some ⟨sentinel, none, some (create new capacity map).tail⟩ :=
    (AList.lookup_insert_ne hne).trans (AList.lookup_insert _)
  have hlinks : (create new capacity map).heap.nextOf (create new capacity map).head
        = some (create new capacity map).tail ∧
      (create new capacity map).heap.prevOf (create new capacity map).tail
        = some (create new capacity map).head := by
    rw [Heap.nextOf, hhead, Heap.prevOf, htail]
    exact ⟨rfl, rfl⟩
  refine ⟨⟨⟨?_, .cons_cons hlinks (.singleton _)⟩, fun node hnode ↦ ?_, ⟨?_, ?_⟩,
    List.Pairwise.nil, fun id a ↦ ?_⟩, rfl, Nat.zero_le _, List.prefix_refl _⟩
  · simpa using hne
  · exact absurd hnode List.not_mem_nil
  · rw [Heap.keyOf, hhead]
    rfl
  · rw [Heap.keyOf, htail]
    rfl
  · constructor
    · intro hsome
      exact absurd hsome (by simp [create])
    · rintro ⟨entry, hnode, -⟩
      exact absurd hnode List.not_mem_nil

private theorem history_set (key : CacheEntry) (new : Allocator CacheEntry) (calls : List Call) :
    history (.set key new :: calls) = history calls ++ [key] := by
  rw [history, List.filterMap_cons, List.reverse_cons]
  rfl

/-- **A whole run.** Every call returns, and the list stays what it has to be. -/
theorem IsLru.run {s : LRUCache} {nodes : List (ℕ × CacheEntry)} {past : List CacheEntry}
    (h : s.IsLru nodes past) (hcap : s.cap.toNat < 2 ^ 31) {calls : List Call}
    (hcalls : ∀ key new, Call.set key new ∈ calls → key.dataSize ≤ s.cap) :
    ∃ t nodes', Slsfs.run call s calls = some t ∧ t.IsLru nodes' (history calls ++ past) ∧
      Fixed s t := by
  induction calls generalizing s nodes past with
  | nil => exact ⟨s, nodes, rfl, h, Fixed.refl s⟩
  | cons first calls ih =>
    have hrest : ∀ key new, Call.set key new ∈ calls → key.dataSize ≤ s.cap :=
      fun key new hmem ↦ hcalls key new (List.mem_cons_of_mem _ hmem)
    cases first with
    | set key new =>
      obtain ⟨s₁, nodes₁, dropped, hset, h₁, -, hfixed₁⟩ :=
        h.set hcap (hcalls key new List.mem_cons_self) new
      obtain ⟨t, nodes', hrun, ht, hfixed⟩ := ih h₁ (by rwa [hfixed₁.cap]) (by rwa [hfixed₁.cap])
      refine ⟨t, nodes', run_cons_eq_some.mpr ⟨s₁, hset, hrun⟩, ?_, hfixed₁.trans hfixed⟩
      rw [history_set, List.append_assoc, List.singleton_append]
      exact ht
    | elsewhere map =>
      obtain ⟨t, nodes', hrun, ht, hfixed⟩ :=
        ih ⟨h.represents.congr map, h.size, h.fits, h.recent⟩ hcap hrest
      exact ⟨t, nodes', run_cons_eq_some.mpr ⟨_, rfl, hrun⟩, ht, hfixed.cap, hfixed.head,
        hfixed.tail⟩

/-- **An LRU.** For every capacity below 2^31 and every sequence of calls with entries that are not
larger, each call returns, so its loop ends. In every state reached pointers and map hold one list
of nodes for different blocks between the two sentinels, the size is that of the nodes, they fit,
and they are the most recently set entries, in this order. The next `set` evicts the shortest end of
the list that makes room and removes the blocks of these entries. -/
theorem sets_are_lru {capacity : UInt32} (hcap : capacity.toNat < 2 ^ 31)
    (new : Allocator CacheEntry) (map : CachingMap) {calls : List Call}
    (hcalls : ∀ key alloc, Call.set key alloc ∈ calls → key.dataSize ≤ capacity) :
    ∃ s nodes, Slsfs.run call (create new capacity map) calls = some s ∧ s.Represents nodes ∧
      s.head = (create new capacity map).head ∧ s.tail = (create new capacity map).tail ∧
      s.curSize.toInt = totalSize (nodes.map Prod.snd) ∧ s.curSize.toInt ≤ capacity.toNat ∧
      nodes.map Prod.snd <+: recency (history calls) ∧
      ∀ key alloc, key.dataSize ≤ capacity → ∃ s' nodes' dropped, s.set alloc key = some s' ∧
        s'.Represents nodes' ∧ EvictsShortest key capacity (nodes.map Prod.snd)
          (nodes'.map Prod.snd) s.cachingMap s'.cachingMap dropped := by
  obtain ⟨s, nodes, hrun, h, hfixed⟩ := (isLru_create new capacity map).run hcap hcalls
  rw [List.append_nil] at h
  have hcap' : s.cap = capacity := hfixed.cap
  have hfits := h.fits
  rw [hcap'] at hfits
  have hsize : s.curSize.toInt = totalSize (nodes.map Prod.snd) := by
    have hnat : s.curSize.toBitVec.toNat = totalSize (nodes.map Prod.snd) := h.size
    rw [← hnat]
    exact BitVec.toInt_eq_toNat_of_lt (by omega)
  refine ⟨s, nodes, hrun, h.represents, hfixed.head, hfixed.tail, hsize, by omega, h.recent,
    fun key alloc hkey ↦ ?_⟩
  rw [← hcap'] at hcap hkey
  obtain ⟨s', nodes', dropped, hset, h', hshortest, -⟩ := h.set hcap hkey alloc
  rw [hcap'] at hshortest
  exact ⟨s', nodes', dropped, hset, h'.represents, hshortest⟩

/-- Addresses that go up. -/
def upwards : Allocator CacheEntry where
  pick heap := heap.keys.sum + 1
  free heap := by
    refine AList.lookup_eq_none.mpr fun hmem ↦ ?_
    have hle : heap.keys.sum + 1 ≤ heap.keys.sum := List.le_sum_of_mem (AList.mem_keys.mp hmem)
    omega

/-- Three blocks of 4 bytes in a cache of 10, the first of them twice. -/
def threeBlocks : List Call :=
  [.set ⟨.replicate 32 0, 0, 4⟩ upwards, .set ⟨.replicate 32 0, 1, 4⟩ upwards,
    .set ⟨.replicate 32 0, 0, 4⟩ upwards, .set ⟨.replicate 32 0, 2, 4⟩ upwards]

theorem sets_are_lru_threeBlocks :
    (10 : UInt32).toNat < 2 ^ 31 ∧ (∀ key alloc, Call.set key alloc ∈ threeBlocks →
      key.dataSize ≤ 10) ∧
    ∃ s nodes, Slsfs.run call (create upwards 10 ∅) threeBlocks = some s ∧ s.Represents nodes ∧
      nodes.map Prod.snd <+: [⟨.replicate 32 0, 2, 4⟩, ⟨.replicate 32 0, 0, 4⟩,
        ⟨.replicate 32 0, 1, 4⟩] := by
  have hcap : (10 : UInt32).toNat < 2 ^ 31 := by decide
  have hcalls : ∀ key alloc, Call.set key alloc ∈ threeBlocks → key.dataSize ≤ 10 := by
    intro key alloc hmem
    simp only [threeBlocks, List.mem_cons, Call.set.injEq, List.not_mem_nil, or_false] at hmem
    rcases hmem with ⟨rfl, -⟩ | ⟨rfl, -⟩ | ⟨rfl, -⟩ | ⟨rfl, -⟩ <;> decide
  obtain ⟨s, nodes, hrun, hs, -, -, -, -, hrecent, -⟩ := sets_are_lru hcap upwards ∅ hcalls
  exact ⟨hcap, hcalls, s, nodes, hrun, hs, hrecent⟩

end LRUCache

end Slsfs.Datafunction

import Mathlib.Data.List.Lex
import Mathlib.Data.List.Sort
import Slsfs.Lib.Ring
import Slsfs.Pack
import Slsfs.Proxy.Launcher

/-!
# Which proxy a file belongs to

Clients and proxies compute on their own which proxy serves a file: the first one, in the order of
the uuids, above the key of the file. Both get the names of the proxies from zookeeper, and sort
them. `client::reconfigure` makes a map from the uuids to sockets of them, keeping the sockets it
has, and `send_request` looks the key up in that map. `launcher::reconfigure` looks the keys of all
files it has bound up in the sorted list, and sends the workers of those that are not its own the
address of their proxy.

The launcher keeps the binding of a file it has sent on, and sends it on again at the next change.
-/

namespace Slsfs.Proxy

open LeveldbPack (Buf Key)

/-- `uuid::uuid`: a key, ordered as an array of bytes is. -/
structure Uuid where
  bytes : Key
  deriving DecidableEq

/-- Byte by byte, from the first one on. -/
instance : LinearOrder Uuid :=
  LinearOrder.lift' (fun u ↦ u.bytes.toList.map UInt8.toNat) fun u v h ↦ by
    have hbytes : u.bytes.toList = v.bytes.toList :=
      List.map_injective_iff.mpr (fun _ _ ↦ UInt8.toNat_inj.mp) h
    cases u
    cases v
    exact congrArg Uuid.mk (List.Vector.eq _ _ hbytes)

/-- An address and a port. -/
structure Endpoint where
  address : List.Vector UInt8 4
  port : UInt16
  deriving DecidableEq

/-- The names under `/slsfs/proxy`, sorted. -/
def sortedProxyList (children : List Uuid) : List Uuid := children.insertionSort (· ≤ ·)

/-! ## The launcher

The sorted list is searched with `upper_bound`, and the search starts over if it comes to the end.
The entries of the concurrent map are visited in the order in which they lie in it; nothing below
depends on that order. -/

/-- A `proxyjoin` packet to a worker. The sequence and the salt of its header are those the binding
was made with, and are left out. -/
structure Proxyjoin where
  worker : ℕ
  key : Key
  data : Buf
  deriving DecidableEq

/-- `start_send_reconfigure_message`. -/
def startSendReconfigureMessage (key : Key) (worker : ℕ) (newProxy : Endpoint) : Proxyjoin where
  worker
  key
  data := newProxy.address.toList ++ (bigEndian 2 newProxy.port.toNat).toList

/-- `launcher::reconfigure` at the proxy `id_`, for a sorted list. -/
def Launcher.reconfigure (s : Launcher) (id_ : Uuid) (getUuid : Uuid → Endpoint)
    (list : List Uuid) : List Proxyjoin :=
  s.fileidToWorker.entries.flatMap fun pair ↦
    match successor id ⟨pair.1⟩ list with
    | none => []
    | some it =>
      if it ≠ id_ then [startSendReconfigureMessage pair.1 pair.2 (getUuid it)] else []

/-! ## The client

A socket that is open is moved from the old map to the new one. For all others a connection is made,
and if one cannot be made the exception leaves the old map as it was. The list is only compared with
the map by its length and by its members, so a socket that has been closed since stays in a map
whose names are the same. -/

/-- A socket and where it is connected to. -/
structure Socket where
  endpoint : Endpoint
  isOpen : Bool
  deriving DecidableEq

/-- `proxy_map`. -/
abbrev ProxyMap := OrderedMap Uuid Socket

namespace Client

section

variable (getUuid : Uuid → Endpoint) (reachable : Uuid → Bool)

/-- The loop of `reconfigure` that fills the new map; `none` if a connection fails. -/
def buildProxys (proxys : ProxyMap) : List Uuid → ProxyMap → Option ProxyMap
  | [], newProxy => some newProxy
  | id :: ids, newProxy =>
    match (proxys.find id).filter fun acc ↦ acc.2.isOpen with
    | some acc => buildProxys proxys ids (newProxy.emplace acc.1 acc.2)
    | none =>
      if reachable id then buildProxys proxys ids (newProxy.emplace id ⟨getUuid id, true⟩)
      else none

/-- The list has the uuids of the map. -/
def unchanged (list : List Uuid) (proxys : ProxyMap) : Bool :=
  list.length = proxys.size && list.all fun id ↦ (proxys.find id).isSome

/-- `client::reconfigure`, for a sorted list; `none` if it throws. -/
def reconfigure (list : List Uuid) (proxys : ProxyMap) : Option ProxyMap :=
  if unchanged list proxys then some proxys else buildProxys getUuid reachable proxys list .empty

/-- The map of the client after `reconfigure`. It is exchanged at the end. -/
def proxysAfter (list : List Uuid) (proxys : ProxyMap) : ProxyMap :=
  (reconfigure getUuid reachable list proxys).getD proxys

end

/-- The proxy `send_request` selects. -/
def selectProxy (proxys : ProxyMap) (key : Key) : Option (Uuid × Socket) :=
  successor Prod.fst ⟨key⟩ proxys.entries

end Client

/-! ## Both sides find the same proxy

The map of the client and the list of the launcher are both sorted by uuid, and the search in both
is the one of `Lib.Ring`. The key of a file therefore has one owner, the same on both sides, even if
the sockets and the endpoints are not known yet. -/

/-- The owner of a key, as it is found in the sorted list. -/
def ownerOf (children : List Uuid) (key : Key) : Option Uuid :=
  successor id ⟨key⟩ (sortedProxyList children)

section

variable {children : List Uuid} {key : Key}

theorem mem_sortedProxyList {u : Uuid} : u ∈ sortedProxyList children ↔ u ∈ children :=
  List.mem_insertionSort _

theorem pairwise_sortedProxyList (hnodup : children.Nodup) :
    (sortedProxyList children).Pairwise (· < ·) := by
  have hle : (sortedProxyList children).Pairwise (· ≤ ·) := List.pairwise_insertionSort _ _
  have hne : (sortedProxyList children).Nodup :=
    (List.perm_insertionSort _ children).nodup_iff.mpr hnodup
  exact (hle.and hne).imp fun h ↦ lt_of_le_of_ne h.1 h.2

private theorem exists_ownerOf (hne : children ≠ []) (key : Key) :
    ∃ u ∈ children, ownerOf children key = some u := by
  have hsorted : sortedProxyList children ≠ [] := by
    obtain ⟨u, hu⟩ := List.exists_mem_of_ne_nil children hne
    exact List.ne_nil_of_mem (mem_sortedProxyList.mpr hu)
  obtain ⟨u, hu, howner⟩ := exists_successor id (⟨key⟩ : Uuid) hsorted
  exact ⟨u, mem_sortedProxyList.mp hu, howner⟩

private theorem owns_of_ownerOf (hnodup : children.Nodup) {u : Uuid}
    (h : ownerOf children key = some u) :
    Owns {v | v ∈ children} ⟨key⟩ u := by
  have howns := owns_of_successor (pairwise_sortedProxyList hnodup) h
  simpa only [mem_sortedProxyList] using howns

variable {getUuid : Uuid → Endpoint} {reachable : Uuid → Bool} {proxys new : ProxyMap}

private theorem mem_keys_buildProxys {list : List Uuid} {start : ProxyMap}
    (h : Client.buildProxys getUuid reachable proxys list start = some new) (u : Uuid) :
    u ∈ new.keys ↔ u ∈ list ∨ u ∈ start.keys := by
  induction list generalizing start with
  | nil =>
    cases h
    simp
  | cons id ids ih =>
    rw [Client.buildProxys] at h
    split at h
    · rename_i acc hacc
      have hid : acc.1 = id := by
        have hfound := (Option.filter_eq_some_iff.mp hacc).1
        simpa using List.find?_some hfound
      rw [ih h, OrderedMap.mem_keys_emplace, hid, List.mem_cons]
      tauto
    · split at h
      · rw [ih h, OrderedMap.mem_keys_emplace, List.mem_cons]
        tauto
      · cases h

private theorem mem_keys_of_unchanged {list : List Uuid} (hnodup : list.Nodup)
    (h : Client.unchanged list proxys = true) (u : Uuid) : u ∈ proxys.keys ↔ u ∈ list := by
  rw [Client.unchanged, Bool.and_eq_true, decide_eq_true_iff, List.all_eq_true] at h
  obtain ⟨hsize, hfound⟩ := h
  have hsub : list ⊆ proxys.keys := fun id hid ↦ (proxys.find_isSome id).mp (hfound id hid)
  have hlength : proxys.keys.length ≤ list.length := by
    rw [OrderedMap.keys, List.length_map, hsize, OrderedMap.size]
  exact ((List.subperm_of_subset hnodup hsub).perm_of_length_le hlength).mem_iff.symm

/-- After `reconfigure` the map has the uuids of the list, whatever it had before. -/
theorem mem_keys_reconfigure {list : List Uuid} (hnodup : list.Nodup)
    (h : Client.reconfigure getUuid reachable list proxys = some new) (u : Uuid) :
    u ∈ new.keys ↔ u ∈ list := by
  rw [Client.reconfigure] at h
  split at h
  · rename_i hunchanged
    cases h
    exact mem_keys_of_unchanged hnodup hunchanged u
  · rw [mem_keys_buildProxys h]
    exact or_iff_left List.not_mem_nil

private theorem owns_of_selectProxy (hnodup : children.Nodup)
    (h : Client.reconfigure getUuid reachable (sortedProxyList children) proxys = some new)
    {u : Uuid} {socket : Socket} (hselect : Client.selectProxy new key = some (u, socket)) :
    Owns {v | v ∈ children} ⟨key⟩ u := by
  have hsorted : (sortedProxyList children).Nodup :=
    (List.perm_insertionSort _ children).nodup_iff.mpr hnodup
  have howns := OrderedMap.owns_of_successor hselect
  simpa only [mem_keys_reconfigure hsorted h, mem_sortedProxyList] using howns

private theorem buildProxys_eq_none {list : List Uuid} {id : Uuid} (hid : id ∈ list)
    (hclosed : ∀ acc ∈ proxys.find id, acc.2.isOpen = false) (hfail : reachable id = false)
    (start : ProxyMap) : Client.buildProxys getUuid reachable proxys list start = none := by
  induction list generalizing start with
  | nil => cases hid
  | cons v ids ih =>
    rw [Client.buildProxys]
    rcases List.mem_cons.mp hid with rfl | hid
    · have hnone : ((proxys.find id).filter fun acc ↦ acc.2.isOpen) = none := by
        rw [Option.filter_eq_none_iff]
        intro acc hacc
        rw [hclosed acc hacc]
        exact Bool.false_ne_true
      rw [hnone]
      dsimp only
      rw [hfail, if_neg Bool.false_ne_true]
    · split
      · exact ih hid _
      · split
        · exact ih hid _
        · rfl

end

/-! ## What the launcher sends

There is at most one binding for each file, so what is sent for a file is what is sent for its one
entry. -/

section

variable {s : Launcher} {id_ : Uuid} {getUuid : Uuid → Endpoint} {list : List Uuid} {key : Key}

/-- The messages for one binding. -/
def joinsOf (id_ : Uuid) (getUuid : Uuid → Endpoint) (list : List Uuid) (key : Key) (w : ℕ) :
    List Proxyjoin :=
  match successor id ⟨key⟩ list with
  | none => []
  | some it => if it ≠ id_ then [startSendReconfigureMessage key w (getUuid it)] else []

private theorem key_of_mem_joinsOf {w : ℕ} {join : Proxyjoin}
    (h : join ∈ joinsOf id_ getUuid list key w) :
    join.key = key := by
  rw [joinsOf] at h
  split at h
  · cases h
  · split at h
    · rw [List.mem_singleton.mp h]
      rfl
    · cases h

private theorem flatMap_entries_of_mem {l : List (Sigma fun _ : Key ↦ ℕ)} (hl : l.NodupKeys) {w : ℕ}
    (h : ⟨key, w⟩ ∈ l) :
    (l.flatMap fun pair ↦ (joinsOf id_ getUuid list pair.1 pair.2).filter (·.key = key))
      = joinsOf id_ getUuid list key w := by
  have hother : ∀ pair : Sigma fun _ : Key ↦ ℕ, pair.1 ≠ key →
      (joinsOf id_ getUuid list pair.1 pair.2).filter (·.key = key) = [] := by
    intro pair hne
    refine List.filter_eq_nil_iff.mpr fun join hjoin hkey ↦ hne ?_
    rw [← key_of_mem_joinsOf hjoin]
    exact of_decide_eq_true hkey
  have hown : (joinsOf id_ getUuid list key w).filter (·.key = key)
      = joinsOf id_ getUuid list key w :=
    List.filter_eq_self.mpr fun join hjoin ↦ decide_eq_true (key_of_mem_joinsOf hjoin)
  induction l with
  | nil => cases h
  | cons pair l ih =>
    rw [List.flatMap_cons]
    obtain ⟨hnotin, hrest⟩ := List.nodupKeys_cons.mp hl
    rcases List.mem_cons.mp h with rfl | hmem
    · have hnil : (l.flatMap fun pair ↦
          (joinsOf id_ getUuid list pair.1 pair.2).filter (·.key = key)) = [] := by
        refine List.flatMap_eq_nil_iff.mpr fun pair hpair ↦ hother pair fun heq ↦ hnotin ?_
        exact List.mem_map.mpr ⟨pair, hpair, heq⟩
      rw [hown, hnil, List.append_nil]
    · have hne : pair.1 ≠ key :=
        fun heq ↦ hnotin (List.mem_map.mpr ⟨⟨key, w⟩, hmem, heq.symm⟩)
      rw [hother pair hne, List.nil_append, ih hrest hmem]

private theorem filter_reconfigure {w : ℕ} (h : s.fileidToWorker.lookup key = some w) :
    (s.reconfigure id_ getUuid list).filter (·.key = key) = joinsOf id_ getUuid list key w := by
  have hmem : ⟨key, w⟩ ∈ s.fileidToWorker.entries := AList.mem_lookup_iff.mp h
  rw [← flatMap_entries_of_mem s.fileidToWorker.nodupKeys hmem, Launcher.reconfigure,
    List.filter_flatMap]
  rfl

/-- A message is for a key whose owner is another proxy. -/
theorem ownerOf_of_mem_reconfigure {children : List Uuid} {join : Proxyjoin}
    (h : join ∈ s.reconfigure id_ getUuid (sortedProxyList children)) :
    ∃ u, ownerOf children join.key = some u ∧ u ≠ id_ := by
  obtain ⟨pair, -, hjoin⟩ := List.mem_flatMap.mp h
  have hkey : join.key = pair.1 :=
    key_of_mem_joinsOf (show join ∈ joinsOf id_ getUuid (sortedProxyList children) _ _ from hjoin)
  rw [hkey, ownerOf]
  split at hjoin
  · cases hjoin
  · rename_i u hu
    split at hjoin
    · rename_i hne
      exact ⟨u, hu, hne⟩
    · cases hjoin

end

private theorem filter_reconfigure_of_ownerOf {children : List Uuid} {s : Launcher} {key : Key}
    {u : Uuid} (howner : ownerOf children key = some u) (getUuid : Uuid → Endpoint) :
    (s.reconfigure u getUuid (sortedProxyList children)).filter (·.key = key) = [] := by
  refine List.filter_eq_nil_iff.mpr fun join hjoin hkey ↦ ?_
  obtain ⟨v, hv, hne⟩ := ownerOf_of_mem_reconfigure hjoin
  rw [of_decide_eq_true hkey, howner] at hv
  exact hne (Option.some_inj.mp hv).symm

/-- The uuid with this byte everywhere. -/
def uuidOf (b : UInt8) : Uuid := ⟨List.Vector.replicate 32 b⟩

def endpointOf (u : Uuid) : Endpoint := ⟨List.Vector.replicate 4 u.bytes.head, 12000⟩

/-- A file between the proxies `uuidOf 1` and `uuidOf 3`. -/
def movedFile : Key := List.Vector.replicate 32 2

private theorem exists_bound :
    ∃ s, run (step .lowestLoad) Launcher.init
        [.addWorker, .schedule ⟨movedFile, .replicate 4 0, .replicate 4 0⟩, .processJob 0 (some 0)]
          = some s ∧ s.fileidToWorker.lookup movedFile = some 0 := by
  refine ⟨_, rfl, ?_⟩
  decide +kernel

section

variable {S T : List Uuid} {p : Uuid} {key : Key}

private theorem ownerOf_perm (h : T.Perm S) (key : Key) : ownerOf T key = ownerOf S key := by
  have hsorted : sortedProxyList T = sortedProxyList S :=
    List.Perm.eq_of_pairwise (fun _ _ _ _ ↦ le_antisymm) (List.pairwise_insertionSort _ _)
      (List.pairwise_insertionSort _ _)
      ((List.perm_insertionSort _ T).trans (h.trans (List.perm_insertionSort _ S).symm))
  rw [ownerOf, ownerOf, hsorted]

private theorem ownerOf_cons (hne : S ≠ []) (hnodup : (p :: S).Nodup) (key : Key) :
    ownerOf (p :: S) key = ownerOf S key ∨ ownerOf (p :: S) key = some p := by
  obtain ⟨x, -, hx⟩ := exists_ownerOf hne key
  obtain ⟨y, -, hy⟩ := exists_ownerOf (List.cons_ne_nil p S) key
  have hsub : {v | v ∈ p :: S} = insert p {v | v ∈ S} := by
    ext v
    exact List.mem_cons
  have hyowns := owns_of_ownerOf hnodup hy
  rw [hsub] at hyowns
  rw [hx, hy, Option.some_inj, Option.some_inj]
  exact (owns_of_ownerOf hnodup.of_cons hx).eq_or_eq_of_insert hyowns

end

/-- **Minimal movement.** When `p` joins, a key keeps its owner or moves to `p`, and a proxy sends
a worker on only for a key that moved to `p` or that was another proxy's before. When `p` leaves,
only its keys move. -/
theorem minimal_movement (S T : List Uuid) (p : Uuid) (hne : S ≠ []) (hnodup : (p :: S).Nodup)
    (hperm : T.Perm (p :: S)) :
    (∀ key, ownerOf T key = ownerOf S key ∨ ownerOf T key = some p) ∧
    (∀ (s : Launcher) (getUuid : Uuid → Endpoint), ∀ id_ ∈ S,
      ∀ join ∈ s.reconfigure id_ getUuid (sortedProxyList T),
        ownerOf S join.key = some id_ → ownerOf T join.key = some p) ∧
    ∀ key, ownerOf T key ≠ some p → ownerOf S key = ownerOf T key := by
  have hmoves : ∀ key, ownerOf T key = ownerOf S key ∨ ownerOf T key = some p := by
    intro key
    rw [ownerOf_perm hperm]
    exact ownerOf_cons hne hnodup key
  refine ⟨hmoves, ?_, ?_⟩
  · intro s getUuid id_ _ join hjoin howned
    obtain ⟨u, hu, hother⟩ := ownerOf_of_mem_reconfigure hjoin
    rcases hmoves join.key with hkept | hmoved
    · rw [hkept, howned] at hu
      exact absurd (Option.some_inj.mp hu).symm hother
    · exact hmoved
  · intro key hkey
    exact ((hmoves key).resolve_right hkey).symm

/-- The second proxy joins the first, and takes the file over. -/
theorem minimal_movement_second :
    ∃ s, run (step .lowestLoad) Launcher.init
        [.addWorker, .schedule ⟨movedFile, .replicate 4 0, .replicate 4 0⟩, .processJob 0 (some 0)]
          = some s ∧
      ∃ join ∈ s.reconfigure (uuidOf 1) endpointOf (sortedProxyList [uuidOf 3, uuidOf 1]),
        ownerOf [uuidOf 1] join.key = some (uuidOf 1) ∧
        ownerOf [uuidOf 3, uuidOf 1] join.key = some (uuidOf 3) := by
  obtain ⟨s, hs, hbound⟩ := exists_bound
  have hjoin : startSendReconfigureMessage movedFile 0 (endpointOf (uuidOf 3)) ∈
      s.reconfigure (uuidOf 1) endpointOf (sortedProxyList [uuidOf 3, uuidOf 1]) := by
    refine List.mem_of_mem_filter (p := (·.key = movedFile)) ?_
    rw [filter_reconfigure hbound]
    decide +kernel
  have howned : ownerOf [uuidOf 1] movedFile = some (uuidOf 1) := by decide +kernel
  exact ⟨s, hs, _, hjoin, howned, (minimal_movement [uuidOf 1] [uuidOf 3, uuidOf 1] (uuidOf 3)
    (by decide) (by decide) (.refl _)).2.1 s endpointOf (uuidOf 1) (by decide) _ hjoin howned⟩

/-- **A file that was sent on is sent on again.** The first proxy keeps the binding after the second
took the file over, and when a third joins that does not, it sends the worker to the second. -/
theorem moved_file_sent_again :
    ¬∀ (policy : Policy) (es : List Event) (s : Launcher),
      run (step policy) Launcher.init es = some s →
      ∀ (S : List Uuid) (p : Uuid), S ≠ [] → (p :: S).Nodup → ∀ getUuid : Uuid → Endpoint,
        ∀ id_ ∈ S, ∀ join ∈ s.reconfigure id_ getUuid (sortedProxyList (p :: S)),
          ownerOf (p :: S) join.key = some p := by
  intro h
  obtain ⟨s, hs, hbound⟩ := exists_bound
  have hjoin : startSendReconfigureMessage movedFile 0 (endpointOf (uuidOf 3)) ∈
      s.reconfigure (uuidOf 1) endpointOf
        (sortedProxyList [uuidOf 5, uuidOf 3, uuidOf 1]) := by
    refine List.mem_of_mem_filter (p := (·.key = movedFile)) ?_
    rw [filter_reconfigure hbound]
    decide +kernel
  have howner := h _ _ s hs [uuidOf 3, uuidOf 1] (uuidOf 5) (by decide) (by decide) endpointOf
    (uuidOf 1) (by decide) _ hjoin
  exact absurd howner (by decide +kernel)

end Slsfs.Proxy

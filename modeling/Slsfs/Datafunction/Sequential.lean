import Slsfs.Datafunction.Overlap
import Slsfs.Datafunction.ThreadedRead
import Slsfs.Datafunction.ThreadedWrite
import Slsfs.Datafunction.Trace

/-!
# Requests one after the other

Reads and writes that run to their end before the next one starts should make a file behave like an
array of bytes: a read returns, at each position, the byte of the latest write. This holds whatever
the hosts, the block size, the order of the messages and the interleaving of the threads inside a
request, unless one of two races shows. `torn` and `stale` are runs in which one does.

* The callback of a get stores `ready` before it moves its data in. The callback of another block
  that finds all places ready in between collects a place that is still empty, and the reply is
  short of the bytes of that block. `CollectsMoved` says that a callback does not come to such a
  place.
* The counter of `start_2pc_prepare` can come to zero while the send loop still has blocks to
  prepare. The executes that are sent then reach blocks without an entry, and normally put back what
  is there. But the handlers of one connection do not wait for each other, so such an execute can
  read what is pending before the prepare of its block and put it after the right execute; then the
  bytes of the write are gone. `PutsPending` says that what an execute puts is pending when it does.

The proof carries `State.Inv` through the run. Between requests nothing is pending in any block and
each block holds what it should (`AtRest`, `Image`). During a write this holds of what the blocks
held before it, and the write is somewhere in `WriteInv`; during a read it goes on to hold, since
the handler of a get puts nothing.
-/

namespace Slsfs.Datafunction

open LeveldbPack Ssbd Ssbd.Access

namespace Threaded

/-! ## One request at a time

The assumption, the two conditions, and what is to be shown, each as a predicate on a state and, for
the first three, on the event that is next. -/

namespace State

/-- A request starts when the one before it has run to its end, and a write is not empty and ends
below 2^32. -/
def OneAtATime (cfg : Config) (s : State) : Event → Prop
  | .startWrite _ input _ _ => s.current.Complete cfg ∧ input.data ≠ [] ∧
    input.position.toNat + input.data.length < 2 ^ 32
  | .startRead _ _ _ => s.current.Complete cfg
  | _ => True

instance (cfg : Config) (s : State) (e : Event) : Decidable (OneAtATime cfg s e) :=
  match e with
  | .startWrite _ input _ _ => inferInstanceAs (Decidable (s.current.Complete cfg ∧
    input.data ≠ [] ∧ input.position.toNat + input.data.length < 2 ^ 32))
  | .startRead _ _ _ => inferInstanceAs (Decidable (s.current.Complete cfg))
  | .look | .sendPrepare | .sendCommit _ | .sendGet | .serve _ _ | .callback _ => .isTrue trivial

/-- The handler of an execute that comes to a `Put` puts what is pending at that moment. -/
def PutsPending (cfg : Config) (s : State) (call j : ℕ) : Prop :=
  ∀ w ∈ s.current.asWrite, ∀ c ∈ (w.chunks cfg)[j]?, ∀ put ∈ (w.commit call j).nextPut,
    Fresh (s.store (hostOf cfg w.write.input.uuid c)) (c.blockOf w.write.input.uuid) put.1 put.2

/-- A callback that collects the places does not come to one that is marked as ready and whose data
is still to be moved in. -/
def CollectsMoved (s : State) (i : ℕ) : Prop :=
  ∀ r ∈ s.current.asRead, ∀ n ∈ r.collecting i, r.isMoving n = false

/-- Neither of the two races shows. -/
def Undisturbed (cfg : Config) (s : State) : Event → Prop
  | .serve (.commit call j) _ => s.PutsPending cfg call j
  | .callback (.get i) => s.CollectsMoved i
  | _ => True

instance (cfg : Config) (s : State) (e : Event) : Decidable (Undisturbed cfg s e) :=
  match e with
  | .serve (.commit call j) _ => inferInstanceAs (Decidable (∀ w ∈ s.current.asWrite,
    ∀ c ∈ (w.chunks cfg)[j]?, ∀ put ∈ (w.commit call j).nextPut,
      Fresh (s.store (hostOf cfg w.write.input.uuid c)) (c.blockOf w.write.input.uuid) put.1 put.2))
  | .callback (.get i) => inferInstanceAs (Decidable (∀ r ∈ s.current.asRead,
    ∀ n ∈ r.collecting i, r.isMoving n = false))
  | .startWrite _ _ _ _ | .startRead _ _ _ | .look | .sendPrepare | .sendCommit _ | .sendGet
  | .serve (.vote _) _ | .serve (.get _) _ | .serve (.copy _) _ | .callback (.vote _)
  | .callback (.commit _ _) | .callback (.copy _) => .isTrue trivial

/-- The byte put at a position of a file by the latest write that covers it. -/
def latestByte (history : List WriteRequest) (uuid : Key) (x : ℕ) : Option UInt8 :=
  (history.find? fun w ↦ w.uuid = uuid ∧ w.Covers x).bind (·.byte x)

/-- The position of the file is covered by a write. -/
def Written (history : List WriteRequest) (uuid : Key) (x : ℕ) : Prop :=
  ∃ w ∈ history, w.uuid = uuid ∧ w.Covers x

/-- A read that has run to its end over a range that has been written has replied, and replied with
the latest bytes only. -/
def ReadsLatest (cfg : Config) (s : State) : Prop :=
  ∀ r ∈ s.current.asRead, r.Complete cfg →
    (∀ x, r.input.position.toNat ≤ x → x < r.input.position.toNat + r.input.size.toNat →
      Written s.history r.input.uuid x) →
    r.replies ≠ [] ∧ ∀ reply ∈ r.replies, reply.length = r.input.size.toNat ∧
      ∀ i < r.input.size.toNat,
        reply[i]? = latestByte s.history r.input.uuid (r.input.position.toNat + i)

instance (history : List WriteRequest) (uuid : Key) (x : ℕ) :
    Decidable (Written history uuid x) :=
  inferInstanceAs (Decidable (∃ w ∈ history, w.uuid = uuid ∧ w.Covers x))

instance (cfg : Config) (s : State) : Decidable (s.ReadsLatest cfg) :=
  inferInstanceAs (Decidable (∀ r ∈ s.current.asRead, r.Complete cfg →
    (∀ x, r.input.position.toNat ≤ x → x < r.input.position.toNat + r.input.size.toNat →
      Written s.history r.input.uuid x) →
    r.replies ≠ [] ∧ ∀ reply ∈ r.replies, reply.length = r.input.size.toNat ∧
      ∀ i < r.input.size.toNat,
        reply[i]? = latestByte s.history r.input.uuid (r.input.position.toNat + i)))

end State

variable {cfg : Config}

/-! ## What a block should hold

`Image` relates the bytes of a block to the writes so far: at each position of the block that some
write has covered there is the byte of the latest one. A write lays its slice over the block of each
piece, and is none of the business of other blocks. -/

section Image

open State

variable {history : List WriteRequest} {input : WriteRequest} {uuid : Key} {x : ℕ}

private theorem latestByte_cons_of_covers (huuid : input.uuid = uuid) (hx : input.Covers x) :
    latestByte (input :: history) uuid x = input.byte x := by
  simp only [latestByte, List.find?_cons, decide_eq_true (And.intro huuid hx), Option.bind_some]

private theorem latestByte_cons_of_not (h : ¬(input.uuid = uuid ∧ input.Covers x)) :
    latestByte (input :: history) uuid x = latestByte history uuid x := by
  simp only [latestByte, List.find?_cons, decide_eq_false h]

private theorem State.Written.exists_latestByte (h : Written history uuid x) :
    ∃ byte, latestByte history uuid x = some byte := by
  obtain ⟨w, hw, huuid, hx⟩ := h
  cases hfind : history.find? fun w ↦ w.uuid = uuid ∧ w.Covers x with
  | none =>
    have := List.find?_eq_none.mp hfind w hw
    exact absurd (decide_eq_true ⟨huuid, hx⟩) this
  | some latest =>
    have hlatest := List.find?_some hfind
    obtain ⟨-, hlo, hhi⟩ := of_decide_eq_true hlatest
    refine ⟨latest.data[x - latest.position.toNat], ?_⟩
    rw [latestByte, hfind, Option.bind_some, WriteRequest.byte, List.getElem?_eq_getElem]

/-- The bytes of a block are not more than it can hold, and those at written positions are the
latest. -/
structure Image (cfg : Config) (history : List WriteRequest) (id : BlockId) (bytes : Buf) :
    Prop where
  length_le : bytes.length ≤ cfg.blocksize
  latest : ∀ x byte, x / cfg.blocksize = id.2.toNat → latestByte history id.1 x = some byte →
    bytes[x % cfg.blocksize]? = some byte

variable {id : BlockId} {bytes : Buf}

private theorem image_nil (id : BlockId) : Image cfg [] id [] :=
  ⟨Nat.zero_le _, fun _ _ _ h ↦ nomatch h⟩

theorem Image.overlay {c : Chunk} (hc : c ∈ input.chunks cfg.blocksize)
    (h : Image cfg history (c.blockOf input.uuid) bytes) :
    Image cfg (input :: history) (c.blockOf input.uuid)
      (overlay 0 bytes c.offset (input.slice c)) := by
  have hfits := input.fits hc
  have hslice := WriteRequest.slice_length cfg hc
  have hblockid := hfits.blockOf_toNat input.uuid
  obtain ⟨j, hj⟩ := List.mem_iff_getElem?.mp hc
  refine ⟨?_, fun x byte hx hbyte ↦ ?_⟩
  · rw [length_overlay, hslice]
    exact max_le hfits.within.fits h.length_le
  rw [hblockid] at hx
  by_cases hcovers : input.Covers x
  · have hend := hfits.end_lt
    rw [input.size_toNat] at hend
    obtain ⟨i, d, hd, hid, hlo, hhi⟩ := input.exists_chunk_of_covers cfg hcovers hend
    have hij := input.index_unique cfg hd hj input.uuid
      (by rw [Chunk.blockOf, Chunk.blockOf, hid, hx])
    rw [hij, hj, Option.some_inj] at hd
    subst hd
    have hmem := getElem?_overlay_of_mem 0 bytes (input.slice c) c.offset
      (i := x % cfg.blocksize - c.offset) (by omega)
    rw [Nat.add_sub_cancel' hlo] at hmem
    have hnew : latestByte (input :: history) input.uuid x = input.byte x :=
      latestByte_cons_of_covers rfl hcovers
    rw [hmem, (WriteRequest.byte_of_chunk hj hid hlo hhi).2, ← hnew]
    exact hbyte
  · rw [latestByte_cons_of_not fun hboth ↦ hcovers hboth.2] at hbyte
    have hold := h.latest x byte (hblockid.symm ▸ hx) hbyte
    have hlt := (List.getElem?_eq_some_iff.mp hold).1
    rw [getElem?_overlay_of_old 0 ?_ hlt, hold]
    by_contra hinside
    exact hcovers (WriteRequest.byte_of_chunk hj hx.symm (by omega) (by omega)).1

private theorem Image.cons_of_ne (hend : input.position.toNat + input.data.length < 2 ^ 32)
    (hid : ∀ c ∈ input.chunks cfg.blocksize, c.blockOf input.uuid ≠ id)
    (h : Image cfg history id bytes) : Image cfg (input :: history) id bytes := by
  refine ⟨h.length_le, fun x byte hx hbyte ↦ h.latest x byte hx ?_⟩
  rwa [latestByte_cons_of_not ?_] at hbyte
  rintro ⟨huuid, hcovers⟩
  obtain ⟨j, c, hc, hblock, -⟩ := input.exists_chunk_of_covers cfg hcovers hend
  refine hid c (List.mem_of_getElem? hc) ?_
  rw [Chunk.blockOf, hblock, hx, UInt32.ofNat_toNat, huuid]

end Image

/-! ## The copies -/

/-- The message of `start_replication` has come to the given point. Its handler puts nothing but a
replica. -/
def CopyInv : Message Unit → Prop
  | .requested pack => (arrived pack).header.type = .replication
  | .running rest => ∃ id, Local id {.replica} rest
  | .unsent | .callback () | .done => True

theorem CopyInv.serve {m m' : Message Unit} (h : CopyInv m) {stray : ℕ → UInt8}
    {store store' : Ssbd.Cell → Option Buf}
    (hserve : m.serve stray (fun _ ↦ ()) store = some (m', store')) :
    CopyInv m' ∧ ∀ id, Harmless id store store' := by
  rcases Message.serve_cases hserve with ⟨pack, rfl, rfl, rfl⟩ | ⟨key, next, rfl, rfl, rfl⟩ |
    ⟨key, value, next, rfl, rfl, rfl⟩ | ⟨reply, rfl, rfl, rfl⟩
  · have htype : (arrived pack).header.type = .replication := h
    have hlocal := local_handle stray (arrived pack)
    rw [htype] at hlocal
    exact ⟨⟨_, hlocal⟩, fun id ↦ .refl id _⟩
  · obtain ⟨id, hlocal⟩ := h
    exact ⟨⟨id, hlocal.next_of_get _⟩, fun id ↦ .refl id _⟩
  · obtain ⟨id, hlocal⟩ := h
    obtain ⟨⟨purpose, hpurpose, rfl⟩, hnext⟩ := hlocal.next_of_put
    rw [Finset.mem_singleton.mp hpurpose]
    exact ⟨⟨id, hnext⟩, fun id' ↦ harmless_replica⟩
  · exact ⟨trivial, fun id ↦ .refl id _⟩

private theorem copyInv_of_mem_copies {w : WriteRun} {call : ℕ} {copy : Copy}
    (h : copy ∈ w.copies cfg call) : CopyInv copy.message := by
  obtain ⟨cj, -, hcopy⟩ := List.mem_flatMap.mp h
  obtain ⟨index, -, rfl⟩ := List.mem_map.mp hcopy
  have hread := readRequest_sent_of_body
    (p := w.write.replicaPacket (w.salt (.replica call cj.2 index)) cj.1) rfl
    (Nat.two_pow_pos 32) []
  rw [List.append_nil] at hread
  rw [CopyInv, arrived_eq hread]
  rfl

private theorem copyInv_of_onCommitAck {w : WriteRun} {call j : ℕ} {out : WriteRun × List Copy}
    (hack : w.onCommitAck cfg call j = some out) {copy : Copy} (h : copy ∈ out.2) :
    CopyInv copy.message := by
  rw [WriteRun.onCommitAck] at hack
  split at hack
  on_goal 2 => cases hack
  cases hack
  dsimp only at h
  split at h
  · exact copyInv_of_mem_copies h
  · cases h

/-! ## The invariant

The copies of earlier writes may be under way at any time. All that has to be known of them is that
their handlers put replicas only. -/

/-- Nothing is pending in any block, and each holds what it should. -/
def AtRest (cfg : Config) (store : ℕ → Ssbd.Cell → Option Buf) (history : List WriteRequest)
    (bytes : BlockId → Buf) (version : BlockId → UInt32) : Prop :=
  ∀ id, OnBlock (primaryStore cfg store id) id (Settled (bytes id) (version id)) ∧
    Image cfg history id (bytes id)

theorem AtRest.of_harmless {store store' : ℕ → Ssbd.Cell → Option Buf} {history : List WriteRequest}
    {bytes : BlockId → Buf} {version : BlockId → UInt32}
    (h : AtRest cfg store history bytes version)
    (hstore : ∀ id, Harmless id (primaryStore cfg store id) (primaryStore cfg store' id)) :
    AtRest cfg store' history bytes version :=
  fun id ↦ ⟨(h id).1.settled_of_harmless (hstore id), (h id).2⟩

/-- The blocks are at rest when nothing has been asked for, and during a read. During a write they
were at rest before it. -/
def CurrentInv (cfg : Config) (store : ℕ → Ssbd.Cell → Option Buf) (history : List WriteRequest) :
    Current → Prop
  | .idle => ∃ bytes version, AtRest cfg store history bytes version
  | .read r => ∃ bytes version, AtRest cfg store history bytes version ∧ ReadInv cfg bytes r
  | .write w => ∃ earlier old version, history = w.write.input :: earlier ∧
    (∀ id, Image cfg earlier id (old id)) ∧ WriteInv cfg old version store w

structure State.Inv (cfg : Config) (s : State) : Prop where
  current : CurrentInv cfg s.store s.history s.current
  copies : ∀ copy ∈ s.copies, CopyInv copy.message
  ends : ∀ w ∈ s.history, w.position.toNat + w.data.length < 2 ^ 32

section Current

variable {store store' : ℕ → Ssbd.Cell → Option Buf} {history : List WriteRequest} {c : Current}

theorem CurrentInv.of_harmless (h : CurrentInv cfg store history c)
    (hstore : ∀ id, Harmless id (primaryStore cfg store id) (primaryStore cfg store' id)) :
    CurrentInv cfg store' history c := by
  cases c with
  | idle =>
    obtain ⟨bytes, version, hrest⟩ := h
    exact ⟨bytes, version, hrest.of_harmless hstore⟩
  | read r =>
    obtain ⟨bytes, version, hrest, hread⟩ := h
    exact ⟨bytes, version, hrest.of_harmless hstore, hread⟩
  | write w =>
    obtain ⟨earlier, old, version, hhistory, himage, hwrite⟩ := h
    exact ⟨earlier, old, version, hhistory, himage, hwrite.of_harmless hstore⟩

private theorem WriteInv.exists_atRest {earlier : List WriteRequest} {old : BlockId → Buf}
    {version : BlockId → UInt32} {w : WriteRun} (h : WriteInv cfg old version store w)
    (hdone : w.Complete cfg) (himage : ∀ id, Image cfg earlier id (old id))
    (hend : w.write.input.position.toNat + w.write.input.data.length < 2 ^ 32) :
    ∃ bytes version, AtRest cfg store (w.write.input :: earlier) bytes version := by
  obtain ⟨htouched, hothers⟩ := h.settled_of_complete hdone
  have hblock : ∀ id, ∃ bytes version,
      OnBlock (primaryStore cfg store id) id (Settled bytes version) ∧
        Image cfg (w.write.input :: earlier) id bytes := by
    intro id
    by_cases hid : ∃ c ∈ w.chunks cfg, c.blockOf w.write.input.uuid = id
    · obtain ⟨c, hc, rfl⟩ := hid
      exact ⟨_, _, htouched c hc, (himage _).overlay hc⟩
    · push Not at hid
      exact ⟨_, _, hothers id hid, (himage id).cons_of_ne hend hid⟩
  choose bytes version hrest using hblock
  exact ⟨bytes, version, hrest⟩

private theorem CurrentInv.exists_atRest (h : CurrentInv cfg store history c)
    (hdone : c.Complete cfg) (hends : ∀ w ∈ history, w.position.toNat + w.data.length < 2 ^ 32) :
    ∃ bytes version, AtRest cfg store history bytes version := by
  cases c with
  | idle => exact h
  | read r =>
    obtain ⟨bytes, version, hrest, -⟩ := h
    exact ⟨bytes, version, hrest⟩
  | write w =>
    obtain ⟨earlier, old, version, rfl, himage, hwrite⟩ := h
    exact hwrite.exists_atRest (hdone.1 w rfl) himage (hends _ List.mem_cons_self)

end Current

/-! ### One step -/

section Input

variable {w : WriteRun}

private theorem input_of_look {checked : Bool} {w' : WriteRun} (h : w.look cfg checked = some w') :
    w'.write.input = w.write.input := by
  rw [WriteRun.look] at h
  split at h
  · cases h
    rfl
  · cases h

private theorem input_of_sendPrepare {w' : WriteRun} (h : w.sendPrepare cfg = some w') :
    w'.write.input = w.write.input := by
  rw [WriteRun.sendPrepare] at h
  split at h
  · cases h
    rfl
  · cases h

private theorem input_of_sendCommit {call : ℕ} {w' : WriteRun}
    (h : w.sendCommit cfg call = some w') : w'.write.input = w.write.input := by
  rw [WriteRun.sendCommit] at h
  split at h
  · cases h
    rfl
  · cases h

private theorem input_of_onVote {j : ℕ} {out : WriteRun × Option Bool}
    (h : w.onVote j = some out) : out.1.write.input = w.write.input := by
  rw [WriteRun.onVote] at h
  split at h <;> cases h <;> rfl

private theorem input_of_onCommitAck {call j : ℕ} {out : WriteRun × List Copy}
    (h : w.onCommitAck cfg call j = some out) : out.1.write.input = w.write.input := by
  rw [WriteRun.onCommitAck] at h
  split at h
  · cases h
    rfl
  · cases h

end Input

namespace State

variable {s s' : State}

private theorem inv_fresh : fresh.Inv cfg where
  current := ⟨fun _ ↦ [], fun _ ↦ 0, fun id ↦ ⟨onBlock_fresh id, image_nil id⟩⟩
  copies _ h := nomatch h
  ends _ h := nomatch h

private theorem exists_serve_of_serveAt {φ : Type} {host : ℕ} {stray : ℕ → UInt8}
    {answered : Packet → φ} {m : Message φ} {next : State → Message φ → State}
    (h : s.serveAt host stray answered m next = some s') :
    ∃ m' σ, m.serve stray answered (s.store host) = some (m', σ) ∧
      s' = next { s with store := Function.update s.store host σ } m' := by
  obtain ⟨⟨m', σ⟩, hserve, rfl⟩ := Option.map_eq_some_iff.mp h
  exact ⟨m', σ, hserve, rfl⟩

private theorem Inv.setWrite {w w' : WriteRun} (h : s.Inv cfg) (hw : s.current = .write w)
    {store : ℕ → Ssbd.Cell → Option Buf} (checked : ℕ → Key → Bool) {copies : List Copy}
    (hinput : w'.write.input = w.write.input)
    (hwrite : ∀ old version, WriteInv cfg old version s.store w → WriteInv cfg old version store w')
    (hcopies : ∀ copy ∈ copies, CopyInv copy.message) :
    Inv cfg { s with store, checked, current := .write w', copies } := by
  have hcurrent := h.current
  rw [hw] at hcurrent
  obtain ⟨earlier, old, version, hhistory, himage, hinv⟩ := hcurrent
  exact ⟨⟨earlier, old, version, hinput ▸ hhistory, himage, hwrite old version hinv⟩, hcopies,
    h.ends⟩

private theorem Inv.setRead {r r' : ReadRun} (h : s.Inv cfg) (hr : s.current = .read r)
    (hread : ∀ bytes, ReadInv cfg bytes r → ReadInv cfg bytes r') :
    Inv cfg { s with current := .read r' } := by
  have hcurrent := h.current
  rw [hr] at hcurrent
  obtain ⟨bytes, version, hrest, hinv⟩ := hcurrent
  exact ⟨⟨bytes, version, hrest, hread bytes hinv⟩, h.copies, h.ends⟩

private theorem inv_startWrite {coordinator : ℕ} {input : WriteRequest} {version : UInt32}
    {salt : WriteTicket → Salt} (h : s.Inv cfg) (hdone : s.current.Complete cfg)
    (hne : input.data ≠ []) (hend : input.position.toNat + input.data.length < 2 ^ 32) :
    Inv cfg { s with
      current := .write (.start coordinator input version salt)
      history := input :: s.history } := by
  obtain ⟨bytes, old, hrest⟩ := h.current.exists_atRest hdone h.ends
  exact ⟨⟨s.history, bytes, old, rfl, fun id ↦ (hrest id).2,
    .start coordinator version salt hne hend fun id ↦ (hrest id).1⟩, h.copies,
    List.forall_mem_cons.mpr ⟨hend, h.ends⟩⟩

private theorem inv_startRead (coordinator : ℕ) (input : ReadRequest) (salt : ℕ → Salt)
    (h : s.Inv cfg) (hdone : s.current.Complete cfg) :
    Inv cfg { s with current := .read (.start coordinator input salt) } := by
  obtain ⟨bytes, version, hrest⟩ := h.current.exists_atRest hdone h.ends
  exact ⟨⟨bytes, version, hrest, .start coordinator input salt⟩, h.copies, h.ends⟩

private theorem inv_serveCopy (h : s.Inv cfg) {n : ℕ} {stray : ℕ → UInt8}
    (hserve : s.serveCopy n stray = some s') : s'.Inv cfg := by
  obtain ⟨copy, hcopy, hat⟩ := Option.bind_eq_some_iff.mp hserve
  obtain ⟨m, σ, hm, rfl⟩ := exists_serve_of_serveAt hat
  obtain ⟨hcopyInv, hharmless⟩ := (h.copies copy (List.mem_of_getElem? hcopy)).serve hm
  refine ⟨h.current.of_harmless fun id ↦ harmless_primaryStore cfg (hharmless id),
    fun copy' hmem ↦ ?_, h.ends⟩
  rcases List.mem_or_eq_of_mem_set hmem with hmem | rfl
  · exact h.copies copy' hmem
  · exact hcopyInv

private theorem inv_serveRead {r : ReadRun} (h : s.Inv cfg) (hr : s.current = .read r) {i : ℕ}
    {stray : ℕ → UInt8} (hserve : s.serveRead cfg r stray i = some s') : s'.Inv cfg := by
  obtain ⟨c, hc, hat⟩ := Option.bind_eq_some_iff.mp hserve
  obtain ⟨m, σ, hm, rfl⟩ := exists_serve_of_serveAt hat
  have hcurrent := h.current
  rw [hr] at hcurrent
  obtain ⟨bytes, version, hrest, hread⟩ := hcurrent
  have hblockid := (r.input.fits (List.mem_of_getElem? hc)).blockid_lt
  obtain ⟨hstored, himage⟩ := hrest (c.blockOf r.input.uuid)
  rw [primaryStore_blockOf cfg _ _ hblockid] at hstored
  have hsmall : (bytes (c.blockOf r.input.uuid)).length < 2 ^ 64 := by
    have := himage.length_le
    have := cfg.blocksize_le
    omega
  obtain ⟨rfl, hnext⟩ := hread.serveGet hc hm hstored hsmall
  dsimp only
  rw [Function.update_eq_self]
  exact ⟨⟨bytes, version, hrest, hnext⟩, h.copies, h.ends⟩

private theorem inv_serveWrite {w : WriteRun} (h : s.Inv cfg) (hw : s.current = .write w)
    {t : Ticket} {stray : ℕ → UInt8} (hfresh : Undisturbed cfg s (.serve t stray))
    (hserve : s.serveWrite cfg w stray t = some s') : s'.Inv cfg := by
  cases t with
  | vote j =>
    obtain ⟨c, hc, hat⟩ := Option.bind_eq_some_iff.mp hserve
    obtain ⟨m, σ, hm, rfl⟩ := exists_serve_of_serveAt hat
    exact h.setWrite hw s.checked rfl (fun old version hinv ↦ hinv.serveVote hc hm) h.copies
  | commit call j =>
    obtain ⟨c, hc, hat⟩ := Option.bind_eq_some_iff.mp hserve
    obtain ⟨m, σ, hm, rfl⟩ := exists_serve_of_serveAt hat
    have hputs : s.PutsPending cfg call j := hfresh
    exact h.setWrite hw s.checked rfl
      (fun old version hinv ↦ hinv.serveCommit hc hm (hputs w (by rw [hw]; rfl) c hc)) h.copies
  | get | copy => cases hserve

theorem inv_step (e : Event) (hone : OneAtATime cfg s e) (hfresh : Undisturbed cfg s e)
    (hstep : step cfg s e = some s') (h : s.Inv cfg) : s'.Inv cfg := by
  cases e with
  | startWrite coordinator input version salt =>
    obtain ⟨hdone, hne, hend⟩ := hone
    cases hstep
    exact inv_startWrite h hdone hne hend
  | startRead coordinator input salt =>
    cases hstep
    exact inv_startRead coordinator input salt h hone
  | look =>
    cases hcurrent : s.current with
    | write w =>
      simp only [step, hcurrent, Option.map_eq_some_iff] at hstep
      obtain ⟨w', hw', rfl⟩ := hstep
      exact h.setWrite hcurrent s.checked (input_of_look hw') (fun _ _ hinv ↦ hinv.look hw')
        h.copies
    | idle | read => simp [step, hcurrent] at hstep
  | sendPrepare =>
    cases hcurrent : s.current with
    | write w =>
      simp only [step, hcurrent, Option.map_eq_some_iff] at hstep
      obtain ⟨w', hw', rfl⟩ := hstep
      exact h.setWrite hcurrent s.checked (input_of_sendPrepare hw')
        (fun _ _ hinv ↦ hinv.sendPrepare hw') h.copies
    | idle | read => simp [step, hcurrent] at hstep
  | sendCommit call =>
    cases hcurrent : s.current with
    | write w =>
      simp only [step, hcurrent, Option.map_eq_some_iff] at hstep
      obtain ⟨w', hw', rfl⟩ := hstep
      exact h.setWrite hcurrent s.checked (input_of_sendCommit hw')
        (fun _ _ hinv ↦ hinv.sendCommit hw') h.copies
    | idle | read => simp [step, hcurrent] at hstep
  | sendGet =>
    cases hcurrent : s.current with
    | read r =>
      simp only [step, hcurrent, Option.map_eq_some_iff] at hstep
      obtain ⟨r', hr', rfl⟩ := hstep
      exact h.setRead hcurrent fun _ hinv ↦ hinv.sendGet hr'
    | idle | write => simp [step, hcurrent] at hstep
  | serve t stray =>
    cases t with
    | copy n => exact inv_serveCopy h hstep
    | get i =>
      cases hcurrent : s.current with
      | read r =>
        simp only [step, hcurrent] at hstep
        exact inv_serveRead h hcurrent hstep
      | write w =>
        simp only [step, hcurrent] at hstep
        exact inv_serveWrite h hcurrent hfresh hstep
      | idle => simp [step, hcurrent] at hstep
    | vote | commit =>
      cases hcurrent : s.current with
      | write w =>
        simp only [step, hcurrent] at hstep
        exact inv_serveWrite h hcurrent hfresh hstep
      | idle | read => simp [step, hcurrent] at hstep
  | callback t =>
    cases t with
    | vote j =>
      cases hcurrent : s.current with
      | write w =>
        simp only [step, hcurrent, Option.map_eq_some_iff] at hstep
        obtain ⟨out, hout, rfl⟩ := hstep
        exact h.setWrite hcurrent _ (input_of_onVote hout) (fun _ _ hinv ↦ hinv.onVote hout)
          h.copies
      | idle | read => simp [step, hcurrent] at hstep
    | commit call j =>
      cases hcurrent : s.current with
      | write w =>
        simp only [step, hcurrent, Option.map_eq_some_iff] at hstep
        obtain ⟨out, hout, rfl⟩ := hstep
        exact h.setWrite hcurrent s.checked (input_of_onCommitAck hout)
          (fun _ _ hinv ↦ hinv.onCommitAck hout)
          (List.forall_mem_append.mpr ⟨h.copies, fun copy ↦ copyInv_of_onCommitAck hout⟩)
      | idle | read => simp [step, hcurrent] at hstep
    | get i =>
      cases hcurrent : s.current with
      | read r =>
        simp only [step, hcurrent, Option.map_eq_some_iff] at hstep
        obtain ⟨r', hr', rfl⟩ := hstep
        have hmoved : s.CollectsMoved i := hfresh
        have hplaces := hmoved r (by rw [hcurrent]; rfl)
        exact h.setRead hcurrent fun _ hinv ↦ hinv.onBlock hr' hplaces
      | idle | write => simp [step, hcurrent] at hstep
    | copy n => cases hstep

/-! ## The reply -/

private theorem Inv.readsLatest (h : s.Inv cfg) : s.ReadsLatest cfg := by
  intro r hr hdone hwritten
  cases hcurrent : s.current with
  | idle | write => rw [hcurrent] at hr; cases hr
  | read r' =>
    rw [hcurrent] at hr
    cases hr
    have hinv := h.current
    rw [hcurrent] at hinv
    obtain ⟨bytes, version, hrest, hread⟩ := hinv
    have hend : r.input.position.toNat + r.input.size.toNat < 2 ^ 32 := by
      by_cases hsize : r.input.size.toNat = 0
      · rw [hsize]
        exact r.input.position.toNat_lt
      · -- the last position is that of a write
        obtain ⟨w, hw, -, hlo, hhi⟩ := hwritten
          (r.input.position.toNat + r.input.size.toNat - 1) (by omega) (by omega)
        have := h.ends w hw
        omega
    have hlatest : ∀ x, r.input.position.toNat ≤ x →
        x < r.input.position.toNat + r.input.size.toNat → ∃ byte,
          latestByte s.history r.input.uuid x = some byte ∧
          (bytes (r.input.uuid, UInt32.ofNat (x / cfg.blocksize)))[x % cfg.blocksize]?
            = some byte := by
      intro x hlo hhi
      obtain ⟨byte, hbyte⟩ := (hwritten x hlo hhi).exists_latestByte
      refine ⟨byte, hbyte, (hrest _).2.latest x byte ?_ hbyte⟩
      have := Nat.div_le_self x cfg.blocksize
      rw [UInt32.toNat_ofNat', Nat.mod_eq_of_lt (by omega)]
    refine ⟨hread.replies_ne_nil hdone hend, fun reply hreply ↦ ?_⟩
    obtain ⟨hlength, hbytes⟩ := hread.reply_spec hreply hend fun x hlo hhi ↦ by
      obtain ⟨byte, -, hbyte⟩ := hlatest x hlo hhi
      exact (List.getElem?_eq_some_iff.mp hbyte).1
    refine ⟨hlength, fun i hi ↦ ?_⟩
    have hget := hbytes (r.input.position.toNat + i) (by omega) (by omega)
    obtain ⟨byte, hbyte, hheld⟩ := hlatest (r.input.position.toNat + i) (by omega) (by omega)
    rw [Nat.add_sub_cancel_left] at hget
    rw [hget, hheld, hbyte]

/-! ## The runs -/

/-- **Reads return the latest bytes** in every run of one request after the other in which neither
race shows. -/
theorem sequential_read_latest (cfg : Config) {events : List Event} {s : State}
    (hone : Meets (step cfg) (OneAtATime cfg) fresh events)
    (hcalm : Meets (step cfg) (Undisturbed cfg) fresh events)
    (hrun : run (step cfg) fresh events = some s) : s.ReadsLatest cfg := by
  refine Inv.readsLatest (invariant_run (I := fun s ↦ s.Inv cfg) (fun s e s' hboth hstep h ↦ ?_)
    (hone.and hcalm) hrun inv_fresh)
  exact inv_step e hboth.1 hboth.2 hstep h

def serves (t : Ticket) (n : ℕ) : List Event := List.replicate n (.serve t fun _ ↦ 0)

def callbacks (t : Ticket) (n : ℕ) : List Event := List.replicate n (.callback t)

/-- The salts play no part here. -/
def salt {α : Type} : α → Salt := fun _ ↦ List.Vector.replicate 4 0

/-- The first block of a write over two blocks is prepared, and decides before the second one is
sent. -/
def early : List Event :=
  [.startWrite 0 twoBlocks 1 salt, .look, .sendPrepare] ++ serves (.vote 0) 13
    ++ callbacks (.vote 0) 5 ++ [.sendCommit 0, .sendCommit 0] ++ serves (.commit 0 0) 6
    ++ callbacks (.commit 0 0) 1

/-- The second block is prepared and decides again. -/
def late (accesses : ℕ) : List Event :=
  [.look, .sendPrepare] ++ serves (.vote 1) accesses ++ callbacks (.vote 1) 5
    ++ [.sendCommit 1, .sendCommit 1] ++ serves (.commit 1 0) 6 ++ serves (.commit 1 1) 6
    ++ callbacks (.commit 1 0) 1 ++ callbacks (.commit 1 1) 1

/-- A write that decides twice, a write into its first block, and a read of both blocks, whose two
callbacks both reply. -/
def racing : List Event :=
  early ++ serves (.commit 0 1) 6 ++ callbacks (.commit 0 1) 1 ++ late 7
    ++ [.startWrite 1 (byteWrite 3 9) 2 salt, .look, .sendPrepare] ++ serves (.vote 0) 9
    ++ callbacks (.vote 0) 5 ++ [.sendCommit 0] ++ serves (.commit 0 0) 6
    ++ callbacks (.commit 0 0) 1
    ++ [.startRead 0 ⟨fileId, 2, 6⟩ salt, .sendGet, .sendGet] ++ serves (.get 0) 3
    ++ serves (.get 1) 3 ++ callbacks (.get 0) 1 ++ callbacks (.get 1) 2 ++ callbacks (.get 0) 1
    ++ callbacks (.get 1) 6 ++ callbacks (.get 0) 6

theorem sequential_read_latest_racing :
    ∃ s r, run (step oneHost) fresh racing = some s ∧ s.current.asRead = some r ∧ r.replies ≠ [] ∧
      ∀ reply ∈ r.replies, reply.length = 6 ∧
        ∀ i < 6, reply[i]? = latestByte s.history fileId (2 + i) := by
  obtain ⟨s, hs⟩ : ∃ s, run (step oneHost) fresh racing = some s :=
    Option.isSome_iff_exists.mp (by decide +kernel)
  have hall : ∀ s ∈ run (step oneHost) fresh racing, s.current.asRead.isSome ∧
      ∀ r ∈ s.current.asRead, r.Complete oneHost ∧ r.input = ⟨fileId, 2, 6⟩ ∧
        ∀ x, 2 ≤ x → x < 8 → Written s.history fileId x := by
    decide +kernel
  obtain ⟨hsome, hread⟩ := hall s hs
  obtain ⟨r, hr⟩ := Option.isSome_iff_exists.mp hsome
  obtain ⟨hdone, hinput, hwritten⟩ := hread r hr
  have hlatest := sequential_read_latest oneHost (by decide +kernel) (by decide +kernel) hs r hr
    hdone
  rw [hinput] at hlatest
  exact ⟨s, r, hs, hr, hlatest hwritten⟩

/-- The callback of the second block collects the places while that of the first one has yet to
move its data in. -/
def torn : List Event :=
  [.startWrite 0 twoBlocks 1 salt, .look, .sendPrepare, .look, .sendPrepare]
    ++ serves (.vote 0) 13 ++ serves (.vote 1) 13 ++ callbacks (.vote 0) 2 ++ callbacks (.vote 1) 5
    ++ [.sendCommit 0, .sendCommit 0] ++ serves (.commit 0 0) 6 ++ serves (.commit 0 1) 6
    ++ callbacks (.commit 0 0) 1 ++ callbacks (.commit 0 1) 1
    ++ [.startRead 0 ⟨fileId, 2, 6⟩ salt, .sendGet, .sendGet] ++ serves (.get 0) 3
    ++ serves (.get 1) 3 ++ callbacks (.get 0) 1 ++ callbacks (.get 1) 8 ++ callbacks (.get 0) 7

/-- The early execute of the second block has read what is pending there, and waits until the write
is through. -/
def stale : List Event :=
  early ++ serves (.commit 0 1) 3 ++ late 11 ++ serves (.commit 0 1) 3 ++ callbacks (.commit 0 1) 1
    ++ [.startRead 0 ⟨fileId, 4, 4⟩ salt, .sendGet] ++ serves (.get 0) 3 ++ callbacks (.get 0) 6

/-- Each race is enough for a read that does not return what was written. -/
theorem sequential_read_races :
    (∃ s ∈ run (step oneHost) fresh torn,
      Meets (step oneHost) (OneAtATime oneHost) fresh torn ∧ ¬s.ReadsLatest oneHost) ∧
    ∃ s ∈ run (step oneHost) fresh stale,
      Meets (step oneHost) (OneAtATime oneHost) fresh stale ∧ ¬s.ReadsLatest oneHost :=
  ⟨by decide +kernel, by decide +kernel⟩

end State

end Threaded

end Slsfs.Datafunction

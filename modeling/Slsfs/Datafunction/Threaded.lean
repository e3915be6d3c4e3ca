import Slsfs.Datafunction.Storage
import Slsfs.Ssbd.Staged

/-!
# Requests access by access

A datafunction runs its `io_context` on up to four threads and a server on as many as it has cores,
so the callbacks of one request run side by side, and so do the handlers of its messages, those of
one connection included: a quick prepare and an execute start the next read before they touch the
database. Here a step is one access to something that threads share. In a callback these are the
atomic variables `outstanding_requests`, `all_ssbd_agree` and `ready`, the recoder, and a place of
the result vector; in a handler it is one `Get` or `Put` of leveldb. What happens between two of
them is put in the step before.

A message is handled and answered at any time after it was sent, whatever else is on its way. So it
does not matter when exactly a loop hands a message over, and a round of a send loop, which raises
the counter and sends, is one step; so is `start_replication`, whose counter decides nothing. The
look at the recoder that comes before a prepare is a step of its own.

Requests come one at a time here. `State.current` is the last one that was started. The copies that
`start_replication` sends may still be under way when the next request starts; nothing waits for
them. The 30 second deadlines are left out.
-/

namespace Slsfs.Datafunction.Threaded

open LeveldbPack Ssbd Ssbd.Access

/-! ## Messages

The server's part in a message is the program of its handler, which is stepped one access at a time;
the datafunction's part is the phase of the callback. A handler that has returned sends its reply,
which the datafunction reads off the wire. -/

/-- How far a message has come: it is sent, its handler makes one access after the other, the
callback of the answer runs. `φ` says how far a callback can come. -/
inductive Message (φ : Type) where
  | unsent
  | requested (pack : Packet)
  | running (rest : Ssbd.Access Packet)
  | callback (phase : φ)
  | done

/-- The answer as the datafunction reads it off the wire. -/
def received (reply : Packet) : Packet := ((readResponse reply.serialize).map Prod.fst).getD reply

namespace Message

variable {φ : Type}

def isDone : Message φ → Bool
  | done => true
  | _ => false

/-- The `Put` that its handler comes to next. -/
def nextPut : Message φ → Option (Ssbd.Cell × Option Buf)
  | running (.put key value _) => some (key, value)
  | _ => none

/-- What the server does next for a message: it starts the handler, makes one access, or answers. -/
def serve (stray : ℕ → UInt8) (answered : Packet → φ) (store : Ssbd.Cell → Option Buf) :
    Message φ → Option (Message φ × (Ssbd.Cell → Option Buf))
  | requested pack => some (running (Ssbd.Access.handle stray (arrived pack)), store)
  | running (.get key next) => some (running (next (store key)), store)
  | running (.put key value next) => some (running next, Function.update store key value)
  | running (.done reply) => some (callback (answered (received reply)), store)
  | unsent | callback _ | done => none

end Message

/-! ## A write

`Write` has the variables that the callbacks of a write share. The commits are kept by call and by
block, since `start_2pc_commit` may be called more than once. -/

/-- The callback of a prepare, by what it does next. -/
inductive VotePhase where
  /-- It looks at the type of the answer, and stores `false` if the vote is against. -/
  | answered (type : MsgT)
  /-- It counts down. -/
  | counting
  /-- It has brought the counter to zero, and loads `all_ssbd_agree`. -/
  | deciding
  /-- It marks the file as checked, or erases the mark, and replies. -/
  | replying (agree : Bool)
  /-- It loads `all_ssbd_agree` once more, and calls `start_2pc_commit`. -/
  | committing

/-- A message of `start_replication`. -/
structure Copy where
  host : ℕ
  message : Message Unit

/-- A write and its messages: the prepare of each block, and the commit of each block by the call of
`start_2pc_commit` it comes from. -/
structure WriteRun where
  write : Write
  salt : WriteTicket → Salt
  /-- What `is_checked` has returned for the next prepare. -/
  quick : Option Bool
  vote : ℕ → Message VotePhase
  /-- The rounds that each call of `start_2pc_commit` has done. -/
  sentCommits : ℕ → ℕ
  commit : ℕ → ℕ → Message Unit

namespace WriteRun

def start (coordinator : ℕ) (input : WriteRequest) (version : UInt32)
    (salt : WriteTicket → Salt) : WriteRun where
  write := .start coordinator input version
  salt
  quick := none
  vote _ := .unsent
  sentCommits _ := 0
  commit _ _ := .unsent

variable (cfg : Config) (w : WriteRun)

def chunks : List Chunk := w.write.input.chunks cfg.blocksize

/-- `is_checked`, for the next block. -/
def look (checked : Bool) : Option WriteRun :=
  if w.write.sent < (w.chunks cfg).length ∧ w.quick = none then
    some { w with quick := some checked }
  else none

/-- The rest of a round of the loop of `start_2pc_prepare`. -/
def sendPrepare : Option WriteRun :=
  match w.quick, (w.chunks cfg)[w.write.sent]? with
  | some checked, some c =>
    some { w with
      write := w.write.sendOne
      quick := none
      vote := Function.update w.vote w.write.sent
        (.requested (w.write.preparePacket (w.salt (.vote w.write.sent)) checked c)) }
  | _, _ => none

/-- What the callback of a prepare does next. The mark is what it does to the recoder. -/
def onVote (j : ℕ) : Option (WriteRun × Option Bool) :=
  match w.vote j with
  | .callback (.answered type) =>
    some ({ w with
      write.allSsbdAgree :=
        if type = .twoPcPrepareAgree then w.write.allSsbdAgree else false
      vote := Function.update w.vote j (.callback .counting) }, none)
  | .callback .counting =>
    some ({ w with
      write.outstandingRequests := w.write.outstandingRequests - 1
      vote := Function.update w.vote j
        (if w.write.outstandingRequests - 1 = 0 then .callback .deciding else .done) }, none)
  | .callback .deciding =>
    some ({ w with
      vote := Function.update w.vote j (.callback (.replying w.write.allSsbdAgree)) }, none)
  | .callback (.replying agree) =>
    some ({ w with
      write.replies := w.write.replies ++ [if agree then Write.ok else Write.foundPending]
      vote := Function.update w.vote j (.callback .committing) }, some agree)
  | .callback .committing =>
    some ({ w with
      write.commits := w.write.commits ++ [⟨w.write.allSsbdAgree, 0⟩]
      vote := Function.update w.vote j .done }, none)
  | _ => none

/-- A round of the loop of `start_2pc_commit`. -/
def sendCommit (call : ℕ) : Option WriteRun :=
  match w.write.commits[call]?, (w.chunks cfg)[w.sentCommits call]? with
  | some ⟨agree, outstanding⟩, some c =>
    some { w with
      write.commits := w.write.commits.set call ⟨agree, outstanding + 1⟩
      sentCommits := Function.update w.sentCommits call (w.sentCommits call + 1)
      commit := Function.update w.commit call
        (Function.update (w.commit call) (w.sentCommits call)
          (.requested (w.write.commitPacket (w.salt (.commit call (w.sentCommits call))) agree
            c))) }
  | _, _ => none

/-- The messages of a call of `start_replication`, to the hosts of the second half of
`backend_list_`, which are those of the first. -/
def copies (call : ℕ) : List Copy :=
  (w.chunks cfg).zipIdx.flatMap fun cj ↦
    (List.range' 1 (cfg.replicationSize - 1)).map fun index ↦
      ⟨cfg.selectReplica w.write.input.uuid cj.1.blockid index,
        .requested (w.write.replicaPacket (w.salt (.replica call cj.2 index)) cj.1)⟩

/-- The callback of a commit counts down. The last one starts the replication, if the call was one
to execute. -/
def onCommitAck (call j : ℕ) : Option (WriteRun × List Copy) :=
  match w.commit call j, w.write.commits[call]? with
  | .callback (), some ⟨agree, outstanding⟩ =>
    some ({ w with
      write.commits := w.write.commits.set call ⟨agree, outstanding - 1⟩
      commit := Function.update w.commit call (Function.update (w.commit call) j .done) },
      if outstanding - 1 = 0 ∧ agree = true ∧ 1 < cfg.replicationSize then w.copies cfg call
      else [])
  | _, _ => none

/-- All prepares, votes, commits and acks have been sent and seen. -/
def Complete : Prop :=
  w.write.sent = (w.chunks cfg).length ∧
  (∀ j < (w.chunks cfg).length, (w.vote j).isDone = true) ∧
  ∀ call < w.write.commits.length, w.sentCommits call = (w.chunks cfg).length ∧
    ∀ j < (w.chunks cfg).length, (w.commit call j).isDone = true

instance : Decidable (w.Complete cfg) :=
  inferInstanceAs (Decidable (_ ∧ _ ∧ _))

end WriteRun

/-! ## A read

The vector is two functions, since its two halves are stored one after the other. -/

/-- The callback of a get, by what it does next. -/
inductive ReadPhase where
  /-- It stores `ready`. -/
  | answered (data : Buf)
  /-- It moves the data to its place. -/
  | moving (data : Buf)
  /-- It has found the first `n` places ready, and looks at the next. -/
  | scanning (n : ℕ)
  /-- It has collected the first `n` places, and goes on to the next. -/
  | collecting (n : ℕ) (collect : Buf)

/-- A read with the vector its callbacks fill. -/
structure ReadRun where
  coordinator : ℕ
  input : ReadRequest
  salt : ℕ → Salt
  /-- The rounds of the send loop done so far. -/
  sent : ℕ
  /-- `result_accumulator`. -/
  ready : ℕ → Bool
  buf : ℕ → Buf
  /-- The invocations of `next`. -/
  replies : List Buf
  message : ℕ → Message ReadPhase

namespace ReadRun

def start (coordinator : ℕ) (input : ReadRequest) (salt : ℕ → Salt) : ReadRun where
  coordinator
  input
  salt
  sent := 0
  ready _ := false
  buf _ := []
  replies := if input.size = 0 then [[]] else []
  message _ := .unsent

variable (cfg : Config) (r : ReadRun)

def chunks : List Chunk := r.input.chunks cfg.blocksize

def getPacket (i : ℕ) (c : Chunk) : Packet :=
  Packet.createRequest r.input.uuid .get 0 c.blockid c.offset c.length (r.salt i)

/-- A round of the send loop. -/
def sendGet : Option ReadRun :=
  match (r.chunks cfg)[r.sent]? with
  | none => none
  | some c =>
    some { r with
      sent := r.sent + 1
      message := Function.update r.message r.sent (.requested (r.getPacket r.sent c)) }

/-- What the callback of a get does next. -/
def onBlock (i : ℕ) : Option ReadRun :=
  match r.message i with
  | .callback (.answered data) =>
    some { r with
      ready := Function.update r.ready i true
      message := Function.update r.message i (.callback (.moving data)) }
  | .callback (.moving data) =>
    some { r with
      buf := Function.update r.buf i data
      message := Function.update r.message i (.callback (.scanning 0)) }
  | .callback (.scanning n) =>
    some { r with
      message := Function.update r.message i
        (if n < (r.chunks cfg).length then
          if r.ready n = true then .callback (.scanning (n + 1)) else .done
        else .callback (.collecting 0 [])) }
  | .callback (.collecting n collect) =>
    if n < (r.chunks cfg).length then
      some { r with
        message := Function.update r.message i (.callback (.collecting (n + 1)
          (collect ++ r.buf n))) }
    else
      some { r with
        replies := r.replies ++ [collect]
        message := Function.update r.message i .done }
  | _ => none

/-- All gets have been answered, and their callbacks have run. -/
def Complete : Prop :=
  r.sent = (r.chunks cfg).length ∧ ∀ i < (r.chunks cfg).length, (r.message i).isDone = true

instance : Decidable (r.Complete cfg) :=
  inferInstanceAs (Decidable (_ ∧ _))

/-- The callback of the place has stored `ready` and has yet to move the data in. -/
def isMoving (i : ℕ) : Bool :=
  match r.message i with
  | .callback (.moving _) => true
  | _ => false

/-- The place that the callback comes to next, if it collects them. -/
def collecting (i : ℕ) : Option ℕ :=
  match r.message i with
  | .callback (.collecting n _) => some n
  | _ => none

end ReadRun

/-! ## One request at a time -/

inductive Current where
  | idle
  | write (w : WriteRun)
  | read (r : ReadRun)

namespace Current

def asWrite : Current → Option WriteRun
  | write w => some w
  | _ => none

def asRead : Current → Option ReadRun
  | read r => some r
  | _ => none

/-- The request has run to its end. -/
def Complete (cfg : Config) (c : Current) : Prop :=
  (∀ w ∈ c.asWrite, w.Complete cfg) ∧ ∀ r ∈ c.asRead, r.Complete cfg

instance (cfg : Config) (c : Current) : Decidable (c.Complete cfg) :=
  inferInstanceAs (Decidable (_ ∧ _))

end Current

structure State where
  /-- The two databases of each server. -/
  store : ℕ → Ssbd.Cell → Option Buf
  /-- The `recoder_` of each datafunction. -/
  checked : ℕ → Key → Bool
  current : Current
  /-- The messages of `start_replication`, of all writes so far. -/
  copies : List Copy
  /-- The writes that have started, newest first; no step looks at it. -/
  history : List WriteRequest

inductive Ticket where
  | vote (j : ℕ)
  | commit (call j : ℕ)
  | get (i : ℕ)
  | copy (n : ℕ)

inductive Event where
  | startWrite (coordinator : ℕ) (input : WriteRequest) (version : UInt32)
    (salt : WriteTicket → Salt)
  | startRead (coordinator : ℕ) (input : ReadRequest) (salt : ℕ → Salt)
  | look
  | sendPrepare
  | sendCommit (call : ℕ)
  | sendGet
  /-- The server takes the next step for a message. -/
  | serve (t : Ticket) (stray : ℕ → UInt8)
  /-- The callback of a message takes its next step. -/
  | callback (t : Ticket)

namespace State

/-- Nothing is stored, and nothing has been asked for. -/
def fresh : State where
  store _ _ := none
  checked _ _ := false
  current := .idle
  copies := []
  history := []

variable (cfg : Config) (s : State)

def serveAt {φ : Type} (host : ℕ) (stray : ℕ → UInt8) (answered : Packet → φ) (m : Message φ)
    (next : State → Message φ → State) : Option State :=
  (m.serve stray answered (s.store host)).map fun out ↦
    next { s with store := Function.update s.store host out.2 } out.1

/-- The server takes the next step for a message of the write. -/
def serveWrite (w : WriteRun) (stray : ℕ → UInt8) : Ticket → Option State
  | .vote j => do
    let c ← (w.chunks cfg)[j]?
    s.serveAt (hostOf cfg w.write.input.uuid c) stray (fun reply ↦ .answered reply.header.type)
      (w.vote j) fun s m ↦
        { s with current := .write { w with vote := Function.update w.vote j m } }
  | .commit call j => do
    let c ← (w.chunks cfg)[j]?
    s.serveAt (hostOf cfg w.write.input.uuid c) stray (fun _ ↦ ()) (w.commit call j) fun s m ↦
      { s with current := .write { w with
        commit := Function.update w.commit call (Function.update (w.commit call) j m) } }
  | .get _ | .copy _ => none

/-- The server takes the next step for a get. -/
def serveRead (r : ReadRun) (stray : ℕ → UInt8) (i : ℕ) : Option State := do
  let c ← (r.chunks cfg)[i]?
  s.serveAt (hostOf cfg r.input.uuid c) stray (fun reply ↦ .answered reply.data) (r.message i)
    fun s m ↦ { s with current := .read { r with message := Function.update r.message i m } }

/-- The server takes the next step for a copy. -/
def serveCopy (n : ℕ) (stray : ℕ → UInt8) : Option State := do
  let copy ← s.copies[n]?
  s.serveAt copy.host stray (fun _ ↦ ()) copy.message fun s m ↦
    { s with copies := s.copies.set n ⟨copy.host, m⟩ }

/-- The mark of a file, if the callback sets it. -/
def mark (w : WriteRun) : Option Bool → ℕ → Key → Bool
  | none => s.checked
  | some agree =>
    Function.update s.checked w.write.coordinator
      (Function.update (s.checked w.write.coordinator) w.write.input.uuid agree)

def step (e : Event) : Option State :=
  match e, s.current with
  | .startWrite coordinator input version salt, _ =>
    some { s with
      current := .write (.start coordinator input version salt)
      history := input :: s.history }
  | .startRead coordinator input salt, _ =>
    some { s with current := .read (.start coordinator input salt) }
  | .look, .write w =>
    (w.look cfg (s.checked w.write.coordinator w.write.input.uuid)).map fun w ↦
      { s with current := .write w }
  | .sendPrepare, .write w => (w.sendPrepare cfg).map fun w ↦ { s with current := .write w }
  | .sendCommit call, .write w =>
    (w.sendCommit cfg call).map fun w ↦ { s with current := .write w }
  | .sendGet, .read r => (r.sendGet cfg).map fun r ↦ { s with current := .read r }
  | .serve (.copy n) stray, _ => s.serveCopy n stray
  | .serve (.get i) stray, .read r => s.serveRead cfg r stray i
  | .serve t stray, .write w => s.serveWrite cfg w stray t
  | .callback (.copy _), _ => none
  | .callback (.vote j), .write w =>
    (w.onVote j).map fun out ↦ { s with current := .write out.1, checked := s.mark w out.2 }
  | .callback (.commit call j), .write w =>
    (w.onCommitAck cfg call j).map fun out ↦
      { s with current := .write out.1, copies := s.copies ++ out.2 }
  | .callback (.get i), .read r => (r.onBlock cfg i).map fun r ↦ { s with current := .read r }
  | _, _ => none

end State

variable {cfg : Config}

/-! ## What a step can do

The handlers of messages for one block, on one host, do not touch what other blocks hold; and a
handler of a copy touches replicas only. These are the frame conditions of the invariants to
come. -/

/-- The two databases of the primary host of a block. -/
def primaryStore (cfg : Config) (store : ℕ → Ssbd.Cell → Option Buf) (id : BlockId) :
    Ssbd.Cell → Option Buf :=
  store (cfg.selectReplica id.1 id.2.toNat 0)

variable (cfg) in
theorem primaryStore_blockOf (store : ℕ → Ssbd.Cell → Option Buf) (uuid : Key) {c : Chunk}
    (hc : c.blockid < 2 ^ 32) :
    primaryStore cfg store (c.blockOf uuid) = store (hostOf cfg uuid c) := by
  rw [primaryStore, hostOf, Chunk.blockOf, UInt32.toNat_ofNat', Nat.mod_eq_of_lt hc]

variable (cfg) in
/-- What does no harm to a block on one host does none to it on its primary host. -/
theorem harmless_primaryStore {store : ℕ → Ssbd.Cell → Option Buf} {host : ℕ}
    {store' : Ssbd.Cell → Option Buf} {id : BlockId} (h : Harmless id (store host) store') :
    Harmless id (primaryStore cfg store id)
      (primaryStore cfg (Function.update store host store') id) := by
  rw [primaryStore, primaryStore]
  by_cases hhost : (cfg.selectReplica id.1 id.2.toNat 0 : ℕ) = host
  · rw [hhost, Function.update_self]
    exact h
  · rw [Function.update_of_ne hhost]
    exact .refl id _

namespace Message

variable {φ : Type}

theorem isDone_iff {m : Message φ} : m.isDone = true ↔ m = done := by
  cases m <;> simp [isDone]

theorem serve_cases {stray : ℕ → UInt8} {answered : Packet → φ}
    {store store' : Ssbd.Cell → Option Buf} {m m' : Message φ}
    (h : m.serve stray answered store = some (m', store')) :
    (∃ pack, m = requested pack ∧ m' = running (Ssbd.Access.handle stray (arrived pack)) ∧
      store' = store) ∨
    (∃ key next, m = running (.get key next) ∧ m' = running (next (store key)) ∧ store' = store) ∨
    (∃ key value next, m = running (.put key value next) ∧ m' = running next ∧
      store' = Function.update store key value) ∨
    ∃ reply, m = running (.done reply) ∧ m' = callback (answered (received reply)) ∧
      store' = store := by
  cases m with
  | requested pack =>
    obtain ⟨rfl, rfl⟩ := Prod.mk.inj (Option.some.inj h)
    exact .inl ⟨pack, rfl, rfl, rfl⟩
  | running rest =>
    cases rest with
    | get key next =>
      obtain ⟨rfl, rfl⟩ := Prod.mk.inj (Option.some.inj h)
      exact .inr (.inl ⟨key, next, rfl, rfl, rfl⟩)
    | put key value next =>
      obtain ⟨rfl, rfl⟩ := Prod.mk.inj (Option.some.inj h)
      exact .inr (.inr (.inl ⟨key, value, next, rfl, rfl, rfl⟩))
    | done reply =>
      obtain ⟨rfl, rfl⟩ := Prod.mk.inj (Option.some.inj h)
      exact .inr (.inr (.inr ⟨reply, rfl, rfl, rfl⟩))
  | unsent | callback | done => cases h

end Message

theorem received_eq {reply : Packet} (hlen : reply.data.length < 2 ^ 32) :
    received reply = { header := reply.sealedHeader, data := reply.data } := by
  have hread := readResponse_serialize hlen []
  rw [List.append_nil] at hread
  rw [received, hread]
  rfl

theorem received_type (pack : Packet) (type : MsgT) :
    (received (Server.respond pack type)).header.type = type := by
  have hlen : (Server.respond pack type).data.length < 2 ^ 32 := Nat.two_pow_pos 32
  rw [received_eq hlen]
  rfl

/-- The handler stays with the cells of one block. -/
def Local (id : BlockId) (W : Finset Ssbd.Purpose) (rest : Ssbd.Access Packet) : Prop :=
  ∃ R, rest.Within (cellsOf id R) (cellsOf id W)

theorem local_handle (stray : ℕ → UInt8) (pack : Packet) :
    Local (blockId pack) (writes pack.header.type) (Ssbd.Access.handle stray pack) :=
  ⟨_, within_handle stray pack⟩

theorem Local.next_of_get {id : BlockId} {W : Finset Ssbd.Purpose} {key : Ssbd.Cell}
    {next : Option Buf → Ssbd.Access Packet} (h : Local id W (.get key next)) (value : Option Buf) :
    Local id W (next value) :=
  h.imp fun _ hwithin ↦ hwithin.2 value

theorem Local.next_of_put {id : BlockId} {W : Finset Ssbd.Purpose} {key : Ssbd.Cell}
    {value : Option Buf} {next : Ssbd.Access Packet} (h : Local id W (.put key value next)) :
    (∃ purpose ∈ W, key = cell id purpose) ∧ Local id W next := by
  obtain ⟨R, ⟨purpose, hpurpose, hcell⟩, hnext⟩ := h
  exact ⟨⟨purpose, hpurpose, hcell.symm⟩, R, hnext⟩

theorem harmless_of_block_ne {store : Ssbd.Cell → Option Buf} {id id' : BlockId}
    {purpose : Ssbd.Purpose} {value : Option Buf} (h : id' ≠ id) :
    Harmless id' store (Function.update store (cell id purpose) value) :=
  harmless_of_ne fun _ _ heq ↦ h (cell_inj heq).1.symm

theorem harmless_replica {store : Ssbd.Cell → Option Buf} {id id' : BlockId} {value : Option Buf} :
    Harmless id' store (Function.update store (cell id .replica) value) :=
  harmless_of_ne fun _ hpurpose heq ↦ hpurpose (cell_inj heq).2.symm

end Slsfs.Datafunction.Threaded

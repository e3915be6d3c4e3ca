import Slsfs.Datafunction.Coordinator

/-!
# One request and its messages

A `Job` is a write of `storage_conf_ssbd_backend` together with every message it sends: the
prepares, the commits of each call of `start_2pc_commit` and the copies of each call of
`start_replication`. A `ReadJob` is a read with its gets. A message has a `Life`: it is sent, the
server answers, and the callback of the answer runs. Which server answers what is not decided here;
`Job.step` accepts any answer, so that `Job.Inv` holds whatever the servers do.

Each callback and each round of the prepare loop is one step. The loops of `start_2pc_commit` and
`start_replication` run inside the callback that calls them.
-/

namespace Slsfs.Datafunction

open LeveldbPack

/-! ## The messages of a write

The configuration is that of the JSON file of the storage: how large a block is, how many copies
there are, how many hosts, and which of them `select_replica` draws for a block and a copy. A
message is named by a `WriteTicket`, which says what it is for; so an answer is always that of its
own request here. How the answers of a connection find their requests is in `Backend`. -/

/-- What a deployment of datafunctions and servers fixes. The offset within a block travels in 16
bits, so the block size is taken to be at most 65536. -/
structure Config where
  blocksize : ℕ
  blocksize_pos : 0 < blocksize
  blocksize_le : blocksize ≤ 2 ^ 16
  replicationSize : ℕ
  /-- `replication_start_index_`: how many hosts there are. -/
  hosts : ℕ
  /-- The draw of the engine seeded with the file id, by block and replica. -/
  selectReplica : Key → ℕ → ℕ → Fin hosts

/-- The messages of a write: the prepare of a block, and the commits and copies of a block, by the
call of `start_2pc_commit` they come from. -/
inductive WriteTicket where
  | vote (j : ℕ)
  | commit (call j : ℕ)
  | replica (call j index : ℕ)
  deriving DecidableEq

def WriteTicket.isReplica : WriteTicket → Bool
  | .replica _ _ _ => true
  | _ => false

/-- How far a message has come, with its packet or the packet of its answer. -/
inductive Life where
  | unsent
  | requested (pack : Packet)
  | answered (response : Packet)
  | done (response : Packet)
  deriving DecidableEq

/-- The server has handled the message. -/
def Life.handled : Life → Bool
  | .answered _ | .done _ => true
  | _ => false

/-- The callback of the message has run. -/
def Life.isDone : Life → Bool
  | .done _ => true
  | _ => false

/-- The answer, once the server has handled the message. -/
def Life.reply : Life → Option Packet
  | .answered response | .done response => some response
  | _ => none

theorem Life.handled_iff {l : Life} : l.handled = true ↔ ∃ response, l.reply = some response := by
  cases l <;> simp [Life.handled, Life.reply]

theorem Life.reply_update {ι : Type*} [DecidableEq ι] {life : ι → Life} {t i : ι} {l : Life}
    {response : Packet} (h : (Function.update life t l i).reply = some response) :
    (life i).reply = some response ∨ i = t ∧ l.reply = some response := by
  by_cases hi : i = t
  · rw [hi, Function.update_self] at h
    exact .inr ⟨hi, h⟩
  · rw [Function.update_of_ne hi] at h
    exact .inl h

theorem Life.isDone_iff {l : Life} : l.isDone = true ↔ ∃ response, l = .done response := by
  cases l <;> simp [Life.isDone]

/-- The type of the answer the callback has seen. -/
def Life.seen : Life → Option MsgT
  | .done response => some response.header.type
  | _ => none

namespace Write

variable (w : Write) (salt : Salt)

def preparePacket (checked : Bool) (c : Chunk) : Packet :=
  { Packet.createRequest w.input.uuid (if checked then .twoPcPrepareQuick else .twoPcPrepare)
      w.selectedVersion c.blockid c.offset c.length salt with data := w.input.slice c }

def commitPacket (agree : Bool) (c : Chunk) : Packet :=
  Packet.createRequest w.input.uuid (if agree then .twoPcCommitExecute else .twoPcCommitRollback)
    w.selectedVersion c.blockid c.offset 0 salt

/-- The request of `start_replication`. Nothing is ever put into its buffer. -/
def replicaPacket (c : Chunk) : Packet :=
  Packet.createRequest w.input.uuid .replication w.selectedVersion c.blockid c.offset c.length salt

end Write

/-- A write and its messages. -/
structure Job where
  write : Write
  /-- The salt that `create_request` draws for each message. -/
  salt : WriteTicket → Salt
  life : WriteTicket → Life

namespace Job

def start (coordinator : ℕ) (input : WriteRequest) (version : UInt32)
    (salt : WriteTicket → Salt) : Job :=
  ⟨.start coordinator input version, salt, fun _ ↦ .unsent⟩

def chunks (cfg : Config) (job : Job) : List Chunk := job.write.input.chunks cfg.blocksize

/-- `start_send_request`, on the side of the coordinator. -/
def request (job : Job) (t : WriteTicket) (pack : Packet) : Job :=
  { job with life := Function.update job.life t (.requested pack) }

def requestAll (job : Job) (requests : List (WriteTicket × Packet)) : Job :=
  requests.foldl (fun job r ↦ job.request r.1 r.2) job

/-- One round of the loop of `start_2pc_prepare`, and the message it sends. The prepare is a quick
one if the file is checked. -/
def sendPrepare (cfg : Config) (checked : Bool) (job : Job) : Option (Job × List WriteTicket) :=
  match (job.chunks cfg)[job.write.sent]? with
  | none => none
  | some c =>
    let t := .vote job.write.sent
    some ({ job with write := job.write.sendOne }.request t
      (job.write.preparePacket (job.salt t) checked c), [t])

/-- The messages of one call of `start_2pc_commit`. -/
def commitRequests (cfg : Config) (job : Job) (call : ℕ) (agree : Bool) :
    List (WriteTicket × Packet) :=
  (job.chunks cfg).zipIdx.map fun cj ↦
    (.commit call cj.2, job.write.commitPacket (job.salt (.commit call cj.2)) agree cj.1)

/-- The messages of `start_replication`. Replica 0 is the block itself. -/
def replicaRequests (cfg : Config) (job : Job) (call : ℕ) : List (WriteTicket × Packet) :=
  (job.chunks cfg).zipIdx.flatMap fun cj ↦
    (List.range' 1 (cfg.replicationSize - 1)).map fun index ↦
      (.replica call cj.2 index,
        job.write.replicaPacket (job.salt (.replica call cj.2 index)) cj.1)

/-- The callback of a prepare; the one that brings the counter to zero sends the commits. -/
def onVote (cfg : Config) (job : Job) (type : MsgT) : Job × List WriteTicket :=
  let w := job.write.onVote cfg.blocksize type
  if job.write.outstandingRequests = 1 then
    let requests := commitRequests cfg { job with write := w } job.write.commits.length
      w.allSsbdAgree
    ({ job with write := w }.requestAll requests, requests.map Prod.fst)
  else ({ job with write := w }, [])

/-- The callback of a commit; the last one of a call that executed starts the replication. Its
answer is not looked at, since `next` is null. -/
def onCommitAck (cfg : Config) (job : Job) (call : ℕ) : Job × List WriteTicket :=
  match job.write.commits[call]? with
  | none => (job, [])
  | some ⟨agree, outstanding⟩ =>
    let w := { job.write with commits := job.write.commits.set call ⟨agree, outstanding - 1⟩ }
    -- every other answer only counts down
    if outstanding = 1 ∧ agree = true ∧ 1 < cfg.replicationSize then
      let requests := replicaRequests cfg { job with write := w } call
      ({ job with write := w }.requestAll requests, requests.map Prod.fst)
    else ({ job with write := w }, [])

/-- The callback of a message. That of a copy does nothing, `next` being null. -/
def respond (cfg : Config) (job : Job) (t : WriteTicket) (response : Packet) :
    Job × List WriteTicket :=
  match t with
  | .vote _ => job.onVote cfg response.header.type
  | .commit call _ => job.onCommitAck cfg call
  | .replica _ _ _ => (job, [])

/-- The answer to a message is on its way. -/
def answer (job : Job) (t : WriteTicket) (response : Packet) : Job :=
  { job with life := Function.update job.life t (.answered response) }

@[simp] theorem answer_life (job : Job) (t : WriteTicket) (response : Packet) :
    (job.answer t response).life = Function.update job.life t (.answered response) := rfl

/-- The callback runs. -/
def callback (cfg : Config) (job : Job) (t : WriteTicket) (response : Packet) :
    Job × List WriteTicket :=
  { job with life := Function.update job.life t (.done response) }.respond cfg t response

inductive Event where
  | send (checked : Bool)
  | answer (t : WriteTicket) (response : Packet)
  | callback (t : WriteTicket)

/-- What can happen to a write. -/
def step (cfg : Config) (job : Job) : Event → Option Job
  | .send checked => (job.sendPrepare cfg checked).map Prod.fst
  | .answer t response =>
    match job.life t with
    | .requested _ => some (job.answer t response)
    | _ => none
  | .callback t =>
    match job.life t with
    | .answered response => some (job.callback cfg t response).1
    | _ => none

/-! ## What has been sent

A message is on its way exactly if the loop, or the call, that sends it has come to it. The commits
of a call and the copies of a call are lists of tickets; the lemmas below say who is in them, and
that putting such a list on its way leaves all other messages where they were. -/

variable {cfg : Config} {job : Job}

/-- The votes the callbacks have seen. -/
def ballot (job : Job) : Ballot where
  write := job.write
  votes j := (job.life (.vote j)).seen

theorem seen_update_vote (life : WriteTicket → Life) (j : ℕ) (l : Life) :
    (fun i ↦ (Function.update life (.vote j) l (.vote i)).seen)
      = Function.update (fun i ↦ (life (.vote i)).seen) j l.seen := by
  funext i
  by_cases hi : i = j
  · rw [hi, Function.update_self, Function.update_self]
  · rw [Function.update_of_ne hi, Function.update_of_ne (by simpa using hi)]

theorem seen_update_of_ne (life : WriteTicket → Life) {t : WriteTicket} (l : Life)
    (h : l.seen = (life t).seen) :
    (fun i ↦ (Function.update life t l (.vote i)).seen) = fun i ↦ (life (.vote i)).seen := by
  funext i
  by_cases hi : .vote i = t
  · rw [hi, Function.update_self, h]
  · rw [Function.update_of_ne hi]

theorem seen_update_of_not_vote (life : WriteTicket → Life) {t : WriteTicket} {l : Life}
    (h : ∀ i, .vote i ≠ t) :
    (fun i ↦ (Function.update life t l (.vote i)).seen) = fun i ↦ (life (.vote i)).seen := by
  funext i
  rw [Function.update_of_ne (h i)]

@[simp] theorem requestAll_write (job : Job) (requests : List (WriteTicket × Packet)) :
    (job.requestAll requests).write = job.write := by
  induction requests generalizing job with
  | nil => rfl
  | cons r rs ih => exact ih _

@[simp] theorem requestAll_salt (job : Job) (requests : List (WriteTicket × Packet)) :
    (job.requestAll requests).salt = job.salt := by
  induction requests generalizing job with
  | nil => rfl
  | cons r rs ih => exact ih _

private theorem requestAll_life (job : Job) (requests : List (WriteTicket × Packet))
    (t : WriteTicket) :
    (t ∉ requests.map Prod.fst ∧ (job.requestAll requests).life t = job.life t) ∨
      ∃ pack, (t, pack) ∈ requests ∧ (job.requestAll requests).life t = .requested pack := by
  induction requests generalizing job with
  | nil => exact Or.inl ⟨List.not_mem_nil, rfl⟩
  | cons r rs ih =>
    rcases ih (job.request r.1 r.2) with ⟨hnot, hlife⟩ | ⟨pack, hmem, hlife⟩
    · by_cases ht : t = r.1
      · refine Or.inr ⟨r.2, by rw [ht]; exact List.mem_cons_self, hlife.trans ?_⟩
        rw [ht]
        exact Function.update_self _ _ _
      · refine Or.inl ⟨fun h ↦ ?_, hlife.trans ?_⟩
        · rcases List.mem_cons.mp h with h | h
          · exact ht h
          · exact hnot h
        · exact Function.update_of_ne ht _ _
    · exact Or.inr ⟨pack, List.mem_cons_of_mem _ hmem, hlife⟩

private theorem mem_commitRequests {call : ℕ} {agree : Bool} {t : WriteTicket} {pack : Packet} :
    (t, pack) ∈ job.commitRequests cfg call agree ↔ ∃ j c, (job.chunks cfg)[j]? = some c ∧
      t = .commit call j ∧ pack = job.write.commitPacket (job.salt t) agree c := by
  simp only [commitRequests, List.mem_map, Prod.exists, List.mem_zipIdx_iff_getElem?, Prod.mk.injEq]
  constructor
  · rintro ⟨c, j, hc, rfl, rfl⟩
    exact ⟨j, c, hc, rfl, rfl⟩
  · rintro ⟨j, c, hc, rfl, rfl⟩
    exact ⟨c, j, hc, rfl, rfl⟩

private theorem mem_replicaRequests {call : ℕ} {t : WriteTicket} {pack : Packet} :
    (t, pack) ∈ job.replicaRequests cfg call ↔ ∃ j c index, (job.chunks cfg)[j]? = some c ∧
      (1 ≤ index ∧ index < cfg.replicationSize) ∧ t = .replica call j index ∧
      pack = job.write.replicaPacket (job.salt t) c := by
  simp only [replicaRequests, List.mem_flatMap, List.mem_map, Prod.exists,
    List.mem_zipIdx_iff_getElem?, List.mem_range'_1, Prod.mk.injEq]
  constructor
  · rintro ⟨c, j, hc, index, hindex, rfl, rfl⟩
    exact ⟨j, c, index, hc, by omega, rfl, rfl⟩
  · rintro ⟨j, c, index, hc, hindex, rfl, rfl⟩
    exact ⟨c, j, hc, index, by omega, rfl, rfl⟩

private theorem requestAll_life_of_not_mem {requests : List (WriteTicket × Packet)}
    {t : WriteTicket}
    (h : ∀ pack, (t, pack) ∉ requests) : (job.requestAll requests).life t = job.life t := by
  rcases requestAll_life job requests t with ⟨-, hlife⟩ | ⟨pack, hmem, -⟩
  · exact hlife
  · exact absurd hmem (h pack)

private theorem commitRequests_life_of_some {call j : ℕ} {agree : Bool} {c : Chunk}
    (hc : (job.chunks cfg)[j]? = some c) :
    (job.requestAll (job.commitRequests cfg call agree)).life (.commit call j)
      = .requested (job.write.commitPacket (job.salt (.commit call j)) agree c) := by
  have hmem : (.commit call j, job.write.commitPacket (job.salt (.commit call j)) agree c)
      ∈ job.commitRequests cfg call agree := mem_commitRequests.mpr ⟨j, c, hc, rfl, rfl⟩
  rcases requestAll_life job (job.commitRequests cfg call agree) (.commit call j) with
    ⟨hnot, -⟩ | ⟨pack, hpack, hlife⟩
  · exact absurd (List.mem_map_of_mem (f := Prod.fst) hmem) hnot
  · obtain ⟨j', c', hc', ht, rfl⟩ := mem_commitRequests.mp hpack
    cases ht
    rw [hc, Option.some_inj] at hc'
    rw [hlife, hc']

private theorem commitRequests_life_of_ne {call : ℕ} {agree : Bool} {t : WriteTicket}
    (h : ∀ j < (job.chunks cfg).length, t ≠ .commit call j) :
    (job.requestAll (job.commitRequests cfg call agree)).life t = job.life t := by
  refine requestAll_life_of_not_mem fun pack hmem ↦ ?_
  obtain ⟨j, c, hc, ht, -⟩ := mem_commitRequests.mp hmem
  exact h j (List.getElem?_eq_some_iff.mp hc).1 ht

theorem step_cases {job' : Job} {e : Event} (h : job.step cfg e = some job') :
    (∃ checked c, e = .send checked ∧ (job.chunks cfg)[job.write.sent]? = some c ∧
      job' = { job with
        write := job.write.sendOne
        life := Function.update job.life (.vote job.write.sent)
          (.requested (job.write.preparePacket (job.salt (.vote job.write.sent)) checked c)) }) ∨
    (∃ t pack response, e = .answer t response ∧ job.life t = .requested pack ∧
      job' = { job with life := Function.update job.life t (.answered response) }) ∨
    (∃ t response, e = .callback t ∧ job.life t = .answered response ∧
      job' = (job.callback cfg t response).1) := by
  cases e with
  | send checked =>
    obtain ⟨out, hout, rfl⟩ := Option.map_eq_some_iff.mp h
    rw [sendPrepare] at hout
    cases hc : (job.chunks cfg)[job.write.sent]? with
    | none => rw [hc] at hout; cases hout
    | some c =>
      rw [hc] at hout
      cases hout
      exact Or.inl ⟨checked, c, rfl, rfl, rfl⟩
  | answer t response =>
    cases hlife : job.life t with
    | requested pack =>
      simp only [step, hlife, Option.some_inj] at h
      exact Or.inr (Or.inl ⟨t, pack, response, rfl, hlife, h.symm⟩)
    | unsent | answered | done => simp only [step, hlife, reduceCtorEq] at h
  | callback t =>
    cases hlife : job.life t with
    | answered response =>
      simp only [step, hlife, Option.some_inj] at h
      exact Or.inr (Or.inr ⟨t, response, rfl, hlife, h.symm⟩)
    | unsent | requested | done => simp only [step, hlife, reduceCtorEq] at h

/-! ## The callbacks

What the callback of a message does to the write, and to the messages. The callback of a prepare may
send the commits of a new call, that of a commit may send copies, and that of a copy sends nothing.
So a prepare is sent by the loop only, and a commit by a decision only. -/

private theorem onVote_life_of_ne (type : MsgT) {t : WriteTicket}
    (h : job.write.outstandingRequests = 1 → ∀ j, t ≠ .commit job.write.commits.length j) :
    (job.onVote cfg type).1.life t = job.life t := by
  by_cases hone : job.write.outstandingRequests = 1
  · simp only [onVote, if_pos hone]
    exact commitRequests_life_of_ne fun j _ ↦ h hone j
  · simp only [onVote, if_neg hone]

private theorem onVote_life_of_some (type : MsgT) {j : ℕ} {c : Chunk}
    (hone : job.write.outstandingRequests = 1) (hc : (job.chunks cfg)[j]? = some c) :
    (job.onVote cfg type).1.life (.commit job.write.commits.length j)
      = .requested (job.write.commitPacket (job.salt (.commit job.write.commits.length j))
          (job.write.onVote cfg.blocksize type).allSsbdAgree c) := by
  simp only [onVote, if_pos hone]
  rw [commitRequests_life_of_some (c := c) (by simpa [chunks] using hc)]
  simp [Write.commitPacket]

private theorem onCommitAck_life (cfg : Config) (job : Job) (call : ℕ) (t : WriteTicket) :
    (job.onCommitAck cfg call).1.life t = job.life t ∨
      ∃ j index c, t = .replica call j index ∧ (job.chunks cfg)[j]? = some c ∧
        (1 ≤ index ∧ index < cfg.replicationSize) ∧
        (job.onCommitAck cfg call).1.life t
          = .requested (job.write.replicaPacket (job.salt t) c) := by
  simp only [onCommitAck]
  split
  · exact Or.inl rfl
  · split
    · rename_i agree outstanding _ _
      let w := { job.write with commits := job.write.commits.set call ⟨agree, outstanding - 1⟩ }
      rcases requestAll_life { job with write := w }
        (replicaRequests cfg { job with write := w } call) t with
        ⟨-, hlife⟩ | ⟨pack, hmem, hlife⟩
      · exact Or.inl hlife
      · obtain ⟨j, c, index, hc, hindex, rfl, rfl⟩ := mem_replicaRequests.mp hmem
        exact Or.inr ⟨j, index, c, rfl, hc, hindex, hlife⟩
    · exact Or.inl rfl

section Callback

variable (cfg job) (response : Packet)

@[simp] theorem callback_salt (t : WriteTicket) :
    (job.callback cfg t response).1.salt = job.salt := by
  cases t with
  | vote j => simp only [callback, respond, onVote]; split <;> simp
  | commit call j =>
    simp only [callback, respond, onCommitAck]
    split
    · rfl
    · split <;> simp
  | replica call j index => rfl

theorem callback_vote_write (j : ℕ) : (job.callback cfg (.vote j) response).1.write
    = job.write.onVote cfg.blocksize response.header.type := by
  simp only [callback, respond, onVote]; split <;> simp

theorem callback_commit_write (call j : ℕ) :
    ∃ commits, (job.callback cfg (.commit call j) response).1.write = { job.write with commits } ∧
      commits.map CommitCall.allSsbdAgree = job.write.commits.map CommitCall.allSsbdAgree := by
  simp only [callback, respond, onCommitAck]
  cases hcall : job.write.commits[call]? with
  | none => exact ⟨job.write.commits, rfl, rfl⟩
  | some c =>
    refine ⟨job.write.commits.set call ⟨c.allSsbdAgree, c.outstandingRequests - 1⟩, ?_, ?_⟩
    · by_cases hlast : c.outstandingRequests = 1 ∧ c.allSsbdAgree = true ∧ 1 < cfg.replicationSize
      · simp only [if_pos hlast, requestAll_write]
      · simp only [if_neg hlast]
    · obtain ⟨hlt, rfl⟩ := List.getElem?_eq_some_iff.mp hcall
      rw [List.map_set]
      have hmap : call < (job.write.commits.map CommitCall.allSsbdAgree).length := by
        simpa using hlt
      have hset := List.set_getElem_self hmap
      rwa [List.getElem_map] at hset

theorem callback_replica (call j index : ℕ) : job.callback cfg (.replica call j index) response
      = ({ job with
        life := Function.update job.life (.replica call j index) (.done response) }, []) :=
  rfl

theorem callback_life_vote (t : WriteTicket) (i : ℕ) :
    (job.callback cfg t response).1.life (.vote i)
      = Function.update job.life t (.done response) (.vote i) := by
  cases t with
  | vote j => exact onVote_life_of_ne _ fun _ _ ↦ by simp
  | commit call j =>
    rcases onCommitAck_life cfg { job with
      life := Function.update job.life (.commit call j) (.done response) } call (.vote i) with
      h | ⟨_, _, _, ht, -⟩
    · exact h
    · cases ht
  | replica call j index => rfl

/-- A callback that does not decide sends no commit. -/
theorem callback_life_commit {t : WriteTicket} {k i : ℕ}
    (h : (∃ j, t = .vote j) → job.write.outstandingRequests = 1 → k ≠ job.write.commits.length) :
    (job.callback cfg t response).1.life (.commit k i)
      = Function.update job.life t (.done response) (.commit k i) := by
  cases t with
  | vote j =>
    refine onVote_life_of_ne _ fun hone j' heq ↦ ?_
    cases heq
    exact h ⟨j, rfl⟩ hone rfl
  | commit call j =>
    rcases onCommitAck_life cfg { job with
      life := Function.update job.life (.commit call j) (.done response) } call (.commit k i) with
      h | ⟨_, _, _, ht, -⟩
    · exact h
    · cases ht
  | replica call j index => rfl

theorem callback_life_commit_of_some {j i : ℕ} {c : Chunk}
    (hone : job.write.outstandingRequests = 1) (hc : (job.chunks cfg)[i]? = some c) :
    (job.callback cfg (.vote j) response).1.life (.commit job.write.commits.length i)
      = .requested (job.write.commitPacket (job.salt (.commit job.write.commits.length i))
          (job.write.onVote cfg.blocksize response.header.type).allSsbdAgree c) :=
  onVote_life_of_some _ hone hc

private theorem callback_life_commit_of_none {j i : ℕ} (hone : job.write.outstandingRequests = 1)
    (hc : (job.chunks cfg)[i]? = none) :
    (job.callback cfg (.vote j) response).1.life (.commit job.write.commits.length i)
      = job.life (.commit job.write.commits.length i) := by
  simp only [callback, respond, onVote, if_pos hone]
  have hne : WriteTicket.commit job.write.commits.length i ≠ .vote j := by simp
  refine (commitRequests_life_of_ne fun j' hj' ↦ ?_).trans
    (Function.update_of_ne hne (.done response) _)
  rw [List.getElem?_eq_none_iff] at hc
  simp only [chunks, Write.onVote_input] at hj' hc
  simp only [ne_eq, WriteTicket.commit.injEq, not_and]
  omega

private theorem callback_life_replica (t : WriteTicket) (k i r : ℕ) :
    (job.callback cfg t response).1.life (.replica k i r)
        = Function.update job.life t (.done response) (.replica k i r) ∨
      ∃ c, (job.chunks cfg)[i]? = some c ∧ (1 ≤ r ∧ r < cfg.replicationSize) ∧
        (job.callback cfg t response).1.life (.replica k i r)
          = .requested (job.write.replicaPacket (job.salt (.replica k i r)) c) := by
  cases t with
  | vote j => exact Or.inl (onVote_life_of_ne _ fun _ _ ↦ by simp)
  | commit call j =>
    rcases onCommitAck_life cfg { job with
      life := Function.update job.life (.commit call j) (.done response) } call (.replica k i r)
      with h | ⟨j', index, c, ht, hc, hindex, hlife⟩
    · exact Or.inl h
    · cases ht
      exact Or.inr ⟨c, hc, hindex, hlife⟩
  | replica call j index => exact Or.inl rfl

end Callback

/-! ## The messages of a write, in every run

`Inv` ties the two halves of a job together: the counters of the write (`Ballot.Inv`) and the lives
of the messages. A prepare that has not been sent has no life, a commit belongs to a call that has
been made and carries its decision, and the votes that the counters know of are those of the
prepares whose callbacks have run.

Nothing is assumed about the servers or about the order of the callbacks, so the invariant holds in
the runs in which the coordinator decides too early as well. -/

/-- Which messages have been sent and with which packets. -/
structure Inv (cfg : Config) (job : Job) : Prop where
  ballot : Ballot.Inv cfg.blocksize job.ballot
  vote_sent : ∀ j, job.life (.vote j) ≠ .unsent ↔ j < job.write.sent
  vote_pack : ∀ j pack, job.life (.vote j) = .requested pack →
    ∃ checked c, (job.chunks cfg)[j]? = some c ∧
      pack = job.write.preparePacket (job.salt (.vote j)) checked c
  commit_sent : ∀ k j, job.life (.commit k j) ≠ .unsent ↔
    k < job.write.commits.length ∧ j < (job.chunks cfg).length
  commit_pack : ∀ k j pack, job.life (.commit k j) = .requested pack →
    ∃ call c, job.write.commits[k]? = some call ∧ (job.chunks cfg)[j]? = some c ∧
      pack = job.write.commitPacket (job.salt (.commit k j)) call.allSsbdAgree c
  replica_pack : ∀ k j r pack, job.life (.replica k j r) = .requested pack →
    ∃ c, (job.chunks cfg)[j]? = some c ∧
      pack = job.write.replicaPacket (job.salt (.replica k j r)) c

theorem inv_start (coordinator : ℕ) (input : WriteRequest) (version : UInt32)
    (salt : WriteTicket → Salt) : Inv cfg (start coordinator input version salt) where
  ballot := Ballot.inv_start coordinator input version
  vote_sent j := by simp [start, Write.start]
  vote_pack j pack h := by cases h
  commit_sent k j := by simp [start, Write.start]
  commit_pack k j pack h := by cases h
  replica_pack k j r pack h := by cases h

/-- The invariant does not look at the counters of the commit calls. -/
private theorem ballotInv_of_commits {blocksize : ℕ} {s : Ballot} (h : Ballot.Inv blocksize s)
    {commits : List CommitCall}
    (hmap : commits.map CommitCall.allSsbdAgree = s.write.commits.map CommitCall.allSsbdAgree) :
    Ballot.Inv blocksize ⟨{ s.write with commits }, s.votes⟩ where
  sent_le := h.sent_le
  unsent := h.unsent
  outstanding := h.outstanding
  agree := h.agree
  replies := by
    have hcomp : ∀ l : List CommitCall, (l.map fun c ↦ if c.allSsbdAgree then Write.ok
        else Write.foundPending) = (l.map CommitCall.allSsbdAgree).map fun b ↦
          if b then Write.ok else Write.foundPending := by simp
    rw [hcomp, hmap, ← hcomp]
    exact h.replies
  refused c hc hagree := by
    have hmem := List.mem_map_of_mem (f := CommitCall.allSsbdAgree) hc
    rw [hmap] at hmem
    obtain ⟨c', hc', heq⟩ := List.mem_map.mp hmem
    rw [← heq]
    exact h.refused c' hc' hagree
  decided hpos hall hnil := by
    refine h.decided hpos hall ?_
    have hlen := congrArg List.length hmap
    simp only [List.length_map] at hlen hnil
    exact List.eq_nil_of_length_eq_zero (by rw [← hlen, hnil]; rfl)
  opened hne := by
    refine h.opened fun hnil ↦ hne ?_
    rw [hnil] at hmap
    exact List.map_eq_nil_iff.mp hmap

private theorem inv_send (hinv : Inv cfg job) {checked : Bool} {c : Chunk}
    (hc : (job.chunks cfg)[job.write.sent]? = some c) :
    Inv cfg { job with
      write := job.write.sendOne
      life := Function.update job.life (.vote job.write.sent)
        (.requested (job.write.preparePacket (job.salt (.vote job.write.sent)) checked c)) } := by
  have hunsent : job.life (.vote job.write.sent) = .unsent := by
    by_contra h
    exact absurd ((hinv.vote_sent _).mp h) (lt_irrefl _)
  refine ⟨?_, fun j ↦ ?_, fun j pack h ↦ ?_, fun k j ↦ ?_, fun k j pack h ↦ ?_,
    fun k j r pack h ↦ ?_⟩
  · have hstep : Ballot.step cfg.blocksize job.ballot .send
        = some { job.ballot with write := job.write.sendOne } :=
      if_pos (List.getElem?_eq_some_iff.mp hc).1
    have hvotes := seen_update_of_ne job.life (t := .vote job.write.sent)
      (.requested (job.write.preparePacket (job.salt (.vote job.write.sent)) checked c))
      (by rw [hunsent]; rfl)
    have hnext := Ballot.inv_step _ _ _ hstep hinv.ballot
    rw [ballot] at hnext ⊢
    rw [hvotes]
    exact hnext
  · dsimp only
    by_cases hj : j = job.write.sent
    · simp [hj]
    · rw [Function.update_of_ne (by simpa using hj), hinv.vote_sent j, Write.sendOne_sent]
      omega
  · dsimp only at h
    by_cases hj : j = job.write.sent
    · subst hj
      rw [Function.update_self] at h
      cases h
      exact ⟨checked, c, hc, rfl⟩
    · rw [Function.update_of_ne (by simpa using hj)] at h
      exact hinv.vote_pack j pack h
  · dsimp only
    rw [Function.update_of_ne (by simp)]
    exact hinv.commit_sent k j
  · dsimp only at h
    rw [Function.update_of_ne (by simp)] at h
    exact hinv.commit_pack k j pack h
  · dsimp only at h
    rw [Function.update_of_ne (by simp)] at h
    exact hinv.replica_pack k j r pack h

/-- A message that moves on keeps everything: it was sent before, it is not on its way to the server
any more, and `votes` says what happens to the ballot. -/
private theorem inv_update (hinv : Inv cfg job) {t : WriteTicket} {l : Life}
    (ht : job.life t ≠ .unsent) (hl : l ≠ .unsent) (hpack : ∀ pack, l ≠ .requested pack)
    (hballot : Ballot.Inv cfg.blocksize
      ⟨job.write, fun i ↦ (Function.update job.life t l (.vote i)).seen⟩) :
    Inv cfg { job with life := Function.update job.life t l } := by
  have hne : ∀ t', Function.update job.life t l t' ≠ .unsent ↔ job.life t' ≠ .unsent := by
    intro t'
    by_cases h : t' = t
    · rw [h, Function.update_self]
      exact ⟨fun _ ↦ ht, fun _ ↦ hl⟩
    · rw [Function.update_of_ne h]
  have hreq : ∀ t' pack, Function.update job.life t l t' = .requested pack →
      job.life t' = .requested pack := by
    intro t' pack h
    by_cases h' : t' = t
    · rw [h', Function.update_self] at h
      exact absurd h (hpack pack)
    · rwa [Function.update_of_ne h'] at h
  exact ⟨hballot, fun j ↦ (hne _).trans (hinv.vote_sent j),
    fun j pack h ↦ hinv.vote_pack j pack (hreq _ _ h),
    fun k j ↦ (hne _).trans (hinv.commit_sent k j),
    fun k j pack h ↦ hinv.commit_pack k j pack (hreq _ _ h),
    fun k j r pack h ↦ hinv.replica_pack k j r pack (hreq _ _ h)⟩

private theorem inv_answer (hinv : Inv cfg job) {t : WriteTicket} {pack response : Packet}
    (ht : job.life t = .requested pack) :
    Inv cfg { job with life := Function.update job.life t (.answered response) } := by
  refine inv_update hinv (by rw [ht]; simp) (by simp) (by simp) ?_
  rw [seen_update_of_ne _ _ (by rw [ht]; rfl)]
  exact hinv.ballot

private theorem ballotInv_callback (hinv : Inv cfg job) {j : ℕ} {response : Packet}
    (ht : job.life (.vote j) = .answered response) :
    Ballot.Inv cfg.blocksize ⟨job.write.onVote cfg.blocksize response.header.type,
      fun i ↦ (Function.update job.life (.vote j) (.done response) (.vote i)).seen⟩ := by
  have hsent : j < job.write.sent := (hinv.vote_sent j).mp (by rw [ht]; simp)
  have hnone : job.ballot.votes j = none := by
    simp only [ballot, ht]
    rfl
  have hstep : Ballot.step cfg.blocksize job.ballot (.respond j response.header.type)
      = some ⟨job.write.onVote cfg.blocksize response.header.type,
          Function.update job.ballot.votes j (some response.header.type)⟩ := if_pos ⟨hsent, hnone⟩
  rw [seen_update_vote]
  exact Ballot.inv_step _ _ _ hstep hinv.ballot

private theorem inv_callback_vote (hinv : Inv cfg job) {j : ℕ} {response : Packet}
    (ht : job.life (.vote j) = .answered response) :
    Inv cfg (job.callback cfg (.vote j) response).1 := by
  have hwrite := callback_vote_write cfg job response j
  have hvote := callback_life_vote cfg job response (.vote j)
  have hchunks : (job.callback cfg (.vote j) response).1.chunks cfg = job.chunks cfg := by
    rw [chunks, hwrite, Write.onVote_input, chunks]
  have hlength : (job.callback cfg (.vote j) response).1.write.commits.length
      = job.write.commits.length + if job.write.outstandingRequests = 1 then 1 else 0 := by
    rw [hwrite, Write.onVote_commits]
    split <;> simp
  refine ⟨?_, fun i ↦ ?_, fun i pack h ↦ ?_, fun k i ↦ ?_, fun k i pack h ↦ ?_,
    fun k i r pack h ↦ ?_⟩
  · rw [ballot, hwrite]
    simp only [hvote]
    exact ballotInv_callback hinv ht
  · rw [hvote, hwrite, Write.onVote_sent, ← hinv.vote_sent i]
    by_cases hi : i = j
    · simp [hi, ht]
    · rw [Function.update_of_ne (by simpa using hi)]
  · rw [hvote] at h
    by_cases hi : i = j
    · rw [hi, Function.update_self] at h
      cases h
    · rw [Function.update_of_ne (by simpa using hi)] at h
      obtain ⟨checked, c, hc, rfl⟩ := hinv.vote_pack i pack h
      refine ⟨checked, c, by rw [hchunks, hc], ?_⟩
      rw [hwrite, callback_salt]
      simp [Write.preparePacket, WriteRequest.slice]
  · rw [hchunks, hlength]
    by_cases hnew : job.write.outstandingRequests = 1 ∧ k = job.write.commits.length
    · -- a commit of the new call
      obtain ⟨hone, rfl⟩ := hnew
      rw [if_pos hone]
      cases hc : (job.chunks cfg)[i]? with
      | some c =>
        rw [callback_life_commit_of_some cfg job response hone hc]
        simp [(List.getElem?_eq_some_iff.mp hc).1]
      | none =>
        rw [callback_life_commit_of_none cfg job response hone hc, hinv.commit_sent]
        rw [List.getElem?_eq_none_iff] at hc
        omega
    · rw [callback_life_commit cfg job response (fun _ hone hk ↦ hnew ⟨hone, hk⟩),
        Function.update_of_ne (by simp), hinv.commit_sent]
      split
      · rename_i hone
        have : k ≠ job.write.commits.length := fun hk ↦ hnew ⟨hone, hk⟩
        omega
      · omega
  · by_cases hnew : job.write.outstandingRequests = 1 ∧ k = job.write.commits.length
    · obtain ⟨hone, rfl⟩ := hnew
      cases hc : (job.chunks cfg)[i]? with
      | some c =>
        rw [callback_life_commit_of_some cfg job response hone hc, Life.requested.injEq] at h
        refine ⟨⟨(job.write.onVote cfg.blocksize response.header.type).allSsbdAgree,
          (job.chunks cfg).length⟩, c, ?_, by rw [hchunks, hc], ?_⟩
        · rw [hwrite, Write.onVote_commits, if_pos hone]
          simp [chunks]
        · rw [← h, hwrite, callback_salt]
          simp [Write.commitPacket]
      | none =>
        rw [callback_life_commit_of_none cfg job response hone hc] at h
        have hlt := ((hinv.commit_sent _ i).mp (by rw [h]; simp)).1
        exact absurd hlt (lt_irrefl _)
    · rw [callback_life_commit cfg job response (fun _ hone hk ↦ hnew ⟨hone, hk⟩),
        Function.update_of_ne (by simp)] at h
      obtain ⟨call, c, hcall, hc, rfl⟩ := hinv.commit_pack k i pack h
      refine ⟨call, c, ?_, by rw [hchunks, hc], ?_⟩
      · rw [hwrite, Write.onVote_commits]
        split
        · rw [List.getElem?_append_left (List.getElem?_eq_some_iff.mp hcall).1, hcall]
        · exact hcall
      · rw [hwrite, callback_salt]
        simp [Write.commitPacket]
  · rcases callback_life_replica cfg job response (.vote j) k i r with hlife | ⟨c, hc, -, hlife⟩
    · rw [hlife, Function.update_of_ne (by simp)] at h
      obtain ⟨c, hc, rfl⟩ := hinv.replica_pack k i r pack h
      refine ⟨c, by rw [hchunks, hc], ?_⟩
      rw [hwrite, callback_salt]
      simp [Write.replicaPacket]
    · rw [hlife, Life.requested.injEq] at h
      refine ⟨c, by rw [hchunks, hc], ?_⟩
      rw [← h, hwrite, callback_salt]
      simp [Write.replicaPacket]

private theorem inv_callback_commit (hinv : Inv cfg job) {call j : ℕ} {response : Packet}
    (ht : job.life (.commit call j) = .answered response) :
    Inv cfg (job.callback cfg (.commit call j) response).1 := by
  obtain ⟨commits, hwrite, hmap⟩ := callback_commit_write cfg job response call j
  have hvote := callback_life_vote cfg job response (.commit call j)
  have hchunks : (job.callback cfg (.commit call j) response).1.chunks cfg = job.chunks cfg := by
    rw [chunks, hwrite, chunks]
  have hlength : commits.length = job.write.commits.length := by
    simpa using congrArg List.length hmap
  have hcommit : ∀ k i, (job.callback cfg (.commit call j) response).1.life (.commit k i)
      = Function.update job.life (.commit call j) (.done response) (.commit k i) := fun k i ↦
    callback_life_commit cfg job response (by simp)
  refine ⟨?_, fun i ↦ ?_, fun i pack h ↦ ?_, fun k i ↦ ?_, fun k i pack h ↦ ?_,
    fun k i r pack h ↦ ?_⟩
  · rw [ballot, hwrite]
    simp only [hvote]
    rw [seen_update_of_not_vote _ (by simp)]
    exact ballotInv_of_commits hinv.ballot hmap
  · rw [hvote, hwrite, Function.update_of_ne (by simp)]
    exact hinv.vote_sent i
  · rw [hvote, Function.update_of_ne (by simp)] at h
    obtain ⟨checked, c, hc, rfl⟩ := hinv.vote_pack i pack h
    refine ⟨checked, c, by rw [hchunks, hc], ?_⟩
    rw [hwrite, callback_salt]
    rfl
  · rw [hcommit, hchunks, hwrite, hlength, ← hinv.commit_sent k i]
    by_cases hki : (.commit k i : WriteTicket) = .commit call j
    · simp [hki, ht]
    · rw [Function.update_of_ne hki]
  · rw [hcommit] at h
    by_cases hki : (.commit k i : WriteTicket) = .commit call j
    · rw [hki, Function.update_self] at h
      cases h
    · rw [Function.update_of_ne hki] at h
      obtain ⟨c, chunk, hc, hchunk, rfl⟩ := hinv.commit_pack k i pack h
      have hagree : (commits.map CommitCall.allSsbdAgree)[k]? = some c.allSsbdAgree := by
        rw [hmap, List.getElem?_map, hc]
        rfl
      rw [List.getElem?_map] at hagree
      obtain ⟨c', hc', heq⟩ := Option.map_eq_some_iff.mp hagree
      refine ⟨c', chunk, by rw [hwrite]; exact hc', by rw [hchunks, hchunk], ?_⟩
      rw [hwrite, callback_salt, heq]
      rfl
  · rcases callback_life_replica cfg job response (.commit call j) k i r with
      hlife | ⟨c, hc, -, hlife⟩
    · rw [hlife, Function.update_of_ne (by simp)] at h
      obtain ⟨c, hc, rfl⟩ := hinv.replica_pack k i r pack h
      refine ⟨c, by rw [hchunks, hc], ?_⟩
      rw [hwrite, callback_salt]
      rfl
    · rw [hlife, Life.requested.injEq] at h
      refine ⟨c, by rw [hchunks, hc], ?_⟩
      rw [← h, hwrite, callback_salt]
      rfl

theorem inv_step (job : Job) (e : Event) (job' : Job) (h : job.step cfg e = some job')
    (hinv : Inv cfg job) : Inv cfg job' := by
  rcases step_cases h with ⟨checked, c, -, hc, rfl⟩ | ⟨t, pack, response, -, ht, rfl⟩ |
    ⟨t, response, -, ht, rfl⟩
  · exact inv_send hinv hc
  · exact inv_answer hinv ht
  · cases t with
    | vote j => exact inv_callback_vote hinv ht
    | commit call j => exact inv_callback_commit hinv ht
    | replica call j index =>
      rw [callback_replica]
      refine inv_update hinv (by rw [ht]; simp) (by simp) (by simp) ?_
      rw [seen_update_of_not_vote _ (by simp)]
      exact hinv.ballot

theorem Inv.allSsbdAgree (hinv : Inv cfg job)
    (hall : ∀ j < (job.chunks cfg).length, (job.life (.vote j)).seen = some .twoPcPrepareAgree) :
    job.write.allSsbdAgree = true := by
  refine hinv.ballot.agree.mpr fun i type hi ↦ ?_
  by_cases hlt : i < (job.chunks cfg).length
  · have hseen : job.ballot.votes i = some .twoPcPrepareAgree := hall i hlt
    rw [hi, Option.some_inj] at hseen
    exact hseen
  · have hnone := hinv.ballot.unsent i (hinv.ballot.sent_le.trans (Nat.le_of_not_lt hlt))
    rw [hi] at hnone
    cases hnone

/-! ## Where answers come from

A vote that is there at the end of a run was there at its start, or some step of the run brought
it. -/

private theorem reply_vote_step {job' : Job} {e : Event} (h : job.step cfg e = some job') {j : ℕ}
    {response : Packet} (hr : (job'.life (.vote j)).reply = some response) :
    (job.life (.vote j)).reply = some response ∨ e = .answer (.vote j) response := by
  rcases step_cases h with ⟨checked, c, -, hc, rfl⟩ | ⟨t, pack, answer, rfl, ht, rfl⟩ |
    ⟨t, answer, -, ht, rfl⟩
  · rcases Life.reply_update hr with hold | ⟨-, hnew⟩
    · exact Or.inl hold
    · cases hnew
  · rcases Life.reply_update hr with hold | ⟨rfl, hnew⟩
    · exact Or.inl hold
    · rw [Life.reply, Option.some_inj] at hnew
      exact Or.inr (by rw [hnew])
  · rw [callback_life_vote] at hr
    rcases Life.reply_update hr with hold | ⟨rfl, hnew⟩
    · exact Or.inl hold
    · exact Or.inl (by rw [ht]; exact hnew)

theorem reply_vote_run {job' : Job} {events : List Event}
    (h : run (step cfg) job events = some job') {j : ℕ} {response : Packet}
    (hr : (job'.life (.vote j)).reply = some response) :
    (job.life (.vote j)).reply = some response ∨ .answer (.vote j) response ∈ events := by
  induction events generalizing job with
  | nil =>
    rw [run_nil, Option.some_inj] at h
    exact Or.inl (h ▸ hr)
  | cons e es ih =>
    obtain ⟨mid, hmid, hrest⟩ := run_cons_eq_some.mp h
    rcases ih hrest with hmem | hmem
    · rcases reply_vote_step hmid hmem with hold | rfl
      · exact Or.inl hold
      · exact Or.inr List.mem_cons_self
    · exact Or.inr (List.mem_cons_of_mem _ hmem)

/-! ## A write only moves on

`Le` orders the states of one write: decisions stay, in their order, no vote against it is taken
back, and a message that has been handled stays so with the answer that it got. The results about
whole systems use it to carry what they know of a write to the end of a run. -/

/-- Later on: the request is the same, prepares and commits that have come somewhere are at least
there, and decisions stay. -/
structure Le (job job' : Job) : Prop where
  input : job'.write.input = job.write.input
  coordinator : job'.write.coordinator = job.write.coordinator
  handled : ∀ t, t.isReplica = false → (job.life t).handled = true → (job'.life t).handled = true
  done : ∀ t response, t.isReplica = false → job.life t = .done response →
    job'.life t = .done response
  commits : job.write.commits.map CommitCall.allSsbdAgree
    <+: job'.write.commits.map CommitCall.allSsbdAgree

theorem Le.refl (job : Job) : job.Le job :=
  ⟨rfl, rfl, fun _ _ h ↦ h, fun _ _ _ h ↦ h, List.prefix_refl _⟩

theorem Le.trans {job job' job'' : Job} (h : job.Le job') (h' : job'.Le job'') : job.Le job'' :=
  ⟨h'.input.trans h.input, h'.coordinator.trans h.coordinator,
    fun t ht hh ↦ h'.handled t ht (h.handled t ht hh),
    fun t r ht hd ↦ h'.done t r ht (h.done t r ht hd), h.commits.trans h'.commits⟩

variable (job) in
private theorem le_update {t : WriteTicket} {l : Life} (ht : (job.life t).handled = true →
    l.handled = true) (hd : ∀ response, job.life t ≠ .done response) :
    job.Le { job with life := Function.update job.life t l } := by
  refine ⟨rfl, rfl, fun t' _ h ↦ ?_, fun t' r _ h ↦ ?_, List.prefix_refl _⟩
  · dsimp only
    by_cases htt : t' = t
    · rw [htt, Function.update_self]
      exact ht (htt ▸ h)
    · rwa [Function.update_of_ne htt]
  · dsimp only
    by_cases htt : t' = t
    · exact absurd (htt ▸ h) (hd r)
    · rwa [Function.update_of_ne htt]

private theorem callback_life_of_sent (hinv : Inv cfg job) {t t' : WriteTicket} {response : Packet}
    (hnr : t'.isReplica = false) (hsent : job.life t' ≠ .unsent) :
    (job.callback cfg t response).1.life t' = Function.update job.life t (.done response) t' := by
  cases t' with
  | vote i => exact callback_life_vote cfg job response t i
  | commit k i =>
    refine callback_life_commit cfg job response fun _ _ hk ↦ ?_
    have := ((hinv.commit_sent k i).mp hsent).1
    omega
  | replica k i r => cases hnr

private theorem le_callback (hinv : Inv cfg job) {t : WriteTicket} {response : Packet}
    (ht : job.life t = .answered response) : job.Le (job.callback cfg t response).1 := by
  have hlife : ∀ t', t'.isReplica = false → job.life t' ≠ .unsent →
      (job.callback cfg t response).1.life t' = Function.update job.life t (.done response) t' :=
    fun t' hnr hsent ↦ callback_life_of_sent hinv hnr hsent
  have hmoved := le_update job (t := t) (l := .done response) (fun _ ↦ rfl)
    (by rw [ht]; simp)
  have hhandled : ∀ t', t'.isReplica = false → (job.life t').handled = true →
      ((job.callback cfg t response).1.life t').handled = true := by
    intro t' hnr h
    rw [hlife t' hnr (by intro hu; rw [hu] at h; cases h)]
    exact hmoved.handled t' hnr h
  have hdone : ∀ t' r, t'.isReplica = false → job.life t' = .done r →
      (job.callback cfg t response).1.life t' = .done r := by
    intro t' r hnr h
    rw [hlife t' hnr (by rw [h]; simp)]
    exact hmoved.done t' r hnr h
  cases t with
  | vote j =>
    have hwrite := callback_vote_write cfg job response j
    refine ⟨by rw [hwrite, Write.onVote_input], by rw [hwrite, Write.onVote_coordinator], hhandled,
      hdone, ?_⟩
    rw [hwrite, Write.onVote_commits]
    split
    · rw [List.map_append]
      exact List.prefix_append _ _
    · exact List.prefix_refl _
  | commit call j =>
    obtain ⟨commits, hwrite, hmap⟩ := callback_commit_write cfg job response call j
    refine ⟨by rw [hwrite], by rw [hwrite], hhandled, hdone, ?_⟩
    rw [hwrite]
    exact hmap ▸ List.prefix_refl _
  | replica call j index => exact ⟨rfl, rfl, hhandled, hdone, List.prefix_refl _⟩

theorem le_step (hinv : Inv cfg job) {job' : Job} {e : Event} (h : job.step cfg e = some job') :
    job.Le job' := by
  rcases step_cases h with ⟨checked, c, -, hc, rfl⟩ | ⟨t, pack, response, -, ht, rfl⟩ |
    ⟨t, response, -, ht, rfl⟩
  · have hunsent : job.life (.vote job.write.sent) = .unsent := by
      by_contra hne
      exact absurd ((hinv.vote_sent _).mp hne) (lt_irrefl _)
    have hmoved := le_update job (t := .vote job.write.sent)
      (l := .requested (job.write.preparePacket (job.salt (.vote job.write.sent)) checked c))
      (by rw [hunsent]; exact fun h ↦ nomatch h) (by rw [hunsent]; simp)
    exact ⟨rfl, rfl, hmoved.handled, hmoved.done, List.prefix_refl _⟩
  · exact le_update job (fun _ ↦ rfl) (by rw [ht]; simp)
  · exact le_callback hinv ht

theorem le_run {job' : Job} {events : List Event} (hinv : Inv cfg job)
    (h : run (step cfg) job events = some job') : job.Le job' := by
  induction events generalizing job with
  | nil =>
    rw [run_nil, Option.some_inj] at h
    rw [h]
    exact Le.refl _
  | cons e es ih =>
    obtain ⟨mid, hmid, hrest⟩ := run_cons_eq_some.mp h
    exact (le_step hinv hmid).trans (ih (inv_step job e mid hmid hinv) hrest)

end Job

end Slsfs.Datafunction

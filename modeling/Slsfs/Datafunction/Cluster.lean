import Slsfs.Datafunction.ReadJob
import Slsfs.Ssbd.Block

/-!
# Datafunctions and servers

Any number of datafunctions, each with the same hosts in its `backend_list_`, run reads and writes
against the servers. A step is the start of a request, one round of a send loop, a server handling
the message at the head of a connection, the callback of the answer at the head of a connection, or
a message whose write to the socket fails and whose callback runs with an error.

Messages go over the wire: the server gets what it reads from the bytes the client writes, and the
other way round. Nothing is lost on a connection that works, and its messages are handled in the
order in which they were sent. A datafunction that stops is one of which no further step is taken.

Requests are numbered in the order in which they start. The log of the handlers is a history
variable: no step looks at it. The 30 second deadlines are left out.
-/

namespace Slsfs.Datafunction

open LeveldbPack Ssbd

/-! ## The parties

A connection is the pair of a datafunction and an entry of its `backend_list_`: two queues, one of
the messages that the server has not handled yet, and one of the answers whose callbacks have not
run. The second half of the list leads to the same hosts as the first; copies go over the second
half, everything else over the first. -/

/-- An entry of the `backend_list_` of a datafunction. -/
structure Conn where
  coordinator : ℕ
  index : ℕ
  deriving DecidableEq

/-- A message of a request. -/
inductive Ticket where
  | write (w : ℕ) (t : WriteTicket)
  | read (r j : ℕ)
  deriving DecidableEq

/-- A message that a server has handled, with the type of its answer. -/
structure Handled where
  ticket : Ticket
  pack : Packet
  type : MsgT

structure Cluster where
  server : ℕ → Server
  /-- The `recoder_` of each datafunction. -/
  checked : ℕ → Key → Bool
  /-- How many requests have started. -/
  started : ℕ
  writes : ℕ → Option Job
  reads : ℕ → Option ReadJob
  /-- What has been sent and not been handled, oldest first. -/
  requests : Conn → List Ticket
  /-- What has been answered and not been seen by its callback, oldest first. -/
  responses : Conn → List Ticket
  /-- What the servers have handled, newest first. -/
  log : List Handled

/-- The block of the range that a message is about. -/
def WriteTicket.block : WriteTicket → ℕ
  | .vote j | .commit _ j | .replica _ j _ => j

/-- The index into `backend_list_`: the second half of the list is for the replicas. -/
def Config.backendIndex (cfg : Config) (uuid : Key) (c : Chunk) : WriteTicket → ℕ
  | .vote _ | .commit _ _ => cfg.selectReplica uuid c.blockid 0
  | .replica _ _ index => cfg.hosts + cfg.selectReplica uuid c.blockid index

namespace Cluster

/-- The connection a message takes. -/
def route (cfg : Config) (s : Cluster) : Ticket → Option Conn
  | .write w t =>
    match s.writes w with
    | none => none
    | some job => (job.chunks cfg)[t.block]?.map fun c ↦
        ⟨job.write.coordinator, cfg.backendIndex job.write.input.uuid c t⟩
  | .read r j =>
    match s.reads r with
    | none => none
    | some job => (job.chunks cfg)[j]?.map fun c ↦
        ⟨job.coordinator, cfg.selectReplica job.input.uuid c.blockid 0⟩

def life (s : Cluster) : Ticket → Life
  | .write w t => (s.writes w).elim .unsent fun job ↦ job.life t
  | .read r j => (s.reads r).elim .unsent fun job ↦ job.life j

/-- The messages are written to their connections, one after the other. -/
def push (cfg : Config) (s : Cluster) (ts : List Ticket) : Cluster :=
  { s with
    requests := ts.foldl (fun requests t ↦
      match s.route cfg t with
      | none => requests
      | some conn => Function.update requests conn (requests conn ++ [t])) s.requests }

/-- A message has got its answer. -/
def answer (s : Cluster) (t : Ticket) (response : Packet) : Cluster :=
  match t with
  | .write w t =>
    { s with
      writes := Function.update s.writes w ((s.writes w).map fun job ↦ job.answer t response) }
  | .read r j =>
    { s with
      reads := Function.update s.reads r ((s.reads r).map fun job ↦ job.answer j response) }

/-- The recoder after the callback of a message of a write: the callback that decides marks the
file as checked or erases the mark. -/
def recode (cfg : Config) (s : Cluster) (job : Job) (t : WriteTicket) (response : Packet) :
    ℕ → Key → Bool :=
  match t with
  | .vote _ =>
    let w := job.write
    if w.outstandingRequests = 1 then
      Function.update s.checked w.coordinator (Function.update (s.checked w.coordinator)
        w.input.uuid (w.onVote cfg.blocksize response.header.type).allSsbdAgree)
    else s.checked
  | _ => s.checked

/-- The callback of a message runs. -/
def finish (cfg : Config) (s : Cluster) (t : Ticket) (response : Packet) : Cluster :=
  match t with
  | .write w t =>
    match s.writes w with
    | none => s
    | some job =>
      let out := job.callback cfg t response
      push cfg { s with
        checked := recode cfg s job t response
        writes := Function.update s.writes w (some out.1) } (out.2.map (.write w))
  | .read r j =>
    { s with
      reads := Function.update s.reads r ((s.reads r).map fun job ↦ job.callback j response) }

/-- The server behind a connection handles a packet. -/
def deliver (cfg : Config) (s : Cluster) (t : Ticket) (conn : Conn) (stray : ℕ → UInt8)
    (arrived : Packet) : Option Cluster :=
  let host := conn.index % cfg.hosts
  let out := (s.server host).handle stray arrived
  match readResponse out.2.serialize with
  | none => none
  | some (received, _) =>
    some { s.answer t received with
      server := Function.update s.server host out.1
      requests := Function.update s.requests conn (s.requests conn).tail
      responses := Function.update s.responses conn (s.responses conn ++ [t])
      log := ⟨t, arrived, out.2.header.type⟩ :: s.log }

inductive Event where
  | startWrite (coordinator : ℕ) (input : WriteRequest) (version : UInt32)
      (salt : WriteTicket → Salt)
  | sendPrepare (w : ℕ)
  | startRead (coordinator : ℕ) (input : ReadRequest) (salt : ℕ → Salt)
  | sendGet (r : ℕ)
  | handle (t : Ticket) (stray : ℕ → UInt8)
  | writeError (t : Ticket)
  | callback (t : Ticket)

def step (cfg : Config) (s : Cluster) : Event → Option Cluster
  | .startWrite coordinator input version salt =>
    some { s with
      started := s.started + 1
      writes := Function.update s.writes s.started
        (some (Job.start coordinator input version salt)) }
  | .sendPrepare w =>
    match s.writes w with
    | none => none
    | some job =>
      match job.sendPrepare cfg (s.checked job.write.coordinator job.write.input.uuid) with
      | none => none
      | some (job', ts) =>
        some (push cfg { s with writes := Function.update s.writes w (some job') }
          (ts.map (.write w)))
  | .startRead coordinator input salt =>
    some { s with
      started := s.started + 1
      reads := Function.update s.reads s.started
        (some (ReadJob.start cfg coordinator input salt)) }
  | .sendGet r =>
    match s.reads r with
    | none => none
    | some job =>
      match job.sendGet cfg with
      | none => none
      | some job' =>
        some (push cfg { s with reads := Function.update s.reads r (some job') }
          [.read r job.sent])
  | .handle t stray =>
    match s.route cfg t, s.life t with
    | some conn, .requested pack =>
      -- a connection is read in the order in which it was written
      if (s.requests conn).head? = some t then
        match readRequest pack.sent with
        | none => none
        | some (arrived, _) => s.deliver cfg t conn stray arrived
      else none
    | _, _ => none
  | .writeError t =>
    match s.route cfg t, s.life t with
    | some conn, .requested pack =>
      -- the callback gets an error that no server has sent
      some (finish cfg
        { s with requests := Function.update s.requests conn ((s.requests conn).erase t) } t
        (Server.respond pack .err))
    | _, _ => none
  | .callback t =>
    match s.route cfg t, s.life t with
    | some conn, .answered response =>
      if (s.responses conn).head? = some t then
        some (finish cfg
          { s with responses := Function.update s.responses conn (s.responses conn).tail } t
          response)
      else none
    | _, _ => none

/-- No request has started yet. -/
def init (server : ℕ → Server) (checked : ℕ → Key → Bool) : Cluster where
  server
  checked
  started := 0
  writes _ := none
  reads _ := none
  requests _ := []
  responses _ := []
  log := []

/-! ## What a step does

The steps that concern a message all end in the same way: a request is put back, an answer goes on
its connection, new messages are queued. `finish` is that end, and its lemmas say which part of the
state it changes. Then each kind of step has a lemma with all it needs and all it does. -/

variable {cfg : Config} {s s' : Cluster}

section Finish

variable (cfg s) (w : ℕ) (t : WriteTicket) (response : Packet)

@[simp] theorem finish_server (t : Ticket) : (s.finish cfg t response).server = s.server := by
  cases t with
  | write w t => simp only [finish]; split <;> rfl
  | read r j => rfl

@[simp] theorem finish_log (t : Ticket) : (s.finish cfg t response).log = s.log := by
  cases t with
  | write w t => simp only [finish]; split <;> rfl
  | read r j => rfl

@[simp] theorem finish_started (t : Ticket) : (s.finish cfg t response).started = s.started := by
  cases t with
  | write w t => simp only [finish]; split <;> rfl
  | read r j => rfl

private theorem finish_write_writes : (s.finish cfg (.write w t) response).writes
    = Function.update s.writes w ((s.writes w).map fun job ↦ (job.callback cfg t response).1) := by
  simp only [finish]
  cases h : s.writes w with
  | none =>
    have hsame := Function.update_eq_self w s.writes
    rw [h] at hsame
    rw [Option.map_none, hsame]
  | some job => rfl

@[simp] theorem finish_write_reads :
    (s.finish cfg (.write w t) response).reads = s.reads := by
  simp only [finish]; split <;> rfl

private theorem finish_read_reads (r j : ℕ) : (s.finish cfg (.read r j) response).reads
    = Function.update s.reads r ((s.reads r).map fun job ↦ job.callback j response) := rfl

@[simp] theorem finish_read_writes (r j : ℕ) :
    (s.finish cfg (.read r j) response).writes = s.writes := rfl

end Finish

theorem step_sendPrepare {w : ℕ} (h : step cfg s (.sendPrepare w) = some s') :
    ∃ job c, s.writes w = some job ∧ (job.chunks cfg)[job.write.sent]? = some c ∧
      s'.writes = Function.update s.writes w (some { job with
        write := job.write.sendOne
        life := Function.update job.life (.vote job.write.sent)
          (.requested (job.write.preparePacket (job.salt (.vote job.write.sent))
            (s.checked job.write.coordinator job.write.input.uuid) c)) }) ∧
      s'.reads = s.reads ∧ s'.server = s.server ∧ s'.log = s.log ∧ s'.started = s.started := by
  rw [step] at h
  cases hw : s.writes w with
  | none => rw [hw] at h; cases h
  | some job =>
    simp only [hw, Job.sendPrepare] at h
    cases hc : (job.chunks cfg)[job.write.sent]? with
    | none => simp only [hc, reduceCtorEq] at h
    | some c =>
      simp only [hc, Option.some_inj] at h
      subst h
      exact ⟨job, c, rfl, hc, rfl, rfl, rfl, rfl, rfl⟩

theorem step_sendGet {r : ℕ} (h : step cfg s (.sendGet r) = some s') :
    ∃ job job', s.reads r = some job ∧ job.sendGet cfg = some job' ∧
      s'.reads = Function.update s.reads r (some job') ∧
      s'.writes = s.writes ∧ s'.server = s.server ∧ s'.log = s.log ∧ s'.started = s.started := by
  rw [step] at h
  cases hr : s.reads r with
  | none => rw [hr] at h; cases h
  | some job =>
    simp only [hr] at h
    cases hc : job.sendGet cfg with
    | none => simp only [hc, reduceCtorEq] at h
    | some job' =>
      simp only [hc, Option.some_inj] at h
      subst h
      exact ⟨job, job', rfl, hc, rfl, rfl, rfl, rfl, rfl⟩

theorem step_handle {t : Ticket} {stray : ℕ → UInt8} (h : step cfg s (.handle t stray) = some s') :
    ∃ conn pack arrived received rest rest', s.route cfg t = some conn ∧
      s.life t = .requested pack ∧ readRequest pack.sent = some (arrived, rest) ∧
      readResponse ((s.server (conn.index % cfg.hosts)).handle stray arrived).2.serialize
        = some (received, rest') ∧
      s'.writes = (s.answer t received).writes ∧ s'.reads = (s.answer t received).reads ∧
      s'.server = Function.update s.server (conn.index % cfg.hosts)
        ((s.server (conn.index % cfg.hosts)).handle stray arrived).1 ∧
      s'.log = ⟨t, arrived,
        ((s.server (conn.index % cfg.hosts)).handle stray arrived).2.header.type⟩ :: s.log ∧
      s'.started = s.started := by
  rw [step] at h
  cases hroute : s.route cfg t with
  | none => simp only [hroute, reduceCtorEq] at h
  | some conn =>
    cases hlife : s.life t with
    | requested pack =>
      simp only [hroute, hlife] at h
      split at h
      · cases harrived : readRequest pack.sent with
        | none => simp only [harrived, reduceCtorEq] at h
        | some out =>
          simp only [harrived, deliver] at h
          cases hreceived : readResponse
              ((s.server (conn.index % cfg.hosts)).handle stray out.1).2.serialize with
          | none => simp only [hreceived, reduceCtorEq] at h
          | some back =>
            simp only [hreceived, Option.some_inj] at h
            subst h
            refine ⟨conn, pack, out.1, back.1, out.2, back.2, rfl, rfl, harrived, hreceived, rfl,
              rfl, rfl, rfl, ?_⟩
            cases t <;> rfl
      · cases h
    | unsent | answered | done => simp only [hroute, hlife, reduceCtorEq] at h

theorem step_writeError {t : Ticket} (h : step cfg s (.writeError t) = some s') :
    ∃ pack, s.life t = .requested pack ∧
      s'.writes = (s.finish cfg t (Server.respond pack .err)).writes ∧
      s'.reads = (s.finish cfg t (Server.respond pack .err)).reads ∧
      s'.server = s.server ∧ s'.log = s.log ∧ s'.started = s.started := by
  rw [step] at h
  cases hroute : s.route cfg t with
  | none => simp only [hroute, reduceCtorEq] at h
  | some conn =>
    cases hlife : s.life t with
    | requested pack =>
      simp only [hroute, hlife, Option.some_inj] at h
      subst h
      refine ⟨pack, rfl, ?_, ?_, finish_server _ _ _ _, finish_log _ _ _ _,
        finish_started _ _ _ _⟩ <;>
      cases t <;> simp [finish_write_writes, finish_read_reads]
    | unsent | answered | done => simp only [hroute, hlife, reduceCtorEq] at h

theorem step_callback {t : Ticket} (h : step cfg s (.callback t) = some s') :
    ∃ response, s.life t = .answered response ∧
      s'.writes = (s.finish cfg t response).writes ∧ s'.reads = (s.finish cfg t response).reads ∧
      s'.server = s.server ∧ s'.log = s.log ∧ s'.started = s.started := by
  rw [step] at h
  cases hroute : s.route cfg t with
  | none => simp only [hroute, reduceCtorEq] at h
  | some conn =>
    cases hlife : s.life t with
    | answered response =>
      simp only [hroute, hlife] at h
      split at h
      · rw [Option.some_inj] at h
        subst h
        refine ⟨response, rfl, ?_, ?_, finish_server _ _ _ _, finish_log _ _ _ _,
          finish_started _ _ _ _⟩ <;>
        cases t <;> simp [finish_write_writes, finish_read_reads]
      · cases h
    | unsent | requested | done => simp only [hroute, hlife, reduceCtorEq] at h

/-! ## Each request goes its own way

Seen from one write, a step of the system does nothing, starts the write, or is one or two steps of
its `Job`; the same for a read. So the invariants of `Job` and `ReadJob` hold of every request of
the system, and `Le` of every write between two states of a run: what has been said about one
request on its own need not be proved again. -/

theorem life_write_eq {w : ℕ} {t : WriteTicket} {l : Life} (hl : l ≠ .unsent)
    (h : s.life (.write w t) = l) : ∃ job, s.writes w = some job ∧ job.life t = l := by
  rw [life] at h
  cases hw : s.writes w with
  | none => rw [hw] at h; exact absurd h.symm hl
  | some job => rw [hw] at h; exact ⟨job, rfl, h⟩

theorem life_read_eq {r j : ℕ} {l : Life} (hl : l ≠ .unsent) (h : s.life (.read r j) = l) :
    ∃ job, s.reads r = some job ∧ job.life j = l := by
  rw [life] at h
  cases hr : s.reads r with
  | none => rw [hr] at h; exact absurd h.symm hl
  | some job => rw [hr] at h; exact ⟨job, rfl, h⟩

private theorem update_cases {α : Type*} {f f' : ℕ → α} {i : ℕ} {a : α}
    (h : f' = Function.update f i a) (j : ℕ) : f' j = f j ∨ (j = i ∧ f' j = a) := by
  by_cases hj : j = i
  · rw [h, hj, Function.update_self]
    exact Or.inr ⟨rfl, rfl⟩
  · rw [h, Function.update_of_ne hj]
    exact Or.inl rfl

/-- A callback that runs with an error is an answer and its callback at once. -/
private theorem callback_answer (job : Job) (t : WriteTicket) (response : Packet) :
    (job.answer t response).callback cfg t response = job.callback cfg t response := by
  simp only [Job.callback, Job.answer, Function.update_idem]

private theorem run_error {job : Job} {t : WriteTicket} {pack : Packet} (response : Packet)
    (h : job.life t = .requested pack) :
    run (Job.step cfg) job [.answer t response, .callback t]
      = some (job.callback cfg t response).1 := by
  have hlife : (job.answer t response).life t = .answered response := Function.update_self _ _ _
  simp only [run, Job.step, h, hlife, Option.bind_some, callback_answer]

/-- The steps of a write that an event of the system consists of. -/
def Event.MovesWrite (w : ℕ) (e : Event) : Job.Event → Prop
  | .send _ => e = .sendPrepare w
  | .answer t response => (∃ stray, e = .handle (.write w t) stray) ∨
    (e = .writeError (.write w t) ∧ response.header.type = .err)
  | .callback t => e = .callback (.write w t) ∨ e = .writeError (.write w t)

/-- In a step of the system a write does nothing, starts, or goes some steps of its own. -/
theorem write_step {e : Event} (h : step cfg s e = some s') (w : ℕ) :
    s'.writes w = s.writes w ∨
    (w = s.started ∧ ∃ coordinator input version salt,
      e = .startWrite coordinator input version salt ∧
      s'.writes w = some (Job.start coordinator input version salt)) ∨
    ∃ job job' events, s.writes w = some job ∧ s'.writes w = some job' ∧
      run (Job.step cfg) job events = some job' ∧ ∀ ev ∈ events, e.MovesWrite w ev := by
  cases e with
  | startWrite coordinator input version salt =>
    rw [step, Option.some_inj] at h
    subst h
    rcases update_cases rfl w with hw | ⟨hid, hw⟩
    · exact Or.inl hw
    · exact Or.inr (Or.inl ⟨hid, _, _, _, _, rfl, hw⟩)
  | sendPrepare v =>
    obtain ⟨job, c, hv, hc, hwrites, -⟩ := step_sendPrepare h
    rcases update_cases hwrites w with hw | ⟨rfl, hw⟩
    · exact Or.inl hw
    · refine Or.inr (Or.inr ⟨job, _, [.send (s.checked job.write.coordinator
        job.write.input.uuid)], hv, hw, ?_, by simp [Event.MovesWrite]⟩)
      simp only [run, Job.step, Job.sendPrepare, hc, Option.map_some, Option.bind_some]
      rfl
  | startRead coordinator input salt =>
    rw [step, Option.some_inj] at h
    subst h
    exact Or.inl rfl
  | sendGet r =>
    obtain ⟨_, _, _, _, _, hwrites, -⟩ := step_sendGet h
    exact Or.inl (by rw [hwrites])
  | handle t stray =>
    obtain ⟨conn, pack, arrived, received, _, _, -, hlife, -, -, hwrites, -⟩ := step_handle h
    cases t with
    | read r j => exact Or.inl (by rw [hwrites]; rfl)
    | write v t =>
      obtain ⟨job, hv, ht⟩ := life_write_eq (by simp) hlife
      simp only [answer, hv, Option.map_some] at hwrites
      rcases update_cases hwrites w with hw | ⟨rfl, hw⟩
      · exact Or.inl hw
      · refine Or.inr (Or.inr ⟨job, _, [.answer t received], hv, hw, ?_,
          by simp [Event.MovesWrite]⟩)
        simp only [run, Job.step, ht, Option.bind_some]
  | writeError t =>
    obtain ⟨pack, hlife, hwrites, -⟩ := step_writeError h
    cases t with
    | read r j => exact Or.inl (by rw [hwrites, finish_read_writes])
    | write v t =>
      obtain ⟨job, hv, ht⟩ := life_write_eq (by simp) hlife
      rw [finish_write_writes, hv, Option.map_some] at hwrites
      rcases update_cases hwrites w with hw | ⟨rfl, hw⟩
      · exact Or.inl hw
      · exact Or.inr (Or.inr ⟨job, _, _, hv, hw, run_error _ ht,
          by simp [Event.MovesWrite, Server.respond]⟩)
  | callback t =>
    obtain ⟨response, hlife, hwrites, -⟩ := step_callback h
    cases t with
    | read r j => exact Or.inl (by rw [hwrites, finish_read_writes])
    | write v t =>
      obtain ⟨job, hv, ht⟩ := life_write_eq (by simp) hlife
      rw [finish_write_writes, hv, Option.map_some] at hwrites
      rcases update_cases hwrites w with hw | ⟨rfl, hw⟩
      · exact Or.inl hw
      · refine Or.inr (Or.inr ⟨job, _, [.callback t], hv, hw, ?_, by simp [Event.MovesWrite]⟩)
        simp only [run, Job.step, ht, Option.bind_some]

private theorem run_read_error {job : ReadJob} {j : ℕ} {pack : Packet} (response : Packet)
    (h : job.life j = .requested pack) :
    run (ReadJob.step cfg) job [.answer j response, .callback j]
      = some (job.callback j response) := by
  simp only [run, ReadJob.step, h, Function.update_self, Option.bind_some, ReadJob.callback,
    ReadJob.answer, Function.update_idem]

def Event.MovesRead (r : ℕ) (e : Event) : ReadJob.Event → Prop
  | .send => e = .sendGet r
  | .answer j _ => (∃ stray, e = .handle (.read r j) stray) ∨ e = .writeError (.read r j)
  | .callback j => e = .callback (.read r j) ∨ e = .writeError (.read r j)

private theorem read_step {e : Event} (h : step cfg s e = some s') (r : ℕ) :
    s'.reads r = s.reads r ∨
    (r = s.started ∧ ∃ coordinator input salt, e = .startRead coordinator input salt ∧
      s'.reads r = some (ReadJob.start cfg coordinator input salt)) ∨
    ∃ job job' events, s.reads r = some job ∧ s'.reads r = some job' ∧
      run (ReadJob.step cfg) job events = some job' ∧ ∀ ev ∈ events, e.MovesRead r ev := by
  cases e with
  | startWrite coordinator input version salt =>
    rw [step, Option.some_inj] at h
    subst h
    exact Or.inl rfl
  | sendPrepare v =>
    obtain ⟨_, _, _, _, _, hreads, -⟩ := step_sendPrepare h
    exact Or.inl (by rw [hreads])
  | startRead coordinator input salt =>
    rw [step, Option.some_inj] at h
    subst h
    rcases update_cases rfl r with hr | ⟨hid, hr⟩
    · exact Or.inl hr
    · exact Or.inr (Or.inl ⟨hid, _, _, _, rfl, hr⟩)
  | sendGet v =>
    obtain ⟨job, job', hv, hsend, hreads, -⟩ := step_sendGet h
    rcases update_cases hreads r with hr | ⟨rfl, hr⟩
    · exact Or.inl hr
    · refine Or.inr (Or.inr ⟨job, _, [.send], hv, hr, ?_, by simp [Event.MovesRead]⟩)
      simp only [run, ReadJob.step, hsend, Option.bind_some]
  | handle t stray =>
    obtain ⟨conn, pack, arrived, received, _, _, -, hlife, -, -, -, hreads, -⟩ := step_handle h
    cases t with
    | write v t => exact Or.inl (by rw [hreads]; rfl)
    | read v j =>
      obtain ⟨job, hv, hj⟩ := life_read_eq (by simp) hlife
      simp only [answer, hv, Option.map_some] at hreads
      rcases update_cases hreads r with hr | ⟨rfl, hr⟩
      · exact Or.inl hr
      · refine Or.inr (Or.inr ⟨job, _, [.answer j received], hv, hr, ?_,
          by simp [Event.MovesRead]⟩)
        simp only [run, ReadJob.step, hj, Option.bind_some]
  | writeError t =>
    obtain ⟨pack, hlife, -, hreads, -⟩ := step_writeError h
    cases t with
    | write v t => exact Or.inl (by rw [hreads, finish_write_reads])
    | read v j =>
      obtain ⟨job, hv, hj⟩ := life_read_eq (by simp) hlife
      rw [finish_read_reads, hv, Option.map_some] at hreads
      rcases update_cases hreads r with hr | ⟨rfl, hr⟩
      · exact Or.inl hr
      · exact Or.inr (Or.inr ⟨job, _, _, hv, hr, run_read_error _ hj, by simp [Event.MovesRead]⟩)
  | callback t =>
    obtain ⟨response, hlife, -, hreads, -⟩ := step_callback h
    cases t with
    | write v t => exact Or.inl (by rw [hreads, finish_write_reads])
    | read v j =>
      obtain ⟨job, hv, hj⟩ := life_read_eq (by simp) hlife
      rw [finish_read_reads, hv, Option.map_some] at hreads
      rcases update_cases hreads r with hr | ⟨rfl, hr⟩
      · exact Or.inl hr
      · refine Or.inr (Or.inr ⟨job, _, [.callback j], hv, hr, ?_, by simp [Event.MovesRead]⟩)
        simp only [run, ReadJob.step, hj, Option.bind_some]

private theorem started_step {e : Event} (h : step cfg s e = some s') :
    s'.started = s.started ∨ s'.started = s.started + 1 := by
  cases e with
  | startWrite | startRead => rw [step, Option.some_inj] at h; subst h; exact Or.inr rfl
  | sendPrepare => obtain ⟨_, _, _, _, _, _, _, _, h⟩ := step_sendPrepare h; exact Or.inl h
  | sendGet => obtain ⟨_, _, _, _, _, _, _, _, h⟩ := step_sendGet h; exact Or.inl h
  | handle =>
    obtain ⟨_, _, _, _, _, _, _, _, _, _, _, _, _, _, h⟩ := step_handle h; exact Or.inl h
  | writeError => obtain ⟨_, _, _, _, _, _, h⟩ := step_writeError h; exact Or.inl h
  | callback => obtain ⟨_, _, _, _, _, _, h⟩ := step_callback h; exact Or.inl h

/-- Every request is in a state that its own steps can lead to. -/
structure Inv (cfg : Config) (s : Cluster) : Prop where
  fresh : ∀ id, s.started ≤ id → s.writes id = none ∧ s.reads id = none
  write : ∀ w job, s.writes w = some job → job.Inv cfg
  read : ∀ r job, s.reads r = some job → job.Inv cfg

theorem inv_init (server : ℕ → Server) (checked : ℕ → Key → Bool) :
    Inv cfg (init server checked) where
  fresh _ _ := ⟨rfl, rfl⟩
  write _ _ h := by cases h
  read _ _ h := by cases h

theorem inv_step (s : Cluster) (e : Event) (s' : Cluster) (h : step cfg s e = some s')
    (hinv : Inv cfg s) : Inv cfg s' := by
  refine ⟨fun id hid ↦ ?_, fun w job hw ↦ ?_, fun r job hr ↦ ?_⟩
  · have hstarted := started_step h
    obtain ⟨hwrite, hread⟩ := hinv.fresh id (by omega)
    constructor
    · rcases write_step h id with hw | ⟨rfl, _, _, _, _, rfl, -⟩ | ⟨job, _, _, hjob, -⟩
      · rw [hw, hwrite]
      · rw [step, Option.some_inj] at h
        subst h
        exact absurd hid (by simp)
      · rw [hwrite] at hjob; cases hjob
    · rcases read_step h id with hr | ⟨rfl, _, _, _, rfl, -⟩ | ⟨job, _, _, hjob, -⟩
      · rw [hr, hread]
      · rw [step, Option.some_inj] at h
        subst h
        exact absurd hid (by simp)
      · rw [hread] at hjob; cases hjob
  · rcases write_step h w with
      hsame | ⟨-, _, _, _, _, -, hstart⟩ | ⟨old, new, _, hold, hnew, hrun, -⟩
    · exact hinv.write w job (by rw [← hsame, hw])
    · rw [hw, Option.some_inj] at hstart
      rw [hstart]
      exact Job.inv_start _ _ _ _
    · rw [hw, Option.some_inj] at hnew
      rw [hnew]
      exact invariant_run_of_step Job.inv_step hrun (hinv.write w old hold)
  · rcases read_step h r with hsame | ⟨-, _, _, _, -, hstart⟩ | ⟨old, new, _, hold, hnew, hrun, -⟩
    · exact hinv.read r job (by rw [← hsame, hr])
    · rw [hr, Option.some_inj] at hstart
      rw [hstart]
      exact ReadJob.inv_start _ _ _
    · rw [hr, Option.some_inj] at hnew
      rw [hnew]
      exact invariant_run_of_step ReadJob.inv_step hrun (hinv.read r old hold)

theorem write_le (hinv : Inv cfg s) {e : Event} (h : step cfg s e = some s') {w : ℕ} {job : Job}
    (hw : s.writes w = some job) : ∃ job', s'.writes w = some job' ∧ job.Le job' := by
  rcases write_step h w with hsame | ⟨rfl, -⟩ | ⟨old, new, events, hold, hnew, hrun, -⟩
  · exact ⟨job, by rw [hsame, hw], Job.Le.refl job⟩
  · rw [(hinv.fresh _ le_rfl).1] at hw
    cases hw
  · rw [hw, Option.some_inj] at hold
    subst hold
    exact ⟨new, hnew, Job.le_run (hinv.write w job hw) hrun⟩

theorem read_le (hinv : Inv cfg s) {e : Event} (h : step cfg s e = some s') {r : ℕ} {job : ReadJob}
    (hr : s.reads r = some job) : ∃ job', s'.reads r = some job' ∧ job.Le job' := by
  rcases read_step h r with hsame | ⟨rfl, -⟩ | ⟨old, new, events, hold, hnew, hrun, -⟩
  · exact ⟨job, by rw [hsame, hr], ReadJob.Le.refl job⟩
  · rw [(hinv.fresh _ le_rfl).2] at hr
    cases hr
  · rw [hr, Option.some_inj] at hold
    subst hold
    exact ⟨new, hnew, ReadJob.le_run (hinv.read r job hr) hrun⟩

theorem vote_reply_step (hinv : Inv cfg s) {e : Event} (h : step cfg s e = some s') {w j : ℕ}
    {job' : Job} {response : Packet} (hw : s'.writes w = some job')
    (hr : (job'.life (.vote j)).reply = some response) :
    (∃ job, s.writes w = some job ∧ job.Le job' ∧
      (job.life (.vote j)).reply = some response) ∨
    (∃ stray, e = .handle (.write w (.vote j)) stray) ∨
    (e = .writeError (.write w (.vote j)) ∧ response.header.type = .err) := by
  rcases write_step h w with hsame | ⟨-, _, _, _, _, -, hstart⟩ |
    ⟨job, new, events, hold, hnew, hrun, hmoves⟩
  · exact Or.inl ⟨job', by rw [← hsame, hw], Job.Le.refl job', hr⟩
  · rw [hw, Option.some_inj] at hstart
    rw [hstart] at hr
    cases hr
  · rw [hw, Option.some_inj] at hnew
    subst hnew
    rcases Job.reply_vote_run hrun hr with hreply | hmem
    · exact Or.inl ⟨job, hold, Job.le_run (hinv.write w job hold) hrun, hreply⟩
    · exact Or.inr (hmoves _ hmem)

end Cluster

end Slsfs.Datafunction

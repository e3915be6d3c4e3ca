import Slsfs.LeveldbPack
import Slsfs.Lib.EmplaceMap
import Slsfs.Lib.Run

/-!
# The requests of a connection to an ssbd server

`backend::ssbd` puts a job for each request into `outstanding_jobs_`, under the file id, the block
id and the salt of its header, and the reading side finds the job of a response there. Three things
run the callback of a job: its response, an error of its write, and `close`. Only the response takes
the job out of the map. A request whose write fails is therefore cancelled once more by `close`, and
one that `close` has cancelled is cancelled again by its write, which is aborted, or answered by a
response that had arrived before.

The handlers of a connection are the events: a write handler, with or without an error; the arrival
of a response, which waits for its handler; that handler; an error of the reading side; `close`. The
server answers a request once, and not one whose write fails.
-/

namespace Slsfs.Datafunction.Backend

open LeveldbPack

/-! ## Requests and their handlers

A request has a number, which is its own, and a key, which it may share with another one. `calls`
are the invocations of callbacks so far, each with the number of its request and the response that
it got, or none. What `boost::asio` owes to a connection, the handlers of its writes and of its
read, is in the state too: a handler runs at some time after its operation is over, and an operation
on a socket that has been closed is aborted, which also runs its handler. -/

/-- What `packet_header_key_compare` compares. -/
abbrev JobKey := Key × UInt32 × Salt

def jobKey (h : PacketHeader) : JobKey := (h.uuid, h.blockid, h.salt)

/-- `detail::job`. The callback is that of the request with this number. -/
structure Job where
  id : ℕ
  originalRequest : Packet
  deriving DecidableEq

/-- What `cancel` runs the callback with: the header of the request, as an error. -/
def Job.cancel (j : Job) : Packet :=
  { header := { j.originalRequest.header with type := .err }, data := [] }

/-- What became of the write of a request. -/
inductive WriteStatus where
  | inProgress
  | succeeded
  | failed
  deriving DecidableEq

/-- How far the response to a request has come. -/
inductive Answer where
  | missing
  | arrived
  | delivered
  deriving DecidableEq

/-- The reading side: no read, a read that waits for the server, or one that is complete and whose
handler has not run. -/
inductive Reading where
  | idle
  | waiting
  | arrived (resp : Packet)
  deriving DecidableEq

structure State where
  /-- The requests in the order they were sent. -/
  requests : List Packet
  outstandingJobs : FiniteMap JobKey Job
  write : ℕ → WriteStatus
  answer : ℕ → Answer
  /-- `read_started_flag_`. -/
  readStarted : Bool
  reading : Reading
  /-- How many requests had been sent when `close` was called. -/
  closedAt : Option ℕ
  /-- The callbacks that were invoked, with their arguments. -/
  calls : List (ℕ × Packet)

inductive Event where
  /-- `start_send_request`. -/
  | send (request : Packet)
  /-- The handler of the write of a request. -/
  | written (id : ℕ) (failed : Bool)
  /-- The response to a request has been read. -/
  | arrive (id : ℕ) (resp : Packet)
  /-- The handler of the read in `start_read_one_body`. -/
  | handle
  | readFailed
  | close
  deriving DecidableEq

namespace State

def init : State :=
  ⟨[], ∅, fun _ ↦ .inProgress, fun _ ↦ .missing, false, .idle, none, []⟩

/-- `start_read_one`: on a closed socket the read fails. -/
def startReadOne (s : State) : State :=
  { s with reading := if s.closedAt.isNone then .waiting else .idle }

/-- `start_read_loop`. -/
def startReadLoop (s : State) : State :=
  if s.readStarted then s else { s.startReadOne with readStarted := true }

def startSendRequest (s : State) (request : Packet) : State :=
  { s with
    requests := s.requests ++ [request]
    outstandingJobs :=
      s.outstandingJobs.emplace (jobKey request.header) ⟨s.requests.length, request⟩ }

/-- The handler of the write of request `id`. -/
def onWritten (s : State) (id : ℕ) (request : Packet) (failed : Bool) : State :=
  if failed then
    { s with
      write := Function.update s.write id .failed
      calls := s.calls ++ [(id, Job.cancel ⟨id, request⟩)] }
  else startReadLoop { s with write := Function.update s.write id .succeeded }

/-- The end of `start_read_one_body`. -/
def runJob (s : State) (job : Job) (resp : Packet) : State :=
  startReadOne { s with
    outstandingJobs := s.outstandingJobs.erase (jobKey resp.header)
    answer := Function.update s.answer job.id .delivered
    calls := s.calls ++ [(job.id, resp)] }

/-- `close`. A read that waits is aborted; one that is complete keeps its handler. -/
def close (s : State) : State :=
  { s with
    reading := match s.reading with
      | .arrived resp => .arrived resp
      | _ => .idle
    closedAt := some s.requests.length
    calls := s.calls ++ s.outstandingJobs.entries.map fun e ↦ (e.2.id, e.2.cancel) }

end State

/-- One event. Requests have pairwise distinct keys, as `start_send_request` asserts. -/
def step (s : State) : Event → Option State
  | .send request =>
    if jobKey request.header ∈ s.requests.map (fun r ↦ jobKey r.header) then none
    else some (s.startSendRequest request)
  | .written id failed =>
    match s.requests[id]? with
    | none => none
    | some request =>
      if s.write id = .inProgress ∧ (failed = true → s.answer id = .missing) then
        some (s.onWritten id request failed)
      else none
  | .arrive id resp =>
    match s.requests[id]? with
    | none => none
    | some request =>
      if s.reading = .waiting ∧ s.closedAt = none ∧ s.answer id = .missing ∧
          s.write id ≠ .failed ∧ jobKey resp.header = jobKey request.header then
        some { s with reading := .arrived resp, answer := Function.update s.answer id .arrived }
      else none
  | .handle =>
    match s.reading with
    | .arrived resp =>
      (s.outstandingJobs.lookup (jobKey resp.header)).map fun job ↦ s.runJob job resp
    | _ => none
  | .readFailed => if s.reading = .waiting then some { s with reading := .idle } else none
  | .close => if s.closedAt = none then some s.close else none

/-- How often the callback of a request was invoked. -/
def State.invoked (s : State) (id : ℕ) : ℕ := (s.calls.map Prod.fst).count id

/-- No callback was invoked twice, and each was invoked with what belongs to its request. -/
structure WellAnswered (s : State) : Prop where
  atMostOnce : ∀ id, s.invoked id ≤ 1
  own : ∀ call ∈ s.calls, ∃ request, s.requests[call.1]? = some request ∧
    jobKey call.2.header = jobKey request.header

/-- **The condition.** No write has failed when `close` is called, and after it neither the write of
a request sent before it fails nor is a response handled. -/
def Clean (s : State) : Event → Prop
  | .close => ∀ id < s.requests.length, s.write id ≠ .failed
  | .written id true => ∀ n ∈ s.closedAt, n ≤ id
  | .handle => s.closedAt = none
  | _ => True

instance decidableClean (s : State) : ∀ e, Decidable (Clean s e)
  | .close => inferInstanceAs (Decidable (∀ id < s.requests.length, s.write id ≠ .failed))
  | .written id true => inferInstanceAs (Decidable (∀ n ∈ s.closedAt, n ≤ id))
  | .handle => inferInstanceAs (Decidable (s.closedAt = none))
  | .written _ false | .send _ | .arrive _ _ | .readFailed => .isTrue trivial

/-! ## What a step does

Each event of the connection in full: what it asks of the state, and the state it leads to. The rest
of the module uses these and not the definition of `step`. -/

section Steps

variable {s s' : State} {request resp : Packet} {id : ℕ} {failed : Bool}

private theorem step_send (h : step s (.send request) = some s') :
    jobKey request.header ∉ s.requests.map (fun r ↦ jobKey r.header) ∧
      s' = s.startSendRequest request := by
  rw [step] at h
  split at h
  · cases h
  · rename_i hnew
    exact ⟨hnew, (Option.some_inj.mp h).symm⟩

private theorem step_written (h : step s (.written id failed) = some s') :
    ∃ request, s.requests[id]? = some request ∧ s.write id = .inProgress ∧
      (failed = true → s.answer id = .missing) ∧ s' = s.onWritten id request failed := by
  simp only [step] at h
  split at h
  · cases h
  · rename_i request hrequest
    split at h
    · rename_i hguard
      exact ⟨request, hrequest, hguard.1, hguard.2, (Option.some_inj.mp h).symm⟩
    · cases h

private theorem step_arrive (h : step s (.arrive id resp) = some s') :
    ∃ request, s.requests[id]? = some request ∧ s.closedAt = none ∧ s.answer id = .missing ∧
      s.write id ≠ .failed ∧ jobKey resp.header = jobKey request.header ∧
      s' = { s with reading := .arrived resp, answer := Function.update s.answer id .arrived } := by
  simp only [step] at h
  split at h
  · cases h
  · rename_i request hrequest
    split at h
    · rename_i hguard
      obtain ⟨-, hopen, hmissing, hwrite, hkey⟩ := hguard
      exact ⟨request, hrequest, hopen, hmissing, hwrite, hkey, (Option.some_inj.mp h).symm⟩
    · cases h

theorem step_handle (h : step s .handle = some s') :
    ∃ resp job, s.reading = .arrived resp ∧
      s.outstandingJobs.lookup (jobKey resp.header) = some job ∧ s' = s.runJob job resp := by
  rw [step] at h
  split at h
  · rename_i resp hreading
    obtain ⟨job, hjob, rfl⟩ := Option.map_eq_some_iff.mp h
    exact ⟨resp, job, hreading, hjob, rfl⟩
  · cases h

private theorem step_readFailed (h : step s .readFailed = some s') :
    s' = { s with reading := .idle } := by
  rw [step] at h
  split at h
  · exact (Option.some_inj.mp h).symm
  · cases h

theorem step_close (h : step s .close = some s') : s.closedAt = none ∧ s' = s.close := by
  rw [step] at h
  split at h
  · rename_i hopen
    exact ⟨hopen, (Option.some_inj.mp h).symm⟩
  · cases h

end Steps

/-! ## The map of jobs

`Consistent` says that the map has just the requests whose response has not been delivered, each
under its own key. This needs that no two requests of the connection have the same key, which is
what the salt is for. `Inv` adds that a response that has arrived is that of a request in the
map. -/

/-- What holds of the requests, the map and the callbacks after every run. -/
structure Consistent (s : State) : Prop where
  nodup : (s.requests.map fun r ↦ jobKey r.header).Nodup
  /-- The map holds the requests whose response has not been delivered. -/
  jobs : ∀ k job, s.outstandingJobs.lookup k = some job ↔
    s.requests[job.id]? = some job.originalRequest ∧ jobKey job.originalRequest.header = k ∧
      s.answer job.id ≠ .delivered
  unsent : ∀ id, s.requests.length ≤ id → s.write id = .inProgress ∧ s.answer id = .missing
  unanswered : ∀ id, s.write id = .failed → s.answer id = .missing
  early : ∀ id n, s.closedAt = some n → s.answer id ≠ .missing → id < n
  closedAt_le : ∀ n, s.closedAt = some n → n ≤ s.requests.length
  own : ∀ call ∈ s.calls, ∃ request, s.requests[call.1]? = some request ∧
    jobKey call.2.header = jobKey request.header

/-- A response that has arrived is that of a request in the map. -/
structure Inv (s : State) : Prop extends Consistent s where
  arrived : ∀ resp, s.reading = .arrived resp → ∃ id request, s.requests[id]? = some request ∧
    jobKey resp.header = jobKey request.header ∧ s.answer id = .arrived

theorem inv_init : Inv State.init where
  nodup := List.nodup_nil
  jobs := by simp [State.init]
  unsent := fun _ _ ↦ ⟨rfl, rfl⟩
  unanswered := fun _ _ ↦ rfl
  early := fun _ _ h ↦ by cases h
  closedAt_le := fun _ h ↦ by cases h
  own := by simp [State.init]
  arrived := fun _ h ↦ by cases h

section Invariant

variable {s s' : State} {request resp : Packet} {id : ℕ} {failed : Bool} {job : Job}

private theorem Consistent.id_unique (h : Consistent s) {i j : ℕ} {r q : Packet}
    (hr : s.requests[i]? = some r) (hq : s.requests[j]? = some q)
    (hkey : jobKey r.header = jobKey q.header) : i = j := by
  have hi : i < (s.requests.map fun r ↦ jobKey r.header).length := by
    rw [List.length_map]
    exact (List.getElem?_eq_some_iff.mp hr).1
  apply (List.getElem?_inj hi h.nodup).mp
  rw [List.getElem?_map, List.getElem?_map, hr, hq, Option.map_some, Option.map_some, hkey]

private theorem Consistent.startReadOne (h : Consistent s) : Inv s.startReadOne where
  toConsistent := ⟨h.nodup, h.jobs, h.unsent, h.unanswered, h.early, h.closedAt_le, h.own⟩
  arrived := by
    intro resp hresp
    rw [State.startReadOne] at hresp
    split at hresp <;> cases hresp

private theorem Inv.startReadLoop (h : Inv s) : Inv s.startReadLoop := by
  rw [State.startReadLoop]
  split
  · exact h
  · have hread := h.toConsistent.startReadOne
    exact ⟨⟨hread.nodup, hread.jobs, hread.unsent, hread.unanswered, hread.early,
      hread.closedAt_le, hread.own⟩, hread.arrived⟩

theorem Inv.send (h : Inv s)
    (hnew : jobKey request.header ∉ s.requests.map fun r ↦ jobKey r.header) :
    Inv (s.startSendRequest request) := by
  have hold : ∀ {i : ℕ} {r : Packet}, s.requests[i]? = some r →
      (s.requests ++ [request])[i]? = some r := by
    intro i r hr
    rw [List.getElem?_append_left (List.getElem?_eq_some_iff.mp hr).1, hr]
  have habsent : s.outstandingJobs.lookup (jobKey request.header) = none := by
    refine Option.eq_none_iff_forall_not_mem.mpr fun job hjob ↦ hnew ?_
    obtain ⟨hmem, hkey, -⟩ := (h.jobs _ job).mp hjob
    exact List.mem_map.mpr ⟨_, List.mem_of_getElem? hmem, hkey⟩
  refine ⟨⟨?_, ?_, ?_, h.unanswered, h.early, ?_, ?_⟩, ?_⟩
  · change ((s.requests ++ [request]).map _).Nodup
    rw [List.map_append, List.map_singleton, List.nodup_append]
    refine ⟨h.nodup, List.nodup_singleton _, fun a ha b hb ↦ ?_⟩
    rw [List.mem_singleton] at hb
    exact fun hab ↦ hnew (hb ▸ hab ▸ ha)
  · intro k job
    change (s.outstandingJobs.emplace _ _).lookup k = some job ↔
      (s.requests ++ [request])[job.id]? = _ ∧ _
    constructor
    · intro hjob
      rcases FiniteMap.lookup_of_emplace hjob with hjob | ⟨rfl, rfl, -⟩
      · obtain ⟨hmem, hrest⟩ := (h.jobs k job).mp hjob
        exact ⟨hold hmem, hrest⟩
      · refine ⟨List.getElem?_concat_length, rfl, ?_⟩
        change s.answer s.requests.length ≠ .delivered
        rw [(h.unsent _ (Nat.le_refl _)).2]
        nofun
    · rintro ⟨hmem, hkey, hanswer⟩
      by_cases hlt : job.id < s.requests.length
      · rw [List.getElem?_append_left hlt] at hmem
        exact FiniteMap.lookup_emplace_of_some ((h.jobs k job).mpr ⟨hmem, hkey, hanswer⟩) _ _
      · have hid : job.id = s.requests.length := by
          have := (List.getElem?_eq_some_iff.mp hmem).1
          rw [List.length_append, List.length_singleton] at this
          omega
        rw [hid, List.getElem?_concat_length, Option.some_inj] at hmem
        have hjob : job = ⟨s.requests.length, request⟩ := by
          rw [hmem, ← hid]
        rw [← hkey, ← hmem, FiniteMap.lookup_emplace, habsent, hjob, Option.getD_none]
  · intro i hi
    refine h.unsent i (Nat.le_trans ?_ hi)
    simp [State.startSendRequest]
  · intro n hn
    refine Nat.le_trans (h.closedAt_le n hn) ?_
    simp [State.startSendRequest]
  · intro call hcall
    obtain ⟨r, hr, hkey⟩ := h.own call hcall
    exact ⟨r, hold hr, hkey⟩
  · intro resp hresp
    obtain ⟨i, r, hr, hrest⟩ := h.arrived resp hresp
    exact ⟨i, r, hold hr, hrest⟩

theorem Inv.written (h : Inv s) (hrequest : s.requests[id]? = some request)
    (hmissing : failed = true → s.answer id = .missing) : Inv (s.onWritten id request failed) := by
  have hunsent : ∀ status i, s.requests.length ≤ i →
      Function.update s.write id status i = .inProgress ∧ s.answer i = .missing := by
    intro status i hi
    have hid := (List.getElem?_eq_some_iff.mp hrequest).1
    rw [Function.update_of_ne (by omega)]
    exact h.unsent i hi
  cases failed with
  | true =>
    refine ⟨⟨h.nodup, h.jobs, hunsent _, ?_, h.early, h.closedAt_le, ?_⟩, h.arrived⟩
    · intro i hi
      by_cases hid : i = id
      · exact hid ▸ hmissing rfl
      · change Function.update s.write id .failed i = .failed at hi
        rw [Function.update_of_ne hid] at hi
        exact h.unanswered i hi
    · intro call hcall
      rcases List.mem_append.mp hcall with hcall | hcall
      · exact h.own call hcall
      · rw [List.mem_singleton] at hcall
        exact hcall ▸ ⟨request, hrequest, rfl⟩
  | false =>
    refine Inv.startReadLoop
      ⟨⟨h.nodup, h.jobs, hunsent _, ?_, h.early, h.closedAt_le, h.own⟩, h.arrived⟩
    intro i hi
    by_cases hid : i = id
    · subst hid
      change Function.update s.write i .succeeded i = .failed at hi
      rw [Function.update_self] at hi
      cases hi
    · change Function.update s.write id .succeeded i = .failed at hi
      rw [Function.update_of_ne hid] at hi
      exact h.unanswered i hi

theorem Inv.arrive (h : Inv s) (hrequest : s.requests[id]? = some request)
    (hopen : s.closedAt = none) (hmissing : s.answer id = .missing) (hwrite : s.write id ≠ .failed)
    (hkey : jobKey resp.header = jobKey request.header) :
    Inv { s with reading := .arrived resp, answer := Function.update s.answer id .arrived } := by
  refine ⟨⟨h.nodup, ?_, ?_, ?_, ?_, h.closedAt_le, h.own⟩, ?_⟩
  · intro k job
    have hanswer : Function.update s.answer id .arrived job.id ≠ .delivered ↔
        s.answer job.id ≠ .delivered := by
      by_cases hid : job.id = id
      · rw [hid, Function.update_self, hmissing]
        simp
      · rw [Function.update_of_ne hid]
    rw [hanswer]
    exact h.jobs k job
  · intro i hi
    have hid := (List.getElem?_eq_some_iff.mp hrequest).1
    change s.requests.length ≤ i at hi
    refine ⟨(h.unsent i hi).1, ?_⟩
    change Function.update s.answer id .arrived i = .missing
    rw [Function.update_of_ne (by omega)]
    exact (h.unsent i hi).2
  · intro i hi
    change Function.update s.answer id .arrived i = .missing
    have hid : i ≠ id := by
      rintro rfl
      exact hwrite hi
    rw [Function.update_of_ne hid]
    exact h.unanswered i hi
  · intro i n hn
    rw [hopen] at hn
    cases hn
  · intro other hother
    cases hother
    exact ⟨id, request, hrequest, hkey, Function.update_self ..⟩

/-- **The response finds its job**: `assert(found)` holds. -/
theorem Inv.find (h : Inv s) (hreading : s.reading = .arrived resp) :
    ∃ job, s.outstandingJobs.lookup (jobKey resp.header) = some job ∧
      s.answer job.id = .arrived := by
  obtain ⟨id, request, hrequest, hkey, hanswer⟩ := h.arrived resp hreading
  refine ⟨⟨id, request⟩, (h.jobs _ _).mpr ⟨hrequest, hkey.symm, ?_⟩, hanswer⟩
  rw [hanswer]
  nofun

private theorem Consistent.jobs_deliver (h : Consistent s)
    (hmem : s.requests[job.id]? = some job.originalRequest)
    (hkey : jobKey job.originalRequest.header = jobKey resp.header) (k) (other : Job) :
    (s.outstandingJobs.erase (jobKey resp.header)).lookup k = some other ↔
      s.requests[other.id]? = some other.originalRequest ∧
        jobKey other.originalRequest.header = k ∧
        Function.update s.answer job.id .delivered other.id ≠ .delivered := by
  constructor
  · intro hother
    obtain ⟨hne, hother⟩ := FiniteMap.lookup_of_erase hother
    obtain ⟨homem, hokey, hanswer⟩ := (h.jobs k other).mp hother
    refine ⟨homem, hokey, ?_⟩
    rw [Function.update_of_ne]
    · exact hanswer
    · intro hid
      rw [hid, hmem, Option.some_inj] at homem
      exact hne (by rw [← hokey, ← homem, hkey])
  · rintro ⟨homem, hokey, hanswer⟩
    have hid : other.id ≠ job.id := by
      intro hid
      rw [hid, Function.update_self] at hanswer
      exact hanswer rfl
    rw [Function.update_of_ne hid] at hanswer
    have hne : k ≠ jobKey resp.header := by
      rintro rfl
      exact hid (h.id_unique homem hmem (hokey.trans hkey.symm))
    rw [AList.lookup_erase_ne hne]
    exact (h.jobs k other).mpr ⟨homem, hokey, hanswer⟩

private theorem missing_deliver_iff (harrived : s.answer id = .arrived) (i : ℕ) :
    Function.update s.answer id .delivered i = .missing ↔ s.answer i = .missing := by
  by_cases hid : i = id
  · rw [hid, Function.update_self, harrived]
    decide
  · rw [Function.update_of_ne hid]

private theorem Inv.runJob (h : Inv s) (hreading : s.reading = .arrived resp)
    (hjob : s.outstandingJobs.lookup (jobKey resp.header) = some job) :
    s.answer job.id = .arrived ∧ Inv (s.runJob job resp) := by
  obtain ⟨job', hjob', harrived⟩ := h.find hreading
  obtain rfl : job = job' := Option.some_inj.mp (hjob.symm.trans hjob')
  obtain ⟨hmem, hkey, -⟩ := (h.jobs _ job).mp hjob
  have hmissing := missing_deliver_iff harrived
  refine ⟨harrived, Consistent.startReadOne
    ⟨h.nodup, h.jobs_deliver hmem hkey, ?_, ?_, ?_, h.closedAt_le, ?_⟩⟩
  · intro i hi
    obtain ⟨hwrite, hanswer⟩ := h.unsent i hi
    exact ⟨hwrite, (hmissing i).mpr hanswer⟩
  · intro i hi
    exact (hmissing i).mpr (h.unanswered i hi)
  · intro i n hn hi
    exact h.early i n hn fun hanswer ↦ hi ((hmissing i).mpr hanswer)
  · intro call hcall
    rcases List.mem_append.mp hcall with hcall | hcall
    · exact h.own call hcall
    · rw [List.mem_singleton] at hcall
      subst hcall
      exact ⟨job.originalRequest, hmem, hkey.symm⟩

theorem Inv.close (h : Inv s) : Inv s.close := by
  refine ⟨⟨h.nodup, h.jobs, h.unsent, h.unanswered, ?_, ?_, ?_⟩, ?_⟩
  · intro i n hn hi
    obtain rfl : s.requests.length = n := Option.some_inj.mp hn
    by_contra hge
    exact hi (h.unsent i (Nat.not_lt.mp hge)).2
  · intro n hn
    exact Nat.le_of_eq (Option.some_inj.mp hn).symm
  · intro call hcall
    rcases List.mem_append.mp hcall with hcall | hcall
    · exact h.own call hcall
    · obtain ⟨e, he, rfl⟩ := List.mem_map.mp hcall
      obtain ⟨hmem, -⟩ := (h.jobs e.1 e.2).mp (AList.mem_lookup_iff.mpr he)
      exact ⟨e.2.originalRequest, hmem, rfl⟩
  · intro resp hresp
    cases hreading : s.reading with
    | idle | waiting => simp [State.close, hreading] at hresp
    | arrived other =>
      simp only [State.close, hreading, Reading.arrived.injEq] at hresp
      exact h.arrived resp (hresp ▸ hreading)

theorem Inv.step {e : Event} (h : Inv s) (hs : step s e = some s') : Inv s' := by
  cases e with
  | send request =>
    obtain ⟨hnew, rfl⟩ := step_send hs
    exact h.send hnew
  | written id failed =>
    obtain ⟨request, hrequest, -, hmissing, rfl⟩ := step_written hs
    exact h.written hrequest hmissing
  | arrive id resp =>
    obtain ⟨request, hrequest, hopen, hmissing, hwrite, hkey, rfl⟩ := step_arrive hs
    exact h.arrive hrequest hopen hmissing hwrite hkey
  | handle =>
    obtain ⟨resp, job, hreading, hjob, rfl⟩ := step_handle hs
    exact (h.runJob hreading hjob).2
  | readFailed =>
    rw [step_readFailed hs]
    exact ⟨⟨h.nodup, h.jobs, h.unsent, h.unanswered, h.early, h.closedAt_le, h.own⟩, nofun⟩
  | close =>
    obtain ⟨-, rfl⟩ := step_close hs
    exact h.close

end Invariant

/-! ## Counting the callbacks

A request is finished when its write has failed, when its response has been delivered, or when
`close` has come after it was sent. As long as the condition is met, the callbacks that have been
invoked are those of the finished requests, each once (`Counted`). An event that breaks it invokes
the callback of a finished request, and no later event takes an invocation back; so the condition is
exact. -/

/-- The write of the request failed, its response was delivered, or `close` found it. -/
def State.finished (s : State) (id : ℕ) : Prop :=
  s.write id = .failed ∨ s.answer id = .delivered ∨ ∃ n, s.closedAt = some n ∧ id < n

/-- Exactly the callbacks of the finished requests were invoked, each once. -/
structure Counted (s : State) : Prop where
  one : ∀ id, s.finished id → s.invoked id = 1
  zero : ∀ id, ¬s.finished id → s.invoked id = 0

section Count

variable {s s' : State} {request resp : Packet} {id : ℕ} {failed : Bool} {job : Job}

private theorem Counted.atMostOnce (h : Counted s) (id : ℕ) : s.invoked id ≤ 1 := by
  by_cases hfin : s.finished id
  · exact Nat.le_of_eq (h.one id hfin)
  · rw [h.zero id hfin]
    exact Nat.zero_le 1

private theorem counted_init : Counted State.init where
  one := fun id h ↦ by simp [State.finished, State.init] at h
  zero := fun _ _ ↦ rfl

theorem Counted.congr (h : Counted s) (hcalls : s'.calls = s.calls)
    (hfin : ∀ id, s'.finished id ↔ s.finished id) : Counted s' where
  one := fun id hid ↦ by
    rw [State.invoked, hcalls]
    exact h.one id ((hfin id).mp hid)
  zero := fun id hid ↦ by
    rw [State.invoked, hcalls]
    exact h.zero id fun hold ↦ hid ((hfin id).mpr hold)

private theorem invoked_of_call (hcalls : s'.calls = s.calls ++ [(id, resp)]) (i : ℕ) :
    s'.invoked i = s.invoked i + if i = id then 1 else 0 := by
  rw [State.invoked, hcalls, List.map_append, List.count_append, ← State.invoked,
    List.map_singleton, List.count_singleton]
  by_cases hi : i = id
  · simp [hi]
  · simp [hi, Ne.symm hi]

theorem Counted.call (h : Counted s) (hcalls : s'.calls = s.calls ++ [(id, resp)])
    (hnot : ¬s.finished id) (hfin : ∀ i, s'.finished i ↔ i = id ∨ s.finished i) : Counted s' where
  one := fun i hi ↦ by
    rw [invoked_of_call hcalls]
    rcases (hfin i).mp hi with rfl | hold
    · rw [h.zero i hnot, if_pos rfl]
    · rw [h.one i hold, if_neg]
      rintro rfl
      exact hnot hold
  zero := fun i hi ↦ by
    have hne : i ≠ id := fun heq ↦ hi ((hfin i).mpr (.inl heq))
    have hold : ¬s.finished i := fun hold ↦ hi ((hfin i).mpr (.inr hold))
    rw [invoked_of_call hcalls, h.zero i hold, if_neg hne]

/-- A callback that is invoked for a finished request has been invoked before. -/
theorem Counted.twice (h : Counted s) (hcalls : s'.calls = s.calls ++ [(id, resp)])
    (hfin : s.finished id) : ¬s'.invoked id ≤ 1 := by
  rw [invoked_of_call hcalls, h.one id hfin, if_pos rfl]
  decide

private theorem startReadOne_calls : s.startReadOne.calls = s.calls := rfl

private theorem startReadLoop_calls : s.startReadLoop.calls = s.calls := by
  rw [State.startReadLoop]
  split <;> rfl

private theorem startReadLoop_finished (id : ℕ) : s.startReadLoop.finished id ↔ s.finished id := by
  rw [State.startReadLoop]
  split <;> rfl

private theorem Counted.written_ok (h : Counted s) (hwrite : s.write id = .inProgress) :
    Counted (s.onWritten id request false) := by
  refine h.congr startReadLoop_calls fun i ↦ (startReadLoop_finished i).trans ?_
  have hsame : Function.update s.write id .succeeded i = .failed ↔ s.write i = .failed := by
    by_cases hi : i = id
    · rw [hi, Function.update_self, hwrite]
      simp
    · rw [Function.update_of_ne hi]
  rw [State.finished, State.finished, hsame]

private theorem finished_written (i : ℕ) :
    (s.onWritten id request true).finished i ↔ i = id ∨ s.finished i := by
  change (Function.update s.write id .failed i = .failed ∨ _) ↔ _
  by_cases hi : i = id
  · rw [hi, Function.update_self]
    simp
  · rw [Function.update_of_ne hi]
    exact ⟨.inr, fun h ↦ h.resolve_left hi⟩

private theorem finished_runJob (i : ℕ) :
    (s.runJob job resp).finished i ↔ i = job.id ∨ s.finished i := by
  change (_ ∨ Function.update s.answer job.id .delivered i = .delivered ∨ _) ↔ _
  by_cases hi : i = job.id
  · rw [hi, Function.update_self]
    simp
  · rw [Function.update_of_ne hi]
    exact ⟨.inr, fun h ↦ h.resolve_left hi⟩

private theorem finished_inProgress (hwrite : s.write id = .inProgress)
    (hanswer : s.answer id = .missing) :
    s.finished id ↔ ∃ n, s.closedAt = some n ∧ id < n := by
  rw [State.finished, hwrite, hanswer]
  simp

private theorem Inv.finished_arrived (h : Inv s) (hanswer : s.answer id = .arrived) :
    s.finished id ↔ ∃ n, s.closedAt = some n := by
  have hwrite : s.write id ≠ .failed := by
    intro hfailed
    rw [h.unanswered id hfailed] at hanswer
    cases hanswer
  rw [State.finished, hanswer]
  constructor
  · rintro (hfailed | hdelivered | ⟨n, hn, -⟩)
    · exact absurd hfailed hwrite
    · cases hdelivered
    · exact ⟨n, hn⟩
  · rintro ⟨n, hn⟩
    refine .inr (.inr ⟨n, hn, h.early id n hn ?_⟩)
    rw [hanswer]
    nofun

private theorem Inv.invoked_close (h : Inv s) (i : ℕ) : s.close.invoked i =
    s.invoked i + if i < s.requests.length ∧ s.answer i ≠ .delivered then 1 else 0 := by
  have hnodup : (s.outstandingJobs.entries.map fun e ↦ e.2.id).Nodup := by
    refine List.Nodup.map_on ?_ (List.NodupKeys.nodup s.outstandingJobs.nodupKeys)
    intro a ha b hb hid
    obtain ⟨hamem, hakey, -⟩ := (h.jobs a.1 a.2).mp (AList.mem_lookup_iff.mpr ha)
    obtain ⟨hbmem, hbkey, -⟩ := (h.jobs b.1 b.2).mp (AList.mem_lookup_iff.mpr hb)
    rw [hid, hbmem, Option.some_inj] at hamem
    refine List.NodupKeys.eq_of_fst_eq s.outstandingJobs.nodupKeys ha hb ?_
    rw [← hakey, ← hbkey, hamem]
  have hmem : i ∈ (s.outstandingJobs.entries.map fun e ↦ e.2.id) ↔
      i < s.requests.length ∧ s.answer i ≠ .delivered := by
    constructor
    · intro hi
      obtain ⟨e, he, rfl⟩ := List.mem_map.mp hi
      obtain ⟨hreq, -, hanswer⟩ := (h.jobs e.1 e.2).mp (AList.mem_lookup_iff.mpr he)
      exact ⟨(List.getElem?_eq_some_iff.mp hreq).1, hanswer⟩
    · rintro ⟨hlt, hanswer⟩
      have hjob := (h.jobs _ ⟨i, s.requests[i]⟩).mpr ⟨List.getElem?_eq_getElem hlt, rfl, hanswer⟩
      exact List.mem_map.mpr ⟨⟨_, ⟨i, s.requests[i]⟩⟩, AList.mem_lookup_iff.mp hjob, rfl⟩
  rw [State.invoked, State.close, List.map_append, List.count_append, ← State.invoked,
    List.map_map, Function.comp_def, hnodup.count]
  simp only [hmem]

theorem Counted.close (hinv : Inv s) (h : Counted s) (hopen : s.closedAt = none)
    (hclean : ∀ id < s.requests.length, s.write id ≠ .failed) : Counted s.close := by
  have hfin : ∀ i, s.close.finished i ↔ i < s.requests.length := by
    intro i
    constructor
    · intro hi
      by_contra hge
      obtain ⟨hwrite, hanswer⟩ := hinv.unsent i (Nat.not_lt.mp hge)
      obtain ⟨n, hn, hlt⟩ := (finished_inProgress (s := s.close) hwrite hanswer).mp hi
      exact hge ((Option.some_inj.mp hn) ▸ hlt)
    · exact fun hi ↦ .inr (.inr ⟨_, rfl, hi⟩)
  have hold : ∀ i < s.requests.length, (s.finished i ↔ s.answer i = .delivered) := by
    intro i hi
    rw [State.finished, hopen]
    simp [hclean i hi]
  constructor
  · intro i hi
    rw [hfin] at hi
    rw [hinv.invoked_close]
    by_cases hdel : s.answer i = .delivered
    · rw [h.one i ((hold i hi).mpr hdel), if_neg fun h ↦ h.2 hdel]
    · rw [h.zero i fun h ↦ hdel ((hold i hi).mp h), if_pos ⟨hi, hdel⟩]
  · intro i hi
    rw [hfin] at hi
    obtain ⟨hwrite, hanswer⟩ := hinv.unsent i (Nat.not_lt.mp hi)
    have hnot : ¬s.finished i := by
      rw [finished_inProgress hwrite hanswer, hopen]
      simp
    rw [hinv.invoked_close, h.zero i hnot, if_neg fun h ↦ hi h.1]

theorem Counted.step {e : Event} (hinv : Inv s) (h : Counted s) (hclean : Clean s e)
    (hs : step s e = some s') : Counted s' := by
  cases e with
  | send request =>
    obtain ⟨-, rfl⟩ := step_send hs
    exact h.congr rfl fun _ ↦ Iff.rfl
  | written id failed =>
    obtain ⟨request, -, hwrite, hmissing, rfl⟩ := step_written hs
    cases failed with
    | false => exact h.written_ok hwrite
    | true =>
      refine h.call rfl ?_ finished_written
      rw [finished_inProgress hwrite (hmissing rfl)]
      rintro ⟨n, hn, hlt⟩
      exact Nat.not_lt.mpr (hclean n hn) hlt
  | arrive id resp =>
    obtain ⟨request, -, -, hmissing, -, -, rfl⟩ := step_arrive hs
    refine h.congr rfl fun i ↦ ?_
    change (_ ∨ Function.update s.answer id .arrived i = .delivered ∨ _) ↔ _
    by_cases hi : i = id
    · rw [hi, Function.update_self, State.finished, hmissing]
      simp
    · rw [Function.update_of_ne hi, State.finished]
  | handle =>
    obtain ⟨resp, job, hreading, hjob, rfl⟩ := step_handle hs
    refine h.call startReadOne_calls ?_ finished_runJob
    rw [hinv.finished_arrived (hinv.runJob hreading hjob).1]
    rintro ⟨n, hn⟩
    rw [show s.closedAt = none from hclean] at hn
    cases hn
  | readFailed =>
    rw [step_readFailed hs]
    exact h.congr rfl fun _ ↦ Iff.rfl
  | close =>
    obtain ⟨hopen, rfl⟩ := step_close hs
    exact h.close hinv hopen hclean

/-- An event that breaks the condition invokes a callback for the second time. -/
theorem Counted.clean_of_atMostOnce {e : Event} (hinv : Inv s) (h : Counted s)
    (hs : Backend.step s e = some s') (honce : ∀ id, s'.invoked id ≤ 1) : Clean s e := by
  cases e with
  | send request => trivial
  | written id failed =>
    obtain ⟨request, -, hwrite, hmissing, rfl⟩ := step_written hs
    cases failed with
    | false => trivial
    | true =>
      intro n hn
      by_contra hlt
      have hfin : s.finished id := .inr (.inr ⟨n, hn, Nat.not_le.mp hlt⟩)
      exact h.twice rfl hfin (honce id)
  | arrive id resp => trivial
  | handle =>
    obtain ⟨resp, job, hreading, hjob, rfl⟩ := step_handle hs
    refine Option.eq_none_iff_forall_not_mem.mpr fun n hn ↦ ?_
    have hfin : s.finished job.id :=
      (hinv.finished_arrived (hinv.runJob hreading hjob).1).mpr ⟨n, hn⟩
    exact h.twice startReadOne_calls hfin (honce job.id)
  | readFailed => trivial
  | close =>
    obtain ⟨-, rfl⟩ := step_close hs
    intro id hid hfailed
    have hmissing := hinv.unanswered id hfailed
    have htwice := honce id
    rw [hinv.invoked_close, h.one id (.inl hfailed), if_pos ⟨hid, by rw [hmissing]; nofun⟩]
      at htwice
    exact absurd htwice (by decide)

end Count

/-- **When callbacks run at most once, with what belongs to their request.** -/
theorem wellAnswered_iff_clean {es : List Event} {t : State}
    (hrun : run step State.init es = some t) :
    Always step WellAnswered State.init es ↔ Meets step Clean State.init es := by
  refine always_iff_meets (I := fun s ↦ Inv s ∧ Counted s) ?_ ?_ ?_ hrun ⟨inv_init, counted_init⟩
  · rintro s e s' hclean hs ⟨hinv, hcount⟩
    exact ⟨hinv.step hs, hcount.step hinv hclean hs⟩
  · rintro s ⟨hinv, hcount⟩
    exact ⟨hcount.atMostOnce, hinv.own⟩
  · rintro s e s' ⟨hinv, hcount⟩ hs hwell
    exact hcount.clean_of_atMostOnce hinv hs hwell.atMostOnce

/-- A get of the first block of a file, with a salt. -/
def getRequest (salt : UInt8) : Packet :=
  Packet.createRequest (.replicate 32 1) .get 0 0 0 4 (.replicate 4 salt)

/-- The answer to it. -/
def gotResponse (salt : UInt8) : Packet :=
  { header := { (getRequest salt).header with type := .ack }, data := [1, 2, 3, 4] }

/-- Two requests, answered in the other order, and a third one that `close` cancels. -/
def cleanRun : List Event :=
  [.send (getRequest 1), .send (getRequest 2), .written 0 false, .arrive 1 (gotResponse 2), .handle,
    .written 1 false, .send (getRequest 3), .arrive 0 (gotResponse 1), .handle, .written 2 false,
    .close]

theorem wellAnswered_cleanRun : (run step State.init cleanRun).isSome ∧
    Always step WellAnswered State.init cleanRun := by
  have hsome : (run step State.init cleanRun).isSome := by decide +kernel
  obtain ⟨t, ht⟩ := Option.isSome_iff_exists.mp hsome
  exact ⟨hsome, (wellAnswered_iff_clean ht).mpr (by decide +kernel)⟩

/-- The write of a request fails, and the connection is closed: its callback runs twice. -/
theorem failed_write_cancelled_twice :
    ∃ t, run step State.init [.send (getRequest 1), .written 0 true, .close] = some t ∧
      ¬WellAnswered t := by
  refine ⟨_, rfl, fun h ↦ ?_⟩
  exact absurd (h.atMostOnce 0) (by decide +kernel)

end Slsfs.Datafunction.Backend

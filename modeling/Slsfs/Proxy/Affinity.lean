import Slsfs.Proxy.Launcher

/-!
# Files stay with their workers

A file is bound to the worker its first job is written to, and a binding is taken away only when a
job of the file is rescheduled because its worker closes. The bindings are in a concurrent map, and
`process_job` uses it in three steps: it looks the file up, it picks a worker if there is none that
is valid, and it binds the file to that one with `emplace`. Calls are posted to an `io_context` that
several threads run, and not to a strand, so anything may come between the steps.

## What is one step

A look-up or an insertion of a concurrent map, a look at `valid_`, and the write to the worker. What
`get_available_worker` returns is left open: it goes through the set of workers while they take and
finish jobs, so either policy may return any worker. `worker::close` first marks the worker and then
hands over its bindings and its jobs one by one, and `add_worker` goes through the bindings of a
transfer request one by one too.

## The two ways to lose a file

`emplace` leaves an entry that is there as it is, and nothing looks at its result. So a file is
written to one worker and bound to another one

* if two calls find it unbound, and each picks a worker, or
* if it is bound to a worker that closed while it had no job of the file: then nothing takes the
  binding away.

A job that is rescheduled in between takes a binding away that another call still relies on.
-/

namespace Slsfs.Proxy.Affinity

open LeveldbPack

/-- How far a call of `process_job` or `process_job_with_worker` is. -/
inductive Phase where
  /-- It is posted. -/
  | posted
  /-- `get_assigned_worker` has returned. -/
  | assigned (worker : Option ℕ)
  /-- There is no worker, or not a valid one: `get_available_worker` is next. -/
  | picking
  | picked (worker : Option ℕ)
  /-- The worker is valid: `emplace` is next. -/
  | emplacing (worker : ℕ)
  /-- `start_write`, or `next` of a `process_job_with_worker`, is next. -/
  | decided (worker : ℕ)
  | returned
  deriving DecidableEq

/-- A call of `process_job`, or of `process_job_with_worker` if there is no job. -/
structure Call where
  header : PacketHeader
  job : Option ℕ
  phase : Phase
  deriving DecidableEq

structure State where
  /-- The worker of each number, once there is one. -/
  workers : ℕ → Worker
  workerCount : ℕ
  workerSet : List ℕ
  fileidToWorker : FiniteMap Key ℕ
  transferRequests : List (List Key)
  /-- The bindings that `add_worker` still has to go through, with the worker they are for. -/
  transferring : List (ℕ × Key)
  /-- The header of the packet of each job. -/
  jobs : List PacketHeader
  /-- All calls in the order in which they are posted. -/
  calls : List Call
  /-- The posted handlers of worker responses. -/
  responses : List (ℕ × PacketHeader)

inductive Event where
  /-- A client request becomes a job. -/
  | schedule (header : PacketHeader)
  /-- A client request is to be sent to the worker directly. -/
  | processJobWithWorker (header : PacketHeader)
  /-- A call takes its next step, with what `get_available_worker` returns if that is it. -/
  | resume (call : ℕ) (pick : Option ℕ)
  /-- A worker response is read and its handler posted. -/
  | onWorkerResponse (worker : ℕ) (header : PacketHeader)
  | handleResponse (worker : ℕ) (header : PacketHeader)
  /-- `worker::close` sets `valid_`. -/
  | close (worker : ℕ)
  /-- `on_worker_close`, with the file bindings of the cache table. -/
  | onWorkerClose (worker : ℕ) (bindings : List Key)
  /-- `close` comes to a job. -/
  | onWorkerReschedule (worker job : ℕ)
  /-- A worker registers. -/
  | addWorker
  /-- `add_worker` leaves the next file to the open worker it has found. -/
  | passTransferred
  /-- `add_worker` binds the next file. What it has found before may be out of date. -/
  | bindTransferred
  deriving DecidableEq

namespace State

def init : State := ⟨fun _ ↦ ⟨false, ∅⟩, 0, [], ∅, [], [], [], [], []⟩

def setWorker (s : State) (w : ℕ) (worker : Worker) : State :=
  { s with workers := Function.update s.workers w worker }

theorem setWorker_workers_self (s : State) (w : ℕ) (worker : Worker) :
    (s.setWorker w worker).workers w = worker := Function.update_self ..

theorem setWorker_workers_of_ne (s : State) {v w : ℕ} (worker : Worker) (h : v ≠ w) :
    (s.setWorker w worker).workers v = s.workers v := Function.update_of_ne h ..

def post (s : State) (header : PacketHeader) (job : Option ℕ) : State :=
  { s with calls := s.calls ++ [⟨header, job, .posted⟩] }

/-- A call goes on. -/
def advance (s : State) (i : ℕ) (c : Call) (phase : Phase) : State :=
  { s with calls := s.calls.set i { c with phase := phase } }

/-- A call that has no worker: the job is rescheduled, or the call posts itself. -/
def giveUp (s : State) (i : ℕ) (c : Call) : State :=
  (s.advance i c .returned).post c.header c.job

/-- `worker::start_write` of a job. A `process_job_with_worker` only passes the worker on. -/
def startWrite (s : State) (w : ℕ) (c : Call) : State :=
  match c.job with
  | none => s
  | some job => s.setWorker w ⟨(s.workers w).valid, (s.workers w).startedJobs.emplace c.header job⟩

/-- `process_job` and `process_job_with_worker`, a step at a time. -/
def resume (s : State) (i : ℕ) (c : Call) (pick : Option ℕ) : Option State :=
  match c.phase with
  | .posted => some (s.advance i c (.assigned (s.fileidToWorker.lookup c.header.key)))
  | .assigned none => some (s.advance i c .picking)
  | .assigned (some w) =>
    some (s.advance i c (if (s.workers w).valid then .decided w else .picking))
  | .picking =>
    if ∀ w ∈ pick, w < s.workerCount then some (s.advance i c (.picked pick)) else none
  | .picked none => some (s.giveUp i c)
  | .picked (some w) =>
    some (if (s.workers w).valid then s.advance i c (.emplacing w) else s.giveUp i c)
  | .emplacing w =>
    some { s.advance i c (.decided w) with
      fileidToWorker := s.fileidToWorker.emplace c.header.key w }
  | .decided w => some ((s.startWrite w c).advance i c .returned)
  | .returned => none

/-- The handler of a response. -/
def handleResponse (s : State) (w : ℕ) (header : PacketHeader) : State :=
  s.setWorker w ⟨(s.workers w).valid, (s.workers w).startedJobs.erase header⟩

/-- `on_worker_reschedule`. -/
def onWorkerReschedule (s : State) (job : ℕ) (header : PacketHeader) : State :=
  { s with fileidToWorker := s.fileidToWorker.erase header.key }.post header job

/-- `add_worker`, up to the loop over the bindings. -/
def addWorker (s : State) : State :=
  { s.setWorker s.workerCount ⟨true, ∅⟩ with
    workerCount := s.workerCount + 1
    workerSet := s.workerSet ++ [s.workerCount]
    transferRequests := s.transferRequests.tail
    transferring := s.transferring
      ++ (s.transferRequests.headD []).map fun key ↦ (s.workerCount, key) }

end State

/-- One event. -/
def step (s : State) : Event → Option State
  | .schedule header =>
    some ({ s with jobs := s.jobs ++ [header] }.post header (some s.jobs.length))
  | .processJobWithWorker header => some (s.post header none)
  | .resume i pick => (s.calls[i]?).bind fun c ↦ s.resume i c pick
  | .onWorkerResponse w header =>
    if w < s.workerCount then some { s with responses := (w, header) :: s.responses } else none
  | .handleResponse w header =>
    if s.responses.contains (w, header) then
      some ({ s with responses := s.responses.erase (w, header) }.handleResponse w header)
    else none
  | .close w =>
    if w < s.workerCount then some (s.setWorker w ⟨false, (s.workers w).startedJobs⟩) else none
  | .onWorkerClose w bindings =>
    if (s.workers w).valid then none
    else some { s with
      transferRequests := s.transferRequests ++ [bindings]
      workerSet := s.workerSet.filter (· ≠ w) }
  | .onWorkerReschedule w job =>
    match s.jobs[job]? with
    | none => none
    | some header =>
      if (s.workers w).valid = false ∧ (s.workers w).startedJobs.lookup header = some job then
        some (s.onWorkerReschedule job header)
      else none
  | .addWorker => some s.addWorker
  | .passTransferred =>
    match s.transferring with
    | [] => none
    | (_, key) :: rest =>
      if (s.fileidToWorker.lookup key).any fun v ↦ (s.workers v).valid then
        some { s with transferring := rest }
      else none
  | .bindTransferred =>
    match s.transferring with
    | [] => none
    | (w, key) :: rest =>
      some { s with
        transferring := rest
        fileidToWorker := s.fileidToWorker.emplace key w }

/-- The file and the worker of a packet that the event dispatches. -/
def dispatch (s : State) : Event → Option (Key × ℕ)
  | .resume i _ => (s.calls[i]?).bind fun c ↦
      match c.phase with
      | .decided w => some (c.header.key, w)
      | _ => none
  | _ => none

/-- The event reschedules a job of the file because its worker closes. -/
def Reschedules (file : Key) (s : State) : Event → Prop
  | .onWorkerReschedule _ job => ∃ header ∈ s.jobs[job]?, header.key = file
  | _ => False

instance decidableReschedules (file : Key) (s : State) : ∀ e, Decidable (Reschedules file s e)
  | .onWorkerReschedule _ job => inferInstanceAs (Decidable (∃ header ∈ s.jobs[job]?, _))
  | .schedule _ | .processJobWithWorker _ | .resume _ _ | .onWorkerResponse _ _
  | .handleResponse _ _ | .close _ | .onWorkerClose _ _ | .addWorker | .passTransferred
  | .bindTransferred => .isFalse id

/-- The worker that a call has found open for its file, and is going to dispatch to. -/
def Call.holds (workers : ℕ → Worker) (c : Call) : Option ℕ :=
  match c.phase with
  | .assigned w => w.filter fun w ↦ (workers w).valid
  | .decided w => some w
  | _ => none

/-- The worker that `emplace` is about to bind the file of a call to. -/
def Call.binds (c : Call) : Option ℕ :=
  match c.phase with
  | .emplacing w => some w
  | _ => none

/-- **The condition.** A call that binds its file finds no entry for it, or one for the same worker.
No job of a file is rescheduled while a call for the file has found an open worker and has not
dispatched to it yet. -/
def Undisturbed (s : State) : Event → Prop
  | .resume i _ => ∀ c ∈ s.calls[i]?, ∀ w ∈ c.binds, ∀ v ∈ s.fileidToWorker.lookup c.header.key,
      v = w
  | .onWorkerReschedule _ job => ∀ header ∈ s.jobs[job]?, ∀ c ∈ s.calls,
      c.header.key = header.key → c.holds s.workers = none
  | _ => True

instance decidableUndisturbed (s : State) : ∀ e, Decidable (Undisturbed s e)
  | .resume i _ => inferInstanceAs (Decidable (∀ c ∈ s.calls[i]?, ∀ w ∈ c.binds,
      ∀ v ∈ s.fileidToWorker.lookup c.header.key, v = w))
  | .onWorkerReschedule _ job => inferInstanceAs (Decidable (∀ header ∈ s.jobs[job]?,
      ∀ c ∈ s.calls, c.header.key = header.key → c.holds s.workers = none))
  | .schedule _ | .processJobWithWorker _ | .onWorkerResponse _ _
  | .handleResponse _ _ | .close _ | .onWorkerClose _ _ | .addWorker | .passTransferred
  | .bindTransferred => .isTrue trivial

/-! ## Calls know the binding of their file

A call that has found an open worker, or bound one, relies on the binding: it is there until the
call has dispatched. For this a worker that closes has to stay closed, so the numbers that calls and
bindings name are of workers that have registered. -/

/-- The worker that a phase names. -/
def Phase.worker : Phase → Option ℕ
  | .assigned w => w
  | .picked w => w
  | .emplacing w => some w
  | .decided w => some w
  | .posted | .picking | .returned => none

structure Inv (s : State) : Prop where
  holds : ∀ c ∈ s.calls, ∀ w ∈ c.holds s.workers,
    s.fileidToWorker.lookup c.header.key = some w
  bound : ∀ key w, s.fileidToWorker.lookup key = some w → w < s.workerCount
  named : ∀ c ∈ s.calls, ∀ w ∈ c.phase.worker, w < s.workerCount
  transferring : ∀ r ∈ s.transferring, r.1 < s.workerCount

private theorem inv_init : Inv State.init where
  holds := List.forall_mem_nil _
  bound := fun _ _ h ↦ by cases h
  named := List.forall_mem_nil _
  transferring := List.forall_mem_nil _

private theorem mem_holds_assigned {workers : ℕ → Worker} {header : PacketHeader}
    {job found : Option ℕ} {w : ℕ} :
    w ∈ Call.holds workers ⟨header, job, .assigned found⟩ ↔
      found = some w ∧ (workers w).valid = true := Option.filter_eq_some_iff

private theorem holds_of_le {workers workers' : ℕ → Worker} {c : Call} {w : ℕ}
    (hle : ∀ v ∈ c.phase.worker, (workers' v).valid = true → (workers v).valid = true)
    (h : w ∈ c.holds workers') : w ∈ c.holds workers := by
  obtain ⟨header, job, phase⟩ := c
  cases phase with
  | assigned v =>
    obtain ⟨rfl, hvalid⟩ := mem_holds_assigned.mp h
    exact mem_holds_assigned.mpr ⟨rfl, hle w rfl hvalid⟩
  | decided v => exact h
  | posted | picking | picked | emplacing | returned => cases h

/-! ## One step

No worker opens again, and bindings are not replaced, so most steps change nothing that a call
relies on. The condition is needed where a call binds its file and where the binding of a file is
erased. -/

section Steps

variable {s s' : State} {e : Event}

/-- What a step can do. -/
inductive Effect (s : State) : Event → State → Prop
  | schedule (header : PacketHeader) : Effect s (.schedule header)
      ({ s with jobs := s.jobs ++ [header] }.post header (some s.jobs.length))
  | processJobWithWorker (header : PacketHeader) :
      Effect s (.processJobWithWorker header) (s.post header none)
  | resume (i : ℕ) (pick : Option ℕ) (c : Call) (s' : State) (hc : s.calls[i]? = some c)
      (hresume : s.resume i c pick = some s') : Effect s (.resume i pick) s'
  | onWorkerResponse (w : ℕ) (header : PacketHeader) :
      Effect s (.onWorkerResponse w header) { s with responses := (w, header) :: s.responses }
  | handleResponse (w : ℕ) (header : PacketHeader) : Effect s (.handleResponse w header)
      ({ s with responses := s.responses.erase (w, header) }.handleResponse w header)
  | close (w : ℕ) : Effect s (.close w) (s.setWorker w ⟨false, (s.workers w).startedJobs⟩)
  | onWorkerClose (w : ℕ) (bindings : List Key) : Effect s (.onWorkerClose w bindings)
      { s with
        transferRequests := s.transferRequests ++ [bindings]
        workerSet := s.workerSet.filter (· ≠ w) }
  | onWorkerReschedule (w job : ℕ) (header : PacketHeader) (hheader : s.jobs[job]? = some header) :
      Effect s (.onWorkerReschedule w job) (s.onWorkerReschedule job header)
  | addWorker : Effect s .addWorker s.addWorker
  | passTransferred (r : ℕ × Key) (rest : List (ℕ × Key)) (hlist : s.transferring = r :: rest) :
      Effect s .passTransferred { s with transferring := rest }
  | bindTransferred (w : ℕ) (key : Key) (rest : List (ℕ × Key))
      (hlist : s.transferring = (w, key) :: rest) : Effect s .bindTransferred
        { s with
          transferring := rest
          fileidToWorker := s.fileidToWorker.emplace key w }

private theorem effect_of_step (h : step s e = some s') : Effect s e s' := by
  cases e with
  | schedule header =>
    cases h
    exact .schedule header
  | processJobWithWorker header =>
    cases h
    exact .processJobWithWorker header
  | resume i pick =>
    obtain ⟨c, hc, hresume⟩ := Option.bind_eq_some_iff.mp h
    exact .resume i pick c s' hc hresume
  | onWorkerResponse w header =>
    obtain ⟨-, h⟩ := Option.ite_none_right_eq_some.mp h
    cases h
    exact .onWorkerResponse w header
  | handleResponse w header =>
    obtain ⟨-, h⟩ := Option.ite_none_right_eq_some.mp h
    cases h
    exact .handleResponse w header
  | close w =>
    obtain ⟨-, h⟩ := Option.ite_none_right_eq_some.mp h
    cases h
    exact .close w
  | onWorkerClose w bindings =>
    obtain ⟨-, h⟩ := Option.ite_none_left_eq_some.mp h
    cases h
    exact .onWorkerClose w bindings
  | onWorkerReschedule w job =>
    rw [step] at h
    split at h
    · cases h
    · rename_i header hheader
      obtain ⟨-, h⟩ := Option.ite_none_right_eq_some.mp h
      cases h
      exact .onWorkerReschedule w job header hheader
  | addWorker =>
    cases h
    exact .addWorker
  | passTransferred =>
    rw [step] at h
    split at h
    · cases h
    · rename_i w key rest hlist
      obtain ⟨-, h⟩ := Option.ite_none_right_eq_some.mp h
      cases h
      exact .passTransferred (w, key) rest hlist
  | bindTransferred =>
    rw [step] at h
    split at h
    · cases h
    · rename_i w key rest hlist
      cases h
      exact .bindTransferred w key rest hlist

private theorem Inv.advance (h : Inv s) {i : ℕ} {c : Call} {phase : Phase}
    (hholds : ∀ w ∈ ({ c with phase := phase } : Call).holds s.workers,
      s.fileidToWorker.lookup c.header.key = some w)
    (hnamed : ∀ w ∈ phase.worker, w < s.workerCount) : Inv (s.advance i c phase) where
  holds := fun d hd ↦ by
    rcases List.mem_or_eq_of_mem_set hd with hd | rfl
    · exact h.holds d hd
    · exact hholds
  bound := h.bound
  named := fun d hd ↦ by
    rcases List.mem_or_eq_of_mem_set hd with hd | rfl
    · exact h.named d hd
    · exact hnamed
  transferring := h.transferring

private theorem Inv.post (h : Inv s) (header : PacketHeader) (job : Option ℕ) :
    Inv (s.post header job) where
  holds := fun d hd ↦ by
    rcases List.mem_append.mp hd with hd | hd
    · exact h.holds d hd
    · rw [List.mem_singleton.mp hd]
      exact fun w hw ↦ by cases hw
  bound := h.bound
  named := fun d hd ↦ by
    rcases List.mem_append.mp hd with hd | hd
    · exact h.named d hd
    · rw [List.mem_singleton.mp hd]
      exact fun w hw ↦ by cases hw
  transferring := h.transferring

private theorem Inv.setWorker (h : Inv s) {w : ℕ} {worker : Worker}
    (hle : worker.valid = true → (s.workers w).valid = true) : Inv (s.setWorker w worker) where
  holds := fun c hc v hv ↦ by
    refine h.holds c hc v (holds_of_le (fun u _ hu ↦ ?_) hv)
    by_cases huw : u = w
    · subst huw
      rw [State.setWorker_workers_self] at hu
      exact hle hu
    · rwa [State.setWorker_workers_of_ne s worker huw] at hu
  bound := h.bound
  named := h.named
  transferring := h.transferring

private theorem Inv.emplace (h : Inv s) (key : Key) {w : ℕ} (hw : w < s.workerCount) :
    Inv { s with fileidToWorker := s.fileidToWorker.emplace key w } where
  holds := fun c hc v hv ↦ FiniteMap.lookup_emplace_of_some (h.holds c hc v hv) key w
  bound := fun k v hv ↦ by
    rcases FiniteMap.lookup_of_emplace hv with hold | ⟨-, rfl, -⟩
    · exact h.bound k v hold
    · exact hw
  named := h.named
  transferring := h.transferring

private theorem Inv.erase (h : Inv s) {key : Key}
    (hfree : ∀ c ∈ s.calls, c.header.key = key → c.holds s.workers = none) :
    Inv { s with fileidToWorker := s.fileidToWorker.erase key } where
  holds := fun c hc w hw ↦ by
    have hne : c.header.key ≠ key := by
      intro heq
      rw [Option.mem_def, hfree c hc heq] at hw
      cases hw
    dsimp only
    rw [AList.lookup_erase_ne hne]
    exact h.holds c hc w hw
  bound := fun k w hw ↦ h.bound k w (FiniteMap.lookup_of_erase hw).2
  named := h.named
  transferring := h.transferring

private theorem Inv.addWorker (h : Inv s) : Inv s.addWorker where
  holds := fun c hc w hw ↦ by
    refine h.holds c hc w (holds_of_le (fun v hv hvalid ↦ ?_) hw)
    have hold : s.addWorker.workers v = s.workers v :=
      State.setWorker_workers_of_ne s _ (h.named c hc v hv).ne
    rwa [hold] at hvalid
  bound := fun key w hw ↦ Nat.lt_succ_of_lt (h.bound key w hw)
  named := fun c hc w hw ↦ Nat.lt_succ_of_lt (h.named c hc w hw)
  transferring := fun r hr ↦ by
    rcases List.mem_append.mp hr with hr | hr
    · exact Nat.lt_succ_of_lt (h.transferring r hr)
    · obtain ⟨key, -, rfl⟩ := List.mem_map.mp hr
      exact Nat.lt_succ_self s.workerCount

/-- The only step of a call that needs the condition is the one that binds its file. -/
private theorem Inv.resume (h : Inv s) {i : ℕ} {c : Call} {pick : Option ℕ} (hc : c ∈ s.calls)
    (hfree : ∀ w ∈ c.binds, ∀ v ∈ s.fileidToWorker.lookup c.header.key, v = w)
    (hstep : s.resume i c pick = some s') : Inv s' := by
  have hnamed := h.named c hc
  have hheld := h.holds c hc
  have hgiveUp : Inv (s.giveUp i c) :=
    (h.advance (fun w hw ↦ by cases hw) fun w hw ↦ by cases hw).post c.header c.job
  obtain ⟨header, job, phase⟩ := c
  cases phase with
  | posted =>
    cases hstep
    refine h.advance (fun w hw ↦ (mem_holds_assigned.mp hw).1) fun w hw ↦ ?_
    exact h.bound header.key w hw
  | assigned found =>
    cases found with
    | none =>
      cases hstep
      exact h.advance (fun w hw ↦ by cases hw) fun w hw ↦ by cases hw
    | some v =>
      cases hstep
      split
      · rename_i hvalid
        have hv := hheld v (mem_holds_assigned.mpr ⟨rfl, hvalid⟩)
        exact h.advance (fun w hw ↦ (Option.some_inj.mp hw) ▸ hv) hnamed
      · exact h.advance (fun w hw ↦ by cases hw) fun w hw ↦ by cases hw
  | picking =>
    rw [State.resume] at hstep
    dsimp only at hstep
    split at hstep
    · rename_i hpick
      cases hstep
      exact h.advance (fun w hw ↦ by cases hw) hpick
    · cases hstep
  | picked found =>
    cases found with
    | none =>
      cases hstep
      exact hgiveUp
    | some v =>
      cases hstep
      split
      · exact h.advance (fun w hw ↦ by cases hw) hnamed
      · exact hgiveUp
  | emplacing v =>
    cases hstep
    refine (h.emplace header.key (hnamed v rfl)).advance (fun w hw ↦ ?_) hnamed
    -- by the condition the entry is for this worker, whether or not it is a new one
    rw [← Option.some_inj.mp hw]
    dsimp only
    rw [FiniteMap.lookup_emplace]
    cases hlookup : s.fileidToWorker.lookup header.key with
    | none => rfl
    | some u => rw [hfree v rfl u hlookup, Option.getD_some]
  | decided v =>
    cases hstep
    have hwritten : Inv (s.startWrite v ⟨header, job, .decided v⟩) := by
      rw [State.startWrite]
      split
      · exact h
      · exact h.setWorker id
    exact hwritten.advance (fun w hw ↦ by cases hw) fun w hw ↦ by cases hw
  | returned => cases hstep

/-- **Step lemma.** A step that meets the condition leaves the calls right about their files. -/
theorem inv_step (hcond : Undisturbed s e) (hstep : step s e = some s') (h : Inv s) : Inv s' := by
  cases effect_of_step hstep with
  | schedule header =>
    have hscheduled : Inv { s with jobs := s.jobs ++ [header] } :=
      ⟨h.holds, h.bound, h.named, h.transferring⟩
    exact hscheduled.post header (some s.jobs.length)
  | processJobWithWorker header => exact h.post header none
  | resume i pick c _ hc hresume =>
    exact h.resume (List.mem_of_getElem? hc) (hcond c hc) hresume
  | onWorkerResponse => exact ⟨h.holds, h.bound, h.named, h.transferring⟩
  | handleResponse w header =>
    have htaken : Inv { s with responses := s.responses.erase (w, header) } :=
      ⟨h.holds, h.bound, h.named, h.transferring⟩
    exact htaken.setWorker fun hvalid ↦ hvalid
  | close => exact h.setWorker fun hvalid ↦ by cases hvalid
  | onWorkerClose => exact ⟨h.holds, h.bound, h.named, h.transferring⟩
  | onWorkerReschedule w job header hheader =>
    exact (h.erase (hcond header hheader)).post header job
  | addWorker => exact h.addWorker
  | passTransferred r rest hlist =>
    exact ⟨h.holds, h.bound, h.named, fun q hq ↦
      h.transferring q (hlist ▸ List.mem_cons_of_mem _ hq)⟩
  | bindTransferred w key rest hlist =>
    have hw : w < s.workerCount := h.transferring (w, key) (hlist ▸ List.mem_cons_self)
    have htaken : Inv { s with transferring := rest } := ⟨h.holds, h.bound, h.named, fun q hq ↦
      h.transferring q (hlist ▸ List.mem_cons_of_mem _ hq)⟩
    exact htaken.emplace key hw

/-! ## Bindings last

Only the rescheduling of a job of the file takes its binding away. -/

private theorem lookup_resume {file : Key} {w i : ℕ} {c : Call} {pick : Option ℕ}
    (hstep : s.resume i c pick = some s') (hbound : s.fileidToWorker.lookup file = some w) :
    s'.fileidToWorker.lookup file = some w := by
  obtain ⟨header, job, phase⟩ := c
  cases phase with
  | posted =>
    cases hstep
    exact hbound
  | assigned found =>
    cases found with
    | none =>
      cases hstep
      exact hbound
    | some v =>
      cases hstep
      exact hbound
  | picking =>
    rw [State.resume] at hstep
    dsimp only at hstep
    split at hstep
    · cases hstep
      exact hbound
    · cases hstep
  | picked found =>
    cases found with
    | none =>
      cases hstep
      exact hbound
    | some v =>
      cases hstep
      split
      · exact hbound
      · exact hbound
  | emplacing v =>
    cases hstep
    exact FiniteMap.lookup_emplace_of_some hbound header.key v
  | decided v =>
    cases hstep
    rw [State.startWrite]
    split
    · exact hbound
    · exact hbound
  | returned => cases hstep

private theorem lookup_step {file : Key} {w : ℕ} (hkeeps : ¬ Reschedules file s e)
    (hstep : step s e = some s') (hbound : s.fileidToWorker.lookup file = some w) :
    s'.fileidToWorker.lookup file = some w := by
  cases effect_of_step hstep with
  | resume i pick c _ _ hresume => exact lookup_resume hresume hbound
  | onWorkerReschedule v job header hheader =>
    have hne : file ≠ header.key := fun heq ↦ hkeeps ⟨header, hheader, heq.symm⟩
    exact (AList.lookup_erase_ne hne).trans hbound
  | bindTransferred v key rest => exact FiniteMap.lookup_emplace_of_some hbound key v
  | schedule | processJobWithWorker | onWorkerResponse | handleResponse | close | onWorkerClose
  | addWorker | passTransferred => exact hbound

private theorem Inv.lookup_of_dispatch (h : Inv s) {file : Key} {w : ℕ}
    (hdispatch : dispatch s e = some (file, w)) : s.fileidToWorker.lookup file = some w := by
  cases e with
  | resume i pick =>
    obtain ⟨⟨header, job, phase⟩, hc, hphase⟩ := Option.bind_eq_some_iff.mp hdispatch
    cases phase with
    | decided v =>
      cases hphase
      exact h.holds _ (List.mem_of_getElem? hc) w rfl
    | posted | assigned | picking | picked | emplacing | returned => cases hphase
  | schedule | processJobWithWorker | onWorkerResponse | handleResponse | close | onWorkerClose
  | onWorkerReschedule | addWorker | passTransferred | bindTransferred => cases hdispatch

private theorem not_reschedules_of_dispatch {r : Key × ℕ}
    (hdispatch : dispatch s e = some r) (file : Key) : ¬ Reschedules file s e := by
  cases e with
  | onWorkerReschedule => cases hdispatch
  | schedule | processJobWithWorker | resume | onWorkerResponse | handleResponse | close
  | onWorkerClose | addWorker | passTransferred | bindTransferred => exact id

end Steps

/-- **File affinity.** In a run whose steps meet the condition, a file that was dispatched to a
worker is dispatched to it again as long as no job of the file has been rescheduled. -/
theorem file_stays_with_worker {es fs : List Event} {e e' : Event} {s s' t : State} {file : Key}
    {w v : ℕ} (hbefore : run step State.init es = some s) (hfirst : step s e = some s')
    (hdispatch : dispatch s e = some (file, w)) (hbetween : run step s' fs = some t)
    (hagain : dispatch t e' = some (file, v))
    (hkeeps : Meets step (fun s e ↦ ¬ Reschedules file s e) s' fs)
    (hmeets : Meets step Undisturbed State.init (es ++ e :: fs)) : v = w := by
  obtain ⟨hmeets₁, hcond, hmeets₂⟩ := (meets_append_iff hbefore).mp hmeets
  have hs : Inv s := invariant_run (fun _ _ _ ↦ inv_step) hmeets₁ hbefore inv_init
  have ht : Inv t :=
    invariant_run (fun _ _ _ ↦ inv_step) (hmeets₂ s' hfirst) hbetween (inv_step hcond hfirst hs)
  have hbound : s'.fileidToWorker.lookup file = some w :=
    lookup_step (not_reschedules_of_dispatch hdispatch file) hfirst
      (hs.lookup_of_dispatch hdispatch)
  have hlast : t.fileidToWorker.lookup file = some w :=
    invariant_run (I := fun t ↦ t.fileidToWorker.lookup file = some w)
      (fun _ _ _ ↦ lookup_step) hkeeps hbetween hbound
  exact Option.some_inj.mp ((ht.lookup_of_dispatch hagain).symm.trans hlast)

/-! ## Three runs

In the first one a file stays with its worker although the other one has no job. In the other two it
is scattered: two calls find it unbound, or it stays bound to a closed worker. -/

/-- The header of the request with a number, all for one file. -/
def request (n : UInt8) : PacketHeader :=
  ⟨List.Vector.replicate 32 0, List.Vector.replicate 4 n, List.Vector.replicate 4 1⟩

/-- `get_available_worker` returns an open worker with the fewest jobs, as either policy may. -/
def LowestLoad (s : State) : Event → Prop
  | .resume _ pick => ∀ w ∈ pick, w ∈ s.workerSet ∧ (s.workers w).valid = true ∧
      ∀ v ∈ s.workerSet, (s.workers v).valid = true →
        (s.workers w).startedJobs.entries.length ≤ (s.workers v).startedJobs.entries.length
  | _ => True

instance decidableLowestLoad (s : State) : ∀ e, Decidable (LowestLoad s e)
  | .resume _ pick => inferInstanceAs (Decidable (∀ w ∈ pick, _ ∧ _ ∧ ∀ v ∈ s.workerSet, _ → _))
  | .schedule _ | .processJobWithWorker _ | .onWorkerResponse _ _
  | .handleResponse _ _ | .close _ | .onWorkerClose _ _ | .onWorkerReschedule _ _ | .addWorker
  | .passTransferred | .bindTransferred => .isTrue trivial

/-- The second job of a file is looked up while the first one is being written. It goes to the same
worker, though the other one has no job. -/
theorem file_stays_with_busy_worker :
    ∃ s s' t, run step State.init [.addWorker, .addWorker, .schedule (request 0),
        .schedule (request 1), .resume 0 none, .resume 0 none, .resume 0 (some 1),
        .resume 0 none, .resume 0 none, .resume 1 none] = some s ∧
      step s (.resume 0 none) = some s' ∧
      run step s' [.resume 1 none] = some t ∧
      ∀ v, dispatch t (.resume 1 none) = some ((request 1).key, v) → v = 1 := by
  have hall : ∀ s ∈ run step State.init [.addWorker, .addWorker, .schedule (request 0),
        .schedule (request 1), .resume 0 none, .resume 0 none, .resume 0 (some 1),
        .resume 0 none, .resume 0 none, .resume 1 none],
      (step s (.resume 0 none)).isSome ∧
      dispatch s (.resume 0 none) = some ((request 1).key, 1) ∧
      ∀ s' ∈ step s (.resume 0 none), (run step s' [.resume 1 none]).isSome ∧
        Meets step (fun s e ↦ ¬ Reschedules (request 1).key s e) s' [.resume 1 none] := by
    decide +kernel
  obtain ⟨s, hs⟩ := Option.isSome_iff_exists.mp (show (run step State.init [.addWorker, .addWorker,
    .schedule (request 0), .schedule (request 1), .resume 0 none, .resume 0 none,
    .resume 0 (some 1), .resume 0 none, .resume 0 none, .resume 1 none]).isSome by decide +kernel)
  obtain ⟨hfirst, hdispatch, hrest⟩ := hall s hs
  obtain ⟨s', hs'⟩ := Option.isSome_iff_exists.mp hfirst
  obtain ⟨hbetween, hkeeps⟩ := hrest s' hs'
  obtain ⟨t, ht⟩ := Option.isSome_iff_exists.mp hbetween
  exact ⟨s, s', t, hs, hs', ht, fun v hv ↦
    file_stays_with_worker hs hs' hdispatch ht hv hkeeps (by decide +kernel)⟩

/-- The events dispatch the file to two workers, which both are still open. -/
def DispatchedApart (file : Key) (s : State) (e : Event) (t : State) (e' : Event) : Prop :=
  ∃ r ∈ dispatch s e, ∃ r' ∈ dispatch t e', r.1 = file ∧ r'.1 = file ∧ r.2 ≠ r'.2 ∧
    (t.workers r.2).valid = true ∧ (t.workers r'.2).valid = true

instance (file : Key) (s : State) (e : Event) (t : State) (e' : Event) :
    Decidable (DispatchedApart file s e t e') :=
  inferInstanceAs (Decidable (∃ r ∈ dispatch s e, ∃ r' ∈ dispatch t e', _ ∧ _ ∧ _ ∧ _ ∧ _))

/-- A run in which a file goes to one worker and then to another one, although no job of it is
rescheduled. -/
def Scatters (file : Key) (es : List Event) (e : Event) (fs : List Event) (e' : Event) : Prop :=
  (∃ s ∈ run step State.init es, ∃ s' ∈ step s e, ∃ t ∈ run step s' fs,
    DispatchedApart file s e t e') ∧
  Meets step (fun s e ↦ LowestLoad s e ∧ ¬ Reschedules file s e) State.init (es ++ e :: fs)

instance (file : Key) (es : List Event) (e : Event) (fs : List Event) (e' : Event) :
    Decidable (Scatters file es e fs e') :=
  inferInstanceAs (Decidable ((∃ s ∈ run step State.init es, ∃ s' ∈ step s e,
    ∃ t ∈ run step s' fs, DispatchedApart file s e t e') ∧ Meets step _ State.init _))

/-- **A file that is scattered.** In the first run two calls look the file up before either has
bound it. In the second one the file is idle when its worker closes, and two calls are processed one
after the other. -/
theorem file_scattered :
    Scatters (request 0).key
        [.addWorker, .addWorker, .schedule (request 0), .schedule (request 1), .resume 0 none,
          .resume 1 none, .resume 0 none, .resume 0 (some 0), .resume 0 none, .resume 0 none]
        (.resume 0 none)
        [.resume 1 none, .resume 1 (some 1), .resume 1 none, .resume 1 none]
        (.resume 1 none) ∧
      Scatters (request 0).key
        [.addWorker, .schedule (request 0), .resume 0 none, .resume 0 none, .resume 0 (some 0),
          .resume 0 none, .resume 0 none, .resume 0 none, .onWorkerResponse 0 (request 0),
          .handleResponse 0 (request 0), .close 0, .addWorker, .addWorker,
          .schedule (request 1), .resume 1 none, .resume 1 none, .resume 1 (some 1),
          .resume 1 none, .resume 1 none]
        (.resume 1 none)
        [.schedule (request 2), .resume 2 none, .resume 2 none, .resume 2 (some 2),
          .resume 2 none, .resume 2 none]
        (.resume 2 none) := by
  constructor
  · decide +kernel
  · decide +kernel

end Slsfs.Proxy.Affinity

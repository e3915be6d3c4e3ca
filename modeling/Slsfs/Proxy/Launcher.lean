import Slsfs.LeveldbPack
import Slsfs.Lib.EmplaceMap
import Slsfs.Lib.Run

/-!
# The launcher of the proxy

`launcher.hpp` and `worker.hpp`: jobs are posted to be processed, a processed job is written to the
worker its file is bound to, or to an available one, and a response of the worker completes it. A
worker that closes hands its unfinished jobs back.

Everything that is posted runs in any order, so an event names the posted handler that runs. Each
posted handler is one step, although the `io_context` runs on several threads and `process_job` is
not posted to a strand: what two calls of it can do to each other is in `Affinity`. Jobs and workers
are numbered in the order they are made. The timer of a job calls `reschedule` only for
an error that a timer does not have, and acknowledgements only cancel it; both are left out, and so
are the statistics.
-/

namespace Slsfs.Proxy

open LeveldbPack

/-- `packet_header`, as `packet_header_full_key_compare` sees it. -/
structure PacketHeader where
  key : Key
  sequence : List.Vector UInt8 4
  randomSalt : List.Vector UInt8 4
  deriving DecidableEq

/-- `df::worker`. -/
structure Worker where
  valid : Bool
  /-- The jobs by the headers of their packets. -/
  startedJobs : FiniteMap PacketHeader ℕ

/-- What assigns workers to new files. -/
inductive Policy where
  | lowestLoad
  | randomAssign
  deriving DecidableEq

structure Launcher where
  /-- The worker of each number, once there is one. -/
  workers : ℕ → Worker
  workerCount : ℕ
  workerSet : List ℕ
  fileidToWorker : FiniteMap Key ℕ
  transferRequests : List (List Key)
  /-- The header of the packet of each job. -/
  jobs : List PacketHeader
  /-- The posted calls of `process_job`. -/
  posted : List ℕ
  /-- The posted handlers of worker responses. -/
  responses : List (ℕ × PacketHeader)
  /-- The jobs whose `on_completion_` was fired, the last one first. -/
  completed : List ℕ

inductive Event where
  /-- A client request becomes a job. -/
  | schedule (header : PacketHeader)
  /-- A posted `process_job` runs. `pick` is what `get_available_worker` returns if it is asked. -/
  | processJob (job : ℕ) (pick : Option ℕ)
  /-- `process_job_with_worker`, also when it is posted again. -/
  | processJobWithWorker (header : PacketHeader) (pick : Option ℕ)
  /-- A worker response is read and its handler posted. -/
  | onWorkerResponse (worker : ℕ) (header : PacketHeader)
  /-- A posted handler of a response runs. -/
  | handleResponse (worker : ℕ) (header : PacketHeader)
  /-- A worker closes, with the file bindings of its cache table if it deregisters. -/
  | close (worker : ℕ) (toTransfer : Option (List Key))
  /-- A worker registers. -/
  | addWorker
  deriving DecidableEq

namespace Launcher

def init : Launcher := ⟨fun _ ↦ ⟨false, ∅⟩, 0, [], ∅, [], [], [], [], []⟩

/-- What `get_available_worker` may return. The order in which the set of workers is gone through
decides between equal loads. The loop of `random_assign` does not end without a valid worker. -/
def Available (policy : Policy) (s : Launcher) : Option ℕ → Prop
  | some w => w ∈ s.workerSet ∧ (s.workers w).valid = true ∧
      (policy = .lowestLoad → ∀ v ∈ s.workerSet, (s.workers v).valid = true →
        (s.workers w).startedJobs.entries.length ≤ (s.workers v).startedJobs.entries.length)
  | none => match policy with
    | .lowestLoad => ∀ v ∈ s.workerSet, (s.workers v).valid = false
    | .randomAssign => s.workerSet = []

instance (policy : Policy) (s : Launcher) : DecidablePred (s.Available policy)
  | some _ => inferInstanceAs (Decidable (_ ∧ _ ∧ (_ → _)))
  | none => match policy with
    | .lowestLoad => inferInstanceAs (Decidable (∀ v ∈ s.workerSet, (s.workers v).valid = false))
    | .randomAssign => inferInstanceAs (Decidable (s.workerSet = []))

/-- The worker the file is bound to, if it is valid. -/
def assignedWorker (s : Launcher) (key : Key) : Option ℕ :=
  (s.fileidToWorker.lookup key).filter fun w ↦ (s.workers w).valid

def setWorker (s : Launcher) (w : ℕ) (worker : Worker) : Launcher :=
  { s with workers := Function.update s.workers w worker }

/-- `worker::start_write` of a job. -/
def startWrite (s : Launcher) (w job : ℕ) (header : PacketHeader) : Launcher :=
  s.setWorker w ⟨(s.workers w).valid, (s.workers w).startedJobs.emplace header job⟩

def reschedule (s : Launcher) (job : ℕ) : Launcher := { s with posted := job :: s.posted }

/-- `on_worker_reschedule`. -/
def onWorkerReschedule (s : Launcher) (job : ℕ) : Launcher :=
  match s.jobs[job]? with
  | none => s
  | some header =>
    { s with fileidToWorker := s.fileidToWorker.erase header.key }.reschedule job

/-- The worker a packet goes to, and the bindings with it: the one the file is bound to, or else the
one that is available, to which the file is then bound. -/
def bind (s : Launcher) (key : Key) (pick : Option ℕ) : Option (ℕ × Launcher) :=
  match s.assignedWorker key with
  | some w => some (w, s)
  | none => pick.map fun w ↦ (w, { s with fileidToWorker := s.fileidToWorker.emplace key w })

/-- `process_job`. Without a worker the job is posted again. -/
def processJob (s : Launcher) (job : ℕ) (header : PacketHeader) (pick : Option ℕ) : Launcher :=
  match s.bind header.key pick with
  | none => s.reschedule job
  | some (w, s) => s.startWrite w job header

/-- `worker::close`. The jobs stay in `started_jobs_`. -/
def close (s : Launcher) (w : ℕ) (toTransfer : Option (List Key)) : Launcher :=
  let closed := s.setWorker w ⟨false, (s.workers w).startedJobs⟩
  let closed := match toTransfer with
    | none => closed
    -- only a worker that deregisters leaves the set
    | some bindings => { closed with
        transferRequests := s.transferRequests ++ [bindings]
        workerSet := s.workerSet.filter (· ≠ w) }
  ((s.workers w).startedJobs.entries.map Sigma.snd).foldl onWorkerReschedule closed

/-- One file binding of a transfer request. -/
def bindTransferred (w : ℕ) (s : Launcher) (key : Key) : Launcher :=
  match s.fileidToWorker.lookup key with
  | some v =>
    -- the key is in the map, so `emplace` does not replace a binding to a closed worker
    if (s.workers v).valid then s
    else { s with fileidToWorker := s.fileidToWorker.emplace key w }
  | none => { s with fileidToWorker := s.fileidToWorker.emplace key w }

/-- `add_worker`. -/
def addWorker (s : Launcher) : Launcher :=
  let added := { s.setWorker s.workerCount ⟨true, ∅⟩ with
    workerCount := s.workerCount + 1
    workerSet := s.workerSet ++ [s.workerCount] }
  match s.transferRequests with
  | [] => added
  | bindings :: rest =>
    bindings.foldl (bindTransferred s.workerCount) { added with transferRequests := rest }

/-- The handler of a response. -/
def handleResponse (s : Launcher) (w : ℕ) (header : PacketHeader) : Launcher :=
  match (s.workers w).startedJobs.lookup header with
  | none => s
  | some job =>
    { s.setWorker w ⟨(s.workers w).valid, (s.workers w).startedJobs.erase header⟩ with
      completed := job :: s.completed }

/-! ## What the operations leave alone

A binding, a write and the passing on of a job each change one field, or one worker. The loops of
`close` and of `add_worker` do so as many times as there are jobs or files, and the lemmas are by
induction over these. -/

@[simp] theorem setWorker_workers_self (s : Launcher) (w : ℕ) (worker : Worker) :
    (s.setWorker w worker).workers w = worker := Function.update_self ..

theorem setWorker_workers_of_ne (s : Launcher) {v w : ℕ} (worker : Worker) (h : v ≠ w) :
    (s.setWorker w worker).workers v = s.workers v := Function.update_of_ne h ..

/-- `bind` changes only the bindings, and what it finds is valid. -/
theorem bind_spec (policy : Policy) {s s' : Launcher} {key : Key} {pick : Option ℕ} {w : ℕ}
    (h : s.bind key pick = some (w, s'))
    (havail : s.assignedWorker key = none → s.Available policy pick) :
    (s.workers w).valid = true ∧ ∃ m, s' = { s with fileidToWorker := m } := by
  rw [bind] at h
  split at h
  · rename_i v hv
    cases h
    exact ⟨(Option.filter_eq_some_iff.mp hv).2, s.fileidToWorker, rfl⟩
  · rename_i hnone
    obtain ⟨v, rfl, hv⟩ := Option.map_eq_some_iff.mp h
    cases hv
    exact ⟨(havail hnone).2.1, _, rfl⟩

private theorem bind_posted (s : Launcher) (posted : List ℕ) (key : Key) (pick : Option ℕ) :
    { s with posted := posted }.bind key pick
      = (s.bind key pick).map fun r ↦ (r.1, { r.2 with posted := posted }) := by
  have hassigned : assignedWorker { s with posted := posted } key = s.assignedWorker key := rfl
  rw [bind, bind, hassigned]
  cases s.assignedWorker key with
  | some w => rfl
  | none =>
    cases pick with
    | none => rfl
    | some w => rfl

private theorem foldl_onWorkerReschedule {js : List ℕ} {s : Launcher}
    (h : ∀ j ∈ js, j < s.jobs.length) :
    ∃ m, js.foldl onWorkerReschedule s
      = { s with fileidToWorker := m, posted := js.reverse ++ s.posted } := by
  induction js generalizing s with
  | nil => exact ⟨s.fileidToWorker, rfl⟩
  | cons j js ih =>
    obtain ⟨header, hheader⟩ : ∃ header, s.jobs[j]? = some header :=
      ⟨_, List.getElem?_eq_getElem (h j List.mem_cons_self)⟩
    have hstep : s.onWorkerReschedule j
        = { s with
          fileidToWorker := s.fileidToWorker.erase header.key
          posted := j :: s.posted } := by
      rw [onWorkerReschedule, hheader]
      rfl
    rw [List.foldl_cons, hstep]
    obtain ⟨m, hm⟩ := ih (s := { s with
      fileidToWorker := s.fileidToWorker.erase header.key, posted := j :: s.posted })
      fun i hi ↦ h i (List.mem_cons_of_mem _ hi)
    refine ⟨m, ?_⟩
    rw [hm, List.reverse_cons, List.append_assoc]
    rfl

private theorem foldl_onWorkerReschedule_workers (js : List ℕ) (s : Launcher) :
    (js.foldl onWorkerReschedule s).workers = s.workers ∧
      (js.foldl onWorkerReschedule s).workerCount = s.workerCount ∧
      (js.foldl onWorkerReschedule s).workerSet = s.workerSet := by
  induction js generalizing s with
  | nil => exact ⟨rfl, rfl, rfl⟩
  | cons j js ih =>
    rw [List.foldl_cons]
    obtain ⟨hworkers, hcount, hset⟩ := ih (s.onWorkerReschedule j)
    rw [hworkers, hcount, hset, onWorkerReschedule]
    split
    · exact ⟨rfl, rfl, rfl⟩
    · exact ⟨rfl, rfl, rfl⟩

/-- `close` makes the worker invalid; its jobs stay, and only with a table it leaves the set. -/
theorem close_workers (s : Launcher) (w : ℕ) (toTransfer : Option (List Key)) :
    (s.close w toTransfer).workers
        = Function.update s.workers w ⟨false, (s.workers w).startedJobs⟩ ∧
      (s.close w toTransfer).workerCount = s.workerCount ∧
      (s.close w toTransfer).workerSet
        = if toTransfer.isSome then s.workerSet.filter (· ≠ w) else s.workerSet := by
  cases toTransfer with
  | none => exact foldl_onWorkerReschedule_workers _ _
  | some bindings => exact foldl_onWorkerReschedule_workers _ _

theorem foldl_bindTransferred (w : ℕ) (keys : List Key) (s : Launcher) :
    ∃ m, keys.foldl (bindTransferred w) s = { s with fileidToWorker := m } := by
  induction keys generalizing s with
  | nil => exact ⟨s.fileidToWorker, rfl⟩
  | cons key keys ih =>
    obtain ⟨m, hm⟩ : ∃ m, bindTransferred w s key = { s with fileidToWorker := m } := by
      rw [bindTransferred]
      split
      · split
        · exact ⟨s.fileidToWorker, rfl⟩
        · exact ⟨_, rfl⟩
      · exact ⟨_, rfl⟩
    rw [List.foldl_cons, hm]
    exact ih _

end Launcher

/-- One event. -/
def step (policy : Policy) (s : Launcher) : Event → Option Launcher
  | .schedule header =>
    some { s with jobs := s.jobs ++ [header], posted := s.jobs.length :: s.posted }
  | .processJob job pick =>
    match s.jobs[job]? with
    | none => none
    | some header =>
      if job ∈ s.posted ∧ (s.assignedWorker header.key = none → s.Available policy pick) then
        some ({ s with posted := s.posted.erase job }.processJob job header pick)
      else none
  | .processJobWithWorker header pick =>
    if s.assignedWorker header.key = none → s.Available policy pick then
      some (((s.bind header.key pick).map Prod.snd).getD s)
    else none
  | .onWorkerResponse w header =>
    if w < s.workerCount then some { s with responses := (w, header) :: s.responses } else none
  | .handleResponse w header =>
    if (w, header) ∈ s.responses then
      some ({ s with responses := s.responses.erase (w, header) }.handleResponse w header)
    else none
  | .close w toTransfer => if w < s.workerCount then some (s.close w toTransfer) else none
  | .addWorker => some s.addWorker

/-- The file and the worker of a packet that the event dispatches. -/
def dispatch (s : Launcher) : Event → Option (Key × ℕ)
  | .processJob job pick =>
    (s.jobs[job]?).bind fun header ↦ (s.bind header.key pick).map fun r ↦ (header.key, r.1)
  | .processJobWithWorker header pick =>
    (s.bind header.key pick).map fun r ↦ (header.key, r.1)
  | _ => none

/-! ## What an event can do

One lemma for each event but the scheduling of a job, with what held before it and the new state.
The results about runs of the launcher use these, and do not unfold `step`. -/

section Steps

open Launcher

variable {policy : Policy} {s s' : Launcher}

/-- A job that is processed is posted again or written to a worker that is open. -/
theorem step_processJob {job : ℕ} {pick : Option ℕ}
    (h : step policy s (.processJob job pick) = some s') :
    ∃ header, s.jobs[job]? = some header ∧ job ∈ s.posted ∧
      (s.bind header.key pick = none ∧ s' = { s with posted := job :: s.posted.erase job } ∨
        ∃ w m, s.bind header.key pick = some (w, { s with fileidToWorker := m }) ∧
          (s.workers w).valid = true ∧
          s' = { s with posted := s.posted.erase job, fileidToWorker := m }.startWrite w job
            header) := by
  rw [step] at h
  cases hheader : s.jobs[job]? with
  | none => rw [hheader] at h; cases h
  | some header =>
    rw [hheader] at h
    dsimp only at h
    split at h
    · rename_i hguard
      rw [Option.some_inj, Launcher.processJob, bind_posted] at h
      refine ⟨header, rfl, hguard.1, ?_⟩
      cases hbind : s.bind header.key pick with
      | none =>
        rw [hbind, Option.map_none] at h
        exact .inl ⟨rfl, h.symm⟩
      | some r =>
        obtain ⟨w, t⟩ := r
        obtain ⟨hvalid, m, rfl⟩ := bind_spec policy hbind hguard.2
        rw [hbind, Option.map_some] at h
        exact .inr ⟨w, m, rfl, hvalid, h.symm⟩
    · cases h

theorem step_processJobWithWorker {header : PacketHeader} {pick : Option ℕ}
    (h : step policy s (.processJobWithWorker header pick) = some s') :
    ∃ m, s' = { s with fileidToWorker := m } := by
  rw [step] at h
  split at h
  · rename_i hguard
    rw [Option.some_inj] at h
    subst h
    cases hbind : s.bind header.key pick with
    | none => exact ⟨s.fileidToWorker, rfl⟩
    | some r =>
      obtain ⟨-, m, hm⟩ := bind_spec policy hbind hguard
      exact ⟨m, hm⟩
  · cases h

theorem step_onWorkerResponse {w : ℕ} {header : PacketHeader}
    (h : step policy s (.onWorkerResponse w header) = some s') :
    w < s.workerCount ∧ s' = { s with responses := (w, header) :: s.responses } := by
  rw [step] at h
  split at h
  · rename_i hw
    exact ⟨hw, (Option.some_inj.mp h).symm⟩
  · cases h

theorem step_handleResponse {w : ℕ} {header : PacketHeader}
    (h : step policy s (.handleResponse w header) = some s') :
    (w, header) ∈ s.responses ∧
      s' = { s with responses := s.responses.erase (w, header) }.handleResponse w header := by
  rw [step] at h
  split at h
  · rename_i hmem
    exact ⟨hmem, (Option.some_inj.mp h).symm⟩
  · cases h

theorem step_close {w : ℕ} {toTransfer : Option (List Key)}
    (h : step policy s (.close w toTransfer) = some s') :
    w < s.workerCount ∧ s' = s.close w toTransfer := by
  rw [step] at h
  split at h
  · rename_i hw
    exact ⟨hw, (Option.some_inj.mp h).symm⟩
  · cases h

theorem step_addWorker (h : step policy s .addWorker = some s') :
    ∃ m rest, s' = { s.setWorker s.workerCount ⟨true, ∅⟩ with
      workerCount := s.workerCount + 1
      workerSet := s.workerSet ++ [s.workerCount]
      fileidToWorker := m
      transferRequests := rest } := by
  rw [step, Option.some_inj] at h
  subst h
  rw [addWorker]
  dsimp only
  split
  · exact ⟨s.fileidToWorker, s.transferRequests, rfl⟩
  · rename_i bindings rest hrest
    obtain ⟨m, hm⟩ := foldl_bindTransferred s.workerCount bindings
      { s.setWorker s.workerCount ⟨true, ∅⟩ with
        workerCount := s.workerCount + 1
        workerSet := s.workerSet ++ [s.workerCount]
        transferRequests := rest }
    exact ⟨m, rest, hm⟩

theorem close_eq (s : Launcher) (w : ℕ) (toTransfer : Option (List Key))
    (hjobs : ∀ header job, (s.workers w).startedJobs.lookup header = some job →
      job < s.jobs.length) :
    ∃ m rest, s.close w toTransfer = { s.setWorker w ⟨false, (s.workers w).startedJobs⟩ with
      fileidToWorker := m
      transferRequests := rest
      workerSet := if toTransfer.isSome then s.workerSet.filter (· ≠ w) else s.workerSet
      posted := ((s.workers w).startedJobs.entries.map Sigma.snd).reverse ++ s.posted } := by
  have hknown : ∀ j ∈ (s.workers w).startedJobs.entries.map Sigma.snd, j < s.jobs.length := by
    intro j hj
    obtain ⟨⟨header, job⟩, hmem, rfl⟩ := List.mem_map.mp hj
    exact hjobs header job (AList.mem_lookup_iff.mpr hmem)
  cases toTransfer with
  | none =>
    obtain ⟨m, hm⟩ := foldl_onWorkerReschedule (s := s.setWorker w _) hknown
    exact ⟨m, s.transferRequests, hm⟩
  | some bindings =>
    obtain ⟨m, hm⟩ := foldl_onWorkerReschedule (s := { s.setWorker w _ with
      transferRequests := s.transferRequests ++ [bindings]
      workerSet := s.workerSet.filter (· ≠ w) }) hknown
    exact ⟨m, s.transferRequests ++ [bindings], hm⟩

end Steps

end Slsfs.Proxy

import Slsfs.Pack
import Slsfs.Proxy.Launcher

/-!
# The sockets of the workers

`worker.hpp` reads packets from a worker in a loop, a header and then the body if the packet has
one, and writes packets to it through a `socket_writer`, one after the other. A header that cannot
be read and a packet that cannot be written close the worker, and `close` hands its jobs back to the
launcher. A body that cannot be read only ends the loop: the worker stays open, is given more jobs,
and nothing that happens to it can hand them back once its writes are done.

`Links` adds the sockets to the launcher. The writer is taken as it is meant, with one write at a
time. An acknowledgement and the timer of a job change neither.
-/

namespace Slsfs.Proxy

open LeveldbPack (Key)

/-- What the read loop waits for. -/
inductive Reading where
  | header
  | body (type : Pack.MsgT) (header : PacketHeader)
  | ended
  deriving DecidableEq

/-- The socket of a worker. -/
structure Link where
  reading : Reading
  /-- `is_writing_`. -/
  isWriting : Bool
  /-- The packets in `write_queue_`. -/
  queued : ℕ
  deriving DecidableEq

namespace Link

/-- A read is pending, or a write whose failure closes the worker. -/
def Pending (l : Link) : Prop := l.reading ≠ .ended ∨ l.isWriting = true

instance (l : Link) : Decidable l.Pending := inferInstanceAs (Decidable (_ ∨ _))

/-- `start_write_socket`. -/
def startWriteSocket (l : Link) : Link :=
  if l.isWriting then { l with queued := l.queued + 1 } else { l with isWriting := true }

/-- `start_write_one_packet`, after a packet was written. -/
def startWriteOnePacket (l : Link) : Link :=
  match l.queued with
  | 0 => { l with isWriting := false }
  | queued + 1 => { l with queued }

end Link

/-- Where `start_read_header` goes on after a header with this type. A type that is none of the
enumerators is in no case of the `switch`. -/
def afterHeader (type : UInt8) (header : PacketHeader) : Reading :=
  match Pack.MsgT.ofCode type.toNat with
  | some .workerDereg => .body .workerDereg header
  | some .workerResponse => .body .workerResponse header
  | some .ack => .header
  | some .setTimer | some .proxyjoin | some .err | some .put | some .get | some .cacheTransfer
  | some .workerReg | some .workerPushRequest | some .trigger | some .triggerReject => .header
  | none => .ended

/-- The launcher and the sockets of its workers. -/
structure Links where
  launcher : Launcher
  link : ℕ → Link

inductive LinkEvent where
  | schedule (header : PacketHeader)
  | processJob (job : ℕ) (pick : Option ℕ)
  | processJobWithWorker (header : PacketHeader) (pick : Option ℕ)
  | handleResponse (worker : ℕ) (header : PacketHeader)
  | addWorker
  /-- A packet without a job is written to a worker. -/
  | startWrite (worker : ℕ)
  /-- The read of a header is over, `none` with an error. -/
  | readHeader (worker : ℕ) (read : Option (UInt8 × PacketHeader))
  /-- The read of a body is over, with the file bindings that are in it. -/
  | readBody (worker : ℕ) (read : Option (List Key))
  /-- The write of a packet is over. -/
  | wrote (worker : ℕ)
  | writeError (worker : ℕ)
  /-- The timer of a job expires or is cancelled. -/
  | jobTimer (job : ℕ)
  deriving DecidableEq

namespace Links

def init : Links := ⟨Launcher.init, fun _ ↦ ⟨.ended, false, 0⟩⟩

def setLink (s : Links) (w : ℕ) (l : Link) : Links := { s with link := Function.update s.link w l }

/-- The worker that `process_job` writes to. -/
def target (s : Links) (job : ℕ) (pick : Option ℕ) : Option ℕ :=
  (s.launcher.jobs[job]?.bind fun header ↦ s.launcher.bind header.key pick).map Prod.fst

section

variable (policy : Policy)

/-- An event of the launcher alone. -/
def launch (s : Links) (e : Event) : Option Links :=
  (Proxy.step policy s.launcher e).map fun launcher ↦ { s with launcher }

/-- One event. -/
def step (s : Links) : LinkEvent → Option Links
  | .schedule header => s.launch policy (.schedule header)
  | .processJob job pick =>
    match s.target job pick with
    | none => s.launch policy (.processJob job pick)
    | some w => (s.setLink w (s.link w).startWriteSocket).launch policy (.processJob job pick)
  | .processJobWithWorker header pick => s.launch policy (.processJobWithWorker header pick)
  | .handleResponse w header => s.launch policy (.handleResponse w header)
  | .addWorker =>
    -- a pending transfer request is written to the new worker
    (s.setLink s.launcher.workerCount ⟨.header, !s.launcher.transferRequests.isEmpty, 0⟩).launch
      policy .addWorker
  | .startWrite w =>
    if w < s.launcher.workerCount then some (s.setLink w (s.link w).startWriteSocket) else none
  | .readHeader w read =>
    if (s.link w).reading = .header then
      match read with
      | none => (s.setLink w { s.link w with reading := .ended }).launch policy (.close w none)
      | some (type, header) =>
        some (s.setLink w { s.link w with reading := afterHeader type header })
    else none
  | .readBody w read =>
    match (s.link w).reading with
    | .body type header =>
      match read with
      | none => some (s.setLink w { s.link w with reading := .ended })
      | some toTransfer =>
        if type = .workerDereg then
          (s.setLink w { s.link w with reading := .ended }).launch policy
            (.close w (some toTransfer))
        else
          (s.setLink w { s.link w with reading := .header }).launch policy
            (.onWorkerResponse w header)
    | _ => none
  | .wrote w =>
    if (s.link w).isWriting then some (s.setLink w (s.link w).startWriteOnePacket) else none
  | .writeError w =>
    if (s.link w).isWriting then
      (s.setLink w { s.link w with isWriting := false }).launch policy (.close w none)
    else none
  | .jobTimer _ => some s

end

/-! ## No job is stranded

A job at a worker comes back to the launcher by a response, or when the worker closes. Both take an
operation on its socket that is still to end: a pending read, or a pending write whose failure
closes the worker. So a job is `KeptAt` a worker whose socket is `Pending`. The timer of the job is
no help, since all it could do is left to errors that a timer does not have.

A worker may also be given a job under a header that it already has. `emplace` keeps the job that is
there, and the new one is written to the worker but can be found nowhere. -/

/-- The launcher has the job at the worker. -/
def Has (s : Links) (w : ℕ) (header : PacketHeader) (job : ℕ) : Prop :=
  (s.launcher.workers w).startedJobs.lookup header = some job

/-- The job is posted, or at a worker with a pending read or write that satisfies `p`. -/
def KeptAt (s : Links) (p : ℕ → Prop) (job : ℕ) : Prop :=
  job ∈ s.launcher.posted ∨ ∃ w header, p w ∧ s.Has w header job ∧ (s.link w).Pending

/-- Every job that has not completed is posted, or at a worker with a pending read or write. -/
def NoneStranded (s : Links) : Prop :=
  ∀ job < s.launcher.jobs.length, job ∉ s.launcher.completed → s.KeptAt (fun _ ↦ True) job

/-- Nothing that has not completed depends on the worker. -/
def Spares (s : Links) (w : ℕ) : Prop :=
  ∀ header job, s.Has w header job → job ∈ s.launcher.completed ∨ s.KeptAt (· ≠ w) job

/-- **The condition.** The socket of a worker falls silent only if nothing depends on it, and a job
is written to a worker only if it can be found there, or somewhere else. -/
def Safe (s : Links) : LinkEvent → Prop
  | .readHeader w (some (type, header)) =>
    afterHeader type header = .ended → (s.link w).isWriting = true ∨ s.Spares w
  | .readBody w none => (s.link w).isWriting = true ∨ s.Spares w
  | .wrote w => (s.link w).reading ≠ .ended ∨ (s.link w).queued ≠ 0 ∨ s.Spares w
  | .processJob job pick =>
    ∀ w header other, s.target job pick = some w → s.launcher.jobs[job]? = some header →
      s.Has w header other → other = job ∨ job ∈ s.launcher.completed ∨
        job ∈ s.launcher.posted.erase job ∨ ∃ v, v ≠ w ∧ s.Has v header job ∧ (s.link v).Pending
  | _ => True

end Links

/-! ## What the launcher knows of its jobs

The headers under which workers have jobs are those the jobs were scheduled with, and only workers
that have registered have any. Without this a closing worker might hand back a number that is not
that of a job. -/

/-- The jobs are where they were put, under their headers. -/
structure Launcher.Known (s : Launcher) : Prop where
  header : ∀ w h j, (s.workers w).startedJobs.lookup h = some j → s.jobs[j]? = some h
  has_lt : ∀ w h j, (s.workers w).startedJobs.lookup h = some j → w < s.workerCount
  valid_lt : ∀ w, (s.workers w).valid = true → w < s.workerCount

namespace Launcher.Known

variable {policy : Policy} {s s' : Launcher}

theorem init : Known Launcher.init where
  header _ _ _ h := by cases h
  has_lt _ _ _ h := by cases h
  valid_lt _ h := by cases h

theorem mono (hs : s.Known) (hjobs : ∀ (j : ℕ) h, s.jobs[j]? = some h → s'.jobs[j]? = some h)
    (hcount : s.workerCount ≤ s'.workerCount)
    (hhas : ∀ w h j, (s'.workers w).startedJobs.lookup h = some j →
      (s.workers w).startedJobs.lookup h = some j ∨ s'.jobs[j]? = some h ∧ w < s'.workerCount)
    (hvalid : ∀ w, (s'.workers w).valid = true →
      (s.workers w).valid = true ∨ w < s'.workerCount) : s'.Known where
  header w h j hj := by
    rcases hhas w h j hj with hj | hj
    · exact hjobs j h (hs.header w h j hj)
    · exact hj.1
  has_lt w h j hj := by
    rcases hhas w h j hj with hj | hj
    · exact (hs.has_lt w h j hj).trans_le hcount
    · exact hj.2
  valid_lt w hw := by
    rcases hvalid w hw with hw | hw
    · exact (hs.valid_lt w hw).trans_le hcount
    · exact hw

theorem setWorker (hs : s.Known) {w : ℕ} {worker : Worker}
    (hhas : ∀ h j, worker.startedJobs.lookup h = some j →
      (s.workers w).startedJobs.lookup h = some j ∨ s.jobs[j]? = some h ∧ w < s.workerCount)
    (hvalid : worker.valid = true → (s.workers w).valid = true) : (s.setWorker w worker).Known := by
  refine hs.mono (fun _ _ h ↦ h) le_rfl ?_ ?_
  · intro v h j hj
    by_cases hvw : v = w
    · subst hvw
      rw [setWorker_workers_self] at hj
      exact hhas h j hj
    · rw [setWorker_workers_of_ne _ _ hvw] at hj
      exact .inl hj
  · intro v hv
    by_cases hvw : v = w
    · subst hvw
      rw [setWorker_workers_self] at hv
      exact .inl (hvalid hv)
    · rw [setWorker_workers_of_ne _ _ hvw] at hv
      exact .inl hv

theorem congr (hs : s.Known) (hworkers : s'.workers = s.workers)
    (hcount : s'.workerCount = s.workerCount) (hjobs : s'.jobs = s.jobs) : s'.Known where
  header := by
    rw [hworkers, hjobs]
    exact hs.header
  has_lt := by
    rw [hworkers, hcount]
    exact hs.has_lt
  valid_lt := by
    rw [hworkers, hcount]
    exact hs.valid_lt

theorem step {e : Event} (hs : s.Known) (h : Proxy.step policy s e = some s') : s'.Known := by
  cases e with
  | schedule header =>
    cases h
    refine hs.mono (fun j h hj ↦ ?_) le_rfl (fun _ _ _ hj ↦ .inl hj) fun _ hv ↦ .inl hv
    exact List.getElem?_append_left (List.getElem?_eq_some_iff.mp hj).1 ▸ hj
  | processJob job pick =>
    obtain ⟨header, hjob, -, ⟨-, rfl⟩ | ⟨w, m, -, hvalid, rfl⟩⟩ := step_processJob h
    · exact hs.congr rfl rfl rfl
    · have hs' : { s with posted := s.posted.erase job, fileidToWorker := m }.Known :=
        hs.congr rfl rfl rfl
      refine hs'.setWorker (fun h j hj ↦ ?_) fun hv ↦ hv
      rcases FiniteMap.lookup_of_emplace hj with hj | ⟨rfl, rfl, -⟩
      · exact .inl hj
      · exact .inr ⟨hjob, hs.valid_lt w hvalid⟩
  | processJobWithWorker header pick =>
    obtain ⟨m, rfl⟩ := step_processJobWithWorker h
    exact hs.congr rfl rfl rfl
  | onWorkerResponse w header =>
    obtain ⟨-, rfl⟩ := step_onWorkerResponse h
    exact hs.congr rfl rfl rfl
  | handleResponse w header =>
    obtain ⟨-, rfl⟩ := step_handleResponse h
    rw [Launcher.handleResponse]
    split
    · exact hs.congr rfl rfl rfl
    · rename_i job hjob
      have hs' : (s.setWorker w
          ⟨(s.workers w).valid, (s.workers w).startedJobs.erase header⟩).Known :=
        hs.setWorker (fun h j hj ↦ .inl (FiniteMap.lookup_of_erase hj).2) fun hv ↦ hv
      exact hs'.congr rfl rfl rfl
  | close w toTransfer =>
    obtain ⟨-, rfl⟩ := step_close h
    obtain ⟨m, rest, heq⟩ := close_eq s w toTransfer fun header job hjob ↦
      (List.getElem?_eq_some_iff.mp (hs.header w header job hjob)).1
    have hs' : (s.setWorker w ⟨false, (s.workers w).startedJobs⟩).Known :=
      hs.setWorker (fun h j hj ↦ .inl hj) fun hv ↦ by cases hv
    rw [heq]
    exact hs'.congr rfl rfl rfl
  | addWorker =>
    obtain ⟨m, rest, rfl⟩ := step_addWorker h
    refine hs.mono (fun _ _ h ↦ h) (Nat.le_succ _) (fun v h j hj ↦ ?_) fun v hv ↦ ?_
    · by_cases hvn : v = s.workerCount
      · subst hvn
        dsimp only at hj
        rw [setWorker_workers_self] at hj
        cases hj
      · dsimp only at hj
        rw [setWorker_workers_of_ne _ _ hvn] at hj
        exact .inl hj
    · by_cases hvn : v = s.workerCount
      · exact .inr (hvn ▸ Nat.lt_succ_self _)
      · dsimp only at hv
        rw [setWorker_workers_of_ne _ _ hvn] at hv
        exact .inl hv

end Launcher.Known

/-! ## One event

Only four kinds of event can strand a job: the three after which a socket may have nothing pending,
and the write of a job under a header that is taken. For each of them `Safe` is what has to be
shown, and for every other event it is true. In the other direction, whatever is stranded after an
event was kept before it by what the event takes away, so `Safe` cannot be weakened. -/

namespace Links

variable {policy : Policy} {s s' : Links}

private theorem setLink_link_self (s : Links) (w : ℕ) (l : Link) : (s.setLink w l).link w = l :=
  Function.update_self ..

private theorem setLink_link_of_ne (s : Links) {v w : ℕ} (l : Link) (h : v ≠ w) :
    (s.setLink w l).link v = s.link v := Function.update_of_ne h ..

private theorem launch_eq_some {e : Event} (h : s.launch policy e = some s') :
    ∃ launcher, Proxy.step policy s.launcher e = some launcher ∧ s' = { s with launcher } := by
  obtain ⟨launcher, hstep, rfl⟩ := Option.map_eq_some_iff.mp h
  exact ⟨launcher, hstep, rfl⟩

private theorem exists_launch {e : LinkEvent} (h : s.step policy e = some s') :
    ∃ t : Links, t.launcher = s.launcher ∧ (s' = t ∨ ∃ e', t.launch policy e' = some s') := by
  unfold step at h
  split at h
  · exact ⟨s, rfl, .inr ⟨_, h⟩⟩
  · split at h
    · exact ⟨s, rfl, .inr ⟨_, h⟩⟩
    · exact ⟨s.setLink _ _, rfl, .inr ⟨_, h⟩⟩
  · exact ⟨s, rfl, .inr ⟨_, h⟩⟩
  · exact ⟨s, rfl, .inr ⟨_, h⟩⟩
  · exact ⟨s.setLink _ _, rfl, .inr ⟨_, h⟩⟩
  · split at h
    · exact ⟨s.setLink _ _, rfl, .inl (Option.some_inj.mp h).symm⟩
    · cases h
  · split at h
    · split at h
      · exact ⟨s.setLink _ _, rfl, .inr ⟨_, h⟩⟩
      · exact ⟨s.setLink _ _, rfl, .inl (Option.some_inj.mp h).symm⟩
    · cases h
  · split at h
    · split at h
      · exact ⟨s.setLink _ _, rfl, .inl (Option.some_inj.mp h).symm⟩
      · split at h
        · exact ⟨s.setLink _ _, rfl, .inr ⟨_, h⟩⟩
        · exact ⟨s.setLink _ _, rfl, .inr ⟨_, h⟩⟩
    · cases h
  · split at h
    · exact ⟨s.setLink _ _, rfl, .inl (Option.some_inj.mp h).symm⟩
    · cases h
  · split at h
    · exact ⟨s.setLink _ _, rfl, .inr ⟨_, h⟩⟩
    · cases h
  · exact ⟨s, rfl, .inl (Option.some_inj.mp h).symm⟩

private theorem known_step {e : LinkEvent} (hs : s.launcher.Known) (h : s.step policy e = some s') :
    s'.launcher.Known := by
  obtain ⟨t, ht, rfl | ⟨e', hlaunch⟩⟩ := exists_launch h
  · exact ht ▸ hs
  · obtain ⟨launcher, hstep, rfl⟩ := launch_eq_some hlaunch
    exact (ht ▸ hs).step hstep

theorem NoneStranded.mono (hs : s.NoneStranded) (hjobs : s'.launcher.jobs = s.launcher.jobs)
    (hcompleted : s.launcher.completed ⊆ s'.launcher.completed)
    (hposted : ∀ job ∈ s.launcher.posted,
      job ∈ s'.launcher.completed ∨ s'.KeptAt (fun _ ↦ True) job)
    (hhas : ∀ w header job, s.Has w header job → (s.link w).Pending →
      job ∈ s'.launcher.completed ∨ s'.KeptAt (fun _ ↦ True) job) : s'.NoneStranded := by
  intro job hjob hnot
  rw [hjobs] at hjob
  rcases hs job hjob fun h ↦ hnot (hcompleted h) with hjob | ⟨w, header, -, hw, hpending⟩
  · exact (hposted job hjob).resolve_left hnot
  · exact (hhas w header job hw hpending).resolve_left hnot

private theorem NoneStranded.setLink (hs : s.NoneStranded) {w : ℕ} {l : Link}
    (hl : l.Pending ∨ s.Spares w) : (s.setLink w l).NoneStranded := by
  refine hs.mono rfl (List.Subset.refl _) (fun _ hjob ↦ .inr (.inl hjob)) ?_
  intro v header job hv hpending
  by_cases hvw : v = w
  · subst hvw
    rcases hl with hl | hl
    · refine .inr (.inr ⟨v, header, trivial, hv, ?_⟩)
      rwa [setLink_link_self]
    · rcases hl header job hv with hdone | hposted | ⟨u, header', hne, hu, hpending⟩
      · exact .inl hdone
      · exact .inr (.inl hposted)
      · refine .inr (.inr ⟨u, header', trivial, hu, ?_⟩)
        rwa [setLink_link_of_ne s l hne]
  · refine .inr (.inr ⟨v, header, trivial, hv, ?_⟩)
    rwa [setLink_link_of_ne s l hvw]

/-- If a socket fell silent and nothing is stranded then nothing depended on it. -/
theorem spares_of_setLink (hk : s.launcher.Known) {w : ℕ} {l : Link} (hl : ¬l.Pending)
    (h : (s.setLink w l).NoneStranded) : s.Spares w := by
  intro header job hw
  by_cases hdone : job ∈ s.launcher.completed
  · exact .inl hdone
  have hknown := (List.getElem?_eq_some_iff.mp (hk.header w header job hw)).1
  rcases h job hknown hdone with hposted | ⟨v, header', -, hv, hpending⟩
  · exact .inr (.inl hposted)
  · by_cases hvw : v = w
    · subst hvw
      rw [setLink_link_self] at hpending
      exact absurd hpending hl
    · rw [setLink_link_of_ne s l hvw] at hpending
      exact .inr (.inr ⟨v, header', hvw, hv, hpending⟩)

theorem NoneStranded.close (hs : s.NoneStranded) (hk : s.launcher.Known) {w : ℕ} {l : Link}
    {toTransfer : Option (List Key)}
    (h : (s.setLink w l).launch policy (.close w toTransfer) = some s') : s'.NoneStranded := by
  obtain ⟨launcher, hstep, rfl⟩ := launch_eq_some h
  obtain ⟨-, rfl⟩ := step_close hstep
  obtain ⟨m, rest, heq⟩ := close_eq s.launcher w toTransfer fun header job hjob ↦
    (List.getElem?_eq_some_iff.mp (hk.header w header job hjob)).1
  rw [show (s.setLink w l).launcher.close w toTransfer = _ from heq]
  refine hs.mono rfl (List.Subset.refl _)
    (fun _ hjob ↦ .inr (.inl (List.mem_append_right _ hjob))) ?_
  intro v header job hv hpending
  by_cases hvw : v = w
  · subst hvw
    refine .inr (.inl (List.mem_append_left _ (List.mem_reverse.mpr ?_)))
    exact List.mem_map.mpr ⟨⟨header, job⟩, AList.mem_lookup_iff.mp hv, rfl⟩
  · refine .inr (.inr ⟨v, header, trivial, ?_, ?_⟩)
    · exact (congrArg (fun worker : Worker ↦ worker.startedJobs.lookup header)
        (Launcher.setWorker_workers_of_ne s.launcher _ hvw)).trans hv
    · exact (setLink_link_of_ne s l hvw).symm ▸ hpending

theorem NoneStranded.handleResponse (hs : s.NoneStranded) {w : ℕ} {header : PacketHeader}
    (h : s.launch policy (.handleResponse w header) = some s') : s'.NoneStranded := by
  obtain ⟨launcher, hstep, rfl⟩ := launch_eq_some h
  obtain ⟨-, rfl⟩ := step_handleResponse hstep
  rw [Launcher.handleResponse]
  split
  · exact hs
  · rename_i done hdone
    refine hs.mono rfl (List.subset_cons_self _ _) (fun _ hjob ↦ .inr (.inl hjob)) ?_
    intro v header' job hv hpending
    by_cases hvw : v = w
    · subst hvw
      by_cases hheader : header' = header
      · subst hheader
        obtain rfl : job = done := Option.some_inj.mp (hv.symm.trans hdone)
        exact .inl List.mem_cons_self
      · refine .inr (.inr ⟨v, header', trivial, ?_, hpending⟩)
        rw [Has]
        dsimp only
        rw [Launcher.setWorker_workers_self, AList.lookup_erase_ne hheader]
        exact hv
    · refine .inr (.inr ⟨v, header', trivial, ?_, hpending⟩)
      rw [Has]
      dsimp only
      rw [Launcher.setWorker_workers_of_ne _ _ hvw]
      exact hv

theorem step_processJob {job : ℕ} {pick : Option ℕ}
    (h : s.step policy (.processJob job pick) = some s') :
    ∃ header, s.launcher.jobs[job]? = some header ∧ job ∈ s.launcher.posted ∧
      (s.target job pick = none ∧
          s' = ⟨{ s.launcher with posted := job :: s.launcher.posted.erase job }, s.link⟩ ∨
        ∃ w m, s.target job pick = some w ∧
          s' = ⟨{ s.launcher with
            posted := s.launcher.posted.erase job, fileidToWorker := m }.startWrite w job header,
            (s.setLink w (s.link w).startWriteSocket).link⟩) := by
  rw [step] at h
  split at h
  · rename_i htarget
    obtain ⟨launcher, hstep, rfl⟩ := launch_eq_some h
    obtain ⟨header, hjob, hposted, ⟨-, rfl⟩ | ⟨w, m, hbind, -, rfl⟩⟩ := Proxy.step_processJob hstep
    · exact ⟨header, hjob, hposted, .inl ⟨htarget, rfl⟩⟩
    · rw [target, hjob, Option.bind_some, hbind] at htarget
      cases htarget
  · rename_i v htarget
    obtain ⟨launcher, hstep, rfl⟩ := launch_eq_some h
    obtain ⟨header, hjob, hposted, ⟨hbind, -⟩ | ⟨w, m, hbind, -, rfl⟩⟩ :=
      Proxy.step_processJob hstep
    · rw [target, show s.launcher.jobs[job]? = some header from hjob, Option.bind_some,
        show s.launcher.bind header.key pick = none from hbind] at htarget
      cases htarget
    · have hw : s.target job pick = some w := by
        rw [target, show s.launcher.jobs[job]? = some header from hjob, Option.bind_some,
          show s.launcher.bind header.key pick = some (w, _) from hbind]
        rfl
      obtain rfl : v = w := Option.some_inj.mp (htarget.symm.trans hw)
      exact ⟨header, hjob, hposted, .inr ⟨v, m, hw, rfl⟩⟩

private theorem pending_startWriteSocket (l : Link) : l.startWriteSocket.Pending := by
  right
  rw [Link.startWriteSocket]
  split
  · assumption
  · rfl

private theorem pending_startWriteOnePacket {l : Link} (h : l.isWriting = true) :
    l.startWriteOnePacket.Pending ↔ l.reading ≠ .ended ∨ l.queued ≠ 0 := by
  rw [Link.startWriteOnePacket, Link.Pending]
  split
  · rename_i hqueued
    simp [hqueued]
  · rename_i queued hqueued
    simp [hqueued, h]

/-- Writing a job to a worker takes no other job away. -/
theorem has_startWrite {launcher : Launcher} {link : ℕ → Link} {v w job j : ℕ}
    {header h : PacketHeader} (hv : (launcher.workers v).startedJobs.lookup h = some j) :
    Has ⟨launcher.startWrite w job header, link⟩ v h j := by
  rw [Has, Launcher.startWrite]
  by_cases hvw : v = w
  · subst hvw
    rw [Launcher.setWorker_workers_self]
    exact FiniteMap.lookup_emplace_of_some hv _ _
  · rw [Launcher.setWorker_workers_of_ne _ _ hvw]
    exact hv

theorem NoneStranded.processJob (hs : s.NoneStranded) {job : ℕ} {pick : Option ℕ}
    (hsafe : s.Safe (.processJob job pick)) (h : s.step policy (.processJob job pick) = some s') :
    s'.NoneStranded := by
  obtain ⟨header, hjob, -, ⟨-, rfl⟩ | ⟨w, m, htarget, rfl⟩⟩ := step_processJob h
  · refine hs.mono rfl (List.Subset.refl _) (fun j hj ↦ .inr (.inl ?_)) ?_
    · by_cases heq : j = job
      · exact heq ▸ List.mem_cons_self
      · exact List.mem_cons_of_mem _ ((List.mem_erase_of_ne heq).mpr hj)
    · exact fun v h j hv hpending ↦ .inr (.inr ⟨v, h, trivial, hv, hpending⟩)
  · have hpending : ∀ v, (s.link v).Pending →
        ((s.setLink w (s.link w).startWriteSocket).link v).Pending := by
      intro v hv
      by_cases hvw : v = w
      · rw [hvw, setLink_link_self]
        exact pending_startWriteSocket _
      · rwa [setLink_link_of_ne _ _ hvw]
    have hself : ((s.setLink w (s.link w).startWriteSocket).link w).Pending := by
      rw [setLink_link_self]
      exact pending_startWriteSocket _
    refine hs.mono rfl (List.Subset.refl _) ?_ ?_
    · intro j hj
      by_cases heq : j = job
      · subst heq
        cases hother : (s.launcher.workers w).startedJobs.lookup header with
        | none =>
          refine .inr (.inr ⟨w, header, trivial, ?_, hself⟩)
          rw [Has, Launcher.startWrite, Launcher.setWorker_workers_self]
          dsimp only
          rw [FiniteMap.lookup_emplace, hother, Option.getD_none]
        | some other =>
          rcases hsafe w header other htarget hjob hother with
            rfl | hdone | hposted | ⟨v, -, hv, hp⟩
          · exact .inr (.inr ⟨w, header, trivial, has_startWrite hother, hself⟩)
          · exact .inl hdone
          · exact .inr (.inl hposted)
          · exact .inr (.inr ⟨v, header, trivial, has_startWrite hv, hpending v hp⟩)
      · exact .inr (.inl ((List.mem_erase_of_ne heq).mpr hj))
    · intro v h j hv hp
      exact .inr (.inr ⟨v, h, trivial, has_startWrite hv, hpending v hp⟩)

private theorem safe_processJob (hk : s.launcher.Known) {job : ℕ} {pick : Option ℕ}
    (hstep : s.step policy (.processJob job pick) = some s') (hs' : s'.NoneStranded) :
    s.Safe (.processJob job pick) := by
  intro w header other htarget hjob hother
  obtain ⟨header', hjob', -, ⟨hnone, -⟩ | ⟨w', m, htarget', rfl⟩⟩ := step_processJob hstep
  · rw [htarget] at hnone
    cases hnone
  · obtain rfl : w = w' := Option.some_inj.mp (htarget.symm.trans htarget')
    obtain rfl : header = header' := Option.some_inj.mp (hjob.symm.trans hjob')
    by_cases heq : other = job
    · exact .inl heq
    by_cases hdone : job ∈ s.launcher.completed
    · exact .inr (.inl hdone)
    refine .inr (.inr ?_)
    have hknown := (List.getElem?_eq_some_iff.mp hjob).1
    rcases hs' job hknown hdone with hposted | ⟨v, h, -, hv, hpending⟩
    · exact .inl hposted
    · right
      rw [Has, Launcher.startWrite] at hv
      by_cases hvw : v = w
      · subst hvw
        rw [Launcher.setWorker_workers_self] at hv
        rcases FiniteMap.lookup_of_emplace hv with hv | ⟨-, -, hnone⟩
        · have hheader : h = header :=
            Option.some_inj.mp ((hk.header v h job hv).symm.trans hjob)
          rw [hheader] at hv
          exact absurd (Option.some_inj.mp (hother.symm.trans hv)) heq
        · cases hother.symm.trans hnone
      · rw [Launcher.setWorker_workers_of_ne _ _ hvw] at hv
        dsimp only at hpending
        rw [setLink_link_of_ne _ _ hvw] at hpending
        have hheader : h = header :=
          Option.some_inj.mp ((hk.header v h job hv).symm.trans hjob)
        exact ⟨v, hvw, hheader ▸ hv, hpending⟩

theorem NoneStranded.addWorker (hs : s.NoneStranded) (hk : s.launcher.Known) {l : Link}
    (h : (s.setLink s.launcher.workerCount l).launch policy .addWorker = some s') :
    s'.NoneStranded := by
  obtain ⟨launcher, hstep, rfl⟩ := launch_eq_some h
  obtain ⟨m, rest, rfl⟩ := step_addWorker hstep
  refine hs.mono rfl (List.Subset.refl _) (fun _ hjob ↦ .inr (.inl hjob)) ?_
  intro v header job hv hpending
  have hne : v ≠ s.launcher.workerCount := (hk.has_lt v header job hv).ne
  refine .inr (.inr ⟨v, header, trivial, ?_, ?_⟩)
  · exact (congrArg (fun worker : Worker ↦ worker.startedJobs.lookup header)
      (Launcher.setWorker_workers_of_ne s.launcher _ hne)).trans hv
  · exact (setLink_link_of_ne s l hne).symm ▸ hpending

/-- **One event.** A safe event strands no job. -/
theorem noneStranded_step {e : LinkEvent} (hsafe : s.Safe e) (h : s.step policy e = some s')
    (hk : s.launcher.Known) (hs : s.NoneStranded) : s'.NoneStranded := by
  cases e with
  | schedule header =>
    obtain ⟨launcher, hstep, rfl⟩ := launch_eq_some h
    cases hstep
    intro job hjob hnot
    rw [List.length_append, List.length_singleton, Nat.lt_succ_iff_lt_or_eq] at hjob
    rcases hjob with hjob | rfl
    · exact (hs job hjob hnot).imp_left (List.mem_cons_of_mem _)
    · exact .inl List.mem_cons_self
  | processJob job pick => exact hs.processJob hsafe h
  | processJobWithWorker header pick =>
    obtain ⟨launcher, hstep, rfl⟩ := launch_eq_some h
    obtain ⟨m, rfl⟩ := step_processJobWithWorker hstep
    exact hs
  | handleResponse w header => exact hs.handleResponse h
  | addWorker => exact hs.addWorker hk h
  | startWrite w =>
    rw [step] at h
    split at h
    · cases h
      exact hs.setLink (.inl (pending_startWriteSocket _))
    · cases h
  | readHeader w read =>
    unfold step at h
    dsimp only at h
    split at h
    · cases read with
      | none => exact hs.close hk h
      | some packet =>
        cases h
        refine hs.setLink ?_
        by_cases hended : afterHeader packet.1 packet.2 = .ended
        · exact (hsafe hended).imp_left .inr
        · exact .inl (.inl hended)
    · cases h
  | readBody w read =>
    unfold step at h
    dsimp only at h
    split at h
    · cases read with
      | none =>
        cases h
        exact hs.setLink (Or.imp_left .inr hsafe)
      | some toTransfer =>
        dsimp only at h
        split at h
        · exact hs.close hk h
        · obtain ⟨launcher, hstep, rfl⟩ := launch_eq_some h
          obtain ⟨-, rfl⟩ := step_onWorkerResponse hstep
          have hset : (s.setLink w { s.link w with reading := .header }).NoneStranded :=
            hs.setLink (.inl (.inl (by rintro ⟨⟩)))
          exact hset
    · cases h
  | wrote w =>
    rw [step] at h
    split at h
    · rename_i hwriting
      cases h
      rw [Safe, ← or_assoc, ← pending_startWriteOnePacket hwriting] at hsafe
      exact hs.setLink hsafe
    · cases h
  | writeError w =>
    rw [step] at h
    split at h
    · exact hs.close hk h
    · cases h
  | jobTimer job =>
    cases h
    exact hs

private theorem safe_of_noneStranded {e : LinkEvent} (h : s.step policy e = some s')
    (hk : s.launcher.Known) (hs' : s'.NoneStranded) : s.Safe e := by
  cases e with
  | processJob job pick => exact safe_processJob hk h hs'
  | readHeader w read =>
    cases read with
    | none => trivial
    | some packet =>
      intro hended
      rw [step] at h
      split at h
      · cases h
        by_cases hwriting : (s.link w).isWriting = true
        · exact .inl hwriting
        · refine .inr (spares_of_setLink hk ?_ hs')
          rw [Link.Pending, not_or]
          exact ⟨not_not.mpr hended, hwriting⟩
      · cases h
  | readBody w read =>
    cases read with
    | none =>
      unfold step at h
      dsimp only at h
      split at h
      · cases h
        by_cases hwriting : (s.link w).isWriting = true
        · exact .inl hwriting
        · refine .inr (spares_of_setLink hk ?_ hs')
          rw [Link.Pending, not_or]
          exact ⟨not_not.mpr rfl, hwriting⟩
      · cases h
    | some toTransfer => trivial
  | wrote w =>
    rw [step] at h
    split at h
    · rename_i hwriting
      cases h
      rw [Safe, ← or_assoc, ← pending_startWriteOnePacket hwriting]
      by_cases hpending : (s.link w).startWriteOnePacket.Pending
      · exact .inl hpending
      · exact .inr (spares_of_setLink hk hpending hs')
    · cases h
  | schedule | processJobWithWorker | handleResponse | addWorker | startWrite | writeError
  | jobTimer => trivial

end Links

/-- **No job is stranded exactly if every event is safe.** -/
theorem noneStranded_iff_safe {policy : Policy} {es : List LinkEvent} {s : Links}
    (hrun : run (Links.step policy) Links.init es = some s) :
    Always (Links.step policy) Links.NoneStranded Links.init es ↔
      Meets (Links.step policy) Links.Safe Links.init es := by
  have hinit : Links.init.launcher.Known ∧ Links.init.NoneStranded :=
    ⟨Launcher.Known.init, fun job hjob ↦ by cases hjob⟩
  refine always_iff_meets (I := fun s ↦ s.launcher.Known ∧ s.NoneStranded) ?_ ?_ ?_ hrun hinit
  · exact fun s e s' hsafe h hs ↦
      ⟨Links.known_step hs.1 h, Links.noneStranded_step hsafe h hs.1 hs.2⟩
  · exact fun s hs ↦ hs.2
  · exact fun s e s' hs h hs' ↦ Links.safe_of_noneStranded h hs.1 hs'

def firstRequest : PacketHeader :=
  ⟨List.Vector.replicate 32 0, List.Vector.replicate 4 0, List.Vector.replicate 4 0⟩

/-- The worker of a job fails at a header, and the job is posted again. -/
theorem noneStranded_header_error :
    ∃ s, run (Links.step .lowestLoad) Links.init
        [.addWorker, .schedule firstRequest, .processJob 0 (some 0), .readHeader 0 none] = some s ∧
      s.launcher.posted = [0] ∧
      Always (Links.step .lowestLoad) Links.NoneStranded Links.init
        [.addWorker, .schedule firstRequest, .processJob 0 (some 0), .readHeader 0 none] := by
  obtain ⟨s, hs⟩ := Option.isSome_iff_exists.mp (show (run (Links.step .lowestLoad) Links.init
    [.addWorker, .schedule firstRequest, .processJob 0 (some 0), .readHeader 0 none]).isSome
    by decide +kernel)
  have hposted : ∀ s ∈ run (Links.step .lowestLoad) Links.init
      [.addWorker, .schedule firstRequest, .processJob 0 (some 0), .readHeader 0 none],
      s.launcher.posted = [0] := by decide +kernel
  refine ⟨s, hs, hposted s hs, (noneStranded_iff_safe hs).mpr ⟨trivial, fun s₁ h₁ ↦
    ⟨trivial, fun s₂ h₂ ↦ ⟨?_, fun _ _ ↦ ⟨trivial, fun _ _ ↦ trivial⟩⟩⟩⟩⟩
  have hrun : run (Links.step .lowestLoad) Links.init [.addWorker, .schedule firstRequest]
      = some s₂ := run_cons_eq_some.mpr ⟨s₁, h₁, run_cons_eq_some.mpr ⟨s₂, h₂, rfl⟩⟩
  -- the worker has no other job yet
  have hnone : ∀ s ∈ run (Links.step .lowestLoad) Links.init [.addWorker, .schedule firstRequest],
      ∀ w ∈ s.target 0 (some 0), ∀ header ∈ s.launcher.jobs[0]?,
        (s.launcher.workers w).startedJobs.lookup header = none := by decide +kernel
  intro w header other htarget hjob hother
  cases (hnone s₂ hrun w htarget header hjob).symm.trans hother

/-- **A body that cannot be read strands the job.** The response of the worker breaks off behind its
header, and the job is neither posted nor completed. -/
theorem body_error_strands :
    ¬∀ (policy : Policy) (es : List LinkEvent) (s : Links),
      run (Links.step policy) Links.init es = some s → s.NoneStranded := by
  intro h
  obtain ⟨s, hs⟩ := Option.isSome_iff_exists.mp (show (run (Links.step .lowestLoad) Links.init
    [.addWorker, .schedule firstRequest, .processJob 0 (some 0), .wrote 0,
      .readHeader 0 (some (11, firstRequest)), .readBody 0 none]).isSome by decide +kernel)
  have hall : ∀ s ∈ run (Links.step .lowestLoad) Links.init
      [.addWorker, .schedule firstRequest, .processJob 0 (some 0), .wrote 0,
        .readHeader 0 (some (11, firstRequest)), .readBody 0 none],
      s.launcher.jobs.length = 1 ∧ s.launcher.completed = [] ∧ s.launcher.posted = [] ∧
        s.launcher.workerCount = 1 ∧ ¬(s.link 0).Pending := by decide +kernel
  obtain ⟨hjobs, hcompleted, hposted, hcount, hsilent⟩ := hall s hs
  have hk : s.launcher.Known := invariant_run_of_step (I := fun s ↦ s.launcher.Known)
    (fun _ _ _ h hs ↦ Links.known_step hs h) hs Launcher.Known.init
  have hkept := h _ _ s hs 0 (by rw [hjobs]; exact Nat.one_pos)
    (by rw [hcompleted]; exact List.not_mem_nil)
  rcases hkept with hin | ⟨w, header, -, hw, hpending⟩
  · rw [hposted] at hin
    cases hin
  · obtain rfl : w = 0 := Nat.lt_one_iff.mp (hcount ▸ hk.has_lt w header 0 hw)
    exact hsilent hpending

end Slsfs.Proxy

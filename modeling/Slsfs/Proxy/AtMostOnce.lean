import Slsfs.Proxy.Launcher

/-!
# At most one completion of a job

A job is in one place: its `process_job` is posted, or a worker that is open has it, or it is
completed. Only `close` breaks this. It posts the jobs of the worker again and leaves them in
`started_jobs_`, where a response handler that was posted before still finds them, and a second
`close` posts them once more. A run in which a closed worker is asked for none of its jobs completes
each job at most once.

## The invariant

`Once` puts every job in one place: posted or completed, and then only once in the two lists
together, or at one open worker. A worker that has closed does not count. What it still has in
`started_jobs_` has been posted again, and only an event that asks it for these jobs can tell.
`Careful` excludes those events, and a job that is with two workers cannot come about without them.
-/

namespace Slsfs.Proxy

open LeveldbPack Launcher

/-- The launcher has the job at the worker, and the worker is open. -/
def Launcher.Holds (s : Launcher) (w : ℕ) (header : PacketHeader) (job : ℕ) : Prop :=
  (s.workers w).valid = true ∧ (s.workers w).startedJobs.lookup header = some job

/-- **The invariant.** Each job is in one place. -/
structure Once (s : Launcher) : Prop where
  known : ∀ j ∈ s.posted ++ s.completed, j < s.jobs.length
  nodup : (s.posted ++ s.completed).Nodup
  header : ∀ w h j, (s.workers w).startedJobs.lookup h = some j → s.jobs[j]? = some h
  apart : ∀ w h j, s.Holds w h j → j ∉ s.posted ++ s.completed
  one : ∀ v w h j, s.Holds v h j → s.Holds w h j → v = w

/-- A closed worker has none of the jobs it is asked for. -/
def Careful (s : Launcher) : Event → Prop
  | .handleResponse w header =>
    (s.workers w).valid = false → (s.workers w).startedJobs.lookup header = none
  | .close w _ => (s.workers w).valid = false → (s.workers w).startedJobs.entries = []
  | _ => True

instance (s : Launcher) : DecidablePred (Careful s)
  | .handleResponse _ _ => inferInstanceAs (Decidable (_ → _))
  | .close _ _ => inferInstanceAs (Decidable (_ → _))
  | .schedule _ => inferInstanceAs (Decidable True)
  | .processJob _ _ => inferInstanceAs (Decidable True)
  | .processJobWithWorker _ _ => inferInstanceAs (Decidable True)
  | .onWorkerResponse _ _ => inferInstanceAs (Decidable True)
  | .addWorker => inferInstanceAs (Decidable True)

namespace Once

variable {s : Launcher}

theorem congr {s' : Launcher} (hs : Once s) (hworkers : s'.workers = s.workers)
    (hjobs : s'.jobs = s.jobs) (hposted : s'.posted = s.posted)
    (hcompleted : s'.completed = s.completed) : Once s' := by
  cases s'
  cases s
  cases hworkers
  cases hjobs
  cases hposted
  cases hcompleted
  exact ⟨hs.known, hs.nodup, hs.header, hs.apart, hs.one⟩

theorem init : Once Launcher.init where
  known _ h := nomatch h
  nodup := List.nodup_nil
  header _ _ _ h := nomatch h
  apart _ _ _ h := nomatch h.1
  one _ _ _ _ h := nomatch h.1

theorem schedule (hs : Once s) (header : PacketHeader) :
    Once { s with jobs := s.jobs ++ [header], posted := s.jobs.length :: s.posted } := by
  have hnew : s.jobs.length ∉ s.posted ++ s.completed := fun h ↦ absurd (hs.known _ h) (by omega)
  refine ⟨?_, ?_, ?_, ?_, hs.one⟩
  · intro j hj
    rw [List.length_append, List.length_singleton]
    rcases List.mem_cons.mp hj with rfl | hj
    · omega
    · have := hs.known j hj
      omega
  · exact List.nodup_cons.mpr ⟨hnew, hs.nodup⟩
  · intro w h j hj
    have hold := hs.header w h j hj
    dsimp only
    rw [List.getElem?_append_left (List.getElem?_eq_some_iff.mp hold).1, hold]
  · intro w h j hj hmem
    rcases List.mem_cons.mp hmem with rfl | hmem
    · have hold := hs.header w h _ hj.2
      rw [List.getElem?_eq_none le_rfl] at hold
      cases hold
    · exact hs.apart w h j hj hmem

theorem take (hs : Once s) {job : ℕ} (hjob : job ∈ s.posted) :
    Once { s with posted := s.posted.erase job } ∧ job ∉ s.posted.erase job ++ s.completed := by
  have hperm : (s.posted ++ s.completed).Perm (job :: (s.posted.erase job ++ s.completed)) :=
    (List.perm_cons_erase hjob).append_right _
  have hnodup := hperm.nodup_iff.mp hs.nodup
  have hsub : ∀ j ∈ s.posted.erase job ++ s.completed, j ∈ s.posted ++ s.completed :=
    fun j hj ↦ hperm.mem_iff.mpr (List.mem_cons_of_mem _ hj)
  exact ⟨⟨fun j hj ↦ hs.known j (hsub j hj), (List.nodup_cons.mp hnodup).2, hs.header,
    fun w h j hj hmem ↦ hs.apart w h j hj (hsub j hmem), hs.one⟩, (List.nodup_cons.mp hnodup).1⟩

/-- A job that is nowhere is given to a worker. A job with the same header that is there stays. -/
theorem startWrite (hs : Once s) {w job : ℕ} {header : PacketHeader}
    (hheader : s.jobs[job]? = some header) (hfree : job ∉ s.posted ++ s.completed)
    (hnowhere : ∀ v h, ¬ s.Holds v h job) : Once (s.startWrite w job header) := by
  have hcases : ∀ v h j, ((s.startWrite w job header).workers v).startedJobs.lookup h = some j →
      (s.workers v).startedJobs.lookup h = some j ∨ v = w ∧ h = header ∧ j = job := by
    intro v h j hj
    by_cases hv : v = w
    · subst hv
      rw [Launcher.startWrite, setWorker_workers_self] at hj
      rcases FiniteMap.lookup_of_emplace hj with hold | ⟨hh, hj, -⟩
      · exact .inl hold
      · exact .inr ⟨rfl, hh, hj⟩
    · rw [Launcher.startWrite, setWorker_workers_of_ne _ _ hv] at hj
      exact .inl hj
  have hvalid : ∀ v, ((s.startWrite w job header).workers v).valid = (s.workers v).valid := by
    intro v
    by_cases hv : v = w
    · subst hv
      rw [Launcher.startWrite, setWorker_workers_self]
    · rw [Launcher.startWrite, setWorker_workers_of_ne _ _ hv]
  have hholds : ∀ v h j, (s.startWrite w job header).Holds v h j →
      s.Holds v h j ∨ v = w ∧ h = header ∧ j = job := by
    intro v h j hj
    rcases hcases v h j hj.2 with hold | hnew
    · exact .inl ⟨(hvalid v).symm.trans hj.1, hold⟩
    · exact .inr hnew
  refine ⟨hs.known, hs.nodup, ?_, ?_, ?_⟩
  · intro v h j hj
    rcases hcases v h j hj with hold | ⟨-, rfl, rfl⟩
    · exact hs.header v h j hold
    · exact hheader
  · intro v h j hj
    rcases hholds v h j hj with hold | ⟨-, -, rfl⟩
    · exact hs.apart v h j hold
    · exact hfree
  · intro u v h j hu hv
    rcases hholds u h j hu with hold | ⟨hu, -, hj⟩
    · rcases hholds v h j hv with hold' | ⟨-, -, rfl⟩
      · exact hs.one u v h j hold hold'
      · exact absurd hold (hnowhere u h)
    · rcases hholds v h j hv with hold' | ⟨hv, -, -⟩
      · exact absurd (hj ▸ hold') (hnowhere v h)
      · exact hu.trans hv.symm

private theorem repost (hs : Once s) {job : ℕ} (hjob : job ∈ s.posted) :
    Once { s with posted := job :: s.posted.erase job } := by
  obtain ⟨htaken, hfree⟩ := hs.take hjob
  have hposted : job ∈ s.posted ++ s.completed := List.mem_append_left _ hjob
  refine ⟨?_, List.nodup_cons.mpr ⟨hfree, htaken.nodup⟩, hs.header, ?_, hs.one⟩
  · intro j hj
    rcases List.mem_cons.mp hj with rfl | hj
    · exact hs.known _ hposted
    · exact htaken.known j hj
  · intro w h j hj hmem
    rcases List.mem_cons.mp hmem with rfl | hmem
    · exact hs.apart w h _ hj hposted
    · exact htaken.apart w h j hj hmem

theorem handleResponse (hs : Once s) {w : ℕ} {header : PacketHeader}
    (hcareful : (s.workers w).valid = false → (s.workers w).startedJobs.lookup header = none) :
    Once (s.handleResponse w header) := by
  rw [Launcher.handleResponse]
  split
  · exact hs
  · rename_i job hjob
    have hheader := hs.header w header job hjob
    have hvalid : (s.workers w).valid = true := by
      by_contra hinvalid
      rw [hcareful (by simpa using hinvalid)] at hjob
      cases hjob
    have hfree := hs.apart w header job ⟨hvalid, hjob⟩
    have hperm : (s.posted ++ job :: s.completed).Perm (job :: (s.posted ++ s.completed)) :=
      List.perm_middle
    -- what is left at the workers was there before, and is not the job
    have hleft : ∀ v h j,
        ((s.setWorker w ⟨(s.workers w).valid, (s.workers w).startedJobs.erase header⟩).workers
          v).startedJobs.lookup h = some j →
        (s.workers v).startedJobs.lookup h = some j ∧ (v = w → h ≠ header) := by
      intro v h j hj
      by_cases hv : v = w
      · subst hv
        rw [setWorker_workers_self] at hj
        obtain ⟨hne, hold⟩ := FiniteMap.lookup_of_erase hj
        exact ⟨hold, fun _ ↦ hne⟩
      · rw [setWorker_workers_of_ne _ _ hv] at hj
        exact ⟨hj, fun h ↦ absurd h hv⟩
    have hopen : ∀ v,
        ((s.setWorker w ⟨(s.workers w).valid, (s.workers w).startedJobs.erase header⟩).workers
          v).valid = (s.workers v).valid := by
      intro v
      by_cases hv : v = w
      · subst hv
        rw [setWorker_workers_self]
      · rw [setWorker_workers_of_ne _ _ hv]
    refine ⟨?_, hperm.nodup_iff.mpr (List.nodup_cons.mpr ⟨hfree, hs.nodup⟩), ?_, ?_, ?_⟩
    · intro j hj
      rcases List.mem_cons.mp (hperm.mem_iff.mp hj) with rfl | hj
      · exact (List.getElem?_eq_some_iff.mp hheader).1
      · exact hs.known j hj
    · exact fun v h j hj ↦ hs.header v h j (hleft v h j hj).1
    · intro v h j hj hmem
      obtain ⟨hold, hne⟩ := hleft v h j hj.2
      have hholds : s.Holds v h j := ⟨(hopen v).symm.trans hj.1, hold⟩
      rcases List.mem_cons.mp (hperm.mem_iff.mp hmem) with rfl | hmem
      · obtain rfl : h = header :=
          Option.some_inj.mp ((hs.header v h _ hold).symm.trans hheader)
        exact hne (hs.one v w h _ hholds ⟨hvalid, hjob⟩) rfl
      · exact hs.apart v h j hholds hmem
    · intro u v h j hu hv
      exact hs.one u v h j ⟨(hopen u).symm.trans hu.1, (hleft u h j hu.2).1⟩
        ⟨(hopen v).symm.trans hv.1, (hleft v h j hv.2).1⟩

private theorem nodup_startedJobs (hs : Once s) (w : ℕ) :
    ((s.workers w).startedJobs.entries.map Sigma.snd).Nodup := by
  refine (s.workers w).startedJobs.nodupKeys.nodup.map_on ?_
  rintro ⟨h, j⟩ he ⟨h', j'⟩ he' rfl
  have hfirst := hs.header w h j (AList.mem_lookup_iff.mpr he)
  rw [hs.header w h' j (AList.mem_lookup_iff.mpr he'), Option.some_inj] at hfirst
  rw [hfirst]

theorem close (hs : Once s) {w : ℕ} (toTransfer : Option (List Key))
    (hcareful : (s.workers w).valid = false → (s.workers w).startedJobs.entries = []) :
    Once (s.close w toTransfer) := by
  obtain ⟨js, hjs⟩ : ∃ js, (s.workers w).startedJobs.entries.map Sigma.snd = js := ⟨_, rfl⟩
  have hmem : ∀ j ∈ js, ∃ h, s.Holds w h j := by
    intro j hj
    rw [← hjs] at hj
    obtain ⟨⟨h, j⟩, he, rfl⟩ := List.mem_map.mp hj
    refine ⟨h, ?_, AList.mem_lookup_iff.mpr he⟩
    by_contra hinvalid
    rw [hcareful (by simpa using hinvalid)] at he
    cases he
  have hknown : ∀ j ∈ js, j < s.jobs.length := fun j hj ↦
    have ⟨h, hholds⟩ := hmem j hj
    (List.getElem?_eq_some_iff.mp (hs.header w h j hholds.2)).1
  have hworkers : ∀ v, v ≠ w →
      (s.setWorker w ⟨false, (s.workers w).startedJobs⟩).workers v = s.workers v :=
    fun v hv ↦ setWorker_workers_of_ne _ _ hv
  -- the worker that closes holds nothing any more, the others hold what they held
  have hclosed : Once { s.setWorker w ⟨false, (s.workers w).startedJobs⟩ with
      posted := js.reverse ++ s.posted } := by
    have hholds : ∀ v h j,
        (s.setWorker w ⟨false, (s.workers w).startedJobs⟩).Holds v h j → v ≠ w ∧ s.Holds v h j := by
      intro v h j hj
      by_cases hv : v = w
      · subst hv
        have hinvalid := hj.1
        rw [setWorker_workers_self] at hinvalid
        cases hinvalid
      · rw [Launcher.Holds, hworkers v hv] at hj
        exact ⟨hv, hj⟩
    refine ⟨?_, ?_, ?_, ?_, ?_⟩
    · intro j hj
      rw [List.append_assoc] at hj
      rcases List.mem_append.mp hj with hj | hj
      · exact hknown j (List.mem_reverse.mp hj)
      · exact hs.known j hj
    · dsimp only
      rw [List.append_assoc]
      refine List.Nodup.append ?_ hs.nodup ?_
      · rw [List.nodup_reverse, ← hjs]
        exact hs.nodup_startedJobs w
      · intro j hj hpresent
        obtain ⟨h, hj⟩ := hmem j (List.mem_reverse.mp hj)
        exact hs.apart w h j hj hpresent
    · intro v h j hj
      by_cases hv : v = w
      · subst hv
        dsimp only at hj
        rw [setWorker_workers_self] at hj
        exact hs.header v h j hj
      · dsimp only at hj
        rw [hworkers v hv] at hj
        exact hs.header v h j hj
    · intro v h j hj hpresent
      obtain ⟨hv, hold⟩ := hholds v h j hj
      dsimp only at hpresent
      rw [List.append_assoc] at hpresent
      rcases List.mem_append.mp hpresent with hpresent | hpresent
      · obtain ⟨h', hw⟩ := hmem j (List.mem_reverse.mp hpresent)
        obtain rfl : h' = h := Option.some_inj.mp
          ((hs.header w h' j hw.2).symm.trans (hs.header v h j hold.2))
        exact hv (hs.one v w h' j hold hw)
      · exact hs.apart v h j hold hpresent
    · intro u v h j hu hv
      exact hs.one u v h j (hholds u h j hu).2 (hholds v h j hv).2
  obtain ⟨m, rest, hm⟩ := close_eq s w toTransfer
    fun header job hjob ↦ (List.getElem?_eq_some_iff.mp (hs.header w header job hjob)).1
  rw [hm, hjs]
  exact hclosed.congr rfl rfl rfl rfl

theorem register (hs : Once s) : Once (s.setWorker s.workerCount ⟨true, ∅⟩) := by
  have hold : ∀ v h j,
      ((s.setWorker s.workerCount ⟨true, ∅⟩).workers v).startedJobs.lookup h = some j →
      (s.setWorker s.workerCount ⟨true, ∅⟩).workers v = s.workers v := by
    intro v h j hj
    by_cases hv : v = s.workerCount
    · subst hv
      rw [setWorker_workers_self] at hj
      cases hj
    · rw [setWorker_workers_of_ne _ _ hv]
  have hholds : ∀ v h j, (s.setWorker s.workerCount ⟨true, ∅⟩).Holds v h j → s.Holds v h j := by
    intro v h j hj
    have heq := hold v h j hj.2
    rwa [Launcher.Holds, heq] at hj
  refine ⟨hs.known, hs.nodup, ?_, ?_, ?_⟩
  · intro v h j hj
    have heq := hold v h j hj
    rw [heq] at hj
    exact hs.header v h j hj
  · exact fun v h j hj ↦ hs.apart v h j (hholds v h j hj)
  · exact fun u v h j hu hv ↦ hs.one u v h j (hholds u h j hu) (hholds v h j hv)

theorem step {policy : Policy} {s' : Launcher} {e : Event} (hcareful : Careful s e)
    (h : step policy s e = some s') (hs : Once s) : Once s' := by
  cases e with
  | schedule header =>
    cases h
    exact hs.schedule header
  | processJob job pick =>
    obtain ⟨header, hheader, hjob, ⟨-, rfl⟩ | ⟨w, m, -, -, rfl⟩⟩ := step_processJob h
    · exact hs.repost hjob
    · obtain ⟨htaken, hfree⟩ := hs.take hjob
      have hbound : Once { s with posted := s.posted.erase job, fileidToWorker := m } :=
        htaken.congr rfl rfl rfl rfl
      refine hbound.startWrite hheader hfree fun v h hv ↦ ?_
      exact hs.apart v h job hv (List.mem_append_left _ hjob)
  | processJobWithWorker header pick =>
    obtain ⟨m, rfl⟩ := step_processJobWithWorker h
    exact hs.congr rfl rfl rfl rfl
  | onWorkerResponse w header =>
    obtain ⟨-, rfl⟩ := step_onWorkerResponse h
    exact hs.congr rfl rfl rfl rfl
  | handleResponse w header =>
    obtain ⟨-, rfl⟩ := step_handleResponse h
    exact handleResponse (s := { s with responses := s.responses.erase (w, header) })
      (hs.congr rfl rfl rfl rfl) hcareful
  | close w toTransfer =>
    obtain ⟨-, rfl⟩ := step_close h
    exact hs.close toTransfer hcareful
  | addWorker =>
    obtain ⟨m, rest, rfl⟩ := step_addWorker h
    exact hs.register.congr rfl rfl rfl rfl

end Once

/-- **At most one completion.** In a run in which a closed worker has none of the jobs it is asked
for, the completion of each job is fired at most once. -/
theorem completes_at_most_once {policy : Policy} {es : List Event} {s : Launcher}
    (hrun : run (step policy) Launcher.init es = some s)
    (hmeets : Meets (step policy) Careful Launcher.init es) (job : ℕ) :
    s.completed.count job ≤ 1 := by
  have honce : Once s := invariant_run (I := Once)
    (fun _ _ _ hC h hs ↦ Once.step hC h hs) hmeets hrun Once.init
  exact List.nodup_iff_count_le_one.mp (List.nodup_append.mp honce.nodup).2.1 job

/-! ## Two runs -/

/-- The header of a request. -/
def clientHeader : PacketHeader :=
  ⟨List.Vector.replicate 32 0, List.Vector.replicate 4 1, List.Vector.replicate 4 1⟩

/-- A worker closes with a job, which is done by another one. -/
theorem completes_at_most_once_handed_over :
    ∃ s, run (step .lowestLoad) Launcher.init
        [.addWorker, .schedule clientHeader, .processJob 0 (some 0), .addWorker, .close 0 none,
          .processJob 0 (some 1), .onWorkerResponse 1 clientHeader,
          .handleResponse 1 clientHeader] = some s ∧
      s.completed = [0] ∧ s.completed.count 0 ≤ 1 := by
  obtain ⟨s, hs⟩ := Option.isSome_iff_exists.mp (show (run (step .lowestLoad) Launcher.init
    [.addWorker, .schedule clientHeader, .processJob 0 (some 0), .addWorker, .close 0 none,
      .processJob 0 (some 1), .onWorkerResponse 1 clientHeader,
      .handleResponse 1 clientHeader]).isSome by decide +kernel)
  have hall : ∀ s ∈ run (step .lowestLoad) Launcher.init
      [.addWorker, .schedule clientHeader, .processJob 0 (some 0), .addWorker, .close 0 none,
        .processJob 0 (some 1), .onWorkerResponse 1 clientHeader,
        .handleResponse 1 clientHeader], s.completed = [0] := by decide +kernel
  exact ⟨s, hs, hall s hs, completes_at_most_once hs (by decide +kernel) 0⟩

/-- **A job that is completed twice.** The response of the first worker is read before it closes and
handled afterwards. -/
theorem job_completed_twice :
    ∃ s, run (step .lowestLoad) Launcher.init
        [.addWorker, .addWorker, .schedule clientHeader, .processJob 0 (some 0),
          .onWorkerResponse 0 clientHeader, .close 0 none, .processJob 0 (some 1),
          .handleResponse 0 clientHeader, .onWorkerResponse 1 clientHeader,
          .handleResponse 1 clientHeader] = some s ∧
      s.completed.count 0 = 2 := by
  obtain ⟨s, hs⟩ := Option.isSome_iff_exists.mp (show (run (step .lowestLoad) Launcher.init
    [.addWorker, .addWorker, .schedule clientHeader, .processJob 0 (some 0),
      .onWorkerResponse 0 clientHeader, .close 0 none, .processJob 0 (some 1),
      .handleResponse 0 clientHeader, .onWorkerResponse 1 clientHeader,
      .handleResponse 1 clientHeader]).isSome by decide +kernel)
  have hall : ∀ s ∈ run (step .lowestLoad) Launcher.init
      [.addWorker, .addWorker, .schedule clientHeader, .processJob 0 (some 0),
        .onWorkerResponse 0 clientHeader, .close 0 none, .processJob 0 (some 1),
        .handleResponse 0 clientHeader, .onWorkerResponse 1 clientHeader,
        .handleResponse 1 clientHeader], s.completed.count 0 = 2 := by decide +kernel
  exact ⟨s, hs, hall s hs⟩

end Slsfs.Proxy

import Slsfs.Proxy.Launcher

/-!
# The worker that receives a cache

A worker that registers takes the oldest transfer request: it is sent the cache tables, and the
files they are about are to be bound to it. `add_worker` means to leave a file alone only if it is
bound to an open worker. But it binds with `emplace`, which does not replace: a file whose worker
has closed stays bound to that one. So the files follow their cache exactly if none of them is bound
to a closed worker, and those of the worker that has just deregistered usually are.
-/

namespace Slsfs.Proxy

open LeveldbPack Launcher

/-- After the registration of the worker that comes next, the file is bound to an open worker: to
the one it was assigned to, or else to the new one. -/
structure Rebound (s s' : Launcher) (file : Key) : Prop where
  lookup : s'.fileidToWorker.lookup file = some ((s.assignedWorker file).getD s.workerCount)
  valid : (s'.workers ((s.assignedWorker file).getD s.workerCount)).valid = true

theorem Rebound.assignedWorker {s s' : Launcher} {file : Key} (h : Rebound s s' file) :
    s'.assignedWorker file = some ((s.assignedWorker file).getD s.workerCount) := by
  rw [Launcher.assignedWorker, h.lookup, Option.filter_some, if_pos h.valid]

/-- The workers that files are bound to, and those of the set, have registered before: a number that
is still to be given out is nowhere. -/
structure Registered (s : Launcher) : Prop where
  bound : ∀ file w, s.fileidToWorker.lookup file = some w → w < s.workerCount
  member : ∀ w ∈ s.workerSet, w < s.workerCount

/-! ## Bindings are to workers that have registered

The number of the worker that registers next is bound to no file. Otherwise a file could be found
bound to a worker that comes to life only now, and whether the binding was to an open one would
depend on when it is looked at. -/

section Registration

variable {policy : Policy} {s s' : Launcher} {file : Key} {w : ℕ}

private theorem registered_init : Registered Launcher.init where
  bound := fun file w h ↦ by cases h
  member := fun w h ↦ by cases h

private theorem lookup_of_bind {pick : Option ℕ} (h : s.bind file pick = some (w, s'))
    (havail : s.assignedWorker file = none → s.Available policy pick) {key : Key} {v : ℕ}
    (hv : s'.fileidToWorker.lookup key = some v) :
    s.fileidToWorker.lookup key = some v ∨ v ∈ s.workerSet := by
  rw [Launcher.bind] at h
  split at h
  · cases h
    exact .inl hv
  · rename_i hnone
    obtain ⟨u, rfl, hu⟩ := Option.map_eq_some_iff.mp h
    cases hu
    rcases FiniteMap.lookup_of_emplace hv with hold | ⟨-, rfl, -⟩
    · exact .inl hold
    · exact .inr (havail hnone).1

private theorem available_of_processJob {job : ℕ} {pick : Option ℕ} {header : PacketHeader}
    (h : step policy s (.processJob job pick) = some s') (hheader : s.jobs[job]? = some header) :
    s.assignedWorker header.key = none → s.Available policy pick := by
  rw [step, hheader] at h
  dsimp only at h
  split at h
  · rename_i hguard
    exact hguard.2
  · cases h

theorem Registered.bind (h : Registered s) {pick : Option ℕ}
    (hbind : s.bind file pick = some (w, s'))
    (havail : s.assignedWorker file = none → s.Available policy pick) : Registered s' := by
  obtain ⟨-, m, rfl⟩ := bind_spec policy hbind havail
  refine ⟨fun key v hv ↦ ?_, h.member⟩
  rcases lookup_of_bind hbind havail hv with hold | hmem
  · exact h.bound key v hold
  · exact h.member v hmem

private theorem lookup_of_foldl_onWorkerReschedule {js : List ℕ}
    (h : (js.foldl onWorkerReschedule s).fileidToWorker.lookup file = some w) :
    s.fileidToWorker.lookup file = some w := by
  induction js generalizing s with
  | nil => exact h
  | cons j js ih =>
    have hlater := ih h
    rw [onWorkerReschedule] at hlater
    split at hlater
    · exact hlater
    · exact (FiniteMap.lookup_of_erase hlater).2

theorem Registered.close (h : Registered s) (toTransfer : Option (List Key)) :
    Registered (s.close w toTransfer) := by
  obtain ⟨-, hcount, hset⟩ := close_workers s w toTransfer
  refine ⟨fun key v hv ↦ ?_, fun v hv ↦ ?_⟩
  · rw [hcount]
    cases toTransfer with
    | none =>
      have hold := lookup_of_foldl_onWorkerReschedule hv
      exact h.bound key v hold
    | some bindings =>
      have hold := lookup_of_foldl_onWorkerReschedule hv
      exact h.bound key v hold
  · rw [hcount]
    rw [hset] at hv
    split at hv
    · exact h.member v (List.mem_of_mem_filter hv)
    · exact h.member v hv

private theorem lookup_of_bindTransferred {key : Key} {n : ℕ}
    (h : (bindTransferred n s key).fileidToWorker.lookup file = some w) :
    s.fileidToWorker.lookup file = some w ∨ w = n := by
  have hemplace : (s.fileidToWorker.emplace key n).lookup file = some w →
      s.fileidToWorker.lookup file = some w ∨ w = n := by
    intro hlookup
    rcases FiniteMap.lookup_of_emplace hlookup with hold | ⟨-, hnew, -⟩
    · exact .inl hold
    · exact .inr hnew
  rw [bindTransferred] at h
  split at h
  · split at h
    · exact .inl h
    · exact hemplace h
  · exact hemplace h

private theorem lookup_of_foldl_bindTransferred {keys : List Key} {n : ℕ}
    (h : (keys.foldl (bindTransferred n) s).fileidToWorker.lookup file = some w) :
    s.fileidToWorker.lookup file = some w ∨ w = n := by
  induction keys generalizing s with
  | nil => exact .inl h
  | cons key keys ih =>
    rcases ih h with hlater | hnew
    · exact lookup_of_bindTransferred hlater
    · exact .inr hnew

theorem Registered.addWorker (h : Registered s) : Registered s.addWorker := by
  have hadded : ∀ file w, s.fileidToWorker.lookup file = some w ∨ w = s.workerCount →
      w < s.workerCount + 1 := by
    rintro file w (hold | rfl)
    · exact Nat.lt_succ_of_lt (h.bound file w hold)
    · exact Nat.lt_succ_self _
  have hmember : ∀ w ∈ s.workerSet ++ [s.workerCount], w < s.workerCount + 1 := by
    intro w hw
    rcases List.mem_append.mp hw with hw | hw
    · exact Nat.lt_succ_of_lt (h.member w hw)
    · exact List.mem_singleton.mp hw ▸ Nat.lt_succ_self _
  rw [Launcher.addWorker]
  dsimp only
  split
  · exact ⟨fun file w hw ↦ hadded file w (.inl hw), hmember⟩
  · rename_i bindings rest hrest
    obtain ⟨m, hm⟩ := foldl_bindTransferred s.workerCount bindings
      { s.setWorker s.workerCount ⟨true, ∅⟩ with
        workerCount := s.workerCount + 1
        workerSet := s.workerSet ++ [s.workerCount]
        transferRequests := rest }
    refine ⟨fun file w hw ↦ ?_, by rw [hm]; exact hmember⟩
    have hw' := lookup_of_foldl_bindTransferred hw
    rw [hm]
    exact hadded file w hw'

theorem Registered.step {e : Event} (h : Registered s) (hs : step policy s e = some s') :
    Registered s' := by
  cases e with
  | schedule header =>
    cases hs
    exact ⟨h.bound, h.member⟩
  | processJob job pick =>
    obtain ⟨header, hheader, -, hstep⟩ := step_processJob hs
    rcases hstep with ⟨-, rfl⟩ | ⟨v, m, hbind, -, rfl⟩
    · exact ⟨h.bound, h.member⟩
    · have hbound := h.bind hbind (available_of_processJob hs hheader)
      exact ⟨hbound.bound, hbound.member⟩
  | processJobWithWorker header pick =>
    rw [Proxy.step] at hs
    split at hs
    · rename_i hguard
      cases hs
      cases hbind : s.bind header.key pick with
      | none => exact h
      | some r => exact h.bind hbind hguard
    · cases hs
  | onWorkerResponse v header =>
    obtain ⟨-, rfl⟩ := step_onWorkerResponse hs
    exact ⟨h.bound, h.member⟩
  | handleResponse v header =>
    obtain ⟨-, rfl⟩ := step_handleResponse hs
    rw [handleResponse]
    split
    · exact ⟨h.bound, h.member⟩
    · exact ⟨h.bound, h.member⟩
  | close v toTransfer =>
    obtain ⟨-, rfl⟩ := step_close hs
    exact h.close toTransfer
  | addWorker =>
    cases hs
    exact h.addWorker

/-- Every state of a launcher has its files bound to workers that have registered. -/
theorem registered_run {es : List Event} (hrun : run (step policy) Launcher.init es = some s) :
    Registered s :=
  invariant_run_of_step (fun _ _ _ hs h ↦ h.step hs) hrun registered_init

end Registration

/-! ## The handover

`add_worker` goes through the files one after the other, and does nothing for a file that is bound
to an open worker. For one that is not it calls `emplace`, which does nothing either if the file is
bound at all. So a file ends where it was bound before, and with the new worker if it was
unbound. -/

section Handover

variable {s : Launcher} {file : Key} {bindings : List Key} {n w : ℕ}

private theorem workers_foldl_bindTransferred (keys : List Key) (s : Launcher) :
    (keys.foldl (bindTransferred n) s).workers = s.workers := by
  obtain ⟨m, hm⟩ := foldl_bindTransferred n keys s
  rw [hm]

private theorem lookup_foldl_bindTransferred (hbound : s.fileidToWorker.lookup file = some w) :
    (bindings.foldl (bindTransferred n) s).fileidToWorker.lookup file = some w := by
  induction bindings generalizing s with
  | nil => exact hbound
  | cons key bindings ih =>
    rw [List.foldl_cons]
    refine ih ?_
    rw [Launcher.bindTransferred]
    split
    · split
      · exact hbound
      · exact FiniteMap.lookup_emplace_of_some hbound _ _
    · exact FiniteMap.lookup_emplace_of_some hbound _ _

private theorem lookup_foldl_bindTransferred_of_none (hmem : file ∈ bindings)
    (hnone : s.fileidToWorker.lookup file = none) :
    (bindings.foldl (bindTransferred n) s).fileidToWorker.lookup file = some n := by
  induction bindings generalizing s with
  | nil => cases hmem
  | cons key bindings ih =>
    rw [List.foldl_cons]
    by_cases hkey : file = key
    · subst hkey
      refine lookup_foldl_bindTransferred ?_
      rw [bindTransferred, hnone]
      dsimp only
      rw [FiniteMap.lookup_emplace, hnone, Option.getD_none]
    · refine ih ((List.mem_cons.mp hmem).resolve_left hkey) ?_
      rw [bindTransferred]
      split
      · split
        · exact hnone
        · exact (FiniteMap.lookup_emplace_of_ne _ _ hkey).trans hnone
      · exact (FiniteMap.lookup_emplace_of_ne _ _ hkey).trans hnone

private theorem lookup_addWorker {rest : List (List Key)}
    (hfirst : s.transferRequests = bindings :: rest) (hmem : file ∈ bindings) :
    s.addWorker.fileidToWorker.lookup file
      = some ((s.fileidToWorker.lookup file).getD s.workerCount) := by
  rw [addWorker]
  simp only [hfirst]
  cases hlookup : s.fileidToWorker.lookup file with
  | none => exact lookup_foldl_bindTransferred_of_none hmem hlookup
  | some w => exact lookup_foldl_bindTransferred hlookup

private theorem workers_addWorker (s : Launcher) :
    s.addWorker.workers = Function.update s.workers s.workerCount ⟨true, ∅⟩ := by
  rw [addWorker]
  dsimp only
  split
  · rfl
  · exact workers_foldl_bindTransferred _ _

/-- **Cache transfer rebinds the files** exactly if none of them is bound to a closed worker. -/
theorem rebinds_iff_open {s : Launcher} (hregistered : Registered s) {bindings : List Key}
    {rest : List (List Key)} (hfirst : s.transferRequests = bindings :: rest) :
    (∀ file ∈ bindings, Rebound s s.addWorker file) ↔
      ∀ file ∈ bindings, ∀ w ∈ s.fileidToWorker.lookup file, (s.workers w).valid = true := by
  constructor
  · intro h file hmem w hw
    rw [Option.mem_def] at hw
    have hbound := (h file hmem).lookup
    rw [lookup_addWorker hfirst hmem, hw, Option.getD_some, Option.some_inj] at hbound
    by_contra hclosed
    have hnone : s.assignedWorker file = none := by
      rw [assignedWorker, hw, Option.filter_some, if_neg hclosed]
    rw [hnone, Option.getD_none] at hbound
    exact absurd (hregistered.bound file w hw) (by omega)
  · intro h file hmem
    have hassigned : s.assignedWorker file = s.fileidToWorker.lookup file := by
      rw [assignedWorker]
      cases hlookup : s.fileidToWorker.lookup file with
      | none => rfl
      | some w => rw [Option.filter_some, if_pos (h file hmem w hlookup)]
    refine ⟨by rw [lookup_addWorker hfirst hmem, hassigned], ?_⟩
    rw [workers_addWorker, hassigned]
    cases hlookup : s.fileidToWorker.lookup file with
    | none =>
      rw [Option.getD_none, Function.update_self]
    | some w =>
      have hlt := hregistered.bound file w hlookup
      rw [Option.getD_some, Function.update_of_ne (by omega)]
      exact h file hmem w hlookup

end Handover

/-! ## Two handovers

A worker that deregisters while it has a job of the file has the file unbound by the rescheduling of
that job, and the new worker gets it. If the file has no job at that moment nothing unbinds it: it
stays with the worker that is gone, and the cache has gone to another. -/

/-- The header of the request with a number, all for one file. -/
def fileHeader (n : UInt8) : PacketHeader :=
  ⟨List.Vector.replicate 32 0, List.Vector.replicate 4 n, List.Vector.replicate 4 1⟩

/-- The key of the file of `fileHeader`. -/
def handedFile : Key := (fileHeader 0).key

/-- The job of the file is still running when its worker deregisters: the file is unbound. -/
theorem rebinds_busy_file :
    ∃ s rest, run (step .lowestLoad) Launcher.init
        [.addWorker, .schedule (fileHeader 0), .processJob 0 (some 0),
          .close 0 (some [handedFile])] = some s ∧
      s.transferRequests = [handedFile] :: rest ∧
      ∀ file ∈ [handedFile], Rebound s s.addWorker file := by
  have hall : ∀ s ∈ run (step .lowestLoad) Launcher.init
      [.addWorker, .schedule (fileHeader 0), .processJob 0 (some 0),
        .close 0 (some [handedFile])], s.transferRequests = [[handedFile]] ∧
      s.fileidToWorker.lookup handedFile = none := by
    decide +kernel
  obtain ⟨s, hs⟩ := Option.isSome_iff_exists.mp (show (run (step .lowestLoad) Launcher.init
    [.addWorker, .schedule (fileHeader 0), .processJob 0 (some 0),
      .close 0 (some [handedFile])]).isSome by decide +kernel)
  obtain ⟨hfirst, hnone⟩ := hall s hs
  refine ⟨s, [], hs, hfirst, (rebinds_iff_open (registered_run hs) hfirst).mpr ?_⟩
  intro file hfile w hw
  rw [List.mem_singleton.mp hfile, hnone] at hw
  cases hw

/-- **A cache without its files.** The file is idle when its worker deregisters. The worker that
registers next gets the cache, and the file stays with the one that is gone. -/
theorem idle_file_stays_behind :
    ∃ s, run (step .lowestLoad) Launcher.init
        [.addWorker, .schedule (fileHeader 0), .processJob 0 (some 0),
          .onWorkerResponse 0 (fileHeader 0), .handleResponse 0 (fileHeader 0),
          .close 0 (some [handedFile])] = some s ∧
      s.transferRequests = [[handedFile]] ∧ ¬Rebound s s.addWorker handedFile ∧
      s.addWorker.assignedWorker handedFile = none := by
  have hall : ∀ s ∈ run (step .lowestLoad) Launcher.init
      [.addWorker, .schedule (fileHeader 0), .processJob 0 (some 0),
        .onWorkerResponse 0 (fileHeader 0), .handleResponse 0 (fileHeader 0),
        .close 0 (some [handedFile])], s.transferRequests = [[handedFile]] ∧
      s.addWorker.assignedWorker handedFile = none := by
    decide +kernel
  obtain ⟨s, hs⟩ := Option.isSome_iff_exists.mp (show (run (step .lowestLoad) Launcher.init
    [.addWorker, .schedule (fileHeader 0), .processJob 0 (some 0),
      .onWorkerResponse 0 (fileHeader 0), .handleResponse 0 (fileHeader 0),
      .close 0 (some [handedFile])]).isSome by decide +kernel)
  obtain ⟨hqueue, hnone⟩ := hall s hs
  refine ⟨s, hs, hqueue, fun h ↦ ?_, hnone⟩
  rw [h.assignedWorker] at hnone
  cases hnone

end Slsfs.Proxy

import Slsfs.Proxy.Launcher

/-!
# The set of workers

`worker_set_` is what the launch policies count. A worker enters it when it registers. It leaves it
in `on_worker_close`, which `worker::close` signals only if it is given a cache table, that is, when
the worker deregisters. A worker whose socket fails is closed without one and stays in the set: it
is not given jobs any more, and the policies take it for a worker that is there.

A `Registry` is what of the launcher matters here. `registry_step` says that the launcher moves it
as registering and closing do, and that nothing else touches it.
-/

namespace Slsfs.Proxy

open LeveldbPack Launcher

/-! ## The launch policy

What a policy starts is the ideal number less the workers in the set and those that are being
started, as long as not too many are. The two notifications only ask whether the set is empty. -/

/-- `policy::worker_launch`. -/
structure WorkerLaunch where
  maxOutstandingStartingRequest : ℤ
  startingWorkerCount : ℤ
  starter : ℤ

namespace WorkerLaunch

def defaultPoolValue : ℤ := 1

def getIdealWorkerCount (p : WorkerLaunch) : ℤ := p.starter

/-- How many workers are to be started. -/
def getIdealWorkerCountDelta (p : WorkerLaunch) (ws : List ℕ) : ℤ :=
  let shouldStart := max (p.getIdealWorkerCount - (ws.length + p.startingWorkerCount)) 0
  let canStart := max (p.maxOutstandingStartingRequest - p.startingWorkerCount) 0
  min shouldStart canStart

def scheduleANewJob (p : WorkerLaunch) (ws : List ℕ) : WorkerLaunch :=
  { p with starter := if ws.isEmpty then defaultPoolValue else 0 }

def rescheduleAJob (p : WorkerLaunch) (ws : List ℕ) : WorkerLaunch :=
  { p with starter := if ws.isEmpty then defaultPoolValue else 0 }

end WorkerLaunch

/-! ## Registering and closing

A worker is closed once it has registered and is not valid any more, and it stays so. That is the
same as that a `close` of it has run. -/

/-- Which workers there are, which of them are in the set and which are open. -/
structure Registry where
  workerCount : ℕ
  workerSet : List ℕ
  valid : ℕ → Bool

namespace Registry

/-- What an event does to the registry. -/
def next (r : Registry) : Event → Registry
  | .addWorker =>
    ⟨r.workerCount + 1, r.workerSet ++ [r.workerCount],
      Function.update r.valid r.workerCount true⟩
  | .close w toTransfer =>
    ⟨r.workerCount, if toTransfer.isSome then r.workerSet.filter (· ≠ w) else r.workerSet,
      Function.update r.valid w false⟩
  | _ => r

end Registry

def Launcher.registry (s : Launcher) : Registry :=
  ⟨s.workerCount, s.workerSet, fun w ↦ (s.workers w).valid⟩

section

variable {policy : Policy} {s s' : Launcher} {e : Event}

private theorem registry_setWorker (s : Launcher) (w : ℕ) (worker : Worker) :
    (s.setWorker w worker).registry
      = { s.registry with valid := Function.update s.registry.valid w worker.valid } := by
  have hvalid : (fun v ↦ ((s.setWorker w worker).workers v).valid)
      = Function.update (fun v ↦ (s.workers v).valid) w worker.valid := by
    funext v
    by_cases hv : v = w
    · subst hv
      rw [setWorker_workers_self, Function.update_self]
    · rw [setWorker_workers_of_ne _ _ hv, Function.update_of_ne hv]
  rw [Launcher.registry, Launcher.registry, hvalid]
  rfl

private theorem registry_setWorker_of_valid (s : Launcher) {w : ℕ} {worker : Worker}
    (h : worker.valid = (s.workers w).valid) : (s.setWorker w worker).registry = s.registry := by
  rw [registry_setWorker, h]
  exact congrArg (fun valid ↦ { s.registry with valid := valid })
    (Function.update_eq_self w s.registry.valid)

/-- **The launcher moves its registry as registering and closing do.** -/
theorem registry_step (h : step policy s e = some s') : s'.registry = s.registry.next e := by
  cases e with
  | schedule header => cases h; rfl
  | processJob job pick =>
    obtain ⟨header, -, -, ⟨-, rfl⟩ | ⟨w, m, -, -, rfl⟩⟩ := step_processJob h
    · rfl
    · exact registry_setWorker_of_valid _ rfl
  | processJobWithWorker header pick =>
    obtain ⟨m, rfl⟩ := step_processJobWithWorker h
    rfl
  | onWorkerResponse w header =>
    obtain ⟨-, rfl⟩ := step_onWorkerResponse h
    rfl
  | handleResponse w header =>
    obtain ⟨-, rfl⟩ := step_handleResponse h
    rw [Launcher.handleResponse]
    split
    · rfl
    · exact registry_setWorker_of_valid { s with responses := s.responses.erase (w, header) } rfl
  | close w toTransfer =>
    obtain ⟨-, rfl⟩ := step_close h
    obtain ⟨hworkers, hcount, hset⟩ := close_workers s w toTransfer
    have hvalid : (fun v ↦ ((s.close w toTransfer).workers v).valid)
        = Function.update (fun v ↦ (s.workers v).valid) w false := by
      rw [hworkers]
      funext v
      by_cases hv : v = w
      · subst hv
        rw [Function.update_self, Function.update_self]
      · rw [Function.update_of_ne hv, Function.update_of_ne hv]
    rw [Launcher.registry, hcount, hset, hvalid]
    rfl
  | addWorker =>
    obtain ⟨m, rest, rfl⟩ := step_addWorker h
    have hreg := registry_setWorker s s.workerCount ⟨true, ∅⟩
    rw [Launcher.registry, Registry.mk.injEq] at hreg
    rw [Launcher.registry, hreg.2.2]
    rfl

/-- The worker has registered and `close` has run for it. -/
def Launcher.Closed (s : Launcher) (w : ℕ) : Prop :=
  w < s.registry.workerCount ∧ s.registry.valid w = false

private theorem closed_step_iff (h : step policy s e = some s') (w : ℕ) :
    s'.Closed w ↔ s.Closed w ∨ ∃ toTransfer, e = .close w toTransfer := by
  rw [Launcher.Closed, registry_step h]
  cases e with
  | addWorker =>
    simp only [Registry.next, Launcher.Closed, reduceCtorEq, exists_false, or_false]
    by_cases hw : w = s.registry.workerCount
    · subst hw
      simp
    · rw [Function.update_of_ne hw]
      constructor
      · exact fun ⟨hlt, hvalid⟩ ↦ ⟨by omega, hvalid⟩
      · exact fun ⟨hlt, hvalid⟩ ↦ ⟨by omega, hvalid⟩
  | close v toTransfer =>
    have hlt : v < s.registry.workerCount := (step_close h).1
    simp only [Registry.next, Launcher.Closed, Event.close.injEq]
    by_cases hw : w = v
    · subst hw
      simp [hlt]
    · rw [Function.update_of_ne hw]
      simp [Ne.symm hw]
  | schedule | processJob | processJobWithWorker | onWorkerResponse | handleResponse =>
    simp [Registry.next, Launcher.Closed]

private theorem closed_iff {es : List Event} {t : Launcher} (hrun : run (step policy) s es = some t)
    (w : ℕ) : t.Closed w ↔ s.Closed w ∨ ∃ toTransfer, .close w toTransfer ∈ es := by
  induction es generalizing s with
  | nil =>
    rw [run_nil, Option.some_inj] at hrun
    subst hrun
    simp
  | cons e es ih =>
    obtain ⟨u, hu, hrest⟩ := run_cons_eq_some.mp hrun
    rw [ih hrest, closed_step_iff hu w, or_assoc]
    refine or_congr_right ⟨?_, ?_⟩
    · rintro (⟨toTransfer, rfl⟩ | ⟨toTransfer, hmem⟩)
      · exact ⟨toTransfer, List.mem_cons_self⟩
      · exact ⟨toTransfer, List.mem_cons_of_mem _ hmem⟩
    · rintro ⟨toTransfer, hmem⟩
      rcases List.mem_cons.mp hmem with rfl | hmem
      · exact .inl ⟨toTransfer, rfl⟩
      · exact .inr ⟨toTransfer, hmem⟩

/-! ## Who leaves the set

`Counted` says that no worker that was closed is in the set, and that the policies therefore decide
as they would over the workers that are open. A worker leaves the set when it is closed with a
table, and at no other time. -/

/-- Workers are numbered as they register. -/
structure Launcher.Numbered (s : Launcher) : Prop where
  valid_lt : ∀ w, s.registry.valid w = true → w < s.registry.workerCount
  set_lt : ∀ w ∈ s.registry.workerSet, w < s.registry.workerCount

theorem numbered_init : Numbered Launcher.init where
  valid_lt _ h := by cases h
  set_lt _ h := by cases h

theorem numbered_step (h : step policy s e = some s') (hs : s.Numbered) : s'.Numbered := by
  have hreg := registry_step h
  cases e with
  | addWorker =>
    constructor
    · intro w hw
      rw [hreg] at hw ⊢
      by_cases heq : w = s.registry.workerCount
      · exact heq ▸ Nat.lt_succ_self _
      · simp only [Registry.next, Function.update_of_ne heq] at hw
        exact Nat.lt_succ_of_lt (hs.valid_lt w hw)
    · intro w hw
      rw [hreg] at hw ⊢
      rcases List.mem_append.mp hw with hold | hnew
      · exact Nat.lt_succ_of_lt (hs.set_lt w hold)
      · rw [List.mem_singleton.mp hnew]
        exact Nat.lt_succ_self _
  | close v toTransfer =>
    constructor
    · intro w hw
      rw [hreg] at hw ⊢
      by_cases heq : w = v
      · simp only [heq, Registry.next, Function.update_self, Bool.false_eq_true] at hw
      · simp only [Registry.next, Function.update_of_ne heq] at hw
        exact hs.valid_lt w hw
    · intro w hw
      rw [hreg] at hw ⊢
      rw [Registry.next] at hw
      dsimp only at hw
      split at hw
      · exact hs.set_lt w (List.mem_filter.mp hw).1
      · exact hs.set_lt w hw
  | schedule | processJob | processJobWithWorker | onWorkerResponse | handleResponse =>
    exact ⟨by rw [hreg]; exact hs.valid_lt, by rw [hreg]; exact hs.set_lt⟩

/-- No closed worker is in the set. -/
def ClosedLeft (s : Launcher) : Prop := ∀ w, s.Closed w → w ∉ s.registry.workerSet

/-- A worker that is closed without a table is not in the set any more. -/
def Deregistered (s : Launcher) : Event → Prop
  | .close w none => w ∉ s.workerSet
  | _ => True

private theorem closedLeft_step (hdereg : Deregistered s e) (h : step policy s e = some s')
    (hs : ClosedLeft s) : ClosedLeft s' := by
  intro w hclosed
  rw [closed_step_iff h] at hclosed
  rw [registry_step h]
  cases e with
  | addWorker =>
    rcases hclosed with hclosed | ⟨toTransfer, hclose⟩
    · intro hmem
      rcases List.mem_append.mp hmem with hold | hnew
      · exact hs w hclosed hold
      · exact absurd hclosed.1 (by rw [List.mem_singleton.mp hnew]; exact lt_irrefl _)
    · cases hclose
  | close v toTransfer =>
    cases toTransfer with
    | none =>
      rcases hclosed with hclosed | ⟨toTransfer, hclose⟩
      · exact hs w hclosed
      · cases hclose
        exact hdereg
    | some bindings =>
      intro hmem
      obtain ⟨hold, hne⟩ := List.mem_filter.mp hmem
      rcases hclosed with hclosed | ⟨toTransfer, hclose⟩
      · exact hs w hclosed hold
      · cases hclose
        simp at hne
  | schedule | processJob | processJobWithWorker | onWorkerResponse | handleResponse =>
    rcases hclosed with hclosed | ⟨toTransfer, hclose⟩
    · exact hs w hclosed
    · cases hclose

private theorem deregistered_of_closedLeft (h : step policy s e = some s') (hs' : ClosedLeft s') :
    Deregistered s e := by
  cases e with
  | close w toTransfer =>
    cases toTransfer with
    | none =>
      have hleft := hs' w ((closed_step_iff h w).mpr (.inr ⟨none, rfl⟩))
      rw [registry_step h] at hleft
      exact hleft
    | some bindings => trivial
  | addWorker | schedule | processJob | processJobWithWorker | onWorkerResponse
  | handleResponse => trivial

end

/-- The workers of the set that can take jobs. -/
def Launcher.openWorkers (s : Launcher) : List ℕ := s.workerSet.filter fun w ↦ (s.workers w).valid

/-- What the policies need of the set after the events of a run: the workers closed in it have left
the set, and counting the set is counting the workers that can take jobs. -/
structure Counted (es : List Event) (s : Launcher) : Prop where
  left : ∀ w toTransfer, .close w toTransfer ∈ es → w ∉ s.workerSet
  delta : ∀ p : WorkerLaunch,
    p.getIdealWorkerCountDelta s.workerSet = p.getIdealWorkerCountDelta s.openWorkers
  schedule : ∀ p : WorkerLaunch, p.scheduleANewJob s.workerSet = p.scheduleANewJob s.openWorkers
  reschedule : ∀ p : WorkerLaunch, p.rescheduleAJob s.workerSet = p.rescheduleAJob s.openWorkers

private theorem counted_iff {policy : Policy} {es : List Event} {s : Launcher}
    (hrun : run (step policy) Launcher.init es = some s) : Counted es s ↔ ClosedLeft s := by
  have hclosed : ∀ w, s.Closed w ↔ ∃ toTransfer, .close w toTransfer ∈ es := by
    intro w
    rw [closed_iff hrun]
    exact or_iff_right fun h ↦ absurd h.1 (Nat.not_lt_zero w)
  have hnum : s.Numbered :=
    invariant_run_of_step (fun _ _ _ h hs ↦ numbered_step h hs) hrun numbered_init
  constructor
  · intro h w hw
    obtain ⟨toTransfer, hmem⟩ := (hclosed w).mp hw
    exact h.left w toTransfer hmem
  · intro h
    have hopen : s.openWorkers = s.workerSet := by
      refine List.filter_eq_self.mpr fun w hw ↦ ?_
      by_contra hvalid
      exact h w ⟨hnum.set_lt w hw, Bool.eq_false_of_not_eq_true hvalid⟩ hw
    exact ⟨fun w toTransfer hmem ↦ h w ((hclosed w).mpr ⟨toTransfer, hmem⟩),
      fun _ ↦ by rw [hopen], fun _ ↦ by rw [hopen], fun _ ↦ by rw [hopen]⟩

/-- **Closed workers leave the set exactly if they deregister.** In every run, all states reached
are counted right if and only if no worker that is in the set is ever closed without a table. -/
theorem counted_iff_deregistered {policy : Policy} {es : List Event} {s : Launcher}
    (hrun : run (step policy) Launcher.init es = some s) :
    (∀ fs gs t, es = fs ++ gs → run (step policy) Launcher.init fs = some t → Counted fs t) ↔
      Meets (step policy) Deregistered Launcher.init es := by
  have hiff : Always (step policy) ClosedLeft Launcher.init es ↔
      Meets (step policy) Deregistered Launcher.init es :=
    always_iff_meets (I := ClosedLeft) (fun s e s' hC h hs ↦ closedLeft_step hC h hs)
      (fun _ hs ↦ hs) (fun s e s' _ h hs' ↦ deregistered_of_closedLeft h hs') hrun
      fun w hw ↦ absurd hw.1 (Nat.not_lt_zero w)
  rw [← hiff, always_iff_forall_split hrun]
  exact forall₃_congr fun fs gs t ↦ forall₂_congr fun _ hfs ↦ counted_iff hfs

/-- A worker deregisters and another one registers: the run meets the condition. -/
theorem counted_after_deregistration :
    ∃ s, run (step .lowestLoad) Launcher.init [.addWorker, .close 0 (some []), .addWorker]
        = some s ∧
      Counted [.addWorker, .close 0 (some []), .addWorker] s := by
  have hrun : ∃ s, run (step .lowestLoad) Launcher.init
      [.addWorker, .close 0 (some []), .addWorker] = some s := ⟨_, rfl⟩
  obtain ⟨s, hs⟩ := hrun
  have hall := (counted_iff_deregistered hs).mpr
    ⟨trivial, fun _ _ ↦ ⟨trivial, fun _ _ ↦ ⟨trivial, fun _ _ ↦ trivial⟩⟩⟩
  exact ⟨s, hs, hall _ [] s (List.append_nil _).symm hs⟩

/-- **A worker that fails stays.** The read of its next header fails and it is closed, but it is
still in the set. -/
theorem failed_worker_counted :
    ¬∀ (policy : Policy) (es : List Event) (s : Launcher),
      run (step policy) Launcher.init es = some s → Counted es s := by
  intro h
  have hleft := (h .lowestLoad [.addWorker, .close 0 none] _ rfl).left 0 none (by decide)
  exact absurd hleft (by decide)

end Slsfs.Proxy

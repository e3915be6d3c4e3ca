import Slsfs.LeveldbPack
import Slsfs.Lib.EmplaceMap
import Slsfs.Lib.Run

/-!
# Draining a file before it moves

`active_lowest_load` takes the busiest file of the busiest worker away from it when a worker is
started: jobs of a file that is in `transfering_` are assigned no worker, and when the last of those
that are under way finishes, `finished_a_job` unbinds the file. It knows the last one by a counter
for each worker and file. The same counter measures the load of the last second, and `execute`,
which runs every second and with every `start_transfer`, sets it to zero while jobs are under way.
Besides, the job that makes the entry of a worker is not counted for its file.

The events are the notifications of the policy, and the launcher binding a file. For each worker and
file the state also has what the result about it needs: how many jobs are under way, and how many
have been counted since the last tick, less those that have finished since.
-/

namespace Slsfs.Proxy.ActiveLoad

open LeveldbPack

/-- `std::atomic<int>` after an addition. -/
def wrapInt (n : ℤ) : ℤ := Int.bmod n (2 ^ 32)

/-- `counter`. -/
structure Counter where
  totalCounter : ℤ
  fileCounter : FiniteMap Key ℤ

structure State where
  fileidToWorker : FiniteMap Key ℕ
  mostCountFile : Key
  workerFileMap : FiniteMap ℕ Counter
  transfering : FiniteMap Key ℤ
  /-- The jobs of a file on a worker that have started and not finished. -/
  outstanding : ℕ → Key → ℕ
  /-- Jobs started on a worker that had an entry, since the last tick, less the jobs finished. -/
  counted : ℕ → Key → ℤ
  /-- Of each finished job: whether the file was unbound, and whether it was the last one. -/
  finished : List (Bool × Bool)

inductive Event where
  /-- The launcher binds a file to a worker. -/
  | bind (file : Key) (worker : ℕ)
  | startedANewJob (worker : ℕ) (file : Key)
  | finishedAJob (worker : ℕ) (file : Key)
  | execute
  | startTransfer
  deriving DecidableEq

namespace State

/-- The value of `most_count_file_` to begin with is whatever is there. -/
def init (mostCountFile : Key) : State :=
  ⟨∅, mostCountFile, ∅, ∅, fun _ _ ↦ 0, fun _ _ ↦ 0, []⟩

/-- The counter of a file on a worker. -/
def counter (s : State) (w : ℕ) (file : Key) : Option ℤ :=
  (s.workerFileMap.lookup w).bind fun info ↦ info.fileCounter.lookup file

/-- The busiest file of a worker, over `most_count_file_` and `worker_top`. -/
def busiestFile (files : FiniteMap Key ℤ) (mostCountFile : Key) : Key :=
  (files.entries.foldl (fun best e ↦ if best.2 < e.2 then (e.1, e.2) else best)
    (mostCountFile, -1)).1

/-- The first part of `execute`, over `most_count_file_` and `top`. -/
def busiest (s : State) : Key :=
  (s.workerFileMap.entries.foldl (fun best e ↦
    if best.2 < e.2.totalCounter ∧ 1 < e.2.fileCounter.entries.length then
      (busiestFile e.2.fileCounter best.1, e.2.totalCounter)
    else best) (s.mostCountFile, -1)).1

/-- `execute`: the busiest file of the busiest worker that has more than one, and all counters to
zero. -/
def execute (s : State) : State :=
  { s with
    mostCountFile := s.busiest
    workerFileMap := s.workerFileMap.mapValues fun info ↦
      ⟨0, info.fileCounter.mapValues fun _ ↦ 0⟩
    counted := fun _ _ ↦ 0 }

def startTransfer (s : State) : State :=
  execute { s with transfering := s.transfering.emplace s.mostCountFile 0 }

/-- One more of a function of a worker and a file. -/
def adjust {α : Type} [Add α] (f : ℕ → Key → α) (w : ℕ) (file : Key) (n : α) : ℕ → Key → α :=
  Function.update f w (Function.update (f w) file (f w file + n))

def startedANewJob (s : State) (w : ℕ) (file : Key) : State :=
  match s.workerFileMap.lookup w with
  | some info =>
    let count : ℤ := match info.fileCounter.lookup file with
      | some c => wrapInt (c + 1)
      | none => 1
    { s with
      workerFileMap := s.workerFileMap.insert w
        ⟨wrapInt (info.totalCounter + 1), info.fileCounter.insert file count⟩
      outstanding := adjust s.outstanding w file 1
      counted := adjust s.counted w file 1 }
  | none =>
    -- the counter of the worker starts at one, its file has none
    { s with
      workerFileMap := s.workerFileMap.emplace w ⟨1, ∅⟩
      outstanding := adjust s.outstanding w file 1 }

/-- Whether `finished_a_job` unbinds the file. -/
def drains (s : State) (w : ℕ) (file : Key) : Bool :=
  (s.counter w file).any fun c ↦ wrapInt (c - 1) == 0

def finishedAJob (s : State) (w : ℕ) (file : Key) : State :=
  { s with
    workerFileMap := match s.workerFileMap.lookup w with
      | none => s.workerFileMap
      | some info => match info.fileCounter.lookup file with
        | none => s.workerFileMap
        | some c => s.workerFileMap.insert w
          ⟨info.totalCounter, info.fileCounter.insert file (wrapInt (c - 1))⟩
    transfering := if s.drains w file then s.transfering.erase file else s.transfering
    fileidToWorker := if s.drains w file then s.fileidToWorker.erase file else s.fileidToWorker
    outstanding := Function.update s.outstanding w
      (Function.update (s.outstanding w) file (s.outstanding w file - 1))
    counted := adjust s.counted w file (-1)
    finished := s.finished ++ [(s.drains w file, decide (s.outstanding w file = 1))] }

end State

/-- One event. A job that finishes has started. -/
def step (s : State) : Event → Option State
  | .bind file w => some { s with fileidToWorker := s.fileidToWorker.emplace file w }
  | .startedANewJob w file => some (s.startedANewJob w file)
  | .finishedAJob w file =>
    if s.outstanding w file = 0 then none else some (s.finishedAJob w file)
  | .execute => some s.execute
  | .startTransfer => some s.startTransfer

/-- Files were unbound by their last jobs and by no others, and no counter is negative. -/
structure Drained (s : State) : Prop where
  last : ∀ r ∈ s.finished, r.1 = r.2
  nonneg : ∀ w file c, s.counter w file = some c → 0 ≤ c

/-- **The condition.** When a job finishes, either all jobs of the file that are under way on the
worker are counted, or at least two are. And fewer than `2 ^ 31` jobs are counted. -/
def Counts (s : State) : Event → Prop
  | .finishedAJob w file => s.counted w file = s.outstanding w file ∨ 2 ≤ s.counted w file
  | .startedANewJob w file =>
    (s.workerFileMap.lookup w).isSome = true → s.counted w file + 1 < 2 ^ 31
  | _ => True

instance decidableCounts (s : State) : ∀ e, Decidable (Counts s e)
  | .finishedAJob w file =>
    inferInstanceAs (Decidable (s.counted w file = s.outstanding w file ∨ 2 ≤ s.counted w file))
  | .startedANewJob w file => inferInstanceAs (Decidable
    ((s.workerFileMap.lookup w).isSome = true → s.counted w file + 1 < 2 ^ 31))
  | .bind _ _ | .execute | .startTransfer => .isTrue trivial

/-! ## The counters after a step

One event changes the counter of one worker and one file, by one, or all of them to zero. The entry
of a worker that is new to the policy has no counter for the file of the job that made it. -/

section Counters

variable (s : State) (w : ℕ) (file : Key)

@[simp] theorem adjust_self {α : Type} [Add α] (f : ℕ → Key → α) (n : α) :
    State.adjust f w file n w file = f w file + n := by
  simp [State.adjust]

private theorem adjust_of_ne {α : Type} [Add α] (f : ℕ → Key → α) (n : α) {v : ℕ} {other : Key}
    (h : ¬(v = w ∧ other = file)) : State.adjust f w file n v other = f v other := by
  by_cases hv : v = w
  · subst hv
    rw [State.adjust, Function.update_self, Function.update_of_ne fun hfile ↦ h ⟨rfl, hfile⟩]
  · rw [State.adjust, Function.update_of_ne hv]

private theorem counter_of_insert {info : Counter} (hw : s.workerFileMap.lookup w = some info)
    (total c : ℤ) {t : State} (ht : t.workerFileMap
      = s.workerFileMap.insert w ⟨total, info.fileCounter.insert file c⟩) (v : ℕ) (other : Key) :
    t.counter v other = if v = w ∧ other = file then some c else s.counter v other := by
  rw [State.counter, ht]
  by_cases hv : v = w
  · subst hv
    rw [AList.lookup_insert, Option.bind_some]
    by_cases hfile : other = file
    · rw [if_pos ⟨rfl, hfile⟩, hfile, AList.lookup_insert]
    · rw [if_neg fun h ↦ hfile h.2, AList.lookup_insert_ne hfile, State.counter, hw,
        Option.bind_some]
  · rw [AList.lookup_insert_ne hv, if_neg fun h ↦ hv h.1, State.counter]

private theorem counter_startedANewJob_of_none (hw : s.workerFileMap.lookup w = none) (v : ℕ)
    (other : Key) : (s.startedANewJob w file).counter v other = s.counter v other := by
  rw [State.startedANewJob, hw]
  by_cases hv : v = w
  · subst hv
    rw [State.counter, State.counter, FiniteMap.lookup_emplace, hw]
    rfl
  · rw [State.counter, State.counter, FiniteMap.lookup_emplace_of_ne _ _ hv]

/-- What `started_a_new_job` leaves in the counter of the file. -/
def countAfterStart (c : Option ℤ) : ℤ := (c.map fun c ↦ wrapInt (c + 1)).getD 1

private theorem counter_startedANewJob {info : Counter} (hw : s.workerFileMap.lookup w = some info)
    (v : ℕ) (other : Key) : (s.startedANewJob w file).counter v other
      = if v = w ∧ other = file then some (countAfterStart (s.counter w file))
        else s.counter v other := by
  have hcounter : s.counter w file = info.fileCounter.lookup file := by
    rw [State.counter, hw, Option.bind_some]
  rw [hcounter]
  have hcount : countAfterStart (info.fileCounter.lookup file)
      = match info.fileCounter.lookup file with
        | some c => wrapInt (c + 1)
        | none => 1 := by
    cases info.fileCounter.lookup file with
    | none => rfl
    | some c => rfl
  rw [hcount]
  refine counter_of_insert s w file hw (wrapInt (info.totalCounter + 1)) _ ?_ v other
  rw [State.startedANewJob, hw]

private theorem counter_finishedAJob (v : ℕ) (other : Key) : (s.finishedAJob w file).counter v other
    = if v = w ∧ other = file then (s.counter w file).map fun c ↦ wrapInt (c - 1)
      else s.counter v other := by
  have hnone : s.counter w file = none → s.counter v other
      = if v = w ∧ other = file then (s.counter w file).map fun c ↦ wrapInt (c - 1)
        else s.counter v other := by
    intro h
    split
    · rename_i heq
      rw [heq.1, heq.2, h, Option.map_none]
    · rfl
  cases hw : s.workerFileMap.lookup w with
  | none =>
    have hc : s.counter w file = none := by rw [State.counter, hw, Option.bind_none]
    refine Eq.trans ?_ (hnone hc)
    simp only [State.counter, State.finishedAJob, hw]
  | some info =>
    cases hfile : info.fileCounter.lookup file with
    | none =>
      have hc : s.counter w file = none := by
        rw [State.counter, hw, Option.bind_some, hfile]
      refine Eq.trans ?_ (hnone hc)
      simp only [State.counter, State.finishedAJob, hw, hfile]
    | some c =>
      have hc : s.counter w file = some c := by
        rw [State.counter, hw, Option.bind_some, hfile]
      rw [hc, Option.map_some]
      refine counter_of_insert s w file hw info.totalCounter _ ?_ v other
      simp only [State.finishedAJob, hw, hfile]

private theorem counter_execute (v : ℕ) (other : Key) :
    s.execute.counter v other = (s.counter v other).map fun _ ↦ 0 := by
  rw [State.counter, State.execute, FiniteMap.lookup_mapValues, State.counter]
  cases s.workerFileMap.lookup v with
  | none => rfl
  | some info => exact FiniteMap.lookup_mapValues _ _ _

end Counters

/-! ## What the counters count

The counter of a file is the number of its jobs that have started since the last tick, less those
that have finished since, and so never more than the number of jobs under way. `finished_a_job`
takes the file for drained when that difference becomes zero. This is right if every job under way
is counted; it does no harm if at least two are counted, since then the counter does not reach zero.
In every other case at most one job is counted and more are under way: the file is unbound too
early, or not at all, or the counter becomes negative. -/

/-- As long as the condition is met, a counter says how many of the jobs under way are counted, and
a file without one has at most the job that made the entry of the worker. -/
structure Inv (s : State) : Prop where
  counter : ∀ w file c, s.counter w file = some c → c = s.counted w file ∧ 0 ≤ c ∧ c < 2 ^ 31
  absent : ∀ w file, s.counter w file = none → s.counted w file = 0 ∧ s.outstanding w file ≤ 1
  le : ∀ w file, s.counted w file ≤ s.outstanding w file
  unknown : ∀ w, s.workerFileMap.lookup w = none → ∀ file, s.outstanding w file = 0
  last : ∀ r ∈ s.finished, r.1 = r.2

private theorem wrapInt_eq {n : ℤ} (hlo : -2 ^ 31 ≤ n) (hhi : n < 2 ^ 31) : wrapInt n = n := by
  unfold wrapInt
  exact Int.bmod_eq_of_le (by omega) (by omega)

private theorem wrapInt_overflow : wrapInt (2 ^ 31) = -2 ^ 31 := by decide

theorem inv_init (mostCountFile : Key) : Inv (State.init mostCountFile) where
  counter := fun w file c h ↦ by cases h
  absent := fun w file _ ↦ ⟨rfl, Nat.zero_le 1⟩
  le := fun w file ↦ Int.le_refl 0
  unknown := fun w _ file ↦ rfl
  last := fun r h ↦ absurd h List.not_mem_nil

theorem Inv.drained {s : State} (h : Inv s) : Drained s where
  last := h.last
  nonneg := fun w file c hc ↦ (h.counter w file c hc).2.1

section Steps

variable {s s' : State} {w : ℕ} {file : Key}

private theorem outstanding_start :
    (s.startedANewJob w file).outstanding = State.adjust s.outstanding w file 1 := by
  rw [State.startedANewJob]
  split
  · rfl
  · rfl

private theorem Inv.start_unknown (h : Inv s) (hw : s.workerFileMap.lookup w = none) :
    Inv (s.startedANewJob w file) := by
  have hcounted : (s.startedANewJob w file).counted = s.counted := by
    rw [State.startedANewJob, hw]
  have hmap : (s.startedANewJob w file).workerFileMap = s.workerFileMap.emplace w ⟨1, ∅⟩ := by
    rw [State.startedANewJob, hw]
  have hfinished : (s.startedANewJob w file).finished = s.finished := by
    rw [State.startedANewJob, hw]
  have hzero := h.unknown w hw
  refine ⟨fun v other c hc ↦ ?_, fun v other hc ↦ ?_, fun v other ↦ ?_, fun v hv other ↦ ?_, ?_⟩
  · rw [counter_startedANewJob_of_none s w file hw] at hc
    rw [hcounted]
    exact h.counter v other c hc
  · rw [counter_startedANewJob_of_none s w file hw] at hc
    obtain ⟨hcount, hle⟩ := h.absent v other hc
    rw [hcounted, outstanding_start]
    refine ⟨hcount, ?_⟩
    by_cases heq : v = w ∧ other = file
    · rw [heq.1, heq.2, adjust_self, hzero]
    · rwa [adjust_of_ne _ _ _ _ heq]
  · rw [hcounted, outstanding_start]
    by_cases heq : v = w ∧ other = file
    · have hle := h.le w file
      rw [heq.1, heq.2, adjust_self]
      omega
    · rw [adjust_of_ne _ _ _ _ heq]
      exact h.le v other
  · rw [hmap] at hv
    by_cases heq : v = w
    · rw [heq, FiniteMap.lookup_emplace] at hv
      cases hv
    · rw [FiniteMap.lookup_emplace_of_ne _ _ heq] at hv
      rw [outstanding_start, adjust_of_ne _ _ _ _ fun hboth ↦ heq hboth.1]
      exact h.unknown v hv other
  · rw [hfinished]
    exact h.last

private theorem Inv.start_known (h : Inv s) {info : Counter}
    (hw : s.workerFileMap.lookup w = some info)
    (hlt : s.counted w file + 1 < 2 ^ 31) : Inv (s.startedANewJob w file) := by
  have hcounted : (s.startedANewJob w file).counted = State.adjust s.counted w file 1 := by
    rw [State.startedANewJob, hw]
  have hfinished : (s.startedANewJob w file).finished = s.finished := by
    rw [State.startedANewJob, hw]
  have hcount : countAfterStart (s.counter w file) = s.counted w file + 1 ∧
      0 ≤ s.counted w file := by
    cases hc : s.counter w file with
    | none =>
      obtain ⟨hzero, -⟩ := h.absent w file hc
      rw [hzero]
      exact ⟨rfl, Int.le_refl 0⟩
    | some c =>
      obtain ⟨rfl, hnonneg, -⟩ := h.counter w file c hc
      exact ⟨wrapInt_eq (by omega) hlt, hnonneg⟩
  refine ⟨fun v other c hc ↦ ?_, fun v other hc ↦ ?_, fun v other ↦ ?_, fun v hv other ↦ ?_, ?_⟩
  · rw [counter_startedANewJob s w file hw] at hc
    rw [hcounted]
    by_cases heq : v = w ∧ other = file
    · rw [if_pos heq, Option.some_inj, hcount.1] at hc
      rw [heq.1, heq.2, adjust_self, ← hc]
      omega
    · rw [if_neg heq] at hc
      rw [adjust_of_ne _ _ _ _ heq]
      exact h.counter v other c hc
  · rw [counter_startedANewJob s w file hw] at hc
    by_cases heq : v = w ∧ other = file
    · rw [if_pos heq] at hc
      cases hc
    · rw [if_neg heq] at hc
      rw [hcounted, outstanding_start, adjust_of_ne _ _ _ _ heq, adjust_of_ne _ _ _ _ heq]
      exact h.absent v other hc
  · rw [hcounted, outstanding_start]
    by_cases heq : v = w ∧ other = file
    · have hle := h.le w file
      rw [heq.1, heq.2, adjust_self, adjust_self]
      omega
    · rw [adjust_of_ne _ _ _ _ heq, adjust_of_ne _ _ _ _ heq]
      exact h.le v other
  · rw [State.startedANewJob, hw] at hv
    dsimp only at hv
    have heq : v ≠ w := by
      rintro rfl
      rw [AList.lookup_insert] at hv
      cases hv
    rw [AList.lookup_insert_ne heq] at hv
    rw [outstanding_start, adjust_of_ne _ _ _ _ fun hboth ↦ heq hboth.1]
    exact h.unknown v hv other
  · rw [hfinished]
    exact h.last

private theorem Inv.drains_iff (h : Inv s) : s.drains w file = true ↔ s.counted w file = 1 := by
  rw [State.drains]
  cases hc : s.counter w file with
  | none =>
    obtain ⟨hzero, -⟩ := h.absent w file hc
    rw [hzero]
    simp
  | some c =>
    obtain ⟨rfl, hnonneg, hlt⟩ := h.counter w file c hc
    rw [Option.any_some, beq_iff_eq, wrapInt_eq (by omega) (by omega)]
    omega

private theorem lookup_finishedAJob_eq_none {v : ℕ}
    (hv : (s.finishedAJob w file).workerFileMap.lookup v = none) :
    s.workerFileMap.lookup v = none := by
  simp only [State.finishedAJob] at hv
  split at hv
  · exact hv
  · split at hv
    · exact hv
    · rename_i info hw _ c _
      by_cases heq : v = w
      · rw [heq, AList.lookup_insert] at hv
        cases hv
      · rwa [AList.lookup_insert_ne heq] at hv

private theorem outstanding_finish (v : ℕ) (other : Key) :
    (s.finishedAJob w file).outstanding v other
    = if v = w ∧ other = file then s.outstanding w file - 1 else s.outstanding v other := by
  simp only [State.finishedAJob]
  by_cases hv : v = w
  · subst hv
    rw [Function.update_self]
    by_cases hfile : other = file
    · rw [if_pos ⟨rfl, hfile⟩, hfile, Function.update_self]
    · rw [if_neg fun h ↦ hfile h.2, Function.update_of_ne hfile]
  · rw [Function.update_of_ne hv, if_neg fun h ↦ hv h.1]

theorem Inv.finish (h : Inv s) (hpos : s.outstanding w file ≠ 0)
    (hcounts : s.counted w file = s.outstanding w file ∨ 2 ≤ s.counted w file) :
    Inv (s.finishedAJob w file) := by
  have hcounted : (s.finishedAJob w file).counted = State.adjust s.counted w file (-1) := rfl
  have hle := h.le w file
  obtain ⟨c, hc⟩ : ∃ c, s.counter w file = some c := by
    refine Option.ne_none_iff_exists'.mp fun hnone ↦ ?_
    obtain ⟨hzero, -⟩ := h.absent w file hnone
    omega
  obtain ⟨rfl, hnonneg, hlt⟩ := h.counter w file c hc
  have hwrap : wrapInt (s.counted w file - 1) = s.counted w file - 1 :=
    wrapInt_eq (by omega) (by omega)
  refine ⟨fun v other d hd ↦ ?_, fun v other hd ↦ ?_, fun v other ↦ ?_, fun v hv other ↦ ?_, ?_⟩
  · rw [counter_finishedAJob] at hd
    rw [hcounted]
    by_cases heq : v = w ∧ other = file
    · rw [if_pos heq, hc, Option.map_some, Option.some_inj, hwrap] at hd
      rw [heq.1, heq.2, adjust_self, ← hd]
      omega
    · rw [if_neg heq] at hd
      rw [adjust_of_ne _ _ _ _ heq]
      exact h.counter v other d hd
  · rw [counter_finishedAJob] at hd
    by_cases heq : v = w ∧ other = file
    · rw [if_pos heq, hc] at hd
      cases hd
    · rw [if_neg heq] at hd
      rw [hcounted, outstanding_finish, if_neg heq, adjust_of_ne _ _ _ _ heq]
      exact h.absent v other hd
  · rw [hcounted, outstanding_finish]
    have hother := h.le v other
    by_cases heq : v = w ∧ other = file
    · rw [if_pos heq, heq.1, heq.2, adjust_self]
      omega
    · rwa [if_neg heq, adjust_of_ne _ _ _ _ heq]
  · have hzero := h.unknown v (lookup_finishedAJob_eq_none hv) other
    rw [outstanding_finish]
    split
    · rename_i heq
      rw [heq.1, heq.2] at hzero
      omega
    · exact hzero
  · intro r hr
    rcases List.mem_append.mp hr with hr | hr
    · exact h.last r hr
    · rw [List.mem_singleton.mp hr]
      -- unbound with one counted job, last with one job under way
      rw [Bool.eq_iff_iff, h.drains_iff, decide_eq_true_iff]
      omega

theorem Inv.execute (h : Inv s) : Inv s.execute := by
  refine ⟨fun v other c hc ↦ ?_, fun v other hc ↦ ?_, fun v other ↦ ?_, fun v hv other ↦ ?_, h.last⟩
  · rw [counter_execute] at hc
    obtain ⟨-, -, rfl⟩ := Option.map_eq_some_iff.mp hc
    exact ⟨rfl, by decide, by decide⟩
  · rw [counter_execute, Option.map_eq_none_iff] at hc
    exact ⟨rfl, (h.absent v other hc).2⟩
  · exact Int.natCast_nonneg _
  · refine h.unknown v ?_ other
    rwa [State.execute, FiniteMap.lookup_mapValues, Option.map_eq_none_iff] at hv

theorem Inv.congr (h : Inv s) (hmap : s'.workerFileMap = s.workerFileMap)
    (hcounted : s'.counted = s.counted) (houtstanding : s'.outstanding = s.outstanding)
    (hfinished : s'.finished = s.finished) : Inv s' := by
  have hcounter : s'.counter = s.counter := by
    funext v other
    rw [State.counter, hmap, State.counter]
  refine ⟨?_, ?_, ?_, ?_, ?_⟩
  · rw [hcounter, hcounted]
    exact h.counter
  · rw [hcounter, hcounted, houtstanding]
    exact h.absent
  · rw [hcounted, houtstanding]
    exact h.le
  · rw [hmap, houtstanding]
    exact h.unknown
  · rw [hfinished]
    exact h.last

theorem Inv.step {e : Event} (h : Inv s) (hcounts : Counts s e) (hs : step s e = some s') :
    Inv s' := by
  cases e with
  | bind file w =>
    cases hs
    exact h.congr rfl rfl rfl rfl
  | startedANewJob w file =>
    cases hs
    cases hw : s.workerFileMap.lookup w with
    | none => exact h.start_unknown hw
    | some info => exact h.start_known hw (hcounts (by rw [hw]; rfl))
  | finishedAJob w file =>
    rw [ActiveLoad.step] at hs
    split at hs
    · cases hs
    · rename_i hpos
      cases hs
      exact h.finish hpos hcounts
  | execute =>
    cases hs
    exact h.execute
  | startTransfer =>
    cases hs
    exact Inv.execute (h.congr rfl rfl rfl rfl)

/-- A step that breaks the condition unbinds a file too early or too late, or leaves a negative
counter. -/
theorem Inv.counts_of_drained {e : Event} (h : Inv s) (hs : ActiveLoad.step s e = some s')
    (hdrained : Drained s') : Counts s e := by
  cases e with
  | bind file w => trivial
  | execute => trivial
  | startTransfer => trivial
  | startedANewJob w file =>
    cases hs
    intro hknown
    by_contra hbig
    obtain ⟨info, hw⟩ := Option.isSome_iff_exists.mp hknown
    obtain ⟨c, hc⟩ : ∃ c, s.counter w file = some c := by
      refine Option.ne_none_iff_exists'.mp fun hnone ↦ ?_
      obtain ⟨hzero, -⟩ := h.absent w file hnone
      omega
    obtain ⟨rfl, hnonneg, hlt⟩ := h.counter w file c hc
    have hmax : s.counted w file + 1 = 2 ^ 31 := by omega
    have hneg := hdrained.nonneg w file (countAfterStart (s.counter w file)) (by
      rw [counter_startedANewJob s w file hw, if_pos ⟨rfl, rfl⟩])
    rw [hc] at hneg
    change 0 ≤ wrapInt (s.counted w file + 1) at hneg
    rw [hmax, wrapInt_overflow] at hneg
    exact absurd hneg (by decide)
  | finishedAJob w file =>
    rw [ActiveLoad.step] at hs
    split at hs
    · cases hs
    · rename_i hpos
      cases hs
      have hlog : s.drains w file = decide (s.outstanding w file = 1) :=
        hdrained.last _ (List.mem_append_right _ (List.mem_singleton.mpr rfl))
      rw [Bool.eq_iff_iff, h.drains_iff, decide_eq_true_iff] at hlog
      have hle := h.le w file
      by_contra hnot
      obtain ⟨hne, htwo⟩ := not_or.mp hnot
      cases hc : s.counter w file with
      | none =>
        obtain ⟨hzero, hone⟩ := h.absent w file hc
        omega
      | some c =>
        obtain ⟨rfl, hnonneg, hlt⟩ := h.counter w file c hc
        have hneg := hdrained.nonneg w file (wrapInt (s.counted w file - 1)) (by
          rw [counter_finishedAJob, if_pos ⟨rfl, rfl⟩, hc, Option.map_some])
        rw [wrapInt_eq (by omega) (by omega)] at hneg
        omega

end Steps

/-- **Draining before unbinding.** Along a run every file is unbound by its last job and no counter
is negative, exactly if the jobs that finish are counted. -/
theorem drained_iff_counts (mostCountFile : Key) {es : List Event} {t : State}
    (hrun : run step (State.init mostCountFile) es = some t) :
    Always step Drained (State.init mostCountFile) es
      ↔ Meets step Counts (State.init mostCountFile) es :=
  always_iff_meets (fun _ _ _ hcounts hs h ↦ h.step hcounts hs) (fun _ h ↦ h.drained)
    (fun _ _ _ h hs hdrained ↦ h.counts_of_drained hs hdrained) hrun (inv_init mostCountFile)

/-- Two files. -/
def fileA : Key := .replicate 32 1

def fileB : Key := .replicate 32 2

/-- A job of another file makes the entry of the worker and does not finish. No tick comes while
jobs of the file are under way. -/
def drainedRun : List Event :=
  [.startedANewJob 0 fileB, .bind fileA 0, .startedANewJob 0 fileA, .startedANewJob 0 fileA,
    .finishedAJob 0 fileA, .finishedAJob 0 fileA, .execute, .startTransfer, .bind fileA 0,
    .startedANewJob 0 fileA, .finishedAJob 0 fileA]

theorem drained_drainedRun : (run step (State.init fileB) drainedRun).isSome ∧
    Always step Drained (State.init fileB) drainedRun := by
  have hsome : (run step (State.init fileB) drainedRun).isSome := by decide +kernel
  obtain ⟨t, ht⟩ := Option.isSome_iff_exists.mp hsome
  exact ⟨hsome, (drained_iff_counts fileB ht).mpr (by decide +kernel)⟩

/-- **A tick between start and finish** leaves a negative counter, and **the first job of a worker**
never unbinds its file. -/
theorem tick_makes_counter_negative :
    (∃ t, run step (State.init fileB) [.startedANewJob 0 fileB, .startedANewJob 0 fileA, .execute,
        .finishedAJob 0 fileA] = some t ∧ t.counter 0 fileA = some (-1) ∧ ¬Drained t) ∧
      ∃ t, run step (State.init fileB) [.bind fileA 0, .startedANewJob 0 fileA,
        .finishedAJob 0 fileA] = some t ∧ t.fileidToWorker.lookup fileA = some 0 ∧
        t.outstanding 0 fileA = 0 ∧ ¬Drained t := by
  have htick : ∀ t ∈ run step (State.init fileB) [.startedANewJob 0 fileB,
      .startedANewJob 0 fileA, .execute, .finishedAJob 0 fileA],
      t.counter 0 fileA = some (-1) := by decide +kernel
  have hfirst : ∀ t ∈ run step (State.init fileB) [.bind fileA 0, .startedANewJob 0 fileA,
      .finishedAJob 0 fileA], t.fileidToWorker.lookup fileA = some 0 ∧
      t.outstanding 0 fileA = 0 ∧ (false, true) ∈ t.finished := by decide +kernel
  constructor
  · refine ⟨_, rfl, htick _ rfl, fun h ↦ ?_⟩
    exact absurd (h.nonneg 0 fileA (-1) (htick _ rfl)) (by decide)
  · obtain ⟨hbound, hnone, hlog⟩ := hfirst _ rfl
    refine ⟨_, rfl, hbound, hnone, fun h ↦ ?_⟩
    exact absurd (h.last _ hlog) (by decide)

end Slsfs.Proxy.ActiveLoad

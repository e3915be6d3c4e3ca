import Mathlib.Algebra.GroupWithZero.Nat
import Mathlib.Data.Int.Init
import Mathlib.Data.List.Induction
import Slsfs.Proxy.Launcher

/-!
# Choosing a worker for a new file

`get_available_worker` of the two policies. `lowest_load` goes through the set once and keeps the
open worker with the fewest pending jobs so far. `random_assign` draws workers until it has drawn an
open one; if there are only closed workers in the set it draws for ever, on the thread that
processes the job.

Closed workers stay in the set: only one that deregisters with its cache table is taken out.
-/

namespace Slsfs.Proxy

/-- `std::numeric_limits<int>::max()`. -/
def intMax : ℤ := 2 ^ 31 - 1

/-- `worker::pending_jobs`: a size, converted to `int`. -/
@[irreducible] def Worker.pendingJobs (worker : Worker) : ℤ :=
  Int.bmod worker.startedJobs.entries.length (2 ^ 32)

section

variable (workers : ℕ → Worker)

/-- A round of `lowest_load`, over `best` and `job`. -/
def lowestLoadRound (s : Option ℕ × ℤ) (w : ℕ) : Option ℕ × ℤ :=
  if (workers w).valid = true ∧ (workers w).pendingJobs < s.2 then
    (some w, (workers w).pendingJobs)
  else s

/-- `lowest_load::get_available_worker`. -/
def lowestLoad (currentWorkers : List ℕ) : Option ℕ :=
  (currentWorkers.foldl (lowestLoadRound workers) (none, intMax)).1

/-- The loop of `random_assign`, for a number of rounds at most. -/
def drawRounds (currentWorkers : List ℕ) : ℕ → (ℕ → ℕ) → Option ℕ
  | 0, _ => none
  | rounds + 1, draws =>
    (currentWorkers[draws 0]?).bind fun pick ↦
      if (workers pick).valid then some pick
      else drawRounds currentWorkers rounds fun i ↦ draws (i + 1)

/-- `random_assign::get_available_worker`, if it returns within a number of rounds. -/
def randomAssign (currentWorkers : List ℕ) (draws : ℕ → ℕ) (rounds : ℕ) : Option (Option ℕ) :=
  if currentWorkers = [] then some none
  else (drawRounds workers currentWorkers rounds draws).map some

/-- What `process_job` relies on: no worker is returned only if there is no open one, and a worker
that is returned is one of the set and open. -/
structure Selects (currentWorkers : List ℕ) (pick : Option ℕ) : Prop where
  none_iff : pick = none ↔ ∀ w ∈ currentWorkers, (workers w).valid = false
  some : ∀ w, pick = some w → w ∈ currentWorkers ∧ (workers w).valid = true

/-- The contract of the two policies. The scan of `lowest_load` ends with the set. -/
structure SelectionContract (currentWorkers : List ℕ) (draws : ℕ → ℕ) : Prop where
  lowest : Selects workers currentWorkers (lowestLoad workers currentWorkers)
  fewest : ∀ w, lowestLoad workers currentWorkers = some w → ∀ v ∈ currentWorkers,
    (workers v).valid = true → (workers w).startedJobs.entries.length
      ≤ (workers v).startedJobs.entries.length
  returns : ∃ rounds, (randomAssign workers currentWorkers draws rounds).isSome
  random : ∀ rounds pick, randomAssign workers currentWorkers draws rounds = some pick →
    Selects workers currentWorkers pick

end

variable {workers : ℕ → Worker} {currentWorkers : List ℕ} {draws : ℕ → ℕ}

/-! ## The scan

The best worker so far is kept with the number of its jobs, which starts at the largest `int`. The
invariant of the scan is that this number is the least among the open workers that have been
passed. -/

private theorem pendingJobs_eq {worker : Worker}
    (h : worker.startedJobs.entries.length + 1 < 2 ^ 31) :
    worker.pendingJobs = worker.startedJobs.entries.length := by
  unfold Worker.pendingJobs
  exact Int.bmod_eq_of_le (by omega) (by omega)

/-- What the scan has found in the workers it has seen. -/
inductive Scanned (workers : ℕ → Worker) (seen : List ℕ) : Option ℕ × ℤ → Prop
  | nothing (h : ∀ w ∈ seen, (workers w).valid = false) : Scanned workers seen (none, intMax)
  | best {w : ℕ} (hmem : w ∈ seen) (hvalid : (workers w).valid = true)
    (hfewest : ∀ v ∈ seen, (workers v).valid = true →
      (workers w).pendingJobs ≤ (workers v).pendingJobs) :
    Scanned workers seen (some w, (workers w).pendingJobs)

theorem Scanned.round {seen : List ℕ} {s : Option ℕ × ℤ} (h : Scanned workers seen s) {w : ℕ}
    (hsmall : (workers w).pendingJobs < intMax) :
    Scanned workers (seen ++ [w]) (lowestLoadRound workers s w) := by
  have hsplit : ∀ v ∈ seen ++ [w], v ∈ seen ∨ v = w := by
    intro v hv
    rwa [List.mem_append, List.mem_singleton] at hv
  have hlast : w ∈ seen ++ [w] := List.mem_append_right _ List.mem_cons_self
  rw [lowestLoadRound]
  split
  · rename_i htake
    refine .best hlast htake.1 fun v hv hvalid ↦ ?_
    rcases hsplit v hv with hv | rfl
    · cases h with
      | nothing hnone => exact absurd hvalid (by rw [hnone v hv]; exact Bool.false_ne_true)
      | best hmem _ hfewest => exact Int.le_trans (Int.le_of_lt htake.2) (hfewest v hv hvalid)
    · exact Int.le_refl _
  · rename_i hskip
    cases h with
    | nothing hnone =>
      refine .nothing fun v hv ↦ ?_
      rcases hsplit v hv with hv | rfl
      · exact hnone v hv
      · exact Bool.eq_false_iff.mpr fun hvalid ↦ hskip ⟨hvalid, hsmall⟩
    | best hmem hvalid hfewest =>
      refine .best (List.mem_append_left _ hmem) hvalid fun v hv hv' ↦ ?_
      rcases hsplit v hv with hv | rfl
      · exact hfewest v hv hv'
      · exact Int.not_lt.mp fun hlt ↦ hskip ⟨hv', hlt⟩

/-- **The scan** finds the open worker with the fewest pending jobs. -/
theorem scanned_foldl (hsmall : ∀ w ∈ currentWorkers, (workers w).pendingJobs < intMax) :
    Scanned workers currentWorkers
      (currentWorkers.foldl (lowestLoadRound workers) (none, intMax)) := by
  induction currentWorkers using List.reverseRecOn with
  | nil => exact .nothing fun w hw ↦ absurd hw List.not_mem_nil
  | append_singleton seen w ih =>
    rw [List.foldl_append]
    refine (ih fun v hv ↦ hsmall v (List.mem_append_left _ hv)).round ?_
    exact hsmall w (List.mem_append_right _ List.mem_cons_self)

section Lowest

variable (hpending : ∀ w ∈ currentWorkers,
  (workers w).startedJobs.entries.length + 1 < 2 ^ 31)

include hpending

private theorem scanned_lowestLoad : ∃ job, Scanned workers currentWorkers
    (lowestLoad workers currentWorkers, job) := by
  refine ⟨_, scanned_foldl fun w hw ↦ ?_⟩
  have hlt := hpending w hw
  rw [pendingJobs_eq hlt, intMax]
  omega

private theorem selects_lowestLoad :
    Selects workers currentWorkers (lowestLoad workers currentWorkers) := by
  obtain ⟨job, hscanned⟩ := scanned_lowestLoad hpending
  generalize lowestLoad workers currentWorkers = pick at hscanned
  cases hscanned with
  | nothing hnone => exact ⟨iff_of_true rfl hnone, fun w hw ↦ by cases hw⟩
  | best hmem hvalid _ =>
    refine ⟨iff_of_false (by simp) fun hnone ↦ ?_, ?_⟩
    · rw [hnone _ hmem] at hvalid
      cases hvalid
    · rintro w hw
      cases hw
      exact ⟨hmem, hvalid⟩

private theorem fewest_lowestLoad {w v : ℕ} (hw : lowestLoad workers currentWorkers = some w)
    (hv : v ∈ currentWorkers) (hvalid : (workers v).valid = true) :
    (workers w).startedJobs.entries.length ≤ (workers v).startedJobs.entries.length := by
  obtain ⟨job, hscanned⟩ := scanned_lowestLoad hpending
  rw [hw] at hscanned
  cases hscanned with
  | best hmem _ hfewest =>
    have hle := hfewest v hv hvalid
    rw [pendingJobs_eq (hpending w hmem), pendingJobs_eq (hpending v hv)] at hle
    exact Int.ofNat_le.mp hle

end Lowest

/-! ## The draws

A draw that hits an open worker ends the loop. If every index is drawn at some time, the loop ends
exactly if there is an open worker to be hit. -/

private theorem drawRounds_spec {rounds w : ℕ}
    (h : drawRounds workers currentWorkers rounds draws = some w) :
    w ∈ currentWorkers ∧ (workers w).valid = true := by
  induction rounds generalizing draws with
  | zero => cases h
  | succ rounds ih =>
    rw [drawRounds] at h
    obtain ⟨pick, hpick, h⟩ := Option.bind_eq_some_iff.mp h
    split at h
    · rename_i hvalid
      obtain rfl := Option.some_inj.mp h
      exact ⟨List.mem_of_getElem? hpick, hvalid⟩
    · exact ih h

/-- The loop ends with the first draw of an open worker, if not before. -/
theorem drawRounds_isSome (hrange : ∀ i, draws i < currentWorkers.length) {i w : ℕ}
    (hdraw : currentWorkers[draws i]? = some w) (hvalid : (workers w).valid = true) :
    (drawRounds workers currentWorkers (i + 1) draws).isSome := by
  induction i generalizing draws with
  | zero => simp [drawRounds, hdraw, hvalid]
  | succ i ih =>
    obtain ⟨pick, hpick⟩ : ∃ pick, currentWorkers[draws 0]? = some pick :=
      ⟨_, List.getElem?_eq_getElem (hrange 0)⟩
    rw [drawRounds, hpick, Option.bind_some]
    split
    · rfl
    · exact ih (fun j ↦ hrange (j + 1)) hdraw

/-- **Rejection sampling** ends exactly if there is something that is not rejected. -/
theorem drawRounds_terminates_iff (hrange : ∀ i, draws i < currentWorkers.length)
    (hhit : ∀ k < currentWorkers.length, ∃ i, draws i = k) :
    (∃ rounds, (drawRounds workers currentWorkers rounds draws).isSome) ↔
      ∃ w ∈ currentWorkers, (workers w).valid = true := by
  constructor
  · rintro ⟨rounds, hsome⟩
    obtain ⟨w, hw⟩ := Option.isSome_iff_exists.mp hsome
    exact ⟨w, drawRounds_spec hw⟩
  · rintro ⟨w, hmem, hvalid⟩
    obtain ⟨k, hk, hget⟩ := List.getElem_of_mem hmem
    obtain ⟨i, rfl⟩ := hhit k hk
    exact ⟨i + 1, drawRounds_isSome hrange (List.getElem?_eq_some_iff.mpr ⟨hk, hget⟩) hvalid⟩

private theorem selects_randomAssign {rounds : ℕ} {pick : Option ℕ}
    (h : randomAssign workers currentWorkers draws rounds = some pick) :
    Selects workers currentWorkers pick := by
  rw [randomAssign] at h
  split at h
  · rename_i hnil
    obtain rfl := Option.some_inj.mp h
    subst hnil
    exact ⟨iff_of_true rfl fun w hw ↦ absurd hw List.not_mem_nil, fun w hw ↦ by cases hw⟩
  · obtain ⟨w, hw, rfl⟩ := Option.map_eq_some_iff.mp h
    obtain ⟨hmem, hvalid⟩ := drawRounds_spec hw
    refine ⟨iff_of_false (by simp) fun hnone ↦ ?_, fun v hv ↦ ?_⟩
    · rw [hnone w hmem] at hvalid
      cases hvalid
    · obtain rfl := Option.some_inj.mp hv
      exact ⟨hmem, hvalid⟩

/-! ## The contract

For an empty set both policies return no worker. Otherwise `lowest_load` returns none if there is no
open one, where `random_assign` does not return. -/

/-- **When a worker is chosen as `process_job` needs it**: always by `lowest_load`, and by
`random_assign` unless there are only closed workers. -/
theorem selectionContract_iff
    (hpending : ∀ w ∈ currentWorkers, (workers w).startedJobs.entries.length + 1 < 2 ^ 31)
    (hrange : currentWorkers ≠ [] → ∀ i, draws i < currentWorkers.length)
    (hhit : ∀ k < currentWorkers.length, ∃ i, draws i = k) :
    SelectionContract workers currentWorkers draws ↔
      currentWorkers = [] ∨ ∃ w ∈ currentWorkers, (workers w).valid = true := by
  have hreturns : (∃ rounds, (randomAssign workers currentWorkers draws rounds).isSome) ↔
      currentWorkers = [] ∨ ∃ w ∈ currentWorkers, (workers w).valid = true := by
    by_cases hnil : currentWorkers = []
    · exact iff_of_true ⟨0, by rw [randomAssign, if_pos hnil]; rfl⟩ (.inl hnil)
    · rw [← drawRounds_terminates_iff (hrange hnil) hhit, or_iff_right hnil]
      simp only [randomAssign, if_neg hnil, Option.isSome_map]
  constructor
  · exact fun h ↦ hreturns.mp h.returns
  · exact fun h ↦ ⟨selects_lowestLoad hpending, fun w hw v ↦ fewest_lowestLoad hpending hw,
      hreturns.mpr h, fun rounds pick ↦ selects_randomAssign⟩

/-- A closed worker, and two open ones with a job and without. -/
def threeWorkers : ℕ → Worker
  | 0 => ⟨false, ∅⟩
  | 1 => ⟨true, AList.singleton ⟨.replicate 32 0, .replicate 4 0, .replicate 4 0⟩ 0⟩
  | _ => ⟨true, ∅⟩

/-- One draw of each in turn. -/
theorem selectionContract_threeWorkers :
    SelectionContract threeWorkers [0, 1, 2] (· % 3) := by
  refine (selectionContract_iff (by decide) (fun _ i ↦ Nat.mod_lt i (by decide)) ?_).mpr
    (.inr ⟨1, by decide, rfl⟩)
  intro k hk
  exact ⟨k, Nat.mod_eq_of_lt hk⟩

/-- **Only closed workers.** The one worker has closed without deregistering. -/
theorem randomAssign_hangs :
    (∀ rounds, randomAssign threeWorkers [0] (fun _ ↦ 0) rounds = none) ∧
      lowestLoad threeWorkers [0] = none ∧
      ¬SelectionContract threeWorkers [0] (fun _ ↦ 0) := by
  have hnone : ∀ rounds, randomAssign threeWorkers [0] (fun _ ↦ 0) rounds = none := by
    intro rounds
    rw [randomAssign, if_neg (by decide), Option.map_eq_none_iff]
    induction rounds with
    | zero => rfl
    | succ rounds ih => exact ih
  refine ⟨hnone, rfl, fun h ↦ ?_⟩
  obtain ⟨rounds, hsome⟩ := h.returns
  rw [hnone rounds] at hsome
  cases hsome

/-! ## The launcher

What the two policies return is what `Launcher.Available` leaves open in the step of
`process_job`. -/

namespace Launcher

variable (s : Launcher)

theorem available_lowestLoad
    (hpending : ∀ w ∈ s.workerSet, (s.workers w).startedJobs.entries.length + 1 < 2 ^ 31) :
    s.Available .lowestLoad (lowestLoad s.workers s.workerSet) := by
  have hselects := selects_lowestLoad hpending
  cases hpick : lowestLoad s.workers s.workerSet with
  | none => exact hselects.none_iff.mp hpick
  | some w =>
    obtain ⟨hmem, hvalid⟩ := hselects.some w hpick
    exact ⟨hmem, hvalid, fun _ v ↦ fewest_lowestLoad hpending hpick⟩

theorem available_randomAssign {draws : ℕ → ℕ} {rounds : ℕ} {pick : Option ℕ}
    (h : randomAssign s.workers s.workerSet draws rounds = some pick) :
    s.Available .randomAssign pick := by
  cases pick with
  | some w =>
    obtain ⟨hmem, hvalid⟩ := (selects_randomAssign h).some w rfl
    exact ⟨hmem, hvalid, fun hpolicy ↦ by cases hpolicy⟩
  | none =>
    rw [randomAssign] at h
    split at h
    · rename_i hnil
      exact hnil
    · obtain ⟨w, -, hw⟩ := Option.map_eq_some_iff.mp h
      cases hw

end Launcher

end Slsfs.Proxy

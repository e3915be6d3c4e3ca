import Mathlib.Algebra.Order.BigOperators.Group.List
import Mathlib.Algebra.Order.Group.Nat
import Mathlib.Data.List.Perm.Subperm
import Mathlib.Data.UInt
import Slsfs.Lib.Run

/-!
# The size of the queue

`max_queue` keeps the bytes of the pending jobs in a signed counter. `schedule_a_new_job` adds the
size of a job and `finished_a_job` takes it off; both are posted, and the threads of the context may
run the second before the first. `execute` then divides by an unsigned number, so a negative counter
is read as one near `2 ^ 64`, and the quotient is cut to an `int`.

What the counter holds is the sum over the notifications that have run. While it is not negative,
and the quotient fits, the number of workers is at most that for all the jobs scheduled.
-/

namespace Slsfs.Proxy.MaxQueue

structure State where
  queueSize : ℤ
  idealWorkerCount : ℤ
  scheduled : List ℕ
  finished : List ℕ
  /-- The jobs whose posted `schedule_a_new_job` has run. -/
  added : List ℕ
  /-- The jobs whose posted `finished_a_job` has run. -/
  subtracted : List ℕ

inductive Event where
  /-- The launcher schedules a job, and the notification is posted. -/
  | schedule (job : ℕ)
  /-- A worker finishes a job, and the notification is posted. -/
  | finish (job : ℕ)
  | scheduleANewJob (job : ℕ)
  | finishedAJob (job : ℕ)
  | execute
  deriving DecidableEq

/-- The constructor takes kilobytes. -/
def maxAverageQueue (maxQueue : UInt64) : UInt64 := maxQueue * 1024

/-- What is stored for a counter: it is made unsigned, divided, and cut to an `int`. -/
def quotient (maxQueue : UInt64) (queueSize : ℤ) : ℤ :=
  Int.bmod (queueSize % 2 ^ 64 / (maxAverageQueue maxQueue).toNat) (2 ^ 32)

section Model

variable (maxQueue : UInt64) (datasize : ℕ → UInt32)

/-- The size of some jobs together. -/
def total (jobs : List ℕ) : ℕ := (jobs.map fun j ↦ (datasize j).toNat).sum

namespace State

def init : State := ⟨0, 0, [], [], [], []⟩

def scheduleANewJob (s : State) (j : ℕ) : State :=
  { s with
    queueSize := Int.bmod (s.queueSize + (datasize j).toNat) (2 ^ 64)
    added := j :: s.added }

def finishedAJob (s : State) (j : ℕ) : State :=
  { s with
    queueSize := Int.bmod (s.queueSize - (datasize j).toNat) (2 ^ 64)
    subtracted := j :: s.subtracted }

def execute (s : State) : State :=
  { s with idealWorkerCount := quotient maxQueue s.queueSize }

/-- What the notifications that have run come to. -/
def pending (s : State) : ℤ := total datasize s.added - total datasize s.subtracted

end State

/-- One event. A job is scheduled once, finished at most once after that, and each notification runs
once after it was posted. -/
def step (s : State) : Event → Option State
  | .schedule j =>
    if j ∈ s.scheduled then none else some { s with scheduled := j :: s.scheduled }
  | .finish j =>
    if j ∉ s.scheduled ∨ j ∈ s.finished then none else some { s with finished := j :: s.finished }
  | .scheduleANewJob j =>
    if j ∉ s.scheduled ∨ j ∈ s.added then none else some (s.scheduleANewJob datasize j)
  | .finishedAJob j =>
    if j ∉ s.finished ∨ j ∈ s.subtracted then none else some (s.finishedAJob datasize j)
  | .execute => some (s.execute maxQueue)

/-- The stored number is that of workers for at most all jobs scheduled so far. -/
structure Within (s : State) : Prop where
  nonneg : 0 ≤ s.idealWorkerCount
  le_total : s.idealWorkerCount
    ≤ (total datasize s.scheduled / (maxAverageQueue maxQueue).toNat : ℕ)

/-- **The condition.** When the policy executes, the jobs taken off do not outweigh those added, and
the quotient fits in an `int`. -/
def Counted (s : State) : Event → Prop
  | .execute =>
    0 ≤ s.pending datasize ∧ s.pending datasize / (maxAverageQueue maxQueue).toNat < 2 ^ 31
  | _ => True

instance decidableCounted (s : State) : ∀ e, Decidable (Counted maxQueue datasize s e)
  | .execute => inferInstanceAs (Decidable (0 ≤ s.pending datasize ∧
      s.pending datasize / (maxAverageQueue maxQueue).toNat < 2 ^ 31))
  | .schedule _ | .finish _ | .scheduleANewJob _ | .finishedAJob _ => .isTrue trivial

/-- What is read off the counter fits in an `int`, and is no more than for all jobs. -/
def InRange (s : State) : Event → Prop
  | .execute =>
    s.pending datasize % 2 ^ 64 / (maxAverageQueue maxQueue).toNat % 2 ^ 32 < 2 ^ 31 ∧
      s.pending datasize % 2 ^ 64 / (maxAverageQueue maxQueue).toNat % 2 ^ 32
        ≤ (total datasize s.scheduled / (maxAverageQueue maxQueue).toNat : ℕ)
  | _ => True

end Model

/-! ## What is stored

The counter has 64 bits and the number of workers 32. Two numbers that differ by a multiple of 2^64
are divided alike, and the quotient is stored without loss if it is less than 2^31. -/

/-- The value an `int` gets is in a range of natural numbers exactly if the low bits are. -/
theorem bmod_within_iff (q : ℤ) (n : ℕ) :
    0 ≤ Int.bmod q (2 ^ 32) ∧ Int.bmod q (2 ^ 32) ≤ n ↔ q % 2 ^ 32 < 2 ^ 31 ∧ q % 2 ^ 32 ≤ n := by
  rw [Int.bmod_def]
  have hnonneg : 0 ≤ q % 2 ^ 32 := Int.emod_nonneg q (by decide)
  have hlt : q % 2 ^ 32 < 2 ^ 32 := Int.emod_lt_of_pos q (by decide)
  push_cast
  split <;> omega

/-- The counter wraps around with the integers, so it is read as the sum itself would be. -/
theorem quotient_bmod (maxQueue : UInt64) (d : ℤ) :
    quotient maxQueue (Int.bmod d (2 ^ 64)) = quotient maxQueue d := by
  have hread : Int.bmod d (2 ^ 64) % 2 ^ 64 = d % 2 ^ 64 := by
    exact_mod_cast Int.bmod_emod (x := d) (m := 2 ^ 64)
  rw [quotient, hread, quotient]

private theorem quotient_of_nonneg {d : ℤ} {m t : ℕ} (hm : 0 < m) (hd : 0 ≤ d) (ht : d ≤ t)
    (hfits : d / m < 2 ^ 31) :
    d % 2 ^ 64 / m % 2 ^ 32 < 2 ^ 31 ∧ d % 2 ^ 64 / m % 2 ^ 32 ≤ (t / m : ℕ) := by
  have hm' : (0 : ℤ) < m := by exact_mod_cast hm
  have hread : d % 2 ^ 64 / m ≤ d / m := by
    apply Int.ediv_le_ediv hm'
    have hwrap := Int.emod_add_mul_ediv d (2 ^ 64)
    have hhigh : 0 ≤ d / 2 ^ 64 := Int.ediv_nonneg hd (by decide)
    omega
  have hnonneg : 0 ≤ d % 2 ^ 64 / m :=
    Int.ediv_nonneg (Int.emod_nonneg d (by decide)) hm'.le
  have htotal : d / m ≤ (t / m : ℕ) := by
    rw [Int.natCast_ediv]
    exact Int.ediv_le_ediv hm' ht
  have hlow : d % 2 ^ 64 / m % 2 ^ 32 = d % 2 ^ 64 / m :=
    Int.emod_eq_of_lt hnonneg (by omega)
  rw [hlow]
  exact ⟨hread.trans_lt hfits, hread.trans htotal⟩

private theorem total_le (datasize : ℕ → UInt32) {js ks : List ℕ} (hnodup : js.Nodup)
    (hsub : js ⊆ ks) :
    total datasize js ≤ total datasize ks := by
  obtain ⟨ls, hperm, hls⟩ := List.subperm_of_subset hnodup hsub
  have hsum : total datasize ls = total datasize js := (hperm.map _).sum_eq
  rw [← hsum]
  exact List.Sublist.sum_le_sum (hls.map _) fun _ _ ↦ Nat.zero_le _

/-! ## What the counter holds

The size of a job is added once at most and taken off once at most, so the pending bytes are at most
those of all jobs scheduled. They are negative while a job has been taken off that has not been
added yet. -/

section Steps

variable {maxQueue : UInt64} {datasize : ℕ → UInt32} {s s' : State} {e : Event}

/-- The counter is the sum over the notifications that have run, each of them of a job scheduled. -/
structure Inv (maxQueue : UInt64) (datasize : ℕ → UInt32) (s : State) : Prop
    extends Within maxQueue datasize s where
  queueSize : s.queueSize = Int.bmod (s.pending datasize) (2 ^ 64)
  nodup : s.added.Nodup
  added_subset : s.added ⊆ s.scheduled

private theorem Inv.pending_le (h : Inv maxQueue datasize s) :
    s.pending datasize ≤ total datasize s.scheduled := by
  have hle := total_le datasize h.nodup h.added_subset
  rw [State.pending]
  omega

private theorem Inv.within_execute_iff (h : Inv maxQueue datasize s) :
    Within maxQueue datasize (s.execute maxQueue) ↔ InRange maxQueue datasize s .execute := by
  have hstored : (s.execute maxQueue).idealWorkerCount = Int.bmod
      (s.pending datasize % 2 ^ 64 / (maxAverageQueue maxQueue).toNat) (2 ^ 32) := by
    change quotient maxQueue s.queueSize = _
    rw [h.queueSize, quotient_bmod, quotient]
  rw [InRange, ← bmod_within_iff, ← hstored]
  exact ⟨fun hwithin ↦ ⟨hwithin.nonneg, hwithin.le_total⟩, fun hin ↦ ⟨hin.1, hin.2⟩⟩

private theorem Inv.inRange_of_counted (h : Inv maxQueue datasize s)
    (hm : maxAverageQueue maxQueue ≠ 0)
    (hcounted : Counted maxQueue datasize s e) : InRange maxQueue datasize s e := by
  cases e with
  | execute =>
    have hpos : 0 < (maxAverageQueue maxQueue).toNat :=
      Nat.pos_of_ne_zero fun h0 ↦ hm (UInt64.toNat_inj.mp h0)
    exact quotient_of_nonneg hpos hcounted.1 h.pending_le hcounted.2
  | _ => trivial

theorem Inv.step (h : Inv maxQueue datasize s) (hin : InRange maxQueue datasize s e)
    (hs : step maxQueue datasize s e = some s') : Inv maxQueue datasize s' := by
  cases e with
  | schedule j =>
    obtain ⟨-, hs⟩ := Option.ite_none_left_eq_some.mp hs
    cases hs
    refine ⟨⟨h.nonneg, h.le_total.trans ?_⟩, h.queueSize, h.nodup,
      fun k hk ↦ List.mem_cons_of_mem j (h.added_subset hk)⟩
    have hmore : total datasize s.scheduled ≤ total datasize (j :: s.scheduled) := by
      rw [total, total, List.map_cons, List.sum_cons]
      exact Nat.le_add_left _ _
    exact_mod_cast Nat.div_le_div_right hmore
  | finish j =>
    obtain ⟨-, hs⟩ := Option.ite_none_left_eq_some.mp hs
    cases hs
    exact ⟨⟨h.nonneg, h.le_total⟩, h.queueSize, h.nodup, h.added_subset⟩
  | scheduleANewJob j =>
    obtain ⟨hguard, hs⟩ := Option.ite_none_left_eq_some.mp hs
    cases hs
    rw [not_or, not_not] at hguard
    refine ⟨⟨h.nonneg, h.le_total⟩, ?_, List.nodup_cons.mpr ⟨hguard.2, h.nodup⟩,
      List.cons_subset.mpr ⟨hguard.1, h.added_subset⟩⟩
    have hsum : (s.scheduleANewJob datasize j).pending datasize
        = s.pending datasize + (datasize j).toNat := by
      simp only [State.pending, State.scheduleANewJob, total, List.map_cons, List.sum_cons]
      omega
    rw [hsum]
    change Int.bmod (s.queueSize + _) _ = _
    rw [h.queueSize, Int.bmod_add_bmod]
  | finishedAJob j =>
    obtain ⟨-, hs⟩ := Option.ite_none_left_eq_some.mp hs
    cases hs
    refine ⟨⟨h.nonneg, h.le_total⟩, ?_, h.nodup, h.added_subset⟩
    have hsum : (s.finishedAJob datasize j).pending datasize
        = s.pending datasize - (datasize j).toNat := by
      simp only [State.pending, State.finishedAJob, total, List.map_cons, List.sum_cons]
      omega
    rw [hsum]
    change Int.bmod (s.queueSize - _) _ = _
    rw [h.queueSize, Int.bmod_sub_bmod]
  | execute =>
    cases hs
    exact ⟨h.within_execute_iff.mpr hin, h.queueSize, h.nodup, h.added_subset⟩

private theorem Inv.inRange_of_within (h : Inv maxQueue datasize s)
    (hs : MaxQueue.step maxQueue datasize s e = some s') (hwithin : Within maxQueue datasize s') :
    InRange maxQueue datasize s e := by
  cases e with
  | execute =>
    cases hs
    exact h.within_execute_iff.mp hwithin
  | _ => trivial

end Steps

theorem inv_init (maxQueue : UInt64) (datasize : ℕ → UInt32) :
    Inv maxQueue datasize State.init where
  nonneg := Int.le_refl 0
  le_total := Int.natCast_nonneg _
  queueSize := by simp [State.init, State.pending, total]
  nodup := List.nodup_nil
  added_subset := List.Subset.refl _

section Runs

variable (maxQueue : UInt64) (datasize : ℕ → UInt32) {es : List Event} {t : State}

/-- The stored number is in its bounds all along a run exactly if each number stored is. -/
theorem always_within_iff_inRange
    (hrun : run (step maxQueue datasize) State.init es = some t) :
    Always (step maxQueue datasize) (Within maxQueue datasize) State.init es
      ↔ Meets (step maxQueue datasize) (InRange maxQueue datasize) State.init es :=
  always_iff_meets (fun _ _ _ hin hs h ↦ h.step hin hs) (fun _ h ↦ h.toWithin)
    (fun _ _ _ h hs hwithin ↦ h.inRange_of_within hs hwithin) hrun (inv_init maxQueue datasize)

/-- **The number of workers** is never negative, and never more than for all the jobs scheduled so
far, in every run in which the policy executes only while the sum over the notifications that have
run is not negative and its quotient fits in an `int`. -/
theorem within_of_counted (hm : maxAverageQueue maxQueue ≠ 0)
    (hmeets : Meets (step maxQueue datasize) (Counted maxQueue datasize) State.init es) :
    Always (step maxQueue datasize) (Within maxQueue datasize) State.init es :=
  always_of_meets (fun _ _ _ hcounted hs h ↦ h.step (h.inRange_of_counted hm hcounted) hs)
    (fun _ h ↦ h.toWithin) hmeets (inv_init maxQueue datasize)

end Runs

/-- Two jobs of four kilobytes. The first notification that a job has finished runs between those
that they were scheduled. -/
def countedRun : List Event :=
  [.schedule 0, .schedule 1, .scheduleANewJob 1, .execute, .finish 0, .finishedAJob 0, .execute,
    .scheduleANewJob 0, .execute]

theorem within_countedRun :
    (run (step 1 fun _ ↦ 4096) State.init countedRun).map (·.idealWorkerCount) = some 4 ∧
      Always (step 1 fun _ ↦ 4096) (Within 1 fun _ ↦ 4096) State.init countedRun :=
  ⟨by decide +kernel, within_of_counted 1 _ (by decide) (by decide +kernel)⟩

/-- A job is finished, and the notification of that runs while the other one is still posted. -/
def finishedFirst : List Event := [.schedule 0, .finish 0, .finishedAJob 0, .execute]

/-- **A finished job is counted first.** The policy executes while the counter is negative, and one
byte asks for more than a billion workers, or for a negative number of them. -/
theorem finishedFirst_not_within :
    (run (step 3 fun _ ↦ 1) State.init finishedFirst).map (·.idealWorkerCount) = some 1431655765 ∧
      ¬Always (step 3 fun _ ↦ 1) (Within 3 fun _ ↦ 1) State.init finishedFirst ∧
      (run (step 1 fun _ ↦ 1) State.init finishedFirst).map (·.idealWorkerCount) = some (-1) ∧
      ¬Always (step 1 fun _ ↦ 1) (Within 1 fun _ ↦ 1) State.init finishedFirst := by
  refine ⟨by decide +kernel, fun h ↦ ?_, by decide +kernel, fun h ↦ ?_⟩
  · have hlast := ((((h.2 _ rfl).2 _ rfl).2 _ rfl).2 _ rfl)
    exact absurd hlast.le_total (by decide +kernel)
  · have hlast := ((((h.2 _ rfl).2 _ rfl).2 _ rfl).2 _ rfl)
    exact absurd hlast.nonneg (by decide +kernel)

end Slsfs.Proxy.MaxQueue

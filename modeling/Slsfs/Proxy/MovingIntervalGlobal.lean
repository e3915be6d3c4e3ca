import Slsfs.Proxy.MovingInterval

/-!
# The mean of the intervals of all workers

`SMA_global` is the window of `SMA` with a counter: until as many inputs as the window is long have
been recorded, the sum is to be divided by their number. The counter starts at one and is raised
before it is used, so it is one ahead of that number, and the mean of a window that is not yet full
comes out too small.

The counter is a `long` that no number of inputs exhausts. Whether the standard deviation is small
is decided in floating point, which is left out with `set_worker_keepalive`, the only function that
asks. The policy records the intervals between all jobs.
-/

namespace Slsfs.Proxy

/-- `SMA_global`. -/
structure SMAGlobal extends SMA where
  iterCounter : ℕ

namespace SMAGlobal

open SMA (total WindowsBelow)

def create (bufferSize : UInt32) : SMAGlobal := { SMA.create bufferSize with iterCounter := 1 }

/-- `get_sma`. The bound for the counter is computed in 32 bits, the first quotient in 64. -/
def getSma (s : SMAGlobal) : UInt32 :=
  if s.iterCounter < (s.N + 1).toNat then
    UInt32.ofNat ((s.sum + s.N / 2).toNat / s.iterCounter)
  else (s.sum + s.N / 2) / s.N

/-- `record`, which ends with the expression of `get_sma`. -/
def record (s : SMAGlobal) (input : UInt32) : UInt32 × SMAGlobal :=
  let s : SMAGlobal := { s.toSMA.push input with iterCounter := s.iterCounter + 1 }
  (s.getSma, s)

def recordAll (s : SMAGlobal) (inputs : List UInt32) : SMAGlobal :=
  inputs.foldl (fun s input ↦ (s.record input).2) s

private theorem recordAll_toSMA (s : SMAGlobal) (inputs : List UInt32) :
    (s.recordAll inputs).toSMA = s.toSMA.recordAll inputs := by
  induction inputs generalizing s with
  | nil => rfl
  | cons input inputs ih => exact ih _

private theorem recordAll_iterCounter (s : SMAGlobal) (inputs : List UInt32) :
    (s.recordAll inputs).iterCounter = s.iterCounter + inputs.length := by
  induction inputs generalizing s with
  | nil => rfl
  | cons input inputs ih =>
    have hrest := ih (s.record input).2
    rw [List.length_cons]
    change ((s.record input).2.recordAll inputs).iterCounter = _
    rw [hrest]
    change s.iterCounter + 1 + inputs.length = _
    omega

/-- What the sum is divided by. For the largest buffer the bound wraps around to zero. -/
def divisor (N iterCounter : ℕ) : ℕ :=
  if iterCounter < (N + 1) % 2 ^ 32 then iterCounter else N

private theorem toNat_getSma {s : SMAGlobal} {inputs : List UInt32} (h : s.toSMA.Holds inputs)
    (hsmall : total (window 0 s.N.toNat inputs) < 2 ^ 32 - s.N.toNat / 2) :
    s.getSma.toNat = (total (window 0 s.N.toNat inputs) + s.N.toNat / 2)
      / divisor s.N.toNat s.iterCounter := by
  obtain ⟨hsum, hmean⟩ := h.mean hsmall
  have hhalf : (s.sum + s.N / 2).toNat
      = total (window 0 s.N.toNat inputs) + s.N.toNat / 2 := by
    rw [UInt32.toNat_add, hsum, UInt32.toNat_div]
    exact Nat.mod_eq_of_lt (by change _ + s.N.toNat / 2 < _; omega)
  rw [getSma, divisor, UInt32.toNat_add, UInt32.toNat_one]
  split
  · rw [hhalf]
    refine UInt32.toNat_ofNat_of_lt' ((Nat.div_le_self _ _).trans_lt ?_)
    rw [UInt32.size]
    omega
  · exact hmean

private theorem div_eq_div_iff {a k d : ℕ} (hk : 0 < k) (hd : k ≤ d) :
    a / d = a / k ↔ a / k * (d - k) ≤ a % k := by
  obtain ⟨e, rfl⟩ := Nat.exists_eq_add_of_le hd
  have hsplit := Nat.div_add_mod a k
  -- the quotient cannot grow with the divisor
  have hle : a / (k + e) ≤ a / k := Nat.div_le_div_left hd hk
  have hge : a / k ≤ a / (k + e) ↔ k * (a / k) + a / k * e ≤ a := by
    rw [Nat.le_div_iff_mul_le (by omega), Nat.mul_add, Nat.mul_comm (a / k) k]
  rw [Nat.add_sub_cancel_left]
  omega

/-- The mean of the inputs in the window is what the divisor makes of it. -/
theorem div_divisor_iff {N k : ℕ} (hN : N < 2 ^ 32) (hk : 0 < k) (a : ℕ) :
    a / divisor N (k + 1) = a / min k N ↔
      N ≤ k ∨ a / k * (if N + 1 = 2 ^ 32 then N - k else 1) ≤ a % k := by
  rcases Nat.lt_or_ge k N with hwarm | hfull
  · rw [or_iff_right (Nat.not_le.mpr hwarm), Nat.min_eq_left hwarm.le]
    by_cases hlargest : N + 1 = 2 ^ 32
    · have hdivisor : divisor N (k + 1) = N := by
        rw [divisor, hlargest, if_neg (by omega)]
      rw [if_pos hlargest, hdivisor, div_eq_div_iff hk hwarm.le]
    · have hdivisor : divisor N (k + 1) = k + 1 := by
        rw [divisor, Nat.mod_eq_of_lt (by omega), if_pos (by omega)]
      rw [if_neg hlargest, hdivisor, div_eq_div_iff hk (Nat.le_add_right k 1),
        Nat.add_sub_cancel_left]
  · have hdivisor : divisor N (k + 1) = N := by
      have hmod := Nat.mod_le (N + 1) (2 ^ 32)
      rw [divisor, if_neg (by omega)]
    rw [hdivisor, Nat.min_eq_right hfull]
    exact iff_of_true rfl (.inl hfull)

private theorem toNat_record {N : UInt32} (hN : 1 ≤ N) (before : List UInt32) (input : UInt32)
    (hsmall : WindowsBelow N.toNat (before ++ [input])) :
    (((create N).recordAll before).record input).2.getSma.toNat
      = (total (window 0 N.toNat (before ++ [input])) + N.toNat / 2)
        / divisor N.toNat (before.length + 2) := by
  have hsma : (((create N).recordAll before).record input).2.toSMA
      = ((SMA.create N).recordAll before).push input :=
    congrArg (SMA.push · input) (recordAll_toSMA (create N) before)
  have hcounter : (((create N).recordAll before).record input).2.iterCounter
      = before.length + 2 := by
    change ((create N).recordAll before).iterCounter + 1 = _
    rw [recordAll_iterCounter]
    change 1 + before.length + 1 = _
    omega
  have hsize : (((create N).recordAll before).record input).2.N = N := by
    have hpos := UInt32.le_iff_toNat_le.mp hN
    rw [hsma, SMA.push_N, SMA.recordAll_N]
    refine if_neg ?_
    rintro rfl
    exact absurd hpos (by decide)
  have hholds : (((create N).recordAll before).record input).2.toSMA.Holds
      (before ++ [input]) := by
    rw [hsma]
    exact ((SMA.holds_create N).recordAll before).push input
  have hget := toNat_getSma hholds (by
    rw [hsize]
    exact hsmall.of_prefix (List.prefix_refl _))
  rwa [hsize, hcounter] at hget

/-- **The warm-up.** For every buffer size from 1 on and every sequence of inputs with small sums
over its windows, `record` and `get_sma` return the rounded mean of the inputs in the window exactly
if the window is full, or the mean is not above the remainder. (With the largest buffer the code
divides by its size from the start.) -/
theorem mean_iff (N : UInt32) (hN : 1 ≤ N) (before : List UInt32) (input : UInt32)
    (hsmall : WindowsBelow N.toNat (before ++ [input])) :
    let k := before.length + 1
    let S := total ((before ++ [input]).rtake (min k N.toNat))
    let s := (create N).recordAll before
    ((s.record input).1.toNat = (S + N.toNat / 2) / min k N.toNat ∧
        (s.record input).2.getSma.toNat = (S + N.toNat / 2) / min k N.toNat) ↔
      N.toNat ≤ k ∨ (S + N.toNat / 2) / k * (if N.toNat + 1 = 2 ^ 32 then N.toNat - k else 1)
        ≤ (S + N.toNat / 2) % k := by
  intro k S s
  have hS : total (window 0 N.toNat (before ++ [input])) = S := by
    have hlength : (before ++ [input]).length = k := List.length_append
    have hdrop : (before ++ [input]).length - N.toNat
        = (before ++ [input]).length - min k N.toNat := by omega
    rw [SMA.total_window, List.rtake, hdrop, ← List.rtake]
  have hreturned : (s.record input).1 = (s.record input).2.getSma := rfl
  rw [hreturned, and_self, toNat_record hN before input hsmall, hS]
  exact div_divisor_iff N.toNat_lt (Nat.succ_pos _) _

/-- A window of two and one input, 10: it is divided by two. -/
theorem one_input_halved :
    WindowsBelow (2 : UInt32).toNat ([] ++ [10]) ∧
      (((create 2).recordAll []).record 10).1.toNat = 5 ∧
      (((create 2).recordAll []).record 10).2.getSma.toNat = 5 ∧
      ¬(((create 2).recordAll []).record 10).1.toNat
        = (total (([10] : List UInt32).rtake (min 1 2)) + 2 / 2) / min 1 2 := by
  decide +kernel

/-- The second input fills the window. -/
theorem mean_iff_two_inputs :
    (1 : UInt32) ≤ 2 ∧ WindowsBelow (2 : UInt32).toNat ([10] ++ [20]) ∧
      (((create 2).recordAll [10]).record 20).1.toNat = 15 ∧
      (((create 2).recordAll [10]).record 20).2.getSma.toNat = 15 := by
  have hsmall : WindowsBelow (2 : UInt32).toNat ([10] ++ [20]) := by decide
  obtain ⟨hrecord, hget⟩ := (mean_iff 2 (by decide) [10] 20 hsmall).mpr (.inl (by decide))
  exact ⟨by decide, hsmall, hrecord.trans (by decide), hget.trans (by decide)⟩

end SMAGlobal

/-! ## The policy

All workers share one window and one time of the last job. Nothing is recorded with the first job,
and after it the intervals are those of `MovingInterval`, recorded whether or not debug messages are
logged. -/

namespace MovingIntervalGlobal

open MovingInterval (Config milliseconds recordedFrom)

/-- `keepalive_moving_interval_global`: one mean for all workers. -/
structure State where
  sma : SMAGlobal
  firstReq : Bool
  lastRequest : ℤ

variable (cfg : Config)

def init : State := ⟨SMAGlobal.create cfg.smaBufferSize, true, 0⟩

/-- `started_a_new_job`, at a time of the clock. The first job leaves only its time. -/
def startedANewJob (s : State) (now : ℤ) : State :=
  if s.firstReq then { s with firstReq := false, lastRequest := now }
  else
    let requestInterval := milliseconds (now - s.lastRequest)
    if cfg.concurrencyThreshold.toNat < requestInterval then
      { s with
        sma := (s.sma.record (UInt32.ofInt requestInterval)).2
        lastRequest := now }
    else { s with lastRequest := now }

private theorem sma_foldl {s : State} (h : s.firstReq = false) (times : List ℤ) :
    (times.foldl (startedANewJob cfg) s).sma
      = s.sma.recordAll (recordedFrom cfg true s.lastRequest times) := by
  induction times generalizing s with
  | nil => rfl
  | cons now times ih =>
    rw [List.foldl_cons, recordedFrom, startedANewJob, h, if_neg Bool.false_ne_true]
    dsimp only
    by_cases habove : cfg.concurrencyThreshold.toNat < milliseconds (now - s.lastRequest)
    · rw [if_pos habove, if_pos ⟨rfl, habove⟩]
      exact ih rfl
    · rw [if_neg habove, if_neg fun hand ↦ habove hand.2]
      exact ih rfl

/-- **What the mean is of.** The intervals above the threshold between the jobs of all workers are
recorded, whatever is logged, and no default before them. -/
theorem sma_afterJobs (now : ℤ) (times : List ℤ) :
    ((now :: times).foldl (startedANewJob cfg) (init cfg)).sma
      = (SMAGlobal.create cfg.smaBufferSize).recordAll (recordedFrom cfg true now times) :=
  sma_foldl cfg rfl times

end MovingIntervalGlobal

end Slsfs.Proxy

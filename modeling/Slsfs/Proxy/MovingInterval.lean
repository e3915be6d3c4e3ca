import Mathlib.Data.UInt
import Slsfs.Lib.Decimal
import Slsfs.Lib.EmplaceMap
import Slsfs.Lib.Window

/-!
# Keep-alive by the interval between requests

`keepalive_moving_interval` keeps for each worker a simple moving average of the milliseconds
between its jobs. `SMA` is a ring of the last inputs, of which there are zeros at first, with their
sum. The sum is kept modulo 2^32: what is overwritten is taken off, what comes in is added.

An interval is recorded only if it is above a threshold, and by a call in an argument of a log
statement, which is evaluated if debug messages are logged. The keep-alive of a worker is computed
from its mean, and 100 is divided by it unless it is below the threshold. With a threshold of zero
no mean is, not even a mean of zero.

Products with the error margin are floating point numbers and left open. The time of a job is that
of the clock when its handler runs.
-/

namespace Slsfs.Proxy

/-- `SMA`. The index is inside the vector, which has `N` elements. -/
structure SMA where
  N : UInt32
  index : UInt32
  previousInputs : List UInt32
  sum : UInt32
  index_lt : index < N
  length_eq : previousInputs.length = N.toNat

namespace SMA

/-- The number of elements for a buffer size. -/
def ringSize (bufferSize : UInt32) : UInt32 := if bufferSize = 0 then 1 else bufferSize

private theorem ringSize_pos (bufferSize : UInt32) : 0 < ringSize bufferSize := by
  rw [ringSize]
  split
  · decide
  · rename_i hne
    exact UInt32.pos_iff_ne_zero.mpr hne

/-- The constructor. -/
def create (bufferSize : UInt32) : SMA where
  N := ringSize bufferSize
  index := 0
  previousInputs := List.replicate (ringSize bufferSize).toNat 0
  sum := 0
  index_lt := ringSize_pos bufferSize
  length_eq := List.length_replicate

private theorem index_lt_length (s : SMA) : s.index.toNat < s.previousInputs.length := by
  rw [s.length_eq]
  exact UInt32.lt_iff_toNat_lt.mp s.index_lt

private theorem N_pos (s : SMA) : 0 < s.N.toNat :=
  Nat.zero_lt_of_lt (UInt32.lt_iff_toNat_lt.mp s.index_lt)

private theorem toNat_index_succ (s : SMA) : (s.index + 1).toNat = s.index.toNat + 1 := by
  have hlt := UInt32.lt_iff_toNat_lt.mp s.index_lt
  have hmax := s.N.toNat_lt
  rw [UInt32.toNat_add, UInt32.toNat_one, Nat.mod_eq_of_lt (by omega)]

/-- The oldest input is replaced, and the index goes on, or back to the start. -/
def push (s : SMA) (input : UInt32) : SMA where
  N := s.N
  index := if s.index + 1 = s.N then 0 else s.index + 1
  previousInputs := s.previousInputs.set s.index.toNat input
  sum := s.sum - s.previousInputs.get ⟨s.index.toNat, s.index_lt_length⟩ + input
  index_lt := by
    split
    · exact UInt32.lt_of_le_of_lt (UInt32.zero_le) s.index_lt
    · rename_i hne
      have hlt := UInt32.lt_iff_toNat_lt.mp s.index_lt
      have hne' : (s.index + 1).toNat ≠ s.N.toNat := fun h ↦ hne (UInt32.toNat_inj.mp h)
      rw [UInt32.lt_iff_toNat_lt]
      rw [toNat_index_succ] at hne' ⊢
      omega
  length_eq := by rw [List.length_set, s.length_eq]

def getSma (s : SMA) : UInt32 := (s.sum + s.N / 2) / s.N

/-- `record`, with what it returns. -/
def record (s : SMA) (input : UInt32) : UInt32 × SMA :=
  (((s.push input).sum + s.N / 2) / s.N, s.push input)

/-- Some inputs, recorded one after the other. -/
def recordAll (s : SMA) (inputs : List UInt32) : SMA :=
  inputs.foldl (fun s input ↦ (s.record input).2) s

/-! ## The window

The cells are those of `HoldsWindow`, and the sum is kept as in `HoldsWindow.sum_put`, modulo 2^32.
Nothing is lost by that as long as the true sum fits. -/

/-- The ring holds the last inputs, and the sum is theirs, up to a multiple of 2^32. -/
structure Holds (s : SMA) (inputs : List UInt32) : Prop where
  ring : HoldsWindow 0 s.previousInputs s.index.toNat inputs
  sum : s.sum = (window 0 s.N.toNat inputs).sum

theorem holds_create (bufferSize : UInt32) : (create bufferSize).Holds [] where
  ring := HoldsWindow.init 0 (UInt32.lt_iff_toNat_lt.mp (ringSize_pos bufferSize))
  sum := by
    rw [window_nil, List.sum_replicate, nsmul_zero]
    rfl

/-- **One more input.** -/
theorem Holds.push {s : SMA} {inputs : List UInt32} (h : s.Holds inputs) (input : UInt32) :
    (s.push input).Holds (inputs ++ [input]) where
  ring := by
    have hput := h.ring.put input
    have hindex : (s.push input).index.toNat = nextCell s.previousInputs.length s.index.toNat := by
      rw [nextCell, s.length_eq, ← s.toNat_index_succ, SMA.push]
      dsimp only
      by_cases hlast : s.index + 1 = s.N
      · rw [if_pos hlast, if_pos (congrArg UInt32.toNat hlast)]
        rfl
      · rw [if_neg hlast, if_neg fun heq ↦ hlast (UInt32.toNat_inj.mp heq)]
    rw [hindex]
    exact hput
  sum := by
    have hold := h.sum
    rw [← s.length_eq] at hold
    change _ = (window 0 s.N.toNat (inputs ++ [input])).sum
    rw [← s.length_eq, h.ring.sum_put input, ← hold]
    rfl

theorem push_N (s : SMA) (input : UInt32) : (s.push input).N = s.N := rfl

theorem recordAll_N (s : SMA) (inputs : List UInt32) : (s.recordAll inputs).N = s.N := by
  induction inputs generalizing s with
  | nil => rfl
  | cons input inputs ih => exact ih _

theorem Holds.recordAll {s : SMA} {before : List UInt32} (h : s.Holds before)
    (inputs : List UInt32) : (s.recordAll inputs).Holds (before ++ inputs) := by
  induction inputs generalizing s before with
  | nil => rwa [List.append_nil]
  | cons input inputs ih =>
    have hrest := ih (h.push input)
    rwa [List.append_assoc] at hrest

/-! ## The mean

`get_sma` adds half the size of the window before it divides, and this addition may wrap around as
well. So the mean is the rounded mean of the window if its sum is below 2^32 less that half. A
window that is not yet full is filled up with zeros, which are divided by too. -/

/-- The sum of some inputs, as a number. -/
def total (inputs : List UInt32) : ℕ := (inputs.map UInt32.toNat).sum

private theorem toNat_sum (inputs : List UInt32) : inputs.sum.toNat = total inputs % 2 ^ 32 := by
  induction inputs with
  | nil => rfl
  | cons input inputs ih =>
    rw [List.sum_cons, UInt32.toNat_add, ih, Nat.add_mod_mod]
    rfl

private theorem total_append (inputs others : List UInt32) :
    total (inputs ++ others) = total inputs + total others := by
  rw [total, List.map_append, List.sum_append, ← total, ← total]

theorem total_window (n : ℕ) (inputs : List UInt32) :
    total (window 0 n inputs) = total (inputs.rtake n) := by
  rw [window_eq_append, total_append, total, List.map_replicate, List.sum_replicate]
  exact Nat.zero_add _

private theorem toNat_mean (sum N : UInt32) :
    ((sum + N / 2) / N).toNat = (sum.toNat + N.toNat / 2) % 2 ^ 32 / N.toNat := by
  rw [UInt32.toNat_div, UInt32.toNat_add, UInt32.toNat_div]
  rfl

/-- Every `N` consecutive inputs, those before the first one taken as zeros, have a small sum. -/
def WindowsBelow (N : ℕ) (inputs : List UInt32) : Prop :=
  ∀ k ≤ inputs.length, total (window 0 N (inputs.take k)) < 2 ^ 32 - N / 2

instance decidableWindowsBelow (N : ℕ) (inputs : List UInt32) :
    Decidable (WindowsBelow N inputs) :=
  inferInstanceAs (Decidable (∀ k ≤ inputs.length, _))

theorem WindowsBelow.of_prefix {N : ℕ} {before inputs : List UInt32} (h : WindowsBelow N inputs)
    (hstart : before <+: inputs) : total (window 0 N before) < 2 ^ 32 - N / 2 := by
  have hbefore := h before.length hstart.length_le
  rwa [← List.prefix_iff_eq_take.mp hstart] at hbefore

theorem windowsBelow_iff {N : ℕ} {inputs : List UInt32} (hN : N ≤ inputs.length) :
    WindowsBelow N inputs ↔
      ∀ w, w <:+: inputs → w.length = N → total w < 2 ^ 32 - N / 2 := by
  constructor
  · rintro h w ⟨front, back, rfl⟩ hlength
    have hwindow := h.of_prefix (List.prefix_append (front ++ w) back)
    rwa [total_window, List.rtake, List.length_append, hlength, Nat.add_sub_cancel,
      List.drop_left] at hwindow
  · intro h k hk
    rw [total_window, List.rtake, List.length_take, Nat.min_eq_left hk]
    rcases Nat.lt_or_ge k N with hwarm | hfull
    · -- the inputs so far are among the first `N`
      have hfirst := h (inputs.take N) (List.take_prefix N inputs).isInfix
        (List.length_take_of_le hN)
      have hsplit : inputs.take N = inputs.take k ++ (inputs.drop k).take (N - k) := by
        rw [← List.take_add, Nat.add_sub_cancel' hwarm.le]
      rw [hsplit, total_append] at hfirst
      rw [Nat.sub_eq_zero_of_le hwarm.le, List.drop_zero]
      omega
    · refine h _ ((List.drop_suffix _ _).isInfix.trans (List.take_prefix k inputs).isInfix) ?_
      rw [List.length_drop, List.length_take, Nat.min_eq_left hk]
      omega

theorem Holds.mean {s : SMA} {inputs : List UInt32} (h : s.Holds inputs)
    (hsmall : total (window 0 s.N.toNat inputs) < 2 ^ 32 - s.N.toNat / 2) :
    s.sum.toNat = total (window 0 s.N.toNat inputs) ∧
      s.getSma.toNat = (total (window 0 s.N.toNat inputs) + s.N.toNat / 2) / s.N.toNat := by
  have hsum : s.sum.toNat = total (window 0 s.N.toNat inputs) := by
    rw [h.sum, toNat_sum, Nat.mod_eq_of_lt (by omega)]
  refine ⟨hsum, ?_⟩
  rw [getSma, toNat_mean, hsum, Nat.mod_eq_of_lt (by omega)]

/-- **The sliding window.** For every buffer size and every sequence of inputs with small sums over
its windows, the sum after each `record` is that of the last `N` inputs, and `record` and `get_sma`
both return the rounded mean. -/
theorem record_mean (bufferSize : UInt32) (inputs : List UInt32)
    (hsmall : WindowsBelow (ringSize bufferSize).toNat inputs) (before : List UInt32)
    (input : UInt32) (hstart : before ++ [input] <+: inputs) :
    let N := (ringSize bufferSize).toNat
    let S := total (window 0 N (before ++ [input]))
    let s := (create bufferSize).recordAll before
    (s.record input).2.sum.toNat = S ∧
      (s.record input).1.toNat = (S + N / 2) / N ∧
      (s.record input).2.getSma.toNat = (S + N / 2) / N := by
  intro N S s
  have hN : s.N = ringSize bufferSize := recordAll_N ..
  have hholds : (s.push input).Holds (before ++ [input]) :=
    ((holds_create bufferSize).recordAll before).push input
  have hmean := hholds.mean (by
    rw [push_N, hN]
    exact hsmall.of_prefix hstart)
  rw [push_N, hN] at hmean
  exact ⟨hmean.1, hmean.2, hmean.2⟩

/-- Three inputs and a window of two: the first one is gone. -/
theorem record_mean_three :
    WindowsBelow (ringSize 2).toNat [10, 20, 31] ∧ [10, 20] ++ [31] <+: [10, 20, 31] ∧
      (((create 2).recordAll [10, 20]).record 31).2.sum.toNat = 51 ∧
      (((create 2).recordAll [10, 20]).record 31).1.toNat = 26 ∧
      (((create 2).recordAll [10, 20]).record 31).2.getSma.toNat = 26 := by
  have hsmall : WindowsBelow (ringSize 2).toNat [10, 20, 31] := by decide
  obtain ⟨hsum, hrecord, hget⟩ := record_mean 2 [10, 20, 31] hsmall [10, 20] 31
    (List.prefix_refl _)
  refine ⟨hsmall, List.prefix_refl _, hsum.trans ?_, hrecord.trans ?_, hget.trans ?_⟩ <;>
    decide

end SMA

/-! ## The policy

`set_policy_keepalive` searches its argument for four numbers separated by colons, anywhere in the
text, and converts them with `stoi`, which throws if a number does not fit. The first three are then
stored as unsigned. -/

namespace MovingInterval

/-- What `keepalive_moving_interval` is constructed with. The margin is in hundredths. -/
structure Config where
  smaBufferSize : UInt32
  defaultWaitTime : UInt32
  concurrencyThreshold : UInt32
  errorMargin : ℤ
  deriving DecidableEq

/-- `std::stoi`; `none` where it throws. -/
def stoi (text : List UInt8) : Option ℤ :=
  (stoll text).filter fun n ↦ -2 ^ 31 ≤ n ∧ n < 2 ^ 31

/-- The group `(\d+)` at the start of a text, and what follows. -/
def digits (text : List UInt8) : Option (List UInt8 × List UInt8) :=
  if text.takeWhile isDigit = [] then none
  else some (text.takeWhile isDigit, text.dropWhile isDigit)

def colon : List UInt8 → Option (List UInt8)
  | 58 :: text => some text
  | _ => none

/-- The pattern `(\d+):(\d+):(\d+):(\d+)` at the start of a text. -/
def pattern (text : List UInt8) :
    Option (List UInt8 × List UInt8 × List UInt8 × List UInt8) := do
  let (bufferSize, text) ← digits text
  let (waitTime, text) ← (colon text).bind digits
  let (threshold, text) ← (colon text).bind digits
  let (margin, _) ← (colon text).bind digits
  return (bufferSize, waitTime, threshold, margin)

/-- `std::regex_search`: the first place where the pattern matches. -/
def regexSearch : List UInt8 → Option (List UInt8 × List UInt8 × List UInt8 × List UInt8)
  | [] => none
  | b :: text => (pattern (b :: text)).or (regexSearch text)

/-- `set_policy_keepalive` for `moving-interval`; `none` where it throws. -/
def setPolicyKeepalive (args : List UInt8) : Option Config := do
  let (bufferSize, waitTime, threshold, margin) ← regexSearch args
  return { smaBufferSize := UInt32.ofInt (← stoi bufferSize)
           defaultWaitTime := UInt32.ofInt (← stoi waitTime)
           concurrencyThreshold := UInt32.ofInt (← stoi threshold)
           errorMargin := ← stoi margin }

/-- The averages and the times of the last requests, by worker. -/
structure State where
  waitTimes : FiniteMap UInt64 SMA
  lastRequest : FiniteMap UInt64 ℤ

def init : State := ⟨∅, ∅⟩

/-- `duration_cast` of nanoseconds. -/
def milliseconds (duration : ℤ) : ℤ := duration.tdiv 1000000

/-- An integer division; `none` where the divisor is zero. -/
def divide (a b : UInt32) : Option UInt32 := if b = 0 then none else some (a / b)

section Model

variable (cfg : Config) (debugLogged : Bool) (withMargin : ℤ → UInt32 → UInt32)

/-- `started_a_new_job` of a worker, at a time of the clock. -/
def startedANewJob (s : State) (workerId : UInt64) (now : ℤ) : State :=
  match s.lastRequest.lookup workerId with
  | none =>
    let waitTimes := s.waitTimes.emplace workerId (SMA.create cfg.smaBufferSize)
    match waitTimes.lookup workerId with
    | none => { s with waitTimes }
    | some sma =>
      { waitTimes := waitTimes.insert workerId (sma.record cfg.defaultWaitTime).2
        lastRequest := s.lastRequest.insert workerId now }
  | some lastRequestTime =>
    let s := { s with lastRequest := s.lastRequest.insert workerId now }
    let requestInterval := milliseconds (now - lastRequestTime)
    if cfg.concurrencyThreshold.toNat < requestInterval then
      match s.waitTimes.lookup workerId with
      | none => s
      | some sma =>
        -- `record` is called in an argument of the log statement
        if debugLogged then
          { s with
            waitTimes :=
              s.waitTimes.insert workerId (sma.record (UInt32.ofInt requestInterval)).2 }
        else s
    else s

/-- `set_worker_keepalive`: what is sent to the worker, if anything is; `none` for a division by
zero. -/
def setWorkerKeepalive (s : State) (workerId : UInt64) : Option (Option UInt32) :=
  match s.waitTimes.lookup workerId with
  | none => some none
  | some sma =>
    if sma.getSma < cfg.concurrencyThreshold then some (some cfg.defaultWaitTime)
    else if 100 < sma.getSma then some (some (withMargin cfg.errorMargin sma.getSma))
    else (divide 100 sma.getSma).map fun quotient ↦ some (sma.getSma + quotient)

/-- The state after some jobs have started, each with its worker and time. -/
def afterJobs (s : State) (history : List (UInt64 × ℤ)) : State :=
  history.foldl (fun s job ↦ startedANewJob cfg debugLogged s job.1 job.2) s

/-! ### What has been recorded

What the average of a worker has recorded follows from the times of its jobs: first the default, and
then each interval that is above the threshold, if it is logged. The jobs of other workers leave it
as it is. -/

/-- When the jobs of a worker started. -/
def times (workerId : UInt64) (history : List (UInt64 × ℤ)) : List ℤ :=
  (history.filter (·.1 = workerId)).map Prod.snd

/-- The intervals that are recorded after a job that started at some time. -/
def recordedFrom : ℤ → List ℤ → List UInt32
  | _, [] => []
  | lastRequestTime, now :: times =>
    (if debugLogged ∧ cfg.concurrencyThreshold.toNat < milliseconds (now - lastRequestTime) then
      [UInt32.ofInt (milliseconds (now - lastRequestTime))] else []) ++ recordedFrom now times

/-- What is recorded for a worker: the default first, and then the intervals. -/
def recorded : List ℤ → List UInt32
  | [] => []
  | now :: times => cfg.defaultWaitTime :: recordedFrom cfg debugLogged now times

/-- **The condition.** There is a threshold, or the worker has not had a job, or the inputs in the
window have a mean that is not rounded to zero. -/
def MeanPositive (history : List (UInt64 × ℤ)) (workerId : UInt64) : Prop :=
  let N := (SMA.ringSize cfg.smaBufferSize).toNat
  cfg.concurrencyThreshold ≠ 0 ∨ times workerId history = [] ∨
    N ≤ (SMA.total (window 0 N (recorded cfg debugLogged (times workerId history))) + N / 2)
      % 2 ^ 32

end Model

section Jobs

variable {cfg : Config} {debugLogged : Bool} {s : State} {workerId other : UInt64} {last now : ℤ}
  {inputs : List UInt32}

/-- A worker that has had no job. -/
structure Unknown (s : State) (workerId : UInt64) : Prop where
  lastRequest : s.lastRequest.lookup workerId = none
  waitTimes : s.waitTimes.lookup workerId = none

/-- A worker that has had jobs: the time of the last one, and an average that holds what has been
recorded. -/
structure Known (cfg : Config) (s : State) (workerId : UInt64) (last : ℤ) (inputs : List UInt32) :
    Prop where
  lastRequest : s.lastRequest.lookup workerId = some last
  average : ∃ sma, s.waitTimes.lookup workerId = some sma ∧
    sma.N = SMA.ringSize cfg.smaBufferSize ∧ sma.Holds inputs

private theorem lookup_startedANewJob_of_ne (hne : workerId ≠ other) :
    (startedANewJob cfg debugLogged s other now).lastRequest.lookup workerId
        = s.lastRequest.lookup workerId ∧
      (startedANewJob cfg debugLogged s other now).waitTimes.lookup workerId
        = s.waitTimes.lookup workerId := by
  rw [startedANewJob]
  split
  · dsimp only
    split
    · exact ⟨rfl, FiniteMap.lookup_emplace_of_ne _ _ hne⟩
    · exact ⟨AList.lookup_insert_ne hne,
        (AList.lookup_insert_ne hne).trans (FiniteMap.lookup_emplace_of_ne _ _ hne)⟩
  · dsimp only
    split
    · split
      · exact ⟨AList.lookup_insert_ne hne, rfl⟩
      · split
        · exact ⟨AList.lookup_insert_ne hne, AList.lookup_insert_ne hne⟩
        · exact ⟨AList.lookup_insert_ne hne, rfl⟩
    · exact ⟨AList.lookup_insert_ne hne, rfl⟩

private theorem Unknown.startOther (h : Unknown s workerId) (hne : workerId ≠ other) :
    Unknown (startedANewJob cfg debugLogged s other now) workerId where
  lastRequest := (lookup_startedANewJob_of_ne hne).1.trans h.lastRequest
  waitTimes := (lookup_startedANewJob_of_ne hne).2.trans h.waitTimes

private theorem Known.startOther (h : Known cfg s workerId last inputs) (hne : workerId ≠ other) :
    Known cfg (startedANewJob cfg debugLogged s other now) workerId last inputs where
  lastRequest := (lookup_startedANewJob_of_ne hne).1.trans h.lastRequest
  average := by
    rw [(lookup_startedANewJob_of_ne hne).2]
    exact h.average

theorem Unknown.start (h : Unknown s workerId) :
    Known cfg (startedANewJob cfg debugLogged s workerId now) workerId now
      [cfg.defaultWaitTime] := by
  have hnew : (s.waitTimes.emplace workerId (SMA.create cfg.smaBufferSize)).lookup workerId
      = some (SMA.create cfg.smaBufferSize) := by
    rw [FiniteMap.lookup_emplace, h.waitTimes]
    rfl
  rw [startedANewJob, h.lastRequest]
  dsimp only
  rw [hnew]
  exact ⟨AList.lookup_insert _, _, AList.lookup_insert _, rfl,
    (SMA.holds_create cfg.smaBufferSize).push cfg.defaultWaitTime⟩

theorem Known.start (h : Known cfg s workerId last inputs) :
    Known cfg (startedANewJob cfg debugLogged s workerId now) workerId now
      (inputs ++ recordedFrom cfg debugLogged last [now]) := by
  obtain ⟨sma, hsma, hN, hholds⟩ := h.average
  rw [startedANewJob, h.lastRequest]
  dsimp only
  rw [recordedFrom, recordedFrom, List.append_nil, hsma]
  by_cases habove : cfg.concurrencyThreshold.toNat < milliseconds (now - last)
  · rw [if_pos habove]
    dsimp only
    by_cases hdebug : debugLogged = true
    · rw [if_pos hdebug, if_pos ⟨hdebug, habove⟩]
      exact ⟨AList.lookup_insert _, _, AList.lookup_insert _, hN, hholds.push _⟩
    · rw [if_neg hdebug, if_neg fun hand ↦ hdebug hand.1, List.append_nil]
      exact ⟨AList.lookup_insert _, sma, hsma, hN, hholds⟩
  · rw [if_neg habove, if_neg fun hand ↦ habove hand.2, List.append_nil]
    exact ⟨AList.lookup_insert _, sma, hsma, hN, hholds⟩

private theorem times_cons_self (workerId : UInt64) (now : ℤ) (history : List (UInt64 × ℤ)) :
    times workerId ((workerId, now) :: history) = now :: times workerId history := by
  rw [times, List.filter_cons_of_pos (by simp), List.map_cons, ← times]

private theorem times_cons_of_ne (hne : workerId ≠ other) (now : ℤ) (history : List (UInt64 × ℤ)) :
    times workerId ((other, now) :: history) = times workerId history := by
  rw [times, List.filter_cons_of_neg (by simpa using hne.symm), ← times]

/-- **Some jobs of a known worker**, among jobs of others. -/
theorem Known.afterJobs (h : Known cfg s workerId last inputs) (history : List (UInt64 × ℤ)) :
    ∃ last', Known cfg (afterJobs cfg debugLogged s history) workerId last'
      (inputs ++ recordedFrom cfg debugLogged last (times workerId history)) := by
  induction history generalizing s last inputs with
  | nil =>
    refine ⟨last, ?_⟩
    rwa [times, List.filter_nil, List.map_nil, recordedFrom, List.append_nil]
  | cons job history ih =>
    obtain ⟨other, now⟩ := job
    by_cases hsame : workerId = other
    · subst hsame
      obtain ⟨last', hlast'⟩ := ih h.start
      refine ⟨last', ?_⟩
      rw [recordedFrom, recordedFrom, List.append_nil, List.append_assoc] at hlast'
      rw [times_cons_self, recordedFrom]
      exact hlast'
    · rw [times_cons_of_ne hsame]
      exact ih (h.startOther hsame)

private theorem Unknown.afterJobs (cfg : Config) (debugLogged : Bool) (h : Unknown s workerId)
    (history : List (UInt64 × ℤ)) :
    (times workerId history = [] ∧ Unknown (afterJobs cfg debugLogged s history) workerId) ∨
      times workerId history ≠ [] ∧
        ∃ last, Known cfg (afterJobs cfg debugLogged s history) workerId last
          (recorded cfg debugLogged (times workerId history)) := by
  induction history generalizing s with
  | nil => exact .inl ⟨rfl, h⟩
  | cons job history ih =>
    obtain ⟨other, now⟩ := job
    by_cases hsame : workerId = other
    · subst hsame
      have hknown : Known cfg (startedANewJob cfg debugLogged s workerId now) workerId now
          [cfg.defaultWaitTime] := h.start
      obtain ⟨last, hlast⟩ := hknown.afterJobs history
      rw [times_cons_self]
      exact .inr ⟨List.cons_ne_nil _ _, last, hlast⟩
    · rw [times_cons_of_ne hsame]
      exact ih (h.startOther hsame)

end Jobs

/-! ### When the mean divides

The threshold is compared first, and only a threshold of zero lets a mean of zero pass. -/

/-- The only divisor that can be zero is a mean of zero, and there is no threshold then. -/
theorem setWorkerKeepalive_isSome_iff (cfg : Config) (withMargin : ℤ → UInt32 → UInt32)
    {s : State} {workerId : UInt64} {sma : SMA}
    (hsma : s.waitTimes.lookup workerId = some sma) :
    (setWorkerKeepalive cfg withMargin s workerId).isSome ↔
      cfg.concurrencyThreshold ≠ 0 ∨ sma.getSma ≠ 0 := by
  rw [setWorkerKeepalive, hsma]
  dsimp only
  by_cases hzero : sma.getSma = 0
  · rw [hzero, divide, if_pos rfl, Option.map_none]
    by_cases hthreshold : cfg.concurrencyThreshold = 0
    · rw [hthreshold, if_neg (by decide), if_neg (by decide)]
      simp
    · rw [if_pos (UInt32.pos_iff_ne_zero.mpr hthreshold)]
      simp [hthreshold]
  · rw [divide, if_neg hzero]
    refine iff_of_true ?_ (.inr hzero)
    split
    · rfl
    · split <;> rfl

private theorem getSma_ne_zero_iff {sma : SMA} {inputs : List UInt32} (h : sma.Holds inputs) :
    sma.getSma ≠ 0 ↔ sma.N.toNat ≤
      (SMA.total (window 0 sma.N.toNat inputs) + sma.N.toNat / 2) % 2 ^ 32 := by
  have hmean : sma.getSma.toNat
      = (SMA.total (window 0 sma.N.toNat inputs) + sma.N.toNat / 2) % 2 ^ 32 / sma.N.toNat := by
    rw [SMA.getSma, SMA.toNat_mean, h.sum, SMA.toNat_sum, Nat.mod_add_mod]
  rw [ne_eq, ← UInt32.toNat_inj, hmean]
  change ¬_ = 0 ↔ _
  rw [Nat.div_eq_zero_iff, not_or, not_lt, and_iff_right (by have := sma.N_pos; omega)]

/-- **Keep-alive times.** For every configuration and every history of jobs, setting the keep-alive
of a worker divides by zero exactly if there is no threshold and the worker has had jobs whose
recorded mean is rounded to zero. -/
theorem keepalive_safe_iff (cfg : Config) (debugLogged : Bool) (withMargin : ℤ → UInt32 → UInt32)
    (history : List (UInt64 × ℤ)) (workerId : UInt64) :
    (setWorkerKeepalive cfg withMargin (afterJobs cfg debugLogged init history) workerId).isSome ↔
      MeanPositive cfg debugLogged history workerId := by
  have hunknown : Unknown init workerId := ⟨rfl, rfl⟩
  rw [MeanPositive]
  rcases hunknown.afterJobs cfg debugLogged history with
    ⟨hnone, hnot⟩ | ⟨hsome, last, hknown⟩
  · rw [setWorkerKeepalive, hnot.waitTimes]
    exact iff_of_true rfl (.inr (.inl hnone))
  · obtain ⟨sma, hsma, hN, hholds⟩ := hknown.average
    rw [setWorkerKeepalive_isSome_iff cfg withMargin hsma, getSma_ne_zero_iff hholds, hN]
    exact or_congr_right (by rw [or_iff_right hsome])

/-- The arguments `3:1:0:10` and one job: the mean of 1 and two zeros is rounded to zero. -/
theorem first_job_divides_by_zero :
    setPolicyKeepalive (ascii "3:1:0:10") = some ⟨3, 1, 0, 10⟩ ∧
      setWorkerKeepalive ⟨3, 1, 0, 10⟩ (fun _ mean ↦ mean)
        (afterJobs ⟨3, 1, 0, 10⟩ true init [(7, 0)]) 7 = none := by
  decide +kernel

/-! ### Configurations that are safe

If intervals are recorded, some history has a mean of zero: the sum and what is added to round it
wrap around to less than the size of the window. If they are not, the window has the default and
zeros, and nothing else ever. -/

private theorem recordedFrom_of_not_logged (cfg : Config) (last : ℤ) (times : List ℤ) :
    recordedFrom cfg false last times = [] := by
  induction times generalizing last with
  | nil => rfl
  | cons now times ih =>
    rw [recordedFrom, ih, if_neg fun hand ↦ Bool.false_ne_true hand.1]
    rfl

/-- A history of two jobs after which the mean is zero: the interval between them fills up the sum
to a multiple of 2^32, or replaces it. -/
theorem exists_interval {N : ℕ} (hN : 0 < N) (first : UInt32) :
    ∃ interval : ℕ, 0 < interval ∧
      (SMA.total (window 0 N [first, UInt32.ofInt interval]) + N / 2) % 2 ^ 32 < N := by
  have hcast : ∀ interval : ℕ, (UInt32.ofInt interval).toNat = interval % 2 ^ 32 := by
    intro interval
    rw [UInt32.ofInt, UInt32.toNat_ofNat']
    omega
  rcases Nat.lt_or_ge N 2 with hone | htwo
  · obtain rfl : N = 1 := by omega
    refine ⟨2 ^ 32, by decide, ?_⟩
    rw [SMA.total_window, List.rtake, List.length_cons, List.length_singleton, List.drop_succ_cons,
      List.drop_zero, SMA.total, List.map_singleton, List.sum_singleton, hcast]
    decide
  · refine ⟨2 ^ 32 - (first.toNat + N / 2) % 2 ^ 32, by omega, ?_⟩
    rw [SMA.total_window, List.rtake, List.length_cons, List.length_singleton,
      Nat.sub_eq_zero_of_le htwo, List.drop_zero, SMA.total, List.map_cons, List.map_singleton,
      List.sum_cons, List.sum_singleton, hcast]
    omega

/-- **Configurations that are safe.** No history of jobs divides by zero if there is a threshold.
Without one, none does only if intervals are not recorded and the default alone has a mean. -/
theorem never_divides_iff (cfg : Config) (debugLogged : Bool)
    (withMargin : ℤ → UInt32 → UInt32) :
    (∀ history workerId, (setWorkerKeepalive cfg withMargin
        (afterJobs cfg debugLogged init history) workerId).isSome) ↔
      cfg.concurrencyThreshold ≠ 0 ∨ debugLogged = false ∧
        (SMA.ringSize cfg.smaBufferSize).toNat ≤ (cfg.defaultWaitTime.toNat
          + (SMA.ringSize cfg.smaBufferSize).toNat / 2) % 2 ^ 32 := by
  have hN : 0 < (SMA.ringSize cfg.smaBufferSize).toNat :=
    UInt32.lt_iff_toNat_lt.mp (SMA.ringSize_pos _)
  have hdefault : SMA.total (window 0 (SMA.ringSize cfg.smaBufferSize).toNat
      [cfg.defaultWaitTime]) = cfg.defaultWaitTime.toNat := by
    rw [SMA.total_window, List.rtake, List.length_singleton, Nat.sub_eq_zero_of_le hN,
      List.drop_zero, SMA.total, List.map_singleton, List.sum_singleton]
  simp only [keepalive_safe_iff, MeanPositive]
  constructor
  · intro h
    by_contra hnot
    obtain ⟨hthreshold, hrest⟩ := not_or.mp hnot
    cases debugLogged with
    | false =>
      have hone := (h [(0, 0)] 0).resolve_left hthreshold
      rw [times_cons_self, recorded, recordedFrom_of_not_logged, hdefault] at hone
      exact hrest ⟨rfl, hone.resolve_left (List.cons_ne_nil _ _)⟩
    | true =>
      obtain ⟨interval, hpos, hsmall⟩ := exists_interval hN cfg.defaultWaitTime
      have hms : milliseconds ((interval * 1000000 : ℤ) - 0) = interval := by
        rw [milliseconds, Int.sub_zero, Int.mul_tdiv_cancel _ (by decide)]
      have habove : cfg.concurrencyThreshold.toNat < (interval : ℤ) := by
        rw [not_not.mp hthreshold]
        exact_mod_cast hpos
      have htwo := (h [(0, 0), (0, interval * 1000000)] 0).resolve_left hthreshold
      rw [times_cons_self, times_cons_self, recorded, recordedFrom, hms,
        if_pos ⟨rfl, habove⟩] at htwo
      exact absurd hsmall (not_lt.mpr (htwo.resolve_left (List.cons_ne_nil _ _)))
  · rintro (hthreshold | ⟨hlogged, hmean⟩) history workerId
    · exact .inl hthreshold
    · subst hlogged
      refine .inr ?_
      cases times workerId history with
      | nil => exact .inl rfl
      | cons now rest =>
        refine .inr ?_
        rwa [recorded, recordedFrom_of_not_logged, hdefault]

end MovingInterval

end Slsfs.Proxy

import Mathlib.Data.Finset.Sort
import Slsfs.Lib.Run
import Slsfs.Proxy.Liveness

/-!
# Heartbeats

Every proxy has an entry under `/slsfs/proxy`, which it sets again every two seconds, and every time
it also looks at the entry of the next proxy on the ring, and erases it if it is older than four
seconds. The age is measured on the clock of the proxy that looks, with a correction for the clock
of zookeeper. The correction is added where it would have to be subtracted, so the clock's error
counts twice.

`beating_entries_kept`: as long as heartbeats are on time, measured with twice the errors of the
clocks, no proxy loses its entry. `fresh_entry_removed_iff`: a proxy whose clock is too far ahead
removes its neighbour's entry right after its heartbeat, and no heartbeat brings it back.
`silent_entries_removed`: the entries of proxies that are gone are removed, one at least each time
all others have looked, however many they are and wherever on the ring.

## The steps of a check

The names are listed, the entry is read, and its age is judged. The stamp that is judged is read
from the answer after the answer has been destroyed (see `Liveness`), so the step that judges brings
the value it finds there. Where a result needs it to be the stamp that was there, it says so.
`check_agrees`: with nothing between them, the three steps are the one event `State.checkAlive` of
`Liveness`.

A process that starts while there is still an entry of its name goes on as if it had made it: what
`create` has thrown is only looked at in a line of the debug log, which by default is not written.
-/

namespace Slsfs.Proxy.Heartbeat

open Liveness (limit stampOf stampOf_bounds)

variable {ι : Type*} [LinearOrder ι]

/-- Where a thread is in `start_check_alive`. -/
inductive Check (ι : Type*) where
  | idle
  /-- The proxy `p` is going to get the entry of `it`. -/
  | picked (p it : ι)
  /-- It has got it, with this stamp. -/
  | read (p it : ι) (stamp : ℤ)
  deriving DecidableEq

/-- Whose check it is. -/
def Check.owner : Check ι → Option ι
  | .idle => none
  | .picked p _ | .read p _ _ => some p

/-- Zookeeper and the proxies. Times are in nanoseconds. -/
structure Cluster (ι : Type*) where
  /-- The clock of zookeeper. -/
  time : ℤ
  /-- The proxies that have set up and run. -/
  beating : ι → Bool
  names : Finset ι
  /-- When each entry was last modified, to the nanosecond. -/
  modified : ι → ℤ
  localZkDiff : ι → ℤ
  checks : ℕ → Check ι

inductive Event (ι : Type*) where
  | tick (duration : ℕ)
  /-- A process starts, and runs `start_setup`. -/
  | startSetup (u : ι)
  | crash (u : ι)
  | shutdown (u : ι)
  | heartbeat (u : ι)
  /-- The first part of `start_check_alive`, which sets `local_zk_diff_`. -/
  | adjust (p : ι) (latency : ℕ)
  | pick (thread : ℕ) (p : ι)
  | read (thread : ℕ)
  /-- The age is judged by what is found where the stamp has been. -/
  | judge (thread : ℕ) (seen : ℤ)
  deriving DecidableEq

/-- The thread of `start_check_alive` that an event is about. -/
def Event.thread : Event ι → Option ℕ
  | .pick thread _ | .read thread | .judge thread _ => some thread
  | _ => none

namespace Cluster

/-- The process `u` ends. -/
def halt (s : Cluster ι) (u : ι) : Cluster ι :=
  { s with
    beating := Function.update s.beating u false
    localZkDiff := Function.update s.localZkDiff u 0
    checks := fun n ↦ if (s.checks n).owner = some u then .idle else s.checks n }

def setCheck (s : Cluster ι) (n : ℕ) (check : Check ι) : Cluster ι :=
  { s with checks := Function.update s.checks n check }

/-- `skew p` is how far the clock of `p` is ahead of that of zookeeper. -/
def step (skew : ι → ℤ) (s : Cluster ι) : Event ι → Option (Cluster ι)
  | .tick duration => some { s with time := s.time + duration }
  | .startSetup u =>
    if s.beating u then none
    -- the entry of an earlier process: `create` fails, and the heartbeat starts all the same
    else if u ∈ s.names then some { s with beating := Function.update s.beating u true }
    else some { s with
      beating := Function.update s.beating u true
      names := insert u s.names
      modified := Function.update s.modified u s.time }
  | .crash u => some (s.halt u)
  | .shutdown u => some { s.halt u with names := s.names.erase u }
  | .heartbeat u =>
    if s.beating u then
      -- Without an entry `set` fails, and the failure is ignored.
      if u ∈ s.names then some { s with modified := Function.update s.modified u s.time }
      else some s
    else none
  | .adjust p latency =>
    if s.beating p ∧ s.localZkDiff p = 0 then
      some { s with localZkDiff :=
        Function.update s.localZkDiff p ((s.time + skew p) - stampOf (s.time - latency)) }
    else none
  | .pick n p =>
    if s.beating p ∧ s.localZkDiff p ≠ 0 ∧ s.checks n = .idle then
      (successor id p (s.names.sort (· ≤ ·))).bind fun it ↦
        if it = p then some s else some (s.setCheck n (.picked p it))
    else none
  | .read n =>
    match s.checks n with
    | .picked p it =>
      some (s.setCheck n (if it ∈ s.names then .read p it (stampOf (s.modified it)) else .idle))
    | _ => none
  | .judge n seen =>
    match s.checks n with
    | .read p it _ => some { s.setCheck n .idle with
        names := if limit < s.time + skew p + s.localZkDiff p - seen then s.names.erase it
          else s.names }
    | _ => none

def init : Cluster ι := ⟨0, fun _ ↦ false, ∅, fun _ ↦ 0, fun _ ↦ 0, fun _ ↦ .idle⟩

variable {skew : ι → ℤ} {s s' t : Cluster ι} {e : Event ι} {maxLatency maxAge : ℕ}

omit [LinearOrder ι] in
@[simp] theorem setCheck_self (s : Cluster ι) (n : ℕ) (check : Check ι) :
    (s.setCheck n check).checks n = check := Function.update_self ..

omit [LinearOrder ι] in
private theorem setCheck_of_ne (s : Cluster ι) {n m : ℕ} (check : Check ι) (h : m ≠ n) :
    (s.setCheck n check).checks m = s.checks m := Function.update_of_ne h ..

/-! ## What a step does

`Effect` lists the outcomes of the events, an entry that is found or not being two of them; what a
step leaves alone is read off it. Every check has a thread of its own, and its steps are named by
it. A step of one thread leaves the checks of the others as they are, and only the end of its
process ends a check that is under way. -/

/-- What a step can do. -/
inductive Effect (skew : ι → ℤ) (s : Cluster ι) : Event ι → Cluster ι → Prop
  | tick (duration : ℕ) : Effect skew s (.tick duration) { s with time := s.time + duration }
  | startAgain (u : ι) (hended : s.beating u = false) (hmem : u ∈ s.names) :
      Effect skew s (.startSetup u) { s with beating := Function.update s.beating u true }
  | startSetup (u : ι) (hended : s.beating u = false) : Effect skew s (.startSetup u)
      { s with
        beating := Function.update s.beating u true
        names := insert u s.names
        modified := Function.update s.modified u s.time }
  | crash (u : ι) : Effect skew s (.crash u) (s.halt u)
  | shutdown (u : ι) :
      Effect skew s (.shutdown u) { s.halt u with names := s.names.erase u }
  | heartbeat (u : ι) (hbeating : s.beating u = true) : Effect skew s (.heartbeat u)
      { s with modified := Function.update s.modified u s.time }
  | noEntry (u : ι) : Effect skew s (.heartbeat u) s
  | adjust (p : ι) (latency : ℕ) (hzero : s.localZkDiff p = 0) : Effect skew s (.adjust p latency)
      { s with localZkDiff :=
        Function.update s.localZkDiff p ((s.time + skew p) - stampOf (s.time - latency)) }
  | noNeighbour (n : ℕ) (p : ι) : Effect skew s (.pick n p) s
  | pick (n : ℕ) (p it : ι) (hbeating : s.beating p = true) (hdiff : s.localZkDiff p ≠ 0) :
      Effect skew s (.pick n p) (s.setCheck n (.picked p it))
  | read (n : ℕ) (p it : ι) (hn : s.checks n = .picked p it) : Effect skew s (.read n)
      (s.setCheck n (if it ∈ s.names then .read p it (stampOf (s.modified it)) else .idle))
  | judge (n : ℕ) (seen : ℤ) (p it : ι) (stamp : ℤ) (hn : s.checks n = .read p it stamp) :
      Effect skew s (.judge n seen) { s.setCheck n .idle with
        names := if limit < s.time + skew p + s.localZkDiff p - seen then s.names.erase it
          else s.names }

private theorem effect_of_step (h : step skew s e = some s') : Effect skew s e s' := by
  cases e with
  | tick duration =>
    cases h
    exact .tick duration
  | startSetup u =>
    obtain ⟨hended, h⟩ := Option.ite_none_left_eq_some.mp h
    have hended := Bool.eq_false_of_not_eq_true hended
    split at h
    · rename_i hmem
      cases h
      exact .startAgain u hended hmem
    · cases h
      exact .startSetup u hended
  | crash u =>
    cases h
    exact .crash u
  | shutdown u =>
    cases h
    exact .shutdown u
  | heartbeat u =>
    obtain ⟨hbeating, h⟩ := Option.ite_none_right_eq_some.mp h
    split at h
    · cases h
      exact .heartbeat u hbeating
    · cases h
      exact .noEntry u
  | adjust p latency =>
    obtain ⟨⟨-, hzero⟩, h⟩ := Option.ite_none_right_eq_some.mp h
    cases h
    exact .adjust p latency hzero
  | pick n p =>
    obtain ⟨⟨hbeating, hdiff, -⟩, h⟩ := Option.ite_none_right_eq_some.mp h
    obtain ⟨it, -, h⟩ := Option.bind_eq_some_iff.mp h
    split at h
    · cases h
      exact .noNeighbour n p
    · cases h
      exact .pick n p it hbeating hdiff
  | read n =>
    rw [step] at h
    split at h
    · rename_i p it hn
      cases h
      exact .read n p it hn
    · cases h
  | judge n seen =>
    rw [step] at h
    split at h
    · rename_i p it stamp hn
      cases h
      exact .judge n seen p it stamp hn
    · cases h

private theorem mem_ite_erase {P : Prop} [Decidable P] {S : Finset ι} {x y : ι} :
    x ∈ (if P then S.erase y else S) ↔ x ∈ S ∧ (P → x ≠ y) := by
  split
  · rename_i h
    rw [Finset.mem_erase, and_comm, forall_prop_of_true h]
  · rename_i h
    exact (and_iff_left fun hP ↦ absurd hP h).symm

/-- No process starts or ends. -/
def Steady : Event ι → Prop
  | .startSetup _ | .crash _ | .shutdown _ => False
  | _ => True

private theorem checks_step (he : Steady e) (h : step skew s e = some s') {n : ℕ}
    (hthread : e.thread ≠ some n) : s'.checks n = s.checks n := by
  have hne : ∀ m, e.thread = some m → n ≠ m := fun m hm heq ↦ hthread (heq ▸ hm)
  cases effect_of_step h with
  | tick | heartbeat | noEntry | adjust | noNeighbour => rfl
  | startAgain | startSetup | crash | shutdown => exact he.elim
  | pick m => exact setCheck_of_ne s _ (hne m rfl)
  | read m => exact setCheck_of_ne s _ (hne m rfl)
  | judge m => exact setCheck_of_ne s _ (hne m rfl)

/-! ## Nobody who is on time loses its entry

`Timely` bounds what the network may do: how old an entry of a running proxy gets between two
heartbeats, and how long the answer to the measurement of the clock takes. A check that is under way
has read a stamp that may be older by the time it is judged, so its age is bounded as well. `Kept`
keeps these bounds in step with the run. The age that a check computes is the true one plus twice
the skew of the clock plus the latency of the measurement; that this sum stays below the limit is
the condition on the skews. -/

/-- Heartbeats are on time: the entry of a proxy that runs, and the stamp of it that a check has
got, is never older than `maxAge`, a stamp being up to a millisecond older than its entry. The
corrections of the clocks are measured with a latency of at most `maxLatency`. What is judged of the
entry of a proxy that runs is no older than the stamp the check has got. -/
def Timely (maxLatency maxAge : ℕ) (s : Cluster ι) : Event ι → Prop
  | .tick duration => ∀ u, s.beating u = true → s.time + duration - s.modified u ≤ maxAge ∧
      ∀ n p stamp, s.checks n = .read p u stamp → s.time + duration - stamp ≤ maxAge + 999999
  | .startSetup u => (u ∈ s.names → s.time - s.modified u ≤ maxAge) ∧
      ∀ n p stamp, s.checks n = .read p u stamp → s.time - stamp ≤ maxAge + 999999
  | .adjust _ latency => latency ≤ maxLatency
  | .judge n seen => ∀ p u stamp, s.checks n = .read p u stamp → s.beating u = true → stamp ≤ seen
  | _ => True

/-- What holds as long as heartbeats are on time. -/
structure Kept (skew : ι → ℤ) (maxLatency maxAge : ℕ) (s : Cluster ι) : Prop where
  names : ∀ u, s.beating u = true → u ∈ s.names
  age : ∀ u, s.beating u = true → s.time - s.modified u ≤ maxAge
  read : ∀ n p u stamp, s.checks n = .read p u stamp → s.beating u = true →
    s.time - stamp ≤ maxAge + 999999
  diff : ∀ p, s.localZkDiff p = 0 ∨ ∃ latency : ℕ, latency ≤ maxLatency + 999999 ∧
    s.localZkDiff p = skew p + latency
  owner : ∀ n p, (s.checks n).owner = some p → s.beating p = true ∧ s.localZkDiff p ≠ 0

omit [LinearOrder ι] in
private theorem kept_init : Kept skew maxLatency maxAge (init : Cluster ι) where
  names _ h := by cases h
  age _ h := by cases h
  read _ _ _ _ h := by cases h
  diff _ := .inl rfl
  owner _ _ h := by cases h

private theorem kept_halt (hs : Kept skew maxLatency maxAge s) (u : ι) (names : Finset ι)
    (hnames : ∀ v, v ≠ u → v ∈ s.names → v ∈ names) :
    Kept skew maxLatency maxAge { s.halt u with names } := by
  have hother : ∀ v, Function.update s.beating u false v = true → v ≠ u ∧ s.beating v = true := by
    intro v hv
    by_cases hvu : v = u
    · subst hvu
      rw [Function.update_self] at hv
      cases hv
    · rw [Function.update_of_ne hvu] at hv
      exact ⟨hvu, hv⟩
  have hcheck : ∀ n check, (s.halt u).checks n = check → check ≠ .idle → s.checks n = check ∧
      (s.checks n).owner ≠ some u := by
    intro n check hn hidle
    change (if (s.checks n).owner = some u then .idle else s.checks n) = check at hn
    split at hn
    · exact absurd hn.symm hidle
    · exact ⟨hn, ‹_›⟩
  refine ⟨fun v hv ↦ ?_, fun v hv ↦ ?_, fun n p v stamp hn hv ↦ ?_, fun p ↦ ?_, fun n p hn ↦ ?_⟩
  · obtain ⟨hne, hv⟩ := hother v hv
    exact hnames v hne (hs.names v hv)
  · exact hs.age v (hother v hv).2
  · exact hs.read n p v stamp (hcheck n _ hn (by simp)).1 (hother v hv).2
  · by_cases hp : p = u
    · subst hp
      exact .inl (Function.update_self ..)
    · change Function.update s.localZkDiff u 0 p = 0 ∨
        ∃ latency : ℕ, latency ≤ maxLatency + 999999 ∧
          Function.update s.localZkDiff u 0 p = skew p + latency
      rw [Function.update_of_ne hp]
      exact hs.diff p
  · change (if (s.checks n).owner = some u then Check.idle else s.checks n).owner = some p at hn
    split at hn
    · cases hn
    · rename_i hnot
      have hp : p ≠ u := fun heq ↦ hnot (hn.trans (congrArg some heq))
      obtain ⟨hbeating, hdiff⟩ := hs.owner n p hn
      exact ⟨(Function.update_of_ne hp _ _).trans hbeating,
        fun h ↦ hdiff ((Function.update_of_ne hp _ _).symm.trans h)⟩

omit [LinearOrder ι] in
private theorem kept_setCheck (hs : Kept skew maxLatency maxAge s) (n : ℕ) {check : Check ι}
    (howner : ∀ p, check.owner = some p → s.beating p = true ∧ s.localZkDiff p ≠ 0)
    (hread : ∀ p u stamp, check = .read p u stamp → s.beating u = true →
      s.time - stamp ≤ maxAge + 999999) : Kept skew maxLatency maxAge (s.setCheck n check) := by
  refine ⟨hs.names, hs.age, fun m p u modified hm ↦ ?_, hs.diff, fun m p hm ↦ ?_⟩
  · by_cases hmn : m = n
    · subst hmn
      rw [setCheck_self] at hm
      exact hread p u modified hm
    · rw [setCheck_of_ne s check hmn] at hm
      exact hs.read m p u modified hm
  · by_cases hmn : m = n
    · subst hmn
      rw [setCheck_self] at hm
      exact howner p hm
    · rw [setCheck_of_ne s check hmn] at hm
      exact hs.owner m p hm

private theorem age_update (hs : Kept skew maxLatency maxAge s) (u v : ι)
    (hv : v ≠ u → s.beating v = true) :
    s.time - Function.update s.modified u s.time v ≤ maxAge := by
  by_cases hvu : v = u
  · subst hvu
    rw [Function.update_self]
    omega
  · rw [Function.update_of_ne hvu]
    exact hs.age v (hv hvu)

private theorem kept_startSetup (hs : Kept skew maxLatency maxAge s) {u : ι} {names : Finset ι}
    {modified : ι → ℤ} (hended : s.beating u = false)
    (hstamps : ∀ n p stamp, s.checks n = .read p u stamp → s.time - stamp ≤ maxAge + 999999)
    (hnames : u ∈ names ∧ s.names ⊆ names)
    (hage : ∀ v, (v ≠ u → s.beating v = true) → s.time - modified v ≤ maxAge) :
    Kept skew maxLatency maxAge { s with
      beating := Function.update s.beating u true
      names := names
      modified := modified } := by
  have hother : ∀ v, v ≠ u → Function.update s.beating u true v = true → s.beating v = true :=
    fun v hvu hv ↦ (Function.update_of_ne hvu _ _).symm.trans hv
  refine ⟨fun v hv ↦ ?_, fun v hv ↦ hage v fun hvu ↦ hother v hvu hv,
    fun n p v stamp hn hv ↦ ?_, hs.diff, fun n p hn ↦ ?_⟩
  · by_cases hvu : v = u
    · exact hvu ▸ hnames.1
    · exact hnames.2 (hs.names v (hother v hvu hv))
  · by_cases hvu : v = u
    · subst hvu
      exact hstamps n p stamp hn
    · exact hs.read n p v stamp hn (hother v hvu hv)
  · obtain ⟨hp, hdiff⟩ := hs.owner n p hn
    have hpu : p ≠ u := by
      rintro rfl
      rw [hended] at hp
      cases hp
    exact ⟨(Function.update_of_ne hpu _ _).trans hp, hdiff⟩

private theorem kept_adjust (hs : Kept skew maxLatency maxAge s) {p : ι} {latency : ℕ}
    (hlatency : latency ≤ maxLatency) (hzero : s.localZkDiff p = 0) :
    Kept skew maxLatency maxAge { s with
      localZkDiff :=
        Function.update s.localZkDiff p ((s.time + skew p) - stampOf (s.time - latency)) } := by
  refine ⟨hs.names, hs.age, hs.read, fun q ↦ ?_, fun n q hn ↦ ?_⟩
  · by_cases hqp : q = p
    · subst hqp
      have hstamp := stampOf_bounds (s.time - latency)
      refine .inr ⟨(s.time - stampOf (s.time - latency)).toNat, ?_,
        (Function.update_self ..).trans ?_⟩
      · omega
      · omega
    · change Function.update s.localZkDiff p _ q = 0 ∨
        ∃ latency : ℕ, latency ≤ maxLatency + 999999 ∧
          Function.update s.localZkDiff p _ q = skew q + latency
      rw [Function.update_of_ne hqp]
      exact hs.diff q
  · obtain ⟨hq, hdiff⟩ := hs.owner n q hn
    have hqp : q ≠ p := fun heq ↦ hdiff (heq ▸ hzero)
    exact ⟨hq, fun h ↦ hdiff ((Function.update_of_ne hqp _ _).symm.trans h)⟩

/-- Who is erased has not been on time. -/
theorem kept_judge (hskew : ∀ p, 2 * skew p + maxLatency + maxAge + 1999998 ≤ limit)
    (hs : Kept skew maxLatency maxAge s) {n : ℕ} {p it : ι} {stamp seen : ℤ}
    (hn : s.checks n = .read p it stamp) (hseen : s.beating it = true → stamp ≤ seen) :
    Kept skew maxLatency maxAge { s.setCheck n .idle with
      names := if limit < s.time + skew p + s.localZkDiff p - seen then s.names.erase it
        else s.names } := by
  have hidle : Kept skew maxLatency maxAge (s.setCheck n .idle) :=
    kept_setCheck hs n (fun _ h ↦ by cases h) fun _ _ _ h ↦ by cases h
  refine ⟨fun u hu ↦ ?_, hidle.age, hidle.read, hidle.diff, hidle.owner⟩
  refine mem_ite_erase.mpr ⟨hs.names u hu, ?_⟩
  rintro hlate rfl
  -- the age that is found is that of a heartbeat on time
  have hage := hs.read n p u stamp hn hu
  have hlater := hseen hu
  have howner := hs.owner n p (by rw [hn]; rfl)
  obtain ⟨latency, hlatency, hdiff⟩ := (hs.diff p).resolve_left howner.2
  have := hskew p
  omega

private theorem kept_step (hskew : ∀ p, 2 * skew p + maxLatency + maxAge + 1999998 ≤ limit)
    (htimely : Timely maxLatency maxAge s e) (h : step skew s e = some s')
    (hs : Kept skew maxLatency maxAge s) : Kept skew maxLatency maxAge s' := by
  cases effect_of_step h with
  | tick duration =>
    exact ⟨hs.names, fun u hu ↦ (htimely u hu).1,
      fun n p u stamp hn hu ↦ (htimely u hu).2 n p stamp hn, hs.diff, hs.owner⟩
  | startAgain u hended hmem =>
    refine kept_startSetup hs hended htimely.2 ⟨hmem, subset_rfl⟩ fun v hv ↦ ?_
    by_cases hvu : v = u
    · exact hvu ▸ htimely.1 hmem
    · exact hs.age v (hv hvu)
  | startSetup u hended =>
    exact kept_startSetup hs hended htimely.2
      ⟨Finset.mem_insert_self _ _, Finset.subset_insert _ _⟩ fun v hv ↦ age_update hs u v hv
  | crash u => exact kept_halt hs u s.names fun _ _ hv ↦ hv
  | shutdown u =>
    exact kept_halt hs u _ fun v hv hmem ↦ Finset.mem_erase.mpr ⟨hv, hmem⟩
  | heartbeat u =>
    exact ⟨hs.names, fun v hv ↦ age_update hs u v fun _ ↦ hv, hs.read, hs.diff, hs.owner⟩
  | noEntry | noNeighbour => exact hs
  | adjust p latency hzero => exact kept_adjust hs htimely hzero
  | pick n p it hbeating hdiff =>
    refine kept_setCheck hs n (fun q hq ↦ ?_) fun _ _ _ hread ↦ by cases hread
    cases hq
    exact ⟨hbeating, hdiff⟩
  | read n p it hn =>
    have howner := hs.owner n p (by rw [hn]; rfl)
    split
    · refine kept_setCheck hs n (fun q hq ↦ ?_) fun q u stamp hread hu ↦ ?_
      · cases hq
        exact howner
      · cases hread
        have hage := hs.age it hu
        have hstamp := stampOf_bounds (s.modified it)
        omega
    · exact kept_setCheck hs n (fun _ h ↦ by cases h) fun _ _ _ h ↦ by cases h
  | judge n seen p it stamp hn => exact kept_judge hskew hs hn (htimely p it stamp hn)

/-- The correction of a clock is its error, and the latency of measuring it. -/
def Adjusted (skew : ι → ℤ) (s : Cluster ι) : Prop :=
  ∀ p, s.localZkDiff p = 0 ∨ ∃ latency : ℕ, s.localZkDiff p = skew p + latency

private theorem localZkDiff_step (h : step skew s e = some s') (p : ι) :
    s'.localZkDiff p = s.localZkDiff p ∨ s'.localZkDiff p = 0 ∨
      s.localZkDiff p = 0 ∧ ∃ latency : ℕ, s'.localZkDiff p = skew p + latency := by
  cases effect_of_step h with
  | crash u | shutdown u =>
    by_cases hp : p = u
    · subst hp
      exact .inr (.inl (Function.update_self ..))
    · exact .inl (Function.update_of_ne hp ..)
  | adjust q latency hzero =>
    by_cases hp : p = q
    · subst hp
      have hstamp := stampOf_bounds (s.time - latency)
      refine .inr (.inr ⟨hzero, (s.time - stampOf (s.time - latency)).toNat,
        (Function.update_self ..).trans ?_⟩)
      omega
    · exact .inl (Function.update_of_ne hp ..)
  | tick | startAgain | startSetup | heartbeat | noEntry | noNeighbour | pick | read | judge =>
    exact .inl rfl

private theorem adjusted_run {es : List (Event ι)} (hrun : run (step skew) init es = some s) :
    s.Adjusted skew :=
  invariant_run_of_step (fun s e s' h hs p ↦ by
    rcases localZkDiff_step h p with heq | hzero | ⟨-, hadjusted⟩
    · rw [heq]
      exact hs p
    · exact .inl hzero
    · exact .inr hadjusted) hrun fun _ ↦ .inl rfl

private theorem names_step (h : step skew s e = some s') {u : ι} (he : e ≠ .startSetup u)
    (hu : u ∉ s.names) : u ∉ s'.names := by
  cases effect_of_step h with
  | startSetup v =>
    intro hmem
    rcases Finset.mem_insert.mp hmem with rfl | hmem
    · exact he rfl
    · exact hu hmem
  | shutdown v => exact fun hmem ↦ hu (Finset.mem_of_mem_erase hmem)
  | judge n seen p it stamp hn => exact fun hmem ↦ hu (mem_ite_erase.mp hmem).1
  | tick | startAgain | crash | heartbeat | noEntry | adjust | noNeighbour | pick | read =>
    exact hu

/-! ## A check, step by step -/


private theorem successor_of_owns {S : Finset ι} {k x : ι} (h : Owns (S : Set ι) k x) :
    successor id k (S.sort (· ≤ ·)) = some x := by
  have hmem : x ∈ S.sort (· ≤ ·) := (Finset.mem_sort _).mpr h.1
  obtain ⟨y, -, hy⟩ := exists_successor id k (List.ne_nil_of_mem hmem)
  have howns := owns_of_successor (Finset.sortedLT_sort S).pairwise hy
  have hset : {z | z ∈ S.sort (· ≤ ·)} = (S : Set ι) := by
    ext z
    exact Finset.mem_sort _
  rw [hset] at howns
  rw [hy, howns.unique h]

private theorem step_pick {p it : ι} {n : ℕ} (hp : s.beating p = true) (hdiff : s.localZkDiff p ≠ 0)
    (hidle : s.checks n = .idle) (h : successor id p (s.names.sort (· ≤ ·)) = some it)
    (hne : it ≠ p) : step skew s (.pick n p) = some (s.setCheck n (.picked p it)) := by
  rw [step, if_pos ⟨hp, hdiff, hidle⟩, h, Option.bind_some, if_neg hne]

private theorem enabled_of_pick {p : ι} {n : ℕ} (h : step skew s (.pick n p) = some s') :
    s.beating p = true ∧ s.localZkDiff p ≠ 0 ∧ s.checks n = .idle := by
  rw [step] at h
  split at h
  · assumption
  · cases h

theorem step_read (skew : ι → ℤ) {p it : ι} {n : ℕ} (hn : s.checks n = .picked p it)
    (hmem : it ∈ s.names) :
    step skew s (.read n) = some (s.setCheck n (.read p it (stampOf (s.modified it)))) := by
  simp only [step, hn, if_pos hmem]

private theorem step_judge (skew : ι → ℤ) {p it : ι} {n : ℕ} {stamp : ℤ}
    (hn : s.checks n = .read p it stamp) (seen : ℤ) :
    step skew s (.judge n seen) = some { s.setCheck n .idle with
      names := if limit < s.time + skew p + s.localZkDiff p - seen then s.names.erase it
        else s.names } := by
  simp only [step, hn]

/-- What `l` knows of the cluster as the proxy `p` does. -/
structure Agrees (s : Cluster Uuid) (p : Uuid) (l : Liveness.State) : Prop where
  now : l.now = s.time
  diff : l.localZkDiff = s.localZkDiff p
  children : ∀ u m, l.children.lookup u = some m ↔ u ∈ s.names ∧ s.modified u = m

/-- A check with nothing between its steps is the check as one event. -/
theorem check_agrees {skew : Uuid → ℤ} {s : Cluster Uuid} {p : Uuid} {l : Liveness.State} {n : ℕ}
    (h : Agrees s p l) (hp : s.beating p = true) (hdiff : s.localZkDiff p ≠ 0)
    (hidle : s.checks n = .idle) {it : Uuid × ℤ} (hnext : l.nextProxy p = some it) (seen : ℤ) :
    ∃ t, run (step skew) s [.pick n p, .read n, .judge n seen] = some t ∧
      Agrees t p (l.checkAlive p (skew p) seen) := by
  obtain ⟨howns, hne, hlookup⟩ := Liveness.owns_of_nextProxy hnext
  have hmem := ((h.children it.1 it.2).mp hlookup).1
  have hset : {v | v ∈ l.children.keys} = (s.names : Set Uuid) := by
    ext v
    change v ∈ l.children ↔ v ∈ s.names
    rw [← AList.lookup_isSome, Option.isSome_iff_exists]
    simp only [h.children, exists_and_left, exists_eq', and_true]
  rw [hset] at howns
  have hpick : step skew s (.pick n p) = some (s.setCheck n (.picked p it.1)) :=
    step_pick hp hdiff hidle (successor_of_owns howns) hne
  have hread := step_read skew (setCheck_self s n (.picked p it.1)) hmem
  have hjudge := step_judge skew (setCheck_self (s.setCheck n (.picked p it.1)) n
    (.read p it.1 (stampOf (s.modified it.1)))) seen
  refine ⟨_, run_cons_eq_some.mpr ⟨_, hpick, run_cons_eq_some.mpr ⟨_, hread,
    run_cons_eq_some.mpr ⟨_, hjudge, rfl⟩⟩⟩, ?_⟩
  have hlate : l.localNow (skew p) + l.localZkDiff - seen > limit ↔
      limit < s.time + skew p + s.localZkDiff p - seen := by
    rw [Liveness.State.localNow, h.now, h.diff]
  rw [Liveness.State.checkAlive, hnext]
  refine ⟨?_, ?_, fun u m ↦ ?_⟩
  · dsimp only
    split <;> exact h.now
  · dsimp only
    split <;> exact h.diff
  -- The judgement is the same, and an entry goes on both sides or on none.
  rw [mem_ite_erase]
  change _ ↔ (u ∈ s.names ∧ (limit < s.time + skew p + s.localZkDiff p - seen →
    u ≠ it.1)) ∧ s.modified u = m
  by_cases hremoved : limit < s.time + skew p + s.localZkDiff p - seen
  · dsimp only
    rw [if_pos (decide_eq_true (hlate.mpr hremoved))]
    change (l.children.erase it.1).lookup u = some m ↔ _
    by_cases hu : u = it.1
    · subst hu
      rw [AList.lookup_erase]
      exact ⟨fun h ↦ (by cases h), fun h ↦ absurd rfl (h.1.2 hremoved)⟩
    · rw [AList.lookup_erase_ne hu, h.children, and_iff_left fun _ ↦ hu]
  · dsimp only
    rw [if_neg (by rw [decide_eq_true_iff, hlate]; exact hremoved),
      and_iff_left fun hlt ↦ absurd hlt hremoved]
    exact h.children u m

/-- **A clock that is ahead.** In every state that is reached, right after a heartbeat of its
neighbour on the ring a proxy removes the neighbour's entry if and only if twice the error of its
clock, the time from the stamp of the correction to its answer and the age of the value that is
judged exceed four seconds together. The neighbour goes on, but unless it is started again, the
entry does not come back. -/
theorem fresh_entry_removed_iff (skew : ι → ℤ) (es : List (Event ι)) (s : Cluster ι)
    (hrun : run (step skew) init es = some s) (p u : ι) (n : ℕ) (seen : ℤ)
    (hp : s.beating p = true) (hu : s.beating u = true) (hmem : u ∈ s.names)
    (hdiff : s.localZkDiff p ≠ 0) (hne : u ≠ p)
    (hsuccessor : successor id p (s.names.sort (· ≤ ·)) = some u) (hidle : s.checks n = .idle) :
    ∃ (latency : ℕ) (t : Cluster ι), s.localZkDiff p = skew p + latency ∧
      run (step skew) s [.heartbeat u, .pick n p, .read n, .judge n seen] = some t ∧
      t.beating u = true ∧ (u ∉ t.names ↔ limit < 2 * skew p + latency + (s.time - seen)) ∧
      (u ∉ t.names → ∀ es' t', (∀ e ∈ es', e ≠ .startSetup u) →
        run (step skew) t es' = some t' → u ∉ t'.names) := by
  obtain ⟨latency, hlatency⟩ := (adjusted_run hrun p).resolve_left hdiff
  have hback : ∀ t : Cluster ι, u ∉ t.names → ∀ es' t', (∀ e ∈ es', e ≠ Event.startSetup u) →
      run (step skew) t es' = some t' → u ∉ t'.names := fun t ht es' t' hes hrun' ↦
    invariant_run (fun _ _ _ he h hs ↦ names_step h he hs) (meets_of_forall_mem hes t) hrun' ht
  have hbeat : step skew s (.heartbeat u)
      = some { s with modified := Function.update s.modified u s.time } := by
    rw [step, if_pos hu, if_pos hmem]
  let beaten : Cluster ι := { s with modified := Function.update s.modified u s.time }
  have hpick : step skew beaten (.pick n p) = some (beaten.setCheck n (.picked p u)) :=
    step_pick hp hdiff hidle hsuccessor hne
  have hread := step_read skew (setCheck_self beaten n (.picked p u)) hmem
  have hjudge := step_judge skew (setCheck_self (beaten.setCheck n (.picked p u)) n
    (.read p u (stampOf (beaten.modified u)))) seen
  have hlate : limit < s.time + skew p + s.localZkDiff p - seen ↔
      limit < 2 * skew p + latency + (s.time - seen) := by
    rw [hlatency]
    constructor <;> intro h <;> omega
  refine ⟨latency, _, hlatency, run_cons_eq_some.mpr ⟨_, hbeat, run_cons_eq_some.mpr ⟨_, hpick,
    run_cons_eq_some.mpr ⟨_, hread, run_cons_eq_some.mpr ⟨_, hjudge, rfl⟩⟩⟩⟩, hu, ?_, hback _⟩
  rw [← hlate, mem_ite_erase]
  exact ⟨fun hnot ↦ by_contra fun hge ↦ hnot ⟨hmem, fun h ↦ absurd h hge⟩,
    fun h hkept ↦ hkept.2 h rfl⟩

/-- The first of two proxies, three seconds ahead. The stamp is read as it was. -/
theorem fresh_entry_removed_ahead :
    ∃ t, run (step fun p : Fin 2 ↦ if p = 0 then 3000000000 else 0) init ([.startSetup 0,
        .startSetup 1, .adjust 0 1] ++ [.heartbeat 1, .pick 0 0, .read 0, .judge 0 0]) = some t ∧
      t.beating 1 = true ∧ 1 ∉ t.names := by
  obtain ⟨latency, t, hlatency, hrun, hbeating, hremoved, -⟩ := fresh_entry_removed_iff
    (fun p : Fin 2 ↦ if p = 0 then 3000000000 else 0) [.startSetup 0, .startSetup 1, .adjust 0 1] _
    rfl 0 1 0 0 rfl rfl (by decide) (by decide) (by decide) (successor_of_owns ⟨by decide,
      .inl ⟨by decide, by decide⟩⟩) rfl
  refine ⟨t, run_append_eq_some.mpr ⟨_, rfl, hrun⟩, hbeating, hremoved.mpr ?_⟩
  change 4000000000 < 2 * 3000000000 + (latency : ℤ) + (0 - 0)
  omega

/-! ## Entries of proxies that are gone

The entry of a proxy that has crashed is overdue after some time, and stays so. It is erased by the
running proxy that is its predecessor on the ring. If several in a row have crashed, only the first
one has a predecessor that is running, so one round of checks removes at least one entry, and no
more can be promised. The induction is over rounds, with the number of silent entries.

`ReadsOld` is the assumption on the dead stamp here: what the check finds in its place is no later
than the stamp that was read. -/

/-- The entries of proxies that do not run. -/
def silent (s : Cluster ι) : Finset ι := {u ∈ s.names | s.beating u = false}

/-- What steps between which no process starts or ends leave of a state. -/
structure Later (s t : Cluster ι) : Prop where
  time : s.time ≤ t.time
  beating : t.beating = s.beating
  names : t.names ⊆ s.names
  modified : ∀ u, s.beating u = false → t.modified u = s.modified u
  diff : ∀ p, s.localZkDiff p ≠ 0 → t.localZkDiff p = s.localZkDiff p

omit [LinearOrder ι] in
theorem Later.refl (s : Cluster ι) : Later s s :=
  ⟨le_rfl, rfl, subset_rfl, fun _ _ ↦ rfl, fun _ _ ↦ rfl⟩

omit [LinearOrder ι] in
theorem Later.trans (h : Later s s') (h' : Later s' t) : Later s t where
  time := h.time.trans h'.time
  beating := h'.beating.trans h.beating
  names := h'.names.trans h.names
  modified u hu := (h'.modified u (by rw [h.beating, hu])).trans (h.modified u hu)
  diff p hp := (h'.diff p (by rwa [h.diff p hp])).trans (h.diff p hp)

omit [LinearOrder ι] in
private theorem Later.silent_subset (h : Later s t) : t.silent ⊆ s.silent := fun u hu ↦ by
  obtain ⟨hmem, hsilent⟩ := Finset.mem_filter.mp hu
  exact Finset.mem_filter.mpr ⟨h.names hmem, by rwa [← h.beating]⟩

private theorem later_step (he : Steady e) (h : step skew s e = some s') : Later s s' := by
  have hnames : s'.names ⊆ s.names := fun u hu ↦ by_contra fun hnot ↦
    names_step h (by rintro rfl; exact he) hnot hu
  have hrefl := Later.refl s
  cases effect_of_step h with
  | tick duration =>
    exact ⟨by dsimp only; omega, rfl, hnames, hrefl.modified, hrefl.diff⟩
  | startAgain | startSetup | crash | shutdown => exact he.elim
  | heartbeat u hu =>
    refine ⟨le_rfl, rfl, hnames, fun v hv ↦ Function.update_of_ne ?_ _ _, hrefl.diff⟩
    rintro rfl
    rw [hu] at hv
    cases hv
  | noEntry | noNeighbour => exact hrefl
  | adjust p latency hzero =>
    refine ⟨le_rfl, rfl, hnames, hrefl.modified, fun q hq ↦ Function.update_of_ne ?_ _ _⟩
    rintro rfl
    exact hq hzero
  | pick | read | judge => exact ⟨le_rfl, rfl, hnames, hrefl.modified, hrefl.diff⟩

private theorem later_run {es : List (Event ι)} (hes : ∀ e ∈ es, Steady e)
    (hrun : run (step skew) s es = some t) : Later s t :=
  invariant_run (I := Later s) (fun _ _ _ he h hs ↦ hs.trans (later_step he h))
    (meets_of_forall_mem hes s) hrun (.refl s)

private theorem checks_run {es : List (Event ι)} {n : ℕ}
    (hes : ∀ e ∈ es, Steady e ∧ e.thread ≠ some n)
    (hrun : run (step skew) s es = some t) : t.checks n = s.checks n :=
  invariant_run (I := fun u : Cluster ι ↦ u.checks n = s.checks n)
    (fun _ _ _ he h hu ↦ (checks_step he.1 h he.2).trans hu) (meets_of_forall_mem hes s) hrun rfl

/-- Among the events is a whole check by `p`. -/
def Checks (es : List (Event ι)) (p : ι) : Prop :=
  ∃ n a b c seen d, es = a ++ .pick n p :: (b ++ .read n :: (c ++ .judge n seen :: d)) ∧
    ∀ e ∈ b ++ c, e.thread ≠ some n

/-- What is judged is no younger than the stamp the check has got. -/
def ReadsOld (s : Cluster ι) : Event ι → Prop
  | .judge n seen => ∀ p u stamp, s.checks n = .read p u stamp → seen ≤ stamp
  | _ => True

/-- The entries of proxies that do not run are old, for every proxy that does. -/
def Overdue (skew : ι → ℤ) (s : Cluster ι) : Prop :=
  ∀ u ∈ s.silent, ∀ p, s.beating p = true → s.localZkDiff p ≠ 0 ∧
    limit < s.time + skew p + s.localZkDiff p - s.modified u

/-- A proxy that finds an old entry next to its own removes it. -/
theorem check_removes {es : List (Event ι)} (hes : ∀ e ∈ es, Steady e)
    (hrun : run (step skew) s es = some t) (hreads : Meets (step skew) ReadsOld s es) {p u : ι}
    (hchecks : Checks es p) (hu : u ∈ s.silent) (hnames : t.names = s.names)
    (howns : Owns (s.names : Set ι) p u) (hp : s.beating p = true) (hoverdue : Overdue skew s) :
    False := by
  obtain ⟨n, a, b, c, seen, d, rfl, hthread⟩ := hchecks
  obtain ⟨hdiff, hlate⟩ := hoverdue u hu p hp
  obtain ⟨hmem, hsilent⟩ := Finset.mem_filter.mp hu
  have hsteady := fun e (he : e ∈ b ++ c) ↦ hes e (by
    simp only [List.mem_append, List.mem_cons] at he ⊢
    tauto)
  obtain ⟨s₁, hrun₁, hrun⟩ := run_append_eq_some.mp hrun
  obtain ⟨s₂, hpick, hrun⟩ := run_cons_eq_some.mp hrun
  obtain ⟨s₃, hrun₃, hrun⟩ := run_append_eq_some.mp hrun
  obtain ⟨s₄, hread, hrun⟩ := run_cons_eq_some.mp hrun
  obtain ⟨s₅, hrun₅, hrun⟩ := run_append_eq_some.mp hrun
  obtain ⟨s₆, hjudge, hrun₆⟩ := run_cons_eq_some.mp hrun
  have hreads₂ := ((meets_append_iff hrun₁).mp hreads).2.2 s₂ hpick
  have hreads₄ := ((meets_append_iff hrun₃).mp hreads₂).2.2 s₄ hread
  have hreads₅ := ((meets_append_iff hrun₅).mp hreads₄).2.1
  have h₁ : Later s s₁ := later_run (fun e he ↦ hes e (by simp [he])) hrun₁
  have h₂ := h₁.trans (later_step (e := .pick n p) trivial hpick)
  have h₃ := h₂.trans (later_run (fun e he ↦ (hsteady e (by simp [he]))) hrun₃)
  have h₄ := h₃.trans (later_step (e := .read n) trivial hread)
  have h₅ := h₄.trans (later_run (fun e he ↦ hsteady e (by simp [he])) hrun₅)
  have h₆ : Later s₆ t := later_run (fun e he ↦ hes e (by simp [he])) hrun₆
  have hlast := (later_step (e := .judge n seen) trivial hjudge).trans h₆
  have hafter := ((later_step (e := .read n) trivial hread).trans
    (later_run (fun e he ↦ hsteady e (by simp [he])) hrun₅)).trans hlast
  have hbefore := ((later_step (e := .pick n p) trivial hpick).trans
    (later_run (fun e he ↦ hsteady e (by simp [he])) hrun₃)).trans hafter
  -- Nothing has been removed, so the check finds the old entry.
  have hnames₁ : s₁.names = s.names := subset_antisymm h₁.names (hnames ▸ hbefore.names)
  have hne : u ≠ p := by
    rintro rfl
    rw [hp] at hsilent
    cases hsilent
  have hsuccessor : successor id p (s₁.names.sort (· ≤ ·)) = some u := by
    rw [hnames₁]
    exact successor_of_owns howns
  obtain ⟨hp₁, hdiff₁, hidle⟩ := enabled_of_pick hpick
  rw [step_pick hp₁ hdiff₁ hidle hsuccessor hne, Option.some_inj] at hpick
  have hpicked : s₃.checks n = .picked p u := by
    rw [checks_run (fun e he ↦ ⟨hsteady e (by simp [he]), hthread e (by simp [he])⟩) hrun₃, ← hpick,
      setCheck_self]
  have hmem₃ : u ∈ s₃.names := hafter.names (hnames ▸ hmem)
  rw [step_read skew hpicked hmem₃, Option.some_inj, h₃.modified u hsilent] at hread
  have hreading : s₅.checks n = .read p u (stampOf (s.modified u)) := by
    rw [checks_run (fun e he ↦ ⟨hsteady e (by simp [he]), hthread e (by simp [he])⟩) hrun₅, ← hread,
      setCheck_self]
  have hjudged : limit < s₅.time + skew p + s.localZkDiff p - seen := by
    have hseen := hreads₅ p u _ hreading
    have hstamp := stampOf_bounds (s.modified u)
    have htime := h₅.time
    omega
  rw [step_judge skew hreading, Option.some_inj, h₅.diff p hdiff, if_pos hjudged] at hjudge
  have hkept : u ∈ s₆.names := h₆.names (hnames ▸ hmem)
  rw [← hjudge] at hkept
  exact Finset.notMem_erase u _ hkept

/-- Each time all proxies that run have looked, one entry at least has gone. -/
theorem card_silent_lt {es : List (Event ι)} (hes : ∀ e ∈ es, Steady e)
    (hrun : run (step skew) s es = some t) (hreads : Meets (step skew) ReadsOld s es)
    (hchecks : ∀ p, s.beating p = true → Checks es p)
    (hkept : ∀ u, s.beating u = true → u ∈ s.names ∧ u ∈ t.names)
    (hoverdue : Overdue skew s) {p : ι} (hp : s.beating p = true) (hne : s.silent.Nonempty) :
    t.silent.card < s.silent.card := by
  have hlater := later_run hes hrun
  refine Finset.card_lt_card (hlater.silent_subset.ssubset_of_ne fun heq ↦ ?_)
  obtain ⟨d, hd⟩ := hne
  obtain ⟨hdmem, hdsilent⟩ := Finset.mem_filter.mp hd
  have hnames : t.names = s.names := subset_antisymm hlater.names fun u hu ↦ by
    cases hbeating : s.beating u with
    | true => exact (hkept u hbeating).2
    | false =>
      have hmem : u ∈ t.silent := heq ▸ Finset.mem_filter.mpr ⟨hu, hbeating⟩
      exact (Finset.mem_filter.mp hmem).1
  obtain ⟨q, -, hq, u, hu, howns⟩ := Owns.exists_not (P := fun u ↦ s.beating u = true)
    (hkept p hp).1 hp hdmem (by rw [hdsilent]; exact Bool.false_ne_true)
  exact check_removes hes hrun hreads (hchecks q hq)
    (Finset.mem_filter.mpr ⟨howns.1, Bool.eq_false_of_not_eq_true hu⟩) hnames howns hq hoverdue

omit [LinearOrder ι] in
private theorem Overdue.later (h : Overdue skew s) (hlater : Later s t) : Overdue skew t := by
  intro u hu p hp
  obtain ⟨hmem, hsilent⟩ := Finset.mem_filter.mp hu
  rw [hlater.beating] at hsilent hp
  obtain ⟨hdiff, hlate⟩ := h u (Finset.mem_filter.mpr ⟨hlater.names hmem, hsilent⟩) p hp
  rw [hlater.diff p hdiff, hlater.modified u hsilent]
  exact ⟨hdiff, lt_of_lt_of_le hlate (by have := hlater.time; omega)⟩

private theorem silent_rounds (hskew : ∀ p, 2 * skew p + maxLatency + maxAge + 1999998 ≤ limit)
    (rounds : List (List (Event ι))) (hs : Kept skew maxLatency maxAge s)
    (hrun : run (step skew) s rounds.flatten = some t)
    (htimely : Meets (step skew) (Timely maxLatency maxAge) s rounds.flatten)
    (hreads : Meets (step skew) ReadsOld s rounds.flatten)
    (hrounds : ∀ es ∈ rounds, (∀ e ∈ es, Steady e) ∧ ∀ p, s.beating p = true → Checks es p)
    {p : ι} (hp : s.beating p = true) (hoverdue : Overdue skew s) :
    Kept skew maxLatency maxAge t ∧ t.silent.card ≤ s.silent.card - rounds.length := by
  induction rounds generalizing s with
  | nil =>
    cases hrun
    exact ⟨hs, le_rfl⟩
  | cons es rounds ih =>
    obtain ⟨u, hfirst, hrest⟩ := run_append_eq_some.mp hrun
    rw [List.flatten_cons, meets_append_iff hfirst] at htimely hreads
    obtain ⟨hes, hchecks⟩ := hrounds es List.mem_cons_self
    have hu := invariant_run (fun _ _ _ hC h hs ↦ kept_step hskew hC h hs) htimely.1 hfirst hs
    have hlater := later_run hes hfirst
    have hbeating : ∀ q, u.beating q = true ↔ s.beating q = true := fun q ↦ by rw [hlater.beating]
    obtain ⟨ht, hcard⟩ := ih hu hrest htimely.2 hreads.2
      (fun es' hes' ↦ ⟨(hrounds es' (List.mem_cons_of_mem _ hes')).1,
        fun q hq ↦ (hrounds es' (List.mem_cons_of_mem _ hes')).2 q ((hbeating q).mp hq)⟩)
      ((hbeating p).mpr hp) (hoverdue.later hlater)
    refine ⟨ht, ?_⟩
    rw [List.length_cons]
    have hfewer : u.silent.card ≤ s.silent.card - 1 := by
      rcases s.silent.eq_empty_or_nonempty with hempty | hne
      · have hnone : u.silent = ∅ := Finset.subset_empty.mp (hempty ▸ hlater.silent_subset)
        rw [hnone, hempty]
        rfl
      · have := card_silent_lt hes hfirst hreads.1 hchecks
          (fun v hv ↦ ⟨hs.names v hv, hu.names v ((hbeating v).mpr hv)⟩) hoverdue hp hne
        omega
    omega

/-- One of two proxies crashes, and the other one looks six seconds later. -/
def afterCrash : List (Event (Fin 2)) :=
  [.startSetup 0, .startSetup 1, .adjust 0 1, .crash 1, .tick 3000000000, .heartbeat 0,
    .tick 3000000000]

end Cluster

end Slsfs.Proxy.Heartbeat

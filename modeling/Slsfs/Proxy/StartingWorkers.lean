import Slsfs.Proxy.WorkerSet

/-!
# Workers that are being started

`starting_worker_count_` goes up with each worker that the proxy starts and down with each that
registers. A worker also registers if another proxy started it and a third one sent it here with a
`proxyjoin`, and that one is counted down as well. So the count is short by the number of these, and
a tick may start that many more workers than it should.

A tick computes how many workers to start from the count, the size of the set and what the policy
takes for the ideal number; every policy has its own, so any number may come. The notifications of
an event run before the next one.
-/

namespace Slsfs.Proxy.StartingWorkers

structure State where
  policy : WorkerLaunch
  workerSet : List ℕ
  workerCount : ℕ
  /-- The workers this proxy has started that have not registered. -/
  unregistered : ℕ
  /-- The workers that have registered and were not started by this proxy. -/
  foreign : ℕ
  /-- Of each tick: the workers it started, and those it was free to start. -/
  ticks : List (ℤ × ℤ)

inductive Event where
  /-- `start_create_worker_with_policy`, with what `get_ideal_worker_count` returns. -/
  | tick (ideal : ℤ)
  /-- `add_worker`, of a worker that this proxy started or of another one. -/
  | register (own : Bool)
  | deregister (worker : ℕ)
  deriving DecidableEq

namespace State

def init (maxOutstandingStartingRequest : ℤ) : State :=
  ⟨⟨maxOutstandingStartingRequest, 0, 0⟩, [], 0, 0, 0, []⟩

/-- `get_ideal_worker_count_delta`, for the ideal number of any policy. -/
def delta (s : State) (ideal : ℤ) : ℤ :=
  let shouldStart := max (ideal - (s.workerSet.length + s.policy.startingWorkerCount)) 0
  let canStart :=
    max (s.policy.maxOutstandingStartingRequest - s.policy.startingWorkerCount) 0
  min shouldStart canStart

def setStarting (s : State) (n : ℤ) : State :=
  { s with policy := { s.policy with startingWorkerCount := n } }

/-- How many workers the proxy is free to start. -/
def room (s : State) : ℤ := s.policy.maxOutstandingStartingRequest - s.unregistered

/-- The loop of `start_create_worker_with_policy`. Each `create_worker` adds one to the count. -/
def tick (s : State) (ideal : ℤ) : State :=
  { s.setStarting (s.policy.startingWorkerCount + s.delta ideal) with
    unregistered := s.unregistered + (s.delta ideal).toNat
    ticks := s.ticks ++ [(s.delta ideal, s.room)] }

/-- `add_worker` and `registered_a_new_worker`. -/
def register (s : State) (own : Bool) : State :=
  { s.setStarting (s.policy.startingWorkerCount - 1) with
    workerSet := s.workerSet ++ [s.workerCount]
    workerCount := s.workerCount + 1
    unregistered := if own then s.unregistered - 1 else s.unregistered
    foreign := if own then s.foreign else s.foreign + 1 }

end State

/-- One event. A worker of this proxy that registers has been started. -/
def step (s : State) : Event → Option State
  | .tick ideal => some (s.tick ideal)
  | .register own => if own = true ∧ s.unregistered = 0 then none else some (s.register own)
  | .deregister w => some { s with workerSet := s.workerSet.filter (· ≠ w) }

/-- The count is in its bounds, and no tick started more workers than it was free to. -/
structure Bounded (s : State) : Prop where
  nonneg : 0 ≤ s.policy.startingWorkerCount
  le_max : s.policy.startingWorkerCount ≤ s.policy.maxOutstandingStartingRequest
  ticks : ∀ r ∈ s.ticks, r.1 ≤ r.2

/-- **The condition.** When a worker registers, fewer workers of other proxies have registered than
own ones are still to come. At a tick none have, or no more workers are asked for than there is room
for. -/
def OwnWorkers (s : State) : Event → Prop
  | .tick ideal => s.foreign = 0 ∨
      ideal - (s.workerSet.length + (s.unregistered - s.foreign : ℤ)) ≤ s.room ∧ 0 ≤ s.room
  | .register _ => s.foreign < s.unregistered
  | .deregister _ => True

instance decidableOwnWorkers (s : State) : ∀ e, Decidable (OwnWorkers s e)
  | .tick ideal => inferInstanceAs (Decidable (s.foreign = 0 ∨
      ideal - (s.workerSet.length + (s.unregistered - s.foreign : ℤ)) ≤ s.room ∧ 0 ≤ s.room))
  | .register _ => inferInstanceAs (Decidable (s.foreign < s.unregistered))
  | .deregister _ => .isTrue trivial

theorem delta_starter (s : State) :
    s.delta s.policy.getIdealWorkerCount = s.policy.getIdealWorkerCountDelta s.workerSet := rfl

/-! ## What the count is short by

Every event changes the count as it changes the number of workers to come, but for the registration
of a worker that another proxy has started. That one is counted down without having been counted up.
The count does not recover from it, so the difference is the number of all such registrations. -/

/-- The count is that of the workers to come, less those that came from elsewhere. -/
structure Inv (s : State) : Prop extends Bounded s where
  count : s.policy.startingWorkerCount = s.unregistered - s.foreign

section Steps

variable {s s' : State}

private theorem delta_spec (s : State) (ideal : ℤ) : 0 ≤ s.delta ideal ∧
    (s.policy.startingWorkerCount ≤ s.policy.maxOutstandingStartingRequest →
      s.policy.startingWorkerCount + s.delta ideal ≤ s.policy.maxOutstandingStartingRequest) := by
  simp only [State.delta]
  omega

private theorem Inv.delta_le_room_iff (h : Inv s) (ideal : ℤ) :
    s.delta ideal ≤ s.room ↔ OwnWorkers s (.tick ideal) := by
  have hcount := h.count
  have hnonneg := h.nonneg
  have hle := h.le_max
  simp only [State.delta, State.room, OwnWorkers]
  rw [hcount] at hnonneg hle ⊢
  omega

theorem Inv.tick (h : Inv s) {ideal : ℤ} (hroom : s.delta ideal ≤ s.room) :
    Inv (s.tick ideal) := by
  have hcount := h.count
  have hnonneg := h.nonneg
  obtain ⟨hdelta, hmax⟩ := delta_spec s ideal
  refine ⟨⟨?_, hmax h.le_max, fun r hr ↦ ?_⟩, ?_⟩
  · exact Int.add_nonneg hnonneg hdelta
  · rcases List.mem_append.mp hr with hr | hr
    · exact h.ticks r hr
    · exact List.mem_singleton.mp hr ▸ hroom
  · change s.policy.startingWorkerCount + s.delta ideal
      = ((s.unregistered + (s.delta ideal).toNat : ℕ) : ℤ) - s.foreign
    rw [hcount, Int.natCast_add, Int.toNat_of_nonneg hdelta]
    omega

theorem Inv.register (h : Inv s) {own : Bool} (hlt : s.foreign < s.unregistered) :
    Inv (s.register own) := by
  have hcount := h.count
  have hle := h.le_max
  have hstarting : (s.register own).policy.startingWorkerCount
      = s.policy.startingWorkerCount - 1 := rfl
  refine ⟨⟨?_, ?_, h.ticks⟩, ?_⟩
  · rw [hstarting, hcount]
    omega
  · rw [hstarting]
    exact Int.le_trans (Int.sub_le_self _ (by decide)) hle
  · rw [hstarting, hcount]
    cases own with
    | true =>
      change _ = ((s.unregistered - 1 : ℕ) : ℤ) - s.foreign
      omega
    | false =>
      change _ = (s.unregistered : ℤ) - ((s.foreign + 1 : ℕ) : ℤ)
      omega

theorem Inv.step {e : Event} (h : Inv s) (hown : OwnWorkers s e) (hs : step s e = some s') :
    Inv s' := by
  cases e with
  | tick ideal =>
    cases hs
    exact h.tick ((h.delta_le_room_iff ideal).mpr hown)
  | register own =>
    obtain ⟨-, hs⟩ := Option.ite_none_left_eq_some.mp hs
    cases hs
    exact h.register hown
  | deregister w =>
    cases hs
    exact ⟨⟨h.nonneg, h.le_max, h.ticks⟩, h.count⟩

/-- A step that breaks the condition leaves a negative count, or starts too many workers. -/
theorem Inv.ownWorkers_of_bounded {e : Event} (h : Inv s)
    (hs : StartingWorkers.step s e = some s') (hbounded : Bounded s') : OwnWorkers s e := by
  cases e with
  | tick ideal =>
    cases hs
    have hroom : s.delta ideal ≤ s.room :=
      hbounded.ticks _ (List.mem_append_right _ (List.mem_singleton.mpr rfl))
    exact (h.delta_le_room_iff ideal).mp hroom
  | register own =>
    obtain ⟨-, hs⟩ := Option.ite_none_left_eq_some.mp hs
    cases hs
    have hcount := h.count
    have hnonneg : 0 ≤ s.policy.startingWorkerCount - 1 := hbounded.nonneg
    change s.foreign < s.unregistered
    omega
  | deregister w => trivial

end Steps

theorem inv_init {m : ℤ} (h : 0 ≤ m) : Inv (State.init m) where
  nonneg := Int.le_refl 0
  le_max := h
  ticks := fun _ hr ↦ absurd hr List.not_mem_nil
  count := rfl

/-- **The bound on starting workers** holds all along a run exactly if the limit is not negative and
registrations of other proxies' workers never outweigh those that are to come, nor let a tick ask
for more than there is room for. -/
theorem bounded_iff_ownWorkers (m : ℤ) {es : List Event} {t : State}
    (hrun : run step (State.init m) es = some t) :
    Always step Bounded (State.init m) es
      ↔ 0 ≤ m ∧ Meets step OwnWorkers (State.init m) es := by
  by_cases hm : 0 ≤ m
  · rw [and_iff_right hm]
    exact always_iff_meets (fun _ _ _ hown hs h ↦ h.step hown hs) (fun _ h ↦ h.toBounded)
      (fun _ _ _ h hs hbounded ↦ h.ownWorkers_of_bounded hs hbounded) hrun (inv_init hm)
  · refine iff_of_false (fun h ↦ ?_) fun h ↦ hm h.1
    have hinit : Bounded (State.init m) := by
      cases es with
      | nil => exact h
      | cons e es => exact h.1
    exact hm hinit.le_max

/-- Four workers are started, two at a time, and a worker of another proxy registers while there are
enough of them to come. -/
def ownRun : List Event :=
  [.tick 2, .register true, .register false, .tick 1, .deregister 1]

theorem bounded_ownRun : (run step (State.init 2) ownRun).isSome ∧
    Always step Bounded (State.init 2) ownRun := by
  have hsome : (run step (State.init 2) ownRun).isSome := by decide +kernel
  obtain ⟨t, ht⟩ := Option.isSome_iff_exists.mp hsome
  exact ⟨hsome, (bounded_iff_ownWorkers 2 ht).mpr (by decide +kernel)⟩

/-- **A worker from elsewhere** registers with a proxy that has started none: the count is negative,
and the next tick starts one more worker than the limit. -/
theorem foreign_worker_uncounted :
    ∃ t, run step (State.init 1) [.register false, .tick 3] = some t ∧
      t.ticks = [(2, 1)] ∧ ¬Always step Bounded (State.init 1) [.register false, .tick 3] := by
  refine ⟨_, rfl, by decide +kernel, fun h ↦ ?_⟩
  have hlater := h.2 _ rfl
  exact absurd hlater.1.nonneg (by decide +kernel)

end Slsfs.Proxy.StartingWorkers

import Slsfs.Proxy.Ring

/-!
# Removing a proxy that has stopped

Every proxy sets its node under `/slsfs/proxy` each two seconds, and checks when the node of the
next proxy was last modified. ZooKeeper stamps a node with its own clock, so `start_check_alive`
first sets a node of its own, and keeps in `local_zk_diff_` by how much the local clock was ahead of
the stamp when the answer came. The check adds this difference to the local time, where it would
have to take it off. So the skew counts twice.

## What the check compares with

`resp.get()` returns the answer by value, and `stat` is a reference into it. The answer is destroyed
at the end of that line, so the stamp is read from an object that is gone. Nothing is known about
the value, and an event of the check brings it along. A stamp that is right is in whole
milliseconds: the client builds it from the `mtime` of the node.

Times are in nanoseconds of ZooKeeper's clock, and the local clock differs from it by `c`. A check
is one event: the children, the stamp and the local time are read at the same moment.
-/

namespace Slsfs.Proxy.Liveness

/-- A decision of `start_check_alive`. -/
structure Decision where
  proxy : Uuid
  /-- How long ago its node was modified. -/
  age : ℤ
  removed : Bool
  deriving DecidableEq

structure State where
  now : ℤ
  localZkDiff : ℤ
  /-- The nodes under `/slsfs/proxy` and when each was last modified, to the nanosecond. -/
  children : FiniteMap Uuid ℤ
  /-- The stamps of `/slsfs/timeadjust` whose answer has not come. -/
  adjusting : List ℤ
  /-- How long after its stamp the answer came that `localZkDiff` was computed from. -/
  latency : ℤ
  decisions : List Decision

inductive Event where
  | pass (time : ℕ)
  /-- A proxy creates its node. -/
  | join (proxy : Uuid)
  /-- A proxy sets its node, in `start_heartbeat`. -/
  | heartbeat (proxy : Uuid)
  /-- A node is erased by the proxy itself, or by another one. -/
  | leave (proxy : Uuid)
  /-- `start_check_alive` while there is no difference. -/
  | timeadjust
  /-- The answer to that. -/
  | measure (stamp : ℤ)
  /-- `start_check_alive` otherwise, with what it finds where the stamp has been. -/
  | checkAlive (seen : ℤ)
  deriving DecidableEq

/-- Four seconds. -/
def limit : ℤ := 4000000000

/-- The stamp of a change: ZooKeeper keeps whole milliseconds. -/
def stampOf (time : ℤ) : ℤ := time - time % 1000000

theorem stampOf_bounds (time : ℤ) : stampOf time ≤ time ∧ time ≤ stampOf time + 999999 := by
  rw [stampOf]
  omega

section Model

variable (uuid_ : Uuid) (c : ℤ)

namespace State

def init : State := ⟨0, 0, ∅, [], 0, []⟩

/-- What `system_clock::now` returns. -/
def localNow (s : State) : ℤ := s.now + c

/-- The next proxy and when its node was modified, unless this proxy is the only one. -/
def nextProxy (s : State) : Option (Uuid × ℤ) :=
  (successor id uuid_ (sortedProxyList s.children.keys)).bind fun it ↦
    if it = uuid_ then none else (s.children.lookup it).map fun modifiedTime ↦ (it, modifiedTime)

def removeUuid (s : State) (proxy : Uuid) : State :=
  { s with children := s.children.erase proxy }

/-- The second part of `start_check_alive`. -/
def checkAlive (s : State) (seen : ℤ) : State :=
  match s.nextProxy uuid_ with
  | none => s
  | some (it, modifiedTime) =>
    let removed := decide (s.localNow c + s.localZkDiff - seen > limit)
    { (if removed then s.removeUuid it else s) with
      decisions := ⟨it, s.now - modifiedTime, removed⟩ :: s.decisions }

def measure (s : State) (stamp : ℤ) : State :=
  { s with
    localZkDiff := s.localNow c - stamp
    adjusting := s.adjusting.erase stamp
    latency := s.now - stamp }

end State

/-- One event. The list of children is not empty when it is searched. -/
def step (s : State) : Event → Option State
  | .pass d => some { s with now := s.now + d }
  | .join u =>
    if (s.children.lookup u).isSome then none
    else some { s with children := s.children.insert u s.now }
  | .heartbeat u =>
    if (s.children.lookup u).isSome then some { s with children := s.children.insert u s.now }
    else some s
  | .leave u => some (s.removeUuid u)
  | .timeadjust =>
    if s.localZkDiff ≠ 0 then none
    else some { s with adjusting := stampOf s.now :: s.adjusting }
  | .measure stamp => if stamp ∉ s.adjusting then none else some (s.measure c stamp)
  | .checkAlive seen =>
    if s.localZkDiff = 0 ∨ s.children.keys = [] then none else some (s.checkAlive uuid_ c seen)

/-- What the check is for: the next proxy is removed if its node is older than the limit. -/
def checkAge (s : State) : State :=
  match s.nextProxy uuid_ with
  | none => s
  | some (it, modifiedTime) =>
    let removed := decide (limit < s.now - modifiedTime)
    { (if removed then s.removeUuid it else s) with
      decisions := ⟨it, s.now - modifiedTime, removed⟩ :: s.decisions }

/-- By how much the age of a node is taken for more than it is: the skew counts twice, and the value
that is read may be off as well. -/
def shift (s : State) (modifiedTime seen : ℤ) : ℤ := 2 * c + s.latency + (modifiedTime - seen)

/-- An age and what it is taken for are both more than the limit, or neither is. -/
def ClearOf (age shift : ℤ) : Prop :=
  age ≤ min limit (limit - shift) ∨ max limit (limit - shift) < age

instance decidableClearOf (age shift : ℤ) : Decidable (ClearOf age shift) :=
  inferInstanceAs (Decidable (age ≤ min limit (limit - shift) ∨ max limit (limit - shift) < age))

/-- **The condition.** At a check, the age of the node of the next proxy is not in the window that
the shift opens at the limit. -/
def Clear (s : State) : Event → Prop
  | .checkAlive seen => ∀ it ∈ s.nextProxy uuid_, ClearOf (s.now - it.2) (shift c s it.2 seen)
  | _ => True

instance decidableClear (s : State) : ∀ e, Decidable (Clear uuid_ c s e)
  | .checkAlive seen => inferInstanceAs
      (Decidable (∀ it ∈ s.nextProxy uuid_, ClearOf (s.now - it.2) (shift c s it.2 seen)))
  | .pass _ | .join _ | .heartbeat _ | .leave _ | .timeadjust | .measure _ => .isTrue trivial

/-- Each proxy was removed exactly if its node was older than the limit. -/
def Right (decisions : List Decision) : Prop :=
  ∀ d ∈ decisions, d.removed = true ↔ limit < d.age

end Model

/-! ## What a check decides

The difference is the skew of the local clock plus the time the answer took, whenever it has been
measured. With it added once more to the local time, and the dead stamp for the right one, the age
that is compared is the true age plus a `shift`. The decision is right exactly if this does not
carry the age across the limit. -/

private theorem clearOf_iff {age shift : ℤ} :
    ClearOf age shift ↔ (limit < age + shift ↔ limit < age) := by
  rw [ClearOf, limit]
  omega

section Steps

variable {uuid_ : Uuid} {c : ℤ} {s s' : State} {e : Event}

theorem owns_of_nextProxy {it : Uuid × ℤ} (h : s.nextProxy uuid_ = some it) :
    Owns {v | v ∈ s.children.keys} uuid_ it.1 ∧ it.1 ≠ uuid_ ∧
      s.children.lookup it.1 = some it.2 := by
  obtain ⟨u, hu, hrest⟩ := Option.bind_eq_some_iff.mp h
  split at hrest
  · cases hrest
  · rename_i hne
    obtain ⟨modifiedTime, hlookup, rfl⟩ := Option.map_eq_some_iff.mp hrest
    exact ⟨by simpa only [mem_sortedProxyList] using
      owns_of_successor (pairwise_sortedProxyList s.children.keys_nodup) hu, hne, hlookup⟩

/-- The difference, once there is one, is the skew and the time the answer took. -/
def Measured (c : ℤ) (s : State) : Prop := s.localZkDiff = 0 ∨ s.localZkDiff = c + s.latency

/-- The skew is added twice. -/
theorem Measured.localNow_add (h : Measured c s) (hdiff : s.localZkDiff ≠ 0) (m seen : ℤ) :
    s.localNow c + s.localZkDiff - seen > limit ↔ limit < s.now - m + shift c s m seen := by
  have heq := h.resolve_left hdiff
  rw [heq, State.localNow, shift]
  omega

@[simp] theorem checkAlive_localZkDiff (s : State) (seen : ℤ) :
    (s.checkAlive uuid_ c seen).localZkDiff = s.localZkDiff := by
  rw [State.checkAlive]
  split
  · rfl
  · dsimp only
    split <;> rfl

@[simp] theorem checkAlive_latency (s : State) (seen : ℤ) :
    (s.checkAlive uuid_ c seen).latency = s.latency := by
  rw [State.checkAlive]
  split
  · rfl
  · dsimp only
    split <;> rfl

private theorem measured_init (c : ℤ) : Measured c State.init := .inl rfl

theorem step_cases (hs : step uuid_ c s e = some s') :
    (∃ seen, e = .checkAlive seen ∧ s.localZkDiff ≠ 0 ∧ s' = s.checkAlive uuid_ c seen) ∨
      (∃ stamp, e = .measure stamp ∧ s' = s.measure c stamp) ∨
      ((∀ seen, e ≠ .checkAlive seen) ∧ s'.localZkDiff = s.localZkDiff ∧
        s'.latency = s.latency ∧ s'.decisions = s.decisions) := by
  cases e with
  | checkAlive seen =>
    obtain ⟨hguard, hs⟩ := Option.ite_none_left_eq_some.mp hs
    cases hs
    exact .inl ⟨seen, rfl, fun h0 ↦ hguard (.inl h0), rfl⟩
  | measure stamp =>
    obtain ⟨-, hs⟩ := Option.ite_none_left_eq_some.mp hs
    cases hs
    exact .inr (.inl ⟨stamp, rfl, rfl⟩)
  | join u | timeadjust =>
    obtain ⟨-, hs⟩ := Option.ite_none_left_eq_some.mp hs
    cases hs
    exact .inr (.inr ⟨fun _ ↦ Event.noConfusion, rfl, rfl, rfl⟩)
  | heartbeat u =>
    rw [step] at hs
    split at hs <;> (cases hs; exact .inr (.inr ⟨fun _ ↦ Event.noConfusion, rfl, rfl, rfl⟩))
  | pass d | leave u =>
    cases hs
    exact .inr (.inr ⟨fun _ ↦ Event.noConfusion, rfl, rfl, rfl⟩)

theorem Measured.step (h : Measured c s) (hs : step uuid_ c s e = some s') : Measured c s' := by
  rcases step_cases hs with ⟨seen, -, -, rfl⟩ | ⟨stamp, -, rfl⟩ | ⟨-, hdiff, hlatency, -⟩
  · rw [Measured, checkAlive_localZkDiff, checkAlive_latency]
    exact h
  · refine .inr ?_
    change s.now + c - stamp = c + (s.now - stamp)
    omega
  · rw [Measured, hdiff, hlatency]
    exact h

private theorem decisions_step (h : Measured c s) (hs : step uuid_ c s e = some s') :
    s'.decisions = s.decisions ∧ Clear uuid_ c s e ∨
      ∃ seen it, e = .checkAlive seen ∧ s.nextProxy uuid_ = some it ∧ s'.decisions =
        ⟨it.1, s.now - it.2, decide (limit < s.now - it.2 + shift c s it.2 seen)⟩
          :: s.decisions := by
  rcases step_cases hs with ⟨seen, rfl, hdiff, rfl⟩ | ⟨stamp, rfl, rfl⟩ | ⟨hne, -, -, hsame⟩
  · cases hnext : s.nextProxy uuid_ with
    | none =>
      refine .inl ⟨by rw [State.checkAlive, hnext], fun it hit ↦ ?_⟩
      rw [hnext] at hit
      cases hit
    | some it =>
      refine .inr ⟨seen, it, rfl, rfl, ?_⟩
      rw [State.checkAlive, hnext]
      simp only [h.localNow_add hdiff it.2]
  · exact .inl ⟨rfl, trivial⟩
  · refine .inl ⟨hsame, ?_⟩
    cases e with
    | checkAlive seen => exact absurd rfl (hne seen)
    | _ => trivial

private theorem Measured.right_step_iff (h : Measured c s)
    (hs : Liveness.step uuid_ c s e = some s') :
    Right s'.decisions ↔ Clear uuid_ c s e ∧ Right s.decisions := by
  rcases decisions_step h hs with ⟨hsame, hclear⟩ | ⟨seen, it, rfl, hnext, hcons⟩
  · rw [hsame]
    exact (and_iff_right hclear).symm
  · have hclear : Clear uuid_ c s (.checkAlive seen) ↔
        ClearOf (s.now - it.2) (shift c s it.2 seen) := by
      rw [Clear, hnext]
      exact ⟨fun hall ↦ hall it rfl, fun hone it' hit' ↦ Option.some_inj.mp hit' ▸ hone⟩
    rw [hcons, Right, List.forall_mem_cons, decide_eq_true_iff, ← clearOf_iff, ← hclear]
    rfl

private theorem Measured.checkAlive_eq (h : Measured c s) (hdiff : s.localZkDiff ≠ 0) {seen : ℤ}
    (hclear : Clear uuid_ c s (.checkAlive seen)) :
    s.checkAlive uuid_ c seen = checkAge uuid_ s := by
  rw [State.checkAlive, checkAge]
  cases hnext : s.nextProxy uuid_ with
  | none => rfl
  | some it =>
    have hdecide := clearOf_iff.mp (hclear it hnext)
    simp only [h.localNow_add hdiff it.2, hdecide]

/-- The difference does not matter to what the check is for. -/
theorem checkAge_localZkDiff (s : State) (d : ℤ) :
    checkAge uuid_ { s with localZkDiff := d } = { checkAge uuid_ s with localZkDiff := d } := by
  have hnext : State.nextProxy uuid_ { s with localZkDiff := d } = s.nextProxy uuid_ := rfl
  rw [checkAge, checkAge, hnext]
  cases s.nextProxy uuid_ with
  | none => rfl
  | some it =>
    dsimp only
    split <;> rfl

end Steps

/-! ## Two proxies with different clocks

Two checkers that see the same events can differ in nothing but their difference as long as both
decide rightly. The first decision that is wrong for one of them is in its list for ever, so it is
enough to look at the decisions at the end. -/

section Runs

variable {uuid_ : Uuid} {c c' : ℤ} {es : List Event}

private theorem right_run_iff {t : State} (hrun : run (step uuid_ c) State.init es = some t) :
    Right t.decisions ↔ Meets (step uuid_ c) (Clear uuid_ c) State.init es := by
  have htrue : Meets (step uuid_ c) (fun _ _ ↦ True) State.init es :=
    meets_of_forall_mem (C := fun _ ↦ True) (fun _ _ ↦ trivial) _
  have hor := invariant_run_or (A := fun _ _ ↦ True) (C := Clear uuid_ c)
    (I := fun s ↦ Measured c s ∧ Right s.decisions)
    (J := fun s ↦ Measured c s ∧ ¬Right s.decisions)
    (fun s e s' _ hclear hs h ↦ ⟨h.1.step hs, (h.1.right_step_iff hs).mpr ⟨hclear, h.2⟩⟩)
    (fun s e s' _ hclear hs h ↦ ⟨h.1.step hs, fun hr ↦ hclear ((h.1.right_step_iff hs).mp hr).1⟩)
    (fun s e s' _ hs h ↦ ⟨h.1.step hs, fun hr ↦ h.2 ((h.1.right_step_iff hs).mp hr).2⟩)
    htrue hrun ⟨measured_init c, fun _ h ↦ absurd h List.not_mem_nil⟩
  rcases hor with ⟨hmeets, -, hright⟩ | ⟨hmeets, -, hwrong⟩
  · exact iff_of_true hright hmeets
  · exact iff_of_false hwrong hmeets

/-- All but the difference is the same, and each run has measured its own. -/
def SameBut (c c' : ℤ) (s s' : State) : Prop :=
  Measured c s ∧ Measured c' s' ∧ ∃ d, s' = { s with localZkDiff := d }

theorem SameBut.step {s s' u u' : State} {e : Event} (h : SameBut c c' s s')
    (hclear : Clear uuid_ c s e) (hclear' : Clear uuid_ c' s' e)
    (hs : step uuid_ c s e = some u) (hs' : step uuid_ c' s' e = some u') : SameBut c c' u u' := by
  obtain ⟨hm, hm', d, rfl⟩ := h
  refine ⟨hm.step hs, hm'.step hs', ?_⟩
  cases e with
  | checkAlive seen =>
    obtain ⟨hguard, hs⟩ := Option.ite_none_left_eq_some.mp hs
    obtain ⟨hguard', hs'⟩ := Option.ite_none_left_eq_some.mp hs'
    cases hs
    cases hs'
    rw [hm.checkAlive_eq (fun h0 ↦ hguard (.inl h0)) hclear,
      hm'.checkAlive_eq (fun h0 ↦ hguard' (.inl h0)) hclear']
    exact ⟨d, checkAge_localZkDiff s d⟩
  | join u | timeadjust | measure stamp =>
    obtain ⟨-, hs⟩ := Option.ite_none_left_eq_some.mp hs
    obtain ⟨-, hs'⟩ := Option.ite_none_left_eq_some.mp hs'
    cases hs
    cases hs'
    exact ⟨_, rfl⟩
  | heartbeat u =>
    rw [Liveness.step] at hs hs'
    split at hs
    · rename_i hsome
      rw [if_pos hsome] at hs'
      cases hs
      cases hs'
      exact ⟨d, rfl⟩
    · rename_i hnone
      rw [if_neg hnone] at hs'
      cases hs
      cases hs'
      exact ⟨d, rfl⟩
  | pass time | leave u =>
    cases hs
    cases hs'
    exact ⟨d, rfl⟩

/-- **Skew.** Two runs that differ in the skew of the local clock alone remove the same proxies, and
those whose nodes are older than the limit, exactly if no check of either has an age in the window
between the limit and the limit less its shift. -/
theorem decisions_eq_iff_clear {t t' : State} (hrun : run (step uuid_ c) State.init es = some t)
    (hrun' : run (step uuid_ c') State.init es = some t') :
    t.decisions = t'.decisions ∧ Right t.decisions ↔
      Meets (step uuid_ c) (Clear uuid_ c) State.init es ∧
        Meets (step uuid_ c') (Clear uuid_ c') State.init es := by
  constructor
  · rintro ⟨hsame, hright⟩
    exact ⟨(right_run_iff hrun).mp hright, (right_run_iff hrun').mp (hsame ▸ hright)⟩
  · rintro ⟨hmeets, hmeets'⟩
    have hsame : SameBut c c' t t' := by
      refine invariant_run₂ ?_ hmeets hmeets' hrun hrun'
        ⟨measured_init c, measured_init c', 0, rfl⟩
      intro s s' e u u' hclear hclear' hs hs' h
      exact h.step hclear hclear' hs hs'
    obtain ⟨-, -, d, rfl⟩ := hsame
    exact ⟨rfl, (right_run_iff hrun).mpr hmeets⟩

end Runs

/-- The proxy `uuidOf 3` joins after `uuidOf 1`, is checked just after a heartbeat, and again five
seconds later. -/
def clearRun : List Event :=
  [.join (uuidOf 1), .join (uuidOf 3), .timeadjust, .pass 1000, .measure 0, .pass 1000000000,
    .heartbeat (uuidOf 3), .checkAlive 1000000000, .pass 5000000000, .checkAlive 1000000000]

/-- With a clock a millisecond ahead, and with one as much behind, the stopped proxy is removed at
the second check. -/
theorem decisions_eq_clearRun :
    ∃ t t', run (step (uuidOf 1) 1000000) State.init clearRun = some t ∧
      run (step (uuidOf 1) (-1000000)) State.init clearRun = some t' ∧
      t.decisions = [⟨uuidOf 3, 5000000000, true⟩, ⟨uuidOf 3, 0, false⟩] ∧
      t.decisions = t'.decisions ∧ Right t.decisions := by
  have hsome : (run (step (uuidOf 1) 1000000) State.init clearRun).map (·.decisions)
      = some [⟨uuidOf 3, 5000000000, true⟩, ⟨uuidOf 3, 0, false⟩] := by decide +kernel
  have hsome' : (run (step (uuidOf 1) (-1000000)) State.init clearRun).isSome := by
    decide +kernel
  obtain ⟨t, ht, hdecisions⟩ := Option.map_eq_some_iff.mp hsome
  obtain ⟨t', ht'⟩ := Option.isSome_iff_exists.mp hsome'
  exact ⟨t, t', ht, ht', hdecisions,
    (decisions_eq_iff_clear ht ht').mpr ⟨by decide +kernel, by decide +kernel⟩⟩

/-- The next proxy is checked at the moment of its heartbeat, and the stamp is read as it was. -/
def heartbeatRun : List Event :=
  [.join (uuidOf 1), .join (uuidOf 3), .timeadjust, .pass 1000000, .measure 0,
    .heartbeat (uuidOf 3), .checkAlive (stampOf 1000000)]

/-- **A clock that is ahead.** By three seconds, and the next proxy is removed at the moment of its
heartbeat; by a millisecond, and it is not. -/
theorem healthy_proxy_removed :
    ∃ t t', run (step (uuidOf 1) 3000000000) State.init heartbeatRun = some t ∧
      run (step (uuidOf 1) 1000000) State.init heartbeatRun = some t' ∧
      t.localZkDiff ≠ 0 ∧ t'.localZkDiff ≠ 0 ∧
      t.decisions = [⟨uuidOf 3, 0, true⟩] ∧ t'.decisions = [⟨uuidOf 3, 0, false⟩] ∧
      ¬(t.decisions = t'.decisions ∧ Right t.decisions) := by
  have hsome : (run (step (uuidOf 1) 3000000000) State.init heartbeatRun).map
      (fun t ↦ (t.localZkDiff, t.decisions)) = some (3001000000, [⟨uuidOf 3, 0, true⟩]) := by
    decide +kernel
  have hsome' : (run (step (uuidOf 1) 1000000) State.init heartbeatRun).map
      (fun t ↦ (t.localZkDiff, t.decisions)) = some (2000000, [⟨uuidOf 3, 0, false⟩]) := by
    decide +kernel
  obtain ⟨t, ht, hpair⟩ := Option.map_eq_some_iff.mp hsome
  obtain ⟨t', ht', hpair'⟩ := Option.map_eq_some_iff.mp hsome'
  obtain ⟨hdiff, hdecisions⟩ := Prod.mk.inj hpair
  obtain ⟨hdiff', hdecisions'⟩ := Prod.mk.inj hpair'
  refine ⟨t, t', ht, ht', ?_, ?_, hdecisions, hdecisions', ?_⟩
  · rw [hdiff]
    decide
  · rw [hdiff']
    decide
  · rw [hdecisions, hdecisions']
    exact fun h ↦ absurd h.1 (by decide)

end Slsfs.Proxy.Liveness

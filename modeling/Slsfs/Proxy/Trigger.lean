import Slsfs.Lib.Run

/-!
# Posting to a trigger

A `trigger` posts requests to one url over one stream. Each request first resolves the host and
connects the stream on its own, and then comes to `start_write`. There it is written if nothing else
is, and otherwise waits in `pending_requests_`; when the answer to the one before has been read, the
next one is written. All handlers run on the strand `io_strand_`, one at a time.

`stream_is_writing_` is set before a write, and cleared after the answer has been read. It is not
cleared when a write or a read fails. A request whose write has failed connects once more and comes
to `start_write` again, but finds the flag set, and waits for ever.

`written_in_order`: in every run, whatever fails, requests are written in the order in which they
are ready, one at a time, and none is written twice. `jammed_iff`: the trigger is stuck if and only
if a write or a read has failed, and then it never writes again.
-/

namespace Slsfs.Proxy.Trigger

variable {R : Type*} [DecidableEq R]

/-- What a request waits for that is not ready to be written. -/
inductive Stage where
  | resolve
  | connect
  | handshake
  deriving DecidableEq

/-- A write, or the read of an answer. -/
inductive Transfer (R : Type*) where
  | write (req : R)
  | read
  deriving DecidableEq

structure State (R : Type*) where
  /-- The requests on their way to `start_write`. -/
  opening : List (Stage × R)
  isWriting : Bool
  pendingRequests : List R
  retried : ℕ
  /-- The writes and reads under way. -/
  transfers : List (Transfer R)
  /-- The requests in the order they were posted. -/
  posted : List R
  /-- The requests in the order they were ready to be written, again for those that are retried. -/
  arrived : List R
  /-- The requests in the order they were handed to `async_write`. -/
  written : List R

/-- Completions, with their success. `named` is whether the host name can be set on the stream
before the host is resolved. -/
inductive Event (R : Type*) where
  | post (req : R) (named : Bool)
  | resolved (req : R) (ok : Bool)
  | connected (req : R) (ok named : Bool)
  | shaken (req : R) (ok : Bool)
  | written (req : R) (ok named : Bool)
  | read (ok : Bool)
  deriving DecidableEq

/-- The request that an event posts. -/
def Event.posts : Event R → List R
  | .post req _ => [req]
  | _ => []

omit [DecidableEq R] in
theorem posts_eq_nil {e : Event R} (h : ∀ req named, e ≠ .post req named) : e.posts = [] := by
  cases e with
  | post req named => exact absurd rfl (h req named)
  | _ => rfl

/-- A write or a read fails. -/
def Failure : Event R → Prop
  | .written _ ok _ | .read ok => ok = false
  | _ => False

namespace State

def init : State R := ⟨[], false, [], 0, [], [], [], []⟩

def enter (s : State R) (stage : Stage) (req : R) : State R :=
  { s with opening := s.opening ++ [(stage, req)] }

def leave (s : State R) (stage : Stage) (req : R) : State R :=
  { s with opening := s.opening.erase (stage, req) }

/-- A request whose host name cannot be set is given up. -/
def startResolve (ssl : Bool) (s : State R) (req : R) (named : Bool) : State R :=
  if ssl = true ∧ named = false then s else s.enter .resolve req

def startWrite (s : State R) (req : R) : State R :=
  if s.isWriting then { s with pendingRequests := s.pendingRequests ++ [req] }
  else { s with
    isWriting := true
    transfers := s.transfers ++ [.write req]
    written := s.written ++ [req] }

/-- A request is ready. -/
def arrive (s : State R) (req : R) : State R :=
  { s with arrived := s.arrived ++ [req] }.startWrite req

/-- The handler of a write that has failed. -/
def retry (ssl : Bool) (s : State R) (req : R) (named : Bool) : State R :=
  if s.retried < 3 then { s with retried := s.retried + 1 }.startResolve ssl req named
  else { s with retried := 0 }

/-- The handler of an answer. -/
def next (s : State R) : State R :=
  match s.pendingRequests with
  | [] => { s with isWriting := false }
  | req :: rest => { s with isWriting := false, pendingRequests := rest }.startWrite req

end State

/-- One event. `ssl` is whether the stream is one. -/
def step (ssl : Bool) (s : State R) : Event R → Option (State R)
  | .post req named => some ({ s with posted := s.posted ++ [req] }.startResolve ssl req named)
  | .resolved req ok =>
    if (.resolve, req) ∈ s.opening then
      some (if ok then (s.leave .resolve req).enter .connect req else s.leave .resolve req)
    else none
  | .connected req ok named =>
    if (.connect, req) ∈ s.opening then
      some (match ok, ssl with
        | true, true => (s.leave .connect req).enter .handshake req
        | true, false => (s.leave .connect req).arrive req
        -- There is a new stream, and the request starts again.
        | false, true => (s.leave .connect req).startResolve ssl req named
        | false, false => s.leave .connect req)
    else none
  | .shaken req ok =>
    if (.handshake, req) ∈ s.opening then
      some (if ok then (s.leave .handshake req).arrive req else s.leave .handshake req)
    else none
  | .written req ok named =>
    if .write req ∈ s.transfers then
      let s := { s with transfers := s.transfers.erase (.write req) }
      some (if ok then { s with transfers := s.transfers ++ [.read] } else s.retry ssl req named)
    else none
  | .read ok =>
    if .read ∈ s.transfers then
      let s := { s with transfers := s.transfers.erase .read }
      some (if ok then s.next else s)
    else none

variable {ssl : Bool} {s s' t : State R} {e : Event R}

omit [DecidableEq R] in
/-- Requests are ready, and written, whether or not others are on their way. -/
theorem startWrite_keeps (s : State R) (req : R) : (s.startWrite req).opening = s.opening ∧
    (s.startWrite req).posted = s.posted ∧ (s.startWrite req).arrived = s.arrived := by
  rw [State.startWrite]
  split <;> exact ⟨rfl, rfl, rfl⟩

omit [DecidableEq R] in
private theorem arrive_keeps (s : State R) (req : R) : (s.arrive req).opening = s.opening ∧
    (s.arrive req).posted = s.posted ∧ (s.arrive req).arrived = s.arrived ++ [req] :=
  startWrite_keeps _ _

omit [DecidableEq R] in
private theorem next_keeps (s : State R) :
    s.next.opening = s.opening ∧ s.next.posted = s.posted ∧ s.next.arrived = s.arrived := by
  rw [State.next]
  split
  · exact ⟨rfl, rfl, rfl⟩
  · exact startWrite_keeps _ _

/-! ## What a step can do

Most handlers only move a request from one stage of its connecting to the next, or give it up.
`Effect` has these in two cases, and the counts of the requests under way do not go up in them. What
is left are a post, a completed write or read, and a failure of one. -/

/-- Requests on their way to `start_write`. -/
def State.underWay (s : State R) : List R := s.opening.map Prod.snd

/-- What a step can do to the writing of requests. -/
inductive Effect (s : State R) : Event R → State R → Prop
  | post (req : R) (named : Bool) (opening : List (Stage × R))
      (hcount : ∀ r, (opening.map Prod.snd).count r ≤ s.underWay.count r + [req].count r) :
      Effect s (.post req named) { s with opening, posted := s.posted ++ [req] }
  /-- Nothing, but a request goes on or is given up. -/
  | opening {e : Event R} (opening : List (Stage × R)) (hposts : e.posts = []) (hok : ¬ Failure e)
      (hcount : ∀ r, (opening.map Prod.snd).count r ≤ s.underWay.count r) :
      Effect s e { s with opening }
  | arrive {e : Event R} (stage : Stage) (req : R) (hreq : (stage, req) ∈ s.opening)
      (hposts : e.posts = []) (hok : ¬ Failure e) : Effect s e ((s.leave stage req).arrive req)
  | written (req : R) (named : Bool) (hreq : .write req ∈ s.transfers) :
      Effect s (.written req true named)
        { s with transfers := s.transfers.erase (.write req) ++ [.read] }
  | next (hread : .read ∈ s.transfers) :
      Effect s (.read true) ({ s with transfers := s.transfers.erase .read }.next)
  | failed {e : Event R} (transfer : Transfer R) (opening : List (Stage × R)) (retried : ℕ)
      (htransfer : transfer ∈ s.transfers) (hposts : e.posts = []) (hfail : Failure e) :
      Effect s e { s with transfers := s.transfers.erase transfer, opening, retried }

private theorem count_underWay_leave {stage : Stage} {req : R} (h : (stage, req) ∈ s.opening)
    (r : R) :
    (s.leave stage req).underWay.count r + [req].count r = s.underWay.count r := by
  have hperm : (s.opening.map Prod.snd).Perm (req :: (s.opening.erase (stage, req)).map Prod.snd) :=
    (List.perm_cons_erase h).map Prod.snd
  have hsplit : (s.underWay).count r = ([req] ++ (s.leave stage req).underWay).count r :=
    hperm.count_eq r
  rw [hsplit, List.count_append, Nat.add_comm]

private theorem count_underWay_enter (s : State R) (stage : Stage) (req r : R) :
    (s.enter stage req).underWay.count r = s.underWay.count r + [req].count r := by
  rw [State.underWay, State.enter, List.map_append, List.count_append]
  rfl

omit [DecidableEq R] in
private theorem startResolve_eq (ssl : Bool) (s : State R) (req : R) (named : Bool) :
    s.startResolve ssl req named = s ∨ s.startResolve ssl req named = s.enter .resolve req := by
  rw [State.startResolve]
  split
  · exact .inl rfl
  · exact .inr rfl

theorem effect_of_step (h : step ssl s e = some s') : Effect s e s' := by
  have hleave : ∀ stage req, (stage, req) ∈ s.opening → ∀ r,
      ((s.leave stage req).opening.map Prod.snd).count r ≤ s.underWay.count r :=
    fun stage req hreq r ↦ by
      have hcount := count_underWay_leave hreq r
      rw [State.underWay] at hcount
      omega
  have hmove : ∀ stage stage' req, (stage, req) ∈ s.opening → ∀ r,
      (((s.leave stage req).enter stage' req).opening.map Prod.snd).count r ≤
        s.underWay.count r := fun stage stage' req hreq r ↦ by
    have hcount := count_underWay_enter (s.leave stage req) stage' req r
    rw [count_underWay_leave hreq, State.underWay] at hcount
    omega
  cases e with
  | post req named =>
    cases h
    rcases startResolve_eq ssl { s with posted := s.posted ++ [req] } req named with
      heq | heq <;> rw [heq]
    · exact .post req named s.opening fun r ↦ Nat.le_add_right _ _
    · refine .post req named _ fun r ↦ ?_
      have hcount := count_underWay_enter s .resolve req r
      rw [State.underWay] at hcount
      exact Nat.le_of_eq hcount
  | resolved req ok =>
    obtain ⟨hreq, h⟩ := Option.ite_none_right_eq_some.mp h
    cases h
    split
    · exact .opening _ rfl id (hmove _ _ req hreq)
    · exact .opening _ rfl id (hleave _ req hreq)
  | connected req ok named =>
    obtain ⟨hreq, h⟩ := Option.ite_none_right_eq_some.mp h
    cases h
    split
    · exact .opening _ rfl id (hmove _ _ req hreq)
    · exact .arrive _ req hreq rfl id
    · rcases startResolve_eq true (s.leave .connect req) req named with heq | heq <;> rw [heq]
      · exact .opening _ rfl id (hleave _ req hreq)
      · exact .opening _ rfl id (hmove _ _ req hreq)
    · exact .opening _ rfl id (hleave _ req hreq)
  | shaken req ok =>
    obtain ⟨hreq, h⟩ := Option.ite_none_right_eq_some.mp h
    cases h
    split
    · exact .arrive _ req hreq rfl id
    · exact .opening _ rfl id (hleave _ req hreq)
  | written req ok named =>
    obtain ⟨hreq, h⟩ := Option.ite_none_right_eq_some.mp h
    cases h
    cases ok with
    | true => exact .written req named hreq
    | false =>
      rw [if_neg Bool.false_ne_true, State.retry]
      split
      · rcases startResolve_eq ssl { s with
            transfers := s.transfers.erase (.write req), retried := s.retried + 1 } req named with
          heq | heq <;> rw [heq]
        · exact .failed _ s.opening _ hreq rfl rfl
        · exact .failed _ _ _ hreq rfl rfl
      · exact .failed _ s.opening _ hreq rfl rfl
  | read ok =>
    obtain ⟨hread, h⟩ := Option.ite_none_right_eq_some.mp h
    cases h
    cases ok with
    | true => exact .next hread
    | false => exact .failed _ s.opening s.retried hread rfl rfl

theorem posted_step (hs : step ssl s e = some s') : s'.posted = s.posted ++ e.posts := by
  cases effect_of_step hs with
  | post => rfl
  | opening _ hposts => rw [hposts, List.append_nil]
  | arrive stage req _ hposts => rw [hposts, List.append_nil, (arrive_keeps _ _).2.1, State.leave]
  | written => exact (List.append_nil _).symm
  | next hread =>
    rw [(next_keeps _).2.1]
    exact (List.append_nil _).symm
  | failed _ _ _ _ hposts => rw [hposts, List.append_nil]

/-! ## One at a time, in order

This holds in every run, with failures or without. A write is only started by a request that finds
the flag cleared, and by the handler of a completed read, and then the flag is set. After a failure
there is no handler that could start one. -/

/-- What every run keeps. -/
structure Sound (s : State R) : Prop where
  one : s.transfers.length ≤ 1
  flag : s.transfers ≠ [] → s.isWriting = true
  waiting : s.isWriting = false → s.pendingRequests = []
  order : s.arrived = s.written ++ s.pendingRequests

/-- The flag is set, and nothing is under way that would clear it. -/
def Jammed (s : State R) : Prop := s.isWriting = true ∧ s.transfers = []

omit [DecidableEq R] in
theorem Sound.init : Sound (.init : State R) where
  one := Nat.zero_le 1
  flag h := absurd rfl h
  waiting _ := rfl
  order := rfl

private theorem Sound.erase_eq_nil (h : Sound s) {transfer : Transfer R}
    (hmem : transfer ∈ s.transfers) :
    s.transfers.erase transfer = [] := by
  have hlength := List.length_erase_of_mem hmem
  have hone := h.one
  exact List.length_eq_zero_iff.mp (by omega)

omit [DecidableEq R] in
private theorem Sound.transfers_eq_nil (h : Sound s) (hflag : s.isWriting = false) :
    s.transfers = [] := by
  by_contra hne
  rw [h.flag hne] at hflag
  cases hflag

omit [DecidableEq R] in
theorem Sound.startWrite (h : Sound s) {arrived : List R} {req : R}
    (harrived : arrived = s.arrived ++ [req]) : Sound ({ s with arrived }.startWrite req) := by
  rw [State.startWrite, harrived]
  split
  · rename_i hflag
    exact ⟨h.one, h.flag, fun hfree ↦ absurd (hflag.symm.trans hfree) (by decide), by
      rw [h.order, List.append_assoc]⟩
  · rename_i hflag
    have hfree : s.isWriting = false := by simpa using hflag
    have hnone := h.transfers_eq_nil hfree
    have hempty := h.waiting hfree
    refine ⟨?_, fun _ ↦ rfl, fun hset ↦ (by cases hset), ?_⟩
    · rw [hnone]
      exact Nat.le_refl 1
    · rw [h.order, hempty, List.append_nil, List.append_nil]

theorem Sound.next (h : Sound s) (hread : .read ∈ s.transfers) :
    Sound ({ s with transfers := s.transfers.erase .read }.next) := by
  rw [State.next, h.erase_eq_nil hread]
  dsimp only
  split
  · rename_i hempty
    exact ⟨Nat.zero_le 1, fun hne ↦ absurd rfl hne, fun _ ↦ hempty, h.order⟩
  · rename_i req rest hpending
    refine ⟨Nat.le_refl 1, fun _ ↦ rfl, fun hset ↦ (by cases hset), ?_⟩
    change s.arrived = s.written ++ [req] ++ rest
    rw [h.order, hpending, List.append_assoc]
    rfl

theorem Effect.sound (he : Effect s e s') (h : Sound s) : Sound s' := by
  cases he with
  | post | opening => exact ⟨h.one, h.flag, h.waiting, h.order⟩
  | arrive stage req =>
    have hleave : Sound (s.leave stage req) := ⟨h.one, h.flag, h.waiting, h.order⟩
    exact hleave.startWrite rfl
  | written req named hreq =>
    rw [h.erase_eq_nil hreq]
    exact ⟨Nat.le_refl 1, fun _ ↦ h.flag (List.ne_nil_of_mem hreq), h.waiting, h.order⟩
  | next hread => exact h.next hread
  | failed transfer opening retried hmem =>
    rw [h.erase_eq_nil hmem]
    exact ⟨Nat.zero_le 1, fun hne ↦ absurd rfl hne, h.waiting, h.order⟩

/-! ## Until something fails, and after

A run has two parts. In the first one the flag is set only while a transfer is under way; with the
first failure the transfer ends and the flag stays. From then on there is nothing under way whose
handler would clear it. Every failure is that of a transfer, and there is only one at a time, so the
second part never has another. -/

/-- Nothing has failed. -/
structure Running (s : State R) : Prop extends Sound s where
  free : s.transfers = [] → s.isWriting = false
  count : ∀ r, s.arrived.count r + s.underWay.count r ≤ s.posted.count r

/-- Something has failed. -/
structure Stuck (s : State R) : Prop extends Sound s where
  jammed : Jammed s
  count : ∀ r, s.written.count r ≤ s.posted.count r

theorem Running.init : Running (.init : State R) where
  toSound := .init
  free _ := rfl
  count _ := Nat.le_refl _

private theorem Running.count_written (h : Running s) (r : R) :
    s.written.count r ≤ s.posted.count r := by
  have hcount := h.count r
  rw [h.order, List.count_append] at hcount
  omega

omit [DecidableEq R] in
private theorem startWrite_transfers_ne (s : State R) (req : R)
    (h : s.isWriting = true → s.transfers ≠ []) : (s.startWrite req).transfers ≠ [] := by
  rw [State.startWrite]
  split
  · rename_i hflag
    exact h hflag
  · exact List.append_ne_nil_of_right_ne_nil _ (List.cons_ne_nil _ _)

theorem Running.step (h : Running s) (hok : ¬ Failure e) (hs : step ssl s e = some s') :
    Running s' := by
  have he := effect_of_step hs
  have hbusy : s.isWriting = true → s.transfers ≠ [] := fun hflag hnone ↦ by
    rw [h.free hnone] at hflag
    cases hflag
  refine ⟨he.sound h.toSound, ?_, fun r ↦ ?_⟩
  · cases he with
    | post | opening => exact h.free
    | arrive stage req =>
      exact fun hnone ↦ absurd hnone (startWrite_transfers_ne _ req hbusy)
    | written req named hreq =>
      exact fun hnone ↦ absurd hnone (List.append_ne_nil_of_right_ne_nil _ (List.cons_ne_nil _ _))
    | next hread =>
      rw [State.next]
      split
      · exact fun _ ↦ rfl
      · exact fun hnone ↦ absurd hnone (startWrite_transfers_ne _ _ fun hflag ↦ by cases hflag)
    | failed transfer opening retried hmem _ hfail => exact absurd hfail hok
  · have hcount := h.count r
    cases he with
    | post req named opening hopening =>
      have := hopening r
      change s.arrived.count r + (opening.map Prod.snd).count r ≤ (s.posted ++ [req]).count r
      rw [List.count_append]
      omega
    | opening opening _ _ hopening => exact Nat.le_trans (Nat.add_le_add_left (hopening r) _) hcount
    | arrive stage req hreq =>
      have hleave := count_underWay_leave hreq r
      obtain ⟨hopening, hposted, harrived⟩ := arrive_keeps (s.leave stage req) req
      rw [State.underWay] at hleave
      rw [State.underWay, hopening, hposted, harrived, List.count_append]
      change s.arrived.count r + [req].count r +
        ((s.leave stage req).opening.map Prod.snd).count r ≤ s.posted.count r
      omega
    | written req named hreq => exact hcount
    | next hread =>
      obtain ⟨hopening, hposted, harrived⟩ := next_keeps
        { s with transfers := s.transfers.erase .read }
      rw [State.underWay, hopening, hposted, harrived]
      exact hcount
    | failed transfer opening retried hmem _ hfail => exact absurd hfail hok

theorem Running.fail (h : Running s) (hfail : Failure e)
    (hs : Trigger.step ssl s e = some s') : Stuck s' := by
  have he := effect_of_step hs
  refine ⟨he.sound h.toSound, ?_, fun r ↦ ?_⟩
  · cases he with
    | opening _ _ hok | arrive _ _ _ _ hok => exact absurd hfail hok
    | post | written | next => cases hfail
    | failed transfer opening retried hmem =>
      exact ⟨h.flag (List.ne_nil_of_mem hmem), h.erase_eq_nil hmem⟩
  · cases he with
    | opening _ _ hok | arrive _ _ _ _ hok => exact absurd hfail hok
    | post | written | next => cases hfail
    | failed => exact h.count_written r

theorem Jammed.step (h : Jammed s) (hs : step ssl s e = some s') :
    Jammed s' ∧ s'.written = s.written := by
  have hnone : ∀ transfer, transfer ∉ s.transfers := fun transfer hmem ↦
    List.not_mem_nil (h.2 ▸ hmem)
  cases effect_of_step hs with
  | post | opening => exact ⟨h, rfl⟩
  | arrive stage req =>
    rw [State.arrive, State.startWrite, if_pos (show (s.leave stage req).isWriting = true from h.1)]
    exact ⟨h, rfl⟩
  | written req named hreq => exact absurd hreq (hnone _)
  | next hread => exact absurd hread (hnone _)
  | failed transfer opening retried hmem => exact absurd hmem (hnone _)

theorem Stuck.step (h : Stuck s) (hs : step ssl s e = some s') : Stuck s' := by
  obtain ⟨hjammed, hwritten⟩ := h.jammed.step hs
  refine ⟨(effect_of_step hs).sound h.toSound, hjammed, fun r ↦ ?_⟩
  rw [hwritten, posted_step hs]
  exact Nat.le_trans (h.count r) ((List.sublist_append_left _ _).count_le r)

/-- A run is either without failures, or stuck. -/
theorem running_or_stuck {es : List (Event R)} (hrun : run (step ssl) .init es = some s) :
    (∀ e ∈ es, ¬ Failure e) ∧ Running s ∨ (∃ e ∈ es, Failure e) ∧ Stuck s := by
  have hor := invariant_run_or (A := fun _ _ ↦ True) (C := fun _ e ↦ ¬ Failure e) (I := Running)
    (J := Stuck) (fun _ _ _ _ hok hs h ↦ h.step hok hs)
    (fun _ _ _ _ hfail hs h ↦ h.fail (not_not.mp hfail) hs) (fun _ _ _ _ hs h ↦ h.step hs)
    (meets_of_forall_mem (C := fun _ ↦ True) (fun _ _ ↦ trivial) _) hrun .init
  rw [meets_iff_forall_mem hrun] at hor
  push Not at hor
  exact hor

theorem written_run {es : List (Event R)} (h : Jammed s) (hrun : run (step ssl) s es = some t) :
    Jammed t ∧ t.written = s.written := by
  refine invariant_run_of_step (I := fun t ↦ Jammed t ∧ t.written = s.written)
    (fun _ _ _ hs ht ↦ ?_) hrun ⟨h, rfl⟩
  obtain ⟨hstep, hwritten⟩ := ht.1.step hs
  exact ⟨hstep, hwritten.trans ht.2⟩

theorem count_written_run {es : List (Event R)} (hrun : run (step ssl) .init es = some s) (r : R) :
    s.written.count r ≤ s.posted.count r := by
  rcases running_or_stuck hrun with ⟨-, h⟩ | ⟨-, h⟩
  · exact h.count_written r
  · exact h.count r

/-- **One at a time, in order.** In every run, whatever fails, at most one write or read is under
way, the requests that are ready are written in that order, and no request is written more often
than it is posted. -/
theorem written_in_order (ssl : Bool) (es : List (Event R)) (s : State R)
    (hrun : run (step ssl) .init es = some s) :
    s.transfers.length ≤ 1 ∧ s.arrived = s.written ++ s.pendingRequests ∧
      ∀ r, s.written.count r ≤ s.posted.count r := by
  have h : Sound s :=
    invariant_run_of_step (fun _ _ _ hs h ↦ (effect_of_step hs).sound h) hrun .init
  exact ⟨h.one, h.order, count_written_run hrun⟩

/-- Two requests, the second of which is ready first. -/
def twoPosts : List (Event ℕ) :=
  [.post 1 true, .post 2 true, .resolved 1 true, .resolved 2 true, .connected 2 true true,
    .connected 1 true true, .shaken 2 true, .shaken 1 true]

theorem written_in_order_two : ∃ s, run (step true) .init twoPosts = some s ∧
    s.pendingRequests = [1] ∧ s.arrived = s.written ++ s.pendingRequests := by
  obtain ⟨s, hs, hpending⟩ :
      ∃ s, run (step true) .init twoPosts = some s ∧ s.pendingRequests = [1] := ⟨_, rfl, rfl⟩
  exact ⟨s, hs, hpending, (written_in_order true twoPosts s hs).2.1⟩

/-- **A failure is final.** After every run the trigger is stuck if and only if the write of a
request or the read of an answer has failed. From then on no request is written, neither the one
that is tried again nor any that is posted later. If nothing has failed and nothing is under way,
all requests that were ready are written. -/
theorem jammed_iff (ssl : Bool) (es : List (Event R)) (s : State R)
    (hrun : run (step ssl) .init es = some s) :
    (Jammed s ↔ ∃ e ∈ es, Failure e) ∧
      (Jammed s → ∀ es' t, run (step ssl) s es' = some t → Jammed t ∧ t.written = s.written) ∧
      (¬ Jammed s → s.transfers = [] → s.written = s.arrived) := by
  refine ⟨?_, fun hjammed _ _ hrun' ↦ written_run hjammed hrun', fun hnot hnone ↦ ?_⟩
  · rcases running_or_stuck hrun with ⟨hok, h⟩ | ⟨hfail, h⟩
    · refine iff_of_false (fun hjammed ↦ ?_) fun ⟨e, he, hfail⟩ ↦ hok e he hfail
      have hflag := hjammed.1
      rw [h.free hjammed.2] at hflag
      cases hflag
    · exact iff_of_true h.jammed hfail
  · rcases running_or_stuck hrun with ⟨-, h⟩ | ⟨-, h⟩
    · rw [h.order, h.waiting (h.free hnone), List.append_nil]
    · exact absurd h.jammed hnot

/-- The first write fails. -/
def failedPost : List (Event ℕ) :=
  [.post 1 true, .resolved 1 true, .connected 1 true true, .shaken 1 true, .written 1 false true]

/-- The request is tried again, and a second one is posted. -/
def postAgain : List (Event ℕ) :=
  [.resolved 1 true, .connected 1 true true, .shaken 1 true, .post 2 true, .resolved 2 true,
    .connected 2 true true, .shaken 2 true]

theorem jammed_retry : ∃ s t, run (step true) .init failedPost = some s ∧
    run (step true) s postAgain = some t ∧ t.pendingRequests = [1, 2] ∧
      t.written = s.written := by
  obtain ⟨s, t, hs, ht, hpending⟩ : ∃ s t, run (step true) .init failedPost = some s ∧
      run (step true) s postAgain = some t ∧ t.pendingRequests = [1, 2] := ⟨_, _, rfl, rfl, rfl⟩
  obtain ⟨hiff, hstays, -⟩ := jammed_iff true failedPost s hs
  have hjammed := hiff.mpr ⟨.written 1 false true, by decide, rfl⟩
  exact ⟨s, t, hs, ht, hpending, (hstays hjammed postAgain t ht).2⟩

end Slsfs.Proxy.Trigger

import Slsfs.Datafunction.ReadJob

/-!
# The deadline of a request

`start_2pc_prepare` and `start_read` arm a timer of thirty seconds before they send anything. Its
handler replies to the caller with an error if the time is over. The callback that has the last
answer cancels the timer and replies too. Neither looks whether the other one has replied: a cancel
has no effect once the timer has expired and its handler is queued, and a callback that comes after
the handler decides as if nothing had happened.

A read has two more ways to reply twice. Its callbacks fill their place and then look at all places,
so two that run at the same time can both find all of them filled. And a read of size zero replies
before it cancels the timer.
-/

namespace Slsfs.Datafunction

open LeveldbPack

/-! ## The timer

`steady_timer::cancel` takes back a wait that is not over yet, and then the handler is called with
an error, which does nothing here. A wait that is over has its handler in the queue of the
`io_context` already. -/

/-- A `steady_timer` that is waited for. -/
inductive Timer where
  | armed
  /-- The time is over and the handler is queued. -/
  | expired
  /-- The handler has run without an error. -/
  | fired
  | cancelled
  deriving DecidableEq

/-- A handler that is queued is not stopped. -/
def Timer.cancel : Timer → Timer
  | .armed => .cancelled
  | timer => timer

/-! ## Writes

The write itself is a `Ballot`; what is new is the timer, which expires on its own, and whose
handler runs at any time after that. `InTime` is the condition: the callback that has the last
answer runs after the send loop, and the timer has not expired by then. So either the handler
replies or that callback does. -/

/-- A write and its timer. -/
structure TimedWrite where
  ballot : Ballot
  timer : Timer
  /-- The invocations of `next` by the handler of the timer. -/
  timeouts : List Buf

namespace TimedWrite

inductive Event where
  | send
  | respond (i : ℕ) (type : MsgT)
  /-- The time is over. -/
  | expire
  /-- The handler of the timer runs. -/
  | timeout
  deriving DecidableEq

def start (coordinator : ℕ) (input : WriteRequest) (version : UInt32) : TimedWrite :=
  ⟨.start coordinator input version, .armed, []⟩

def requestTimeout : Buf := ascii "Error: request timeout internally"

variable (blocksize : ℕ)

def step (s : TimedWrite) : Event → Option TimedWrite
  | .send => (Ballot.step blocksize s.ballot .send).map fun ballot ↦ { s with ballot }
  | .respond i type =>
    (Ballot.step blocksize s.ballot (.respond i type)).map fun ballot ↦
      { s with
        ballot
        -- the callback that brings the counter to zero cancels the timer
        timer := if s.ballot.write.outstandingRequests = 1 then s.timer.cancel else s.timer }
  | .expire => if s.timer = .armed then some { s with timer := .expired } else none
  | .timeout =>
    if s.timer = .expired then
      some { s with timer := .fired, timeouts := s.timeouts ++ [requestTimeout] }
    else none

/-- The law: the caller is answered at most once, and a write that timed out is not committed. -/
structure AnsweredOnce (s : TimedWrite) : Prop where
  next_once : (s.ballot.write.replies ++ s.timeouts).length ≤ 1
  not_committed : s.timeouts ≠ [] → s.ballot.write.commits = []

/-- **The condition.** The callback that has the last answer runs while the timer is armed, and
after the send loop. -/
def InTime (s : TimedWrite) : Event → Prop
  | .respond i type => Ballot.LoopFirst blocksize s.ballot (.respond i type) ∧
      (s.ballot.write.outstandingRequests = 1 → s.timer = .armed)
  | _ => True

/-- The timer and the callbacks take turns. -/
structure Inv (s : TimedWrite) : Prop where
  ballot : Ballot.Inv blocksize s.ballot
  once : s.ballot.blocks blocksize ≠ 0 → Ballot.Once blocksize s.ballot
  timeouts : s.timeouts.length = if s.timer = .fired then 1 else 0
  decided : s.ballot.write.commits ≠ [] → s.timer = .cancelled

variable {blocksize}

theorem inv_start (coordinator : ℕ) (input : WriteRequest) (version : UInt32) :
    Inv blocksize (start coordinator input version) where
  ballot := Ballot.inv_start coordinator input version
  once h := Ballot.once_start fun hnil ↦ h (congrArg List.length hnil)
  timeouts := rfl
  decided h := absurd rfl h

theorem inv_step (s : TimedWrite) (e : Event) (s' : TimedWrite) (htime : InTime blocksize s e)
    (h : step blocksize s e = some s') (hinv : Inv blocksize s) : Inv blocksize s' := by
  -- an event of the ballot
  have hballot : ∀ {f : Ballot.Event} {ballot : Ballot},
      Ballot.step blocksize s.ballot f = some ballot → Ballot.LoopFirst blocksize s.ballot f →
      Ballot.Inv blocksize ballot ∧
        (ballot.blocks blocksize ≠ 0 → Ballot.Once blocksize ballot) := by
    intro f ballot hstep hfirst
    refine ⟨Ballot.inv_step _ _ _ hstep hinv.ballot, fun hne ↦ ?_⟩
    rw [Ballot.blocks_step hstep] at hne
    exact Ballot.once_step _ _ _ hfirst hstep hinv.ballot (hinv.once hne)
  have hundecided : s.timer ≠ .cancelled → s.ballot.write.commits = [] := fun hne ↦
    by_contra fun hcommits ↦ hne (hinv.decided hcommits)
  cases e with
  | send =>
    obtain ⟨ballot, hstep, rfl⟩ := Option.map_eq_some_iff.mp h
    obtain ⟨hb, honce⟩ := hballot hstep trivial
    refine ⟨hb, honce, hinv.timeouts, fun hcommits ↦ hinv.decided ?_⟩
    rcases Ballot.step_cases hstep with ⟨-, -, -, hwrite⟩ | ⟨i, type, heq, -⟩
    · rwa [hwrite] at hcommits
    · cases heq
  | respond i type =>
    obtain ⟨ballot, hstep, rfl⟩ := Option.map_eq_some_iff.mp h
    obtain ⟨hb, honce⟩ := hballot hstep htime.1
    by_cases hlast : s.ballot.write.outstandingRequests = 1
    · have harmed := htime.2 hlast
      have hnone : s.timeouts.length = 0 := by
        rw [hinv.timeouts, harmed, if_neg (by decide)]
      refine ⟨hb, honce, ?_, fun _ ↦ ?_⟩
      · dsimp only
        rw [if_pos hlast, harmed, hnone]
        rfl
      · dsimp only
        rw [if_pos hlast, harmed]
        rfl
    · refine ⟨hb, honce, ?_, fun hcommits ↦ ?_⟩
      · dsimp only
        rw [if_neg hlast]
        exact hinv.timeouts
      · dsimp only at hcommits ⊢
        rw [if_neg hlast]
        refine hinv.decided ?_
        rcases Ballot.step_cases hstep with ⟨heq, -⟩ | ⟨j, t, -, -, -, -, hwrite⟩
        · cases heq
        · rwa [hwrite, Write.onVote_commits, if_neg hlast] at hcommits
  | expire =>
    rw [step] at h
    split at h
    · rename_i harmed
      cases h
      refine ⟨hinv.ballot, hinv.once, ?_, fun hcommits ↦ ?_⟩
      · rw [hinv.timeouts, harmed]
        rfl
      · exact absurd (hundecided (by rw [harmed]; decide)) hcommits
    · cases h
  | timeout =>
    rw [step] at h
    split at h
    · rename_i hexpired
      cases h
      refine ⟨hinv.ballot, hinv.once, ?_, fun hcommits ↦ ?_⟩
      · dsimp only
        rw [List.length_append, hinv.timeouts, hexpired]
        rfl
      · exact absurd (hundecided (by rw [hexpired]; decide)) hcommits
    · cases h

private theorem answeredOnce {s : TimedWrite} (hinv : Inv blocksize s) : AnsweredOnce s := by
  have hreplies : s.ballot.write.replies.length = s.ballot.write.commits.length := by
    rw [hinv.ballot.replies, List.length_map]
  have hone : s.ballot.write.commits.length ≤ 1 := by
    by_cases hzero : s.ballot.blocks blocksize = 0
    · have hnil : s.ballot.write.commits = [] := by
        by_contra hne
        have hopened := hinv.ballot.opened hne
        have hsent := hinv.ballot.sent_le
        omega
      rw [hnil]
      exact Nat.zero_le _
    · exact (Ballot.safe_of_once hinv.ballot (hinv.once hzero)).commit_once
  have htimeouts := hinv.timeouts
  by_cases hfired : s.timer = .fired
  · have hnil : s.ballot.write.commits = [] := by
      by_contra hne
      rw [hinv.decided hne] at hfired
      cases hfired
    rw [if_pos hfired] at htimeouts
    refine ⟨?_, fun _ ↦ hnil⟩
    rw [List.length_append, hreplies, hnil, htimeouts]
    rfl
  · rw [if_neg hfired] at htimeouts
    refine ⟨?_, fun hne ↦ absurd (List.length_eq_zero_iff.mp htimeouts) hne⟩
    rw [List.length_append, hreplies, htimeouts]
    exact hone

end TimedWrite

/-! ## Reads

A callback of a read does two things that other threads can come between. It fills its place, and it
looks at the places. So a callback is in one of three states here: it has not run, it has filled its
place, or it has looked. The condition for one reply is that no other callback is between the two
when a callback looks and finds all places filled.

`InTime` has both: the timer, and the callbacks. -/

/-- A read and its timer. -/
structure TimedRead where
  job : ReadJob
  /-- The callbacks that have filled their place and have not yet looked at all places. -/
  looking : ℕ → Bool
  timer : Timer
  /-- The invocations of `next` by the handler of the timer. -/
  timeouts : List Buf

namespace TimedRead

inductive Event where
  | send
  | answer (j : ℕ) (response : Packet)
  /-- A callback fills its place. -/
  | fill (j : ℕ)
  /-- A callback looks at all places. -/
  | look (j : ℕ)
  /-- The cancel after the reply to a read of size zero. -/
  | cancel
  /-- The time is over. -/
  | expire
  /-- The handler of the timer runs. -/
  | timeout
  deriving DecidableEq

def start (cfg : Config) (coordinator : ℕ) (input : ReadRequest) (salt : ℕ → Salt) : TimedRead :=
  ⟨.start cfg coordinator input salt, fun _ ↦ false, .armed, []⟩

def readTimeout : Buf := ascii "Error: Read Request Timeout"

/-- The first half of the callback. -/
def fill (s : TimedRead) (j : ℕ) (response : Packet) : TimedRead :=
  { s with
    job := { s.job with accumulator := s.job.accumulator.set j (some response.data) }
    looking := Function.update s.looking j true }

/-- The second half of the callback. -/
def look (s : TimedRead) (j : ℕ) (response : Packet) : TimedRead :=
  let life := Function.update s.job.life j (.done response)
  let looking := Function.update s.looking j false
  if s.job.accumulator.all Option.isSome then
    { s with
      job := { s.job with
        life
        replies := s.job.replies ++ [(s.job.accumulator.map (·.getD [])).flatten] }
      looking
      timer := s.timer.cancel }
  else { s with job := { s.job with life }, looking }

/-- The two halves are the callback. -/
theorem look_fill (s : TimedRead) (j : ℕ) (response : Packet) :
    ((s.fill j response).look j response).job = s.job.callback j response := by
  by_cases hall : (s.fill j response).job.accumulator.all Option.isSome = true
  · rw [look, if_pos hall]
    exact (if_pos hall).symm
  · rw [look, if_neg hall]
    exact (if_neg hall).symm

variable (cfg : Config)

def step (s : TimedRead) : Event → Option TimedRead
  | .send => (s.job.step cfg .send).map fun job ↦ { s with job }
  | .answer j response => (s.job.step cfg (.answer j response)).map fun job ↦ { s with job }
  | .fill j =>
    match s.job.life j with
    | .answered response => if s.looking j then none else some (s.fill j response)
    | _ => none
  | .look j =>
    match s.job.life j with
    | .answered response => if s.looking j then some (s.look j response) else none
    | _ => none
  | .cancel =>
    if s.job.input.size = 0 then some { s with timer := s.timer.cancel } else none
  | .expire => if s.timer = .armed then some { s with timer := .expired } else none
  | .timeout =>
    if s.timer = .expired then
      some { s with timer := .fired, timeouts := s.timeouts ++ [readTimeout] }
    else none

/-- The law: the caller is answered at most once. -/
def AnsweredOnce (s : TimedRead) : Prop := (s.job.replies ++ s.timeouts).length ≤ 1

/-- **The condition.** A callback finds all places filled only while the timer is armed and no other
callback is about to look. A read of size zero cancels the timer before it expires. -/
def InTime (s : TimedRead) : Event → Prop
  | .look j => s.job.accumulator.all Option.isSome = true →
      s.timer = .armed ∧ ∀ i, i ≠ j → s.looking i = false
  | .expire => s.job.input.size ≠ 0
  | _ => True

/-- The timer and the callbacks take turns. -/
structure Inv (s : TimedRead) : Prop where
  sent_le : s.job.sent ≤ (s.job.chunks cfg).length
  sent : ∀ j, s.job.life j ≠ .unsent → j < s.job.sent
  length : s.job.accumulator.length = (s.job.chunks cfg).length
  filled : ∀ (j : ℕ) body, s.job.accumulator[j]? = some (some body) →
    s.looking j = true ∨ ∃ response, s.job.life j = .done response
  timeouts : s.timeouts.length = if s.timer = .fired then 1 else 0
  empty : s.job.input.size = 0 → s.timer = .armed ∨ s.timer = .cancelled
  once : s.job.replies.length ≤ 1
  replied : s.job.replies ≠ [] → (s.job.input.size = 0 ∨ s.timer = .cancelled) ∧
    ∀ j < (s.job.chunks cfg).length, ∃ response, s.job.life j = .done response

variable {cfg}

theorem inv_start (coordinator : ℕ) (input : ReadRequest) (salt : ℕ → Salt) :
    Inv cfg (start cfg coordinator input salt) where
  sent_le := Nat.zero_le _
  sent j h := absurd rfl h
  length := List.length_replicate ..
  filled j body h := by
    obtain ⟨hj, h⟩ := List.getElem?_eq_some_iff.mp h
    cases (List.getElem_replicate hj).symm.trans h
  timeouts := rfl
  empty _ := .inl rfl
  once := by
    show (if input.size = 0 then [[]] else [] : List Buf).length ≤ 1
    split
    · exact le_rfl
    · exact Nat.zero_le _
  replied h := by
    have hzero : input.size = 0 := by
      by_contra hne
      exact h (if_neg hne)
    refine ⟨.inl hzero, fun j hj ↦ ?_⟩
    rw [show (start cfg coordinator input salt).job.chunks cfg = [] from
      ReadRequest.chunks_of_size_zero hzero] at hj
    cases hj

/-- A block whose callback has not looked yet keeps the caller waiting. -/
theorem Inv.replies_eq_nil {s : TimedRead} (hinv : Inv cfg s) {j : ℕ}
    (hj : j < (s.job.chunks cfg).length) (hlife : ∀ response, s.job.life j ≠ .done response) :
    s.job.replies = [] := by
  by_contra hne
  obtain ⟨response, hdone⟩ := (hinv.replied hne).2 j hj
  exact hlife response hdone

private theorem inv_fill {s : TimedRead} (hinv : Inv cfg s) (j : ℕ) (response : Packet) :
    Inv cfg (s.fill j response) where
  sent_le := hinv.sent_le
  sent := hinv.sent
  length := by
    show (s.job.accumulator.set j (some response.data)).length = _
    rw [List.length_set]
    exact hinv.length
  filled i body h := by
    by_cases hij : i = j
    · exact .inl (by rw [hij]; exact Function.update_self ..)
    · have hold : s.job.accumulator[i]? = some (some body) :=
        (List.getElem?_set_ne (Ne.symm hij)).symm.trans h
      exact (hinv.filled i body hold).imp_left (Function.update_of_ne hij ..).trans
  timeouts := hinv.timeouts
  empty := hinv.empty
  once := hinv.once
  replied := hinv.replied

private theorem inv_look {s : TimedRead} (hinv : Inv cfg s) {j : ℕ} {response : Packet}
    (hlife : s.job.life j = .answered response) (htime : InTime s (.look j)) :
    Inv cfg (s.look j response) := by
  have hsent : j < s.job.sent := hinv.sent j (by rw [hlife]; rintro ⟨⟩)
  have hreplies : s.job.replies = [] :=
    hinv.replies_eq_nil (hsent.trans_le hinv.sent_le) (by rw [hlife]; rintro _ ⟨⟩)
  have hsent' : ∀ i, Function.update s.job.life j (.done response) i ≠ .unsent →
      i < s.job.sent :=
    (Function.forall_update_iff s.job.life fun i l ↦ l ≠ .unsent → i < s.job.sent).mpr
      ⟨fun _ ↦ hsent, fun i _ ↦ hinv.sent i⟩
  have hfilled : ∀ (i : ℕ) body, s.job.accumulator[i]? = some (some body) →
      Function.update s.looking j false i = true ∨
        ∃ r, Function.update s.job.life j (.done response) i = .done r := by
    intro i body hi
    by_cases hij : i = j
    · exact .inr ⟨response, by rw [hij]; exact Function.update_self ..⟩
    · rw [Function.update_of_ne hij, Function.update_of_ne hij]
      exact hinv.filled i body hi
  rw [look]
  dsimp only
  split
  · rename_i hall
    obtain ⟨harmed, hothers⟩ := htime hall
    have hnone : s.timeouts.length = 0 := by
      rw [hinv.timeouts, harmed, if_neg (by decide)]
    refine ⟨hinv.sent_le, hsent', hinv.length, hfilled, ?_, fun _ ↦ ?_, ?_, fun _ ↦ ⟨?_, ?_⟩⟩
    · dsimp only
      rw [harmed, hnone]
      rfl
    · right
      dsimp only
      rw [harmed]
      rfl
    · rw [hreplies]
      exact le_rfl
    · right
      dsimp only
      rw [harmed]
      rfl
    · -- every place is filled, and nobody else is about to look
      intro i hi
      obtain ⟨body, hbody⟩ : ∃ body, s.job.accumulator[i]? = some (some body) := by
        have hlt : i < s.job.accumulator.length := hinv.length.symm ▸ hi
        obtain ⟨body, hbody⟩ := Option.isSome_iff_exists.mp
          (List.all_eq_true.mp hall _ (List.getElem_mem hlt))
        exact ⟨body, List.getElem?_eq_some_iff.mpr ⟨hlt, hbody⟩⟩
      refine (hfilled i body hbody).resolve_left ?_
      by_cases hij : i = j
      · rw [hij, Function.update_self]
        exact Bool.false_ne_true
      · rw [Function.update_of_ne hij, hothers i hij]
        exact Bool.false_ne_true
  · exact ⟨hinv.sent_le, hsent', hinv.length, hfilled, hinv.timeouts, hinv.empty, hinv.once,
      fun hne ↦ absurd hreplies hne⟩

theorem Inv.setTimer {s : TimedRead} (hinv : Inv cfg s) {timer : Timer} {timeouts : List Buf}
    (htimeouts : timeouts.length = if timer = .fired then 1 else 0)
    (hempty : s.job.input.size = 0 → timer = .armed ∨ timer = .cancelled)
    (hreplied : s.job.replies ≠ [] → s.job.input.size = 0 ∨ timer = .cancelled) :
    Inv cfg ⟨s.job, s.looking, timer, timeouts⟩ where
  sent_le := hinv.sent_le
  sent := hinv.sent
  length := hinv.length
  filled := hinv.filled
  timeouts := htimeouts
  empty := hempty
  once := hinv.once
  replied hne := ⟨hreplied hne, (hinv.replied hne).2⟩

private theorem Inv.setLife {s : TimedRead} (hinv : Inv cfg s) {j sent : ℕ} {l : Life}
    (hj : j < (s.job.chunks cfg).length) (hlife : ∀ response, s.job.life j ≠ .done response)
    (hle : sent ≤ (s.job.chunks cfg).length)
    (hsent : ∀ i, Function.update s.job.life j l i ≠ .unsent → i < sent) :
    Inv cfg { s with job := { s.job with sent, life := Function.update s.job.life j l } } where
  sent_le := hle
  sent := hsent
  length := hinv.length
  filled i body h := by
    rcases hinv.filled i body h with hlooking | ⟨response, hdone⟩
    · exact .inl hlooking
    · have hij : i ≠ j := by
        rintro rfl
        exact hlife response hdone
      exact .inr ⟨response, (Function.update_of_ne hij ..).trans hdone⟩
  timeouts := hinv.timeouts
  empty := hinv.empty
  once := hinv.once
  replied hne := absurd (hinv.replies_eq_nil hj hlife) hne

theorem inv_step (s : TimedRead) (e : Event) (s' : TimedRead) (htime : InTime s e)
    (h : step cfg s e = some s') (hinv : Inv cfg s) : Inv cfg s' := by
  cases e with
  | send =>
    obtain ⟨job, hstep, rfl⟩ := Option.map_eq_some_iff.mp h
    rcases ReadJob.step_cases hstep with ⟨c, -, hc, rfl⟩ | ⟨j, pack, r, heq, -⟩ | ⟨j, r, heq, -⟩
    · have hlt := (List.getElem?_eq_some_iff.mp hc).1
      have hunsent : s.job.life s.job.sent = .unsent := by
        by_contra hne
        exact lt_irrefl _ (hinv.sent _ hne)
      refine hinv.setLife hlt (by rw [hunsent]; rintro _ ⟨⟩) hlt ?_
      exact (Function.forall_update_iff s.job.life fun i l ↦ l ≠ .unsent → i < s.job.sent + 1).mpr
        ⟨fun _ ↦ Nat.lt_succ_self _, fun i _ hi ↦ Nat.lt_succ_of_lt (hinv.sent i hi)⟩
    · cases heq
    · cases heq
  | answer j response =>
    obtain ⟨job, hstep, rfl⟩ := Option.map_eq_some_iff.mp h
    rcases ReadJob.step_cases hstep with ⟨c, heq, -⟩ | ⟨j, pack, r, heq, hlife, rfl⟩ |
      ⟨j, r, heq, -⟩
    · cases heq
    · have hsent : j < s.job.sent := hinv.sent j (by rw [hlife]; rintro ⟨⟩)
      refine hinv.setLife (hsent.trans_le hinv.sent_le) (by rw [hlife]; rintro _ ⟨⟩) hinv.sent_le ?_
      exact (Function.forall_update_iff s.job.life fun i l ↦ l ≠ .unsent → i < s.job.sent).mpr
        ⟨fun _ ↦ hsent, fun i _ ↦ hinv.sent i⟩
    · cases heq
  | fill j =>
    rw [step] at h
    split at h
    · split at h
      · cases h
      · cases h
        exact inv_fill hinv j _
    · cases h
  | look j =>
    rw [step] at h
    split at h
    · rename_i response hlife
      split at h
      · cases h
        exact inv_look hinv hlife htime
      · cases h
    · cases h
  | cancel =>
    rw [step] at h
    split at h
    · rename_i hzero
      cases h
      have hcancelled : s.timer.cancel = .cancelled := by
        rcases hinv.empty hzero with harmed | hcancelled
        · rw [harmed]
          rfl
        · rw [hcancelled]
          rfl
      refine hinv.setTimer ?_ (fun _ ↦ .inr hcancelled) fun _ ↦ .inl hzero
      rw [hinv.timeouts, hcancelled]
      rcases hinv.empty hzero with harmed | hcancelled
      · rw [harmed]
        rfl
      · rw [hcancelled]
    · cases h
  | expire =>
    rw [step] at h
    split at h
    · rename_i harmed
      cases h
      refine hinv.setTimer ?_ (fun hzero ↦ absurd hzero htime) fun hne ↦ ?_
      · rw [hinv.timeouts, harmed]
        rfl
      · rcases (hinv.replied hne).1 with hzero | hcancelled
        · exact .inl hzero
        · rw [harmed] at hcancelled
          cases hcancelled
    · cases h
  | timeout =>
    rw [step] at h
    split at h
    · rename_i hexpired
      cases h
      have hsize : s.job.input.size ≠ 0 := by
        intro hzero
        rcases hinv.empty hzero with hbad | hbad <;> cases hbad.symm.trans hexpired
      refine hinv.setTimer ?_ (fun hzero ↦ absurd hzero hsize) fun hne ↦ ?_
      · rw [List.length_append, hinv.timeouts, hexpired]
        rfl
      · rcases (hinv.replied hne).1 with hzero | hcancelled
        · exact .inl hzero
        · rw [hexpired] at hcancelled
          cases hcancelled
    · cases h

private theorem answeredOnce {s : TimedRead} (hinv : Inv cfg s) : AnsweredOnce s := by
  have htimeouts := hinv.timeouts
  rw [AnsweredOnce, List.length_append]
  by_cases hfired : s.timer = .fired
  · have hnil : s.job.replies = [] := by
      by_contra hne
      rcases (hinv.replied hne).1 with hzero | hcancelled
      · rcases hinv.empty hzero with hbad | hbad <;> cases hbad.symm.trans hfired
      · cases hcancelled.symm.trans hfired
    rw [hnil, htimeouts, if_pos hfired]
    exact le_rfl
  · rw [htimeouts, if_neg hfired]
    exact hinv.once

end TimedRead

/-- **One reply.** In a run in which the deciding callback is in time, a write is answered at most
once and is not committed after its deadline, and a read is answered at most once. -/
theorem answered_once_of_inTime (blocksize : ℕ) (cfg : Config) (coordinator : ℕ)
    (written : WriteRequest) (version : UInt32) (es : List TimedWrite.Event) (asked : ReadRequest)
    (salt : ℕ → Salt) (fs : List TimedRead.Event) :
    (Meets (TimedWrite.step blocksize) (TimedWrite.InTime blocksize)
        (.start coordinator written version) es →
      Always (TimedWrite.step blocksize) TimedWrite.AnsweredOnce
        (.start coordinator written version) es) ∧
    (Meets (TimedRead.step cfg) TimedRead.InTime (.start cfg coordinator asked salt) fs →
      Always (TimedRead.step cfg) TimedRead.AnsweredOnce
        (.start cfg coordinator asked salt) fs) := by
  constructor
  · intro hmeets
    exact always_of_meets TimedWrite.inv_step (fun _ ↦ TimedWrite.answeredOnce) hmeets
      (TimedWrite.inv_start coordinator written version)
  · intro hmeets
    exact always_of_meets TimedRead.inv_step (fun _ ↦ TimedRead.answeredOnce) hmeets
      (TimedRead.inv_start coordinator asked salt)

/-- One host, and blocks of one byte. -/
def byteBlocks : Config := ⟨1, Nat.one_pos, by decide, 1, 1, fun _ _ _ ↦ Fin.last 0⟩

/-- A read of two bytes at the start of a file. -/
def readTwoBytes : ReadRequest := ⟨List.Vector.replicate 32 0, 0, 2⟩

/-- The answer to a get. -/
def byteAnswer : Packet :=
  ⟨⟨.ack, List.Vector.replicate 32 0, 0, 0, 1, 0, List.Vector.replicate 4 0⟩, [7]⟩

/-- The blocks answer in time. -/
theorem answered_once_in_time :
    (∃ s, run (TimedWrite.step 2) (.start 0 twoBytes 1) [.send, .respond 0 .twoPcPrepareAgree]
        = some s ∧ s.ballot.write.replies = [Write.ok] ∧ s.AnsweredOnce) ∧
    ∃ s, run (TimedRead.step byteBlocks) (.start byteBlocks 0 readTwoBytes fun _ ↦ .replicate 4 0)
        [.send, .send, .answer 1 byteAnswer, .fill 1, .look 1, .answer 0 byteAnswer, .fill 0,
          .look 0] = some s ∧ s.job.replies = [[7, 7]] ∧ s.AnsweredOnce := by
  constructor
  · have hmeets : Meets (TimedWrite.step 2) (TimedWrite.InTime 2) (.start 0 twoBytes 1)
        [.send, .respond 0 .twoPcPrepareAgree] := by
      refine ⟨trivial, fun s₁ h₁ ↦ ?_⟩
      cases h₁
      exact ⟨⟨.inl rfl, fun _ ↦ rfl⟩, fun _ _ ↦ trivial⟩
    refine ⟨_, rfl, by decide +kernel, ?_⟩
    have halways := (answered_once_of_inTime 2 byteBlocks 0 twoBytes 1 _ readTwoBytes
      (fun _ ↦ .replicate 4 0) []).1 hmeets
    exact (always_iff_forall_split rfl).mp halways _ [] _ (List.append_nil _).symm rfl
  · have hmeets : Meets (TimedRead.step byteBlocks) TimedRead.InTime
        (.start byteBlocks 0 readTwoBytes fun _ ↦ .replicate 4 0)
        [.send, .send, .answer 1 byteAnswer, .fill 1, .look 1, .answer 0 byteAnswer, .fill 0,
          .look 0] := by
      refine ⟨trivial, fun s₁ h₁ ↦ ?_⟩
      cases h₁
      refine ⟨trivial, fun s₂ h₂ ↦ ?_⟩
      cases h₂
      refine ⟨trivial, fun s₃ h₃ ↦ ?_⟩
      cases h₃
      refine ⟨trivial, fun s₄ h₄ ↦ ?_⟩
      cases h₄
      refine ⟨by rintro ⟨⟩, fun s₅ h₅ ↦ ?_⟩
      cases h₅
      refine ⟨trivial, fun s₆ h₆ ↦ ?_⟩
      cases h₆
      refine ⟨trivial, fun s₇ h₇ ↦ ?_⟩
      cases h₇
      refine ⟨fun _ ↦ ⟨rfl, fun i hi ↦ ?_⟩, fun _ _ ↦ trivial⟩
      rcases i with _ | _ | i
      · exact absurd rfl hi
      · rfl
      · rfl
    refine ⟨_, rfl, by decide +kernel, ?_⟩
    have halways := (answered_once_of_inTime 2 byteBlocks 0 twoBytes 1 [] readTwoBytes _ _).2 hmeets
    exact (always_iff_forall_split rfl).mp halways _ [] _ (List.append_nil _).symm rfl

/-- **A late answer is a second reply.** The prepare of a write is answered after the deadline, and
the write is committed. Two callbacks of a read fill their places before they look. -/
theorem late_answer_replies_again :
    (¬∀ (blocksize coordinator : ℕ) (input : WriteRequest) (version : UInt32)
      (es : List TimedWrite.Event) (s : TimedWrite),
      run (TimedWrite.step blocksize) (.start coordinator input version) es = some s →
        (s.ballot.write.replies ++ s.timeouts).length ≤ 1) ∧
    (¬∀ (blocksize coordinator : ℕ) (input : WriteRequest) (version : UInt32)
      (es : List TimedWrite.Event) (s : TimedWrite),
      run (TimedWrite.step blocksize) (.start coordinator input version) es = some s →
        s.timeouts ≠ [] → s.ballot.write.commits = []) ∧
    ¬∀ (cfg : Config) (coordinator : ℕ) (input : ReadRequest) (salt : ℕ → Salt)
      (es : List TimedRead.Event) (s : TimedRead),
      run (TimedRead.step cfg) (.start cfg coordinator input salt) es = some s →
        s.AnsweredOnce := by
  refine ⟨fun h ↦ ?_, fun h ↦ ?_, fun h ↦ ?_⟩
  · exact absurd (h 2 0 twoBytes 1
      [.send, .expire, .timeout, .respond 0 .twoPcPrepareAgree] _ rfl) (by decide +kernel)
  · exact absurd (h 2 0 twoBytes 1
      [.send, .expire, .timeout, .respond 0 .twoPcPrepareAgree] _ rfl) (by decide +kernel)
  · refine absurd (h byteBlocks 0 readTwoBytes (fun _ ↦ .replicate 4 0)
      [.send, .send, .answer 0 byteAnswer, .answer 1 byteAnswer, .fill 0, .fill 1, .look 0,
        .look 1] _ rfl) ?_
    unfold TimedRead.AnsweredOnce
    decide +kernel

end Slsfs.Datafunction

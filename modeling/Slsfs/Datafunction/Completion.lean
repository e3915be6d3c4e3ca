import Slsfs.Datafunction.ReadJob

/-!
# Requests that have run to their end

When all prepares and commits of a write are done, nothing but copies is under way. Of the race
between the send loop and the callbacks one thing is left: the decision that is made when the last
vote comes in. Its commits are sent after all votes, so what they have executed is what the prepares
have logged. `Job.LastExecuted` says that of any property of blocks.
-/

namespace Slsfs.Datafunction

open LeveldbPack

variable {cfg : Config}

/-! ## Requests that have run to their end

A complete write has no message left but copies, whose callbacks send nothing. So it stays complete,
and its steps change nothing of the primary blocks. -/

namespace Job

variable {job job' : Job}

/-- All prepares and commits have been sent and their callbacks have run. Copies may still be on
their way. -/
structure Complete (cfg : Config) (job : Job) : Prop where
  sent : job.write.sent = (job.chunks cfg).length
  votes : ∀ j < (job.chunks cfg).length, (job.life (.vote j)).isDone = true
  commits : ∀ k < job.write.commits.length, ∀ j < (job.chunks cfg).length,
    (job.life (.commit k j)).isDone = true

instance (job : Job) : Decidable (job.Complete cfg) :=
  decidable_of_iff (job.write.sent = (job.chunks cfg).length ∧
    (∀ j < (job.chunks cfg).length, (job.life (.vote j)).isDone = true) ∧
    ∀ k < job.write.commits.length, ∀ j < (job.chunks cfg).length,
      (job.life (.commit k j)).isDone = true)
    ⟨fun h ↦ ⟨h.1, h.2.1, h.2.2⟩, fun h ↦ ⟨h.1, h.2, h.3⟩⟩

theorem Complete.isReplica (hc : job.Complete cfg) (hinv : job.Inv cfg) {t : WriteTicket}
    (hsent : job.life t ≠ .unsent) (hopen : (job.life t).isDone = false) : t.isReplica = true := by
  cases t with
  | vote j =>
    have hlt := (hinv.vote_sent j).mp hsent
    rw [hc.votes j (by rw [← hc.sent]; exact hlt)] at hopen
    cases hopen
  | commit k j =>
    obtain ⟨hk, hj⟩ := (hinv.commit_sent k j).mp hsent
    rw [hc.commits k hk j hj] at hopen
    cases hopen
  | replica => rfl

private theorem Complete.update (hc : job.Complete cfg) {t : WriteTicket} {l : Life}
    (ht : t.isReplica = true) :
    Complete cfg { job with life := Function.update job.life t l } := by
  cases t with
  | vote | commit => cases ht
  | replica k i r =>
    refine ⟨hc.sent, fun j hj ↦ ?_, fun k hk j hj ↦ ?_⟩
    · dsimp only
      rw [Function.update_of_ne (by simp)]
      exact hc.votes j hj
    · dsimp only
      rw [Function.update_of_ne (by simp)]
      exact hc.commits k hk j hj

theorem Complete.step (hinv : job.Inv cfg) {e : Event} (h : job.step cfg e = some job')
    (hc : job.Complete cfg) : job'.Complete cfg := by
  rcases step_cases h with ⟨checked, c, -, hget, rfl⟩ | ⟨t, pack, response, -, ht, rfl⟩ |
    ⟨t, response, -, ht, rfl⟩
  · rw [hc.sent, List.getElem?_length] at hget
    cases hget
  · exact hc.update (hc.isReplica hinv (by rw [ht]; simp) (by rw [ht]; rfl))
  · have hreplica := hc.isReplica hinv (by rw [ht]; simp) (by rw [ht]; rfl)
    cases t with
    | vote | commit => cases hreplica
    | replica k j r => exact hc.update rfl

/-! ## The last decision

Of all calls of `start_2pc_commit` the one that was made last had all votes. What its executes find
is what the prepares have logged, if nobody else has been there. -/

/-- Once all votes are in, the commits of the last decision that have been handled are of blocks
with `P`. -/
def LastExecuted (cfg : Config) (job : Job) (P : ℕ → Prop) : Prop :=
  (∀ j < (job.chunks cfg).length, (job.life (.vote j)).isDone = true) →
    ∀ j < (job.chunks cfg).length,
      (job.life (.commit (job.write.commits.length - 1) j)).handled = true → P j

theorem LastExecuted.mono {P Q : ℕ → Prop} (hPQ : ∀ j, P j → Q j) (h : job.LastExecuted cfg P) :
    job.LastExecuted cfg Q :=
  fun hvotes j hj hhandled ↦ hPQ j (h hvotes j hj hhandled)

/-- The commits of a decision are sent after the callback that makes it, so what the last decision
has executed has been executed after all votes. -/
theorem LastExecuted.step {P : ℕ → Prop} (hinv : job.Inv cfg) {e : Event}
    (h : job.step cfg e = some job')
    (hanswer : ∀ k j response, e = .answer (.commit k j) response →
      (∀ i < (job.chunks cfg).length, (job.life (.vote i)).isDone = true) → P j)
    (hlast : job.LastExecuted cfg P) : job'.LastExecuted cfg P := by
  intro hvotes j hj hhandled
  rcases step_cases h with ⟨checked, c, -, hget, rfl⟩ | ⟨t, pack, response, rfl, ht, rfl⟩ |
    ⟨t, response, -, ht, rfl⟩
  · -- the vote just asked for is not in
    have hmissing := hvotes job.write.sent (List.getElem?_eq_some_iff.mp hget).1
    dsimp only at hmissing
    rw [Function.update_self] at hmissing
    cases hmissing
  · dsimp only at hvotes hhandled
    have hold : ∀ i < (job.chunks cfg).length, (job.life (.vote i)).isDone = true := by
      intro i hi
      have hdone := hvotes i hi
      by_cases hti : .vote i = t
      · rw [hti, Function.update_self] at hdone
        cases hdone
      · rwa [Function.update_of_ne hti] at hdone
    by_cases htj : .commit (job.write.commits.length - 1) j = t
    · exact hanswer _ j response (by rw [htj]) hold
    · rw [Function.update_of_ne htj] at hhandled
      exact hlast hold j hj hhandled
  · cases t with
    | vote i =>
      have hwrite := callback_vote_write cfg job response i
      have hchunks : (job.callback cfg (.vote i) response).1.chunks cfg = job.chunks cfg := by
        rw [chunks, hwrite, Write.onVote_input, chunks]
      rw [hchunks] at hvotes hj
      -- it was the last vote, so it has made a decision
      have hone : job.write.outstandingRequests = 1 := by
        refine Ballot.outstanding_eq_one (s := job.ballot) (i := i) hinv.ballot.outstanding
          ((hinv.vote_sent i).mp (by rw [ht]; simp)) (by simp only [ballot, ht]; rfl)
          fun j hjs hji ↦ ?_
        have hdone := hvotes j (hjs.trans_le hinv.ballot.sent_le)
        rw [callback_life_vote, Function.update_of_ne (by simpa using hji)] at hdone
        change (job.life (.vote j)).seen ≠ none
        cases hlife : job.life (.vote j) with
        | done r => simp [Life.seen]
        | unsent | requested | answered => rw [hlife] at hdone; cases hdone
      have hlength : (job.callback cfg (.vote i) response).1.write.commits.length - 1
          = job.write.commits.length := by
        rw [hwrite, Write.onVote_commits, if_pos hone]
        simp
      rw [hlength, callback_life_commit_of_some cfg job response hone
        (List.getElem?_eq_getElem hj)] at hhandled
      cases hhandled
    | commit k i =>
      obtain ⟨commits, hwrite, hmap⟩ := callback_commit_write cfg job response k i
      have hchunks : (job.callback cfg (.commit k i) response).1.chunks cfg = job.chunks cfg := by
        rw [chunks, hwrite, chunks]
      have hlength : commits.length = job.write.commits.length := by
        simpa using congrArg List.length hmap
      rw [hchunks] at hvotes hj
      refine hlast (fun i' hi' ↦ ?_) j hj ?_
      · have hdone := hvotes i' hi'
        rwa [callback_life_vote, Function.update_of_ne (by simp)] at hdone
      · rw [hwrite, hlength, callback_life_commit cfg job response (by simp)] at hhandled
        by_cases hkj : (.commit (job.write.commits.length - 1) j : WriteTicket) = .commit k i
        · rw [hkj, ht]
          rfl
        · rwa [Function.update_of_ne hkj] at hhandled
    | replica k i r =>
      rw [callback_replica] at hvotes hhandled hj
      dsimp only at hvotes hhandled
      refine hlast (fun i' hi' ↦ ?_) j hj ?_
      · have hdone := hvotes i' hi'
        rwa [Function.update_of_ne (by simp)] at hdone
      · rwa [Function.update_of_ne (by simp)] at hhandled

theorem LastExecuted.run {P : ℕ → Prop} (hinv : job.Inv cfg) {events : List Event}
    (h : run (Job.step cfg) job events = some job')
    (hnone : ∀ k j response, Event.answer (.commit k j) response ∉ events)
    (hlast : job.LastExecuted cfg P) : job'.LastExecuted cfg P := by
  induction events generalizing job with
  | nil =>
    rw [run_nil, Option.some_inj] at h
    exact h ▸ hlast
  | cons e es ih =>
    obtain ⟨mid, hmid, hrest⟩ := run_cons_eq_some.mp h
    refine ih (inv_step job e mid hmid hinv) hrest (fun k j r hmem ↦ hnone k j r ?_)
      (hlast.step hinv hmid fun k j r he ↦ absurd ?_ (hnone k j r))
    · exact List.mem_cons_of_mem _ hmem
    · rw [he]
      exact List.mem_cons_self

theorem Complete.run (hinv : job.Inv cfg) {events : List Event}
    (h : Slsfs.run (Job.step cfg) job events = some job') (hc : job.Complete cfg) :
    job'.Complete cfg :=
  (invariant_run_of_step (I := fun job ↦ job.Inv cfg ∧ job.Complete cfg)
    (fun job e job' h hI ↦ ⟨inv_step job e job' h hI.1, hI.2.step hI.1 h⟩) h ⟨hinv, hc⟩).2

end Job

namespace ReadJob

variable {job job' : ReadJob}

/-- All gets have been sent and their callbacks have run. -/
structure Complete (cfg : Config) (job : ReadJob) : Prop where
  sent : job.sent = (job.chunks cfg).length
  gets : ∀ j < (job.chunks cfg).length, (job.life j).isDone = true

instance (job : ReadJob) : Decidable (job.Complete cfg) :=
  decidable_of_iff (job.sent = (job.chunks cfg).length ∧
    ∀ j < (job.chunks cfg).length, (job.life j).isDone = true)
    ⟨fun h ↦ ⟨h.1, h.2⟩, fun h ↦ ⟨h.1, h.2⟩⟩

theorem Complete.isDone (hc : job.Complete cfg) (hinv : job.Inv cfg) {j : ℕ}
    (hsent : job.life j ≠ .unsent) : (job.life j).isDone = true :=
  hc.gets j (by rw [← hc.sent]; exact (hinv.get_sent j).mp hsent)

private theorem Complete.step_eq_none (hc : job.Complete cfg) (hinv : job.Inv cfg) (e : Event) :
    job.step cfg e = none := by
  by_contra hne
  obtain ⟨job', h⟩ := Option.ne_none_iff_exists'.mp hne
  rcases step_cases h with ⟨c, -, hget, -⟩ | ⟨j, pack, response, -, hj, -⟩ | ⟨j, response, -, hj, -⟩
  · rw [hc.sent, List.getElem?_length] at hget
    cases hget
  · have hdone := hc.isDone hinv (by rw [hj]; simp)
    rw [hj] at hdone
    cases hdone
  · have hdone := hc.isDone hinv (by rw [hj]; simp)
    rw [hj] at hdone
    cases hdone

theorem Complete.run (hc : job.Complete cfg) (hinv : job.Inv cfg) {events : List Event}
    (h : Slsfs.run (ReadJob.step cfg) job events = some job') : job'.Complete cfg := by
  cases events with
  | nil =>
    rw [run_nil, Option.some_inj] at h
    exact h ▸ hc
  | cons e es =>
    obtain ⟨mid, hmid, -⟩ := run_cons_eq_some.mp h
    rw [hc.step_eq_none hinv e] at hmid
    cases hmid

end ReadJob

end Slsfs.Datafunction

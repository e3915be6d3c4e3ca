import Slsfs.Datafunction.Overlap

/-!
# All or nothing

A write over several blocks that is alone on its blocks, and whose callbacks run after the send
loop, is done everywhere or nowhere, whatever state the servers are in: a block with a pending log
of an earlier coordinator refuses a full prepare, and the rollback that follows leaves all committed
blocks as they were.

Since the callbacks are late, the coordinator decides once and on all votes (`Ballot.Once`), so a
commit of a block is handled after its prepare, if that got through at all. What the block holds
then depends on how far its two messages have come, which is `Phase`.
-/

namespace Slsfs.Datafunction

open LeveldbPack Ssbd

variable {cfg : Config}

/-! ## One decision

Each step of the system is a step of the ballot of the write or leaves the ballot alone. So what
holds in every run of a ballot whose callbacks come late holds here: there is one call of
`start_2pc_commit` at most, and it is made with all votes counted. -/

namespace Job

variable {job job' : Job}

private theorem ballot_step (hinv : job.Inv cfg) {e : Event} (h : job.step cfg e = some job') :
    (job'.ballot.votes = job.ballot.votes ∧ job'.write.sent = job.write.sent ∧
      job'.write.input = job.write.input ∧ job'.write.allSsbdAgree = job.write.allSsbdAgree ∧
      job'.write.commits.map CommitCall.allSsbdAgree
        = job.write.commits.map CommitCall.allSsbdAgree) ∨
    (Ballot.step cfg.blocksize job.ballot .send = some job'.ballot ∧ ∃ checked, e = .send checked) ∨
    ∃ j type, e = .callback (.vote j) ∧
      Ballot.step cfg.blocksize job.ballot (.respond j type) = some job'.ballot := by
  rcases step_cases h with ⟨checked, c, rfl, hc, rfl⟩ | ⟨t, pack, response, -, ht, rfl⟩ |
    ⟨t, response, rfl, ht, rfl⟩
  · refine Or.inr (Or.inl ⟨?_, checked, rfl⟩)
    have hunsent : job.life (.vote job.write.sent) = .unsent := by
      by_contra hne
      exact absurd ((hinv.vote_sent _).mp hne) (lt_irrefl _)
    have hvotes := seen_update_of_ne job.life (t := .vote job.write.sent)
      (.requested (job.write.preparePacket (job.salt (.vote job.write.sent)) checked c))
      (by rw [hunsent]; rfl)
    have hstep : Ballot.step cfg.blocksize job.ballot .send
        = some { job.ballot with write := job.write.sendOne } :=
      if_pos (List.getElem?_eq_some_iff.mp hc).1
    rw [hstep]
    simp only [ballot, hvotes]
  · exact Or.inl ⟨seen_update_of_ne _ _ (by rw [ht]; rfl), rfl, rfl, rfl, rfl⟩
  · cases t with
    | vote j =>
      refine Or.inr (Or.inr ⟨j, response.header.type, rfl, ?_⟩)
      have hsent : j < job.write.sent := (hinv.vote_sent j).mp (by rw [ht]; simp)
      have hnone : job.ballot.votes j = none := by
        simp only [ballot, ht]
        rfl
      have hstep : Ballot.step cfg.blocksize job.ballot (.respond j response.header.type)
          = some ⟨job.write.onVote cfg.blocksize response.header.type,
              Function.update job.ballot.votes j (some response.header.type)⟩ :=
        if_pos ⟨hsent, hnone⟩
      rw [hstep]
      simp only [ballot, callback_vote_write, callback_life_vote, seen_update_vote]
      rfl
    | commit call j =>
      obtain ⟨commits, hwrite, hmap⟩ := callback_commit_write cfg job response call j
      refine Or.inl ⟨?_, by rw [hwrite], by rw [hwrite], by rw [hwrite], by rw [hwrite]; exact hmap⟩
      simp only [ballot, callback_life_vote]
      exact seen_update_of_not_vote _ (by simp)
    | replica call j index =>
      refine Or.inl ⟨?_, rfl, rfl, rfl, rfl⟩
      rw [callback_replica]
      exact seen_update_of_not_vote job.life (t := .replica call j index) (l := .done response)
        (by simp)

theorem once_step (hinv : job.Inv cfg) {e : Event} (h : job.step cfg e = some job')
    (hloop : ∀ j, e = .callback (.vote j) → job.write.sent = (job.chunks cfg).length)
    (honce : Ballot.Once cfg.blocksize job.ballot) :
    Ballot.Once cfg.blocksize job'.ballot := by
  rcases ballot_step hinv h with
    ⟨hvotes, -, hinput, hagree, hmap⟩ | ⟨hstep, -⟩ | ⟨j, type, rfl, hstep⟩
  · have hblocks : job'.ballot.blocks cfg.blocksize = job.ballot.blocks cfg.blocksize := by
      simp only [Ballot.blocks, ballot, hinput]
    refine ⟨fun i hi hn ↦ ?_, fun hall ↦ ?_⟩
    · rw [hblocks] at hi
      rw [hvotes] at hn
      have hnil : job.write.commits = [] := honce.open_ i hi hn
      rw [hnil, List.map_nil, List.map_eq_nil_iff] at hmap
      exact hmap
    · rw [hblocks, hvotes] at hall
      have hclosed : job.write.commits.map CommitCall.allSsbdAgree = [job.write.allSsbdAgree] :=
        honce.closed hall
      rw [← hmap, ← hagree] at hclosed
      exact hclosed
  · have hfirst : Ballot.LoopFirst cfg.blocksize job.ballot .send := trivial
    exact Ballot.once_step _ _ _ hfirst hstep hinv.ballot honce
  · have hfirst : Ballot.LoopFirst cfg.blocksize job.ballot (.respond j type) :=
      Or.inl (hloop j rfl)
    exact Ballot.once_step _ _ _ hfirst hstep hinv.ballot honce

private theorem once_run (hinv : job.Inv cfg) {events : List Event}
    (h : run (step cfg) job events = some job')
    (hloop : ∀ j, .callback (.vote j) ∈ events → job.write.sent = (job.chunks cfg).length)
    (honce : Ballot.Once cfg.blocksize job.ballot) :
    Ballot.Once cfg.blocksize job'.ballot := by
  induction events generalizing job with
  | nil =>
    rw [run_nil, Option.some_inj] at h
    rwa [← h]
  | cons e es ih =>
    obtain ⟨mid, hmid, hrest⟩ := run_cons_eq_some.mp h
    refine ih (inv_step job e mid hmid hinv) hrest (fun j hmem ↦ ?_)
      (once_step hinv hmid (fun j he ↦ hloop j (by rw [he]; exact List.mem_cons_self)) honce)
    have hall := hloop j (List.mem_cons_of_mem _ hmem)
    rcases ballot_step hinv hmid with ⟨-, hsent, hinput, -⟩ | ⟨hstep, -⟩ | ⟨i, type, -, hstep⟩
    · rw [hsent, chunks, hinput]
      exact hall
    · rcases Ballot.step_cases hstep with ⟨-, hlt, -⟩ | ⟨_, _, he, -⟩
      · exact absurd hall hlt.ne
      · cases he
    · rcases Ballot.step_cases hstep with ⟨he, -⟩ | ⟨_, _, -, -, -, -, hwrite⟩
      · cases he
      · have hwrite' : mid.write = job.write.onVote cfg.blocksize _ := hwrite
        rw [chunks, hwrite', Write.onVote_sent, Write.onVote_input]
        exact hall

end Job

/-! ## The phases of a block

For one block of the write: nothing has happened; the prepare has been handled, and it was agreed to
or refused; the commit has been handled. With the content that the block had at the start, a phase
determines the content it has now. The other messages of the write are for other blocks, and nobody
else has messages for this one (`Alone`), so a phase is left only by the next message for the block.

At the end all blocks are in a last phase, and the decision is the same for all of them. -/

/-- Where a piece of a range goes, and what is laid there. -/
def WriteRequest.patch (input : WriteRequest) (old : Buf) (c : Chunk) : Buf :=
  overlay 0 old c.offset (input.slice c)

namespace Cluster

variable {s s' : Cluster}

/-- Callbacks of the prepares of write `w` run after its send loop. -/
def AfterLoop (cfg : Config) (w : ℕ) (s : Cluster) : Event → Prop
  | .callback (.write v (.vote _)) | .writeError (.write v (.vote _)) =>
    v = w → ∀ job ∈ s.writes w, job.write.sent = (job.chunks cfg).length
  | _ => True

instance (w : ℕ) (s : Cluster) (e : Event) : Decidable (AfterLoop cfg w s e) :=
  match e with
  | .callback (.write v (.vote _)) | .writeError (.write v (.vote _)) =>
    inferInstanceAs (Decidable (v = w → ∀ job ∈ s.writes w,
      job.write.sent = (job.chunks cfg).length))
  | .callback (.write _ (.commit _ _)) | .callback (.write _ (.replica _ _ _))
  | .callback (.read _ _) | .writeError (.write _ (.commit _ _))
  | .writeError (.write _ (.replica _ _ _)) | .writeError (.read _ _) | .startWrite _ _ _ _
  | .sendPrepare _ | .startRead _ _ _ | .sendGet _ | .handle _ _ => .isTrue trivial

/-- What a server has handled is not on its way any more. -/
def Acted (s : Cluster) : Prop :=
  ∀ w t, t.isReplica = false → s.Delivered (.write w t) →
    ∃ job, s.writes w = some job ∧ (job.life t).handled = true

theorem acted_step (hinv : s.Inv cfg) {e : Event} (h : step cfg s e = some s') (hs : s.Acted) :
    s'.Acted := by
  intro w t ht hd
  rcases delivered_step h hd with hd | ⟨stray, rfl⟩
  · obtain ⟨job, hjob, hhandled⟩ := hs w t ht hd
    obtain ⟨job', hjob', hle⟩ := write_le hinv h hjob
    exact ⟨job', hjob', hle.handled t ht hhandled⟩
  · obtain ⟨conn, pack, arrived, received, _, _, -, hlife, -, -, hwrites, -⟩ := step_handle h
    obtain ⟨job, hjob, -⟩ := life_write_eq (by simp) hlife
    refine ⟨job.answer t received, ?_, ?_⟩
    · rw [hwrites, answer, hjob]
      exact Function.update_self _ _ _
    · rw [Job.answer_life, Function.update_self]
      rfl

/-- What block `b` of the piece `c` holds, by how far the two messages of the write for it have
come. `old` is the block before the write. -/
structure Phase (s : Cluster) (w j : ℕ) (job : Job) (c : Chunk) (old blk : Block) : Prop where
  untouched : (job.life (.vote j)).reply = none → blk = old
  pending : ∀ response, (job.life (.vote j)).reply = some response →
    response.header.type = .twoPcPrepareAgree → ¬s.Delivered (.write w (.commit 0 j)) →
    blk.pendingData = job.write.input.patch (old.content.getD []) c
  kept : ¬(s.Delivered (.write w (.commit 0 j)) ∧
      job.write.commits.map CommitCall.allSsbdAgree = [true]) →
    old.content ≠ none → blk.content = old.content
  executed : s.Delivered (.write w (.commit 0 j)) →
    job.write.commits.map CommitCall.allSsbdAgree = [true] →
    blk.content = some (job.write.input.patch (old.content.getD []) c)

/-! ## The phases in a run

The step of the invariant goes by the message: a prepare or a commit of this write for the block
moves its phase on, and everything else leaves the block as it is. The answers that come back say
the same as the phases. -/

/-- No other write has a piece in a block of the request. -/
def Alone (cfg : Config) (w : ℕ) (input : WriteRequest) (s : Cluster) : Prop :=
  ∀ v job, v ≠ w → s.writes v = some job → ∀ c ∈ input.chunks cfg.blocksize,
    ∀ d ∈ job.chunks cfg, d.blockOf job.write.input.uuid ≠ c.blockOf input.uuid

theorem Alone.of_step {w : ℕ} {input : WriteRequest} (hinv : s.Inv cfg) {e : Event}
    (h : step cfg s e = some s') (ha : Alone cfg w input s') : Alone cfg w input s := by
  intro v job hv hjob c hc d hd
  obtain ⟨job', hjob', hle⟩ := write_le hinv h hjob
  have hne := ha v job' hv hjob' c hc d (by rwa [Job.chunks, hle.input])
  rwa [hle.input] at hne

private theorem Alone.block_ne {w : ℕ} {input : WriteRequest} (ha : Alone cfg w input s)
    (hinput : ∀ job, s.writes w = some job → job.write.input = input) {j : ℕ} {c : Chunk}
    (hc : (input.chunks cfg.blocksize)[j]? = some c) {v : ℕ} {t : WriteTicket} {job : Job}
    {d : Chunk} {arrived received : Packet} (hh : Handles cfg s s' v t job d arrived received)
    (hne : v = w → t.block ≠ j) : s'.primary cfg (c.blockOf input.uuid)
      = s.primary cfg (c.blockOf input.uuid) := by
  rw [hh.blocks, Function.update_of_ne]
  rw [hh.block]
  by_cases hv : v = w
  · subst hv
    intro heq
    have hjob := hinput job hh.found
    have hd := hh.chunk
    rw [Job.chunks, hjob] at hd
    rw [hjob] at heq
    exact hne rfl (input.index_unique cfg hd hc input.uuid heq.symm)
  · exact (ha v job hv hh.found c (List.mem_of_getElem? hc) d (List.mem_of_getElem? hh.chunk)).symm

theorem Alone.primary_step {w : ℕ} {input : WriteRequest} (hinv : s.Inv cfg)
    (ha : Alone cfg w input s) (hinput : ∀ job, s.writes w = some job → job.write.input = input)
    {j : ℕ} {c : Chunk} (hc : (input.chunks cfg.blocksize)[j]? = some c) {e : Event}
    (h : step cfg s e = some s') (hvote : ∀ stray, e ≠ .handle (.write w (.vote j)) stray)
    (hcommit : ∀ k stray, e ≠ .handle (.write w (.commit k j)) stray) :
    s'.primary cfg (c.blockOf input.uuid) = s.primary cfg (c.blockOf input.uuid) := by
  by_cases hv : ∃ v i stray, e = .handle (.write v (.vote i)) stray
  · obtain ⟨v, i, stray, rfl⟩ := hv
    obtain ⟨job, d, arrived, received, hh, -⟩ := handle_vote hinv h
    refine ha.block_ne hinput hc hh fun hvw hij ↦ hvote stray ?_
    rw [hvw, show i = j from hij]
  by_cases hm : ∃ v k i stray, e = .handle (.write v (.commit k i)) stray
  · obtain ⟨v, k, i, stray, rfl⟩ := hm
    obtain ⟨job, d, arrived, received, call, hh, -⟩ := handle_commit hinv h
    refine ha.block_ne hinput hc hh fun hvw hij ↦ hcommit k stray ?_
    rw [hvw, show i = j from hij]
  · push Not at hv hm
    rw [Cluster.primary_step hinv h hv hm]

/-- The write in progress: it decides once, and its blocks are in their phases. -/
structure Phased (cfg : Config) (w : ℕ) (input : WriteRequest) (old : BlockId → Block)
    (s : Cluster) : Prop where
  inv : s.Inv cfg
  acted : s.Acted
  once : ∀ job, s.writes w = some job → job.write.input = input →
    Ballot.Once cfg.blocksize job.ballot
  before : Alone cfg w input s → s.writes w = none → ∀ c ∈ input.chunks cfg.blocksize,
    s.primary cfg (c.blockOf input.uuid) = old (c.blockOf input.uuid)
  phase : Alone cfg w input s → ∀ job, s.writes w = some job → job.write.input = input →
    ∀ j c, (input.chunks cfg.blocksize)[j]? = some c →
      Phase s w j job c (old (c.blockOf input.uuid)) (s.primary cfg (c.blockOf input.uuid))

private theorem phased_init (w : ℕ) (input : WriteRequest) (server : ℕ → Server)
    (checked : ℕ → Key → Bool) :
    Phased cfg w input ((init server checked).primary cfg) (init server checked) where
  inv := inv_init server checked
  acted := fun _ _ _ ⟨_, hmem, _⟩ ↦ by cases hmem
  once _ h := nomatch h
  before _ _ _ _ := rfl
  phase _ _ h := nomatch h

namespace Phased

variable {w : ℕ} {input : WriteRequest} {old : BlockId → Block}

theorem once_step (hne : input.chunks cfg.blocksize ≠ []) (hs : Phased cfg w input old s)
    {e : Event} (hloop : AfterLoop cfg w s e) (h : step cfg s e = some s') (job' : Job)
    (hw : s'.writes w = some job') (hinput : job'.write.input = input) :
    Ballot.Once cfg.blocksize job'.ballot := by
  rcases write_step h w with hsame | ⟨-, _, _, _, _, -, hstart⟩ |
    ⟨job, new, events, hjob, hnew, hrun, hmoves⟩
  · exact hs.once job' (by rw [← hsame, hw]) hinput
  · rw [hw, Option.some_inj] at hstart
    subst hstart
    exact Ballot.once_start (by rw [← hinput] at hne; exact hne)
  · rw [hw, Option.some_inj] at hnew
    subst hnew
    have hle := Job.le_run (hs.inv.write w job hjob) hrun
    refine Job.once_run (hs.inv.write w job hjob) hrun (fun j hmem ↦ ?_)
      (hs.once job hjob (by rw [← hle.input, hinput]))
    rcases hmoves _ hmem with rfl | rfl
    · exact hloop rfl job hjob
    · exact hloop rfl job hjob

private theorem commits_of_delivered (hs : Phased cfg w input old s) {job : Job}
    (hjob : s.writes w = some job) (hinput : job.write.input = input) {j : ℕ}
    (hd : s.Delivered (.write w (.commit 0 j))) : ∃ agree,
      job.write.commits.map CommitCall.allSsbdAgree = [agree] := by
  obtain ⟨job₁, hjob₁, hhandled⟩ := hs.acted w (.commit 0 j) rfl hd
  rw [hjob, Option.some_inj] at hjob₁
  subst hjob₁
  have hinv := hs.inv.write w job hjob
  have hsent : job.life (.commit 0 j) ≠ .unsent := by
    intro hu
    rw [hu] at hhandled
    cases hhandled
  have hpos := ((hinv.commit_sent 0 j).mp hsent).1
  have hle : job.write.commits.length ≤ 1 :=
    (Ballot.safe_of_once hinv.ballot (hs.once job hjob hinput)).commit_once
  rw [← List.length_map (f := CommitCall.allSsbdAgree)] at hpos hle
  exact List.length_eq_one_iff.mp (by omega)

private theorem commits_step (hne : input.chunks cfg.blocksize ≠ []) (hs : Phased cfg w input old s)
    {e : Event} (hloop : AfterLoop cfg w s e) (h : step cfg s e = some s') {job job' : Job}
    (hjob : s.writes w = some job) (hinput : job.write.input = input)
    (hjob' : s'.writes w = some job') (hle : job.Le job') {j : ℕ}
    (hd : s.Delivered (.write w (.commit 0 j))) :
    job'.write.commits.map CommitCall.allSsbdAgree
      = job.write.commits.map CommitCall.allSsbdAgree := by
  obtain ⟨agree, hone⟩ := hs.commits_of_delivered hjob hinput hd
  have honce := hs.once_step hne hloop h job' hjob' (by rw [hle.input, hinput])
  have hlen : job'.write.commits.length ≤ 1 := (Ballot.safe_of_once
    ((inv_step s e s' h hs.inv).write w job' hjob').ballot honce).commit_once
  have hcommits := hle.commits
  refine (hcommits.eq_of_length_le ?_).symm
  rw [hone, List.length_map, List.length_singleton]
  exact hlen

private theorem phase_quiet (hne : input.chunks cfg.blocksize ≠ []) (hs : Phased cfg w input old s)
    {e : Event} (hloop : AfterLoop cfg w s e) (h : step cfg s e = some s') {job job' : Job}
    (hjob : s.writes w = some job) (hinput : job.write.input = input)
    (hjob' : s'.writes w = some job') (hle : job.Le job') {j : ℕ} {c : Chunk} {blk : Block}
    (hreply : ∀ response, (job'.life (.vote j)).reply = some response →
      response.header.type = .twoPcPrepareAgree → (job.life (.vote j)).reply = some response)
    (hcommit : ∀ stray, e ≠ .handle (.write w (.commit 0 j)) stray) {b : Block}
    (hphase : Phase s w j job c b blk) : Phase s' w j job' c b blk := by
  have hdelivered : s'.Delivered (.write w (.commit 0 j)) →
      s.Delivered (.write w (.commit 0 j)) := by
    intro hd
    rcases delivered_step h hd with hd | ⟨stray, rfl⟩
    · exact hd
    · exact absurd rfl (hcommit stray)
  have hcommits : s.Delivered (.write w (.commit 0 j)) →
      job'.write.commits.map CommitCall.allSsbdAgree
        = job.write.commits.map CommitCall.allSsbdAgree :=
    fun hd ↦ hs.commits_step hne hloop h hjob hinput hjob' hle hd
  have hmono : s.Delivered (.write w (.commit 0 j)) → s'.Delivered (.write w (.commit 0 j)) :=
    fun hd ↦ hd.step h
  refine ⟨fun hnone ↦ hphase.untouched ?_, fun response hr hagree hnot ↦ ?_, fun hnot ↦ ?_,
    fun hd hagree ↦ ?_⟩
  · -- an answer would still be there
    by_contra hsome
    obtain ⟨response, hsome⟩ := Option.ne_none_iff_exists'.mp hsome
    obtain ⟨response', hsome'⟩ := Life.handled_iff.mp
      (hle.handled (.vote j) rfl (Life.handled_iff.mpr ⟨response, hsome⟩))
    rw [hnone] at hsome'
    cases hsome'
  · rw [hle.input]
    exact hphase.pending response (hreply response hr hagree) hagree fun hd ↦ hnot (hmono hd)
  · exact hphase.kept fun ⟨hd, hagree⟩ ↦ hnot ⟨hmono hd, (hcommits hd).trans hagree⟩
  · rw [hle.input]
    exact hphase.executed (hdelivered hd) ((hcommits (hdelivered hd)).symm.trans hagree)

private theorem phase_vote (hs : Phased cfg w input old s) {j : ℕ} {stray : ℕ → UInt8}
    (h : step cfg s (.handle (.write w (.vote j)) stray) = some s')
    (ha : Alone cfg w input s) {job : Job} (hjob : s.writes w = some job)
    (hinput : job.write.input = input) {c : Chunk}
    (hc : (input.chunks cfg.blocksize)[j]? = some c) {job' : Job}
    (hjob' : s'.writes w = some job') :
    Phase s' w j job' c (old (c.blockOf input.uuid)) (s'.primary cfg (c.blockOf input.uuid)) := by
  obtain ⟨job₁, c₁, arrived, received, hh, hprepare, hpatch, hsized, hvote⟩ := handle_vote hs.inv h
  have hfound := hh.found
  rw [hjob, Option.some_inj] at hfound
  subst hfound
  have hchunk := hh.chunk
  rw [Job.chunks, hinput] at hchunk
  change (input.chunks cfg.blocksize)[j]? = some c₁ at hchunk
  rw [hc, Option.some_inj] at hchunk
  subst hchunk
  have hblock := hh.block
  rw [hinput] at hblock
  obtain ⟨pack, hpack⟩ := hh.requested
  -- the prepare has not been handled before, and nothing has been decided without it
  have hold : s.primary cfg (c.blockOf input.uuid) = old (c.blockOf input.uuid) :=
    (hs.phase ha job hjob hinput j c hc).untouched (by rw [hpack]; rfl)
  have hundecided : ¬s'.Delivered (.write w (.commit 0 j)) := by
    intro hd
    rcases delivered_step h hd with hd | ⟨_, he⟩
    · obtain ⟨agree, hone⟩ := hs.commits_of_delivered hjob hinput hd
      have hnil : job.write.commits = [] := (hs.once job hjob hinput).open_ j
        (by
          have := (List.getElem?_eq_some_iff.mp hc).1
          simpa [Ballot.blocks, Job.ballot, hinput] using this)
        (by simp only [Job.ballot, hpack]; rfl)
      rw [hnil] at hone
      cases hone
    · cases he
  have hprimary : s'.primary cfg (c.blockOf input.uuid)
      = (old (c.blockOf input.uuid)).handle arrived := by
    rw [hh.blocks, hblock, Function.update_self, hold]
  rw [hh.writes, Function.update_self, Option.some_inj] at hjob'
  subst hjob'
  rw [hprimary, Block.handle_prepare _ hprepare]
  rw [hblock, hold] at hvote
  refine ⟨fun hnone ↦ ?_, fun response hr hagree _ ↦ ?_, fun _ hexists ↦ ?_,
    fun hd ↦ absurd hd hundecided⟩
  · rw [Job.answer_life, Function.update_self] at hnone
    cases hnone
  · rw [Job.answer_life, Function.update_self, Life.reply, Option.some_inj] at hr
    subst hr
    rw [hagree] at hvote
    split at hvote
    · cases hvote
    · rename_i hfree
      rw [if_neg hfree, Block.record, Block.create_content, Option.getD_some,
        overlayBlock_eq hsized, hpatch]
      rfl
  · split
    · rfl
    · obtain ⟨content, hcontent⟩ := Option.ne_none_iff_exists'.mp hexists
      rw [Block.record, Block.create_content, hcontent]
      rfl

private theorem phase_commit (hs : Phased cfg w input old s) {k j : ℕ} {stray : ℕ → UInt8}
    (h : step cfg s (.handle (.write w (.commit k j)) stray) = some s')
    (ha : Alone cfg w input s) {job : Job} (hjob : s.writes w = some job)
    (hinput : job.write.input = input) {c : Chunk}
    (hc : (input.chunks cfg.blocksize)[j]? = some c) {job' : Job}
    (hjob' : s'.writes w = some job') :
    Phase s' w j job' c (old (c.blockOf input.uuid)) (s'.primary cfg (c.blockOf input.uuid)) := by
  obtain ⟨job₁, c₁, arrived, received, call, hh, hcall, htype⟩ := handle_commit hs.inv h
  have hfound := hh.found
  rw [hjob, Option.some_inj] at hfound
  subst hfound
  have hblock := hh.block
  rw [hinput] at hblock
  have hchunk := hh.chunk
  rw [Job.chunks, hinput] at hchunk
  change (input.chunks cfg.blocksize)[j]? = some c₁ at hchunk
  rw [hc, Option.some_inj] at hchunk
  subst hchunk
  obtain ⟨pack, hpack⟩ := hh.requested
  have hinv := hs.inv.write w job hjob
  have honce := hs.once job hjob hinput
  -- a decision has been made, so all votes are in, and it is the only one
  have hvotes : ∀ i < job.ballot.blocks cfg.blocksize, job.ballot.votes i ≠ none := by
    intro i hi hnone
    rw [show job.write.commits = [] from honce.open_ i hi hnone] at hcall
    cases hcall
  have hclosed : job.write.commits.map CommitCall.allSsbdAgree = [job.write.allSsbdAgree] :=
    honce.closed hvotes
  have hlast : (job.write.commits.map CommitCall.allSsbdAgree)[k]? = some call.allSsbdAgree := by
    rw [List.getElem?_map, hcall]
    rfl
  rw [hclosed] at hlast
  obtain ⟨hk, hdecision⟩ := List.getElem?_eq_some_iff.mp hlast
  obtain rfl : k = 0 := by simpa using hk
  change job.write.allSsbdAgree = call.allSsbdAgree at hdecision
  have hvote : job.ballot.votes j ≠ none := by
    refine hvotes j ?_
    have := (List.getElem?_eq_some_iff.mp hc).1
    simpa [Ballot.blocks, Job.ballot, hinput] using this
  obtain ⟨type, hseen⟩ := Option.ne_none_iff_exists'.mp hvote
  have hdone : ∃ response, job.life (.vote j) = .done response ∧ response.header.type = type := by
    change (job.life (.vote j)).seen = some type at hseen
    cases hlife : job.life (.vote j) with
    | done response => exact ⟨response, rfl, by rw [hlife] at hseen; exact Option.some_inj.mp hseen⟩
    | unsent | requested | answered => rw [hlife] at hseen; cases hseen
  obtain ⟨response, hlife, rfl⟩ := hdone
  have hnew : ¬s.Delivered (.write w (.commit 0 j)) := by
    intro hd
    obtain ⟨job₂, hjob₂, hhandled⟩ := hs.acted w (.commit 0 j) rfl hd
    rw [hjob, Option.some_inj] at hjob₂
    subst hjob₂
    rw [hpack] at hhandled
    cases hhandled
  have hphase := hs.phase ha job hjob hinput j c hc
  have hdelivered : s'.Delivered (.write w (.commit 0 j)) :=
    ⟨_, by rw [hh.log]; exact List.mem_cons_self, rfl⟩
  have hprimary : s'.primary cfg (c.blockOf input.uuid)
      = (s.primary cfg (c.blockOf input.uuid)).handle arrived := by
    rw [hh.blocks, hblock, Function.update_self]
  rw [hh.writes, Function.update_self, Option.some_inj] at hjob'
  subst hjob'
  rw [hprimary]
  refine ⟨fun hnone ↦ ?_, fun _ _ _ hnot ↦ absurd hdelivered hnot, fun hnot hexists ↦ ?_,
    fun _ hagree ↦ ?_⟩
  · rw [Job.answer_life, Function.update_of_ne (by simp), hlife] at hnone
    cases hnone
  · have hrefused : call.allSsbdAgree = false := by
      by_contra hagree
      rw [Bool.not_eq_false] at hagree
      exact hnot ⟨hdelivered, by rw [← hagree, ← hdecision]; exact hclosed⟩
    rw [hrefused, if_neg (by simp)] at htype
    simp only [Block.handle, htype]
    exact hphase.kept (fun hboth ↦ hnew hboth.1) hexists
  · have hagree' : job.write.allSsbdAgree = true := by
      change job.write.commits.map CommitCall.allSsbdAgree = [true] at hagree
      rw [hclosed] at hagree
      exact List.singleton_inj.mp hagree
    rw [← hdecision, hagree', if_pos rfl] at htype
    simp only [Block.handle, htype, Block.execute]
    rw [hphase.pending response (by rw [hlife]; rfl)
      (hinv.ballot.agree.mp hagree' j _ hseen) hnew]
    rfl

end Phased

private theorem phased_step {w : ℕ} {input : WriteRequest} {old : BlockId → Block}
    (hne : input.chunks cfg.blocksize ≠ []) (s : Cluster) (e : Event) (s' : Cluster)
    (hloop : AfterLoop cfg w s e) (h : step cfg s e = some s') (hs : Phased cfg w input old s) :
    Phased cfg w input old s' := by
  have hinv := hs.inv
  refine ⟨inv_step s e s' h hinv, acted_step hinv h hs.acted, hs.once_step hne hloop h,
    fun ha hnone c hc ↦ ?_, fun ha job' hjob' hinput j c hc ↦ ?_⟩
  · -- the write has not started
    have hbefore : s.writes w = none := by
      by_contra hsome
      obtain ⟨job, hjob⟩ := Option.ne_none_iff_exists'.mp hsome
      obtain ⟨job', hjob', -⟩ := write_le hinv h hjob
      rw [hnone] at hjob'
      cases hjob'
    obtain ⟨j, hj⟩ := List.mem_iff_getElem?.mp hc
    have hmine : ∀ {t : WriteTicket} {stray : ℕ → UInt8}, e ≠ .handle (.write w t) stray := by
      rintro t stray rfl
      obtain ⟨_, _, _, _, _, _, -, hlife, -⟩ := step_handle h
      obtain ⟨job, hjob, -⟩ := life_write_eq (by simp) hlife
      rw [hbefore] at hjob
      cases hjob
    have ha' := ha.of_step hinv h
    rw [ha'.primary_step hinv (by rw [hbefore]; exact fun _ h ↦ nomatch h) hj h
      (fun _ ↦ hmine) fun _ _ ↦ hmine]
    exact hs.before ha' hbefore c hc
  · have ha' := ha.of_step hinv h
    cases hjob : s.writes w with
    | none =>
      rcases write_step h w with hsame | ⟨-, _, _, _, _, rfl, hstart⟩ | ⟨_, _, _, hold, -⟩
      · rw [hsame, hjob] at hjob'
        cases hjob'
      · -- the write starts
        rw [ha'.primary_step hinv (by rw [hjob]; exact fun _ h ↦ nomatch h) hc h (by simp)
          (by simp), hs.before ha' hjob c (List.mem_of_getElem? hc)]
        rw [hjob', Option.some_inj] at hstart
        subst hstart
        have hunsent : ¬s'.Delivered (.write w (.commit 0 j)) := by
          intro hd
          obtain ⟨job, hw, hhandled⟩ := acted_step hinv h hs.acted w (.commit 0 j) rfl hd
          rw [hjob', Option.some_inj] at hw
          rw [← hw] at hhandled
          cases hhandled
        exact ⟨fun _ ↦ rfl, (fun _ hr ↦ nomatch hr), fun _ _ ↦ rfl, fun hd ↦ absurd hd hunsent⟩
      · rw [hjob] at hold
        cases hold
    | some job =>
      obtain ⟨job'', hjob'', hle⟩ := write_le hinv h hjob
      rw [hjob', Option.some_inj] at hjob''
      subst hjob''
      have hinput' : job.write.input = input := by rw [← hle.input, hinput]
      by_cases hvote : ∃ stray, e = .handle (.write w (.vote j)) stray
      · obtain ⟨stray, rfl⟩ := hvote
        exact hs.phase_vote h ha' hjob hinput' hc hjob'
      by_cases hcommit : ∃ k stray, e = .handle (.write w (.commit k j)) stray
      · obtain ⟨k, stray, rfl⟩ := hcommit
        exact hs.phase_commit h ha' hjob hinput' hc hjob'
      push Not at hvote hcommit
      rw [ha'.primary_step hinv (fun job₁ hjob₁ ↦ by
        rw [hjob, Option.some_inj] at hjob₁
        rw [← hjob₁, hinput']) hc h hvote hcommit]
      refine hs.phase_quiet hne hloop h hjob hinput' hjob' hle (fun response hr hagree ↦ ?_)
        (hcommit 0) (hs.phase ha' job hjob hinput' j c hc)
      -- an answer in favour comes from a server
      rcases vote_reply_step hinv h hjob' hr with
        ⟨job₁, hjob₁, -, hreply⟩ | ⟨stray, rfl⟩ | ⟨-, herr⟩
      · rw [hjob, Option.some_inj] at hjob₁
        rwa [hjob₁]
      · exact absurd rfl (hvote stray)
      · rw [hagree] at herr
        cases herr

end Cluster

open Cluster

/-- **A write over several blocks is done everywhere or nowhere.** From any state of the servers,
if the write is alone on its blocks, its callbacks run after its send loop and all its prepares and
commits have come to their end, then either all blocks have agreed and hold their old contents with
the data laid over them, or some block has not, and all blocks that were there before are as they
were. -/
theorem write_all_or_nothing (cfg : Config) (server : ℕ → Server) (checked : ℕ → Key → Bool)
    (events : List Cluster.Event) (s : Cluster) (w : ℕ) (job : Job)
    (hloop : Meets (step cfg) (AfterLoop cfg w) (init server checked) events)
    (hrun : run (step cfg) (init server checked) events = some s)
    (hw : s.writes w = some job) (hdata : job.write.input.data ≠ [])
    (hend : job.write.input.position.toNat + job.write.input.data.length < 2 ^ 32)
    (halone : Alone cfg w job.write.input s)
    (hvotes : ∀ j < (job.chunks cfg).length, (job.life (.vote j)).isDone = true)
    (hcommits : CommitsDelivered cfg s w job) :
    ((∀ j < (job.chunks cfg).length, (job.life (.vote j)).seen = some .twoPcPrepareAgree) ∧
      ∀ c ∈ job.chunks cfg, (s.primary cfg (c.blockOf job.write.input.uuid)).content
        = some (job.write.input.patch (((init server checked).primary cfg
            (c.blockOf job.write.input.uuid)).content.getD []) c)) ∨
    ((∃ j < (job.chunks cfg).length, (job.life (.vote j)).seen ≠ some .twoPcPrepareAgree) ∧
      ∀ c ∈ job.chunks cfg, ∀ old, ((init server checked).primary cfg
          (c.blockOf job.write.input.uuid)).content = some old →
        (s.primary cfg (c.blockOf job.write.input.uuid)).content = some old) := by
  have hne : job.write.input.chunks cfg.blocksize ≠ [] := by
    have hpos := List.length_pos_iff.mpr hdata
    have hfirst : job.write.input.Covers job.write.input.position.toNat := ⟨le_rfl, by omega⟩
    obtain ⟨j, c, hc, -⟩ := WriteRequest.exists_chunk_of_covers cfg hfirst hend
    exact List.ne_nil_of_mem (List.mem_of_getElem? hc)
  have hs := invariant_run (phased_step hne) hloop hrun (phased_init w _ server checked)
  have hinv := hs.inv.write w job hw
  have honce := hs.once job hw rfl
  -- the one decision is that of the votes
  have hclosed : job.write.commits.map CommitCall.allSsbdAgree = [job.write.allSsbdAgree] := by
    refine honce.closed fun i hi ↦ ?_
    obtain ⟨response, hdone⟩ := Life.isDone_iff.mp (hvotes i hi)
    change (job.life (.vote i)).seen ≠ none
    rw [hdone]
    exact Option.some_ne_none _
  have hdelivered : ∀ j < (job.chunks cfg).length, s.Delivered (.write w (.commit 0 j)) := by
    refine hcommits 0 ?_
    rw [← List.length_map (f := CommitCall.allSsbdAgree), hclosed]
    exact Nat.one_pos
  have hphase := hs.phase halone job hw rfl
  cases hagree : job.write.allSsbdAgree with
  | true =>
    rw [hagree] at hclosed
    refine Or.inl ⟨fun j hj ↦ ?_, fun c hc ↦ ?_⟩
    · obtain ⟨response, hdone⟩ := Life.isDone_iff.mp (hvotes j hj)
      have hseen : job.ballot.votes j = some response.header.type := by
        simp only [Job.ballot, hdone]
        rfl
      rw [← hinv.ballot.agree.mp hagree j _ hseen]
      exact hseen
    · obtain ⟨j, hj⟩ := List.mem_iff_getElem?.mp hc
      exact (hphase j c hj).executed (hdelivered j (List.getElem?_eq_some_iff.mp hj).1) hclosed
  | false =>
    rw [hagree] at hclosed
    refine Or.inr ⟨?_, fun c hc old hold ↦ ?_⟩
    · by_contra hall
      push Not at hall
      have htrue := hinv.allSsbdAgree hall
      rw [hagree] at htrue
      cases htrue
    · obtain ⟨j, hj⟩ := List.mem_iff_getElem?.mp hc
      rw [← hold]
      refine (hphase j c hj).kept (fun hboth ↦ ?_) (by rw [hold]; exact Option.some_ne_none _)
      rw [hclosed] at hboth
      cases hboth.2

/-- Both prepares are sent before the first vote comes in. -/
def loopFirst : List Cluster.Event :=
  [.startWrite 0 twoBlocks 1 (salts 0), .sendPrepare 0, .sendPrepare 0]
    ++ roundTrip (.write 0 (.vote 0)) ++ roundTrip (.write 0 (.vote 1))
    ++ roundTrip (.write 0 (.commit 0 0)) ++ roundTrip (.write 0 (.commit 0 1))

/-- A write over two new blocks, alone: both hold their part of the data. -/
theorem write_all_or_nothing_loopFirst :
    ∃ s job, run (step oneHost) fresh loopFirst = some s ∧ s.writes 0 = some job ∧
      ∀ c ∈ job.chunks oneHost, (s.primary oneHost (c.blockOf job.write.input.uuid)).content
        = some (job.write.input.patch [] c) := by
  obtain ⟨s, hs⟩ : ∃ s, run (step oneHost) fresh loopFirst = some s :=
    Option.isSome_iff_exists.mp (by decide +kernel)
  have hall : ∀ s ∈ run (step oneHost) fresh loopFirst, s.started = 1 ∧ (s.writes 0).isSome ∧
      ∀ job ∈ s.writes 0, job.write.input = twoBlocks ∧ CommitsDelivered oneHost s 0 job ∧
        ∀ j < (job.chunks oneHost).length, (job.life (.vote j)).isDone = true ∧
          (job.life (.vote j)).seen = some .twoPcPrepareAgree := by
    decide +kernel
  obtain ⟨hstarted, hsome, hjob⟩ := hall s hs
  obtain ⟨job, hw⟩ := Option.isSome_iff_exists.mp hsome
  obtain ⟨hinput, hdelivered, hvotes⟩ := hjob job hw
  have halone : Alone oneHost 0 job.write.input s := by
    intro v job' hv hjob'
    have := lt_started_of_run hs hjob'
    omega
  have hresult := write_all_or_nothing oneHost (fun _ ↦ Server.empty) (fun _ _ ↦ false) loopFirst s
    0 job (by decide +kernel) hs hw (by rw [hinput]; decide) (by rw [hinput]; decide) halone
    (fun j hj ↦ (hvotes j hj).1) hdelivered
  rcases hresult with ⟨-, hcontent⟩ | ⟨⟨j, hj, hrefused⟩, -⟩
  · exact ⟨s, job, hs, hw, hcontent⟩
  · exact absurd (hvotes j hj).2 hrefused

end Slsfs.Datafunction

import Slsfs.Datafunction.Atomic
import Slsfs.Datafunction.Completion
import Slsfs.Datafunction.Overlap

/-!
# Replicas

`start_replication` builds its packets with `create_request` and never puts anything into their
buffers, and `serialize` writes the length of the buffer into the header. So a copy arrives without
data, and the server lays nothing over the replica. `replicas_hold_iff` says what follows: after a
successful write the replicas hold the data exactly if they held it before.

For the primary blocks, which hold the data, the callbacks may run at any time. A write that decides
early executes entries that others have left, but once its own prepare is logged nobody replaces it,
and the last decision comes after all votes (`Job.LastExecuted`).
-/

namespace Slsfs.Datafunction

open LeveldbPack Ssbd

variable {cfg : Config}

namespace Cluster

variable {s s' : Cluster}

/-! ## What a copy does

It is handled like a write of the replica under the position and the size of its header, with a body
that is empty. So the replica exists afterwards, with the bytes it had. -/

/-- The message a server handles is a copy only if it is sent as one, and then it carries no
data. -/
theorem handle_server (hinv : s.Inv cfg) {t : Ticket} {stray : ℕ → UInt8}
    (h : step cfg s (.handle t stray) = some s') :
    ∃ host arrived, s'.server = Function.update s.server host
        ((s.server host).handle stray arrived).1 ∧
      (arrived.header.type = .replication → ∃ w k j r job c, t = .write w (.replica k j r) ∧
        s.writes w = some job ∧ (job.chunks cfg)[j]? = some c ∧
        blockId arrived = c.blockOf job.write.input.uuid ∧ patchOf arrived = ⟨c.offset, []⟩ ∧
        Sized arrived) := by
  obtain ⟨conn, pack, arrived, received, _, _, -, hlife, harrived, -, -, -, hserver, -⟩ :=
    step_handle h
  refine ⟨_, arrived, hserver, fun htype ↦ ?_⟩
  cases t with
  | read r j =>
    obtain ⟨job, hr, hj⟩ := life_read_eq (by simp) hlife
    obtain ⟨c, hc, rfl⟩ := (hinv.read r job hr).get_pack j pack hj
    rw [(arrive_get (List.mem_of_getElem? hc) harrived).1] at htype
    cases htype
  | write w t =>
    obtain ⟨job, hw, hj⟩ := life_write_eq (by simp) hlife
    cases t with
    | vote j =>
      obtain ⟨checked, c, hc, rfl⟩ := (hinv.write w job hw).vote_pack j pack hj
      rw [(arrive_prepare (List.mem_of_getElem? hc) harrived).1] at htype
      cases checked <;> cases htype
    | commit k j =>
      obtain ⟨call, c, -, -, rfl⟩ := (hinv.write w job hw).commit_pack k j pack hj
      rw [(arrive_commit harrived).1] at htype
      cases hagree : call.allSsbdAgree <;> rw [hagree] at htype <;> cases htype
    | replica k j r =>
      obtain ⟨c, hc, rfl⟩ := (hinv.write w job hw).replica_pack k j r pack hj
      obtain ⟨-, hblock, hpatch, hsized⟩ := arrive_replica (List.mem_of_getElem? hc) harrived
      exact ⟨w, k, j, r, job, c, rfl, hw, hc, hblock, hpatch, hsized⟩

/-- The byte of a replica at some host. -/
def replicaByte (s : Cluster) (host : ℕ) (b : BlockId) (x : ℕ) : Option UInt8 :=
  (((s.server host).replica b).getD [])[x]?

/-- **Replicas do not change where the data should go.** -/
theorem replicaByte_step {w : ℕ} {input : WriteRequest} (hinv : s.Inv cfg)
    (ha : Alone cfg w input s) (hinput : ∀ job, s.writes w = some job → job.write.input = input)
    {c : Chunk} (hc : c ∈ input.chunks cfg.blocksize) {e : Event} (h : step cfg s e = some s')
    (host : ℕ) {x : ℕ} (hx : c.offset ≤ x) :
    s'.replicaByte host (c.blockOf input.uuid) x = s.replicaByte host (c.blockOf input.uuid) x := by
  have hsame : s'.server = s.server → s'.replicaByte host (c.blockOf input.uuid) x
      = s.replicaByte host (c.blockOf input.uuid) x := by
    intro hserver
    rw [replicaByte, hserver, replicaByte]
  cases e with
  | startWrite | startRead =>
    rw [step, Option.some_inj] at h
    subst h
    exact hsame rfl
  | sendPrepare => obtain ⟨_, _, _, _, _, _, h, -⟩ := step_sendPrepare h; exact hsame h
  | sendGet => obtain ⟨_, _, _, _, _, _, h, -⟩ := step_sendGet h; exact hsame h
  | writeError => obtain ⟨_, _, _, _, h, -⟩ := step_writeError h; exact hsame h
  | callback => obtain ⟨_, _, _, _, h, -⟩ := step_callback h; exact hsame h
  | handle t stray =>
    obtain ⟨host', arrived, hserver, hcopy⟩ := handle_server hinv h
    rw [replicaByte, hserver, replicaByte]
    by_cases hhost : host = host'
    on_goal 2 => rw [Function.update_of_ne hhost]
    subst hhost
    rw [Function.update_self, Server.replica_handle]
    split
    on_goal 2 => rfl
    rename_i htype
    obtain ⟨v, k, j, r, job, d, -, hjob, hd, hblock, hpatch, hsized⟩ := hcopy htype
    by_cases hb : c.blockOf input.uuid = blockId arrived
    on_goal 2 => rw [Function.update_of_ne hb]
    rw [hb, Function.update_self, Option.getD_some, overlayBlock_eq hsized, hpatch]
    refine getElem?_overlay_nil 0 _ ?_
    -- it is a copy of the same piece
    have hv : v = w := by
      by_contra hv
      exact ha v job hv hjob c hc d (List.mem_of_getElem? hd) (hblock.symm.trans hb.symm)
    subst hv
    obtain ⟨i, hi⟩ := List.mem_iff_getElem?.mp hc
    rw [Job.chunks, hinput job hjob] at hd
    rw [hinput job hjob] at hblock
    have hji := input.index_unique cfg hd hi input.uuid (hblock.symm.trans hb.symm)
    rw [hji, hi, Option.some_inj] at hd
    rw [← hd]
    exact hx

end Cluster

/-! ## The primary blocks

What a successful write leaves there. From the moment its prepare is logged, the entry of a block is
its own, since nobody else prepares the block (`Alone`); an early execute cannot take it away, and
the executes of the last decision find it. `Landing` follows the block from the entry to the
execution. -/

/-- The buffer holds the data of the piece. -/
def WriteRequest.Carries (input : WriteRequest) (c : Chunk) (buf : Buf) : Prop :=
  ∀ i < c.length, buf[c.offset + i]? = (input.slice c)[i]?

private theorem Job.allSsbdAgree_of_le {job job' : Job} (hinv : job.Inv cfg) (hinv' : job'.Inv cfg)
    (hle : job.Le job') (h : job'.write.allSsbdAgree = true) : job.write.allSsbdAgree = true := by
  refine hinv.ballot.agree.mpr fun i type hi ↦ ?_
  change (job.life (.vote i)).seen = some type at hi
  cases hlife : job.life (.vote i) with
  | done response =>
    rw [hlife] at hi
    refine hinv'.ballot.agree.mp h i type ?_
    simp only [ballot, hle.done (.vote i) response rfl hlife]
    exact hi
  | unsent | requested | answered => rw [hlife] at hi; cases hi

/-- The block holds the data, and so does its pending entry, which is that of the write. -/
structure Landed (input : WriteRequest) (c : Chunk) (vote : Life) (blk : Block) : Prop where
  voted : vote.handled = true
  pending : input.Carries c blk.pendingData
  content : input.Carries c (blk.content.getD [])

namespace Cluster

variable {s s' : Cluster}

/-- No commit of write `w` fails on its way. -/
def CommitsReach (w : ℕ) : Event → Prop
  | .writeError (.write v (.commit _ _)) => v ≠ w
  | _ => True

instance (w : ℕ) (e : Event) : Decidable (CommitsReach w e) :=
  match e with
  | .writeError (.write v (.commit _ _)) => inferInstanceAs (Decidable (v ≠ w))
  | .writeError (.write _ (.vote _)) | .writeError (.write _ (.replica _ _ _))
  | .writeError (.read _ _) | .startWrite _ _ _ _ | .sendPrepare _ | .startRead _ _ _ | .sendGet _
  | .handle _ _ | .callback _ => .isTrue trivial

/-- A commit executes while nobody is against the write. -/
theorem handle_execute {w : ℕ} {input : WriteRequest} (hinv : s.Inv cfg) {job : Job}
    (hjob : s.writes w = some job) (hinput : job.write.input = input)
    (hagree : job.write.allSsbdAgree = true) {k j : ℕ} {c : Chunk}
    (hc : (input.chunks cfg.blocksize)[j]? = some c) {stray : ℕ → UInt8}
    (h : step cfg s (.handle (.write w (.commit k j)) stray) = some s') :
    s'.primary cfg (c.blockOf input.uuid) = (s.primary cfg (c.blockOf input.uuid)).execute := by
  obtain ⟨job₁, d, arrived, received, call, hh, hcall, htype⟩ := handle_commit hinv h
  have hfound := hh.found
  rw [hjob, Option.some_inj] at hfound
  subst hfound
  rw [(hinv.write w job hjob).ballot.refused call (List.mem_of_getElem? hcall) hagree,
    if_pos rfl] at htype
  have hblock := hh.block
  have hchunk := hh.chunk
  rw [Job.chunks, hinput] at hchunk
  change (input.chunks cfg.blocksize)[j]? = some d at hchunk
  rw [hc, Option.some_inj] at hchunk
  rw [hinput, ← hchunk] at hblock
  rw [hh.blocks, hblock, Function.update_self]
  simp only [Block.handle, htype]

private theorem Alone.block_cases {w : ℕ} {input : WriteRequest} (hinv : s.Inv cfg)
    (ha : Alone cfg w input s) {job : Job} (hjob : s.writes w = some job)
    (hinput : job.write.input = input) (hagree : job.write.allSsbdAgree = true) {j : ℕ} {c : Chunk}
    (hc : (input.chunks cfg.blocksize)[j]? = some c) {e : Event} (h : step cfg s e = some s') :
    s'.primary cfg (c.blockOf input.uuid) = s.primary cfg (c.blockOf input.uuid) ∨
    s'.primary cfg (c.blockOf input.uuid) = (s.primary cfg (c.blockOf input.uuid)).execute ∨
    ∃ stray pack, e = .handle (.write w (.vote j)) stray ∧
      job.life (.vote j) = .requested pack := by
  by_cases hvote : ∃ stray, e = .handle (.write w (.vote j)) stray
  · obtain ⟨stray, rfl⟩ := hvote
    obtain ⟨job₁, d, arrived, received, hh, -⟩ := handle_vote hinv h
    have hfound := hh.found
    rw [hjob, Option.some_inj] at hfound
    subst hfound
    obtain ⟨pack, hpack⟩ := hh.requested
    exact Or.inr (Or.inr ⟨stray, pack, rfl, hpack⟩)
  by_cases hcommit : ∃ k stray, e = .handle (.write w (.commit k j)) stray
  · obtain ⟨k, stray, rfl⟩ := hcommit
    exact Or.inr (Or.inl (handle_execute hinv hjob hinput hagree hc h))
  · push Not at hvote hcommit
    refine Or.inl (ha.primary_step hinv (fun job₁ hjob₁ ↦ ?_) hc h hvote hcommit)
    rw [hjob, Option.some_inj] at hjob₁
    rw [← hjob₁, hinput]

/-- The write in progress: its entries, once logged, hold the data, and so do its blocks once the
last decision has been handled. -/
structure Landing (cfg : Config) (w : ℕ) (input : WriteRequest) (start s : Cluster) : Prop where
  inv : s.Inv cfg
  acted : s.Acted
  replicas : Alone cfg w input s → (∀ job, s.writes w = some job → job.write.input = input) →
    ∀ host, ∀ c ∈ input.chunks cfg.blocksize, ∀ x, c.offset ≤ x →
      s.replicaByte host (c.blockOf input.uuid) x = start.replicaByte host (c.blockOf input.uuid) x
  logged : Alone cfg w input s → ∀ job, s.writes w = some job → job.write.input = input →
    job.write.allSsbdAgree = true → ∀ (j : ℕ) (c : Chunk) (response : Packet),
    (input.chunks cfg.blocksize)[j]? = some c → (job.life (.vote j)).reply = some response →
    response.header.type = .twoPcPrepareAgree →
    input.Carries c (s.primary cfg (c.blockOf input.uuid)).pendingData
  last : Alone cfg w input s → ∀ job, s.writes w = some job → job.write.input = input →
    job.write.allSsbdAgree = true → job.LastExecuted cfg fun j ↦
      ∀ c, (input.chunks cfg.blocksize)[j]? = some c →
        Landed input c (job.life (.vote j)) (s.primary cfg (c.blockOf input.uuid))

private theorem landing_init (w : ℕ) (input : WriteRequest) (server : ℕ → Server)
    (checked : ℕ → Key → Bool) :
    Landing cfg w input (init server checked) (init server checked) where
  inv := inv_init server checked
  acted := fun _ _ _ ⟨_, hmem, _⟩ ↦ by cases hmem
  replicas _ _ _ _ _ _ _ := rfl
  logged _ _ h := nomatch h
  last _ _ h := nomatch h

namespace Landing

variable {w : ℕ} {input : WriteRequest} {start : Cluster}

private theorem logged_step (hs : Landing cfg w input start s) {e : Event}
    (h : step cfg s e = some s')
    (ha : Alone cfg w input s) {job' : Job} (hjob' : s'.writes w = some job')
    (hinput' : job'.write.input = input) (hagree' : job'.write.allSsbdAgree = true) {j : ℕ}
    {c : Chunk} {response : Packet} (hc : (input.chunks cfg.blocksize)[j]? = some c)
    (hr : (job'.life (.vote j)).reply = some response)
    (hvote : response.header.type = .twoPcPrepareAgree) :
    input.Carries c (s'.primary cfg (c.blockOf input.uuid)).pendingData := by
  have hinv := hs.inv
  have hinv' := (inv_step s e s' h hinv).write w job' hjob'
  rcases vote_reply_step hinv h hjob' hr with ⟨job, hjob, hle, hreply⟩ | ⟨stray, rfl⟩ | ⟨-, herr⟩
  · have hinput : job.write.input = input := by rw [← hle.input, hinput']
    have hagree := Job.allSsbdAgree_of_le (hinv.write w job hjob) hinv' hle hagree'
    have hold := hs.logged ha job hjob hinput hagree j c response hc hreply hvote
    rcases ha.block_cases hinv hjob hinput hagree hc h with hsame | hexec | ⟨stray, pack, -, hpack⟩
    · rwa [hsame]
    · rwa [hexec]
    · rw [hpack] at hreply
      cases hreply
  · obtain ⟨job, d, arrived, received, hh, hprepare, hpatch, hsized, htype⟩ := handle_vote hinv h
    rw [hh.writes, Function.update_self, Option.some_inj] at hjob'
    subst hjob'
    rw [Job.answer_life, Function.update_self, Life.reply, Option.some_inj] at hr
    subst hr
    change job.write.input = input at hinput'
    have hblock := hh.block
    have hchunk := hh.chunk
    rw [Job.chunks, hinput'] at hchunk
    change (input.chunks cfg.blocksize)[j]? = some d at hchunk
    rw [hc, Option.some_inj] at hchunk
    subst hchunk
    rw [hinput'] at hblock hpatch
    rw [hvote] at htype
    split at htype
    · cases htype
    · rename_i hfree
      rw [hh.blocks, hblock, Function.update_self, Block.handle_prepare _ hprepare,
        if_neg (by rwa [hblock] at hfree), Block.record, Block.create_content, Option.getD_some,
        overlayBlock_eq hsized, hpatch]
      intro i hi
      exact getElem?_overlay_of_mem 0 _ _ _
        (by rwa [WriteRequest.slice_length cfg (List.mem_of_getElem? hc)])
  · rw [hvote] at herr
    cases herr

private theorem landed_step (hs : Landing cfg w input start s) {e : Event}
    (h : step cfg s e = some s')
    (ha : Alone cfg w input s) {job job' : Job} (hjob : s.writes w = some job)
    (hinput : job.write.input = input) (hagree : job.write.allSsbdAgree = true) (hle : job.Le job')
    {j : ℕ} {c : Chunk} (hc : (input.chunks cfg.blocksize)[j]? = some c)
    (hl : Landed input c (job.life (.vote j)) (s.primary cfg (c.blockOf input.uuid))) :
    Landed input c (job'.life (.vote j)) (s'.primary cfg (c.blockOf input.uuid)) := by
  have hvoted := hle.handled (.vote j) rfl hl.voted
  rcases ha.block_cases hs.inv hjob hinput hagree hc h with hsame | hexec | ⟨stray, pack, -, hpack⟩
  · rw [hsame]
    exact ⟨hvoted, hl.pending, hl.content⟩
  · rw [hexec]
    exact ⟨hvoted, hl.pending, hl.pending⟩
  · have := hl.voted
    rw [hpack] at this
    cases this

private theorem last_step (hs : Landing cfg w input start s) {e : Event} (hreach : CommitsReach w e)
    (h : step cfg s e = some s') (ha : Alone cfg w input s) {job' : Job}
    (hjob' : s'.writes w = some job') (hinput' : job'.write.input = input)
    (hagree' : job'.write.allSsbdAgree = true) : job'.LastExecuted cfg fun j ↦
      ∀ c, (input.chunks cfg.blocksize)[j]? = some c →
        Landed input c (job'.life (.vote j)) (s'.primary cfg (c.blockOf input.uuid)) := by
  have hinv := hs.inv
  cases hjob : s.writes w with
  | none =>
    -- the write starts
    rcases write_step h w with hsame | ⟨-, _, _, _, _, -, hstart⟩ | ⟨_, _, _, hold, -⟩
    · rw [hsame, hjob] at hjob'
      cases hjob'
    · rw [hjob', Option.some_inj] at hstart
      subst hstart
      intro _ j _ hhandled
      cases hhandled
    · rw [hjob] at hold
      cases hold
  | some job =>
    obtain ⟨job'', hjob'', hle⟩ := write_le hinv h hjob
    rw [hjob', Option.some_inj] at hjob''
    subst hjob''
    have hinput : job.write.input = input := by rw [← hle.input, hinput']
    have hagree := Job.allSsbdAgree_of_le (hinv.write w job hjob)
      ((inv_step s e s' h hinv).write w job' hjob') hle hagree'
    have hold := (hs.last ha job hjob hinput hagree).mono
      fun j hP c hc ↦ hs.landed_step h ha hjob hinput hagree hle hc (hP c hc)
    by_cases hcommit : ∃ k j stray, e = .handle (.write w (.commit k j)) stray
    · obtain ⟨k, j, stray, rfl⟩ := hcommit
      obtain ⟨job₁, d, arrived, received, call, hh, hcall, htype⟩ := handle_commit hinv h
      have hfound := hh.found
      rw [hjob, Option.some_inj] at hfound
      subst hfound
      obtain ⟨pack, hpack⟩ := hh.requested
      have hstep : job.step cfg (.answer (.commit k j) received)
          = some (job.answer (.commit k j) received) := by
        simp only [Job.step, hpack]
      rw [hh.writes, Function.update_self, Option.some_inj] at hjob'
      subst hjob'
      refine hold.step (hinv.write w job hjob) hstep fun k' j' r he hvotes c hc ↦ ?_
      cases he
      -- the vote is in, so the entry is that of the write
      have hlt : j < (job.chunks cfg).length := by
        rw [Job.chunks, hinput]
        exact (List.getElem?_eq_some_iff.mp hc).1
      obtain ⟨response, hdone⟩ := Life.isDone_iff.mp (hvotes j hlt)
      have hseen : job.ballot.votes j = some response.header.type := by
        simp only [Job.ballot, hdone]
        rfl
      have hpending := hs.logged ha job hjob hinput hagree j c response hc (by rw [hdone]; rfl)
        ((hinv.write w job hjob).ballot.agree.mp hagree j _ hseen)
      rw [handle_execute hinv hjob hinput hagree hc h, Job.answer_life,
        Function.update_of_ne (by simp), hdone]
      exact ⟨rfl, hpending, hpending⟩
    · rcases write_step h w with hsame | ⟨-, _, _, _, _, -, hstart⟩ |
        ⟨job₁, new, events, hjob₁, hnew, hrun, hmoves⟩
      · rw [hsame, hjob, Option.some_inj] at hjob'
        subst hjob'
        exact hold
      · rw [hjob', Option.some_inj] at hstart
        subst hstart
        intro _ j _ hhandled
        cases hhandled
      · rw [hjob, Option.some_inj] at hjob₁
        subst hjob₁
        rw [hjob', Option.some_inj] at hnew
        subst hnew
        refine hold.run (hinv.write w job hjob) hrun fun k j r hmem ↦ ?_
        rcases hmoves _ hmem with ⟨stray, rfl⟩ | ⟨rfl, -⟩
        · exact hcommit ⟨k, j, stray, rfl⟩
        · exact hreach rfl

end Landing

private theorem landing_step {w : ℕ} {input : WriteRequest} {start : Cluster} (s : Cluster)
    (e : Event) (s' : Cluster) (hreach : CommitsReach w e) (h : step cfg s e = some s')
    (hs : Landing cfg w input start s) : Landing cfg w input start s' := by
  have hinv := hs.inv
  refine ⟨inv_step s e s' h hinv, acted_step hinv h hs.acted, fun ha hinput host c hc x hx ↦ ?_,
    fun ha job' hjob' hinput' hagree' j c response hc hr hvote ↦
      hs.logged_step h (ha.of_step hinv h) hjob' hinput' hagree' hc hr hvote,
    fun ha job' hjob' hinput' hagree' ↦
      hs.last_step hreach h (ha.of_step hinv h) hjob' hinput' hagree'⟩
  have hinput' : ∀ job, s.writes w = some job → job.write.input = input := by
    intro job hjob
    obtain ⟨job', hjob', hle⟩ := write_le hinv h hjob
    rw [← hle.input]
    exact hinput job' hjob'
  have ha' := ha.of_step hinv h
  rw [replicaByte_step hinv ha' hinput' hc h host hx]
  exact hs.replicas ha' hinput' host c hc x hx

/-! ## The replicas against the primary

`ReplicasHold` is what replication is for: each replica has the bytes of the write. `ReplicasCarry`
says the same of the state before the write. The first holds after exactly if the second did before,
because no step in between changes a byte of a replica. -/

/-- Every replica has, on the range of the write, the bytes of the primary block. -/
def ReplicasHold (cfg : Config) (s : Cluster) (input : WriteRequest) : Prop :=
  ∀ c ∈ input.chunks cfg.blocksize, ∀ r < cfg.replicationSize, 1 ≤ r → ∀ i < c.length,
    s.replicaByte (cfg.selectReplica input.uuid c.blockid r) (c.blockOf input.uuid) (c.offset + i)
      = ((s.primary cfg (c.blockOf input.uuid)).content.getD [])[c.offset + i]?

/-- Every replica has the data of the write on its range. -/
def ReplicasCarry (cfg : Config) (s : Cluster) (input : WriteRequest) : Prop :=
  ∀ c ∈ input.chunks cfg.blocksize, ∀ r < cfg.replicationSize, 1 ≤ r → ∀ i < c.length,
    s.replicaByte (cfg.selectReplica input.uuid c.blockid r) (c.blockOf input.uuid) (c.offset + i)
      = (input.slice c)[i]?

instance (s : Cluster) (input : WriteRequest) : Decidable (ReplicasHold cfg s input) :=
  inferInstanceAs (Decidable (∀ c ∈ input.chunks cfg.blocksize, ∀ r < cfg.replicationSize, 1 ≤ r →
    ∀ i < c.length, s.replicaByte (cfg.selectReplica input.uuid c.blockid r)
      (c.blockOf input.uuid) (c.offset + i)
      = ((s.primary cfg (c.blockOf input.uuid)).content.getD [])[c.offset + i]?))

instance (s : Cluster) (input : WriteRequest) : Decidable (ReplicasCarry cfg s input) :=
  inferInstanceAs (Decidable (∀ c ∈ input.chunks cfg.blocksize, ∀ r < cfg.replicationSize, 1 ≤ r →
    ∀ i < c.length, s.replicaByte (cfg.selectReplica input.uuid c.blockid r)
      (c.blockOf input.uuid) (c.offset + i) = (input.slice c)[i]?))

/-- All copies of the write have been handled. -/
def CopiesDelivered (cfg : Config) (s : Cluster) (w : ℕ) (job : Job) : Prop :=
  ∀ k < job.write.commits.length, ∀ j < (job.chunks cfg).length, ∀ r < cfg.replicationSize,
    1 ≤ r → s.Delivered (.write w (.replica k j r))

instance (s : Cluster) (w : ℕ) (job : Job) : Decidable (CopiesDelivered cfg s w job) :=
  inferInstanceAs (Decidable (∀ k < job.write.commits.length, ∀ j < (job.chunks cfg).length,
    ∀ r < cfg.replicationSize, 1 ≤ r → s.Delivered (.write w (.replica k j r))))

end Cluster

open Cluster

/-- **Replicas hold the data exactly if they held it before.** For every write that is alone on its
blocks and to which all blocks agree, once its commits have been handled, and however many of its
copies have. -/
theorem replicas_hold_iff (cfg : Config) (server : ℕ → Server) (checked : ℕ → Key → Bool)
    (events : List Cluster.Event) (s : Cluster) (w : ℕ) (job : Job)
    (hreach : Meets (step cfg) (fun _ ↦ CommitsReach w) (init server checked) events)
    (hrun : run (step cfg) (init server checked) events = some s)
    (hw : s.writes w = some job) (halone : Alone cfg w job.write.input s)
    (hvotes : ∀ j < (job.chunks cfg).length,
      (job.life (.vote j)).seen = some .twoPcPrepareAgree)
    (hcommits : CommitsDelivered cfg s w job) :
    ReplicasHold cfg s job.write.input ↔
      ReplicasCarry cfg (init server checked) job.write.input := by
  have hs := invariant_run landing_step hreach hrun (landing_init w job.write.input server checked)
  have hinv := hs.inv.write w job hw
  have hagree := hinv.allSsbdAgree hvotes
  have hdone : ∀ j < (job.chunks cfg).length, (job.life (.vote j)).isDone = true := by
    intro j hj
    have hseen := hvotes j hj
    cases hlife : job.life (.vote j) with
    | done response => rfl
    | unsent | requested | answered => rw [hlife] at hseen; cases hseen
  -- the primary blocks hold the data
  have hprimary : ∀ c ∈ job.write.input.chunks cfg.blocksize, job.write.input.Carries c
      ((s.primary cfg (c.blockOf job.write.input.uuid)).content.getD []) := by
    intro c hc
    obtain ⟨j, hj⟩ := List.mem_iff_getElem?.mp hc
    have hlt : j < (job.chunks cfg).length := (List.getElem?_eq_some_iff.mp hj).1
    have hsent : j < job.write.sent := by
      obtain ⟨response, hlife⟩ := Life.isDone_iff.mp (hdone j hlt)
      exact (hinv.vote_sent j).mp (by rw [hlife]; simp)
    have hne : job.write.commits ≠ [] := by
      refine hinv.ballot.decided (Nat.zero_lt_of_lt hsent) fun i hi ↦ ?_
      change (job.life (.vote i)).seen ≠ none
      rw [hvotes i (hi.trans_le hinv.ballot.sent_le)]
      exact Option.some_ne_none _
    have hlen := List.length_pos_iff.mpr hne
    obtain ⟨job₁, hjob₁, hhandled⟩ := hs.acted w (.commit (job.write.commits.length - 1) j) rfl
      (hcommits _ (by omega) j hlt)
    rw [hw, Option.some_inj] at hjob₁
    subst hjob₁
    exact (hs.last halone job hw rfl hagree hdone j hlt hhandled c hj).content
  have hreplicas := hs.replicas halone fun job₁ hjob₁ ↦ by
    rw [hw, Option.some_inj] at hjob₁
    rw [hjob₁]
  refine forall₂_congr fun c hc ↦ forall₂_congr fun r _ ↦ forall_congr' fun _ ↦
    forall₂_congr fun i hi ↦ ?_
  rw [hreplicas _ c hc _ (Nat.le_add_right _ _), hprimary c hc i hi]

/-! ## A write whose replica stays empty -/

/-- One server that also holds the second copy. -/
def twoCopies : Config := { oneHost with replicationSize := 2 }

/-- A write of one byte with its copy. -/
def copiedWrite : List Cluster.Event :=
  wholeWrite 0 0 7 ++ roundTrip (.write 0 (.replica 0 0 1))

/-- A server whose replica of the first block of the file is one byte. -/
def withReplica (byte : UInt8) : Server :=
  { Server.empty with
    db := Server.empty.db.put (blockKey (fileId, 0) ++ ascii "repl") [byte] }

private theorem alone_of_started {cfg : Config} {server : ℕ → Server} {events : List Cluster.Event}
    {s : Cluster} (hrun : run (step cfg) (init server fun _ _ ↦ false) events = some s)
    (hstarted : s.started = 1) (input : WriteRequest) : Alone cfg 0 input s := by
  intro v job hv hjob
  have hinv := invariant_run_of_step Cluster.inv_step hrun (inv_init _ _)
  rw [(hinv.fresh v (by omega)).1] at hjob
  cases hjob

/-- The replica holds the byte before the write, so it does afterwards. -/
theorem replicas_hold_same_byte :
    ∃ s job, run (step twoCopies) (init (fun _ ↦ withReplica 7) fun _ _ ↦ false) copiedWrite
      = some s ∧ s.writes 0 = some job ∧ ReplicasHold twoCopies s job.write.input := by
  obtain ⟨s, hs⟩ : ∃ s, run (step twoCopies) (init (fun _ ↦ withReplica 7) fun _ _ ↦ false)
      copiedWrite = some s := Option.isSome_iff_exists.mp (by decide +kernel)
  have hall : ∀ s ∈ run (step twoCopies) (init (fun _ ↦ withReplica 7) fun _ _ ↦ false)
      copiedWrite, s.started = 1 ∧ (s.writes 0).isSome ∧ ∀ job ∈ s.writes 0,
        job.write.input = byteWrite 0 7 ∧ CommitsDelivered twoCopies s 0 job ∧
        ∀ j < (job.chunks twoCopies).length,
          (job.life (.vote j)).seen = some .twoPcPrepareAgree := by
    decide +kernel
  obtain ⟨hstarted, hsome, hjob⟩ := hall s hs
  obtain ⟨job, hw⟩ := Option.isSome_iff_exists.mp hsome
  obtain ⟨hinput, hcommits, hvotes⟩ := hjob job hw
  refine ⟨s, job, hs, hw, (replicas_hold_iff twoCopies _ _ copiedWrite s 0 job (by decide +kernel)
    hs hw (alone_of_started hs hstarted _) hvotes hcommits).mpr ?_⟩
  rw [hinput]
  decide +kernel

/-- **The replica of a write stays empty.** All messages of a write of one byte have been handled,
and the replica does not hold the byte. -/
theorem replica_stays_empty :
    ¬∀ (cfg : Config) (server : ℕ → Server) (checked : ℕ → Key → Bool)
      (events : List Cluster.Event) (s : Cluster) (w : ℕ) (job : Job), 2 ≤ cfg.replicationSize →
      run (step cfg) (init server checked) events = some s → s.writes w = some job →
      Alone cfg w job.write.input s → job.AnsweredOk →
      (∀ j < (job.chunks cfg).length, (job.life (.vote j)).seen = some .twoPcPrepareAgree) →
      CommitsDelivered cfg s w job → CopiesDelivered cfg s w job →
      ReplicasHold cfg s job.write.input := by
  intro h
  obtain ⟨s, hs⟩ : ∃ s, run (step twoCopies) fresh copiedWrite = some s :=
    Option.isSome_iff_exists.mp (by decide +kernel)
  have hall : ∀ s ∈ run (step twoCopies) fresh copiedWrite, s.started = 1 ∧ (s.writes 0).isSome ∧
      ∀ job ∈ s.writes 0, job.AnsweredOk ∧ CommitsDelivered twoCopies s 0 job ∧
        CopiesDelivered twoCopies s 0 job ∧ (∀ j < (job.chunks twoCopies).length,
          (job.life (.vote j)).seen = some .twoPcPrepareAgree) ∧
        ¬ReplicasHold twoCopies s job.write.input := by
    decide +kernel
  obtain ⟨hstarted, hsome, hjob⟩ := hall s hs
  obtain ⟨job, hw⟩ := Option.isSome_iff_exists.mp hsome
  obtain ⟨hok, hcommits, hcopies, hvotes, hnot⟩ := hjob job hw
  exact hnot (h twoCopies _ _ copiedWrite s 0 job le_rfl hs hw (alone_of_started hs hstarted _) hok
    hvotes hcommits hcopies)

end Slsfs.Datafunction

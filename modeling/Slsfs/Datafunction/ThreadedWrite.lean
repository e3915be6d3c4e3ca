import Slsfs.Datafunction.Threaded

/-!
# A write access by access

A write that starts with nothing pending leaves its blocks with its bytes laid over what they were,
and again with nothing pending, however its callbacks and the handlers of its messages are
interleaved, if its executes put what is pending (`Fresh`).

The invariant `WriteInv` follows each block through its prepare. All votes are in favour, since no
prepare ever finds a pending log; so all calls of `start_2pc_commit` are to execute. The race
between the send loop and the callbacks may make several of these calls, and an early one may
execute blocks that are still to be prepared, which puts back what was there. Once all votes are
counted, the callback that counts the last of them is about to make a call, or has made one, and
the executes of that call find the entries of all blocks logged (`Landing`).
-/

namespace Slsfs.Datafunction.Threaded

open LeveldbPack Ssbd Ssbd.Access

variable {cfg : Config}

/-! ## The prepare of a block

`VoteInv` is what is known of a block while the prepare of this write for it is on its way. Up to
the handler nothing is pending; during the handler `Prepare` knows; and when the answer is on its
way the entry is pending and the answer is in favour. -/

/-- The packet is a prepare of the block that turns the old bytes into the new ones. -/
structure IsEntry (id : BlockId) (old bytes : Buf) (logged : UInt32) (pack : Packet) : Prop where
  type : IsPrepare pack
  block : blockId pack = id
  overlay : Server.overlayBlock old pack = bytes
  version : pack.header.version = logged

private theorem isEntry_arrived (w : Write) (salt : Salt) (checked : Bool) {c : Chunk}
    (hc : c ∈ w.input.chunks cfg.blocksize) (old : Buf) :
    IsEntry (c.blockOf w.input.uuid) old (overlay 0 old c.offset (w.input.slice c))
      w.selectedVersion (arrived (w.preparePacket salt checked c)) := by
  obtain ⟨htype, hblock, hpatch, hsized⟩ := arrived_prepare salt checked hc
  refine ⟨?_, hblock, by rw [overlayBlock_eq hsized, hpatch], ?_⟩
  · rw [IsPrepare, htype]
    cases checked
    · exact .inl rfl
    · exact .inr rfl
  · have hlen : (w.input.slice c).length < 2 ^ 32 := by
      have := (w.input.fits hc).length_le
      rw [WriteRequest.slice_length cfg hc]
      omega
    have hread := readRequest_sent_of_body (p := w.preparePacket salt checked c)
      (by cases checked <;> rfl) hlen []
    rw [List.append_nil] at hread
    rw [arrived_eq hread]
    rfl

/-- The prepare of a block, with what is stored for the block: before, nothing is pending; when the
answer is on its way, the entry is. -/
def VoteInv (id : BlockId) (old : Buf) (version : UInt32) (bytes : Buf) (logged : UInt32)
    (store : Ssbd.Cell → Option Buf) : Message VotePhase → Prop
  | .unsent => OnBlock store id (Settled old version)
  | .requested pack => IsEntry id old bytes logged (arrived pack) ∧
    OnBlock store id (Settled old version)
  | .running rest => ∃ pack W, IsEntry id old bytes logged pack ∧ Local id W rest ∧
    Prepare pack old version store rest
  | .callback (.answered type) =>
    type = .twoPcPrepareAgree ∧ OnBlock store id (Pending bytes logged)
  | .callback .counting | .callback .deciding | .callback (.replying _) | .callback .committing
  | .done => OnBlock store id (Pending bytes logged)

section Vote

variable {id : BlockId} {old bytes : Buf} {version logged : UInt32}
  {store store' : Ssbd.Cell → Option Buf} {m m' : Message VotePhase}

theorem VoteInv.of_harmless (h : VoteInv id old version bytes logged store m)
    (hstore : Harmless id store store') : VoteInv id old version bytes logged store' m := by
  cases m with
  | unsent => exact OnBlock.settled_of_harmless h hstore
  | requested pack => exact ⟨h.1, h.2.settled_of_harmless hstore⟩
  | running rest =>
    obtain ⟨pack, W, hentry, hlocal, hprepare⟩ := h
    exact ⟨pack, W, hentry, hlocal, hprepare.of_harmless (hentry.block ▸ hstore)⟩
  | callback phase =>
    cases phase with
    | answered type => exact ⟨h.1, h.2.pending_of_harmless hstore⟩
    | counting | deciding | replying | committing => exact OnBlock.pending_of_harmless h hstore
  | done => exact OnBlock.pending_of_harmless h hstore

theorem VoteInv.exists_reads (h : VoteInv id old version bytes logged store m) :
    ∃ pending, Reads (store (cell id .pendingVersion)) pending := by
  cases m with
  | unsent => exact ⟨_, h .pendingVersion⟩
  | requested pack => exact ⟨_, h.2 .pendingVersion⟩
  | running rest =>
    obtain ⟨pack, W, hentry, -, hprepare⟩ := h
    rw [← hentry.block]
    exact hprepare.exists_reads
  | callback phase =>
    cases phase with
    | answered type => exact ⟨_, h.2 .pendingVersion⟩
    | counting | deciding | replying | committing => exact ⟨_, h .pendingVersion⟩
  | done => exact ⟨_, h .pendingVersion⟩

theorem VoteInv.serve (h : VoteInv id old version bytes logged store m) {stray : ℕ → UInt8}
    (hserve : m.serve stray (fun reply ↦ .answered reply.header.type) store = some (m', store')) :
    VoteInv id old version bytes logged store' m' ∧
      ∀ id', id' ≠ id → Harmless id' store store' := by
  rcases Message.serve_cases hserve with ⟨pack, rfl, rfl, rfl⟩ | ⟨key, next, rfl, rfl, rfl⟩ |
    ⟨key, value, next, rfl, rfl, rfl⟩ | ⟨reply, rfl, rfl, rfl⟩
  · obtain ⟨hentry, hstored⟩ := h
    rw [← hentry.block] at hstored
    exact ⟨⟨arrived pack, _, hentry, hentry.block ▸ local_handle stray (arrived pack),
      .start hentry.type hstored stray⟩, fun id' _ ↦ .refl id' _⟩
  · obtain ⟨pack, W, hentry, hlocal, hprepare⟩ := h
    exact ⟨⟨pack, W, hentry, hlocal.next_of_get _, hprepare.next_of_get⟩, fun id' _ ↦ .refl id' _⟩
  · obtain ⟨pack, W, hentry, hlocal, hprepare⟩ := h
    obtain ⟨⟨purpose, -, rfl⟩, hnext⟩ := hlocal.next_of_put
    exact ⟨⟨pack, W, hentry, hnext, hprepare.next_of_put⟩, fun id' hid ↦ harmless_of_block_ne hid⟩
  · obtain ⟨pack, W, hentry, -, hprepare⟩ := h
    obtain ⟨rfl, hstored⟩ := hprepare.reply
    rw [hentry.block, hentry.overlay, hentry.version] at hstored
    exact ⟨⟨received_type pack _, hstored⟩, fun id' _ ↦ .refl id' _⟩

end Vote

/-! ## The commit of a block

Of an execute in general, `CommitInv` knows only where it is. It may have been sent too early, and
then what it has read means nothing. An execute that is sent when all prepares are counted is
followed more closely: `Landing` says what it has achieved. -/

/-- The commit of a block is an execute. -/
def CommitInv (id : BlockId) : Message Unit → Prop
  | .requested pack =>
    (arrived pack).header.type = .twoPcCommitExecute ∧ blockId (arrived pack) = id
  | .running rest => ∃ (pack : Packet) (stage : ExecuteStage), blockId pack = id ∧
    rest = stage.rest pack
  | .unsent | .callback () | .done => True

/-- It was sent when the entry was logged, and has come as far as can be seen from what is
stored. -/
def Landing (id : BlockId) (bytes : Buf) (logged : UInt32) (store : Ssbd.Cell → Option Buf) :
    Message Unit → Prop
  | .unsent | .requested _ => True
  | .running rest => ∃ (pack : Packet) (stage : ExecuteStage), blockId pack = id ∧
    rest = stage.rest pack ∧ stage.Landed store id bytes logged
  | .callback () | .done => OnBlock store id (Committed bytes logged)

section Commit

variable {id : BlockId} {bytes : Buf} {logged : UInt32} {store store' : Ssbd.Cell → Option Buf}
  {m m' : Message Unit}

theorem Landing.of_harmless (h : Landing id bytes logged store m)
    (hstore : Harmless id store store') : Landing id bytes logged store' m := by
  cases m with
  | unsent | requested => trivial
  | running rest =>
    obtain ⟨pack, stage, hblock, hrest, hlanded⟩ := h
    exact ⟨pack, stage, hblock, hrest, hlanded.of_harmless hstore⟩
  | callback phase => exact hstore _ _ _ _ rfl rfl h
  | done => exact hstore _ _ _ _ rfl rfl h

theorem CommitInv.serve (h : CommitInv id m) {stray : ℕ → UInt8}
    (hserve : m.serve stray (fun _ ↦ ()) store = some (m', store')) {version : UInt32}
    (hversion : Reads (store (cell id .pendingVersion)) version)
    (hfresh : ∀ put ∈ m.nextPut, Fresh store id put.1 put.2) (bytes : Buf) (logged : UInt32) :
    CommitInv id m' ∧ (∀ id', Harmless id' store store') ∧
      ((∀ pack, m = .requested pack → OnBlock store id (Pending bytes logged)) →
        Landing id bytes logged store m → Landing id bytes logged store' m') := by
  rcases Message.serve_cases hserve with ⟨pack, rfl, rfl, rfl⟩ | ⟨key, next, rfl, rfl, rfl⟩ |
    ⟨key, value, next, rfl, rfl, rfl⟩ | ⟨reply, rfl, rfl, rfl⟩
  · obtain ⟨htype, hblock⟩ := h
    have hdata : Ssbd.Access.handle stray (arrived pack)
        = ExecuteStage.data.rest (arrived pack) := by
      simp only [Ssbd.Access.handle, htype]
      rfl
    exact ⟨⟨_, _, hblock, hdata⟩, fun id' ↦ .refl id' _,
      fun hpending _ ↦ ⟨_, _, hblock, hdata, hpending pack rfl⟩⟩
  · obtain ⟨pack, stage, rfl, hrest⟩ := h
    obtain ⟨stage', hnext, -⟩ := ExecuteStage.next_of_get hrest.symm hversion
    refine ⟨⟨pack, stage', rfl, hnext⟩, fun id' ↦ .refl id' _, fun _ hlanding ↦ ?_⟩
    obtain ⟨pack, stage, hblock, hrest, hlanded⟩ := hlanding
    rw [← hblock] at hversion hlanded ⊢
    obtain ⟨stage', hnext, hlands⟩ := ExecuteStage.next_of_get hrest.symm hversion
    exact ⟨pack, stage', rfl, hnext, hlands _ _ hlanded⟩
  · have hput := hfresh (key, value) rfl
    obtain ⟨pack, stage, rfl, hrest⟩ := h
    obtain ⟨hharmless, stage', hnext, -⟩ := ExecuteStage.next_of_put hrest.symm hput
    refine ⟨⟨pack, stage', rfl, hnext⟩, fun id' ↦ ?_, fun _ hlanding ↦ ?_⟩
    · by_cases hid : id' = blockId pack
      · rw [hid]
        exact hharmless
      · obtain ⟨purpose, rfl⟩ := ExecuteStage.exists_cell_of_put hrest.symm
        exact harmless_of_block_ne hid
    · obtain ⟨pack, stage, hblock, hrest, hlanded⟩ := hlanding
      rw [← hblock] at hput hlanded ⊢
      obtain ⟨-, stage', hnext, hlands⟩ := ExecuteStage.next_of_put hrest.symm hput
      exact ⟨pack, stage', rfl, hnext, hlands _ _ hlanded⟩
  · obtain ⟨pack, stage, hblock, hrest⟩ := h
    refine ⟨trivial, fun id' ↦ .refl id' _, fun _ hlanding ↦ ?_⟩
    obtain ⟨pack, stage, hblock, hrest, hlanded⟩ := hlanding
    rwa [ExecuteStage.eq_done_of_reply hrest.symm] at hlanded

end Commit

/-! ## The whole write

The counter of the callbacks is the number of the prepares that have been sent and not been counted.
So the callback that brings it to zero after the last prepare has been sent is the last one; it goes
on to call `start_2pc_commit`, if an earlier call has not been made with all votes in. -/

namespace Message

/-- The callback of a prepare has counted down. -/
def counted : Message VotePhase → Bool
  | callback .deciding | callback (.replying _) | callback .committing | done => true
  | callback (.answered _) | callback .counting | unsent | requested _ | running _ => false

/-- The callback of a prepare has brought the counter to zero and has yet to call
`start_2pc_commit`. -/
def deciding : Message VotePhase → Bool
  | callback .deciding | callback (.replying _) | callback .committing => true
  | callback (.answered _) | callback .counting | unsent | requested _ | running _ | done => false

end Message

theorem VoteInv.pending {id : BlockId} {old bytes : Buf} {version logged : UInt32}
    {store : Ssbd.Cell → Option Buf} {m : Message VotePhase}
    (h : VoteInv id old version bytes logged store m) (hcounted : m.counted = true) :
    OnBlock store id (Pending bytes logged) := by
  cases m with
  | callback phase =>
    cases phase with
    | answered | counting => cases hcounted
    | deciding | replying | committing => exact h
  | done => exact h
  | unsent | requested | running => cases hcounted

namespace WriteRun

variable (cfg : Config) (old : BlockId → Buf) (w : WriteRun)

/-- What the write makes of the block of a piece. -/
def bytesOf (c : Chunk) : Buf :=
  overlay 0 (old (c.blockOf w.write.input.uuid)) c.offset (w.write.input.slice c)

/-- The prepare of the block of a piece has come to the given point. -/
def VoteAt (version : BlockId → UInt32) (store : ℕ → Ssbd.Cell → Option Buf) (c : Chunk)
    (m : Message VotePhase) : Prop :=
  VoteInv (c.blockOf w.write.input.uuid) (old (c.blockOf w.write.input.uuid))
    (version (c.blockOf w.write.input.uuid)) (w.bytesOf old c) w.write.selectedVersion
    (primaryStore cfg store (c.blockOf w.write.input.uuid)) m

/-- An execute of the block of a piece has come to the given point. -/
def LandingAt (store : ℕ → Ssbd.Cell → Option Buf) (c : Chunk) (m : Message Unit) : Prop :=
  Landing (c.blockOf w.write.input.uuid) (w.bytesOf old c) w.write.selectedVersion
    (primaryStore cfg store (c.blockOf w.write.input.uuid)) m

/-- The executes of a call of `start_2pc_commit` find the entries of all blocks. -/
def Decisive (store : ℕ → Ssbd.Cell → Option Buf) (call : ℕ) : Prop :=
  ∀ j c, (w.chunks cfg)[j]? = some c →
    w.LandingAt cfg old store c (w.commit call j)

end WriteRun

/-- A write at any moment, with what the blocks held before and the versions that they had. -/
structure WriteInv (cfg : Config) (old : BlockId → Buf) (version : BlockId → UInt32)
    (store : ℕ → Ssbd.Cell → Option Buf) (w : WriteRun) : Prop where
  nonempty : w.chunks cfg ≠ []
  /-- Nothing is pending in the blocks of no piece. -/
  others : ∀ id, (∀ c ∈ w.chunks cfg, c.blockOf w.write.input.uuid ≠ id) →
    OnBlock (primaryStore cfg store id) id (Settled (old id) (version id))
  vote : ∀ j c, (w.chunks cfg)[j]? = some c →
    w.VoteAt cfg old version store c (w.vote j)
  commit : ∀ call j c, (w.chunks cfg)[j]? = some c →
    CommitInv (c.blockOf w.write.input.uuid) (w.commit call j)
  sent_le : w.write.sent ≤ (w.chunks cfg).length
  unsent : ∀ j, w.write.sent ≤ j → w.vote j = .unsent
  uncalled : ∀ call, w.write.commits.length ≤ call → ∀ j, w.commit call j = .unsent
  outstanding : w.write.outstandingRequests
    = countBelow (fun j ↦ !(w.vote j).counted) w.write.sent
  agree : w.write.allSsbdAgree = true
  calls : ∀ call ∈ w.write.commits, call.allSsbdAgree = true
  /-- When all votes are counted, the decision on all of them has been made or is about to be. -/
  decided : w.write.sent = (w.chunks cfg).length →
    (∀ j < (w.chunks cfg).length, (w.vote j).counted = true) →
    (∃ j < (w.chunks cfg).length, (w.vote j).deciding = true) ∨
      ∃ call < w.write.commits.length, w.Decisive cfg old store call

namespace WriteInv

variable {old : BlockId → Buf} {version : BlockId → UInt32}
  {store store' : ℕ → Ssbd.Cell → Option Buf} {w w' : WriteRun}

variable (cfg) in
private theorem chunks_ne_nil {input : WriteRequest} (hne : input.data ≠ [])
    (hend : input.position.toNat + input.data.length < 2 ^ 32) :
    input.chunks cfg.blocksize ≠ [] := by
  have hpos := List.length_pos_iff.mpr hne
  refine splitBlocks_ne_nil cfg.blocksize_pos ?_
  rw [UInt32.toNat_add, input.size_toNat, Nat.mod_eq_of_lt hend]
  omega

theorem start (coordinator : ℕ) {input : WriteRequest} (selected : UInt32)
    (salt : WriteTicket → Salt) (hne : input.data ≠ [])
    (hend : input.position.toNat + input.data.length < 2 ^ 32)
    (hstore : ∀ id, OnBlock (primaryStore cfg store id) id (Settled (old id) (version id))) :
    WriteInv cfg old version store (.start coordinator input selected salt) where
  nonempty := chunks_ne_nil cfg hne hend
  others id _ := hstore id
  vote _ _ _ := hstore _
  commit _ _ _ _ := trivial
  sent_le := Nat.zero_le _
  unsent _ _ := rfl
  uncalled _ _ _ := rfl
  outstanding := rfl
  agree := rfl
  calls _ h := nomatch h
  decided hsent _ := absurd (List.length_eq_zero_iff.mp hsent.symm) (chunks_ne_nil cfg hne hend)

/-- The write does not notice what does no harm to any block. -/
theorem of_harmless (h : WriteInv cfg old version store w)
    (hstore : ∀ id, Harmless id (primaryStore cfg store id) (primaryStore cfg store' id)) :
    WriteInv cfg old version store' w :=
  { h with
    others := fun id hid ↦ (h.others id hid).settled_of_harmless (hstore id)
    vote := fun j c hc ↦ (h.vote j c hc).of_harmless (hstore _)
    decided := fun hsent hall ↦ (h.decided hsent hall).imp_right fun ⟨call, hcall, hdecisive⟩ ↦
      ⟨call, hcall, fun j c hc ↦ (hdecisive j c hc).of_harmless (hstore _)⟩ }

theorem look (h : WriteInv cfg old version store w) {checked : Bool}
    (hlook : w.look cfg checked = some w') : WriteInv cfg old version store w' := by
  rw [WriteRun.look] at hlook
  split at hlook
  · cases hlook
    exact ⟨h.nonempty, h.others, h.vote, h.commit, h.sent_le, h.unsent, h.uncalled, h.outstanding,
      h.agree, h.calls, h.decided⟩
  · cases hlook

theorem sendPrepare (h : WriteInv cfg old version store w) (hsend : w.sendPrepare cfg = some w') :
    WriteInv cfg old version store w' := by
  rw [WriteRun.sendPrepare] at hsend
  split at hsend
  on_goal 2 => cases hsend
  rename_i checked c hquick hc
  cases hsend
  have hlt := (List.getElem?_eq_some_iff.mp hc).1
  have hothers : ∀ j, j ≠ w.write.sent → Function.update w.vote w.write.sent
      (.requested (w.write.preparePacket (w.salt (.vote w.write.sent)) checked c)) j = w.vote j :=
    fun j hj ↦ Function.update_of_ne hj ..
  refine ⟨h.nonempty, h.others, fun j d hd ↦ ?_, h.commit, hlt, fun j hj ↦ ?_, h.uncalled, ?_,
    h.agree, h.calls, fun _ hall ↦ ?_⟩
  · by_cases hj : j = w.write.sent
    · subst hj
      change (w.chunks cfg)[w.write.sent]? = some d at hd
      rw [hc, Option.some_inj] at hd
      subst hd
      have hstored := h.vote _ c hc
      rw [h.unsent _ le_rfl] at hstored
      dsimp only
      rw [Function.update_self]
      exact ⟨isEntry_arrived w.write _ checked (List.mem_of_getElem? hc) _, hstored⟩
    · dsimp only
      rw [hothers j hj]
      exact h.vote j d hd
  · change w.write.sent + 1 ≤ j at hj
    exact (hothers j (by omega)).trans (h.unsent j (by omega))
  · have hcount : countBelow (fun j ↦ !(Function.update w.vote w.write.sent
        (.requested (w.write.preparePacket (w.salt (.vote w.write.sent)) checked c)) j).counted)
          w.write.sent = countBelow (fun j ↦ !(w.vote j).counted) w.write.sent :=
      countBelow_congr fun j hj ↦ by rw [hothers j (by omega)]
    change w.write.outstandingRequests + 1 = _
    rw [Write.sendOne_sent, countBelow_succ, hcount, h.outstanding]
    simp only [Function.update_self, Message.counted]
    rfl
  · have hlast := hall w.write.sent hlt
    dsimp only at hlast
    rw [Function.update_self] at hlast
    cases hlast

theorem sendCommit (h : WriteInv cfg old version store w) {call : ℕ}
    (hsend : w.sendCommit cfg call = some w') : WriteInv cfg old version store w' := by
  rw [WriteRun.sendCommit] at hsend
  split at hsend
  on_goal 2 => cases hsend
  rename_i agree outstanding c hcall hc
  cases hsend
  have hagree : agree = true := h.calls _ (List.mem_of_getElem? hcall)
  subst hagree
  have hlt := (List.getElem?_eq_some_iff.mp hcall).1
  obtain ⟨htype, hblock⟩ := arrived_execute w.write (w.salt (.commit call (w.sentCommits call))) c
  have hothers : ∀ call' j, (call' = call ∧ j = w.sentCommits call) ∨
      Function.update w.commit call (Function.update (w.commit call) (w.sentCommits call)
        (.requested (w.write.commitPacket (w.salt (.commit call (w.sentCommits call))) true c)))
          call' j = w.commit call' j := by
    intro call' j
    by_cases hcall' : call' = call
    · subst hcall'
      by_cases hj : j = w.sentCommits call'
      · exact .inl ⟨rfl, hj⟩
      · rw [Function.update_self, Function.update_of_ne hj]
        exact .inr rfl
    · rw [Function.update_of_ne hcall']
      exact .inr rfl
  refine ⟨h.nonempty, h.others, h.vote, fun call' j d hd ↦ ?_, h.sent_le, h.unsent,
    fun call' hcall' j ↦ ?_, h.outstanding, h.agree, fun call' hcall' ↦ ?_, fun hsent hall ↦ ?_⟩
  · rcases hothers call' j with ⟨rfl, rfl⟩ | hsame
    · change (w.chunks cfg)[_]? = some d at hd
      rw [hc, Option.some_inj] at hd
      subst hd
      dsimp only
      rw [Function.update_self, Function.update_self]
      exact ⟨htype, hblock⟩
    · dsimp only
      rw [hsame]
      exact h.commit call' j d hd
  · dsimp only at hcall' ⊢
    rw [List.length_set] at hcall'
    rw [Function.update_of_ne (by omega)]
    exact h.uncalled call' hcall' j
  · rcases List.mem_or_eq_of_mem_set hcall' with hmem | rfl
    · exact h.calls call' hmem
    · rfl
  · refine (h.decided hsent hall).imp_right fun ⟨call', hcall', hdecisive⟩ ↦
      ⟨call', by rwa [List.length_set], fun j d hd ↦ ?_⟩
    rcases hothers call' j with ⟨rfl, rfl⟩ | hsame
    · dsimp only
      rw [Function.update_self, Function.update_self]
      trivial
    · dsimp only
      rw [hsame]
      exact hdecisive j d hd

/-! ### A step of one prepare -/

section Vote

variable {j : ℕ} {m : Message VotePhase}

private theorem lt_sent (h : WriteInv cfg old version store w) (hj : w.vote j ≠ .unsent) :
    j < w.write.sent := by
  by_contra hle
  exact hj (h.unsent j (by omega))

theorem exists_chunk (h : WriteInv cfg old version store w) (hj : w.vote j ≠ .unsent) :
    ∃ c, (w.chunks cfg)[j]? = some c :=
  ⟨_, List.getElem?_eq_getElem ((h.lt_sent hj).trans_le h.sent_le)⟩

private theorem vote_update (h : WriteInv cfg old version store w)
    (hm : ∀ c, (w.chunks cfg)[j]? = some c →
      w.VoteAt cfg old version store c m)
    (i : ℕ) (c : Chunk) (hc : (w.chunks cfg)[i]? = some c) :
    w.VoteAt cfg old version store c (Function.update w.vote j m i) := by
  by_cases hi : i = j
  · subst hi
    rw [Function.update_self]
    exact hm c hc
  · rw [Function.update_of_ne hi]
    exact h.vote i c hc

private theorem unsent_update (h : WriteInv cfg old version store w) (hj : w.vote j ≠ .unsent)
    (i : ℕ) (hi : w.write.sent ≤ i) : Function.update w.vote j m i = .unsent := by
  have := h.lt_sent hj
  rw [Function.update_of_ne (by omega)]
  exact h.unsent i hi

private theorem counted_update (hm : m.counted = (w.vote j).counted) (i : ℕ) :
    (Function.update w.vote j m i).counted = (w.vote i).counted := by
  by_cases hi : i = j
  · rw [hi, Function.update_self, hm]
  · rw [Function.update_of_ne hi]

private theorem outstanding_update (h : WriteInv cfg old version store w)
    (hm : m.counted = (w.vote j).counted) : w.write.outstandingRequests
      = countBelow (fun i ↦ !(Function.update w.vote j m i).counted) w.write.sent := by
  rw [h.outstanding]
  congr 1
  exact countBelow_congr fun i _ ↦ by rw [counted_update hm]

private theorem serve_not_counted {stray : ℕ → UInt8}
    {σ σ' : Ssbd.Cell → Option Buf} {m m' : Message VotePhase}
    (h : m.serve stray (fun reply ↦ .answered reply.header.type) σ = some (m', σ')) :
    m ≠ .unsent ∧ m.counted = false ∧ m'.counted = false := by
  rcases Message.serve_cases h with ⟨_, rfl, rfl, -⟩ | ⟨_, _, rfl, rfl, -⟩ |
    ⟨_, _, _, rfl, rfl, -⟩ | ⟨_, rfl, rfl, -⟩
  · exact ⟨nofun, rfl, rfl⟩
  · exact ⟨nofun, rfl, rfl⟩
  · exact ⟨nofun, rfl, rfl⟩
  · exact ⟨nofun, rfl, rfl⟩

theorem serveVote (h : WriteInv cfg old version store w) {c : Chunk}
    (hc : (w.chunks cfg)[j]? = some c) {stray : ℕ → UInt8} {σ : Ssbd.Cell → Option Buf}
    (hserve : (w.vote j).serve stray (fun reply ↦ .answered reply.header.type)
      (store (hostOf cfg w.write.input.uuid c)) = some (m, σ)) :
    WriteInv cfg old version (Function.update store (hostOf cfg w.write.input.uuid c) σ)
      { w with vote := Function.update w.vote j m } := by
  obtain ⟨hsent, hbefore, hafter⟩ := serve_not_counted hserve
  have hfits := w.write.input.fits (List.mem_of_getElem? hc)
  have hprimary := primaryStore_blockOf cfg store w.write.input.uuid hfits.blockid_lt
  have hprimary' : primaryStore cfg (Function.update store (hostOf cfg w.write.input.uuid c) σ)
      (c.blockOf w.write.input.uuid) = σ := by
    rw [primaryStore_blockOf cfg _ _ hfits.blockid_lt, Function.update_self]
  have hvote := h.vote j c hc
  rw [WriteRun.VoteAt, hprimary] at hvote
  obtain ⟨hvote', hharmless⟩ := hvote.serve hserve
  have hstore : ∀ id, id ≠ c.blockOf w.write.input.uuid → Harmless id (primaryStore cfg store id)
      (primaryStore cfg (Function.update store (hostOf cfg w.write.input.uuid c) σ) id) :=
    fun id hid ↦ harmless_primaryStore cfg (hharmless id hid)
  refine ⟨h.nonempty, fun id hid ↦ ?_, fun i d hd ↦ ?_, h.commit, h.sent_le,
    fun i hi ↦ h.unsent_update hsent i hi, h.uncalled,
    h.outstanding_update (hafter.trans hbefore.symm), h.agree, h.calls, fun _ hall ↦ ?_⟩
  · exact (h.others id hid).settled_of_harmless
      (hstore id (hid c (List.mem_of_getElem? hc)).symm)
  · by_cases hi : i = j
    · subst hi
      change (w.chunks cfg)[i]? = some d at hd
      rw [hc, Option.some_inj] at hd
      subst hd
      dsimp only
      rw [WriteRun.VoteAt, hprimary', Function.update_self]
      exact hvote'
    · dsimp only
      rw [Function.update_of_ne hi]
      refine (h.vote i d hd).of_harmless (hstore _ fun heq ↦ hi ?_)
      exact w.write.input.index_unique cfg hd hc _ heq
  · have hj := hall j (List.getElem?_eq_some_iff.mp hc).1
    dsimp only at hj
    rw [Function.update_self, hafter] at hj
    cases hj

private theorem moveVote (h : WriteInv cfg old version store w) (hsent : w.vote j ≠ .unsent)
    (hcounted : m.counted = (w.vote j).counted) (hdeciding : m.deciding = (w.vote j).deciding)
    (hm : ∀ c, (w.chunks cfg)[j]? = some c →
      w.VoteAt cfg old version store c m) :
    WriteInv cfg old version store { w with vote := Function.update w.vote j m } := by
  refine ⟨h.nonempty, h.others, h.vote_update hm, h.commit, h.sent_le,
    fun i hi ↦ h.unsent_update hsent i hi, h.uncalled, h.outstanding_update hcounted, h.agree,
    h.calls, fun hall hvotes ↦ ?_⟩
  refine (h.decided hall fun i hi ↦ ?_).imp_left fun ⟨i, hi, hdecide⟩ ↦ ⟨i, hi, ?_⟩
  · rw [← counted_update hcounted i]
    exact hvotes i hi
  · dsimp only
    by_cases hij : i = j
    · rw [hij, Function.update_self, hdeciding, ← hij, hdecide]
    · rw [Function.update_of_ne hij, hdecide]

private theorem countVote (h : WriteInv cfg old version store w)
    (hj : w.vote j = .callback .counting) :
    WriteInv cfg old version store { w with
      write.outstandingRequests := w.write.outstandingRequests - 1
      vote := Function.update w.vote j
        (if w.write.outstandingRequests - 1 = 0 then .callback .deciding else .done) } := by
  have hsent : w.vote j ≠ .unsent := by rw [hj]; exact nofun
  have hlt := h.lt_sent hsent
  generalize hm : (if w.write.outstandingRequests - 1 = 0 then Message.callback VotePhase.deciding
    else .done) = m
  have hcounted : m.counted = true := by
    rw [← hm]
    split <;> rfl
  have hcount : countBelow (fun i ↦ !(w.vote i).counted) w.write.sent
      = countBelow (fun i ↦ !(Function.update w.vote j m i).counted) w.write.sent + 1 := by
    refine countBelow_eq_add_one hlt (by rw [hj]; rfl) (by rw [Function.update_self, hcounted]; rfl)
      fun i hi ↦ ?_
    rw [Function.update_of_ne hi]
  have hout := h.outstanding
  rw [hcount] at hout
  refine ⟨h.nonempty, h.others, h.vote_update fun c hc ↦ ?_, h.commit, h.sent_le,
    fun i hi ↦ h.unsent_update hsent i hi, h.uncalled, ?_, h.agree, h.calls, fun hall hvotes ↦ ?_⟩
  · have hvote := h.vote j c hc
    rw [hj] at hvote
    rw [← hm]
    split <;> exact hvote
  · dsimp only
    omega
  · -- nobody else is outstanding, so this callback decides
    have hzero : countBelow (fun i ↦ !(Function.update w.vote j m i).counted) w.write.sent = 0 :=
      countBelow_eq_zero.mpr fun i hi ↦ by
        rw [Bool.not_eq_false']
        exact hvotes i (hi.trans_le h.sent_le)
    rw [hzero] at hout
    refine .inl ⟨j, hlt.trans_le h.sent_le, ?_⟩
    dsimp only
    rw [Function.update_self, ← hm, if_pos (by omega)]
    rfl

theorem onVote (h : WriteInv cfg old version store w) {out : WriteRun × Option Bool}
    (hvote : w.onVote j = some out) : WriteInv cfg old version store out.1 := by
  have hsent : ∀ phase, w.vote j = .callback phase → w.vote j ≠ .unsent := fun phase hj ↦ by
    rw [hj]
    exact nofun
  rw [WriteRun.onVote] at hvote
  split at hvote
  · rename_i type hj
    cases hvote
    obtain ⟨c, hc⟩ := h.exists_chunk (hsent _ hj)
    have htype := h.vote j c hc
    rw [hj] at htype
    obtain ⟨rfl, -⟩ := htype
    refine ⟨h.nonempty, h.others, h.vote_update fun d hd ↦ ?_, h.commit, h.sent_le,
      fun i hi ↦ h.unsent_update (hsent _ hj) i hi, h.uncalled,
      h.outstanding_update (by rw [hj]; rfl), by rw [if_pos rfl]; exact h.agree, h.calls,
      fun _ hall ↦ ?_⟩
    · have hstored := h.vote j d hd
      rw [hj] at hstored
      exact hstored.2
    · have hcount := hall j (List.getElem?_eq_some_iff.mp hc).1
      dsimp only at hcount
      rw [Function.update_self] at hcount
      cases hcount
  · rename_i hj
    cases hvote
    exact h.countVote hj
  · rename_i hj
    cases hvote
    exact h.moveVote (hsent _ hj) (by rw [hj]; rfl) (by rw [hj]; rfl) fun c hc ↦ by
      have hstored := h.vote j c hc
      rwa [hj] at hstored
  · rename_i agree hj
    cases hvote
    have hmove := h.moveVote (m := .callback .committing) (hsent _ hj) (by rw [hj]; rfl)
      (by rw [hj]; rfl) fun c hc ↦ by
        have hstored := h.vote j c hc
        rwa [hj] at hstored
    exact ⟨hmove.nonempty, hmove.others, hmove.vote, hmove.commit, hmove.sent_le, hmove.unsent,
      hmove.uncalled, hmove.outstanding, hmove.agree, hmove.calls, hmove.decided⟩
  · rename_i hj
    cases hvote
    refine ⟨h.nonempty, h.others, h.vote_update fun d hd ↦ ?_, h.commit, h.sent_le,
      fun i hi ↦ h.unsent_update (hsent _ hj) i hi, fun call hcall ↦ h.uncalled call ?_,
      h.outstanding_update (by rw [hj]; rfl), h.agree, fun call hcall ↦ ?_, fun _ _ ↦ .inr ?_⟩
    · have hstored := h.vote j d hd
      rwa [hj] at hstored
    · rw [List.length_append] at hcall
      exact (Nat.le_add_right _ _).trans hcall
    · rcases List.mem_append.mp hcall with hmem | hmem
      · exact h.calls call hmem
      · rw [List.mem_singleton.mp hmem]
        exact h.agree
    · -- the new call has sent nothing yet
      refine ⟨w.write.commits.length, by simp, fun i d _ ↦ ?_⟩
      dsimp only
      rw [h.uncalled _ le_rfl]
      trivial
  · cases hvote

end Vote

/-! ### A step of one commit -/

section Commit

variable {call j : ℕ} {m : Message Unit}

private theorem commit_update (h : WriteInv cfg old version store w)
    (hm : ∀ c, (w.chunks cfg)[j]? = some c → CommitInv (c.blockOf w.write.input.uuid) m)
    (call' i : ℕ) (c : Chunk) (hc : (w.chunks cfg)[i]? = some c) :
    CommitInv (c.blockOf w.write.input.uuid)
      (Function.update w.commit call (Function.update (w.commit call) j m) call' i) := by
  by_cases hcall : call' = call
  · subst hcall
    rw [Function.update_self]
    by_cases hi : i = j
    · subst hi
      rw [Function.update_self]
      exact hm c hc
    · rw [Function.update_of_ne hi]
      exact h.commit call' i c hc
  · rw [Function.update_of_ne hcall]
    exact h.commit call' i c hc

private theorem uncalled_update (h : WriteInv cfg old version store w)
    (hsent : w.commit call j ≠ .unsent)
    (call' : ℕ) (hcall' : w.write.commits.length ≤ call') (i : ℕ) :
    Function.update w.commit call (Function.update (w.commit call) j m) call' i = .unsent := by
  rw [Function.update_of_ne]
  · exact h.uncalled call' hcall' i
  · rintro rfl
    exact hsent (h.uncalled call' hcall' j)

private theorem decisive_update {call' : ℕ} (hdecisive : w.Decisive cfg old store call')
    (hm : ∀ c, (w.chunks cfg)[j]? = some c →
      w.LandingAt cfg old store c (w.commit call j) → w.LandingAt cfg old store c m)
    (i : ℕ) (c : Chunk) (hc : (w.chunks cfg)[i]? = some c) :
    w.LandingAt cfg old store c
      (Function.update w.commit call (Function.update (w.commit call) j m) call' i) := by
  by_cases hcall : call' = call
  · subst hcall
    rw [Function.update_self]
    by_cases hi : i = j
    · subst hi
      rw [Function.update_self]
      exact hm c hc (hdecisive i c hc)
    · rw [Function.update_of_ne hi]
      exact hdecisive i c hc
  · rw [Function.update_of_ne hcall]
    exact hdecisive i c hc

theorem serveCommit (h : WriteInv cfg old version store w) {c : Chunk}
    (hc : (w.chunks cfg)[j]? = some c) {stray : ℕ → UInt8} {σ : Ssbd.Cell → Option Buf}
    (hserve : (w.commit call j).serve stray (fun _ ↦ ())
      (store (hostOf cfg w.write.input.uuid c)) = some (m, σ))
    (hfresh : ∀ put ∈ (w.commit call j).nextPut,
      Fresh (store (hostOf cfg w.write.input.uuid c)) (c.blockOf w.write.input.uuid) put.1 put.2) :
    WriteInv cfg old version (Function.update store (hostOf cfg w.write.input.uuid c) σ)
      { w with commit := Function.update w.commit call (Function.update (w.commit call) j m) } := by
  have hfits := w.write.input.fits (List.mem_of_getElem? hc)
  have hprimary := primaryStore_blockOf cfg store w.write.input.uuid hfits.blockid_lt
  have hprimary' : primaryStore cfg (Function.update store (hostOf cfg w.write.input.uuid c) σ)
      (c.blockOf w.write.input.uuid) = σ := by
    rw [primaryStore_blockOf cfg _ _ hfits.blockid_lt, Function.update_self]
  have hvote := h.vote j c hc
  rw [WriteRun.VoteAt, hprimary] at hvote
  obtain ⟨pending, hreads⟩ := hvote.exists_reads
  obtain ⟨hcommit, hharmless, hlands⟩ := (h.commit call j c hc).serve hserve hreads hfresh
    (w.bytesOf old c) w.write.selectedVersion
  have hsent : w.commit call j ≠ .unsent := by
    intro hunsent
    rw [hunsent] at hserve
    cases hserve
  have hstore := h.of_harmless fun id ↦ harmless_primaryStore cfg (hharmless id)
  have hpiece : ∀ d, (w.chunks cfg)[j]? = some d → d = c := fun d hd ↦
    (Option.some_inj.mp (hc.symm.trans hd)).symm
  refine ⟨hstore.nonempty, hstore.others, hstore.vote, hstore.commit_update fun d hd ↦ ?_,
    hstore.sent_le, hstore.unsent, hstore.uncalled_update hsent, hstore.outstanding, hstore.agree,
    hstore.calls, fun hall hvotes ↦ ?_⟩
  · rw [hpiece d hd]
    exact hcommit
  · refine (h.decided hall hvotes).imp_right fun ⟨call', hcall', hdecisive⟩ ↦ ⟨call', hcall', ?_⟩
    intro i d hd
    dsimp only
    by_cases hij : call' = call ∧ i = j
    · obtain ⟨rfl, rfl⟩ := hij
      rw [hpiece d hd, WriteRun.LandingAt, hprimary', Function.update_self, Function.update_self]
      have hlanding := hdecisive i c hc
      rw [WriteRun.LandingAt, hprimary] at hlanding
      exact hlands (fun _ _ ↦ hvote.pending (hvotes i (List.getElem?_eq_some_iff.mp hc).1)) hlanding
    · have hsame : Function.update w.commit call (Function.update (w.commit call) j m) call' i
          = w.commit call' i := by
        by_cases hcall : call' = call
        · subst hcall
          rw [Function.update_self, Function.update_of_ne fun hi ↦ hij ⟨rfl, hi⟩]
        · rw [Function.update_of_ne hcall]
      rw [hsame]
      exact (hdecisive i d hd).of_harmless (harmless_primaryStore cfg (hharmless _))

theorem onCommitAck (h : WriteInv cfg old version store w) {out : WriteRun × List Copy}
    (hack : w.onCommitAck cfg call j = some out) : WriteInv cfg old version store out.1 := by
  rw [WriteRun.onCommitAck] at hack
  split at hack
  on_goal 2 => cases hack
  rename_i agree outstanding hcommit hcall
  cases hack
  have hsent : w.commit call j ≠ .unsent := by rw [hcommit]; exact nofun
  refine ⟨h.nonempty, h.others, h.vote, h.commit_update fun _ _ ↦ trivial, h.sent_le, h.unsent,
    fun call' hcall' i ↦ ?_, h.outstanding, h.agree, fun call' hcall' ↦ ?_, fun hall hvotes ↦ ?_⟩
  · rw [List.length_set] at hcall'
    exact h.uncalled_update hsent call' hcall' i
  · rcases List.mem_or_eq_of_mem_set hcall' with hmem | rfl
    · exact h.calls call' hmem
    · exact h.calls ⟨agree, outstanding⟩ (List.mem_of_getElem? hcall)
  · refine (h.decided hall hvotes).imp_right fun ⟨call', hcall', hdecisive⟩ ↦
      ⟨call', by rwa [List.length_set], decisive_update hdecisive fun c hc hlanding ↦ ?_⟩
    rw [hcommit] at hlanding
    exact hlanding

end Commit

/-! ### The end

When all messages are done every block has been prepared and counted, and the executes of the last
call have been handled. What they have put is what `Landing` says. -/

/-- **A write that has run to its end** has laid its bytes over its blocks, left the others alone,
and nothing is pending in any of them. -/
theorem settled_of_complete (h : WriteInv cfg old version store w) (hdone : w.Complete cfg) :
    (∀ c ∈ w.chunks cfg, OnBlock (primaryStore cfg store (c.blockOf w.write.input.uuid))
      (c.blockOf w.write.input.uuid)
      (Settled (w.bytesOf old c) w.write.selectedVersion)) ∧
    ∀ id, (∀ c ∈ w.chunks cfg, c.blockOf w.write.input.uuid ≠ id) →
      OnBlock (primaryStore cfg store id) id (Settled (old id) (version id)) := by
  obtain ⟨hsent, hvotes, hcalls⟩ := hdone
  refine ⟨fun c hc ↦ ?_, h.others⟩
  obtain ⟨j, hj⟩ := List.mem_iff_getElem?.mp hc
  have hlt := (List.getElem?_eq_some_iff.mp hj).1
  have hdone : ∀ i < (w.chunks cfg).length, w.vote i = .done := fun i hi ↦
    Message.isDone_iff.mp (hvotes i hi)
  rcases h.decided hsent fun i hi ↦ by rw [hdone i hi]; rfl with ⟨i, hi, hdeciding⟩ |
    ⟨call, hcall, hdecisive⟩
  · rw [hdone i hi] at hdeciding
    cases hdeciding
  · have hlanding := hdecisive j c hj
    rw [Message.isDone_iff.mp ((hcalls call hcall).2 j hlt)] at hlanding
    exact OnBlock.settled hlanding

end WriteInv

end Slsfs.Datafunction.Threaded

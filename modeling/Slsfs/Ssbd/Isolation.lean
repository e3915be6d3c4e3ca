import Slsfs.Lib.Run
import Slsfs.Ssbd.Block

/-!
# Several coordinators and one block

Any number of coordinators run two-phase commit on the same block of one server. Each sends one
`two_pc_prepare` and, once it has its vote, `two_pc_commit_execute` or `two_pc_commit_rollback`.
The state keeps, next to the server, where each coordinator is and which block its prepare logged.

The pending entry is a single slot. A prepare that finds it taken is refused, but the rollback that
the refused coordinator then sends empties the slot, whoever filled it. `rollback_discards_entry`
is that run with two coordinators. Apart from it the protocol does isolate them: if every rollback
is handled while there is no pending log, `isolated_of_quiet_rollback` shows that an agreed entry
stays until its own execute, which commits exactly it.

The invariant rests on the versions. While an agreed entry waits, its version differs from the
committed one, because no coordinator that is not finished has committed; so `have_pending_log`
sees the entry and every other prepare is refused.
-/

namespace Slsfs.Ssbd

open LeveldbPack

/-- What a coordinator wants to write: the fields of its prepare. -/
structure Proposal where
  version : UInt32
  position : UInt16
  data : Buf
  salt : Salt

/-- Where a coordinator is. -/
inductive Phase where
  | idle
  | voted (agree : Bool)
  | finished
  deriving DecidableEq

/-- One server and the coordinators of one of its blocks. -/
structure Contest (ι : Type*) where
  server : Server
  phase : ι → Phase
  /-- The block that a coordinator's prepare logged: the block committed at that moment with the
  coordinator's data laid over it. -/
  logged : ι → Buf

namespace Contest

/-- The messages the server handles: the prepare of a coordinator, and the commit or rollback that
its vote calls for. -/
inductive Event (ι : Type*) where
  | prepare (a : ι)
  | decide (a : ι)
  deriving DecidableEq

variable {ι : Type*} [DecidableEq ι] (id : BlockId) (proposal : ι → Proposal)

/-- The prepare of coordinator `a`. -/
def preparePacket (a : ι) : Packet :=
  let p := proposal a
  { Packet.createRequest id.1 .twoPcPrepare p.version id.2.toNat p.position.toNat p.data.length
      p.salt with data := p.data }

/-- What `start_2pc_commit` sends for coordinator `a`. -/
def commitPacket (a : ι) (agree : Bool) : Packet :=
  let p := proposal a
  Packet.createRequest id.1 (if agree then .twoPcCommitExecute else .twoPcCommitRollback)
    p.version id.2.toNat p.position.toNat 0 p.salt

def step (s : Contest ι) : Event ι → Option (Contest ι)
  | .prepare a =>
    if s.phase a = .idle then
      let (server, response) := s.server.handle (fun _ ↦ 0) (preparePacket id proposal a)
      let agree := decide (response.header.type = .twoPcPrepareAgree)
      let oldBlock := (s.server.block id).content.getD []
      some { server
             phase := Function.update s.phase a (.voted agree)
             logged := Function.update s.logged a
               (Server.overlayBlock oldBlock (preparePacket id proposal a)) }
    else none
  | .decide a =>
    match s.phase a with
    | .voted agree =>
      some { s with
             server := (s.server.handle (fun _ ↦ 0) (commitPacket id proposal a agree)).1
             phase := Function.update s.phase a .finished }
    | _ => none

/-- Nobody has started yet. -/
def init (server : Server) : Contest ι where
  server
  phase _ := .idle
  logged _ := []

/-- The law: whoever has been agreed to finds its own entry in the log, and its execute makes the
block exactly what its prepare logged. -/
def Isolated (s : Contest ι) : Prop :=
  ∀ a, s.phase a = .voted true →
    ((s.server.block id).pendingData = s.logged a ∧
      (s.server.block id).pendingVersion = (proposal a).version) ∧
    ∀ s', step id proposal s (.decide a) = some s' →
      (s'.server.block id).content = some (s.logged a)

/-- A rollback is handled only while the block has no pending log. -/
def QuietRollback (s : Contest ι) : Event ι → Prop
  | .prepare _ => True
  | .decide a => s.phase a = .voted false → (s.server.block id).havePending = false

instance (s : Contest ι) (e : Event ι) : Decidable (QuietRollback id s e) :=
  match e with
  | .prepare _ => .isTrue trivial
  | .decide a => inferInstanceAs
    (Decidable (s.phase a = .voted false → (s.server.block id).havePending = false))

/-! ## One step on the block

A coordinator takes two steps: its prepare is handled, and then the commit or the rollback that its
vote calls for. On the block each is a step of `Block.handle`, and other blocks play no part. -/

variable {id proposal}

omit [DecidableEq ι] in
@[simp] theorem blockId_preparePacket (a : ι) : blockId (preparePacket id proposal a) = id := by
  simp [blockId, preparePacket, Packet.createRequest]

omit [DecidableEq ι] in
@[simp] theorem blockId_commitPacket (a : ι) (agree : Bool) :
    blockId (commitPacket id proposal a agree) = id := by
  simp [blockId, commitPacket, Packet.createRequest]

/-- What a step can do, seen on the block: a prepare is refused or recorded, and a decision is an
execute or a rollback. -/
theorem step_cases {s s' : Contest ι} {e : Event ι} (h : step id proposal s e = some s') :
    (∃ a, e = .prepare a ∧ s.phase a = .idle ∧ s'.server.block id = (s.server.block id).create ∧
      (s.server.block id).create.havePending = true ∧
      s'.phase = Function.update s.phase a (.voted false) ∧
      ∀ c, c ≠ a → s'.logged c = s.logged c) ∨
    (∃ a, e = .prepare a ∧ s.phase a = .idle ∧ (s.server.block id).create.havePending = false ∧
      s'.server.block id = (s.server.block id).create.record (preparePacket id proposal a) ∧
      s'.phase = Function.update s.phase a (.voted true) ∧
      s'.logged a = (s'.server.block id).pendingData ∧
      ∀ c, c ≠ a → s'.logged c = s.logged c) ∨
    (∃ a, e = .decide a ∧ s.phase a = .voted true ∧
      s'.server.block id = (s.server.block id).execute ∧
      s'.phase = Function.update s.phase a .finished ∧ s'.logged = s.logged) ∨
    (∃ a, e = .decide a ∧ s.phase a = .voted false ∧
      s'.server.block id = (s.server.block id).rollback ∧
      s'.phase = Function.update s.phase a .finished ∧ s'.logged = s.logged) := by
  cases e with
  | prepare a =>
    have hblock := Server.block_handle (fun _ ↦ 0) s.server (preparePacket id proposal a)
    have hvote := Server.handle_vote (fun _ ↦ 0) s.server (preparePacket id proposal a)
      (Or.inl rfl)
    have htype : (preparePacket id proposal a).header.type = .twoPcPrepare := rfl
    rw [blockId_preparePacket] at hblock hvote
    simp only [Block.handle, htype, true_and] at hblock hvote
    by_cases hidle : s.phase a = .idle
    · simp only [step, if_pos hidle, Option.some_inj] at h
      subst h
      simp only [hblock, hvote, Function.update_self, Block.prepare, Server.respond]
      by_cases hpending : (s.server.block id).create.havePending = true
      · refine Or.inl ⟨a, rfl, hidle, by simp [hpending], hpending, by simp [hpending], ?_⟩
        exact fun c hc ↦ Function.update_of_ne hc _ _
      · have hfalse : (s.server.block id).create.havePending = false := by simpa using hpending
        refine Or.inr (Or.inl ⟨a, rfl, hidle, hfalse, by simp [hfalse], by simp [hfalse], ?_, ?_⟩)
        · simp [hfalse, Block.record]
        · exact fun c hc ↦ Function.update_of_ne hc _ _
    · simp only [step, if_neg hidle, reduceCtorEq] at h
  | decide a =>
    cases hphase : s.phase a with
    | voted agree =>
      have hblock := Server.block_handle (fun _ ↦ 0) s.server (commitPacket id proposal a agree)
      rw [blockId_commitPacket] at hblock
      simp only [step, hphase, Option.some_inj] at h
      subst h
      cases agree with
      | true =>
        have htype : (commitPacket id proposal a true).header.type = .twoPcCommitExecute := rfl
        simp only [Block.handle, htype] at hblock
        exact Or.inr (Or.inr (Or.inl ⟨a, rfl, hphase, by rw [hblock, Function.update_self],
          rfl, rfl⟩))
      | false =>
        have htype : (commitPacket id proposal a false).header.type = .twoPcCommitRollback := rfl
        simp only [Block.handle, htype] at hblock
        exact Or.inr (Or.inr (Or.inr ⟨a, rfl, hphase, by rw [hblock, Function.update_self],
          rfl, rfl⟩))
    | idle | finished => simp only [step, hphase, reduceCtorEq] at h

/-! ## The invariant

What it says is said of the coordinator whose entry is pending: it has agreed and not committed, the
entry is the one that it logged, and its version is not the committed one. Hence the block has a
pending log, and a full prepare of anybody else is refused. The condition keeps refused coordinators
from clearing the log while it is there. -/

/-- An agreed entry is in the log, on a block that exists, and no coordinator that is not finished
has its version committed. -/
structure Inv (id : BlockId) (proposal : ι → Proposal) (s : Contest ι) : Prop where
  entry : ∀ a, s.phase a = .voted true →
    (s.server.block id).pendingData = s.logged a ∧
    (s.server.block id).pendingVersion = (proposal a).version ∧
    (s.server.block id).content ≠ none
  fresh : ∀ a, s.phase a ≠ .finished →
    (s.server.block id).committedVersion ≠ (proposal a).version

omit [DecidableEq ι] in
theorem inv_init {server : Server}
    (hfresh : ∀ a, (server.block id).committedVersion ≠ (proposal a).version) :
    Inv id proposal (init server) where
  entry a h := by cases h
  fresh a _ := hfresh a

omit [DecidableEq ι] in
/-- While an agreed entry waits, the block has a pending log and creating it changes nothing. -/
theorem Inv.havePending {s : Contest ι} (hinv : Inv id proposal s)
    (hnonzero : ∀ a, (proposal a).version ≠ 0) {a : ι} (ha : s.phase a = .voted true) :
    (s.server.block id).create = s.server.block id ∧
      (s.server.block id).havePending = true := by
  obtain ⟨-, hversion, hcontent⟩ := hinv.entry a ha
  refine ⟨?_, ?_⟩
  · rw [Block.create]
    split
    · rfl
    · rename_i hnone
      exact absurd hnone hcontent
  · have hcommitted := hinv.fresh a (by rw [ha]; simp)
    simp only [Block.havePending, hversion, Bool.not_eq_true', Bool.or_eq_false_iff,
      beq_eq_false_iff_ne]
    exact ⟨hcommitted.symm, hnonzero a⟩

private theorem create_committedVersion (blk : Block) :
    blk.create.committedVersion = blk.committedVersion ∨ blk.create.committedVersion = 0 := by
  rw [Block.create]
  split
  · exact Or.inl rfl
  · exact Or.inr rfl

theorem inv_step (hnonzero : ∀ a, (proposal a).version ≠ 0)
    (hdistinct : Function.Injective fun a ↦ (proposal a).version) (s : Contest ι) (e : Event ι)
    (s' : Contest ι) (hquiet : QuietRollback id s e) (h : step id proposal s e = some s')
    (hinv : Inv id proposal s) : Inv id proposal s' := by
  have hcreated : ∀ c, s.phase c ≠ .finished →
      (s.server.block id).create.committedVersion ≠ (proposal c).version := by
    intro c hc
    rcases create_committedVersion (s.server.block id) with heq | heq
    · rw [heq]; exact hinv.fresh c hc
    · rw [heq]; exact (hnonzero c).symm
  rcases step_cases h with ⟨a, rfl, hidle, hblk, -, hphase, hlog⟩ |
    ⟨a, rfl, hidle, hpending, hblk, hphase, hloga, -⟩ | ⟨a, rfl, hvoted, hblk, hphase, hlog⟩ |
    ⟨a, rfl, hvoted, hblk, hphase, hlog⟩
  · -- a refused prepare: the block is at most created
    refine ⟨fun c hc ↦ ?_, fun c hc ↦ ?_⟩
    · have hca : c ≠ a := by rintro rfl; rw [hphase, Function.update_self] at hc; cases hc
      rw [hphase, Function.update_of_ne hca] at hc
      rw [hblk, (hinv.havePending hnonzero hc).1, hlog c hca]
      exact hinv.entry c hc
    · rw [hblk]
      refine hcreated c fun hfin ↦ hc ?_
      rw [hphase, Function.update_of_ne, hfin]
      rintro rfl
      rw [hidle] at hfin
      cases hfin
  · -- an agreed prepare: nobody else can have been agreed to
    refine ⟨fun c hc ↦ ?_, fun c hc ↦ ?_⟩
    · by_cases hca : c = a
      · subst hca
        refine ⟨hloga.symm, by rw [hblk]; rfl, by rw [hblk]; simp [Block.record]⟩
      · rw [hphase, Function.update_of_ne hca] at hc
        obtain ⟨hcreate, htrue⟩ := hinv.havePending hnonzero hc
        rw [hcreate, htrue] at hpending
        cases hpending
    · rw [hblk]
      refine hcreated c fun hfin ↦ hc ?_
      rw [hphase, Function.update_of_ne, hfin]
      rintro rfl
      rw [hidle] at hfin
      cases hfin
  · -- an execute: its version is now the committed one, and no other waits
    obtain ⟨-, hversion, -⟩ := hinv.entry a hvoted
    refine ⟨fun c hc ↦ ?_, fun c hc ↦ ?_⟩
    · have hca : c ≠ a := by rintro rfl; rw [hphase, Function.update_self] at hc; cases hc
      rw [hphase, Function.update_of_ne hca] at hc
      have hversion' := (hinv.entry c hc).2.1
      exact absurd (hdistinct (hversion'.symm.trans hversion)) hca
    · have hca : c ≠ a := by rintro rfl; exact hc (by rw [hphase, Function.update_self])
      rw [hblk]
      change (s.server.block id).pendingVersion ≠ _
      rw [hversion]
      exact fun heq ↦ hca (hdistinct heq.symm)
  · -- a rollback: there was no pending log, so nobody waits
    have hnone := hquiet hvoted
    refine ⟨fun c hc ↦ ?_, fun c hc ↦ ?_⟩
    · have hca : c ≠ a := by rintro rfl; rw [hphase, Function.update_self] at hc; cases hc
      rw [hphase, Function.update_of_ne hca] at hc
      rw [(hinv.havePending hnonzero hc).2] at hnone
      cases hnone
    · rw [hblk]
      refine hinv.fresh c fun hfin ↦ hc ?_
      by_cases hca : c = a
      · rw [hca, hphase, Function.update_self]
      · rw [hphase, Function.update_of_ne hca, hfin]

/-- The invariant gives the law at once: the execute commits the entry that is there. -/
theorem Inv.isolated {s : Contest ι} (hinv : Inv id proposal s) : Isolated id proposal s := by
  intro a ha
  obtain ⟨hdata, hversion, -⟩ := hinv.entry a ha
  refine ⟨⟨hdata, hversion⟩, fun s' hs' ↦ ?_⟩
  rcases step_cases hs' with ⟨c, hc, -⟩ | ⟨c, hc, -⟩ | ⟨c, hc, -, hblk, -⟩ | ⟨c, hc, hvoted, -⟩
  · cases hc
  · cases hc
  · rw [hblk, Block.execute, hdata]
  · cases hc
    rw [ha] at hvoted
    cases hvoted

end Contest

open Contest

/-- **Isolation up to rollbacks.** From any state of the server in which none of the versions is
already committed: in every run in which each rollback is handled while the block has no pending
log, an agreed entry stays in the log and its execute commits exactly that entry. -/
theorem isolated_of_quiet_rollback {ι : Type*} [DecidableEq ι] (id : BlockId)
    (proposal : ι → Proposal) (server : Server) (hnonzero : ∀ a, (proposal a).version ≠ 0)
    (hdistinct : Function.Injective fun a ↦ (proposal a).version)
    (hfresh : ∀ a, (server.block id).committedVersion ≠ (proposal a).version)
    (events : List (Event ι)) (s : Contest ι)
    (hquiet : Meets (step id proposal) (QuietRollback id) (init server) events)
    (hrun : run (step id proposal) (init server) events = some s) : Isolated id proposal s :=
  (invariant_run (inv_step hnonzero hdistinct) hquiet hrun (inv_init hfresh)).isolated

/-! ## The run that breaks it -/

/-- Block 0 of the file whose id is all zeros. -/
def firstBlock : BlockId := (List.Vector.replicate 32 0, 0)

/-- Coordinators that write one byte each, all to the same place. -/
def rivals (a : Fin 3) : Proposal :=
  ⟨UInt32.ofNat (a + 1), 0, [UInt8.ofNat (a + 7)], List.Vector.replicate 4 1⟩

private theorem rivals_distinct : Function.Injective fun a ↦ (rivals a).version := by
  unfold Function.Injective
  decide

/-- The second coordinator is refused and rolls back only after the first has executed; the third
is then agreed to. -/
theorem isolated_rivals_in_turn :
    ∃ s, run (step firstBlock rivals) (init Server.empty)
        [.prepare 0, .prepare 1, .decide 0, .decide 1, .prepare 2] = some s ∧
      s.phase 2 = .voted true ∧ Isolated firstBlock rivals s :=
  ⟨_, rfl, by decide, isolated_of_quiet_rollback firstBlock rivals Server.empty (by decide)
    rivals_distinct (by decide) [.prepare 0, .prepare 1, .decide 0, .decide 1, .prepare 2] _
    (by decide) rfl⟩

/-- **The rollback of a refused coordinator discards the entry of the one that was agreed to.** The
first coordinator is agreed to, the second is refused and rolls back, and the execute of the first
then commits an empty block. -/
theorem rollback_discards_entry :
    ¬∀ (ι : Type) [DecidableEq ι] (id : BlockId) (proposal : ι → Proposal),
      (∀ a, (proposal a).version ≠ 0) → (Function.Injective fun a ↦ (proposal a).version) →
      ∀ events s, run (step id proposal) (init Server.empty) events = some s →
        Isolated id proposal s := by
  intro h
  have hentry := (h (Fin 3) firstBlock rivals (by decide) rivals_distinct
    [.prepare 0, .prepare 1, .decide 1] _ rfl 0 (by decide)).1.1
  exact absurd hentry (by decide)

end Slsfs.Ssbd

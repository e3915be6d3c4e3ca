import Slsfs.Lib.Run
import Slsfs.Ssbd.Block

/-!
# Which prepares are pending

`have_pending_log` compares two version numbers, and takes the version zero for an empty log. A
prepare that is agreed to is pending until an execute or a rollback is handled, whoever sends it.
The comparison says the same after every message exactly if no prepare that is agreed to has the
version zero or the version that is committed. Versions are read off a clock that wraps around, so
both occur.

`Watched` is a server with what it should know of one block: whether a prepare that was agreed to is
undecided. `Detects` says that the comparison knows it too. Each message either keeps the two in
step or, if it is a prepare with a stale version, makes them differ at once, which gives both
directions.
-/

namespace Slsfs.Ssbd

open LeveldbPack

/-- A server, and whether an agreed prepare of the block waits to be decided. -/
structure Watched where
  server : Server
  undecided : Bool

namespace Watched

def init : Watched := ⟨.empty, false⟩

variable (id : BlockId)

/-- One message for the block: a prepare, an execute or a rollback. -/
def step (s : Watched) (pack : Packet) : Option Watched :=
  if blockId pack = id then
    let (server, response) := s.server.handle (fun _ ↦ 0) pack
    match pack.header.type with
    | .twoPcPrepare =>
      some ⟨server, s.undecided || response.header.type = .twoPcPrepareAgree⟩
    | .twoPcCommitExecute | .twoPcCommitRollback => some ⟨server, false⟩
    | _ => none
  else none

/-- `have_pending_log` says whether a prepare is pending. -/
def Detects (s : Watched) : Prop :=
  (s.server.dbLog.havePendingLog (blockKey id)).1 = s.undecided

/-- A prepare that is agreed to has neither the version zero nor the committed version. -/
def FreshVersion (s : Watched) (pack : Packet) : Prop :=
  pack.header.type = .twoPcPrepare → (s.server.dbLog.havePendingLog (blockKey id)).1 = false →
    pack.header.version ≠ 0 ∧
    (s.server.db (blockKey id) ≠ none →
      pack.header.version ≠ (s.server.dbLog.getCommittedVersion (blockKey id)).1)

instance (s : Watched) (pack : Packet) : Decidable (FreshVersion id s pack) :=
  inferInstanceAs (Decidable (_ → _ → _ ∧ (_ → _)))

variable {id}

private theorem block_step {s s' : Watched} {pack : Packet} (h : step id s pack = some s') :
    s'.server.block id = (s.server.block id).handle pack ∧
      (pack.header.type = .twoPcPrepare ∧
          s'.undecided = (s.undecided || !(s.server.block id).create.havePending) ∨
        (pack.header.type = .twoPcCommitExecute ∨ pack.header.type = .twoPcCommitRollback) ∧
          s'.undecided = false) := by
  rw [step] at h
  split at h
  · rename_i hid
    subst hid
    have hblock := Server.block_handle (fun _ ↦ 0) s.server pack
    dsimp only at h
    split at h
    · rename_i htype
      cases h
      refine ⟨by rw [hblock, Function.update_self], .inl ⟨htype, ?_⟩⟩
      have hvote := Server.handle_vote (fun _ ↦ 0) s.server pack (.inl htype)
      dsimp only
      rw [hvote]
      simp only [htype, true_and, Server.respond]
      cases (s.server.block (blockId pack)).create.havePending <;> rfl
    · rename_i htype
      cases h
      exact ⟨by rw [hblock, Function.update_self], .inr ⟨.inl htype, rfl⟩⟩
    · rename_i htype
      cases h
      exact ⟨by rw [hblock, Function.update_self], .inr ⟨.inr htype, rfl⟩⟩
    · cases h
  · cases h

private theorem detects_iff {s : Watched} :
    Detects id s ↔ (s.server.block id).havePending = s.undecided := by
  rw [Detects, Server.havePendingLog_fst]

/-- Where nothing is committed nothing is pending. -/
def Clean (s : Watched) : Prop :=
  Detects id s ∧ ((s.server.block id).content = none → (s.server.block id).havePending = false)

private theorem havePending_decided {blk : Block} {pack : Packet}
    (h : pack.header.type = .twoPcCommitExecute ∨ pack.header.type = .twoPcCommitRollback) :
    (blk.handle pack).havePending = false := by
  rcases h with h | h
  · rw [Block.handle, h]
    simp [Block.execute, Block.havePending]
  · rw [Block.handle, h]
    simp [Block.rollback, Block.havePending]

private theorem content_handle {blk : Block} {pack : Packet}
    (h : pack.header.type = .twoPcPrepare) :
    (blk.handle pack).content = some (blk.content.getD []) := by
  rw [Block.handle, h]
  dsimp only
  rw [Block.prepare]
  split
  · exact blk.create_content
  · exact blk.create_content

/-- A prepare that is agreed to is pending, unless its version hides it. -/
theorem havePending_record {blk : Block} {pack : Packet} :
    (blk.record pack).havePending = true ↔
      pack.header.version ≠ blk.committedVersion ∧ pack.header.version ≠ 0 := by
  simp [Block.record, Block.havePending]

private theorem freshVersion_iff {s : Watched} {pack : Packet}
    (hclean : (s.server.block id).content = none → (s.server.block id).havePending = false)
    (htype : pack.header.type = .twoPcPrepare) :
    FreshVersion id s pack ↔ ((s.server.block id).create.havePending = false →
      pack.header.version ≠ (s.server.block id).create.committedVersion ∧
      pack.header.version ≠ 0) := by
  have hcontent : (s.server.block id).content = s.server.db (blockKey id) := rfl
  have hversion : (s.server.block id).committedVersion
      = (s.server.dbLog.getCommittedVersion (blockKey id)).1 := rfl
  rw [FreshVersion, Server.havePendingLog_fst, ← hcontent, ← hversion]
  cases hc : (s.server.block id).content with
  | none =>
    have hcreate : (s.server.block id).create = ⟨some [], [], 0, 0⟩ := by rw [Block.create, hc]
    rw [hcreate]
    constructor
    · intro h _
      have hne := (h htype (hclean hc)).1
      exact ⟨hne, hne⟩
    · intro h _ _
      exact ⟨(h rfl).2, fun habsurd ↦ absurd rfl habsurd⟩
  | some content =>
    have hcreate : (s.server.block id).create = s.server.block id := by rw [Block.create, hc]
    rw [hcreate]
    constructor
    · intro h hpending
      obtain ⟨hzero, hne⟩ := h htype hpending
      exact ⟨hne (by simp), hzero⟩
    · intro h _ hpending
      exact ⟨(h hpending).2, fun _ ↦ (h hpending).1⟩

private theorem undecided_of_pending {s : Watched} (hs : @Clean id s)
    (hpending : (s.server.block id).create.havePending = true) :
    s.undecided = true ∧ (s.server.block id).create = s.server.block id := by
  have hcreate := Block.create_of_havePending hpending
  rw [hcreate] at hpending
  exact ⟨(detects_iff.mp hs.1).symm.trans hpending, hcreate⟩

private theorem decided_of_free {s : Watched} (hs : @Clean id s)
    (hfree : (s.server.block id).create.havePending = false) : s.undecided = false := by
  rw [← detects_iff.mp hs.1]
  cases hc : (s.server.block id).content with
  | none => exact hs.2 hc
  | some content => rwa [Block.create, hc] at hfree

/-- A prepare keeps the comparison right exactly if its version is fresh. -/
theorem detects_prepare_iff {s s' : Watched} {pack : Packet} (h : step id s pack = some s')
    (htype : pack.header.type = .twoPcPrepare) (hs : @Clean id s) :
    Detects id s' ↔ FreshVersion id s pack := by
  obtain ⟨hblock, ⟨-, hundecided⟩ | ⟨hother, -⟩⟩ := block_step h
  · rw [detects_iff, freshVersion_iff hs.2 htype, hblock, hundecided, Block.handle, htype]
    dsimp only
    rw [Block.prepare]
    cases hpending : (s.server.block id).create.havePending with
    | true =>
      obtain ⟨hundecided, -⟩ := undecided_of_pending hs hpending
      rw [if_pos rfl, hpending, hundecided]
      simp
    | false =>
      rw [if_neg Bool.false_ne_true, decided_of_free hs hpending, Bool.false_or, Bool.not_false,
        havePending_record]
      simp
  · rw [htype] at hother
    rcases hother with hother | hother <;> cases hother

private theorem clean_step {s s' : Watched} {pack : Packet} (hfresh : FreshVersion id s pack)
    (h : step id s pack = some s') (hs : @Clean id s) : @Clean id s' := by
  obtain ⟨hblock, ⟨htype, -⟩ | ⟨htype, hundecided⟩⟩ := block_step h
  · refine ⟨(detects_prepare_iff h htype hs).mpr hfresh, ?_⟩
    rw [hblock, content_handle htype]
    intro hnone
    cases hnone
  · have hpending : ((s.server.block id).handle pack).havePending = false :=
      havePending_decided htype
    refine ⟨?_, ?_⟩
    · rw [detects_iff, hblock, hpending, hundecided]
    · intro _
      rw [hblock, hpending]

/-- **Detection.** On a new server, `have_pending_log` tells after every message whether a prepare
is pending, exactly if no prepare that is agreed to has the version zero or the version that is
committed. -/
theorem detects_iff_freshVersion {packs : List Packet} {s : Watched}
    (hrun : run (step id) init packs = some s) :
    Always (step id) (Detects id) init packs ↔ Meets (step id) (FreshVersion id) init packs := by
  refine always_iff_meets (I := @Clean id) (fun _ _ _ hC h hs ↦ clean_step hC h hs)
    (fun _ hs ↦ hs.1) ?_ hrun ⟨rfl, fun _ ↦ rfl⟩
  intro s pack s' hs h hdetects htype hpending
  exact (detects_prepare_iff h htype hs).mp hdetects htype hpending

/-! ## Two runs

In the first one each prepare is decided before the next, and no version is used twice. In the
second the version of the first prepare is zero. -/

/-- The messages for block 0. -/
def message (type : MsgT) (version : UInt32) : Packet where
  header := ⟨type, List.Vector.replicate 32 0, 0, 0, 1, version, List.Vector.replicate 4 0⟩
  data := [7]

/-- Two coordinators, the second after the execute of the first. -/
theorem detects_in_turn :
    Always (step (List.Vector.replicate 32 0, 0)) (Detects (List.Vector.replicate 32 0, 0)) init
      [message .twoPcPrepare 5, message .twoPcCommitExecute 5, message .twoPcPrepare 6,
        message .twoPcCommitRollback 6] := by
  obtain ⟨s, hs⟩ := Option.isSome_iff_exists.mp (show (run (step (List.Vector.replicate 32 0, 0))
    init [message .twoPcPrepare 5, message .twoPcCommitExecute 5, message .twoPcPrepare 6,
      message .twoPcCommitRollback 6]).isSome by decide +kernel)
  exact (detects_iff_freshVersion hs).mpr (by decide +kernel)

/-- **A prepare that is not seen.** Its version is zero. -/
theorem zero_version_undetected :
    ∃ s, run (step (List.Vector.replicate 32 0, 0)) init [message .twoPcPrepare 0] = some s ∧
      s.undecided = true ∧
      (s.server.dbLog.havePendingLog (blockKey (List.Vector.replicate 32 0, 0))).1 = false := by
  obtain ⟨s, hs⟩ := Option.isSome_iff_exists.mp (show (run (step (List.Vector.replicate 32 0, 0))
    init [message .twoPcPrepare 0]).isSome by decide +kernel)
  have hall : ∀ s ∈ run (step (List.Vector.replicate 32 0, 0)) init [message .twoPcPrepare 0],
      s.undecided = true ∧
      (s.server.dbLog.havePendingLog (blockKey (List.Vector.replicate 32 0, 0))).1 = false := by
    decide +kernel
  exact ⟨s, hs, hall s hs⟩

end Watched

end Slsfs.Ssbd

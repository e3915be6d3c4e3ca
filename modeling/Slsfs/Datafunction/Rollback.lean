import Slsfs.Datafunction.Directory
import Slsfs.Ssbd.Frame
import Slsfs.Ssbd.ReadBounds

/-!
# What a rollback leaves behind

A prepare of a block that is not there creates it, empty, before the vote, and
`start_two_pc_commit_rollback` only clears the log. So a write that is rolled back leaves a block
where there was none, and a read of it is answered with zeros and `ack` where it was answered with
`err`. The directory requests take that for a directory: `ls` then lists no files where it reported
that there is no such directory. For a block that was there before, a rollback leaves no trace,
whatever the server does for other blocks in between.
-/

namespace Slsfs.Ssbd

open LeveldbPack
open Datafunction (startMetaLs oneServer rootId noSuchDirectory listing)

namespace Server

/-- A write that is rolled back: its prepare, whatever comes for other blocks, and the rollback. -/
def rolledBack (stray : ℕ → UInt8) (s : Server) (prepare : Packet) (others : List Packet)
    (rollback : Packet) : Server :=
  s.handleAll stray (prepare :: others ++ [rollback])

/-- What a read of the block would touch is inside it. -/
def Within (s : Server) (get : Packet) : Prop :=
  ∀ block, s.db get.header.asString = some block →
    get.header.position.toNat ≤ block.length

/-- Every read of the block inside it gets the same answer, type and bytes, from both servers. -/
def SameAnswers (id : BlockId) (s s' : Server) : Prop :=
  ∀ stray stray' get, get.header.type = .get → blockId get = id → s.Within get →
    (s'.handle stray' get).2 = (s.handle stray get).2

/-- **No trace.** -/
structure Traceless (id : BlockId) (s s' : Server) : Prop where
  answers : SameAnswers id s s'
  free : (s'.dbLog.havePendingLog (blockKey id)).1 = false
  missing : s.db (blockKey id) = none → s'.db (blockKey id) = none

/-! ## The block after the rollback

What the prepare has created stays, with no bytes in it, and what was there before it stays as it
was. The messages of other blocks in between do not matter, by `handle_isolated`. -/

section

variable {id : BlockId} {stray : ℕ → UInt8} {s : Server} {prepare rollback : Packet}
  {others : List Packet}

/-- Both kinds of prepare leave the committed block as it is, or create it. -/
theorem content_handle_prepare (blk : Block) {pack : Packet}
    (htype : pack.header.type = .twoPcPrepare ∨ pack.header.type = .twoPcPrepareQuick) :
    (blk.handle pack).content = some (blk.content.getD []) := by
  rw [Block.handle_prepare blk htype]
  split
  · rename_i hrefused
    rw [← Block.create_content, Block.create_of_havePending hrefused.2]
  · exact Block.create_content blk

variable (hprepare : prepare.header.type = .twoPcPrepare ∨
    prepare.header.type = .twoPcPrepareQuick)
  (hid : blockId prepare = id) (hothers : ∀ pack ∈ others, blockId pack ≠ id)
  (hrollback : rollback.header.type = .twoPcCommitRollback) (hid' : blockId rollback = id)

include hprepare hid hothers hrollback hid'

variable (stray s) in
/-- After the rollback the block is there, with its old content or none, and its log is clear. -/
theorem block_rolledBack :
    ((s.rolledBack stray prepare others rollback).block id).content
        = some ((s.block id).content.getD []) ∧
      ((s.rolledBack stray prepare others rollback).block id).havePending = false := by
  have hprepared : ((s.handle stray prepare).1.block id).content
      = some ((s.block id).content.getD []) := by
    rw [block_handle, hid, Function.update_self, content_handle_prepare _ hprepare]
  have hkept := block_handleAll_of_ne stray (s.handle stray prepare).1 hothers
  have hsplit : s.rolledBack stray prepare others rollback
      = (((s.handle stray prepare).1.handleAll stray others).handle stray rollback).1 := by
    rw [rolledBack, handleAll, List.cons_append, List.foldl_cons, List.foldl_append]
    rfl
  have hfinal : (s.rolledBack stray prepare others rollback).block id
      = ((s.handle stray prepare).1.block id).rollback := by
    rw [hsplit, block_handle, hid', Function.update_self, Block.handle, hrollback, hkept]
  rw [hfinal]
  exact ⟨hprepared, by simp [Block.rollback, Block.havePending]⟩

/-- **Rollback.** A write that is rolled back leaves no trace of the block exactly if the block was
there before. That the log is clear again holds in any case. -/
theorem traceless_iff
    (hlen : ∀ block, s.db (blockKey id) = some block → block.length < 2 ^ 64) :
    Traceless id s (s.rolledBack stray prepare others rollback) ↔ s.db (blockKey id) ≠ none := by
  obtain ⟨hcontent, hpending⟩ := block_rolledBack stray s hprepare hid hothers hrollback hid'
  have hdb : (s.rolledBack stray prepare others rollback).db (blockKey id)
      = some ((s.db (blockKey id)).getD []) := hcontent
  constructor
  · intro h hnone
    have hmissing := h.missing hnone
    rw [hdb] at hmissing
    cases hmissing
  · intro hexists
    obtain ⟨block, hblock⟩ := Option.ne_none_iff_exists'.mp hexists
    rw [hblock, Option.getD_some] at hdb
    refine ⟨fun stray₁ stray₂ get htype hget hwithin ↦ ?_, ?_, fun hnone ↦ absurd hnone hexists⟩
    · have hkey : get.header.asString = blockKey id := by rw [asString_eq, hget]
      have hpos := hwithin block (by rw [hkey, hblock])
      rw [handle_get _ _ _ htype, handle_get _ _ _ htype, startDbRead, startDbRead, hkey, hblock,
        hdb]
      simp only [readBuffer_eq_padded _ (hlen block hblock) (Or.inl hpos)]
    · rw [havePendingLog_fst]
      exact hpending

end

/-- A prepare that is refused elsewhere and rolled back, on a new server. The block is then there,
and the directory of that name is listed. -/
theorem rolledBack_leaves_block :
    ¬Traceless (List.Vector.replicate 32 0, 0) empty (empty.rolledBack (fun _ ↦ 0)
      (onePacket .twoPcPrepare 1) [] (onePacket .twoPcCommitRollback 1)) ∧
    (empty.handle (fun _ ↦ 0) (onePacket .get 0)).2.header.type = .err ∧
    ((empty.rolledBack (fun _ ↦ 0) (onePacket .twoPcPrepare 1) []
      (onePacket .twoPcCommitRollback 1)).handle (fun _ ↦ 0)
        (onePacket .get 0)).2.header.type = .ack ∧
    startMetaLs oneServer (fun _ ↦ 0) 1 (fun _ ↦ empty) rootId = some noSuchDirectory ∧
    startMetaLs oneServer (fun _ ↦ 0) 1 (fun _ ↦ empty.rolledBack (fun _ ↦ 0)
      (onePacket .twoPcPrepare 1) [] (onePacket .twoPcCommitRollback 1)) rootId
      = some (listing 0 []) := by
  refine ⟨fun h ↦ absurd (h.missing rfl) ?_, ?_, ?_, ?_, ?_⟩
  · decide +kernel
  · decide +kernel
  · decide +kernel
  · decide +kernel
  · decide +kernel

theorem traceless_iff_committed :
    ∃ s : Server, s.db (blockKey (List.Vector.replicate 32 0, 0)) = some [7] ∧
      Traceless (List.Vector.replicate 32 0, 0) s (s.rolledBack (fun _ ↦ 0)
        (onePacket .twoPcPrepare 2) [] (onePacket .twoPcCommitRollback 2)) := by
  have hdb : (empty.handleAll (fun _ ↦ 0)
      [onePacket .twoPcPrepare 1, onePacket .twoPcCommitExecute 1]).db
        (blockKey (List.Vector.replicate 32 0, 0)) = some [7] := by decide +kernel
  have hothers : ∀ pack ∈ ([] : List Packet), blockId pack ≠ (List.Vector.replicate 32 0, 0) :=
    List.forall_mem_nil _
  have hprepare : (onePacket .twoPcPrepare 2).header.type = .twoPcPrepare ∨
      (onePacket .twoPcPrepare 2).header.type = .twoPcPrepareQuick := .inl rfl
  have hid : blockId (onePacket .twoPcPrepare 2) = (List.Vector.replicate 32 0, 0) := rfl
  have hrollback : (onePacket .twoPcCommitRollback 2).header.type = .twoPcCommitRollback := rfl
  have hid' : blockId (onePacket .twoPcCommitRollback 2) = (List.Vector.replicate 32 0, 0) := rfl
  refine ⟨_, hdb, (traceless_iff hprepare hid hothers hrollback hid' fun block hblock ↦ ?_).mpr ?_⟩
  · rw [hdb, Option.some_inj] at hblock
    rw [← hblock]
    decide
  · rw [hdb]
    exact Option.some_ne_none _

end Server

end Slsfs.Ssbd

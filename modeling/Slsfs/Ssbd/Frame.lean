import Slsfs.Ssbd.Block

/-!
# What a message leaves alone

Everything a server knows is in two databases under strings that are put together from a file id, a
block id and a suffix. `storeKey_injective` says that no two of these strings agree; with it, the
refinement of the handlers to operations on one block, `block_handle`, gives three laws of the
server: a message is about its own block, the committed block changes only when it is executed, and
the two prepares differ only on a block that has a pending log.
-/

namespace Slsfs.Ssbd

open LeveldbPack

/-! ## The keys of the two databases

Every key is the decimal text of a block id behind the name of the file, and then a suffix. No
suffix starts with a digit, so where the number ends can be seen, and the suffix is what comes after
it. -/

/-- What a key is for. -/
inductive Purpose where
  | block
  | replica
  | pendingVersion
  | committedVersion
  | pendingData
  deriving DecidableEq

def Purpose.suffix : Purpose → Buf
  | .block => []
  | .replica => ascii "repl"
  | .pendingVersion => ascii "-version"
  | .committedVersion => ascii "-committed-version"
  | .pendingData => ascii "-data"

/-- The key of a block for a purpose. -/
def storeKey (id : BlockId) (purpose : Purpose) : Buf := blockKey id ++ purpose.suffix

private theorem Purpose.startsOffDigit_suffix (purpose : Purpose) :
    StartsOffDigit purpose.suffix := by
  cases purpose <;> decide

private theorem Purpose.suffix_injective : Function.Injective Purpose.suffix := by
  intro p q h
  cases p <;> cases q <;> first | rfl | exact absurd h (by decide)

/-- **Keys are for one block and one purpose**, whatever the bytes of the file ids. -/
theorem storeKey_injective {id id' : BlockId} {purpose purpose' : Purpose}
    (h : storeKey id purpose = storeKey id' purpose') : id = id' ∧ purpose = purpose' := by
  obtain ⟨hid, hsuffix⟩ :=
    blockKey_append_inj purpose.startsOffDigit_suffix purpose'.startsOffDigit_suffix h
  exact ⟨hid, Purpose.suffix_injective hsuffix⟩

namespace Server

/-! ## One block at a time

A handler reads and writes under the keys of one block, and a replication under the key of its copy
only. -/

/-- **Block isolation.** The keys do not clash. A message changes nothing about any other block, a
replication message nothing about its own block apart from the replica, and only a replication
message changes a replica. -/
theorem handle_isolated (stray : ℕ → UInt8) (s : Server) (pack : Packet) :
    (∀ id id' purpose purpose', storeKey id purpose = storeKey id' purpose' →
      id = id' ∧ purpose = purpose') ∧
    (∀ id, id ≠ blockId pack →
      (s.handle stray pack).1.block id = s.block id ∧
      (s.handle stray pack).1.replica id = s.replica id) ∧
    (pack.header.type = .replication →
      (s.handle stray pack).1.block (blockId pack) = s.block (blockId pack)) ∧
    (pack.header.type ≠ .replication → (s.handle stray pack).1.replica = s.replica) := by
  refine ⟨fun id id' purpose purpose' ↦ storeKey_injective, ?_, ?_, ?_⟩
  · intro id hid
    refine ⟨?_, ?_⟩
    · rw [block_handle, Function.update_of_ne hid]
    · rw [replica_handle]
      split
      · rw [Function.update_of_ne hid]
      · rfl
  · intro htype
    rw [block_handle, Function.update_self, Block.handle, htype]
  · intro htype
    rw [replica_handle, if_neg htype]

/-! ## Committed blocks

Of all messages only `two_pc_commit_execute` writes to a block that is there. A prepare creates a
block that is not, and that is the only other case. -/

/-- The server after it has handled some messages. -/
def handleAll (stray : ℕ → UInt8) (s : Server) (packs : List Packet) : Server :=
  packs.foldl (fun s pack ↦ (s.handle stray pack).1) s

theorem block_handleAll_of_ne {id : BlockId} (stray : ℕ → UInt8) (s : Server) {others : List Packet}
    (h : ∀ pack ∈ others, blockId pack ≠ id) :
    (s.handleAll stray others).block id = s.block id := by
  induction others generalizing s with
  | nil => rfl
  | cons pack rest ih =>
    have hrest := ih (s.handle stray pack).1 fun p hp ↦ h p (List.mem_cons_of_mem _ hp)
    rw [block_handle, Function.update_of_ne (h pack List.mem_cons_self).symm] at hrest
    exact hrest

/-- On a block that exists only `commit_execute` touches the committed part. -/
theorem Block.handle_committed {blk : Block} {pack : Packet}
    (htype : pack.header.type ≠ .twoPcCommitExecute) {content : Buf}
    (hcontent : blk.content = some content) :
    (blk.handle pack).content = some content ∧
      (blk.handle pack).committedVersion = blk.committedVersion := by
  have hcreate : blk.create = blk := by rw [Block.create, hcontent]
  cases hpack : pack.header.type with
  | twoPcPrepare =>
    rw [Block.handle, hpack]
    dsimp only
    rw [Block.prepare, hcreate]
    split
    · exact ⟨hcontent, rfl⟩
    · exact ⟨hcontent, rfl⟩
  | twoPcPrepareQuick =>
    rw [Block.handle, hpack]
    dsimp only
    rw [Block.prepareQuick, hcreate]
    exact ⟨hcontent, rfl⟩
  | twoPcCommitExecute => exact absurd hpack htype
  | twoPcCommitRollback =>
    rw [Block.handle, hpack]
    exact ⟨hcontent, rfl⟩
  | err | ack | get | twoPcPrepareAgree | twoPcPrepareAbort | twoPcCommitAck | replication =>
    rw [Block.handle, hpack]
    exact ⟨hcontent, rfl⟩

/-- **Read committed.** As long as no `commit_execute` for it is handled, a block that exists keeps
its content and its committed version. -/
theorem committed_block_stays (stray : ℕ → UInt8) {s : Server} {id : BlockId} {packs : List Packet}
    (hpacks : ∀ pack ∈ packs, blockId pack = id → pack.header.type ≠ .twoPcCommitExecute)
    {content : Buf} (hcontent : s.db (blockKey id) = some content) :
    (s.handleAll stray packs).db (blockKey id) = some content ∧
      ((s.handleAll stray packs).dbLog.getCommittedVersion (blockKey id)).1
        = (s.dbLog.getCommittedVersion (blockKey id)).1 := by
  induction packs generalizing s with
  | nil => exact ⟨hcontent, rfl⟩
  | cons pack packs ih =>
    have hstep : ((s.handle stray pack).1.block id).content = some content ∧
        ((s.handle stray pack).1.block id).committedVersion = (s.block id).committedVersion := by
      rw [block_handle]
      by_cases hid : id = blockId pack
      · subst hid
        rw [Function.update_self]
        exact Block.handle_committed (hpacks pack List.mem_cons_self rfl) hcontent
      · rw [Function.update_of_ne hid]
        exact ⟨hcontent, rfl⟩
    obtain ⟨hkept, hversion⟩ := ih (s := (s.handle stray pack).1)
      (fun p hp ↦ hpacks p (List.mem_cons_of_mem _ hp)) hstep.1
    exact ⟨hkept, hversion.trans hstep.2⟩

/-- The packets of a write of one byte at the start of block 0. -/
def onePacket (type : MsgT) (version : UInt32) : Packet where
  header := ⟨type, List.Vector.replicate 32 0, 0, 0, 1, version, List.Vector.replicate 4 0⟩
  data := [7]

/-- A block that is committed, and then prepared and rolled back by somebody else. -/
theorem committed_block_stays_refused :
    ((empty.handleAll (fun _ ↦ 0) [onePacket .twoPcPrepare 1, onePacket .twoPcCommitExecute 1,
        onePacket .twoPcPrepare 2, onePacket .twoPcCommitRollback 2]).db
        (blockKey (List.Vector.replicate 32 0, 0)) = some [7]) := by
  have hcommitted : (empty.handleAll (fun _ ↦ 0)
      [onePacket .twoPcPrepare 1, onePacket .twoPcCommitExecute 1]).db
        (blockKey (List.Vector.replicate 32 0, 0)) = some [7] := by decide +kernel
  have hpacks : ∀ pack ∈ [onePacket .twoPcPrepare 2, onePacket .twoPcCommitRollback 2],
      blockId pack = (List.Vector.replicate 32 0, 0) →
        pack.header.type ≠ .twoPcCommitExecute := by decide
  exact (committed_block_stays (fun _ ↦ 0) hpacks hcommitted).1

/-! ## The two prepares

The quick prepare leaves out the comparison of the versions, so the two do the same where the
comparison finds nothing. -/

/-- The packet with another message type. -/
def retyped (pack : Packet) (type : MsgT) : Packet :=
  { pack with header := { pack.header with type } }

/-- **Quick and full prepare agree** on a block that does not exist or has no pending log. -/
theorem prepareQuick_eq_prepare (stray : ℕ → UInt8) (s : Server) (pack : Packet)
    (h : s.db pack.header.asString = none ∨
      (s.dbLog.havePendingLog pack.header.asString).1 = false) :
    s.handle stray (retyped pack .twoPcPrepareQuick)
      = s.handle stray (retyped pack .twoPcPrepare) := by
  have hpending : (s.block (blockId pack)).create.havePending = false := by
    rw [Block.create]
    cases hcontent : (s.block (blockId pack)).content with
    | none => rfl
    | some content =>
      rcases h with h | h
      · have hdb : s.db pack.header.asString = some content := hcontent
        rw [h] at hdb
        cases hdb
      · rw [asString_eq, havePendingLog_fst] at h
        exact h
  have hfull := startTwoPcPrepare_eq s (retyped pack .twoPcPrepare)
  have hblock : blockId (retyped pack .twoPcPrepare) = blockId pack := rfl
  rw [hblock, hpending, if_neg Bool.false_ne_true] at hfull
  calc s.handle stray (retyped pack .twoPcPrepareQuick)
      = s.startTwoPcPrepareQuick (retyped pack .twoPcPrepareQuick) := rfl
    _ = (s.recorded (retyped pack .twoPcPrepareQuick),
          respond (retyped pack .twoPcPrepareQuick) .twoPcPrepareAgree) :=
        startTwoPcPrepareQuick_eq ..
    _ = (s.recorded (retyped pack .twoPcPrepare),
          respond (retyped pack .twoPcPrepare) .twoPcPrepareAgree) := rfl
    _ = s.startTwoPcPrepare (retyped pack .twoPcPrepare) := hfull.symm
    _ = s.handle stray (retyped pack .twoPcPrepare) := rfl

/-- The first prepare of a block, by either message. -/
theorem prepareQuick_eq_prepare_new :
    empty.handle (fun _ ↦ 0) (retyped (onePacket .get 1) .twoPcPrepareQuick)
      = empty.handle (fun _ ↦ 0) (retyped (onePacket .get 1) .twoPcPrepare) :=
  prepareQuick_eq_prepare (fun _ ↦ 0) empty (onePacket .get 1) (.inl rfl)

end Server

end Slsfs.Ssbd

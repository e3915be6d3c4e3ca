import Slsfs.Ssbd.Server

/-!
# A server, one block at a time

A `Block` is what the two databases of a server hold about one pair of a file id and a block id.
The handlers act on it as `prepare`, `prepareQuick`, `execute` and `rollback`, and `block_handle`
says that a packet does its operation on the block it names and nothing to any other. That needs
the leveldb keys to be free of clashes, which is `blockKey_append_inj`. The protocol proofs use the
theorems of the last section and never look at keys again.
-/

namespace Slsfs.Ssbd

open LeveldbPack
open PersistentLog (putCommittedVersion getCommittedVersion getPendingPrepareVersion
  putPendingPrepare havePendingLog readVersion_snd readVersion_fst_of_put
  readVersion_putVersion_of_ne readVersion_putData getPendingPrepareData_putVersion
  getPendingPrepareData_putData getPendingPrepareData_putData_of_ne)

/-- A file id and a block id. -/
abbrev BlockId := Key × UInt32

/-- The leveldb key of a block. -/
def blockKey (id : BlockId) : Buf := id.1.toList ++ decimal id.2.toNat

/-- The block a packet is about. -/
def blockId (pack : Packet) : BlockId := (pack.header.uuid, pack.header.blockid)

theorem asString_eq (pack : Packet) : pack.header.asString = blockKey (blockId pack) := rfl

/-! ## Keys do not clash

A key in the databases is the file id as bytes, a slash, the block id in decimal, and a suffix. The
file id has a fixed length and the suffixes do not start with a digit, so a key can be taken apart
again in one way. -/

/-- A block key with a suffix that does not start with a digit determines the block and the
suffix. -/
theorem blockKey_append_inj {id id' : BlockId} {s s' : Buf} (hs : StartsOffDigit s)
    (hs' : StartsOffDigit s') (h : blockKey id ++ s = blockKey id' ++ s') : id = id' ∧ s = s' := by
  rw [blockKey, blockKey, List.append_assoc, List.append_assoc] at h
  obtain ⟨huuid, hrest⟩ := List.append_inj h (by rw [id.1.toList_length, id'.1.toList_length])
  obtain ⟨hid, hsuffix⟩ := decimal_append_inj hs hs' hrest
  exact ⟨Prod.ext (List.Vector.eq _ _ huuid) (UInt32.toNat_inj.mp hid), hsuffix⟩

theorem blockKey_injective : Function.Injective blockKey := by
  intro id id' h
  have hnil : StartsOffDigit [] := by decide
  exact (blockKey_append_inj hnil hnil (by simpa using h)).1

theorem blockKey_suffix_ne (id id' : BlockId) {s t : Buf} (hs : StartsOffDigit s)
    (ht : StartsOffDigit t) (h : s ≠ t) : blockKey id ++ s ≠ blockKey id' ++ t :=
  fun heq ↦ h (blockKey_append_inj hs ht heq).2

private theorem blockKey_block_ne {id id' : BlockId} {s : Buf} (hs : StartsOffDigit s)
    (h : id ≠ id') :
    blockKey id ++ s ≠ blockKey id' ++ s :=
  fun heq ↦ h (blockKey_append_inj hs hs heq).1

/-! ## The operations on one block

`have_pending_log` compares the pending version with the committed one and takes zero for none. A
full prepare is refused if there is a pending log; a quick one does not look. An execute makes the
pending bytes the block and the pending version the committed one, whoever has logged them, and a
rollback empties the log. -/

/-- What a server knows about one block. -/
structure Block where
  /-- The committed block, if there is one. -/
  content : Option Buf
  pendingData : Buf
  pendingVersion : UInt32
  committedVersion : UInt32
  deriving DecidableEq

namespace Block

/-- `have_pending_log`. -/
def havePending (blk : Block) : Bool :=
  !(blk.pendingVersion == blk.committedVersion || blk.pendingVersion == 0)

/-- A block that is not there becomes an empty one with an empty log. -/
def create (blk : Block) : Block :=
  match blk.content with
  | some _ => blk
  | none => ⟨some [], [], 0, 0⟩

/-- The log entry of an agreed prepare. -/
def record (blk : Block) (pack : Packet) : Block :=
  { blk with
    pendingData := Server.overlayBlock (blk.content.getD []) pack
    pendingVersion := pack.header.version }

def prepareQuick (blk : Block) (pack : Packet) : Block := blk.create.record pack

def prepare (blk : Block) (pack : Packet) : Block :=
  if blk.create.havePending then blk.create else blk.create.record pack

def execute (blk : Block) : Block :=
  { blk with content := some blk.pendingData, committedVersion := blk.pendingVersion }

def rollback (blk : Block) : Block := { blk with pendingData := [], pendingVersion := 0 }

/-- What a packet does to the block it names. -/
def handle (blk : Block) (pack : Packet) : Block :=
  match pack.header.type with
  | .twoPcPrepare => blk.prepare pack
  | .twoPcPrepareQuick => blk.prepareQuick pack
  | .twoPcCommitExecute => blk.execute
  | .twoPcCommitRollback => blk.rollback
  | _ => blk

@[simp] theorem create_content (blk : Block) : blk.create.content = some (blk.content.getD []) := by
  obtain ⟨content, _, _, _⟩ := blk
  cases content <;> rfl

/-- A block that has a pending log exists, so creating it does nothing. -/
theorem create_of_havePending {blk : Block} (h : blk.create.havePending = true) :
    blk.create = blk := by
  rw [create] at h ⊢
  split
  · rfl
  · rename_i hnone
    rw [hnone] at h
    cases h

theorem handle_prepare (blk : Block) {pack : Packet}
    (hprepare : pack.header.type = .twoPcPrepare ∨ pack.header.type = .twoPcPrepareQuick) :
    blk.handle pack = if pack.header.type = .twoPcPrepare ∧ blk.create.havePending then blk
      else blk.create.record pack := by
  rcases hprepare with htype | htype
  · simp only [handle, htype, prepare, true_and]
    split
    · exact create_of_havePending ‹_›
    · rfl
  · simp [handle, htype, prepareQuick]

end Block

namespace Server

/-- The server's view of one block. -/
def block (s : Server) (id : BlockId) : Block where
  content := s.db (blockKey id)
  pendingData := s.dbLog.getPendingPrepareData (blockKey id)
  pendingVersion := (s.dbLog.getPendingPrepareVersion (blockKey id)).1
  committedVersion := (s.dbLog.getCommittedVersion (blockKey id)).1

/-- The replica stored under `as_string() + "repl"`. -/
def replica (s : Server) (id : BlockId) : Option Buf := s.db (blockKey id ++ ascii "repl")

/-! ## The effect of each database operation on the view

What the block shows after a `put` to either database. -/

theorem block_putDb (s : Server) (id : BlockId) (value : Buf) :
    ({ s with db := s.db.put (blockKey id) value } : Server).block
      = Function.update s.block id { s.block id with content := some value } := by
  funext id'
  by_cases hid : id' = id
  · subst hid
    rw [Function.update_self]
    simp [block]
  · rw [Function.update_of_ne hid]
    simp [block, Db.put_of_ne _ _ (blockKey_injective.ne hid)]

theorem block_putReplica (s : Server) (id : BlockId) (value : Buf) :
    ({ s with db := s.db.put (blockKey id ++ ascii "repl") value } : Server).block = s.block := by
  funext id'
  have hne : blockKey id' ≠ blockKey id ++ ascii "repl" := by
    have := blockKey_suffix_ne id' id (s := []) (t := ascii "repl") (by decide) (by decide)
      (by decide)
    rwa [List.append_nil] at this
  simp [block, Db.put_of_ne _ _ hne]

private theorem committed_ne (id id' : BlockId) :
    blockKey id ≠ blockKey id' ++ ascii "-committed" := by
  have := blockKey_suffix_ne id id' (s := []) (t := ascii "-committed") (by decide) (by decide)
    (by decide)
  rwa [List.append_nil] at this

theorem block_putCommittedVersion (s : Server) (id : BlockId) (version : UInt32) :
    ({ s with dbLog := s.dbLog.putCommittedVersion (blockKey id) version } : Server).block
      = Function.update s.block id { s.block id with committedVersion := version } := by
  funext id'
  by_cases hid : id' = id
  · subst hid
    rw [Function.update_self]
    simp only [block, putCommittedVersion, getCommittedVersion, getPendingPrepareVersion,
      readVersion_fst_of_put, readVersion_putVersion_of_ne _ _ (committed_ne id' id'),
      getPendingPrepareData_putVersion]
  · have hne : blockKey id' ++ ascii "-committed" ≠ blockKey id ++ ascii "-committed" :=
      blockKey_block_ne (by decide) hid
    rw [Function.update_of_ne hid]
    simp only [block, putCommittedVersion, getCommittedVersion, getPendingPrepareVersion,
      readVersion_putVersion_of_ne _ _ hne, readVersion_putVersion_of_ne _ _ (committed_ne id' id),
      getPendingPrepareData_putVersion]

theorem block_putPendingPrepare (s : Server) (id : BlockId) (value : Buf) (version : UInt32) :
    ({ s with dbLog := s.dbLog.putPendingPrepare (blockKey id) value version } : Server).block
      = Function.update s.block id
          { s.block id with pendingData := value, pendingVersion := version } := by
  funext id'
  by_cases hid : id' = id
  · subst hid
    rw [Function.update_self]
    simp only [block, putPendingPrepare, getCommittedVersion, getPendingPrepareVersion,
      getPendingPrepareData_putData, readVersion_putData, readVersion_fst_of_put,
      readVersion_putVersion_of_ne _ _ (committed_ne id' id').symm]
  · rw [Function.update_of_ne hid]
    simp only [block, putPendingPrepare, getCommittedVersion, getPendingPrepareVersion,
      getPendingPrepareData_putData_of_ne _ _ (blockKey_injective.ne hid),
      getPendingPrepareData_putVersion, readVersion_putData,
      readVersion_putVersion_of_ne _ _ (blockKey_injective.ne hid),
      readVersion_putVersion_of_ne _ _ (committed_ne id id').symm]

/-! ## The effect of each handler on the view

The handlers are put together from these operations. `block_handle` is the result: the block that
the packet names goes through `Block.handle`, and each other block is what it was. -/

theorem havePendingLog_fst (s : Server) (id : BlockId) :
    (s.dbLog.havePendingLog (blockKey id)).1 = (s.block id).havePending := by
  simp only [havePendingLog, getPendingPrepareVersion, getCommittedVersion, readVersion_snd,
    Block.havePending, block]
  split <;> simp_all

theorem havePendingLog_snd (s : Server) (id : BlockId) :
    (s.dbLog.havePendingLog (blockKey id)).2 = s.dbLog := by
  simp only [havePendingLog, getPendingPrepareVersion, getCommittedVersion, readVersion_snd]
  split <;> rfl

theorem block_bindOrCreate (s : Server) (id : BlockId) :
    (s.bindOrCreate (blockKey id)).block = Function.update s.block id (s.block id).create := by
  have hcontent : (s.block id).content = s.db (blockKey id) := rfl
  rw [bindOrCreate]
  cases hdb : s.db (blockKey id) with
  | some value =>
    rw [Block.create, hcontent, hdb, Function.update_eq_self]
  | none =>
    have hpending := block_putPendingPrepare
      ⟨s.db, s.dbLog.putCommittedVersion (blockKey id) 0⟩ id [] 0
    have hput := block_putDb
      ⟨s.db, (s.dbLog.putCommittedVersion (blockKey id) 0).putPendingPrepare (blockKey id) [] 0⟩
      id []
    rw [hpending, block_putCommittedVersion] at hput
    simp only [Function.update_idem, Function.update_self] at hput
    rw [Block.create, hcontent, hdb]
    exact hput

theorem bindOrCreate_db (s : Server) (id : BlockId) :
    (s.bindOrCreate (blockKey id)).db (blockKey id) = some ((s.db (blockKey id)).getD []) := by
  rw [bindOrCreate]
  cases hdb : s.db (blockKey id) with
  | some value => simpa using hdb
  | none => simp

private theorem bindOrCreate_block (s : Server) (pack : Packet) :
    (s.bindOrCreate pack.header.asString).block (blockId pack)
      = (s.block (blockId pack)).create := by
  rw [asString_eq, block_bindOrCreate, Function.update_self]

/-- The server after a prepare it has agreed to. -/
def recorded (s : Server) (pack : Packet) : Server :=
  let s' := s.bindOrCreate pack.header.asString
  let newBlock := overlayBlock ((s.block (blockId pack)).content.getD []) pack
  ⟨s'.db, s'.dbLog.putPendingPrepare pack.header.asString newBlock pack.header.version⟩

/-- The full prepare with the two reads of the log resolved: it aborts exactly if the block, once
created, has a pending log. -/
theorem startTwoPcPrepare_eq (s : Server) (pack : Packet) :
    s.startTwoPcPrepare pack =
      if (s.block (blockId pack)).create.havePending then
        (s.bindOrCreate pack.header.asString, respond pack .twoPcPrepareAbort)
      else (s.recorded pack, respond pack .twoPcPrepareAgree) := by
  have hpending := havePendingLog_fst (s.bindOrCreate pack.header.asString) (blockId pack)
  have hlog := havePendingLog_snd (s.bindOrCreate pack.header.asString) (blockId pack)
  rw [bindOrCreate_block] at hpending
  have hdb := bindOrCreate_db s (blockId pack)
  rw [← asString_eq] at hpending hlog hdb
  simp only [startTwoPcPrepare, hdb, hpending, hlog, getCommittedVersion, readVersion_snd]
  rfl

theorem startTwoPcPrepareQuick_eq (s : Server) (pack : Packet) :
    s.startTwoPcPrepareQuick pack = (s.recorded pack, respond pack .twoPcPrepareAgree) := by
  have hdb := bindOrCreate_db s (blockId pack)
  rw [← asString_eq] at hdb
  simp only [startTwoPcPrepareQuick, hdb, getCommittedVersion, readVersion_snd]
  rfl

private theorem block_recorded (s : Server) (pack : Packet) :
    (s.recorded pack).block
      = Function.update s.block (blockId pack) ((s.block (blockId pack)).create.record pack) := by
  have hput := block_putPendingPrepare (s.bindOrCreate pack.header.asString) (blockId pack)
    (overlayBlock ((s.block (blockId pack)).content.getD []) pack) pack.header.version
  rw [asString_eq, block_bindOrCreate] at hput
  rw [recorded, asString_eq, hput]
  simp only [Function.update_idem, Function.update_self, Block.record, Block.create_content,
    Option.getD_some]

/-- **The handlers refine the operations on one block.** A packet does its operation on the block
it names and leaves every other block alone. -/
theorem block_handle (stray : ℕ → UInt8) (s : Server) (pack : Packet) :
    (s.handle stray pack).1.block
      = Function.update s.block (blockId pack) ((s.block (blockId pack)).handle pack) := by
  cases htype : pack.header.type with
  | twoPcPrepare =>
    simp only [handle, Block.handle, htype, Block.prepare, startTwoPcPrepare_eq]
    split
    · rw [asString_eq, block_bindOrCreate]
    · exact block_recorded s pack
  | twoPcPrepareQuick =>
    simp only [handle, Block.handle, htype, Block.prepareQuick, startTwoPcPrepareQuick_eq]
    exact block_recorded s pack
  | twoPcCommitExecute =>
    simp only [handle, Block.handle, htype, startTwoPcCommitExecute,
      PersistentLog.commitPendingPrepare, getPendingPrepareVersion, readVersion_snd, asString_eq]
    have hput := block_putDb ⟨s.db, s.dbLog.putCommittedVersion (blockKey (blockId pack))
      (s.dbLog.getPendingPrepareVersion (blockKey (blockId pack))).1⟩ (blockId pack)
      (s.dbLog.getPendingPrepareData (blockKey (blockId pack)))
    rw [block_putCommittedVersion] at hput
    simp only [Function.update_idem, Function.update_self] at hput
    exact hput
  | twoPcCommitRollback =>
    simp only [handle, Block.handle, htype, startTwoPcCommitRollback, asString_eq]
    exact block_putPendingPrepare s (blockId pack) [] 0
  | replication =>
    simp only [handle, Block.handle, htype, startReplication, replicaKey, asString_eq,
      Function.update_eq_self]
    exact block_putReplica s (blockId pack) _
  | err | ack | get | twoPcPrepareAgree | twoPcPrepareAbort | twoPcCommitAck =>
    simp only [handle, Block.handle, htype, Function.update_eq_self]

/-- The vote of a server: a full prepare is refused exactly if the block has a pending log. -/
theorem handle_vote (stray : ℕ → UInt8) (s : Server) (pack : Packet)
    (htype : pack.header.type = .twoPcPrepare ∨ pack.header.type = .twoPcPrepareQuick) :
    (s.handle stray pack).2 = respond pack
      (if pack.header.type = .twoPcPrepare ∧ (s.block (blockId pack)).create.havePending
        then .twoPcPrepareAbort else .twoPcPrepareAgree) := by
  rcases htype with htype | htype
  · simp only [handle, htype, startTwoPcPrepare_eq, true_and]
    split <;> rfl
  · simp only [handle, htype, startTwoPcPrepareQuick_eq]
    simp

theorem handle_commit (stray : ℕ → UInt8) (s : Server) (pack : Packet)
    (htype : pack.header.type = .twoPcCommitExecute ∨ pack.header.type = .twoPcCommitRollback) :
    (s.handle stray pack).2 = respond pack .twoPcCommitAck := by
  rcases htype with htype | htype <;> simp only [handle, htype] <;> rfl

theorem handle_get (stray : ℕ → UInt8) (s : Server) (pack : Packet)
    (htype : pack.header.type = .get) :
    s.handle stray pack = (s, s.startDbRead stray pack) := by
  simp only [handle, htype]

/-! ## Replicas -/

private theorem replica_put (db : Db) (log log' : PersistentLog) (id : BlockId) (value : Buf) :
    (⟨db.put (blockKey id) value, log⟩ : Server).replica = (⟨db, log'⟩ : Server).replica := by
  funext id'
  have hne : blockKey id' ++ ascii "repl" ≠ blockKey id := by
    have := blockKey_suffix_ne id' id (s := ascii "repl") (t := []) (by decide) (by decide)
      (by decide)
    rwa [List.append_nil] at this
  exact Db.put_of_ne _ _ hne

private theorem replica_bindOrCreate (s : Server) (pack : Packet) :
    (s.bindOrCreate pack.header.asString).replica = s.replica := by
  rw [asString_eq, bindOrCreate]
  split
  · rfl
  · exact replica_put s.db _ s.dbLog (blockId pack) []

/-- A replication message overlays the replica of the block it names; no other message and no other
replica is involved. -/
theorem replica_handle (stray : ℕ → UInt8) (s : Server) (pack : Packet) :
    (s.handle stray pack).1.replica =
      if pack.header.type = .replication then
        Function.update s.replica (blockId pack)
          (some (overlayBlock ((s.replica (blockId pack)).getD []) pack))
      else s.replica := by
  cases htype : pack.header.type with
  | twoPcPrepare =>
    simp only [handle, htype, startTwoPcPrepare_eq]
    split <;> exact replica_bindOrCreate s pack
  | twoPcPrepareQuick =>
    simp only [handle, htype, startTwoPcPrepareQuick_eq]
    exact replica_bindOrCreate s pack
  | twoPcCommitExecute =>
    simp only [handle, htype, startTwoPcCommitExecute, PersistentLog.commitPendingPrepare]
    exact replica_put s.db _ s.dbLog (blockId pack) _
  | replication =>
    simp only [handle, htype, startReplication, replicaKey, asString_eq, if_true]
    funext id'
    by_cases hid : id' = blockId pack
    · subst hid
      rw [Function.update_self]
      exact Db.put_self _ _ _
    · rw [Function.update_of_ne hid]
      exact Db.put_of_ne _ _ (blockKey_block_ne (by decide) hid)
  | twoPcCommitRollback | err | ack | get | twoPcPrepareAgree | twoPcPrepareAbort
  | twoPcCommitAck =>
    simp only [handle, htype]
    rfl

end Server

end Slsfs.Ssbd

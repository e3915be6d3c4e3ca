import Slsfs.Ssbd.Interleaving

/-!
# Crashes of an ssbd server

A server process that dies leaves its two leveldb databases with some of the `Put`s of the handler
it was in; nothing joins them into one. The databases themselves are taken to keep what was put.
`Stops` are the servers that can be found afterwards, and `block_stops` lists what they hold about
the block of the packet: these are the states `Block.cuts`, and nothing else has changed.

The consequences are about restarts. `committed_survives`: over any run with any number of crashes
a block is changed by nothing but the execution of a commit. `retry_after_stop`: it is safe to send
the interrupted message again, unless it was a full prepare that has put its version, which is
refused from then on. `commit_cut`: a commit puts its version before its block, and a crash between
the two gives the prepared data up.

A handler is a program of `Get`s and `Put`s (`Access`). To be cut off is to have made some of its
accesses, in their order; `StopsAt` says what the databases hold then, and composes along a program.
-/

namespace Slsfs.Ssbd

open LeveldbPack
open PersistentLog (readVersion_snd readVersion_fst_of_put readVersion_putVersion_of_ne
  getPendingPrepareData_putVersion)

namespace Access

variable {ρ σ : Type}

/-! ## Programs that are cut off

`StopsAt` says of a program and a server that a pair of databases is one of those that the program
can leave when it is cut off. A read leaves them as they are; a write has been made or not. -/

/-- The part of a handler can be cut off with the databases of the second server. -/
def StopsAt (p : Access ρ) (s s' : Server) : Prop := s'.cells ∈ p.stores s.cells

private theorem cells_injective : Function.Injective Server.cells := by
  rintro ⟨db, ⟨log, hlog⟩⟩ ⟨db', ⟨log', hlog'⟩⟩ h
  obtain rfl : db = db' := funext fun key ↦ congrFun h (.db key)
  obtain rfl : log = log' := funext fun key ↦ congrFun h (.dbLog key)
  rfl

variable {s s' : Server}

private theorem stopsAt_done (result : ρ) : StopsAt (.done result) s s' ↔ s' = s := by
  rw [StopsAt, Program.stores, List.mem_singleton, cells_injective.eq_iff]

private theorem stopsAt_bind {p : Access ρ} {f : ρ → Access σ} {result : ρ} {t : Server}
    (hrun : p.run s.cells = (result, t.cells)) :
    StopsAt (p >>= f) s s' ↔ StopsAt p s s' ∨ StopsAt (f result) t s' := by
  rw [StopsAt, Program.mem_stores_bind, hrun]
  rfl

private theorem stopsAt_put {c : Cell} {value : Option Buf} {t : Server}
    (hrun : (Program.put c value (.done ()) : Access Unit).run s.cells = ((), t.cells)) :
    StopsAt (.put c value (.done ()) : Access Unit) s s' ↔ s' = s ∨ s' = t := by
  have hput : Function.update s.cells c value = t.cells := congrArg Prod.snd hrun
  rw [StopsAt, Program.stores, Program.stores, hput, List.mem_cons, List.mem_singleton,
    cells_injective.eq_iff, cells_injective.eq_iff]

private theorem stopsAt_dbGet {key : Buf} : StopsAt (dbGet key) s s' ↔ s' = s :=
  stopsAt_done (s.db key)

private theorem stopsAt_getPendingPrepareData {key : Buf} :
    StopsAt (getPendingPrepareData key) s s' ↔ s' = s :=
  stopsAt_done (s.dbLog.getPendingPrepareData key)

private theorem stopsAt_readVersion {key : Buf} : StopsAt (readVersion key) s s' ↔ s' = s := by
  have hcell : s.cells (.dbLog (key ++ ascii "-version"))
      = s.dbLog.db (key ++ ascii "-version") := rfl
  rw [StopsAt, readVersion, Program.stores, hcell]
  cases hdb : s.dbLog.db (key ++ ascii "-version") with
  | none => exact stopsAt_done (0 : UInt32)
  | some value =>
    rcases s.dbLog.versions key value hdb with rfl | ⟨version, rfl⟩
    · exact stopsAt_done (0 : UInt32)
    · have hlt : version.toNat < 2 ^ 63 := by have := version.toNat_lt; omega
      simp only [Option.getD_some, decimal_ne_nil, if_false, stoll_decimal hlt]
      exact stopsAt_done _

private theorem stopsAt_putVersion {key : Buf} {version : UInt32} :
    StopsAt (putVersion key version) s s' ↔
      s' = s ∨ s' = { s with dbLog := s.dbLog.putVersion key version } :=
  stopsAt_put (run_putVersion ..)

private theorem stopsAt_putPendingPrepare {key value : Buf} {version : UInt32} :
    StopsAt (putPendingPrepare key value version) s s' ↔
      s' = s ∨ s' = { s with dbLog := s.dbLog.putVersion key version } ∨
        s' = { s with dbLog := s.dbLog.putPendingPrepare key value version } := by
  rw [putPendingPrepare, stopsAt_bind (run_putVersion ..), stopsAt_putVersion, putData,
    stopsAt_put (run_putData ..)]
  constructor
  · rintro ((h | h) | h | h)
    · exact .inl h
    · exact .inr (.inl h)
    · exact .inr (.inl h)
    · exact .inr (.inr h)
  · rintro (h | h | h)
    · exact .inl (.inl h)
    · exact .inl (.inr h)
    · exact .inr (.inr h)

end Access

/-! ## The block of the packet after a crash

`Shows` says that a part of a handler, cut off anywhere, leaves the block as one of a list of
blocks. A part that puts nothing leaves it as it is, two parts in a row leave it as one of either
list, and so the list for a whole handler is put together from those of its parts. `cuts` is that
list for each type of message. -/

namespace Block

/-- A block of which only the version of a prepare was put. -/
def versioned (blk : Block) (pack : Packet) : Block :=
  { blk with pendingVersion := pack.header.version }

/-- A block of which only the version of a commit was put. -/
def halfCommitted (blk : Block) : Block := { blk with committedVersion := blk.pendingVersion }

/-- What a block can be found as after a crash at its creation. -/
def createCuts (blk : Block) : List Block :=
  match blk.content with
  | some _ => [blk]
  | none =>
    [blk, { blk with content := some [] }, { blk with content := some [], committedVersion := 0 },
      { blk with content := some [], committedVersion := 0, pendingVersion := 0 }, blk.create]

/-- What a block can be found as after a crash at an agreed prepare. -/
def recordCuts (blk : Block) (pack : Packet) : List Block :=
  [blk, blk.versioned pack, blk.record pack]

/-- What the block of a packet can be found as after a crash while the packet is handled. -/
def cuts (blk : Block) (pack : Packet) : List Block :=
  match pack.header.type with
  | .twoPcPrepare =>
    blk.createCuts ++ if blk.create.havePending then [blk.create] else blk.create.recordCuts pack
  | .twoPcPrepareQuick => blk.createCuts ++ blk.create.recordCuts pack
  | .twoPcCommitExecute => [blk, blk.halfCommitted, blk.execute]
  | .twoPcCommitRollback => [blk, { blk with pendingVersion := 0 }, blk.rollback]
  | .replication | .get | .err | .ack | .twoPcCommitAck | .twoPcPrepareAgree
  | .twoPcPrepareAbort => [blk]

end Block

namespace Server

private theorem block_putVersion (s : Server) (id : BlockId) (version : UInt32) :
    ({ s with dbLog := s.dbLog.putVersion (blockKey id) version } : Server).block
      = Function.update s.block id { s.block id with pendingVersion := version } := by
  have hcommitted : ∀ id' : BlockId, blockKey id' ++ ascii "-committed" ≠ blockKey id := by
    intro id'
    have hne := blockKey_suffix_ne id' id (s := ascii "-committed") (t := []) (by decide)
      (by decide) (by decide)
    rwa [List.append_nil] at hne
  funext id'
  by_cases hid : id' = id
  · subst hid
    rw [Function.update_self]
    simp only [block, PersistentLog.getCommittedVersion, PersistentLog.getPendingPrepareVersion,
      readVersion_fst_of_put, readVersion_putVersion_of_ne _ _ (hcommitted id'),
      getPendingPrepareData_putVersion]
  · rw [Function.update_of_ne hid]
    simp only [block, PersistentLog.getCommittedVersion, PersistentLog.getPendingPrepareVersion,
      readVersion_putVersion_of_ne _ _ (hcommitted id'),
      readVersion_putVersion_of_ne _ _ (blockKey_injective.ne hid),
      getPendingPrepareData_putVersion]

end Server

namespace Access

variable {ρ σ : Type}

/-- The block can be found as one of `cuts`, and the other blocks as they were. -/
def Shows (p : Access ρ) (s : Server) (id : BlockId) (cuts : List Block) : Prop :=
  ∀ blocks, (∃ s', StopsAt p s s' ∧ s'.block = blocks) ↔
    ∃ blk ∈ cuts, blocks = Function.update s.block id blk

variable {s : Server} {id : BlockId}

private theorem shows_self {p : Access ρ} (h : ∀ s', StopsAt p s s' ↔ s' = s) :
    Shows p s id [s.block id] := by
  intro blocks
  simp [h, eq_comm]

private theorem shows_bind {p : Access ρ} {f : ρ → Access σ} {result : ρ} {t : Server}
    {cuts cuts' : List Block} {blk : Block} (hrun : p.run s.cells = (result, t.cells))
    (hblock : t.block = Function.update s.block id blk) (hp : Shows p s id cuts)
    (hf : Shows (f result) t id cuts') : Shows (p >>= f) s id (cuts ++ cuts') := by
  intro blocks
  have hrest := hf blocks
  rw [hblock] at hrest
  simp only [Function.update_idem] at hrest
  simp only [stopsAt_bind hrun, or_and_right, exists_or, List.mem_append, ← hp blocks, ← hrest]

private theorem shows_bind_self {p : Access ρ} {f : ρ → Access σ} {result : ρ} {cuts : List Block}
    (hrun : p.run s.cells = (result, s.cells)) (hp : ∀ s', StopsAt p s s' ↔ s' = s)
    (hf : Shows (f result) s id cuts) : Shows (p >>= f) s id cuts := by
  intro blocks
  rw [← hf blocks]
  have hstart : StopsAt (f result) s s := Program.start_mem_stores _ _
  constructor
  · rintro ⟨s', h, hblocks⟩
    rcases (stopsAt_bind hrun).mp h with h | h
    · exact ⟨s, hstart, (hp s').mp h ▸ hblocks⟩
    · exact ⟨s', h, hblocks⟩
  · rintro ⟨s', h, hblocks⟩
    exact ⟨s', (stopsAt_bind hrun).mpr (.inr h), hblocks⟩

private theorem shows_bind_last {p : Access ρ} {f : ρ → Access σ} {result : ρ} {t : Server}
    {cuts : List Block} (hrun : p.run s.cells = (result, t.cells)) (hp : Shows p s id cuts)
    (hf : ∀ s', StopsAt (f result) t s' ↔ s' = t) : Shows (p >>= f) s id cuts := by
  intro blocks
  rw [← hp blocks]
  constructor
  · rintro ⟨s', h, hblocks⟩
    rcases (stopsAt_bind hrun).mp h with h | h
    · exact ⟨s', h, hblocks⟩
    · refine ⟨t, ?_, (hf s').mp h ▸ hblocks⟩
      have hend := Program.end_mem_stores p s.cells
      rwa [hrun] at hend
  · rintro ⟨s', h, hblocks⟩
    exact ⟨s', (stopsAt_bind hrun).mpr (.inl h), hblocks⟩

private theorem shows_congr {p : Access ρ} {cuts cuts' : List Block} (hp : Shows p s id cuts)
    (h : ∀ blk, blk ∈ cuts ↔ blk ∈ cuts') : Shows p s id cuts' := by
  intro blocks
  simp only [hp blocks, h]

private theorem shows_put {p : Access ρ} {t : Server} {blk : Block}
    (hp : ∀ s', StopsAt p s s' ↔ s' = s ∨ s' = t)
    (hblock : t.block = Function.update s.block id blk) : Shows p s id [s.block id, blk] := by
  intro blocks
  simp [hp, or_and_right, exists_or, hblock, eq_comm]

private theorem stopsAt_dbPut {key value : Buf} {s' : Server} :
    StopsAt (dbPut key value) s s' ↔ s' = s ∨ s' = { s with db := s.db.put key value } :=
  stopsAt_put (run_dbPut ..)

private theorem shows_putPendingPrepare (value : Buf) (version : UInt32) :
    Shows (putPendingPrepare (blockKey id) value version) s id
      [s.block id, { s.block id with pendingVersion := version },
        { s.block id with pendingData := value, pendingVersion := version }] := by
  intro blocks
  simp [stopsAt_putPendingPrepare, or_and_right, exists_or, Server.block_putVersion,
    Server.block_putPendingPrepare, eq_comm]

private theorem shows_bindOrCreate :
    Shows (bindOrCreate (blockKey id)) s id (s.block id).createCuts := by
  have hcontent : (s.block id).content = s.db (blockKey id) := rfl
  rw [bindOrCreate]
  refine shows_bind_self (run_dbGet ..) (fun _ ↦ stopsAt_dbGet) ?_
  rw [Block.createCuts, Block.create, hcontent]
  cases hdb : s.db (blockKey id) with
  | some value => exact shows_self fun _ ↦ stopsAt_done _
  | none =>
    have hput := Server.block_putDb s id []
    have hcommitted := Server.block_putCommittedVersion
      { s with db := s.db.put (blockKey id) [] } id 0
    refine shows_congr (shows_bind (run_dbPut ..) hput (shows_put (fun _ ↦ stopsAt_dbPut) hput)
      (shows_bind (run_putCommittedVersion ..) hcommitted
        (shows_put (fun _ ↦ stopsAt_putVersion) hcommitted) (shows_putPendingPrepare [] 0))) ?_
    intro blk
    simp only [hcommitted, hput, Function.update_self, List.cons_append, List.nil_append,
      List.mem_cons, List.not_mem_nil, or_false]
    constructor <;> (intro h; tauto)

private theorem stopsAt_havePendingLog {key : Buf} {s' : Server} :
    StopsAt (havePendingLog key) s s' ↔ s' = s := by
  have hpending : ∀ key, (getPendingPrepareVersion key).run s.cells
      = ((s.dbLog.getPendingPrepareVersion key).1, s.cells) := fun key ↦ by
    rw [run_getPendingPrepareVersion, PersistentLog.getPendingPrepareVersion, readVersion_snd]
  have hcommitted : (getCommittedVersion key).run s.cells
      = ((s.dbLog.getCommittedVersion key).1, s.cells) := by
    rw [run_getCommittedVersion, PersistentLog.getCommittedVersion, readVersion_snd]
  rw [havePendingLog, stopsAt_bind (hpending key), getPendingPrepareVersion,
    stopsAt_readVersion, stopsAt_bind hcommitted, getCommittedVersion, stopsAt_readVersion]
  have hrest : StopsAt (if (s.dbLog.getPendingPrepareVersion key).1 ==
      (s.dbLog.getCommittedVersion key).1 then pure false
      else getPendingPrepareVersion key >>= fun pending ↦ pure !(pending == 0)) s s'
      ↔ s' = s := by
    split
    · exact stopsAt_done _
    · rw [stopsAt_bind (hpending key), getPendingPrepareVersion, stopsAt_readVersion,
        Program.pure_eq_done, stopsAt_done, or_self]
  exact (or_congr_right (or_congr_right hrest)).trans (by rw [or_self, or_self])

private theorem run_commitPendingPrepare (key : Buf) : (commitPendingPrepare key).run s.cells
    = ((), { db := (s.dbLog.commitPendingPrepare key s.db).2
             dbLog := (s.dbLog.commitPendingPrepare key s.db).1 : Server }.cells) := by
  simp [commitPendingPrepare, PersistentLog.commitPendingPrepare, Program.run_bind]

private theorem shows_commitPendingPrepare : Shows (commitPendingPrepare (blockKey id)) s id
    [s.block id, (s.block id).halfCommitted, (s.block id).execute] := by
  have hversion : (getPendingPrepareVersion (blockKey id)).run s.cells
      = ((s.block id).pendingVersion, s.cells) := by
    rw [run_getPendingPrepareVersion, PersistentLog.getPendingPrepareVersion, readVersion_snd]
    rfl
  have hcommitted := Server.block_putCommittedVersion s id (s.block id).pendingVersion
  have hput := Server.block_putDb
    ⟨s.db, s.dbLog.putCommittedVersion (blockKey id) (s.block id).pendingVersion⟩ id
    (s.block id).pendingData
  refine shows_bind_self (run_getPendingPrepareData ..) (fun _ ↦ stopsAt_getPendingPrepareData) ?_
  refine shows_bind_self hversion (fun _ ↦ stopsAt_readVersion) ?_
  refine shows_congr (shows_bind (run_putCommittedVersion ..) hcommitted
    (shows_put (fun _ ↦ stopsAt_putVersion) hcommitted)
    (shows_put (fun _ ↦ stopsAt_dbPut) hput)) fun blk ↦ ?_
  rw [hcommitted, Function.update_self, Block.halfCommitted, Block.execute]
  simp only [List.cons_append, List.nil_append, List.mem_cons, List.not_mem_nil, or_false]
  tauto

private theorem stopsAt_dbRead (stray : ℕ → UInt8) (pack : Packet) {s' : Server} :
    StopsAt (startDbRead stray pack) s s' ↔ s' = s := by
  rw [startDbRead, stopsAt_bind (run_dbGet ..), stopsAt_dbGet, Program.pure_eq_done, stopsAt_done,
    or_self]

private theorem stopsAt_reply {key : Buf} {reply : Packet} {s' : Server} :
    StopsAt (getCommittedVersion key >>= fun _ ↦ pure reply) s s' ↔ s' = s := by
  have hrun : (getCommittedVersion key).run s.cells
      = ((s.dbLog.getCommittedVersion key).1, s.cells) := by
    rw [run_getCommittedVersion, PersistentLog.getCommittedVersion, readVersion_snd]
  rw [stopsAt_bind hrun, getCommittedVersion, stopsAt_readVersion, Program.pure_eq_done,
    stopsAt_done, or_self]

/-- What a prepare that has been agreed to still does. -/
theorem shows_record {key : Buf} (pack : Packet) {content : Buf}
    (hkey : key = blockKey id) (hcontent : (s.block id).content = some content) :
    Shows (do
      putPendingPrepare key (Server.overlayBlock content pack) pack.header.version
      let _ ← getCommittedVersion key
      pure (Server.respond pack .twoPcPrepareAgree) : Access Packet) s id
      ((s.block id).recordCuts pack) := by
  subst hkey
  obtain rfl : content = (s.block id).content.getD [] := by rw [hcontent, Option.getD_some]
  exact shows_bind_last (run_putPendingPrepare ..) (shows_putPendingPrepare _ _)
    fun _ ↦ stopsAt_reply

/-- **What a crash leaves of a block.** The block of a packet is found as one of the blocks that
`cuts` lists, it can be found as each of them, and every other block is as it was. -/
theorem shows_handle (stray : ℕ → UInt8) (s : Server) (pack : Packet) :
    Shows (handle stray pack) s (blockId pack) ((s.block (blockId pack)).cuts pack) := by
  have hcreated : (s.bindOrCreate (blockKey (blockId pack))).block
      = Function.update s.block (blockId pack) (s.block (blockId pack)).create :=
    Server.block_bindOrCreate s (blockId pack)
  have hdb := Server.bindOrCreate_db s (blockId pack)
  have hcontent : ((s.bindOrCreate (blockKey (blockId pack))).block (blockId pack)).content
      = some ((s.db (blockKey (blockId pack))).getD []) := hdb
  have hblock : (s.bindOrCreate (blockKey (blockId pack))).block (blockId pack)
      = (s.block (blockId pack)).create := by
    rw [hcreated, Function.update_self]
  cases htype : pack.header.type with
  | twoPcPrepare =>
    simp only [handle, Block.cuts, htype, startTwoPcPrepare, asString_eq]
    refine shows_bind (run_bindOrCreate ..) hcreated shows_bindOrCreate ?_
    refine shows_bind_self (run_dbGet ..) (fun _ ↦ stopsAt_dbGet) ?_
    rw [hdb]
    have hhave := run_havePendingLog (s.bindOrCreate (blockKey (blockId pack)))
      (blockKey (blockId pack))
    rw [Server.havePendingLog_snd, Server.havePendingLog_fst, hblock] at hhave
    refine shows_bind_self hhave (fun _ ↦ stopsAt_havePendingLog) ?_
    split
    · have hself : Shows (getCommittedVersion (blockKey (blockId pack)) >>= fun _ ↦
          pure (Server.respond pack .twoPcPrepareAbort) : Access Packet)
          (s.bindOrCreate (blockKey (blockId pack))) (blockId pack) _ :=
        shows_self fun _ ↦ stopsAt_reply
      rwa [hblock] at hself
    · have hrecord := shows_record pack rfl hcontent
      rwa [hblock] at hrecord
  | twoPcPrepareQuick =>
    simp only [handle, Block.cuts, htype, startTwoPcPrepareQuick, asString_eq]
    refine shows_bind (run_bindOrCreate ..) hcreated shows_bindOrCreate ?_
    refine shows_bind_self (run_dbGet ..) (fun _ ↦ stopsAt_dbGet) ?_
    rw [hdb, ← hblock]
    exact shows_record pack rfl hcontent
  | twoPcCommitExecute =>
    simp only [handle, Block.cuts, htype, startTwoPcCommitExecute, commitPendingPrepare,
      asString_eq]
    refine shows_bind_last (run_commitPendingPrepare ..) ?_ fun _ ↦ stopsAt_done _
    exact shows_commitPendingPrepare
  | twoPcCommitRollback =>
    simp only [handle, Block.cuts, htype, startTwoPcCommitRollback, asString_eq]
    exact shows_bind_last (run_putPendingPrepare ..) (shows_putPendingPrepare [] 0)
      fun _ ↦ stopsAt_done _
  | replication =>
    simp only [handle, Block.cuts, htype, startReplication, Server.replicaKey, asString_eq]
    refine shows_bind_self (run_dbGet ..) (fun _ ↦ stopsAt_dbGet) ?_
    refine shows_bind_last (run_dbPut ..) ?_ fun _ ↦ stopsAt_done _
    have hreplica := Server.block_putReplica s (blockId pack)
      (Server.overlayBlock ((s.db (blockKey (blockId pack) ++ ascii "repl")).getD []) pack)
    have hput := shows_put (fun _ ↦ stopsAt_dbPut)
      (hreplica.trans (Function.update_eq_self (blockId pack) s.block).symm)
    exact shows_congr hput (by simp)
  | get =>
    simp only [handle, Block.cuts, htype, startDbRead, asString_eq]
    exact shows_bind_self (run_dbGet ..) (fun _ ↦ stopsAt_dbGet) (shows_self fun _ ↦ stopsAt_done _)
  | err | ack | twoPcCommitAck | twoPcPrepareAgree | twoPcPrepareAbort =>
    simp only [handle, Block.cuts, htype]
    exact shows_self fun _ ↦ stopsAt_done _

end Access

namespace Server

/-! ## A crash

Nothing but the block of the packet and its replica can have changed, and the replica is one
`Put`. -/

/-- A crash changes a replica as a whole or not at all. -/
theorem replica_stops (stray : ℕ → UInt8) {s s' : Server} {pack : Packet}
    (hstop : Access.StopsAt (Access.handle stray pack) s s') :
    s'.replica = s.replica ∨ s'.replica = (s.handle stray pack).1.replica := by
  by_cases htype : pack.header.type = .replication
  · have hrun : (Access.dbGet (replicaKey pack.header)).run s.cells
        = (s.db (replicaKey pack.header), s.cells) := Access.run_dbGet ..
    simp only [Access.handle, htype, Access.startReplication] at hstop
    rw [Access.stopsAt_bind hrun, Access.stopsAt_dbGet, Access.stopsAt_bind (Access.run_dbPut ..),
      Access.stopsAt_dbPut, Program.pure_eq_done, Access.stopsAt_done] at hstop
    have hhandle : (s.handle stray pack).1 = { s with
        db := s.db.put (replicaKey pack.header)
          (overlayBlock ((s.db (replicaKey pack.header)).getD []) pack) } := by
      simp only [handle, htype]
      rfl
    rcases hstop with h | (h | h) | h
    · exact .inl (congrArg replica h)
    · exact .inl (congrArg replica h)
    · exact .inr (congrArg replica (h.trans hhandle.symm))
    · exact .inr (congrArg replica (h.trans hhandle.symm))
  · refine .inl (funext fun id ↦ ?_)
    have hnot : Access.cell id .replica
        ∉ Access.cellsOf (blockId pack) (Access.writes pack.header.type) := by
      rintro ⟨purpose, hpurpose, hcell⟩
      obtain ⟨-, rfl⟩ := Access.cell_inj hcell
      revert hpurpose htype
      cases pack.header.type <;> decide
    exact Program.stores_of_notMem (Access.within_handle stray pack) hstop hnot

private theorem stops_cuts (stray : ℕ → UInt8) {s : Server} {pack : Packet}
    {store : Cell → Option Buf}
    (hstore : store ∈ (Access.handle stray pack).stores s.cells) : ∃ s' : Server, store = s'.cells ∧
      (∃ blk ∈ (s.block (blockId pack)).cuts pack,
        s'.block = Function.update s.block (blockId pack) blk) ∧
      (s'.replica = s.replica ∨ s'.replica = (s.handle stray pack).1.replica) := by
  obtain ⟨s', rfl⟩ := Access.exists_cells (Program.invariant_stores
    (Access.versionText_handle stray pack) (Access.versionText_cells s) hstore)
  exact ⟨s', rfl, (Access.shows_handle stray s pack _).mp ⟨s', hstore, rfl⟩,
    replica_stops stray hstore⟩

/-- **What a crash leaves.** The databases are those of a server. The block of the packet is found
as one of its `cuts`, and can be found as each of them; no other block has changed, and the replicas
are those before or after the packet. -/
theorem crash_cuts (stray : ℕ → UInt8) (s : Server) (pack : Packet) :
    (∀ store ∈ (Access.handle stray pack).stores s.cells, ∃ s' : Server, store = s'.cells ∧
      (∃ blk ∈ (s.block (blockId pack)).cuts pack,
        s'.block = Function.update s.block (blockId pack) blk) ∧
      (s'.replica = s.replica ∨ s'.replica = (s.handle stray pack).1.replica)) ∧
    ∀ blk ∈ (s.block (blockId pack)).cuts pack, ∃ s' : Server,
      s'.cells ∈ (Access.handle stray pack).stores s.cells ∧
        s'.block = Function.update s.block (blockId pack) blk :=
  ⟨fun _ hstore ↦ stops_cuts stray hstore, fun blk hblk ↦
    (Access.shows_handle stray s pack _).mpr ⟨blk, hblk, rfl⟩⟩

/-! ## Runs with crashes

A run is a list of packets, each handled to its end or cut off somewhere by a crash, with a restart
before the next one. A server that started with empty databases is `Fresh` all along: a block that
does not exist has no versions. -/

/-- A packet that is handled, or at one of whose `Put`s the server dies and is started again. -/
def restartStep (stray : ℕ → UInt8) (store : Cell → Option Buf) (e : Packet × Option ℕ) :
    Option (Cell → Option Buf) :=
  match e.2 with
  | none => some ((Access.handle stray e.1).run store).2
  | some n => ((Access.handle stray e.1).stores store)[n]?

private theorem restartStep_cuts {stray : ℕ → UInt8} {s : Server} {e : Packet × Option ℕ}
    {store : Cell → Option Buf} (h : restartStep stray s.cells e = some store) :
    ∃ s' : Server, store = s'.cells ∧ ∃ blk ∈ (s.block (blockId e.1)).cuts e.1,
      s'.block = Function.update s.block (blockId e.1) blk := by
  have hmem : store ∈ (Access.handle stray e.1).stores s.cells := by
    obtain ⟨pack, cut⟩ := e
    cases cut with
    | none => exact Option.some_inj.mp h ▸ Program.end_mem_stores _ _
    | some n => exact List.mem_of_getElem? h
  obtain ⟨s', hs', hblk, -⟩ := stops_cuts stray hmem
  exact ⟨s', hs', hblk⟩

end Server

namespace Block

/-- A crash changes the committed part of a block that exists only in the execution of a commit. -/
theorem cuts_committed {blk blk' : Block} {pack : Packet} (hcut : blk' ∈ blk.cuts pack)
    (htype : pack.header.type ≠ .twoPcCommitExecute) {content : Buf}
    (hcontent : blk.content = some content) :
    blk'.content = some content ∧ blk'.committedVersion = blk.committedVersion := by
  have hcreate : blk.create = blk := by rw [create, hcontent]
  have hcreateCuts : blk.createCuts = [blk] := by rw [createCuts, hcontent]
  have hrecord : blk' ∈ [blk] ++ blk.recordCuts pack →
      blk'.content = some content ∧ blk'.committedVersion = blk.committedVersion := by
    simp only [recordCuts, versioned, record, List.cons_append, List.nil_append, List.mem_cons,
      List.not_mem_nil, or_false]
    rintro (rfl | rfl | rfl | rfl) <;> exact ⟨hcontent, rfl⟩
  have hself : blk' ∈ [blk] ++ [blk] →
      blk'.content = some content ∧ blk'.committedVersion = blk.committedVersion := by
    simp only [List.cons_append, List.nil_append, List.mem_cons, List.not_mem_nil, or_false]
    rintro (rfl | rfl) <;> exact ⟨hcontent, rfl⟩
  cases hpack : pack.header.type with
  | twoPcPrepare =>
    simp only [cuts, hpack, hcreate, hcreateCuts] at hcut
    split at hcut
    · exact hself hcut
    · exact hrecord hcut
  | twoPcPrepareQuick =>
    simp only [cuts, hpack, hcreate, hcreateCuts] at hcut
    exact hrecord hcut
  | twoPcCommitExecute => exact absurd hpack htype
  | twoPcCommitRollback =>
    simp only [cuts, hpack, rollback, List.mem_cons, List.not_mem_nil, or_false] at hcut
    rcases hcut with rfl | rfl | rfl <;> exact ⟨hcontent, rfl⟩
  | replication | get | err | ack | twoPcCommitAck | twoPcPrepareAgree | twoPcPrepareAbort =>
    simp only [cuts, hpack, List.mem_singleton] at hcut
    subst hcut
    exact ⟨hcontent, rfl⟩

/-- A block that is not there has no version in the log. -/
def Fresh (blk : Block) : Prop :=
  blk.content = none → blk.pendingVersion = 0 ∧ blk.committedVersion = 0

private theorem create_mem_createCuts (blk : Block) : blk.create ∈ blk.createCuts := by
  rw [createCuts, create]
  cases blk.content <;> simp

private theorem fresh_of_mem_createCuts {blk blk' : Block} (hfresh : blk.Fresh)
    (hcut : blk' ∈ blk.createCuts) : blk'.Fresh := by
  rw [createCuts] at hcut
  cases hcontent : blk.content with
  | some content =>
    rw [hcontent, List.mem_singleton] at hcut
    exact hcut ▸ hfresh
  | none =>
    have hcreate : blk.create = ⟨some [], [], 0, 0⟩ := by rw [create, hcontent]
    rw [hcontent, hcreate] at hcut
    simp only [List.mem_cons, List.not_mem_nil, or_false] at hcut
    rcases hcut with rfl | rfl | rfl | rfl | rfl
    · exact hfresh
    all_goals intro h; cases h

private theorem fresh_of_mem_cuts {blk blk' : Block} {pack : Packet} (hfresh : blk.Fresh)
    (hcut : blk' ∈ blk.cuts pack) : blk'.Fresh := by
  have hcreate : ∀ {blk'' : Block}, blk''.content = blk.create.content → blk''.Fresh := by
    intro blk'' h hnone
    rw [h, create_content] at hnone
    cases hnone
  have hrecord : blk' ∈ blk.createCuts ++ blk.create.recordCuts pack → blk'.Fresh := by
    intro h
    rcases List.mem_append.mp h with h | h
    · exact fresh_of_mem_createCuts hfresh h
    · simp only [recordCuts, List.mem_cons, List.not_mem_nil, or_false] at h
      rcases h with rfl | rfl | rfl <;> exact hcreate rfl
  cases hpack : pack.header.type with
  | twoPcPrepare =>
    simp only [cuts, hpack] at hcut
    split at hcut
    · rcases List.mem_append.mp hcut with h | h
      · exact fresh_of_mem_createCuts hfresh h
      · exact hcreate (congrArg content (List.mem_singleton.mp h))
    · exact hrecord hcut
  | twoPcPrepareQuick =>
    simp only [cuts, hpack] at hcut
    exact hrecord hcut
  | twoPcCommitExecute =>
    simp only [cuts, hpack, halfCommitted, execute, List.mem_cons, List.not_mem_nil,
      or_false] at hcut
    rcases hcut with rfl | rfl | rfl
    · exact hfresh
    · exact fun h ↦ ⟨(hfresh h).1, (hfresh h).1⟩
    · intro h
      cases h
  | twoPcCommitRollback =>
    simp only [cuts, hpack, rollback, List.mem_cons, List.not_mem_nil, or_false] at hcut
    rcases hcut with rfl | rfl | rfl
    · exact hfresh
    · exact fun h ↦ ⟨rfl, (hfresh h).2⟩
    · exact fun h ↦ ⟨rfl, (hfresh h).2⟩
  | replication | get | err | ack | twoPcCommitAck | twoPcPrepareAgree | twoPcPrepareAbort =>
    simp only [cuts, hpack, List.mem_singleton] at hcut
    exact hcut ▸ hfresh

/-! ### The interrupted message once more -/

/-- The interrupted message is a full prepare that was going to be agreed to and has put its
version, a new one. -/
def Stuck (blk blk' : Block) (pack : Packet) : Prop :=
  pack.header.type = .twoPcPrepare ∧ blk.create.havePending = false ∧
    (blk' = blk.create.versioned pack ∨ blk' = blk.create.record pack) ∧
    pack.header.version ≠ 0 ∧ pack.header.version ≠ blk.create.committedVersion

private theorem create_of_mem_createCuts {blk blk' : Block} (hfresh : blk.Fresh)
    (hcut : blk' ∈ blk.createCuts) : blk'.create.havePending = blk.create.havePending ∧
      ∀ pack, blk'.create.record pack = blk.create.record pack := by
  rw [createCuts] at hcut
  cases hcontent : blk.content with
  | some content =>
    rw [hcontent, List.mem_singleton] at hcut
    exact hcut ▸ ⟨rfl, fun _ ↦ rfl⟩
  | none =>
    obtain ⟨hpending, hcommitted⟩ := hfresh hcontent
    have hcreate : blk.create = ⟨some [], [], 0, 0⟩ := by rw [create, hcontent]
    rw [hcontent, hcreate] at hcut
    simp only [List.mem_cons, List.not_mem_nil, or_false] at hcut
    rw [hcreate]
    rcases hcut with rfl | rfl | rfl | rfl | rfl
    · rw [hcreate]
      exact ⟨rfl, fun _ ↦ rfl⟩
    · simp [create, havePending, record, hpending, hcommitted]
    · simp [create, havePending, record, hpending]
    · simp [create, havePending, record]
    · simp [create, havePending, record]

/-- Once its version is put, an interrupted prepare leads to what it would have led to, but it is
agreed to again only if the version is not a new one. -/
theorem create_of_mem_recordCuts {blk blk' : Block} {pack : Packet}
    (hcut : blk' = blk.create.versioned pack ∨ blk' = blk.create.record pack) :
    blk'.create = blk' ∧ blk'.create.record pack = blk.create.record pack ∧
      (blk'.havePending = true ↔
        pack.header.version ≠ 0 ∧ pack.header.version ≠ blk.create.committedVersion) := by
  have hcontent := blk.create_content
  have hcreate : blk'.create = blk' := by
    have hsome : blk'.content = some (blk.content.getD []) := by
      rcases hcut with rfl | rfl <;> exact hcontent
    rw [create, hsome]
  rw [hcreate]
  refine ⟨rfl, ?_, ?_⟩
  · rcases hcut with rfl | rfl <;> rfl
  · rcases hcut with rfl | rfl <;>
      simp [havePending, versioned, record, and_comm]

private theorem createCuts_of_havePending {blk : Block} (hpending : blk.create.havePending = true) :
    blk.createCuts = [blk] := by
  have hcontent := blk.create_content
  rw [create_of_havePending hpending] at hcontent
  rw [createCuts, hcontent]

private theorem mem_prepareCuts {blk blk' : Block} {pack : Packet}
    (h : blk' ∈ blk.createCuts ++ blk.create.recordCuts pack) :
    blk' ∈ blk.createCuts ∨ blk' = blk.create.versioned pack ∨ blk' = blk.create.record pack := by
  rcases List.mem_append.mp h with h | h
  · exact .inl h
  · rw [recordCuts, List.mem_cons] at h
    rcases h with rfl | h
    · exact .inl blk.create_mem_createCuts
    · exact .inr (by simpa using h)

private theorem handle_prepare_congr {blk blk' : Block} {pack : Packet}
    (htype : pack.header.type = .twoPcPrepare)
    (hsame : blk'.create.havePending = blk.create.havePending)
    (hcreate : blk.create.havePending = true → blk'.create = blk.create)
    (hrecord : blk'.create.record pack = blk.create.record pack) :
    blk'.handle pack = blk.handle pack := by
  simp only [handle, htype, prepare, hsame]
  split
  · exact hcreate ‹_›
  · exact hrecord

/-- A packet that is handled again after a crash does to its block what it would have done without
the crash, unless it is stuck. -/
theorem handle_of_mem_cuts {blk blk' : Block} {pack : Packet} (hfresh : blk.Fresh)
    (hcut : blk' ∈ blk.cuts pack) :
    (¬Stuck blk blk' pack → blk'.handle pack = blk.handle pack ∧
      (pack.header.type = .twoPcPrepare →
        blk'.create.havePending = blk.create.havePending)) ∧
    (Stuck blk blk' pack → blk'.handle pack = blk' ∧ blk'.create.havePending = true) := by
  refine ⟨fun hstuck ↦ ?_, fun ⟨htype, hpending, hput, hzero, hcommitted⟩ ↦ ?_⟩
  · cases htype : pack.header.type with
    | twoPcPrepare =>
      simp only [cuts, htype] at hcut
      by_cases hpending : blk.create.havePending = true
      · -- the block exists and is refused without a `Put`
        rw [if_pos hpending, createCuts_of_havePending hpending,
          create_of_havePending hpending] at hcut
        have hself : blk' = blk := by simpa using hcut
        subst hself
        exact ⟨rfl, fun _ ↦ rfl⟩
      · rw [if_neg hpending] at hcut
        rcases mem_prepareCuts hcut with h | h
        · obtain ⟨hsame, hrecord⟩ := create_of_mem_createCuts hfresh h
          exact ⟨handle_prepare_congr htype hsame (fun h ↦ absurd h hpending) (hrecord pack),
            fun _ ↦ hsame⟩
        · obtain ⟨hcreate, hrecord, hhave⟩ := create_of_mem_recordCuts h
          have hsame : blk'.create.havePending = blk.create.havePending := by
            rw [hcreate, Bool.eq_false_of_not_eq_true hpending, Bool.eq_false_iff, ne_eq, hhave]
            exact fun hnew ↦ hstuck ⟨htype, Bool.eq_false_of_not_eq_true hpending, h, hnew⟩
          exact ⟨handle_prepare_congr htype hsame (fun h ↦ absurd h hpending) hrecord,
            fun _ ↦ hsame⟩
    | twoPcPrepareQuick =>
      simp only [cuts, htype] at hcut
      refine ⟨?_, fun h ↦ by cases h⟩
      simp only [handle, htype, prepareQuick]
      rcases mem_prepareCuts hcut with h | h
      · exact (create_of_mem_createCuts hfresh h).2 pack
      · exact (create_of_mem_recordCuts h).2.1
    | twoPcCommitExecute =>
      simp only [cuts, htype, halfCommitted, execute, List.mem_cons, List.not_mem_nil,
        or_false] at hcut
      refine ⟨?_, fun h ↦ by cases h⟩
      rcases hcut with rfl | rfl | rfl <;> simp only [handle, htype, execute]
    | twoPcCommitRollback =>
      simp only [cuts, htype, rollback, List.mem_cons, List.not_mem_nil, or_false] at hcut
      refine ⟨?_, fun h ↦ by cases h⟩
      rcases hcut with rfl | rfl | rfl <;> simp only [handle, htype, rollback]
    | replication | get | err | ack | twoPcCommitAck | twoPcPrepareAgree | twoPcPrepareAbort =>
      simp only [cuts, htype, List.mem_singleton] at hcut
      exact ⟨by rw [hcut], fun h ↦ by cases h⟩
  · obtain ⟨hcreate, -, hhave⟩ := create_of_mem_recordCuts hput
    have htrue := hhave.mpr ⟨hzero, hcommitted⟩
    rw [hcreate]
    refine ⟨?_, htrue⟩
    simp only [handle, htype, prepare, hcreate, htrue, if_true]

end Block

namespace Server

/-! ## What survives

The results about runs with crashes. A block is changed by a commit alone, a commit that was
interrupted leaves one of three states, and a prepare that was interrupted can be sent again unless
it is refused for its own pending version. -/

/-- **Committed blocks survive.** Let the server handle any packets and die in as many of them as it
may. As long as none of them executes a commit of the block, a block that exists keeps its content
and its committed version. -/
theorem committed_survives (stray : ℕ → UInt8) (s : Server) (id : BlockId) (content : Buf)
    (hcontent : s.db (blockKey id) = some content) (events : List (Packet × Option ℕ))
    (hevents : ∀ e ∈ events, blockId e.1 = id → e.1.header.type ≠ .twoPcCommitExecute)
    (store : Cell → Option Buf) (hrun : run (restartStep stray) s.cells events = some store) :
    ∃ s' : Server, store = s'.cells ∧ s'.db (blockKey id) = some content ∧
      (s'.dbLog.getCommittedVersion (blockKey id)).1
        = (s.dbLog.getCommittedVersion (blockKey id)).1 := by
  refine invariant_run (I := fun store ↦ ∃ s' : Server, store = s'.cells ∧
    s'.db (blockKey id) = some content ∧ (s'.dbLog.getCommittedVersion (blockKey id)).1
      = (s.dbLog.getCommittedVersion (blockKey id)).1) ?_
    (meets_of_forall_mem hevents s.cells) hrun ⟨s, rfl, hcontent, rfl⟩
  rintro _ e _ htype hstep ⟨s₁, rfl, hcontent₁, hversion₁⟩
  obtain ⟨s₂, rfl, blk, hblk, hblock⟩ := restartStep_cuts hstep
  have hid := congrFun hblock id
  by_cases h : id = blockId e.1
  · subst h
    rw [Function.update_self] at hid
    obtain ⟨hcontent₂, hversion₂⟩ := Block.cuts_committed hblk (htype rfl) hcontent₁
    exact ⟨s₂, rfl, (congrArg Block.content hid).trans hcontent₂,
      ((congrArg Block.committedVersion hid).trans hversion₂).trans hversion₁⟩
  · rw [Function.update_of_ne h] at hid
    exact ⟨s₂, rfl, (congrArg Block.content hid).trans hcontent₁,
      (congrArg Block.committedVersion hid).trans hversion₁⟩

/-- A committed block, and a rollback of another prepare with a crash between its `Put`s. -/
theorem committed_survives_rollback : ∃ (store : Cell → Option Buf) (s' : Server),
    run (restartStep fun _ ↦ 0) (empty.handleAll (fun _ ↦ 0)
      [onePacket .twoPcPrepare 1, onePacket .twoPcCommitExecute 1]).cells
      [(onePacket .twoPcCommitRollback 2, some 1)] = some store ∧ store = s'.cells ∧
    s'.db (blockKey (List.Vector.replicate 32 0, 0)) = some [7] := by
  have hcommitted : (empty.handleAll (fun _ ↦ 0)
      [onePacket .twoPcPrepare 1, onePacket .twoPcCommitExecute 1]).db
        (blockKey (List.Vector.replicate 32 0, 0)) = some [7] := by decide +kernel
  obtain ⟨s', hs', hkept, -⟩ := committed_survives (fun _ ↦ 0) _ (List.Vector.replicate 32 0, 0) [7]
    hcommitted [(onePacket .twoPcCommitRollback 2, some 1)] (by decide) _ rfl
  exact ⟨_, s', rfl, hs', hkept⟩

/-- A server that was started with empty databases has no versions of blocks that are not there. -/
theorem fresh_of_run {stray : ℕ → UInt8} {events : List (Packet × Option ℕ)} {s : Server}
    (hrun : run (restartStep stray) empty.cells events = some s.cells) (id : BlockId) :
    (s.block id).Fresh := by
  have hall : ∃ s' : Server, s.cells = s'.cells ∧ ∀ id, (s'.block id).Fresh := by
    refine invariant_run_of_step
      (I := fun store ↦ ∃ s' : Server, store = s'.cells ∧ ∀ id, (s'.block id).Fresh) ?_ hrun
      ⟨empty, rfl, fun id _ ↦ ⟨rfl, rfl⟩⟩
    rintro _ e _ hstep ⟨s₁, rfl, hfresh⟩
    obtain ⟨s₂, rfl, blk, hblk, hblock⟩ := restartStep_cuts hstep
    refine ⟨s₂, rfl, fun id ↦ ?_⟩
    rw [hblock]
    exact (Function.forall_update_iff s₁.block fun _ b ↦ b.Fresh).mpr
      ⟨Block.fresh_of_mem_cuts (hfresh _) hblk, fun id _ ↦ hfresh id⟩ id
  obtain ⟨s', hs', hfresh⟩ := hall
  exact Access.cells_injective hs' ▸ hfresh id

/-- **Once more after a crash.** Let a server that was started with empty databases, and has been
through any crashes since, die while it handles a packet. When the packet is sent again, its block
becomes what it would have become at once and the answer is the same, with one exception: a full
prepare that has put its version, if that is a new one, is now refused and leaves the block half
prepared. -/
theorem retry_after_crash (stray : ℕ → UInt8) (events : List (Packet × Option ℕ)) (s s' : Server)
    (hrun : run (restartStep stray) empty.cells events = some s.cells) (pack : Packet)
    (hstop : s'.cells ∈ (Access.handle stray pack).stores s.cells) :
    (¬Block.Stuck (s.block (blockId pack)) (s'.block (blockId pack)) pack →
      (s'.handle stray pack).1.block = (s.handle stray pack).1.block ∧
        (s'.handle stray pack).2 = (s.handle stray pack).2) ∧
    (Block.Stuck (s.block (blockId pack)) (s'.block (blockId pack)) pack →
      (s.handle stray pack).2 = respond pack .twoPcPrepareAgree ∧
        (s'.handle stray pack).2 = respond pack .twoPcPrepareAbort ∧
        (s'.handle stray pack).1.block = s'.block) := by
  obtain ⟨blk, hcut, hblock⟩ := (Access.shows_handle stray s pack _).mp ⟨s', hstop, rfl⟩
  have hself : s'.block (blockId pack) = blk := by rw [hblock, Function.update_self]
  obtain ⟨hsafe, hstuck⟩ := Block.handle_of_mem_cuts (fresh_of_run hrun _) hcut
  rw [hself]
  refine ⟨fun h ↦ ?_, fun h ↦ ?_⟩
  · obtain ⟨hhandle, hpending⟩ := hsafe h
    refine ⟨?_, ?_⟩
    · rw [block_handle, block_handle, hself, hhandle, hblock, Function.update_idem]
    · cases htype : pack.header.type with
      | twoPcPrepare =>
        rw [handle_vote stray s' pack (.inl htype), handle_vote stray s pack (.inl htype), hself,
          hpending htype]
      | twoPcPrepareQuick =>
        rw [handle_vote stray s' pack (.inr htype), handle_vote stray s pack (.inr htype), htype]
        rfl
      | twoPcCommitExecute =>
        rw [handle_commit stray s' pack (.inl htype), handle_commit stray s pack (.inl htype)]
      | twoPcCommitRollback =>
        rw [handle_commit stray s' pack (.inr htype), handle_commit stray s pack (.inr htype)]
      | get =>
        have hsame : s' = s := by
          rw [Access.handle, htype] at hstop
          exact (Access.stopsAt_dbRead stray pack).mp hstop
        rw [hsame]
      | replication =>
        simp only [handle, htype]
        rfl
      | err | ack | twoPcCommitAck | twoPcPrepareAgree | twoPcPrepareAbort =>
        simp only [handle, htype]
  · obtain ⟨hhandle, hpending⟩ := hstuck h
    obtain ⟨htype, hnone, -⟩ := h
    refine ⟨?_, ?_, ?_⟩
    · rw [handle_vote stray s pack (.inl htype), hnone]
      simp
    · rw [handle_vote stray s' pack (.inl htype), hself, hpending, htype]
      rfl
    · rw [block_handle, hself, hhandle, ← hself, Function.update_eq_self]

/-- A first prepare that dies after the `Put` of its version. -/
theorem retry_after_crash_stuck : ∃ s' : Server,
    s'.cells ∈ (Access.handle (fun _ ↦ 0) (onePacket .twoPcPrepare 1)).stores empty.cells ∧
    (s'.handle (fun _ ↦ 0) (onePacket .twoPcPrepare 1)).2
      = respond (onePacket .twoPcPrepare 1) .twoPcPrepareAbort := by
  have hcut : (⟨some [], [], 1, 0⟩ : Block)
      ∈ (empty.block (blockId (onePacket .twoPcPrepare 1))).cuts (onePacket .twoPcPrepare 1) := by
    decide
  obtain ⟨s', hstop, hblock⟩ :=
    (Access.shows_handle (fun _ ↦ 0) empty (onePacket .twoPcPrepare 1) _).mpr ⟨_, hcut, rfl⟩
  refine ⟨s', hstop, ((retry_after_crash (fun _ ↦ 0) [] empty s' rfl _ hstop).2 ?_).2.1⟩
  rw [hblock, Function.update_self]
  exact ⟨rfl, by decide, .inl (by decide), by decide, by decide⟩

/-- **A commit can be lost in a crash.** Let a server die while it executes the commit of a block
with a pending log. The prepared data is in the block, or still protected by the log, unless only
the version of the commit was put. In that state, which can be reached, the next full prepare is
agreed to, and once it is executed the block is the old one with the new slice: the prepared data is
gone. -/
theorem commit_cut (stray : ℕ → UInt8) (s : Server) (pack : Packet)
    (htype : pack.header.type = .twoPcCommitExecute)
    (hpending : (s.dbLog.havePendingLog pack.header.asString).1 = true) :
    (∀ s' : Server, s'.cells ∈ (Access.handle stray pack).stores s.cells →
      ((s'.db pack.header.asString = some (s.dbLog.getPendingPrepareData pack.header.asString) ∨
          (s'.dbLog.havePendingLog pack.header.asString).1 = true) ↔
        ¬(s'.block (blockId pack) = (s.block (blockId pack)).halfCommitted ∧
          s.db pack.header.asString
            ≠ some (s.dbLog.getPendingPrepareData pack.header.asString)))) ∧
    ∃ s' : Server, s'.cells ∈ (Access.handle stray pack).stores s.cells ∧
      s'.block (blockId pack) = (s.block (blockId pack)).halfCommitted ∧
      ∀ pack' : Packet, pack'.header.type = .twoPcPrepare → blockId pack' = blockId pack →
        (s'.handle stray pack').2 = respond pack' .twoPcPrepareAgree ∧
        ((s'.handle stray pack').1.handle stray pack).1.db pack.header.asString
          = some (overlayBlock ((s.db pack.header.asString).getD []) pack') := by
  rw [asString_eq, havePendingLog_fst] at hpending
  have hdb : ∀ t : Server, t.db (blockKey (blockId pack)) = (t.block (blockId pack)).content :=
    fun _ ↦ rfl
  have hdata : s.dbLog.getPendingPrepareData (blockKey (blockId pack))
      = (s.block (blockId pack)).pendingData := rfl
  have hnew : (s.block (blockId pack)).pendingVersion
      ≠ (s.block (blockId pack)).committedVersion := by
    intro heq
    rw [Block.havePending, heq, beq_self_eq_true] at hpending
    cases hpending
  have hhalf : (s.block (blockId pack)).halfCommitted.havePending = false := by
    simp [Block.halfCommitted, Block.havePending]
  have hcuts := Access.shows_handle stray s pack
  rw [Block.cuts, htype] at hcuts
  simp only [asString_eq, hdb, hdata]
  refine ⟨fun s' hstop ↦ ?_, ?_⟩
  · rw [havePendingLog_fst]
    obtain ⟨blk, hcut, hblock⟩ := (hcuts _).mp ⟨s', hstop, rfl⟩
    have hself : s'.block (blockId pack) = blk := by rw [hblock, Function.update_self]
    rw [hself]
    simp only [List.mem_cons, List.not_mem_nil, or_false] at hcut
    rcases hcut with rfl | rfl | rfl
    · refine ⟨fun _ hlost ↦ hnew ?_, fun _ ↦ .inr hpending⟩
      exact (congrArg Block.committedVersion hlost.1).symm
    · rw [hhalf]
      simp [Block.halfCommitted]
    · refine ⟨fun _ hlost ↦ hlost.2 ?_, fun _ ↦ .inl rfl⟩
      exact (congrArg Block.content hlost.1).symm
  · obtain ⟨s', hstop, hblock⟩ := (hcuts _).mpr
      ⟨(s.block (blockId pack)).halfCommitted, by simp, rfl⟩
    have hself : s'.block (blockId pack) = (s.block (blockId pack)).halfCommitted := by
      rw [hblock, Function.update_self]
    refine ⟨s', hstop, hself, fun pack' htype' hid ↦ ?_⟩
    have hcreate : (s.block (blockId pack)).halfCommitted.create.havePending = false := by
      rw [Block.create]
      split
      · exact hhalf
      · rfl
    refine ⟨?_, ?_⟩
    · rw [handle_vote stray s' pack' (.inl htype'), hid, hself, hcreate]
      simp
    · rw [block_handle, Function.update_self, block_handle, hid, Function.update_self, hself,
        Block.handle_prepare _ (.inl htype'), hcreate]
      simp [Block.handle, htype, Block.execute, Block.record, Block.halfCommitted]

/-- The first commit of a block. -/
theorem commit_cut_first : ∃ s' : Server, s'.cells ∈ (Access.handle (fun _ ↦ 0)
      (onePacket .twoPcCommitExecute 1)).stores
        (empty.handleAll (fun _ ↦ 0) [onePacket .twoPcPrepare 1]).cells ∧
    (s'.handle (fun _ ↦ 0) (onePacket .twoPcPrepare 2)).2
      = respond (onePacket .twoPcPrepare 2) .twoPcPrepareAgree := by
  have hpending : ((empty.handleAll (fun _ ↦ 0) [onePacket .twoPcPrepare 1]).dbLog.havePendingLog
      (onePacket .twoPcCommitExecute 1).header.asString).1 = true := by decide +kernel
  obtain ⟨s', hstop, -, hnext⟩ := (commit_cut (fun _ ↦ 0) _ _ rfl hpending).2
  exact ⟨s', hstop, (hnext (onePacket .twoPcPrepare 2) rfl rfl).1⟩

end Server

end Slsfs.Ssbd

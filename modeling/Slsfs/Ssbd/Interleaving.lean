import Slsfs.Ssbd.Steps
import Mathlib.Data.Finset.Basic

/-!
# Handlers that take turns

Handlers of an ssbd server make their accesses one at a time and run side by side. What that leaves
of the one-step handlers is said here, for any number of packets and any order of their accesses.

* `handlers_serializable`: handlers of packets that do not conflict can be interleaved at will.
* `handlers_compose`: whatever the packets, a block is put together from whole slices.
* `prepares_race`: two full prepares of one block can always both be agreed to.
-/

namespace Slsfs.Ssbd

open LeveldbPack

namespace Access

/-! ## What a handler reads and writes

A block has five cells, one for each `Purpose`, and the cells of different blocks are different. A
handler stays with some of the cells of the block that its packet names. Which ones depends on the
type of the message: a read looks at the block only, and a rollback writes the pending entry
only. -/

/-- The cell of a block for a purpose. -/
def cell (id : BlockId) (purpose : Purpose) : Cell :=
  match purpose with
  | .block | .replica => .db (storeKey id purpose)
  | .pendingVersion | .committedVersion | .pendingData => .dbLog (storeKey id purpose)

theorem cell_inj {id id' : BlockId} {purpose purpose' : Purpose}
    (h : cell id purpose = cell id' purpose') : id = id' ∧ purpose = purpose' := by
  have hkey : storeKey id purpose = storeKey id' purpose' := by
    cases purpose <;> cases purpose' <;>
      first | exact Cell.db.inj h | exact Cell.dbLog.inj h | cases h
  exact storeKey_injective hkey

theorem cell_block (id : BlockId) : Cell.db (blockKey id) = cell id .block := by
  rw [cell, storeKey, Purpose.suffix, List.append_nil]

private theorem cell_replica (id : BlockId) :
    Cell.db (blockKey id ++ ascii "repl") = cell id .replica := rfl

theorem cell_pendingVersion (id : BlockId) :
    Cell.dbLog (blockKey id ++ ascii "-version") = cell id .pendingVersion := rfl

theorem cell_committedVersion (id : BlockId) :
    Cell.dbLog (blockKey id ++ ascii "-committed" ++ ascii "-version")
      = cell id .committedVersion := by
  have hsuffix : ascii "-committed" ++ ascii "-version" = ascii "-committed-version" := by decide
  rw [cell, storeKey, Purpose.suffix, List.append_assoc, hsuffix]

theorem cell_pendingData (id : BlockId) :
    Cell.dbLog (blockKey id ++ ascii "-data") = cell id .pendingData := rfl

/-- What the handler of a message reads of its block. -/
def reads : MsgT → Finset Purpose
  | .twoPcPrepare | .twoPcPrepareQuick => {.block, .pendingVersion, .committedVersion}
  | .twoPcCommitExecute => {.pendingVersion, .pendingData}
  | .replication => {.replica}
  | .get => {.block}
  | .twoPcCommitRollback | .err | .ack | .twoPcCommitAck | .twoPcPrepareAgree
  | .twoPcPrepareAbort => ∅

/-- What the handler of a message may write of its block. Whoever reads a version may repair it. -/
def writes : MsgT → Finset Purpose
  | .twoPcPrepare | .twoPcPrepareQuick =>
    {.block, .pendingVersion, .committedVersion, .pendingData}
  | .twoPcCommitExecute => {.block, .pendingVersion, .committedVersion}
  | .twoPcCommitRollback => {.pendingVersion, .pendingData}
  | .replication => {.replica}
  | .get | .err | .ack | .twoPcCommitAck | .twoPcPrepareAgree | .twoPcPrepareAbort => ∅

/-- The cells of a block for some purposes. -/
def cellsOf (id : BlockId) (purposes : Finset Purpose) : Set Cell :=
  {c | ∃ purpose ∈ purposes, cell id purpose = c}

section Within

variable {id : BlockId} {R W : Finset Purpose}

private theorem cell_mem_cellsOf {purpose : Purpose} :
    cell id purpose ∈ cellsOf id R ↔ purpose ∈ R := by
  constructor
  · rintro ⟨p, hp, hcell⟩
    exact (cell_inj hcell).2 ▸ hp
  · exact fun h ↦ ⟨purpose, h, rfl⟩

private theorem within_dbGet (h : .block ∈ R) :
    (dbGet (blockKey id)).Within (cellsOf id R) (cellsOf id W) :=
  ⟨cell_block id ▸ cell_mem_cellsOf.mpr h, fun _ ↦ trivial⟩

private theorem within_dbPut (value : Buf) (h : .block ∈ W) :
    (dbPut (blockKey id) value).Within (cellsOf id R) (cellsOf id W) :=
  ⟨cell_block id ▸ cell_mem_cellsOf.mpr h, trivial⟩

private theorem within_readVersion {reads writes : Set Cell} {key : Buf}
    (hreads : .dbLog (key ++ ascii "-version") ∈ reads)
    (hwrites : .dbLog (key ++ ascii "-version") ∈ writes) :
    (readVersion key).Within reads writes := by
  refine ⟨hreads, fun value ↦ ?_⟩
  dsimp only
  split
  · trivial
  · split
    · trivial
    · exact ⟨hwrites, trivial⟩

private theorem within_getPendingPrepareVersion (hR : .pendingVersion ∈ R)
    (hW : .pendingVersion ∈ W) :
    (getPendingPrepareVersion (blockKey id)).Within (cellsOf id R) (cellsOf id W) :=
  within_readVersion (cell_mem_cellsOf.mpr hR) (cell_mem_cellsOf.mpr hW)

private theorem within_getCommittedVersion (hR : .committedVersion ∈ R)
    (hW : .committedVersion ∈ W) :
    (getCommittedVersion (blockKey id)).Within (cellsOf id R) (cellsOf id W) :=
  within_readVersion (cell_committedVersion id ▸ cell_mem_cellsOf.mpr hR)
    (cell_committedVersion id ▸ cell_mem_cellsOf.mpr hW)

private theorem within_getPendingPrepareData (h : .pendingData ∈ R) :
    (getPendingPrepareData (blockKey id)).Within (cellsOf id R) (cellsOf id W) :=
  ⟨cell_mem_cellsOf.mpr h, fun _ ↦ trivial⟩

private theorem within_putCommittedVersion (version : UInt32) (h : .committedVersion ∈ W) :
    (putCommittedVersion (blockKey id) version).Within (cellsOf id R) (cellsOf id W) :=
  ⟨cell_committedVersion id ▸ cell_mem_cellsOf.mpr h, trivial⟩

private theorem within_putPendingPrepare (value : Buf) (version : UInt32)
    (hversion : .pendingVersion ∈ W) (hdata : .pendingData ∈ W) :
    (putPendingPrepare (blockKey id) value version).Within (cellsOf id R) (cellsOf id W) :=
  ⟨cell_mem_cellsOf.mpr hversion, cell_mem_cellsOf.mpr hdata, trivial⟩

end Within

private theorem within_bindOrCreate (id : BlockId) {R W : Finset Purpose} (hR : .block ∈ R)
    (hW : {.block, .pendingVersion, .committedVersion, .pendingData} ⊆ W) :
    (bindOrCreate (blockKey id)).Within (cellsOf id R) (cellsOf id W) := by
  refine Program.within_bind (within_dbGet hR) fun block ↦ ?_
  cases block with
  | some _ => trivial
  | none =>
    refine Program.within_bind (within_dbPut _ (hW (by decide))) fun _ ↦ ?_
    refine Program.within_bind (within_putCommittedVersion _ (hW (by decide))) fun _ ↦ ?_
    exact within_putPendingPrepare _ _ (hW (by decide)) (hW (by decide))

private theorem within_havePendingLog (id : BlockId) {R W : Finset Purpose}
    (hR : {.pendingVersion, .committedVersion} ⊆ R)
    (hW : {.pendingVersion, .committedVersion} ⊆ W) :
    (havePendingLog (blockKey id)).Within (cellsOf id R) (cellsOf id W) := by
  have hpending : (getPendingPrepareVersion (blockKey id)).Within (cellsOf id R) (cellsOf id W) :=
    within_getPendingPrepareVersion (hR (by decide)) (hW (by decide))
  refine Program.within_bind hpending fun pending ↦ ?_
  refine Program.within_bind
    (within_getCommittedVersion (hR (by decide)) (hW (by decide))) fun committed ↦ ?_
  split
  · trivial
  · exact Program.within_bind hpending fun _ ↦ trivial

/-- A handler stays with the cells of its block, and with those that its message is about. -/
theorem within_handle (stray : ℕ → UInt8) (pack : Packet) :
    (handle stray pack).Within (cellsOf (blockId pack) (reads pack.header.type))
      (cellsOf (blockId pack) (writes pack.header.type)) := by
  cases htype : pack.header.type with
  | twoPcPrepare =>
    simp only [handle, htype, startTwoPcPrepare, asString_eq]
    refine Program.within_bind (within_bindOrCreate _ (by decide) (by decide)) fun _ ↦ ?_
    refine Program.within_bind (within_dbGet (by decide)) fun oldBlock ↦ ?_
    have hcommitted : (getCommittedVersion (blockKey (blockId pack))).Within
        (cellsOf (blockId pack) (reads .twoPcPrepare))
        (cellsOf (blockId pack) (writes .twoPcPrepare)) :=
      within_getCommittedVersion (by decide) (by decide)
    cases oldBlock with
    | none => trivial
    | some oldBlock =>
      refine Program.within_bind (within_havePendingLog _ (by decide) (by decide)) fun b ↦ ?_
      cases b with
      | true => exact Program.within_bind hcommitted fun _ ↦ trivial
      | false =>
        refine Program.within_bind (within_putPendingPrepare _ _ (by decide) (by decide)) fun _ ↦ ?_
        exact Program.within_bind hcommitted fun _ ↦ trivial
  | twoPcPrepareQuick =>
    simp only [handle, htype, startTwoPcPrepareQuick, asString_eq]
    refine Program.within_bind (within_bindOrCreate _ (by decide) (by decide)) fun _ ↦ ?_
    refine Program.within_bind (within_dbGet (by decide)) fun oldBlock ↦ ?_
    cases oldBlock with
    | none => trivial
    | some oldBlock =>
      refine Program.within_bind (within_putPendingPrepare _ _ (by decide) (by decide)) fun _ ↦ ?_
      exact Program.within_bind (within_getCommittedVersion (by decide) (by decide))
        fun _ ↦ trivial
  | twoPcCommitExecute =>
    simp only [handle, htype, startTwoPcCommitExecute, commitPendingPrepare, asString_eq]
    refine Program.within_bind ?_ fun _ ↦ trivial
    refine Program.within_bind (within_getPendingPrepareData (by decide)) fun value ↦ ?_
    refine Program.within_bind
      (within_getPendingPrepareVersion (by decide) (by decide)) fun version ↦ ?_
    refine Program.within_bind (within_putCommittedVersion _ (by decide)) fun _ ↦ ?_
    exact within_dbPut _ (by decide)
  | twoPcCommitRollback =>
    simp only [handle, htype, startTwoPcCommitRollback, asString_eq]
    exact Program.within_bind (within_putPendingPrepare _ _ (by decide) (by decide))
      fun _ ↦ trivial
  | replication =>
    simp only [handle, htype, startReplication, Server.replicaKey, asString_eq]
    have hcell : cell (blockId pack) .replica ∈ cellsOf (blockId pack) {.replica} :=
      cell_mem_cellsOf.mpr (by decide)
    exact Program.within_bind ⟨hcell, fun _ ↦ trivial⟩ fun _ ↦ ⟨hcell, trivial⟩
  | get =>
    simp only [handle, htype, startDbRead, asString_eq]
    exact Program.within_bind (within_dbGet (by decide)) fun _ ↦ trivial
  | err | ack | twoPcCommitAck | twoPcPrepareAgree | twoPcPrepareAbort =>
    simp only [handle, htype]
    trivial

end Access

namespace Server

/-! ## Packets that do not conflict

Two packets conflict if one of them may write what the other one reads or writes. Handlers of
packets that do not are programs that keep apart, and `Program.Threads.serializable_done` applies:
whatever the order of their accesses, the replies and the databases are those of the handlers one
after the other, in any order. -/

/-- One packet may write what another one reads or writes. -/
def Conflict (pack pack' : Packet) : Prop :=
  blockId pack = blockId pack' ∧ ¬Disjoint (Access.writes pack.header.type)
    (Access.reads pack'.header.type ∪ Access.writes pack'.header.type)

instance (pack pack' : Packet) : Decidable (Conflict pack pack') :=
  inferInstanceAs (Decidable (_ ∧ _))

private theorem apart_of_not_conflict {ι : Type*} {packs : ι → Packet}
    (hpacks : ∀ i j, i ≠ j → ¬Conflict (packs j) (packs i)) :
    Program.Threads.Apart
      (fun i ↦ Access.cellsOf (blockId (packs i)) (Access.reads (packs i).header.type))
      (fun i ↦ Access.cellsOf (blockId (packs i)) (Access.writes (packs i).header.type)) := by
  intro i j hij
  refine Set.disjoint_left.mpr ?_
  rintro c ⟨purpose, hwrites, rfl⟩ hc
  obtain ⟨purpose', hpurpose', hcell⟩ : ∃ purpose' ∈ Access.reads (packs i).header.type
      ∪ Access.writes (packs i).header.type,
      Access.cell (blockId (packs i)) purpose' = Access.cell (blockId (packs j)) purpose := by
    rcases hc with ⟨p, hp, hcell⟩ | ⟨p, hp, hcell⟩
    · exact ⟨p, Finset.mem_union_left _ hp, hcell⟩
    · exact ⟨p, Finset.mem_union_right _ hp, hcell⟩
  obtain ⟨hid, rfl⟩ := Access.cell_inj hcell
  exact hpacks i j hij ⟨hid.symm, fun hdisjoint ↦
    Finset.disjoint_left.mp hdisjoint hwrites hpurpose'⟩

private theorem oneByOne_handle {ι : Type*} (stray : ℕ → UInt8) (s : Server) (packs : ι → Packet)
    (order : List ι) :
    Program.Threads.oneByOne (fun i ↦ Access.handle stray (packs i)) order s.cells
      = (s.handleAll stray (order.map packs)).cells := by
  induction order generalizing s with
  | nil => rfl
  | cons i order ih =>
    have hstep : ((Access.handle stray (packs i)).run s.cells).2
        = (s.handle stray (packs i)).1.cells := by
      rw [Access.run_handle]
    rw [Program.Threads.oneByOne, List.foldl_cons, hstep]
    exact ih (s.handle stray (packs i)).1

/-- **Packets that do not conflict can be handled at the same time.** However their handlers take
turns, each answers as if it were alone, and once all have answered the server is as if they had
been handled one by one, in any order. -/
theorem handlers_serializable {ι : Type*} [DecidableEq ι] (stray : ℕ → UInt8) (s : Server)
    (packs : ι → Packet) (hpacks : ∀ i j, i ≠ j → ¬Conflict (packs j) (packs i)) (turns : List ι)
    (t : Program.Threads ι Cell (Option Buf) Packet)
    (hrun : run Program.Threads.step ⟨fun i ↦ Access.handle stray (packs i), s.cells⟩ turns
      = some t) :
    (∀ i reply, t.program i = .done reply → reply = (s.handle stray (packs i)).2) ∧
      ((∀ i, ∃ reply, t.program i = .done reply) → ∀ order : List ι, order.Nodup →
        (∀ i, i ∈ order) → t.store = (s.handleAll stray (order.map packs)).cells) := by
  obtain ⟨hreply, hstore⟩ := Program.Threads.serializable_done (apart_of_not_conflict hpacks)
    (fun i ↦ Access.within_handle stray (packs i)) hrun
  refine ⟨fun i reply hdone ↦ ?_, fun hdone order horder hall ↦ ?_⟩
  · rw [hreply i reply hdone, Access.run_handle]
  · rw [hstore hdone order horder hall, oneByOne_handle]

/-- A rollback and a read of one block, with the read between the two `Put`s. -/
theorem handlers_serializable_get : ∃ t, run Program.Threads.step
      ⟨fun get ↦ Access.handle (fun _ ↦ 0)
        (onePacket (bif get then .get else .twoPcCommitRollback) 1), empty.cells⟩
      [false, true, false] = some t ∧
    t.store = (empty.handleAll (fun _ ↦ 0)
      [onePacket .get 1, onePacket .twoPcCommitRollback 1]).cells := by
  refine ⟨_, rfl, (handlers_serializable (fun _ ↦ 0) empty
    (fun get ↦ onePacket (bif get then .get else .twoPcCommitRollback) 1) (by decide)
    [false, true, false] _ rfl).2 (fun get ↦ ?_) [true, false] (by decide) (by decide)⟩
  cases get with
  | false => exact ⟨_, rfl⟩
  | true => exact ⟨_, rfl⟩

end Server

/-! ## Packets that conflict

Then not much is left, but not nothing: every access is to a whole cell. `Composed` are the blocks
that can be made from the one at the start by laying slices of the packets over it; each cell of a
block always holds such a block, and each reply comes from one. `Holds` says this cell by cell, so
it is kept by a single `Put`, and the lemmas below go through the handlers part by part. -/

private theorem PersistentLog.readVersion_of_db {log : PersistentLog} {key : Buf} {version : UInt32}
    (h : log.db (key ++ ascii "-version") = some (decimal version.toNat)) :
    (log.readVersion key).1 = version := by
  have hput := PersistentLog.readVersion_fst_of_put log key version
  have hsame : (log.putVersion key version).db (key ++ ascii "-version")
      = log.db (key ++ ascii "-version") := by
    rw [PersistentLog.putVersion_db, Db.put_self, h]
  exact (PersistentLog.readVersion_fst_congr hsame).symm.trans hput

/-- The packet is one of the two prepares. -/
def IsPrepare (pack : Packet) : Prop :=
  pack.header.type = .twoPcPrepare ∨ pack.header.type = .twoPcPrepareQuick

/-- A value that is put together from whole slices, each laid over what the ones before it have
left, starting from nothing or from a value that was there. -/
inductive Composed (start : Buf → Prop) (slice : Packet → Prop) : Buf → Prop where
  | empty : Composed start slice []
  | start {value : Buf} (h : start value) : Composed start slice value
  | overlay {value : Buf} {pack : Packet} (hvalue : Composed start slice value)
    (hpack : slice pack) : Composed start slice (Server.overlayBlock value pack)

namespace Server

variable (s : Server) (sent : Packet → Prop) (id : BlockId)

/-- What a block, or its pending data, can be after some packets were handled. -/
def ComposedBlock : Buf → Prop :=
  Composed (fun value ↦ s.db (blockKey id) = some value ∨
      s.dbLog.db (blockKey id ++ ascii "-data") = some value)
    fun pack ↦ sent pack ∧ blockId pack = id ∧ IsPrepare pack

/-- What a replica can be after some packets were handled. -/
def ComposedReplica : Buf → Prop :=
  Composed (fun value ↦ s.replica id = some value)
    fun pack ↦ sent pack ∧ blockId pack = id ∧ pack.header.type = .replication

/-- The versions that there can be of a block after some packets were handled. -/
def KnownVersion (version : UInt32) : Prop :=
  version = 0 ∨ version = (s.block id).pendingVersion ∨ version = (s.block id).committedVersion ∨
    ∃ pack, sent pack ∧ blockId pack = id ∧ IsPrepare pack ∧ version = pack.header.version

/-- What a cell of the block can hold after some packets were handled. -/
def Holds (purpose : Purpose) (value : Buf) : Prop :=
  match purpose with
  | .block | .pendingData => s.ComposedBlock sent id value
  | .replica => s.ComposedReplica sent id value
  | .pendingVersion | .committedVersion =>
    value = [] ∨ ∃ version, s.KnownVersion sent id version ∧ value = decimal version.toNat

/-- The cells of all blocks hold what they can. -/
def CellHolds (c : Cell) (value : Option Buf) : Prop :=
  ∀ id purpose, c = Access.cell id purpose → ∀ v, value = some v → s.Holds sent id purpose v

/-- The reply to a read shows a block as it can be. -/
def ReplyHolds (stray : ℕ → UInt8) (pack reply : Packet) : Prop :=
  pack.header.type = .get → ∃ block, reply = Access.readReply stray pack block ∧
    ∀ value, block = some value → s.ComposedBlock sent (blockId pack) value

end Server

namespace Access

section Keeps

variable {s : Server} {sent : Packet → Prop} {id : BlockId}

private theorem cellHolds_cell (purpose : Purpose) {value : Buf}
    (h : s.Holds sent id purpose value) :
    s.CellHolds sent (cell id purpose) (some value) := by
  rintro id' purpose' hcell _ ⟨⟩
  obtain ⟨rfl, rfl⟩ := cell_inj hcell
  exact h

private theorem keeps_dbGet : (dbGet (blockKey id)).Keeps (s.CellHolds sent)
    fun block ↦ ∀ value, block = some value → s.ComposedBlock sent id value :=
  fun _ h ↦ h id .block (cell_block id)

private theorem keeps_dbPut {value : Buf} (h : s.ComposedBlock sent id value) :
    (dbPut (blockKey id) value).Keeps (s.CellHolds sent) fun _ ↦ True := by
  refine ⟨?_, trivial⟩
  rw [cell_block]
  exact cellHolds_cell .block h

private theorem keeps_getPendingPrepareData :
    (getPendingPrepareData (blockKey id)).Keeps (s.CellHolds sent) (s.ComposedBlock sent id) := by
  intro value hvalue
  cases value with
  | none => exact .empty
  | some value => exact hvalue id .pendingData rfl value rfl

private theorem keeps_getPendingPrepareVersion :
    (getPendingPrepareVersion (blockKey id)).Keeps (s.CellHolds sent) (s.KnownVersion sent id) :=
  keeps_readVersion (.inl rfl) fun value h ↦ h id .pendingVersion rfl value rfl

private theorem keeps_getCommittedVersion :
    (getCommittedVersion (blockKey id)).Keeps (s.CellHolds sent) (s.KnownVersion sent id) :=
  keeps_readVersion (.inl rfl)
    fun value h ↦ h id .committedVersion (cell_committedVersion id) value rfl

private theorem keeps_putCommittedVersion {version : UInt32} (h : s.KnownVersion sent id version) :
    (putCommittedVersion (blockKey id) version).Keeps (s.CellHolds sent) fun _ ↦ True := by
  refine ⟨?_, trivial⟩
  rw [cell_committedVersion]
  exact cellHolds_cell .committedVersion (.inr ⟨version, h, rfl⟩)

private theorem keeps_putPendingPrepare {value : Buf} {version : UInt32}
    (hvalue : s.ComposedBlock sent id value) (hversion : s.KnownVersion sent id version) :
    (putPendingPrepare (blockKey id) value version).Keeps (s.CellHolds sent) fun _ ↦ True :=
  ⟨cellHolds_cell .pendingVersion (.inr ⟨version, hversion, rfl⟩),
    cellHolds_cell .pendingData hvalue, trivial⟩

private theorem keeps_bindOrCreate :
    (bindOrCreate (blockKey id)).Keeps (s.CellHolds sent) fun _ ↦ True := by
  refine Program.keeps_bind keeps_dbGet fun block _ ↦ ?_
  cases block with
  | some _ => trivial
  | none =>
    refine Program.keeps_bind (keeps_dbPut .empty) fun _ _ ↦ ?_
    refine Program.keeps_bind (keeps_putCommittedVersion (.inl rfl)) fun _ _ ↦ ?_
    exact keeps_putPendingPrepare .empty (.inl rfl)

private theorem keeps_havePendingLog :
    (havePendingLog (blockKey id)).Keeps (s.CellHolds sent) fun _ ↦ True := by
  refine Program.keeps_bind keeps_getPendingPrepareVersion fun pending _ ↦ ?_
  refine Program.keeps_bind keeps_getCommittedVersion fun committed _ ↦ ?_
  split
  · trivial
  · exact Program.keeps_bind keeps_getPendingPrepareVersion fun _ _ ↦ trivial

end Keeps

private theorem replyHolds_of_ne {s : Server} {sent : Packet → Prop} {stray : ℕ → UInt8}
    {pack reply : Packet} {type : MsgT} (htype : pack.header.type = type) (hne : type ≠ .get) :
    s.ReplyHolds sent stray pack reply :=
  fun hget ↦ absurd (htype.symm.trans hget) hne

private theorem keeps_handle (stray : ℕ → UInt8) {s : Server} {sent : Packet → Prop} {pack : Packet}
    (hsent : sent pack) :
    (handle stray pack).Keeps (s.CellHolds sent) (s.ReplyHolds sent stray pack) := by
  have hrecord : IsPrepare pack → ∀ oldBlock, s.ComposedBlock sent (blockId pack) oldBlock →
      (putPendingPrepare (blockKey (blockId pack)) (Server.overlayBlock oldBlock pack)
        pack.header.version).Keeps (s.CellHolds sent) fun _ ↦ True := fun hprepare oldBlock hold ↦
    keeps_putPendingPrepare (hold.overlay ⟨hsent, rfl, hprepare⟩)
      (.inr (.inr (.inr ⟨pack, hsent, rfl, hprepare, rfl⟩)))
  have hreply : pack.header.type ≠ .get → ∀ reply,
      (getCommittedVersion (blockKey (blockId pack)) >>= fun _ ↦ pure reply : Access Packet).Keeps
        (s.CellHolds sent) (s.ReplyHolds sent stray pack) := fun hne reply ↦
    Program.keeps_bind keeps_getCommittedVersion fun _ _ ↦ replyHolds_of_ne rfl hne
  cases htype : pack.header.type with
  | twoPcPrepare =>
    simp only [handle, htype, startTwoPcPrepare, asString_eq]
    refine Program.keeps_bind keeps_bindOrCreate fun _ _ ↦ ?_
    refine Program.keeps_bind keeps_dbGet fun oldBlock hold ↦ ?_
    cases oldBlock with
    | none => exact replyHolds_of_ne htype (by decide)
    | some oldBlock =>
      refine Program.keeps_bind keeps_havePendingLog fun pending _ ↦ ?_
      cases pending with
      | true => exact hreply (by rw [htype]; decide) _
      | false =>
        refine Program.keeps_bind (hrecord (.inl htype) oldBlock (hold _ rfl)) fun _ _ ↦ ?_
        exact hreply (by rw [htype]; decide) _
  | twoPcPrepareQuick =>
    simp only [handle, htype, startTwoPcPrepareQuick, asString_eq]
    refine Program.keeps_bind keeps_bindOrCreate fun _ _ ↦ ?_
    refine Program.keeps_bind keeps_dbGet fun oldBlock hold ↦ ?_
    cases oldBlock with
    | none => exact replyHolds_of_ne htype (by decide)
    | some oldBlock =>
      refine Program.keeps_bind (hrecord (.inr htype) oldBlock (hold _ rfl)) fun _ _ ↦ ?_
      exact hreply (by rw [htype]; decide) _
  | twoPcCommitExecute =>
    simp only [handle, htype, startTwoPcCommitExecute, commitPendingPrepare, asString_eq]
    refine Program.keeps_bind ?_ fun _ (_ : True) ↦ replyHolds_of_ne htype (by decide)
    refine Program.keeps_bind keeps_getPendingPrepareData fun value hvalue ↦ ?_
    refine Program.keeps_bind keeps_getPendingPrepareVersion fun version hversion ↦ ?_
    refine Program.keeps_bind (keeps_putCommittedVersion hversion) fun _ _ ↦ ?_
    exact keeps_dbPut hvalue
  | twoPcCommitRollback =>
    simp only [handle, htype, startTwoPcCommitRollback, asString_eq]
    exact Program.keeps_bind (keeps_putPendingPrepare .empty (.inl rfl))
      fun _ _ ↦ replyHolds_of_ne htype (by decide)
  | replication =>
    simp only [handle, htype, startReplication, Server.replicaKey, asString_eq]
    intro oldBlock hold
    refine ⟨cellHolds_cell .replica ?_, replyHolds_of_ne htype (by decide)⟩
    have hcomposed : s.ComposedReplica sent (blockId pack) (oldBlock.getD []) := by
      cases oldBlock with
      | none => exact .empty
      | some value => exact hold (blockId pack) .replica (cell_replica _) value rfl
    exact hcomposed.overlay ⟨hsent, rfl, htype⟩
  | get =>
    simp only [handle, htype, startDbRead, asString_eq]
    exact Program.keeps_bind keeps_dbGet fun block hblock _ ↦ ⟨block, rfl, hblock⟩
  | err | ack | twoPcCommitAck | twoPcPrepareAgree | twoPcPrepareAbort =>
    simp only [handle, htype]
    exact replyHolds_of_ne htype (by decide)

end Access

/-! ### Blocks are composed -/

namespace Server

private theorem cellHolds_cells (s : Server) (sent : Packet → Prop) (c : Cell) :
    s.CellHolds sent c (s.cells c) := by
  rintro id purpose rfl value hvalue
  cases purpose with
  | block =>
    refine .start (.inl ?_)
    rw [← Access.cell_block] at hvalue
    exact hvalue
  | replica => exact .start hvalue
  | pendingData => exact .start (.inr hvalue)
  | pendingVersion =>
    refine (s.dbLog.versions (blockKey id) value hvalue).imp_right ?_
    rintro ⟨version, rfl⟩
    refine ⟨version, .inr (.inl ?_), rfl⟩
    exact (PersistentLog.readVersion_of_db hvalue).symm
  | committedVersion =>
    rw [← Access.cell_committedVersion] at hvalue
    refine (s.dbLog.versions (blockKey id ++ ascii "-committed") value hvalue).imp_right ?_
    rintro ⟨version, rfl⟩
    refine ⟨version, .inr (.inr (.inl ?_)), rfl⟩
    exact (PersistentLog.readVersion_of_db hvalue).symm

private theorem holds_of_cellHolds {s s' : Server} {sent : Packet → Prop}
    (h : ∀ c, s.CellHolds sent c (s'.cells c)) (id : BlockId) :
    (∀ content, (s'.block id).content = some content → s.ComposedBlock sent id content) ∧
      s.ComposedBlock sent id (s'.block id).pendingData ∧
      (∀ replica, s'.replica id = some replica → s.ComposedReplica sent id replica) ∧
      s.KnownVersion sent id (s'.block id).pendingVersion ∧
      s.KnownVersion sent id (s'.block id).committedVersion := by
  have hversion : ∀ key, (∀ value, s'.dbLog.db (key ++ ascii "-version") = some value →
      value = [] ∨ ∃ version, s.KnownVersion sent id version ∧ value = decimal version.toNat) →
      s.KnownVersion sent id (s'.dbLog.readVersion key).1 := by
    intro key hkey
    cases hdb : s'.dbLog.db (key ++ ascii "-version") with
    | none => exact .inl (by rw [PersistentLog.readVersion, hdb]; rfl)
    | some value =>
      rcases hkey value hdb with rfl | ⟨version, hknown, rfl⟩
      · exact .inl (by rw [PersistentLog.readVersion, hdb]; rfl)
      · rwa [PersistentLog.readVersion_of_db hdb]
  refine ⟨fun content ↦ ?_, ?_, h _ id .replica (Access.cell_replica id), hversion _ ?_,
    hversion _ ?_⟩
  · exact h _ id .block (Access.cell_block id) content
  · have hdata := h _ id .pendingData (Access.cell_pendingData id)
    rw [block, PersistentLog.getPendingPrepareData]
    cases hdb : s'.dbLog.db (blockKey id ++ ascii "-data") with
    | none => exact .empty
    | some value => exact hdata value hdb
  · exact h _ id .pendingVersion (Access.cell_pendingVersion id)
  · exact h _ id .committedVersion (Access.cell_committedVersion id)

/-- **No torn blocks.** Let handlers of any packets take turns on one server in any way, finished or
not. Every block, every pending block and every replica is put together from whole slices of the
packets for it, every version is one of theirs, and every answer to a read shows such a block. -/
theorem handlers_compose {ι : Type*} [DecidableEq ι] (stray : ℕ → UInt8) (s : Server)
    (packs : ι → Packet) (turns : List ι) (t : Program.Threads ι Cell (Option Buf) Packet)
    (hrun : run Program.Threads.step ⟨fun i ↦ Access.handle stray (packs i), s.cells⟩ turns
      = some t) :
    (∃ s' : Server, t.store = s'.cells ∧ ∀ id,
      (∀ content, (s'.block id).content = some content →
        s.ComposedBlock (· ∈ Set.range packs) id content) ∧
      s.ComposedBlock (· ∈ Set.range packs) id (s'.block id).pendingData ∧
      (∀ replica, s'.replica id = some replica →
        s.ComposedReplica (· ∈ Set.range packs) id replica) ∧
      s.KnownVersion (· ∈ Set.range packs) id (s'.block id).pendingVersion ∧
      s.KnownVersion (· ∈ Set.range packs) id (s'.block id).committedVersion) ∧
    ∀ i reply, t.program i = .done reply →
      s.ReplyHolds (· ∈ Set.range packs) stray (packs i) reply := by
  obtain ⟨-, htext⟩ := Program.Threads.invariant_threads hrun
    (fun i ↦ Access.versionText_handle stray (packs i)) (Access.versionText_cells s)
  obtain ⟨hreply, hcells⟩ := Program.Threads.invariant_threads hrun
    (fun i ↦ Access.keeps_handle stray (Set.mem_range_self i)) (s.cellHolds_cells _)
  obtain ⟨s', hs'⟩ := Access.exists_cells htext
  refine ⟨⟨s', hs', holds_of_cellHolds (hs' ▸ hcells)⟩, fun i reply hdone ↦ ?_⟩
  have hi := hreply i
  rwa [hdone] at hi

/-- A commit of which only the version is put when a quick prepare begins. -/
theorem handlers_compose_cut : ∃ (t : Program.Threads Bool Cell (Option Buf) Packet) (s' : Server),
    run Program.Threads.step ⟨fun prepare ↦ Access.handle (fun _ ↦ 0)
      (onePacket (bif prepare then .twoPcPrepareQuick else .twoPcCommitExecute) 1), empty.cells⟩
      [false, false, false, true, true] = some t ∧ t.store = s'.cells ∧
    ∀ id content, (s'.block id).content = some content →
      empty.ComposedBlock (· ∈ Set.range fun prepare ↦
        onePacket (bif prepare then .twoPcPrepareQuick else .twoPcCommitExecute) 1) id content := by
  obtain ⟨⟨s', hs', hholds⟩, -⟩ := handlers_compose (fun _ ↦ 0) empty (fun prepare : Bool ↦
    onePacket (bif prepare then .twoPcPrepareQuick else .twoPcCommitExecute) 1)
    [false, false, false, true, true] _ rfl
  exact ⟨_, s', rfl, hs', fun id ↦ (hholds id).1⟩

end Server

/-! ## Two prepares of one block

The two get past their checks before either has put its entry: each has looked and found no pending
log. Then both put their versions and their data, in an order in which the version of the one meets
the data of the other. -/

namespace Access

variable (pack : Packet) (oldBlock : Buf)

/-- What a full prepare still has to do once it has found no pending log. -/
def agreed : Access Packet := do
  putPendingPrepare pack.header.asString (Server.overlayBlock oldBlock pack) pack.header.version
  let _ ← getCommittedVersion pack.header.asString
  pure (Server.respond pack .twoPcPrepareAgree)

/-- What it still has to do once it has put its version. -/
def versioned : Access Packet := do
  putData pack.header.asString (Server.overlayBlock oldBlock pack)
  let _ ← getCommittedVersion pack.header.asString
  pure (Server.respond pack .twoPcPrepareAgree)

private theorem agreed_eq :
    agreed pack oldBlock = putVersion pack.header.asString pack.header.version
    >>= fun _ ↦ versioned pack oldBlock := rfl

private theorem run_agreed (s : Server) : (agreed pack oldBlock).run s.cells
    = (Server.respond pack .twoPcPrepareAgree, { s with
        dbLog := s.dbLog.putPendingPrepare pack.header.asString
          (Server.overlayBlock oldBlock pack) pack.header.version : Server }.cells) := by
  simp [agreed, Program.run_bind, PersistentLog.getCommittedVersion, PersistentLog.readVersion_snd]

private theorem run_versioned (s : Server) : (versioned pack oldBlock).run s.cells
    = (Server.respond pack .twoPcPrepareAgree, { s with
        dbLog := s.dbLog.putData pack.header.asString
          (Server.overlayBlock oldBlock pack) : Server }.cells) := by
  simp [versioned, Program.run_bind, PersistentLog.getCommittedVersion,
    PersistentLog.readVersion_snd]

/-- A full prepare on a block without a pending log gets past its checks. -/
theorem reaches_agreed {ι : Type*} [DecidableEq ι]
    {t : Program.Threads ι Cell (Option Buf) Packet} {i : ι} {pack : Packet} {s : Server}
    (hi : t.program i = startTwoPcPrepare pack) (hstore : t.store = s.cells)
    (hpending : (s.block (blockId pack)).create.havePending = false) :
    t.Reaches ⟨Function.update t.program i
        (agreed pack ((s.block (blockId pack)).content.getD [])),
      (s.bindOrCreate pack.header.asString).cells⟩ := by
  have hdb := Server.bindOrCreate_db s (blockId pack)
  have hblock : ((s.bindOrCreate (blockKey (blockId pack))).block (blockId pack)).havePending
      = false := by
    rwa [Server.block_bindOrCreate, Function.update_self]
  rw [← Server.havePendingLog_fst] at hblock
  rw [← asString_eq] at hdb hblock
  have hlog := Server.havePendingLog_snd (s.bindOrCreate pack.header.asString) (blockId pack)
  rw [← asString_eq] at hlog
  rw [startTwoPcPrepare] at hi
  have hbind := t.reaches_bind hi
  rw [hstore, run_bindOrCreate] at hbind
  have hget := hbind.trans (Program.Threads.reaches_bind _ (Function.update_self ..))
  rw [run_dbGet, hdb, Function.update_idem] at hget
  have hhave := hget.trans (Program.Threads.reaches_bind _ (Function.update_self ..))
  rw [run_havePendingLog, hblock, hlog, Function.update_idem] at hhave
  exact hhave

end Access

namespace PersistentLog

/-- Two prepares that put their versions in one order and their data in the other. -/
theorem putPendingPrepare_crossed (log : PersistentLog) (key value value' : Buf)
    (version version' : UInt32) :
    (((log.putVersion key version).putPendingPrepare key value' version').putData key value).db
      = (log.putPendingPrepare key value version').db := by
  simp only [putPendingPrepare, putData_db, putVersion_db, Db.put, Function.update_idem]

end PersistentLog

namespace Server

private theorem bindOrCreate_idem (s : Server) (key : Buf) :
    (s.bindOrCreate key).bindOrCreate key = s.bindOrCreate key := by
  have hdb : ∃ value, (s.bindOrCreate key).db key = some value := by
    rw [bindOrCreate]
    cases hkey : s.db key with
    | some value => exact ⟨value, hkey⟩
    | none => exact ⟨[], Db.put_self ..⟩
  obtain ⟨value, hvalue⟩ := hdb
  rw [bindOrCreate, hvalue]

private theorem cells_congr {s s' : Server} (hdb : s.db = s'.db) (hlog : s.dbLog.db = s'.dbLog.db) :
    s.cells = s'.cells := by
  funext c
  cases c with
  | db key => exact congrFun hdb key
  | dbLog key => exact congrFun hlog key

private theorem create_havePending_eq_false {s : Server} {id : BlockId}
    (h : s.db (blockKey id) = none ∨ (s.dbLog.havePendingLog (blockKey id)).1 = false) :
    (s.block id).create.havePending = false := by
  have hcontent : (s.block id).content = s.db (blockKey id) := rfl
  rw [Block.create, hcontent]
  cases hdb : s.db (blockKey id) with
  | none => rfl
  | some content =>
    rcases h with h | h
    · rw [hdb] at h
      cases h
    · rwa [havePendingLog_fst] at h

/-- **Full prepares race.** Wherever the other handlers are, two full prepares of one block that
start while it has no pending log can both be agreed to. What is then pending is the data of the one
under the version of the other. -/
theorem prepares_race {ι : Type*} [DecidableEq ι]
    (t : Program.Threads ι Cell (Option Buf) Packet) (i j : ι) (hij : i ≠ j) (pack pack' : Packet)
    (s : Server) (hi : t.program i = Access.startTwoPcPrepare pack)
    (hj : t.program j = Access.startTwoPcPrepare pack') (hstore : t.store = s.cells)
    (hid : blockId pack' = blockId pack)
    (hpending : s.db pack.header.asString = none ∨
      (s.dbLog.havePendingLog pack.header.asString).1 = false) :
    ∃ (turns : List ι) (t' : Program.Threads ι Cell (Option Buf) Packet) (s' : Server),
      run Program.Threads.step t turns = some t' ∧
      t'.program i = .done (respond pack .twoPcPrepareAgree) ∧
      t'.program j = .done (respond pack' .twoPcPrepareAgree) ∧ t'.store = s'.cells ∧
      s'.block = Function.update s.block (blockId pack) { (s.block (blockId pack)).create with
        pendingData := overlayBlock ((s.block (blockId pack)).content.getD []) pack
        pendingVersion := pack'.header.version } := by
  rw [asString_eq] at hpending
  have hcreate := create_havePending_eq_false hpending
  have hkey : pack'.header.asString = pack.header.asString := congrArg blockKey hid
  -- both are through with their checks before either puts its version
  have hfirst := Access.reaches_agreed hi hstore hcreate
  have hj' : Function.update t.program i
      (Access.agreed pack ((s.block (blockId pack)).content.getD [])) j
        = Access.startTwoPcPrepare pack' := by
    rw [Function.update_of_ne hij.symm, hj]
  have hcreate' : ((s.bindOrCreate pack.header.asString).block (blockId pack')).create.havePending
      = false := by
    rw [hid, asString_eq, block_bindOrCreate, Function.update_self, Block.create,
      Block.create_content]
    exact hcreate
  have hsecond := hfirst.trans (Access.reaches_agreed hj' rfl hcreate')
  rw [hkey, bindOrCreate_idem] at hsecond
  -- the first puts its version, the second puts both, and the first puts its data
  have hversion := hsecond.trans (Program.Threads.reaches_bind _ (i := i)
    ((Function.update_of_ne hij _ _).trans ((Function.update_self ..).trans
      (Access.agreed_eq ..))))
  rw [Access.run_putVersion] at hversion
  have hboth := hversion.trans (Program.Threads.reaches_done _ (i := j)
    ((Function.update_of_ne hij.symm _ _).trans (Function.update_self ..)))
  rw [Access.run_agreed] at hboth
  have hdata := hboth.trans (Program.Threads.reaches_done _ (i := i)
    ((Function.update_of_ne hij _ _).trans (Function.update_self ..)))
  rw [Access.run_versioned] at hdata
  obtain ⟨turns, hturns⟩ := hdata
  refine ⟨turns, _, ⟨(s.bindOrCreate pack.header.asString).db,
    (s.bindOrCreate pack.header.asString).dbLog.putPendingPrepare pack.header.asString
      (overlayBlock ((s.block (blockId pack)).content.getD []) pack) pack'.header.version⟩,
    hturns, Function.update_self .., ?_, cells_congr rfl ?_, ?_⟩
  · exact (Function.update_of_ne hij.symm _ _).trans (Function.update_self ..)
  · dsimp only
    rw [hkey]
    exact PersistentLog.putPendingPrepare_crossed ..
  · have hput := block_putPendingPrepare (s.bindOrCreate pack.header.asString) (blockId pack)
      (overlayBlock ((s.block (blockId pack)).content.getD []) pack) pack'.header.version
    rw [asString_eq, block_bindOrCreate] at hput
    rw [asString_eq, hput, Function.update_idem, Function.update_self]

/-- Two first prepares of a block. -/
theorem prepares_race_new : ∃ (turns : List Bool)
    (t' : Program.Threads Bool Cell (Option Buf) Packet) (s' : Server),
    run Program.Threads.step ⟨fun second ↦ Access.startTwoPcPrepare
      (onePacket .twoPcPrepare (bif second then 2 else 1)), empty.cells⟩ turns = some t' ∧
    t'.program false = .done (respond (onePacket .twoPcPrepare 1) .twoPcPrepareAgree) ∧
    t'.program true = .done (respond (onePacket .twoPcPrepare 2) .twoPcPrepareAgree) ∧
    t'.store = s'.cells ∧
    s'.block
      = Function.update empty.block (List.Vector.replicate 32 0, 0) ⟨some [], [7], 2, 0⟩ := by
  have hblock : empty.block (List.Vector.replicate 32 0, 0) = ⟨none, [], 0, 0⟩ := by decide
  have hrace := prepares_race ⟨fun second ↦ Access.startTwoPcPrepare
      (onePacket .twoPcPrepare (bif second then 2 else 1)), empty.cells⟩ false true (by decide)
    (onePacket .twoPcPrepare 1) (onePacket .twoPcPrepare 2) empty rfl rfl rfl rfl (.inl rfl)
  have hid : blockId (onePacket .twoPcPrepare 1) = (List.Vector.replicate 32 0, 0) := rfl
  have hslice : overlayBlock [] (onePacket .twoPcPrepare 1) = [7] := by decide
  rwa [hid, hblock, Option.getD_none, hslice] at hrace

end Server

end Slsfs.Ssbd

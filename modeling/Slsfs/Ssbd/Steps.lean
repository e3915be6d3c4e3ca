import Slsfs.Lib.Program
import Slsfs.Ssbd.Frame

/-!
# The handlers of an ssbd server, one database access at a time

A server runs its `io_context` on as many threads as there are cores, and no handler holds a lock.
A quick prepare, an execute and a replication start the next read before they do their work, so two
packets even of one connection are handled side by side. `Access` writes each handler as the `Get`s
and `Put`s that it makes, in their order, over the cells of the two databases; a single access of
leveldb is atomic. Left out are the lines of a prepare that read the versions only to log them,
which the log filter of a release build does not evaluate.

`run_handle` connects the two levels: undisturbed, a handler does what `Server.handle` says in one
step. `versionText_handle` and `exists_cells` say that the databases stay those of a server wherever
the handlers are.
-/

namespace Slsfs.Ssbd

open LeveldbPack

/-- A key of one of the two databases. -/
inductive Cell where
  | db (key : Buf)
  | dbLog (key : Buf)
  deriving DecidableEq

private theorem Cell.db_ne_dbLog (key key' : Buf) : Cell.db key ≠ Cell.dbLog key' := nofun

/-- A part of a handler. -/
abbrev Access := Program Cell (Option Buf)

/-- The two databases as one store. -/
def Server.cells (s : Server) : Cell → Option Buf
  | .db key => s.db key
  | .dbLog key => s.dbLog.db key

namespace Access

/-! ## The log

The functions of `persistent_log`, as programs. The getter of a version parses the text under its
key, and puts a zero there if that fails. -/

/-- `Get` from the block database, which is `rawblocks::bind`. -/
def dbGet (key : Buf) : Access (Option Buf) := .get (.db key) .done

/-- `Put` to the block database. -/
def dbPut (key value : Buf) : Access Unit := .put (.db key) (some value) (.done ())

def putVersion (key : Buf) (version : UInt32) : Access Unit :=
  .put (.dbLog (key ++ ascii "-version")) (some (decimal version.toNat)) (.done ())

def putData (key value : Buf) : Access Unit :=
  .put (.dbLog (key ++ ascii "-data")) (some value) (.done ())

def readVersion (key : Buf) : Access UInt32 :=
  .get (.dbLog (key ++ ascii "-version")) fun value ↦
    if value.getD [] = [] then .done 0
    else
      match stoll (value.getD []) with
      | some version => .done (UInt32.ofInt version)
      | none => .put (.dbLog (key ++ ascii "-version")) (some (decimal 0)) (.done 0)

def getCommittedVersion (key : Buf) : Access UInt32 := readVersion (key ++ ascii "-committed")

def putCommittedVersion (key : Buf) (version : UInt32) : Access Unit :=
  putVersion (key ++ ascii "-committed") version

def putPendingPrepare (key value : Buf) (version : UInt32) : Access Unit := do
  putVersion key version
  putData key value

def getPendingPrepareData (key : Buf) : Access Buf :=
  .get (.dbLog (key ++ ascii "-data")) fun value ↦ .done (value.getD [])

def getPendingPrepareVersion (key : Buf) : Access UInt32 := readVersion key

def commitPendingPrepare (key : Buf) : Access Unit := do
  let value ← getPendingPrepareData key
  let version ← getPendingPrepareVersion key
  putCommittedVersion key version
  dbPut key value

-- the second comparison is made only if the first one fails, and reads the version again
def havePendingLog (key : Buf) : Access Bool := do
  let pending ← getPendingPrepareVersion key
  let committed ← getCommittedVersion key
  if pending == committed then pure false
  else
    let pending ← getPendingPrepareVersion key
    pure !(pending == 0)

/-! ## The handlers

The handlers of `tcp_connection`, from the packet to the reply. `rawblocks::bind` is a `Get`; a
block that is not there is put with an empty content before the handler goes on. -/

def bindOrCreate (key : Buf) : Access Unit := do
  match ← dbGet key with
  | some _ => pure ()
  | none =>
    dbPut key []
    putCommittedVersion key 0
    putPendingPrepare key [] 0

def startTwoPcPrepare (pack : Packet) : Access Packet := do
  let key := pack.header.asString
  bindOrCreate key
  match ← dbGet key with
  | none => pure (Server.respond pack .twoPcPrepareAgree)
  | some oldBlock =>
    if ← havePendingLog key then
      let _ ← getCommittedVersion key
      pure (Server.respond pack .twoPcPrepareAbort)
    else
      putPendingPrepare key (Server.overlayBlock oldBlock pack) pack.header.version
      let _ ← getCommittedVersion key
      pure (Server.respond pack .twoPcPrepareAgree)

def startTwoPcPrepareQuick (pack : Packet) : Access Packet := do
  let key := pack.header.asString
  bindOrCreate key
  match ← dbGet key with
  | none => pure (Server.respond pack .twoPcPrepareAgree)
  | some oldBlock =>
    putPendingPrepare key (Server.overlayBlock oldBlock pack) pack.header.version
    let _ ← getCommittedVersion key
    pure (Server.respond pack .twoPcPrepareAgree)

def startTwoPcCommitExecute (pack : Packet) : Access Packet := do
  commitPendingPrepare pack.header.asString
  pure (Server.respond pack .twoPcCommitAck)

def startTwoPcCommitRollback (pack : Packet) : Access Packet := do
  putPendingPrepare pack.header.asString [] 0
  pure (Server.respond pack .twoPcCommitAck)

def startReplication (pack : Packet) : Access Packet := do
  let key := Server.replicaKey pack.header
  let oldBlock ← dbGet key
  dbPut key (Server.overlayBlock (oldBlock.getD []) pack)
  pure (Server.respond pack .ack)

/-- The reply of `start_db_read` to what it has bound. -/
def readReply (stray : ℕ → UInt8) (pack : Packet) : Option Buf → Packet
  | none => Server.respond pack .err
  | some block =>
    { header := { pack.header with type := .ack }
      data := Server.readBuffer stray block pack.header.position.toNat pack.header.datasize.toNat }

def startDbRead (stray : ℕ → UInt8) (pack : Packet) : Access Packet := do
  let block ← dbGet pack.header.asString
  pure (readReply stray pack block)

def handle (stray : ℕ → UInt8) (pack : Packet) : Access Packet :=
  match pack.header.type with
  | .twoPcPrepare => startTwoPcPrepare pack
  | .twoPcPrepareQuick => startTwoPcPrepareQuick pack
  | .twoPcCommitExecute => startTwoPcCommitExecute pack
  | .twoPcCommitRollback => startTwoPcCommitRollback pack
  | .replication => startReplication pack
  | .get => startDbRead stray pack
  | .err | .ack | .twoPcCommitAck | .twoPcPrepareAgree | .twoPcPrepareAbort =>
    pure (Server.respond pack .err)

/-! ## Undisturbed handlers

Run from a store that has the databases of a server, a handler ends in a store that has the
databases of the server after `Server.handle`, with the same reply. -/

section Run

variable (s : Server) (key value : Buf) (version : UInt32)

@[simp] theorem run_dbGet : (dbGet key).run s.cells = (s.db key, s.cells) := rfl

@[simp] theorem run_dbPut :
    (dbPut key value).run s.cells = ((), { s with db := s.db.put key value : Server }.cells) := by
  refine Prod.ext rfl (funext fun cell ↦ ?_)
  cases cell with
  | db key' =>
    by_cases h : key' = key
    · subst h
      exact (Function.update_self ..).trans (Db.put_self ..).symm
    · exact (Function.update_of_ne (by simpa using h) ..).trans (Db.put_of_ne _ _ h).symm
  | dbLog key' => exact Function.update_of_ne (Cell.db_ne_dbLog key key').symm (some value) s.cells

private theorem update_dbLog {s : Server} {log : PersistentLog} {key value : Buf}
    (h : log.db = s.dbLog.db.put key value) :
    Function.update s.cells (.dbLog key) (some value) = { s with dbLog := log : Server }.cells := by
  funext cell
  cases cell with
  | db key' => exact Function.update_of_ne (Cell.db_ne_dbLog key' key) ..
  | dbLog key' =>
    have hcell : ({ s with dbLog := log : Server }.cells (.dbLog key')) = log.db key' := rfl
    rw [hcell, h]
    by_cases hkey : key' = key
    · subst hkey
      exact (Function.update_self ..).trans (Db.put_self ..).symm
    · exact (Function.update_of_ne (by simpa using hkey) ..).trans (Db.put_of_ne _ _ hkey).symm

@[simp] theorem run_putVersion : (putVersion key version).run s.cells
    = ((), { s with dbLog := s.dbLog.putVersion key version : Server }.cells) :=
  Prod.ext rfl (update_dbLog rfl)

@[simp] theorem run_putData : (putData key value).run s.cells
    = ((), { s with dbLog := s.dbLog.putData key value : Server }.cells) :=
  Prod.ext rfl (update_dbLog rfl)

@[simp] theorem run_readVersion : (readVersion key).run s.cells
    = ((s.dbLog.readVersion key).1, { s with dbLog := (s.dbLog.readVersion key).2 }.cells) := by
  have hcell : s.cells (.dbLog (key ++ ascii "-version"))
      = s.dbLog.db (key ++ ascii "-version") := rfl
  rw [readVersion, Program.run, hcell, PersistentLog.readVersion]
  by_cases hempty : (s.dbLog.db (key ++ ascii "-version")).getD [] = []
  · simp only [hempty, if_true]
    rfl
  · simp only [hempty, if_false]
    cases stoll ((s.dbLog.db (key ++ ascii "-version")).getD []) with
    | some version => rfl
    | none => exact Prod.ext rfl (update_dbLog rfl)

@[simp] theorem run_getCommittedVersion : (getCommittedVersion key).run s.cells
    = ((s.dbLog.getCommittedVersion key).1,
        { s with dbLog := (s.dbLog.getCommittedVersion key).2 }.cells) :=
  run_readVersion ..

@[simp] theorem run_getPendingPrepareVersion : (getPendingPrepareVersion key).run s.cells
    = ((s.dbLog.getPendingPrepareVersion key).1,
        { s with dbLog := (s.dbLog.getPendingPrepareVersion key).2 }.cells) :=
  run_readVersion ..

@[simp] theorem run_getPendingPrepareData : (getPendingPrepareData key).run s.cells
    = (s.dbLog.getPendingPrepareData key, s.cells) := rfl

@[simp] theorem run_putCommittedVersion : (putCommittedVersion key version).run s.cells
    = ((), { s with dbLog := s.dbLog.putCommittedVersion key version : Server }.cells) :=
  run_putVersion ..

@[simp] theorem run_putPendingPrepare : (putPendingPrepare key value version).run s.cells
    = ((), { s with dbLog := s.dbLog.putPendingPrepare key value version : Server }.cells) := by
  rw [putPendingPrepare, Program.run_bind, run_putVersion, run_putData]
  rfl

@[simp] theorem run_havePendingLog : (havePendingLog key).run s.cells
    = ((s.dbLog.havePendingLog key).1,
        { s with dbLog := (s.dbLog.havePendingLog key).2 }.cells) := by
  rw [havePendingLog, PersistentLog.havePendingLog, Program.run_bind,
    run_getPendingPrepareVersion, Program.run_bind, run_getCommittedVersion]
  dsimp only
  split
  · rfl
  · rw [Program.run_bind, run_getPendingPrepareVersion]
    rfl

@[simp] theorem run_bindOrCreate :
    (bindOrCreate key).run s.cells = ((), (s.bindOrCreate key).cells) := by
  rw [bindOrCreate, Program.run_bind, run_dbGet, Server.bindOrCreate]
  cases s.db key with
  | some block => rfl
  | none => simp [Program.run_bind]

end Run

/-- **Undisturbed, a handler does what it does in one step.** -/
theorem run_handle (stray : ℕ → UInt8) (s : Server) (pack : Packet) :
    (handle stray pack).run s.cells
      = ((s.handle stray pack).2, (s.handle stray pack).1.cells) := by
  cases htype : pack.header.type with
  | twoPcPrepare =>
    simp only [handle, Server.handle, htype, startTwoPcPrepare, Server.startTwoPcPrepare,
      Program.run_bind, run_bindOrCreate, run_dbGet]
    cases (s.bindOrCreate pack.header.asString).db pack.header.asString with
    | none => rfl
    | some oldBlock =>
      simp only [Program.run_bind, run_havePendingLog]
      split
      · simp [Program.run_bind]
      · simp [Program.run_bind]
  | twoPcPrepareQuick =>
    simp only [handle, Server.handle, htype, startTwoPcPrepareQuick,
      Server.startTwoPcPrepareQuick, Program.run_bind, run_bindOrCreate, run_dbGet]
    cases (s.bindOrCreate pack.header.asString).db pack.header.asString with
    | none => rfl
    | some oldBlock => simp [Program.run_bind]
  | twoPcCommitExecute =>
    simp [handle, Server.handle, htype, startTwoPcCommitExecute, commitPendingPrepare,
      Server.startTwoPcCommitExecute, PersistentLog.commitPendingPrepare, Program.run_bind]
  | twoPcCommitRollback =>
    simp [handle, Server.handle, htype, startTwoPcCommitRollback,
      Server.startTwoPcCommitRollback, Program.run_bind]
  | replication =>
    simp [handle, Server.handle, htype, startReplication, Server.startReplication,
      Program.run_bind]
  | get =>
    simp only [handle, Server.handle, htype, startDbRead, Server.startDbRead, Program.run_bind,
      run_dbGet]
    cases s.db pack.header.asString <;> rfl
  | err | ack | twoPcCommitAck | twoPcPrepareAgree | twoPcPrepareAbort =>
    simp only [handle, Server.handle, htype]
    rfl

/-! ## Version texts -/

theorem ofInt_toNat (version : UInt32) : UInt32.ofInt (version.toNat : ℤ) = version := by
  have hmod : ((version.toNat : ℤ) % 2 ^ 32).toNat = version.toNat := by
    have := version.toNat_lt
    omega
  rw [UInt32.ofInt, hmod, UInt32.ofNat_toNat]

theorem keeps_readVersion {key : Buf} {Q : Cell → Option Buf → Prop} {R : UInt32 → Prop}
    (hzero : R 0) (hQ : ∀ value, Q (.dbLog (key ++ ascii "-version")) (some value) →
      value = [] ∨ ∃ version, R version ∧ value = decimal version.toNat) :
    (readVersion key).Keeps Q R := by
  intro value hvalue
  cases value with
  | none => exact hzero
  | some value =>
    rcases hQ value hvalue with rfl | ⟨version, hversion, rfl⟩
    · exact hzero
    · have hlt : version.toNat < 2 ^ 63 := by have := version.toNat_lt; omega
      simp only [Option.getD_some, decimal_ne_nil, if_false, stoll_decimal hlt, ofInt_toNat]
      exact hversion

/-- Whatever is stored under a version key is empty or the text of a version. -/
def VersionText (c : Cell) (value : Option Buf) : Prop :=
  ∀ key, c = .dbLog (key ++ ascii "-version") → ∀ v, value = some v →
    v = [] ∨ ∃ version : UInt32, v = decimal version.toNat

theorem versionText_cells (s : Server) (c : Cell) : VersionText c (s.cells c) := by
  rintro key rfl v hv
  exact s.dbLog.versions key v hv

theorem exists_cells {store : Cell → Option Buf} (h : ∀ c, VersionText c (store c)) :
    ∃ s : Server, store = s.cells := by
  refine ⟨⟨fun key ↦ store (.db key), fun key ↦ store (.dbLog key),
    fun key v hv ↦ h _ key rfl v hv⟩, funext fun c ↦ ?_⟩
  cases c <;> rfl

private theorem versionText_db (key : Buf) (value : Option Buf) : VersionText (.db key) value :=
  fun _ h ↦ absurd h (Cell.db_ne_dbLog _ _)

private theorem versionText_data (key : Buf) (value : Option Buf) :
    VersionText (.dbLog (key ++ ascii "-data")) value :=
  fun key' h ↦ absurd (Cell.dbLog.inj h).symm (PersistentLog.data_key_ne_version_key key' key)

private theorem versionText_version (key : Buf) (version : UInt32) :
    VersionText (.dbLog (key ++ ascii "-version")) (some (decimal version.toNat)) := by
  rintro key' - _ ⟨⟩
  exact .inr ⟨version, rfl⟩

private theorem versionText_readVersion (key : Buf) :
    (readVersion key).Keeps VersionText fun _ ↦ True :=
  keeps_readVersion trivial fun value h ↦
    (h key rfl value rfl).imp_right fun ⟨version, hversion⟩ ↦ ⟨version, trivial, hversion⟩

private theorem versionText_dbGet (key : Buf) : (dbGet key).Keeps VersionText fun _ ↦ True :=
  fun _ _ ↦ trivial

private theorem versionText_getPendingPrepareData (key : Buf) :
    (getPendingPrepareData key).Keeps VersionText fun _ ↦ True :=
  fun _ _ ↦ trivial

private theorem versionText_putPendingPrepare (key value : Buf) (version : UInt32) :
    (putPendingPrepare key value version).Keeps VersionText fun _ ↦ True :=
  ⟨versionText_version key version, versionText_data key _, trivial⟩

private theorem versionText_bindOrCreate (key : Buf) :
    (bindOrCreate key).Keeps VersionText fun _ ↦ True := by
  intro block _
  cases block with
  | some _ => trivial
  | none =>
    exact ⟨versionText_db key _, versionText_version _ 0, versionText_putPendingPrepare key [] 0⟩

private theorem versionText_havePendingLog (key : Buf) :
    (havePendingLog key).Keeps VersionText fun _ ↦ True := by
  refine Program.keeps_bind (versionText_readVersion _) fun pending _ ↦ ?_
  refine Program.keeps_bind (versionText_readVersion _) fun committed _ ↦ ?_
  split
  · trivial
  · exact Program.keeps_bind (versionText_readVersion _) fun _ _ ↦ trivial

theorem versionText_handle (stray : ℕ → UInt8) (pack : Packet) :
    (handle stray pack).Keeps VersionText fun _ ↦ True := by
  have hcommitted : ∀ reply : Packet, (getCommittedVersion pack.header.asString >>= fun _ ↦
      pure reply : Access Packet).Keeps VersionText fun _ ↦ True := fun reply ↦
    Program.keeps_bind (versionText_readVersion _) fun _ _ ↦ trivial
  cases htype : pack.header.type with
  | twoPcPrepare =>
    simp only [handle, htype, startTwoPcPrepare]
    refine Program.keeps_bind (versionText_bindOrCreate _) fun _ _ ↦ ?_
    refine Program.keeps_bind (versionText_dbGet _) fun oldBlock _ ↦ ?_
    cases oldBlock with
    | none => trivial
    | some oldBlock =>
      refine Program.keeps_bind (versionText_havePendingLog _) fun pending _ ↦ ?_
      cases pending with
      | true => exact hcommitted _
      | false =>
        exact Program.keeps_bind (versionText_putPendingPrepare _ _ _) fun _ _ ↦ hcommitted _
  | twoPcPrepareQuick =>
    simp only [handle, htype, startTwoPcPrepareQuick]
    refine Program.keeps_bind (versionText_bindOrCreate _) fun _ _ ↦ ?_
    refine Program.keeps_bind (versionText_dbGet _) fun oldBlock _ ↦ ?_
    cases oldBlock with
    | none => trivial
    | some oldBlock =>
      exact Program.keeps_bind (versionText_putPendingPrepare _ _ _) fun _ _ ↦ hcommitted _
  | twoPcCommitExecute =>
    simp only [handle, htype, startTwoPcCommitExecute, commitPendingPrepare]
    refine Program.keeps_bind (R := fun _ ↦ True) ?_ fun _ _ ↦ trivial
    refine Program.keeps_bind (versionText_getPendingPrepareData _) fun value _ ↦ ?_
    refine Program.keeps_bind (versionText_readVersion _) fun version _ ↦ ?_
    exact ⟨versionText_version _ version, versionText_db _ _, trivial⟩
  | twoPcCommitRollback =>
    simp only [handle, htype, startTwoPcCommitRollback]
    exact Program.keeps_bind (versionText_putPendingPrepare _ [] 0) fun _ _ ↦ trivial
  | replication =>
    simp only [handle, htype, startReplication]
    exact fun _ _ ↦ ⟨versionText_db _ _, trivial⟩
  | get =>
    simp only [handle, htype, startDbRead]
    exact fun _ _ ↦ trivial
  | err | ack | twoPcCommitAck | twoPcPrepareAgree | twoPcPrepareAbort =>
    simp only [handle, htype]
    trivial

end Access

end Slsfs.Ssbd

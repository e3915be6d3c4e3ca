import Slsfs.Ssbd.Interleaving

/-!
# A prepare and its executes, access by access

The executes of a block may start while its prepare is still to come or under way, since the
coordinator can decide before it has sent all prepares. Then their handlers make their accesses in
turns, and neither of them has the block to itself.

What is stored for a block is described by `Holding`, one cell at a time. An execute does no harm to
such a description as long as it is `Fresh`: what it puts is what is pending at that moment. So the
prepare can be followed through its handler (`Prepare`), which finds the block as it was, logs the
new entry in two `Put`s and agrees; and the executes that start after it (`Landed`) leave the block
with the logged bytes. No assumption is made on the order of the accesses of different handlers.
-/

namespace Slsfs.Ssbd

open LeveldbPack

namespace Access

/-! ## Version texts

A version is read by parsing a text, and a missing or an empty text is the version zero. A text that
a server has put is that of some version, so the exception handler around `std::stoll` is never
reached. -/

/-- The version that is read from a text. -/
def versionOf (value : Option Buf) : UInt32 :=
  if value.getD [] = [] then 0 else ((stoll (value.getD [])).map UInt32.ofInt).getD 0

/-- The text is empty or missing, or it is that of the version. -/
def Reads (value : Option Buf) (version : UInt32) : Prop :=
  value.getD [] = [] ∧ version = 0 ∨ value = some (decimal version.toNat)

private theorem reads_decimal (version : UInt32) :
    Reads (some (decimal version.toNat)) version := .inr rfl

private theorem stoll_version (version : UInt32) :
    stoll (decimal version.toNat) = some (version.toNat : ℤ) :=
  stoll_decimal (by have := version.toNat_lt; omega)

private theorem Reads.versionOf {value : Option Buf} {version : UInt32} (h : Reads value version) :
    versionOf value = version := by
  rcases h with ⟨hempty, rfl⟩ | rfl
  · rw [Access.versionOf, if_pos hempty]
  · rw [Access.versionOf, Option.getD_some, if_neg (decimal_ne_nil _), stoll_version,
      Option.map_some, Option.getD_some, ofInt_toNat]

theorem Reads.next {ρ : Type} {key : Buf} {value : Option Buf} {version : UInt32}
    (h : Reads value version) {f : UInt32 → Access ρ} {next : Option Buf → Access ρ}
    (hnext : readVersion key >>= f = .get (.dbLog (key ++ ascii "-version")) next) :
    next value = f version := by
  rw [readVersion, Program.get_bind, Program.get.injEq] at hnext
  rw [← hnext.2]
  dsimp only
  rcases h with ⟨hempty, rfl⟩ | rfl
  · rw [if_pos hempty]
    rfl
  · rw [Option.getD_some, if_neg (decimal_ne_nil _), stoll_version]
    dsimp only
    rw [ofInt_toNat]
    rfl

/-! ## What is stored for a block

`Holding` has four parameters: what may be said of the block itself, the pending bytes, their
version, and what may be said of the committed version. The stages of a prepare and of an execute
are instances of it. The replica is left out: copies are made while other requests are handled. -/

/-- What is stored for a block, cell by cell: the block itself, the pending entry, and the committed
version. -/
def Holding (block : Option Buf → Prop) (data : Buf) (version : UInt32)
    (committed : UInt32 → Prop) : Purpose → Option Buf → Prop
  | .block, value => block value
  | .pendingData, value => value.getD [] = data
  | .pendingVersion, value => Reads value version
  | .committedVersion, value => ∃ version, Reads value version ∧ committed version
  | .replica, _ => True

/-- Each cell of the block holds what it should. -/
def OnBlock (store : Cell → Option Buf) (id : BlockId) (Q : Purpose → Option Buf → Prop) : Prop :=
  ∀ purpose, Q purpose (store (cell id purpose))

/-- Nothing is pending: the pending bytes are those of the block, and their version is the committed
one or there is none. -/
def Settled (bytes : Buf) (version : UInt32) : Purpose → Option Buf → Prop :=
  Holding (fun value ↦ value.getD [] = bytes ∧ (value = none → version = 0)) bytes version
    fun committed ↦ committed = version ∨ version = 0

/-- The same, and the block exists. -/
def Present (bytes : Buf) (version : UInt32) : Purpose → Option Buf → Prop :=
  Holding (· = some bytes) bytes version fun committed ↦ committed = version ∨ version = 0

/-- The prepare has put its version, and not yet its bytes. -/
def Versioned (bytes : Buf) (version : UInt32) : Purpose → Option Buf → Prop :=
  Holding (· = some bytes) bytes version fun _ ↦ True

/-- The entry of the prepare is pending. -/
def Pending (bytes : Buf) (version : UInt32) : Purpose → Option Buf → Prop :=
  Holding (· ≠ none) bytes version fun _ ↦ True

/-- The version of the entry is committed. -/
def Dated (bytes : Buf) (version : UInt32) : Purpose → Option Buf → Prop :=
  Holding (· ≠ none) bytes version (· = version)

/-- The entry is committed. -/
def Committed (bytes : Buf) (version : UInt32) : Purpose → Option Buf → Prop :=
  Holding (· = some bytes) bytes version (· = version)

section OnBlock

variable {store : Cell → Option Buf} {id : BlockId} {bytes : Buf} {version : UInt32}
  {Q Q' : Purpose → Option Buf → Prop}

theorem OnBlock.mono (h : OnBlock store id Q)
    (hQ : ∀ purpose value, Q purpose value → Q' purpose value) : OnBlock store id Q' :=
  fun purpose ↦ hQ purpose _ (h purpose)

theorem OnBlock.put (h : OnBlock store id Q) (purpose : Purpose) (value : Option Buf)
    (hvalue : Q' purpose value)
    (hothers : ∀ purpose' value, purpose' ≠ purpose → Q purpose' value → Q' purpose' value) :
    OnBlock (Function.update store (cell id purpose) value) id Q' := by
  intro purpose'
  by_cases hp : purpose' = purpose
  · rw [hp, Function.update_self]
    exact hvalue
  · rw [Function.update_of_ne fun heq ↦ hp (cell_inj heq).2]
    exact hothers purpose' _ hp (h purpose')

theorem OnBlock.present (h : OnBlock store id (Settled bytes version))
    (hblock : store (cell id .block) ≠ none) : OnBlock store id (Present bytes version) := by
  intro purpose
  cases purpose with
  | block =>
    obtain ⟨block, hsome⟩ := Option.ne_none_iff_exists'.mp hblock
    have hbytes := (h .block).1
    rw [hsome, Option.getD_some] at hbytes
    exact hsome.trans (congrArg some hbytes)
  | replica => trivial
  | pendingVersion => exact h .pendingVersion
  | committedVersion => exact h .committedVersion
  | pendingData => exact h .pendingData

theorem OnBlock.settled (h : OnBlock store id (Committed bytes version)) :
    OnBlock store id (Settled bytes version) := by
  refine h.mono fun purpose value hvalue ↦ ?_
  cases purpose with
  | block => exact ⟨congrArg (Option.getD · []) hvalue, fun hnone ↦ nomatch hnone.symm.trans hvalue⟩
  | replica => trivial
  | pendingVersion => exact hvalue
  | committedVersion => exact hvalue.imp fun _ ↦ And.imp_right .inl
  | pendingData => exact hvalue

theorem onBlock_fresh (id : BlockId) : OnBlock (fun _ ↦ none) id (Settled [] 0) := by
  intro purpose
  cases purpose with
  | block => exact ⟨rfl, fun _ ↦ rfl⟩
  | replica => trivial
  | pendingVersion => exact .inl ⟨rfl, rfl⟩
  | committedVersion => exact ⟨0, .inl ⟨rfl, rfl⟩, .inl rfl⟩
  | pendingData => rfl

end OnBlock

/-! ## What does no harm

A change of the store is harmless to a block if it keeps whatever can be said of it with `Holding`,
provided that the block may hold the pending bytes and the committed version may be the pending one.
The executes that come early or twice are of this kind if what they put is pending; and so is
everything that is put for other blocks and for replicas. -/

/-- Whatever the first store holds for the block, the second one holds, if it allows for the entry
to be committed. -/
def Harmless (id : BlockId) (store store' : Cell → Option Buf) : Prop :=
  ∀ block data version committed, block (some data) → committed version →
    OnBlock store id (Holding block data version committed) →
    OnBlock store' id (Holding block data version committed)

theorem Harmless.refl (id : BlockId) (store : Cell → Option Buf) : Harmless id store store :=
  fun _ _ _ _ _ _ h ↦ h

theorem OnBlock.settled_of_harmless {id : BlockId} {bytes : Buf} {version : UInt32}
    {store store' : Cell → Option Buf} (h : OnBlock store id (Settled bytes version))
    (hstore : Harmless id store store') : OnBlock store' id (Settled bytes version) :=
  hstore _ _ _ _ ⟨rfl, fun h ↦ nomatch h⟩ (.inl rfl) h

theorem OnBlock.pending_of_harmless {id : BlockId} {bytes : Buf} {version : UInt32}
    {store store' : Cell → Option Buf} (h : OnBlock store id (Pending bytes version))
    (hstore : Harmless id store store') : OnBlock store' id (Pending bytes version) :=
  hstore _ _ _ _ (Option.some_ne_none _) trivial h

theorem harmless_of_ne {id : BlockId} {store : Cell → Option Buf} {key : Cell} {value : Option Buf}
    (hkey : ∀ purpose, purpose ≠ .replica → key ≠ cell id purpose) :
    Harmless id store (Function.update store key value) := by
  intro block data version committed _ _ h purpose
  by_cases hpurpose : purpose = .replica
  · rw [hpurpose]
    trivial
  · rw [Function.update_of_ne (hkey purpose hpurpose).symm]
    exact h purpose

/-- What is put to the block or to its committed version is what is pending. -/
def Fresh (store : Cell → Option Buf) (id : BlockId) (key : Cell) (value : Option Buf) : Prop :=
  (key = cell id .committedVersion →
    versionOf value = versionOf (store (cell id .pendingVersion))) ∧
  (key = cell id .block → value = some ((store (cell id .pendingData)).getD []))

instance (store : Cell → Option Buf) (id : BlockId) (key : Cell) (value : Option Buf) :
    Decidable (Fresh store id key value) :=
  inferInstanceAs (Decidable ((_ → _) ∧ (_ → _)))

section Fresh

variable {store : Cell → Option Buf} {id : BlockId}

private theorem harmless_put_committed {version : UInt32}
    (h : Fresh store id (cell id .committedVersion) (some (decimal version.toNat))) :
    Harmless id store
      (Function.update store (cell id .committedVersion) (some (decimal version.toNat))) := by
  intro block data pending committed _ hcommitted hstored
  have hversion : version = pending := by
    rw [← (reads_decimal version).versionOf, h.1 rfl]
    exact (hstored .pendingVersion).versionOf
  refine hstored.put .committedVersion _ ⟨version, reads_decimal version, hversion ▸ hcommitted⟩ ?_
  exact fun _ _ _ hvalue ↦ hvalue

private theorem harmless_put_block {value : Option Buf}
    (h : Fresh store id (cell id .block) value) :
    Harmless id store (Function.update store (cell id .block) value) := by
  intro block data pending committed hblock _ hstored
  have hvalue : value = some data := (h.2 rfl).trans (congrArg some (hstored .pendingData))
  exact hstored.put .block _ (hvalue ▸ hblock) fun _ _ _ hvalue ↦ hvalue

end Fresh

/-! ## An execute

It reads the pending bytes and their version, and puts first the version and then the bytes. Between
its accesses the prepare, or another execute, may go on; `Fresh` is asked at the two `Put`s, and
everywhere else an execute can be interrupted without loss. -/

/-- The handler of an execute by what it does next, with what it has read. -/
inductive ExecuteStage where
  | data
  | version (value : Buf)
  | committed (value : Buf) (version : UInt32)
  | block (value : Buf)
  | done

namespace ExecuteStage

/-- What is left of the handler. -/
def rest (pack : Packet) : ExecuteStage → Access Packet
  | data => startTwoPcCommitExecute pack
  | version value => do
    let pending ← getPendingPrepareVersion pack.header.asString
    putCommittedVersion pack.header.asString pending
    dbPut pack.header.asString value
    pure (Server.respond pack .twoPcCommitAck)
  | committed value pending => do
    putCommittedVersion pack.header.asString pending
    dbPut pack.header.asString value
    pure (Server.respond pack .twoPcCommitAck)
  | block value => do
    dbPut pack.header.asString value
    pure (Server.respond pack .twoPcCommitAck)
  | done => pure (Server.respond pack .twoPcCommitAck)

/-- What is stored for the block when a handler that has started after the entry was logged has come
this far. -/
def Landed (store : Cell → Option Buf) (id : BlockId) (bytes : Buf) (logged : UInt32) :
    ExecuteStage → Prop
  | data | version _ | committed _ _ => OnBlock store id (Pending bytes logged)
  | block _ => OnBlock store id (Dated bytes logged)
  | done => OnBlock store id (Committed bytes logged)

theorem Landed.of_harmless {stage : ExecuteStage} {store store' : Cell → Option Buf} {id : BlockId}
    {bytes : Buf} {logged : UInt32} (h : stage.Landed store id bytes logged)
    (hstore : Harmless id store store') : stage.Landed store' id bytes logged := by
  cases stage with
  | data | version | committed => exact hstore _ _ _ _ (Option.some_ne_none _) trivial h
  | block => exact hstore _ _ _ _ (Option.some_ne_none _) rfl h
  | done => exact hstore _ _ _ _ rfl rfl h

section

variable {pack : Packet} {stage : ExecuteStage} {store : Cell → Option Buf} {key : Cell}

private theorem rest_data : data.rest pack = .get (cell (blockId pack) .pendingData) fun value ↦
    (version (value.getD [])).rest pack := by
  refine congrArg (Program.get _) (funext fun value ↦ ?_)
  exact Program.bind_assoc (getPendingPrepareVersion pack.header.asString)
    (fun version ↦ putCommittedVersion pack.header.asString version >>= fun _ ↦
      dbPut pack.header.asString (value.getD [])) fun _ ↦ pure (Server.respond pack .twoPcCommitAck)

private theorem rest_committed (value : Buf) (version : UInt32) :
    (committed value version).rest pack
    = .put (cell (blockId pack) .committedVersion) (some (decimal version.toNat))
      ((block value).rest pack) := by
  rw [← cell_committedVersion]
  rfl

private theorem rest_block (value : Buf) : (block value).rest pack
    = .put (cell (blockId pack) .block) (some value) (done.rest pack) := by
  rw [← cell_block]
  rfl

theorem next_of_get {next : Option Buf → Access Packet} (h : stage.rest pack = .get key next)
    {version : UInt32} (hversion : Reads (store (cell (blockId pack) .pendingVersion)) version) :
    ∃ stage' : ExecuteStage, next (store key) = stage'.rest pack ∧
      ∀ bytes logged, stage.Landed store (blockId pack) bytes logged →
        stage'.Landed store (blockId pack) bytes logged := by
  cases stage with
  | data =>
    rw [rest_data, Program.get.injEq] at h
    exact ⟨.version _, (congrFun h.2 _).symm, fun _ _ h ↦ h⟩
  | version value =>
    have hkey : cell (blockId pack) .pendingVersion = key := (Program.get.inj h).1
    rw [← hkey] at h ⊢
    exact ⟨.committed value version, hversion.next h, fun _ _ h ↦ h⟩
  | committed | block | done => cases h

theorem exists_cell_of_put {value : Option Buf} {next : Access Packet}
    (h : stage.rest pack = .put key value next) : ∃ purpose, key = cell (blockId pack) purpose := by
  cases stage with
  | committed data version =>
    rw [rest_committed] at h
    exact ⟨_, (Program.put.inj h).1.symm⟩
  | block data =>
    rw [rest_block] at h
    exact ⟨_, (Program.put.inj h).1.symm⟩
  | data | version | done => cases h

theorem eq_done_of_reply {reply : Packet} (h : stage.rest pack = .done reply) : stage = done := by
  cases stage with
  | done => rfl
  | data | version | committed | block => cases h

theorem next_of_put {value : Option Buf} {next : Access Packet}
    (h : stage.rest pack = .put key value next) (hfresh : Fresh store (blockId pack) key value) :
    Harmless (blockId pack) store (Function.update store key value) ∧
      ∃ stage' : ExecuteStage, next = stage'.rest pack ∧
        ∀ bytes logged, stage.Landed store (blockId pack) bytes logged →
          stage'.Landed (Function.update store key value) (blockId pack) bytes logged := by
  cases stage with
  | committed data version =>
    obtain ⟨rfl, rfl, rfl⟩ := Program.put.inj ((rest_committed data version).symm.trans h)
    refine ⟨harmless_put_committed hfresh, .block data, rfl, fun bytes logged hlanded ↦ ?_⟩
    have hversion : version = logged := by
      rw [← (reads_decimal version).versionOf, hfresh.1 rfl]
      exact (hlanded .pendingVersion).versionOf
    refine OnBlock.put hlanded .committedVersion _ ⟨version, reads_decimal version, hversion⟩ ?_
    intro purpose value hpurpose hvalue
    cases purpose with
    | committedVersion => exact absurd rfl hpurpose
    | block | replica | pendingVersion | pendingData => exact hvalue
  | block data =>
    obtain ⟨rfl, rfl, rfl⟩ := Program.put.inj ((rest_block data).symm.trans h)
    refine ⟨harmless_put_block hfresh, .done, rfl, fun bytes logged hlanded ↦ ?_⟩
    have hbytes : some data = some bytes :=
      (hfresh.2 rfl).trans (congrArg some (hlanded .pendingData))
    refine OnBlock.put hlanded .block _ hbytes fun purpose value hpurpose hvalue ↦ ?_
    cases purpose with
    | block => exact absurd rfl hpurpose
    | replica | pendingVersion | committedVersion | pendingData => exact hvalue
  | data | version | done => cases h

end

end ExecuteStage

/-! ## A prepare

Up to its first `Put` of the entry the handler only looks, and makes the block if there is none.
What it reads on the way is what the block holds, and it finds nothing pending; so a full prepare
agrees as a quick one does. The pending entry is then changed in two steps, and only this handler
changes it. -/

/-- The value is allowed where the cell is one of the block. -/
def AtBlock (id : BlockId) (Q : Purpose → Option Buf → Prop) (key : Cell) (value : Option Buf) :
    Prop :=
  ∀ purpose, key = cell id purpose → Q purpose value

private theorem atBlock_cell {id : BlockId} {Q : Purpose → Option Buf → Prop} {purpose : Purpose}
    {value : Option Buf} : AtBlock id Q (cell id purpose) value ↔ Q purpose value :=
  ⟨fun h ↦ h purpose rfl, fun h _ heq ↦ (cell_inj heq).2 ▸ h⟩

private theorem OnBlock.atBlock {store : Cell → Option Buf} {id : BlockId}
    {Q : Purpose → Option Buf → Prop} (h : OnBlock store id Q) (key : Cell) :
    AtBlock id Q key (store key) := by
  rintro purpose rfl
  exact h purpose

theorem OnBlock.update {store : Cell → Option Buf} {id : BlockId} {Q : Purpose → Option Buf → Prop}
    (h : OnBlock store id Q) {key : Cell} {value : Option Buf} (hvalue : AtBlock id Q key value) :
    OnBlock (Function.update store key value) id Q := by
  intro purpose
  by_cases hkey : cell id purpose = key
  · rw [hkey, Function.update_self]
    exact hvalue purpose hkey.symm
  · rw [Function.update_of_ne hkey]
    exact h purpose

private theorem keeps_readVersion_of_reads {key : Buf} {Q : Cell → Option Buf → Prop}
    {R : UInt32 → Prop}
    (hQ : ∀ value, Q (.dbLog (key ++ ascii "-version")) value → ∃ version, Reads value version ∧
      R version) :
    (readVersion key).Keeps Q R := by
  intro value hvalue
  obtain ⟨version, hreads, hversion⟩ := hQ value hvalue
  have hnext := hreads.next (Program.bind_done (readVersion key))
  dsimp only at hnext ⊢
  rw [hnext]
  exact hversion

section Prepare

variable {pack : Packet} {bytes : Buf} {version : UInt32} {store : Cell → Option Buf}

private theorem havePendingLog_of_present (id : BlockId) :
    (havePendingLog (blockKey id)).Keeps (AtBlock id (Present bytes version)) (· = false) := by
  have hpending : (getPendingPrepareVersion (blockKey id)).Keeps
      (AtBlock id (Present bytes version)) (· = version) :=
    keeps_readVersion_of_reads fun value hvalue ↦ ⟨version, hvalue .pendingVersion rfl, rfl⟩
  have hcommitted : (getCommittedVersion (blockKey id)).Keeps
      (AtBlock id (Present bytes version)) (fun committed ↦ committed = version ∨ version = 0) :=
    keeps_readVersion_of_reads fun value hvalue ↦
      hvalue .committedVersion (cell_committedVersion id)
  refine Program.keeps_bind hpending ?_
  rintro _ rfl
  refine Program.keeps_bind hcommitted fun committed h ↦ ?_
  split
  · exact rfl
  · rename_i hne
    refine Program.keeps_bind hpending ?_
    rintro _ rfl
    rcases h with rfl | rfl
    · exact absurd (beq_self_eq_true _) hne
    · exact rfl

/-- What is left of the handler of a prepare when it has put its entry. -/
def report (pack : Packet) : Access Packet := do
  let _ ← getCommittedVersion pack.header.asString
  pure (Server.respond pack .twoPcPrepareAgree)

/-- What is left of the handler when it comes to put its entry over the old bytes. -/
def logging (pack : Packet) (old : Buf) : Access Packet := do
  putPendingPrepare pack.header.asString (Server.overlayBlock old pack) pack.header.version
  report pack

private theorem exists_looking (htype : IsPrepare pack) :
    ∃ looking : Access Packet,
      (∀ stray, handle stray pack = bindOrCreate pack.header.asString >>= fun _ ↦ looking) ∧
      ∀ bytes version, looking.Until (AtBlock (blockId pack) (Present bytes version))
        (· = logging pack bytes) := by
  have hbind : ∀ bytes version, (dbGet pack.header.asString).Keeps
      (AtBlock (blockId pack) (Present bytes version)) (· = some bytes) :=
    fun bytes version value hvalue ↦ hvalue .block (cell_block (blockId pack))
  rcases htype with htype | htype
  · refine ⟨_, fun stray ↦ by simp only [handle, htype]; rfl, fun bytes version ↦ ?_⟩
    refine Program.until_bind (hbind bytes version) ?_
    rintro _ rfl
    refine Program.until_bind (havePendingLog_of_present (blockId pack)) ?_
    rintro _ rfl
    exact Program.until_of_self rfl
  · refine ⟨_, fun stray ↦ by simp only [handle, htype]; rfl, fun bytes version ↦ ?_⟩
    refine Program.until_bind (hbind bytes version) ?_
    rintro _ rfl
    exact Program.until_of_self rfl

/-- How far the handler of a prepare has come, with what is stored for its block: what the block
held before, and the version that it had then. -/
inductive Prepare (pack : Packet) (old : Buf) (version : UInt32) (store : Cell → Option Buf) :
    Access Packet → Prop where
  | opening {looking : Access Packet} (hstored : OnBlock store (blockId pack) (Settled old version))
    (hlooking : ∀ bytes version, looking.Until (AtBlock (blockId pack) (Present bytes version))
      (· = logging pack bytes)) :
    Prepare pack old version store (bindOrCreate pack.header.asString >>= fun _ ↦ looking)
  | creating {looking : Access Packet} (hold : old = []) (hversion : version = 0)
    (hstored : OnBlock store (blockId pack) (Settled old version))
    (hlooking : ∀ bytes version, looking.Until (AtBlock (blockId pack) (Present bytes version))
      (· = logging pack bytes)) :
    Prepare pack old version store (do
      dbPut pack.header.asString []
      putCommittedVersion pack.header.asString 0
      putPendingPrepare pack.header.asString [] 0
      looking)
  | looking {rest : Access Packet} (hstored : OnBlock store (blockId pack) (Present old version))
    (hrest : rest.Until (AtBlock (blockId pack) (Present old version)) (· = logging pack old)) :
    Prepare pack old version store rest
  | versioned
    (hstored : OnBlock store (blockId pack) (Versioned old pack.header.version)) :
    Prepare pack old version store (do
      putData pack.header.asString (Server.overlayBlock old pack)
      report pack)
  | reporting (hstored : OnBlock store (blockId pack)
      (Pending (Server.overlayBlock old pack) pack.header.version)) :
    Prepare pack old version store (report pack)
  | agreed (hstored : OnBlock store (blockId pack)
      (Pending (Server.overlayBlock old pack) pack.header.version)) :
    Prepare pack old version store (.done (Server.respond pack .twoPcPrepareAgree))

namespace Prepare

variable {old : Buf} {key : Cell} {rest : Access Packet}

theorem start (htype : IsPrepare pack)
    (hstored : OnBlock store (blockId pack) (Settled old version)) (stray : ℕ → UInt8) :
    Prepare pack old version store (handle stray pack) := by
  obtain ⟨looking, hhandle, hlooking⟩ := exists_looking htype
  rw [hhandle]
  exact .opening hstored hlooking

theorem of_harmless {store' : Cell → Option Buf} (h : Prepare pack old version store rest)
    (hstore : Harmless (blockId pack) store store') : Prepare pack old version store' rest := by
  cases h with
  | opening hstored hlooking =>
    exact .opening (hstored.settled_of_harmless hstore) hlooking
  | creating hold hversion hstored hlooking =>
    exact .creating hold hversion (hstored.settled_of_harmless hstore)
      hlooking
  | looking hstored hrest => exact .looking (hstore _ _ _ _ rfl (.inl rfl) hstored) hrest
  | versioned hstored => exact .versioned (hstore _ _ _ _ rfl trivial hstored)
  | reporting hstored => exact .reporting (hstored.pending_of_harmless hstore)
  | agreed hstored => exact .agreed (hstored.pending_of_harmless hstore)

theorem exists_reads (h : Prepare pack old version store rest) :
    ∃ pending, Reads (store (cell (blockId pack) .pendingVersion)) pending := by
  cases h with
  | opening hstored | creating _ _ hstored | looking hstored | versioned hstored
  | reporting hstored | agreed hstored => exact ⟨_, hstored .pendingVersion⟩

theorem next_of_get {next : Option Buf → Access Packet}
    (h : Prepare pack old version store (.get key next)) :
    Prepare pack old version store (next (store key)) := by
  generalize hrest : Program.get key next = rest at h
  cases h with
  | opening hstored hlooking =>
    obtain ⟨rfl, rfl⟩ := Program.get.inj hrest
    have hcell : store (.db pack.header.asString) = store (cell (blockId pack) .block) := by
      rw [← cell_block, asString_eq]
    dsimp only
    cases hblock : store (.db pack.header.asString) with
    | some block =>
      have hpresent : store (cell (blockId pack) .block) ≠ none := by
        rw [← hcell, hblock]
        exact Option.some_ne_none _
      exact .looking (hstored.present hpresent) (hlooking old version)
    | none =>
      obtain ⟨hold, hversion⟩ := hstored .block
      rw [← hcell, hblock] at hold hversion
      exact .creating hold.symm (hversion rfl) hstored hlooking
  | looking hstored hlooking =>
    rw [← hrest] at hlooking
    rcases hlooking with heq | hnext
    · cases heq
    · exact .looking hstored (hnext _ (hstored.atBlock key))
  | reporting hstored =>
    obtain ⟨committed, hreads, -⟩ := hstored .committedVersion
    rw [report, asString_eq] at hrest
    have hkey := (Program.get.inj hrest).1
    rw [← cell_committedVersion, ← hkey] at hreads
    rw [hkey] at hrest hreads ⊢
    rw [hreads.next hrest.symm]
    exact .agreed hstored
  | creating | versioned | agreed => cases hrest

theorem next_of_put {value : Option Buf} {next : Access Packet}
    (h : Prepare pack old version store (.put key value next)) :
    Prepare pack old version (Function.update store key value) next := by
  generalize hrest : Program.put key value next = rest at h
  cases h with
  | creating hold hversion hstored hlooking =>
    obtain ⟨rfl, rfl, rfl⟩ := Program.put.inj hrest
    subst hold hversion
    refine .looking ?_ ?_
    · rw [asString_eq, cell_block]
      refine hstored.put .block _ rfl fun purpose value hpurpose hvalue ↦ ?_
      cases purpose with
      | block => exact absurd rfl hpurpose
      | replica | pendingVersion | committedVersion | pendingData => exact hvalue
    · refine Program.until_bind (p := putCommittedVersion pack.header.asString 0)
        (R := fun _ ↦ True) ⟨?_, trivial⟩ fun _ _ ↦ ?_
      · rw [asString_eq, cell_committedVersion, atBlock_cell]
        exact ⟨0, reads_decimal 0, .inr rfl⟩
      refine Program.until_bind (R := fun _ ↦ True) ⟨?_, ?_, trivial⟩ fun _ _ ↦ hlooking [] 0
      · rw [asString_eq, cell_pendingVersion, atBlock_cell]
        exact reads_decimal 0
      · rw [asString_eq, cell_pendingData, atBlock_cell]
        rfl
  | looking hstored hlooking =>
    rw [← hrest] at hlooking
    rcases hlooking with heq | ⟨hvalue, hnext⟩
    · obtain ⟨rfl, rfl, rfl⟩ := Program.put.inj heq
      refine .versioned ?_
      rw [asString_eq, cell_pendingVersion]
      refine hstored.put .pendingVersion _ (reads_decimal _) fun purpose value hpurpose hvalue ↦ ?_
      cases purpose with
      | pendingVersion => exact absurd rfl hpurpose
      | committedVersion => exact hvalue.imp fun _ ↦ And.imp_right fun _ ↦ trivial
      | block | replica | pendingData => exact hvalue
    · exact .looking (hstored.update hvalue) hnext
  | versioned hstored =>
    obtain ⟨rfl, rfl, rfl⟩ := Program.put.inj hrest
    refine .reporting ?_
    rw [asString_eq, cell_pendingData]
    refine hstored.put .pendingData _ rfl fun purpose value hpurpose hvalue ↦ ?_
    cases purpose with
    | block => exact fun hnone ↦ nomatch hnone.symm.trans hvalue
    | pendingData => exact absurd rfl hpurpose
    | replica | pendingVersion | committedVersion => exact hvalue
  | opening | reporting | agreed => cases hrest

theorem reply {result : Packet} (h : Prepare pack old version store (.done result)) :
    result = Server.respond pack .twoPcPrepareAgree ∧ OnBlock store (blockId pack)
      (Pending (Server.overlayBlock old pack) pack.header.version) := by
  generalize hrest : Program.done result = rest at h
  cases h with
  | looking hstored hlooking =>
    rw [← hrest] at hlooking
    cases hlooking
  | agreed hstored => exact ⟨Program.done.inj hrest, hstored⟩
  | opening | creating | versioned | reporting => cases hrest

end Prepare

end Prepare

end Access

end Slsfs.Ssbd

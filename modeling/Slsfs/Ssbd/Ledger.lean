import Slsfs.Ssbd.Block

/-!
# Whose entry a block holds

The log of a block has one pending entry and `two_pc_commit_execute` commits whatever entry it
finds. A `Ledger` keeps what the server does not: which prepare wrote the pending entry, and which
prepares have been committed, in order. As long as every execute finds the entry of its own write,
or an entry equal to the committed block, the block is what one gets by applying the executed
writes in order. That is `Ledger.Inv`, and `Ledger.inv_handle` is its step.

Prepares are named by an arbitrary type.
-/

namespace Slsfs.Ssbd

open LeveldbPack

variable {ω : Type*} [DecidableEq ω]

/-- A prepare that was agreed to: who sent it, and what it lays over the block. -/
structure Entry (ω : Type*) where
  writer : ω
  patch : Patch UInt8

structure Ledger (ω : Type*) where
  /-- The prepare that wrote the pending entry, unless it has been rolled back. -/
  owner : Option (Entry ω)
  /-- The prepares that have been executed, newest first. -/
  executed : List (Entry ω)

/-- What a packet lays over a block. -/
def patchOf (pack : Packet) : Patch UInt8 := ⟨pack.header.position.toNat, pack.data⟩

/-- The header says how much data there is, and it fits a block. -/
def Sized (pack : Packet) : Prop :=
  pack.header.datasize.toNat = pack.data.length ∧ pack.data.length ≤ 2 ^ 16

theorem overlayBlock_eq {pack : Packet} (h : Sized pack) (old : Buf) :
    Server.overlayBlock old pack = overlay 0 old (patchOf pack).pos (patchOf pack).data := by
  have hpos := pack.header.position.toNat_lt
  have hsum : (pack.header.position.toNat + pack.data.length) % 2 ^ 32
      = pack.header.position.toNat + pack.data.length :=
    Nat.mod_eq_of_lt (by have := h.2; omega)
  rw [Server.overlayBlock, h.1, hsum]
  rfl

/-- The pending entry is the committed block itself. -/
def Block.Settled (blk : Block) : Prop := blk.pendingData = blk.content.getD []

instance (blk : Block) : Decidable blk.Settled :=
  inferInstanceAs (Decidable (blk.pendingData = blk.content.getD []))

namespace Ledger

def empty : Ledger ω := ⟨none, []⟩

/-- The writers of the executed prepares. -/
def writers (L : Ledger ω) : List ω := L.executed.map Entry.writer

/-- The pending entry was logged by `writer`. -/
def Owns (L : Ledger ω) (writer : ω) : Prop := ∃ e, L.owner = some e ∧ e.writer = writer

instance (L : Ledger ω) (writer : ω) : Decidable (L.Owns writer) :=
  match h : L.owner with
  | none => .isFalse fun ⟨_, he, _⟩ ↦ by rw [h] at he; cases he
  | some e =>
    if hw : e.writer = writer then .isTrue ⟨e, h, hw⟩
    else .isFalse fun ⟨_, he, hw'⟩ ↦ hw (by rw [h, Option.some_inj] at he; rw [he, hw'])

/-- The ledger after a packet of `writer` has been handled with an answer of some type. -/
def record (L : Ledger ω) (writer : ω) (pack : Packet) (type : MsgT) : Ledger ω :=
  match pack.header.type with
  | .twoPcPrepare | .twoPcPrepareQuick =>
    if type = .twoPcPrepareAgree then { L with owner := some ⟨writer, patchOf pack⟩ } else L
  | .twoPcCommitExecute =>
    match L.owner with
    | some e =>
      if e.writer = writer ∧ writer ∉ L.writers then { L with executed := e :: L.executed } else L
    | none => L
  | .twoPcCommitRollback => { L with owner := none }
  | _ => L

/-- The block is the executed writes applied to `base`, and the pending entry is either that block,
if its write has been executed, or that block with the write of its owner laid over it. -/
structure Inv (base : Buf) (blk : Block) (L : Ledger ω) : Prop where
  content : blk.content.getD [] = replay 0 base (L.executed.map Entry.patch)
  entry : ∀ e, L.owner = some e → blk.content ≠ none ∧ blk.pendingData =
    if e.writer ∈ L.writers then blk.content.getD []
    else overlay 0 (blk.content.getD []) e.patch.pos e.patch.data

theorem inv_empty (blk : Block) : Inv (blk.content.getD []) blk (empty : Ledger ω) :=
  ⟨rfl, fun _ h ↦ nomatch h⟩

/-! ## One message

A prepare that is agreed to makes its sender the owner of the entry. An execute commits the entry,
and if the owner has sent it, the ledger has one more executed prepare; otherwise the entry has to
be equal to the block. A rollback, a refused prepare, a read and a copy change nothing of the
committed block. -/

variable {base : Buf} {blk : Block} {L : Ledger ω}

private theorem inv_record (hinv : Inv base blk L) {writer : ω} {pack : Packet}
    (hfresh : writer ∉ L.writers) (hsized : Sized pack) :
    Inv base (blk.create.record pack) { L with owner := some ⟨writer, patchOf pack⟩ } := by
  refine ⟨?_, fun e he ↦ ?_⟩
  · rw [Block.record, Block.create_content, Option.getD_some]
    exact hinv.content
  · cases he
    refine ⟨by rw [Block.record, Block.create_content]; exact Option.some_ne_none _, ?_⟩
    have hpending : (blk.create.record pack).pendingData
        = overlay 0 (blk.content.getD []) (patchOf pack).pos (patchOf pack).data := by
      rw [Block.record, Block.create_content, Option.getD_some, overlayBlock_eq hsized]
    rw [hpending, Block.record, Block.create_content, Option.getD_some]
    exact (if_neg hfresh).symm

private theorem inv_execute (hinv : Inv base blk L) {writer : ω} {e : Entry ω}
    (he : L.owner = some e) (hw : e.writer = writer) :
    Inv base blk.execute (if e.writer = writer ∧ writer ∉ L.writers then
      ⟨some e, e :: L.executed⟩ else L) := by
  obtain ⟨-, hpending⟩ := hinv.entry e he
  by_cases hdone : writer ∈ L.writers
  · -- the entry has been committed before
    rw [hw, if_pos hdone] at hpending
    rw [if_neg (by tauto)]
    refine ⟨?_, fun e' he' ↦ ⟨Option.some_ne_none _, ?_⟩⟩
    · rw [Block.execute, hpending, Option.getD_some]
      exact hinv.content
    · rw [he, Option.some_inj] at he'
      rw [← he', hw, if_pos hdone]
      rfl
  · rw [hw, if_neg hdone] at hpending
    rw [if_pos ⟨hw, hdone⟩]
    refine ⟨?_, fun e' he' ↦ ⟨Option.some_ne_none _, ?_⟩⟩
    · rw [Block.execute, Option.getD_some, hpending, hinv.content]
      rfl
    · cases he'
      rw [if_pos (by simp [writers])]
      rfl

/-- An execute of an entry equal to the committed block changes no byte. -/
private theorem inv_execute_settled (hinv : Inv base blk L) (hsettled : blk.Settled) :
    Inv base blk.execute L := by
  have hsame : blk.execute.content.getD [] = blk.content.getD [] := hsettled
  refine ⟨by rw [hsame]; exact hinv.content, fun e he ↦ ⟨Option.some_ne_none _, ?_⟩⟩
  rw [hsame]
  exact (hinv.entry e he).2

/-- **One message keeps the ledger right**, if a prepare is the first of its writer and an execute
finds the entry of its own write or nothing to do. -/
theorem inv_handle (hinv : Inv base blk L) {writer : ω} {pack : Packet} {type : MsgT}
    (hprepare : pack.header.type = .twoPcPrepare ∨ pack.header.type = .twoPcPrepareQuick →
      writer ∉ L.writers ∧ Sized pack ∧
      type = if pack.header.type = .twoPcPrepare ∧ blk.create.havePending
        then .twoPcPrepareAbort else .twoPcPrepareAgree)
    (hexecute : pack.header.type = .twoPcCommitExecute → L.Owns writer ∨ blk.Settled) :
    Inv base (blk.handle pack) (L.record writer pack type) := by
  cases htype : pack.header.type with
  | twoPcPrepare =>
    obtain ⟨hfresh, hsized, hvote⟩ := hprepare (Or.inl htype)
    simp only [htype, true_and] at hvote
    simp only [Block.handle, record, htype, Block.prepare]
    by_cases hpending : blk.create.havePending = true
    · rw [if_pos hpending] at hvote ⊢
      rw [hvote, if_neg (by simp), Block.create_of_havePending hpending]
      exact hinv
    · rw [if_neg hpending] at hvote ⊢
      rw [if_pos hvote]
      exact inv_record hinv hfresh hsized
  | twoPcPrepareQuick =>
    obtain ⟨hfresh, hsized, hvote⟩ := hprepare (Or.inr htype)
    simp only [htype, reduceCtorEq, false_and, if_false] at hvote
    simp only [Block.handle, record, htype, Block.prepareQuick, if_pos hvote]
    exact inv_record hinv hfresh hsized
  | twoPcCommitExecute =>
    simp only [Block.handle, record, htype]
    by_cases howns : L.Owns writer
    · obtain ⟨e, he, hw⟩ := howns
      simp only [he]
      exact inv_execute hinv he hw
    · have hkeep := inv_execute_settled hinv ((hexecute htype).resolve_left howns)
      cases he : L.owner with
      | none => exact hkeep
      | some e =>
        dsimp only
        rw [if_neg fun h ↦ howns ⟨e, he, h.1⟩]
        exact hkeep
  | twoPcCommitRollback =>
    simp only [Block.handle, record, htype]
    exact ⟨hinv.content, fun _ h ↦ absurd h (Option.some_ne_none _).symm⟩
  | err | ack | get | twoPcPrepareAgree | twoPcPrepareAbort | twoPcCommitAck | replication =>
    simp only [Block.handle, record, htype]
    exact hinv

/-! ## What the ledger gains

The list of the executed prepares only grows, at its front. `NotOlder` says that one of them has
been executed no earlier than another, and the byte at a covered position is that of one that is not
older than any that covers it. -/

/-- `a` has been executed, and not before `b`. -/
def NotOlder (L : Ledger ω) (a b : ω) : Prop :=
  ∃ newer older, L.writers = newer ++ a :: older ∧ (b = a ∨ b ∈ older)

private theorem writers_record (L : Ledger ω) (writer : ω) (pack : Packet) (type : MsgT) :
    (L.record writer pack type).writers = L.writers ∨
      (pack.header.type = .twoPcCommitExecute ∧ L.Owns writer ∧ writer ∉ L.writers ∧
        (L.record writer pack type).writers = writer :: L.writers) := by
  cases htype : pack.header.type with
  | twoPcCommitExecute =>
    cases howner : L.owner with
    | none => exact Or.inl (by simp only [record, htype, howner])
    | some e =>
      by_cases hnew : e.writer = writer ∧ writer ∉ L.writers
      · refine Or.inr ⟨rfl, ⟨e, howner, hnew.1⟩, hnew.2, ?_⟩
        simp only [record, htype, howner, if_pos hnew]
        simp [writers, hnew.1]
      · exact Or.inl (by simp only [record, htype, howner, if_neg hnew])
  | twoPcPrepare | twoPcPrepareQuick =>
    refine Or.inl ?_
    simp only [record, htype]
    split <;> rfl
  | twoPcCommitRollback | err | ack | get | twoPcPrepareAgree | twoPcPrepareAbort | twoPcCommitAck
  | replication => exact Or.inl (by simp only [record, htype, writers])

theorem owner_record_execute {L : Ledger ω} {writer : ω} {pack : Packet} {type : MsgT}
    (htype : pack.header.type = .twoPcCommitExecute) :
    (L.record writer pack type).owner = L.owner := by
  cases howner : L.owner with
  | none => simp only [record, htype, howner]
  | some e =>
    simp only [record, htype, howner]
    split
    · rfl
    · exact howner

theorem record_agree {L : Ledger ω} {writer : ω} {pack : Packet} {type : MsgT}
    (hprepare : pack.header.type = .twoPcPrepare ∨ pack.header.type = .twoPcPrepareQuick)
    (htype : type = .twoPcPrepareAgree) :
    L.record writer pack type = { L with owner := some ⟨writer, patchOf pack⟩ } := by
  rcases hprepare with hprepare | hprepare <;> simp only [record, hprepare, if_pos htype]

theorem mem_writers_record_of_owns {L : Ledger ω} {writer : ω} {pack : Packet} (type : MsgT)
    (htype : pack.header.type = .twoPcCommitExecute) (h : L.Owns writer) :
    writer ∈ (L.record writer pack type).writers := by
  obtain ⟨e, he, hw⟩ := h
  simp only [record, htype, he]
  by_cases hmem : writer ∈ L.writers
  · rw [if_neg (by tauto)]
    exact hmem
  · rw [if_pos ⟨hw, hmem⟩]
    simp [writers, hw]

theorem mem_writers_record {L : Ledger ω} {a writer : ω} {pack : Packet} {type : MsgT}
    (h : a ∈ L.writers) : a ∈ (L.record writer pack type).writers := by
  rcases writers_record L writer pack type with heq | ⟨-, -, -, heq⟩
  · rwa [heq]
  · rw [heq]
    exact List.mem_cons_of_mem _ h

theorem NotOlder.record {L : Ledger ω} {a b writer : ω} {pack : Packet} {type : MsgT}
    (h : L.NotOlder a b) : (L.record writer pack type).NotOlder a b := by
  obtain ⟨newer, older, heq, hb⟩ := h
  rcases writers_record L writer pack type with hsame | ⟨-, -, -, hcons⟩
  · exact ⟨newer, older, hsame.trans heq, hb⟩
  · exact ⟨writer :: newer, older, by rw [hcons, heq, List.cons_append], hb⟩

omit [DecidableEq ω] in
/-- A position that an executed prepare covers holds the byte of that prepare or of a newer one. -/
theorem getElem?_replay_of_mem (base : Buf) {entries : List (Entry ω)} {e : Entry ω} {x : ℕ}
    (he : e ∈ entries) (hx : e.patch.covers x = true) :
    ∃ newer e' older, entries = newer ++ e' :: older ∧ (e = e' ∨ e ∈ older) ∧
      e'.patch.covers x = true ∧
      (replay 0 base (entries.map Entry.patch))[x]? = e'.patch.data[x - e'.patch.pos]? := by
  have hsome : (entries.find? fun e ↦ e.patch.covers x).isSome = true := by
    rw [List.find?_isSome]
    exact ⟨e, he, hx⟩
  obtain ⟨e', he'⟩ := Option.isSome_iff_exists.mp hsome
  obtain ⟨hcov, newer, older, heq, hnewer⟩ := List.find?_eq_some_iff_append.mp he'
  refine ⟨newer, e', older, heq, ?_, hcov, getElem?_replay 0 base ?_⟩
  · rw [heq] at he
    rcases List.mem_append.mp he with hmem | hmem
    · have := hnewer e hmem
      rw [hx] at this
      cases this
    · exact List.mem_cons.mp hmem
  · rw [List.find?_map]
    simp only [Function.comp_def, he', Option.map_some]

end Ledger

end Slsfs.Ssbd

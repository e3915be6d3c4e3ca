import Slsfs.Datafunction.Delivery

/-!
# The ledgers of the blocks

The log of the handlers determines, for every block, which write owns the pending entry and which
writes have been executed. As long as no execute commits the entry of somebody else, `Traced` holds:
every primary block is its contents at the start with the executed writes applied in order.
`traced_step` is the step of that invariant; the protocol results differ in how they come to know
that executes are harmless.

A ledger entry is a write and a block number of it, with the slice as a `Patch`. So two runs that
execute the same writes in the same order leave the same bytes, and a byte of a block is that of the
newest entry that covers it (`getElem?_replay`).
-/

namespace Slsfs.Datafunction

open LeveldbPack Ssbd

variable {cfg : Config}

namespace Cluster

variable {s s' : Cluster} {base : BlockId → Buf}

/-- The ledger of a block. A prepare is named by its write and the index of the block in it. -/
def ledger (b : BlockId) : List Handled → Ledger (ℕ × ℕ)
  | [] => Ledger.empty
  | h :: log =>
    if blockId h.pack = b then
      match h.ticket with
      | .write w (.vote j) | .write w (.commit _ j) => (ledger b log).record (w, j) h.pack h.type
      | _ => ledger b log
    else ledger b log

/-- A step in which no server handles a prepare or a commit changes no block and no ledger. -/
theorem ledger_step (hinv : s.Inv cfg) {e : Event} (h : step cfg s e = some s')
    (hvote : ∀ w j stray, e ≠ .handle (.write w (.vote j)) stray)
    (hcommit : ∀ w k j stray, e ≠ .handle (.write w (.commit k j)) stray) (b : BlockId) :
    ledger b s'.log = ledger b s.log := by
  cases e with
  | startWrite | startRead =>
    rw [step, Option.some_inj] at h
    subst h
    rfl
  | sendPrepare => obtain ⟨_, _, _, _, _, _, _, h, -⟩ := step_sendPrepare h; rw [h]
  | sendGet => obtain ⟨_, _, _, _, _, _, _, h, -⟩ := step_sendGet h; rw [h]
  | writeError => obtain ⟨_, _, _, _, _, h, -⟩ := step_writeError h; rw [h]
  | callback => obtain ⟨_, _, _, _, _, h, -⟩ := step_callback h; rw [h]
  | handle t stray =>
    cases t with
    | read r j =>
      obtain ⟨_, _, _, _, _, _, _, _, _, _, _, ⟨_, h⟩, -⟩ := handle_get hinv h
      rw [h, ledger]
      split <;> rfl
    | write w t =>
      cases t with
      | vote j => exact absurd rfl (hvote w j stray)
      | commit k j => exact absurd rfl (hcommit w k j stray)
      | replica k j r =>
        obtain ⟨_, _, _, _, _, _, _, _, _, _, _, _, _, _, _, _, h⟩ := handle_replica hinv h
        rw [h, ledger]
        split <;> rfl

theorem ledger_handles {w : ℕ} {t : WriteTicket} {job : Job} {c : Chunk}
    {arrived received : Packet} (h : Handles cfg s s' w t job c arrived received)
    (ht : t.isReplica = false) (b : BlockId) :
    ledger b s'.log =
      if b = blockId arrived then
        (ledger b s.log).record (w, t.block) arrived received.header.type
      else ledger b s.log := by
  rw [h.log, ledger]
  by_cases hb : b = blockId arrived
  · rw [if_pos hb.symm, if_pos hb]
    cases t with
    | vote j => rfl
    | commit k j => rfl
    | replica => cases ht
  · rw [if_neg (Ne.symm hb), if_neg hb]

/-- An entry of a ledger comes from a prepare that was handled. -/
def Origin (cfg : Config) (s : Cluster) (b : BlockId) (e : Entry (ℕ × ℕ)) : Prop :=
  ∃ job c, s.writes e.writer.1 = some job ∧ (job.chunks cfg)[e.writer.2]? = some c ∧
    c.blockOf job.write.input.uuid = b ∧ e.patch = ⟨c.offset, job.write.input.slice c⟩ ∧
    (job.life (.vote e.writer.2)).handled = true

theorem Origin.step (hinv : s.Inv cfg) {ev : Event} (h : step cfg s ev = some s') {b : BlockId}
    {e : Entry (ℕ × ℕ)} (ho : Origin cfg s b e) : Origin cfg s' b e := by
  obtain ⟨job, c, hw, hc, hb, hpatch, hhandled⟩ := ho
  obtain ⟨job', hw', hle⟩ := write_le hinv h hw
  refine ⟨job', c, hw', ?_, ?_, ?_, hle.handled _ rfl hhandled⟩
  · rwa [Job.chunks, hle.input]
  · rwa [hle.input]
  · rwa [hle.input]

/-- The blocks are what the ledgers say. -/
structure Traced (cfg : Config) (base : BlockId → Buf) (s : Cluster) : Prop where
  inv : s.Inv cfg
  ledger : ∀ b, Ledger.Inv (base b) (s.primary cfg b) (ledger b s.log)
  origin : ∀ b e, (Cluster.ledger b s.log).owner = some e ∨ e ∈ (Cluster.ledger b s.log).executed →
    Origin cfg s b e

/-- An execute of block `j` of write `w` would find the entry of that write, or nothing to do. -/
def Harmless (cfg : Config) (s : Cluster) (w k j : ℕ) : Prop :=
  ∀ job c call, s.writes w = some job → (job.chunks cfg)[j]? = some c →
    job.write.commits[k]? = some call → call.allSsbdAgree = true →
    (ledger (c.blockOf job.write.input.uuid) s.log).Owns (w, j) ∨
      (s.primary cfg (c.blockOf job.write.input.uuid)).Settled

theorem traced_init (server : ℕ → Server) (checked : ℕ → Key → Bool) :
    Traced cfg (fun b ↦ ((init server checked).primary cfg b).content.getD [])
      (init server checked) where
  inv := inv_init server checked
  ledger b := Ledger.inv_empty _
  origin b e h := by
    rcases h with h | h <;> cases h

private theorem Traced.vote_handled (ht : Traced cfg base s) {b : BlockId} {w j : ℕ}
    (h : (w, j) ∈ (Cluster.ledger b s.log).writers) {job : Job} (hw : s.writes w = some job) :
    (job.life (.vote j)).handled = true := by
  obtain ⟨e, he, heq⟩ := List.mem_map.mp h
  obtain ⟨job', c, hw', -, -, -, hhandled⟩ := ht.origin b e (Or.inr he)
  rw [heq] at hw' hhandled
  rw [hw, Option.some_inj] at hw'
  rwa [hw']

private theorem traced_vote (ht : Traced cfg base s) {w j : ℕ} {stray : ℕ → UInt8}
    (h : step cfg s (.handle (.write w (.vote j)) stray) = some s') : Traced cfg base s' := by
  obtain ⟨job, c, arrived, received, hh, htype, hpatch, hsized, hvote⟩ := handle_vote ht.inv h
  have hinv' := inv_step s _ s' h ht.inv
  have hnew : s'.writes w = some (job.answer (.vote j) received) := by
    rw [hh.writes, Function.update_self]
  refine ⟨hinv', fun b ↦ ?_, fun b e he ↦ ?_⟩
  · rw [ledger_handles hh rfl, hh.blocks]
    by_cases hb : b = blockId arrived
    · subst hb
      rw [if_pos rfl, Function.update_self]
      refine Ledger.inv_handle (ht.ledger _) (fun _ ↦ ⟨fun hmem ↦ ?_, hsized, hvote⟩)
        fun hexec ↦ ?_
      · have hhandled := ht.vote_handled hmem hh.found
        obtain ⟨pack, hpack⟩ := hh.requested
        rw [WriteTicket.block, hpack] at hhandled
        cases hhandled
      · rcases htype with htype | htype <;> rw [htype] at hexec <;> cases hexec
    · rw [if_neg hb, Function.update_of_ne hb]
      exact ht.ledger b
  · rw [ledger_handles hh rfl] at he
    by_cases hb : b = blockId arrived
    · rw [if_pos hb] at he
      by_cases hown : e = ⟨(w, j), patchOf arrived⟩
      · refine ⟨_, c, by rw [hown]; exact hnew, by rw [hown]; exact hh.chunk, ?_, ?_, ?_⟩
        · rw [hb, hh.block]
          rfl
        · rw [hown]
          exact hpatch
        · rw [hown]
          simp [Job.answer, Life.handled]
      · refine (ht.origin b e ?_).step ht.inv h
        have hrecord : (ledger b s.log).record (w, j) arrived received.header.type =
            if received.header.type = .twoPcPrepareAgree then
              { ledger b s.log with owner := some ⟨(w, j), patchOf arrived⟩ }
            else ledger b s.log := by
          rcases htype with htype | htype <;> simp only [Ledger.record, htype]
        change (Ledger.record _ (w, j) _ _).owner = _ ∨ e ∈ (Ledger.record _ (w, j) _ _).executed
          at he
        rw [hrecord] at he
        split at he
        · rcases he with he | he
          · exact absurd (Option.some_inj.mp he).symm hown
          · exact Or.inr he
        · exact he
    · rw [if_neg hb] at he
      exact (ht.origin b e he).step ht.inv h

private theorem traced_commit (ht : Traced cfg base s) {w k j : ℕ} {stray : ℕ → UInt8}
    (hok : Harmless cfg s w k j)
    (h : step cfg s (.handle (.write w (.commit k j)) stray) = some s') : Traced cfg base s' := by
  obtain ⟨job, c, arrived, received, call, hh, hcall, htype⟩ := handle_commit ht.inv h
  have hinv' := inv_step s _ s' h ht.inv
  have hnot : arrived.header.type ≠ .twoPcPrepare ∧ arrived.header.type ≠ .twoPcPrepareQuick := by
    rw [htype]
    cases call.allSsbdAgree <;> simp
  refine ⟨hinv', fun b ↦ ?_, fun b e he ↦ ?_⟩
  · rw [ledger_handles hh rfl, hh.blocks]
    by_cases hb : b = blockId arrived
    · subst hb
      rw [if_pos rfl, Function.update_self]
      refine Ledger.inv_handle (ht.ledger _) (fun hp ↦ ?_) fun hexec ↦ ?_
      · rcases hp with hp | hp
        · exact absurd hp hnot.1
        · exact absurd hp hnot.2
      · have hagree : call.allSsbdAgree = true := by
          by_contra hfalse
          rw [htype, if_neg hfalse] at hexec
          cases hexec
        have := hok job c call hh.found hh.chunk hcall hagree
        rwa [← hh.block] at this
    · rw [if_neg hb, Function.update_of_ne hb]
      exact ht.ledger b
  · refine (ht.origin b e ?_).step ht.inv h
    rw [ledger_handles hh rfl] at he
    by_cases hb : b = blockId arrived
    · rw [if_pos hb] at he
      cases hagree : call.allSsbdAgree with
      | true =>
        rw [hagree, if_pos rfl] at htype
        simp only [Ledger.record, htype] at he
        cases howner : (ledger b s.log).owner with
        | none =>
          rw [howner] at he
          simp only [howner] at he
          exact he
        | some e' =>
          simp only [howner] at he
          split at he
          · rcases he with he | he
            · exact Or.inl he
            · rcases List.mem_cons.mp he with rfl | he
              · exact Or.inl rfl
              · exact Or.inr he
          · rwa [howner] at he
      | false =>
        rw [hagree, if_neg (by simp)] at htype
        simp only [Ledger.record, htype, reduceCtorEq, false_or] at he
        exact Or.inr he
    · rwa [if_neg hb] at he

/-- **The blocks stay what the ledgers say**, if the execute that is handled is harmless. -/
theorem traced_step (e : Event) (ht : Traced cfg base s)
    (hok : ∀ w k j stray, e = .handle (.write w (.commit k j)) stray → Harmless cfg s w k j)
    (h : step cfg s e = some s') : Traced cfg base s' := by
  by_cases hv : ∃ w j stray, e = .handle (.write w (.vote j)) stray
  · obtain ⟨w, j, stray, rfl⟩ := hv
    exact traced_vote ht h
  by_cases hc : ∃ w k j stray, e = .handle (.write w (.commit k j)) stray
  · obtain ⟨w, k, j, stray, rfl⟩ := hc
    exact traced_commit ht (hok w k j stray rfl) h
  · push Not at hv hc
    refine ⟨inv_step s e s' h ht.inv, fun b ↦ ?_, fun b e' he ↦ ?_⟩
    · rw [ledger_step ht.inv h hv hc, primary_step ht.inv h hv hc]
      exact ht.ledger b
    · rw [ledger_step ht.inv h hv hc] at he
      exact (ht.origin b e' he).step ht.inv h

private theorem record_of_step (hinv : s.Inv cfg) {e : Event} (h : step cfg s e = some s')
    (b : BlockId) :
    ledger b s'.log = ledger b s.log ∨ ∃ writer pack type,
      ledger b s'.log = (ledger b s.log).record writer pack type := by
  by_cases hv : ∃ w j stray, e = .handle (.write w (.vote j)) stray
  · obtain ⟨w, j, stray, rfl⟩ := hv
    obtain ⟨job, c, arrived, received, hh, -⟩ := handle_vote hinv h
    rw [ledger_handles hh rfl]
    split
    · exact Or.inr ⟨_, _, _, rfl⟩
    · exact Or.inl rfl
  by_cases hc : ∃ w k j stray, e = .handle (.write w (.commit k j)) stray
  · obtain ⟨w, k, j, stray, rfl⟩ := hc
    obtain ⟨job, c, arrived, received, call, hh, -⟩ := handle_commit hinv h
    rw [ledger_handles hh rfl]
    split
    · exact Or.inr ⟨_, _, _, rfl⟩
    · exact Or.inl rfl
  · push Not at hv hc
    exact Or.inl (ledger_step hinv h hv hc b)

theorem mem_writers_step (hinv : s.Inv cfg) {e : Event} (h : step cfg s e = some s') {b : BlockId}
    {a : ℕ × ℕ} (hmem : a ∈ (ledger b s.log).writers) : a ∈ (ledger b s'.log).writers := by
  rcases record_of_step hinv h b with heq | ⟨writer, pack, type, heq⟩
  · rwa [heq]
  · rw [heq]
    exact Ledger.mem_writers_record hmem

theorem notOlder_step (hinv : s.Inv cfg) {e : Event} (h : step cfg s e = some s') {b : BlockId}
    {a a' : ℕ × ℕ} (hnot : (ledger b s.log).NotOlder a a') :
    (ledger b s'.log).NotOlder a a' := by
  rcases record_of_step hinv h b with heq | ⟨writer, pack, type, heq⟩
  · rwa [heq]
  · rw [heq]
    exact hnot.record

end Cluster

/-! ## Bytes of a file

From blocks to positions of a file: a position belongs to one block, a write covers it if it is in
its range, and then it is in the piece of that block. A byte of a write that has been executed is
still there, or a newer write has put its own. -/

/-- The write puts a byte at position `x` of its file. -/
def WriteRequest.Covers (input : WriteRequest) (x : ℕ) : Prop :=
  input.position.toNat ≤ x ∧ x < input.position.toNat + input.data.length

instance (input : WriteRequest) (x : ℕ) : Decidable (input.Covers x) :=
  inferInstanceAs (Decidable (_ ∧ _))

/-- The byte the write puts at position `x` of its file. -/
def WriteRequest.byte (input : WriteRequest) (x : ℕ) : Option UInt8 :=
  input.data[x - input.position.toNat]?

variable (cfg) in
theorem WriteRequest.exists_chunk_of_covers {input : WriteRequest} {x : ℕ} (hx : input.Covers x)
    (hend : input.position.toNat + input.data.length < 2 ^ 32) :
    ∃ (j : ℕ) (c : Chunk), (input.chunks cfg.blocksize)[j]? = some c ∧
      c.blockid = x / cfg.blocksize ∧ c.offset ≤ x % cfg.blocksize ∧
      x % cfg.blocksize < c.offset + c.length := by
  have hadd : (input.position + input.size).toNat = input.position.toNat + input.data.length := by
    rw [UInt32.toNat_add, input.size_toNat, Nat.mod_eq_of_lt hend]
  have hhi : x < (input.position + input.size).toNat := by
    rw [hadd]
    exact hx.2
  obtain ⟨c, hc, hspec⟩ := exists_chunk cfg.blocksize_pos hx.1 hhi
  obtain ⟨j, hj⟩ := List.mem_iff_getElem?.mp hc
  exact ⟨j, c, hj, hspec⟩

theorem WriteRequest.byte_of_chunk {input : WriteRequest} {j x : ℕ} {c : Chunk}
    (hc : (input.chunks cfg.blocksize)[j]? = some c) (hid : c.blockid = x / cfg.blocksize)
    (hlo : c.offset ≤ x % cfg.blocksize) (hhi : x % cfg.blocksize < c.offset + c.length) :
    input.Covers x ∧ (input.slice c)[x % cfg.blocksize - c.offset]? = input.byte x := by
  have hfits := input.fits (List.mem_of_getElem? hc)
  have hplace := hfits.within.place
  have hle := hfits.within.end_le
  have hdiv := Nat.div_add_mod' x cfg.blocksize
  rw [input.size_toNat] at hle
  rw [hid] at hplace
  refine ⟨⟨by omega, by omega⟩, ?_⟩
  rw [WriteRequest.slice_getElem? (by omega), WriteRequest.byte]
  congr 1
  omega

namespace Cluster

variable {s : Cluster} {base : BlockId → Buf}

/-- The byte at position `x` of a file, at the primary host of its block. -/
def byteAt (cfg : Config) (s : Cluster) (uuid : Key) (x : ℕ) : Option UInt8 :=
  ((s.primary cfg (uuid, UInt32.ofNat (x / cfg.blocksize))).content.getD [])[x % cfg.blocksize]?

/-- **A byte of an executed write** is still there, or it is the byte of a write executed later. -/
theorem Traced.byteAt (ht : Traced cfg base s) {w j x : ℕ} {job : Job} {c : Chunk}
    (hw : s.writes w = some job) (hc : (job.chunks cfg)[j]? = some c)
    (hid : c.blockid = x / cfg.blocksize) (hlo : c.offset ≤ x % cfg.blocksize)
    (hhi : x % cfg.blocksize < c.offset + c.length)
    (hmem : (w, j) ∈ (Cluster.ledger (c.blockOf job.write.input.uuid) s.log).writers) :
    ∃ w' j' job' c', s.writes w' = some job' ∧ (job'.chunks cfg)[j']? = some c' ∧
      job'.write.input.uuid = job.write.input.uuid ∧ c'.blockid = x / cfg.blocksize ∧
      job'.write.input.Covers x ∧
      (Cluster.ledger (c.blockOf job.write.input.uuid) s.log).NotOlder (w', j') (w, j) ∧
      s.byteAt cfg job.write.input.uuid x = job'.write.input.byte x := by
  obtain ⟨e, he, heq⟩ := List.mem_map.mp hmem
  obtain ⟨job₁, c₁, hw₁, hc₁, -, hpatch, -⟩ := ht.origin _ e (Or.inr he)
  rw [heq, hw, Option.some_inj] at hw₁
  subst hw₁
  rw [heq, hc, Option.some_inj] at hc₁
  subst hc₁
  have hcovers : e.patch.covers (x % cfg.blocksize) = true := by
    rw [Patch.covers_iff, hpatch]
    have := WriteRequest.slice_length cfg (List.mem_of_getElem? hc)
    exact ⟨hlo, by rw [this]; exact hhi⟩
  obtain ⟨newer, e', older, hsplit, holder, hcov', hbyte⟩ := Ledger.getElem?_replay_of_mem
    (base (c.blockOf job.write.input.uuid)) he hcovers
  obtain ⟨job', c', hw', hc', hblock, hpatch', -⟩ := ht.origin (c.blockOf job.write.input.uuid) e'
    (Or.inr (by rw [hsplit]; simp))
  have huuid : job'.write.input.uuid = job.write.input.uuid := congrArg Prod.fst hblock
  have hid' : c'.blockid = x / cfg.blocksize := by
    rw [← hid, ← (job.write.input.fits (List.mem_of_getElem? hc)).blockOf_toNat
      job.write.input.uuid, ← hblock,
      (job'.write.input.fits (List.mem_of_getElem? hc')).blockOf_toNat]
  rw [Patch.covers_iff, hpatch'] at hcov'
  rw [WriteRequest.slice_length cfg (List.mem_of_getElem? hc')] at hcov'
  obtain ⟨hcovers', hslice⟩ := WriteRequest.byte_of_chunk hc' hid' hcov'.1 hcov'.2
  refine ⟨e'.writer.1, e'.writer.2, job', c', hw', hc', huuid, hid', hcovers', ?_, ?_⟩
  · refine ⟨newer.map Entry.writer, older.map Entry.writer, ?_, ?_⟩
    · rw [Ledger.writers, hsplit]
      simp
    · rcases holder with h | h
      · rw [← heq, h]
        exact Or.inl rfl
      · rw [← heq]
        exact Or.inr (List.mem_map_of_mem h)
  · have hb : (job.write.input.uuid, UInt32.ofNat (x / cfg.blocksize))
        = c.blockOf job.write.input.uuid := by rw [Chunk.blockOf, hid]
    rw [Cluster.byteAt, hb, (ht.ledger _).content, hbyte, hpatch', hslice]

/-- A block never grows beyond the block size. -/
theorem Traced.length_le (ht : Traced cfg base s) {b : BlockId}
    (hbase : (base b).length ≤ cfg.blocksize) :
    ((s.primary cfg b).content.getD []).length ≤ cfg.blocksize := by
  rw [(ht.ledger b).content]
  refine length_replay_le 0 hbase fun p hp ↦ ?_
  obtain ⟨e, he, rfl⟩ := List.mem_map.mp hp
  obtain ⟨job, c, -, hc, -, hpatch, -⟩ := ht.origin b e (Or.inr he)
  have hmem := List.mem_of_getElem? hc
  have hfits := (job.write.input.fits hmem).within.fits
  rw [hpatch]
  change c.offset + (job.write.input.slice c).length ≤ _
  rwa [WriteRequest.slice_length cfg hmem]

theorem Traced.readBlock (ht : Traced cfg base s) (hbase : ∀ b, (base b).length ≤ cfg.blocksize)
    {uuid : Key} {c : Chunk} {x : ℕ} {byte : UInt8} (stray : ℕ → UInt8)
    (hid : c.blockid = x / cfg.blocksize) (hlo : c.offset ≤ x % cfg.blocksize)
    (hhi : x % cfg.blocksize < c.offset + c.length) (hbyte : s.byteAt cfg uuid x = some byte) :
    (Cluster.readBlock stray (s.primary cfg (c.blockOf uuid)).content c.offset
      c.length)[x % cfg.blocksize - c.offset]? = some byte := by
  have hb : (uuid, UInt32.ofNat (x / cfg.blocksize)) = c.blockOf uuid := by rw [Chunk.blockOf, hid]
  have hlen := ht.length_le (hbase (c.blockOf uuid))
  have hB := cfg.blocksize_le
  rw [Cluster.byteAt, hb] at hbyte
  cases hcontent : (s.primary cfg (c.blockOf uuid)).content with
  | none => rw [hcontent] at hbyte; cases hbyte
  | some block =>
    rw [hcontent, Option.getD_some] at hbyte hlen
    have hlt := (List.getElem?_eq_some_iff.mp hbyte).1
    rw [Cluster.readBlock, Option.elim_some, Server.readBuffer_getElem? stray (by omega) (by omega)
      (by omega), ← hbyte]
    congr 1
    omega

end Cluster

end Slsfs.Datafunction

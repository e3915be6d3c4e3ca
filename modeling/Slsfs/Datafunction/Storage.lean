import Slsfs.Datafunction.Delivery

/-!
# Requests that run one at a time

A write or a read that has the servers to itself: its messages are sent and handled one after the
other, and the next request starts when all of them are done. `performWrite` is `start_2pc_prepare`
with the commit that follows it, `performRead` is `start_read`. What they do to a file is said byte
by byte: `byteAt` is what the primary server has stored at a position.
-/

namespace Slsfs.Datafunction

open LeveldbPack Ssbd

/-! ## What the requests do

`exchange` sends one packet for each piece of the range, in the order of the pieces, to the primary
host of its block, and collects the types of the answers. A write is two such rounds; the second one
executes or rolls back, as the answers of the first one say. The packets go over the wire in both
directions, so what the servers see is `arrived`. -/

/-- The servers by their index in `backend_list_`. -/
abbrev Hosts := ℕ → Server

/-- What a write takes from its surroundings: the mark of the recoder, the clock and the salt. -/
structure Draw where
  checked : Bool
  version : UInt32
  salt : Salt

/-- The packet as the server reads it off the wire. -/
def arrived (pack : Packet) : Packet := ((readRequest pack.sent).map Prod.fst).getD pack

section

variable (cfg : Config) (stray : ℕ → UInt8)

/-- The primary host of a piece. -/
def hostOf (uuid : Key) (c : Chunk) : ℕ := cfg.selectReplica uuid c.blockid 0

/-- One packet for each piece, with the types of the answers. -/
def exchange (uuid : Key) (packet : Chunk → Packet) : List Chunk → Hosts → Hosts × List MsgT
  | [], hosts => (hosts, [])
  | c :: cs, hosts =>
    let out := (hosts (hostOf cfg uuid c)).handle stray (arrived (packet c))
    let rest := exchange uuid packet cs (Function.update hosts (hostOf cfg uuid c) out.1)
    (rest.1, out.2.header.type :: rest.2)

/-- `start_2pc_prepare` and `start_2pc_commit`. Without a piece nothing is sent and nothing is
answered. -/
def performWrite (draw : Draw) (hosts : Hosts) (input : WriteRequest) : Option (Buf × Hosts) :=
  let w := Write.start 0 input draw.version
  let chunks := input.chunks cfg.blocksize
  if chunks = [] then none
  else
    let prepared :=
      exchange cfg stray input.uuid (w.preparePacket draw.salt draw.checked) chunks hosts
    let agree := prepared.2.all (· = .twoPcPrepareAgree)
    let committed :=
      exchange cfg stray input.uuid (w.commitPacket draw.salt agree) chunks prepared.1
    some (if agree then Write.ok else Write.foundPending, committed.1)

/-- The prepares of a write, and whether all of them are agreed to. -/
def prepareAll (draw : Draw) (hosts : Hosts) (input : WriteRequest) : Hosts × Bool :=
  let w := Write.start 0 input draw.version
  let prepared := exchange cfg stray input.uuid (w.preparePacket draw.salt draw.checked)
    (input.chunks cfg.blocksize) hosts
  (prepared.1, prepared.2.all (· = .twoPcPrepareAgree))

/-- The commits or rollbacks of a write. -/
def commitAll (draw : Draw) (agree : Bool) (hosts : Hosts) (input : WriteRequest) : Hosts :=
  (exchange cfg stray input.uuid
    ((Write.start 0 input draw.version).commitPacket draw.salt agree)
    (input.chunks cfg.blocksize) hosts).1

theorem performWrite_eq (draw : Draw) (hosts : Hosts) (input : WriteRequest) :
    performWrite cfg stray draw hosts input =
      if input.chunks cfg.blocksize = [] then none
      else
        let prepared := prepareAll cfg stray draw hosts input
        some (if prepared.2 then Write.ok else Write.foundPending,
          commitAll cfg stray draw prepared.2 prepared.1 input) := rfl

/-- The request of `start_read` for a piece. -/
def getRequest (uuid : Key) (c : Chunk) : Packet :=
  Packet.createRequest uuid .get 0 c.blockid c.offset c.length (List.Vector.replicate 4 0)

/-- `start_read`. -/
def performRead (hosts : Hosts) (input : ReadRequest) : Option Buf :=
  let chunks := input.chunks cfg.blocksize
  if input.size = 0 then some []
  else if chunks = [] then none
  else some (chunks.map fun c ↦ ((hosts (hostOf cfg input.uuid c)).handle stray
    (arrived (getRequest input.uuid c))).2.data).flatten

/-- The primary block. -/
def Hosts.primary (hosts : Hosts) (id : BlockId) : Block :=
  (hosts (cfg.selectReplica id.1 id.2.toNat 0)).block id

/-- The stored byte of a file. -/
def Hosts.byteAt (hosts : Hosts) (uuid : Key) (x : ℕ) : Option UInt8 :=
  (hosts.primary cfg (uuid, UInt32.ofNat (x / cfg.blocksize))).content.bind
    (·[x % cfg.blocksize]?)

end

variable {cfg : Config} {stray : ℕ → UInt8} {uuid : Key}

/-! ## One round of messages

The pieces of a range are pairwise in different blocks (`Apart`), so the packets of a round do not
meet: each block handles its own packet in the state it had before the round, and blocks of no piece
keep theirs. That is what makes it possible to look at one block at a time. -/

variable (cfg stray) in
theorem primary_update (hosts : Hosts) {c : Chunk} (hc : c.blockid < 2 ^ 32) {pack : Packet}
    (hid : blockId pack = c.blockOf uuid) :
    Hosts.primary cfg (Function.update hosts (hostOf cfg uuid c)
        ((hosts (hostOf cfg uuid c)).handle stray pack).1)
      = Function.update (hosts.primary cfg) (c.blockOf uuid)
        ((hosts.primary cfg (c.blockOf uuid)).handle pack) := by
  have hhost : (cfg.selectReplica (c.blockOf uuid).1 (c.blockOf uuid).2.toNat 0 : ℕ)
      = hostOf cfg uuid c := by
    rw [Chunk.blockOf, UInt32.toNat_ofNat', Nat.mod_eq_of_lt hc, hostOf]
  funext id
  by_cases heq : id = c.blockOf uuid
  · subst heq
    rw [Function.update_self, Hosts.primary, hhost, Function.update_self, Server.block_handle, hid,
      Function.update_self, Hosts.primary, hhost]
  · rw [Function.update_of_ne heq, Hosts.primary, Hosts.primary]
    by_cases hsame : (cfg.selectReplica id.1 id.2.toNat 0 : ℕ) = hostOf cfg uuid c
    · rw [hsame, Function.update_self, Server.block_handle, hid, Function.update_of_ne heq]
    · rw [Function.update_of_ne hsame]

/-- The pieces are of different blocks. -/
def Apart (uuid : Key) (cs : List Chunk) : Prop :=
  cs.Pairwise fun c d ↦ c.blockOf uuid ≠ d.blockOf uuid

section Exchange

variable {packet : Chunk → Packet} {cs : List Chunk}
  (hlt : ∀ c ∈ cs, c.blockid < 2 ^ 32)
  (hid : ∀ c ∈ cs, blockId (arrived (packet c)) = c.blockOf uuid)

include hlt hid

variable (cfg stray) in
private theorem exchange_of_notMem (hosts : Hosts) {id : BlockId}
    (h : ∀ c ∈ cs, c.blockOf uuid ≠ id) :
    Hosts.primary cfg (exchange cfg stray uuid packet cs hosts).1 id = hosts.primary cfg id := by
  induction cs generalizing hosts with
  | nil => rfl
  | cons c cs ih =>
    rw [exchange]
    dsimp only
    rw [ih (fun d hd ↦ hlt d (List.mem_cons_of_mem _ hd))
        (fun d hd ↦ hid d (List.mem_cons_of_mem _ hd)) _
        (fun d hd ↦ h d (List.mem_cons_of_mem _ hd)),
      primary_update cfg stray hosts (hlt c List.mem_cons_self) (hid c List.mem_cons_self),
      Function.update_of_ne (h c List.mem_cons_self).symm]

variable (cfg stray) in
private theorem exchange_of_mem (hosts : Hosts) (hapart : Apart uuid cs) {c : Chunk} (hc : c ∈ cs) :
    Hosts.primary cfg (exchange cfg stray uuid packet cs hosts).1 (c.blockOf uuid)
      = (hosts.primary cfg (c.blockOf uuid)).handle (arrived (packet c)) := by
  induction cs generalizing hosts with
  | nil => cases hc
  | cons d cs ih =>
    have hlt' := fun e he ↦ hlt e (List.mem_cons_of_mem d he)
    have hid' := fun e he ↦ hid e (List.mem_cons_of_mem d he)
    obtain ⟨hd, hrest⟩ := List.pairwise_cons.mp hapart
    have hupdate := primary_update cfg stray hosts (hlt d List.mem_cons_self)
      (hid d List.mem_cons_self)
    rw [exchange]
    dsimp only
    rcases List.mem_cons.mp hc with rfl | hc
    · rw [exchange_of_notMem cfg stray hlt' hid' _ fun e he ↦ (hd e he).symm, hupdate,
        Function.update_self]
    · rw [ih hlt' hid' _ hrest hc, hupdate, Function.update_of_ne (hd c hc).symm]

variable (cfg stray) in
/-- A prepare is refused by a block that has a pending log, unless it is a quick one. -/
theorem exchange_agree_iff (hosts : Hosts) (hapart : Apart uuid cs)
    (htype : ∀ c ∈ cs, (arrived (packet c)).header.type = .twoPcPrepare ∨
      (arrived (packet c)).header.type = .twoPcPrepareQuick) :
    (exchange cfg stray uuid packet cs hosts).2.all (· = .twoPcPrepareAgree) = true ↔
      ∀ c ∈ cs, ¬((arrived (packet c)).header.type = .twoPcPrepare ∧
        (hosts.primary cfg (c.blockOf uuid)).create.havePending = true) := by
  induction cs generalizing hosts with
  | nil => exact iff_of_true rfl (List.forall_mem_nil _)
  | cons d cs ih =>
    have hlt' := fun e he ↦ hlt e (List.mem_cons_of_mem d he)
    have hid' := fun e he ↦ hid e (List.mem_cons_of_mem d he)
    obtain ⟨hd, hrest⟩ := List.pairwise_cons.mp hapart
    have hupdate := primary_update cfg stray hosts (hlt d List.mem_cons_self)
      (hid d List.mem_cons_self)
    have hhost : hosts.primary cfg (d.blockOf uuid)
        = (hosts (hostOf cfg uuid d)).block (blockId (arrived (packet d))) := by
      rw [hid d List.mem_cons_self, Hosts.primary, Chunk.blockOf, UInt32.toNat_ofNat',
        Nat.mod_eq_of_lt (hlt d List.mem_cons_self), hostOf]
    have hvote : ((hosts (hostOf cfg uuid d)).handle stray (arrived (packet d))).2.header.type
        = .twoPcPrepareAgree ↔ ¬((arrived (packet d)).header.type = .twoPcPrepare ∧
          (hosts.primary cfg (d.blockOf uuid)).create.havePending = true) := by
      rw [Server.handle_vote _ _ _ (htype d List.mem_cons_self), hhost]
      split
      · rename_i hrefused
        exact iff_of_false (by rintro ⟨⟩) (not_not.mpr hrefused)
      · rename_i hagreed
        exact iff_of_true rfl hagreed
    rw [exchange]
    dsimp only
    rw [List.all_cons, Bool.and_eq_true, decide_eq_true_iff, hvote,
      ih hlt' hid' _ hrest fun c hc ↦ htype c (List.mem_cons_of_mem _ hc), List.forall_mem_cons]
    refine and_congr_right fun _ ↦ forall₂_congr fun c hc ↦ ?_
    rw [hupdate, Function.update_of_ne (hd c hc).symm]

end Exchange

/-! ## A write that has the servers to itself

The prepares of a file without pending logs are all agreed to, by full and by quick prepares alike,
and leave the old bytes with the slice of the piece laid over them as the pending entry. The execute
that follows puts that entry in the place of the block. `byteAt_performWrite` says this for the
bytes of the file: those of the range are the bytes of the request, the others are what they were,
and nothing is pending afterwards. -/

/-- No block of the file has a pending log, and the blocks are as small as leveldb keeps them. -/
structure Calm (cfg : Config) (hosts : Hosts) (uuid : Key) : Prop where
  free : ∀ b, (hosts.primary cfg (uuid, b)).create.havePending = false
  small : ∀ b content, (hosts.primary cfg (uuid, b)).content = some content →
    content.length < 2 ^ 32

theorem arrived_eq {pack received : Packet} {rest : Buf}
    (h : readRequest pack.sent = some (received, rest)) : arrived pack = received := by
  rw [arrived, h]
  rfl

theorem arrived_prepare (salt : Salt) (checked : Bool) {w : Write} {c : Chunk}
    (hc : c ∈ w.input.chunks cfg.blocksize) :
    (arrived (w.preparePacket salt checked c)).header.type
        = (if checked then .twoPcPrepareQuick else .twoPcPrepare) ∧
      blockId (arrived (w.preparePacket salt checked c)) = c.blockOf w.input.uuid ∧
      patchOf (arrived (w.preparePacket salt checked c)) = ⟨c.offset, w.input.slice c⟩ ∧
      Sized (arrived (w.preparePacket salt checked c)) := by
  have hlen : (w.input.slice c).length < 2 ^ 32 := by
    have := (w.input.fits hc).length_le
    rw [WriteRequest.slice_length cfg hc]
    omega
  have hbody : (w.preparePacket salt checked c).header.type.carriesBody = true := by
    cases checked <;> rfl
  have hread := readRequest_sent_of_body hbody hlen []
  rw [List.append_nil] at hread
  rw [arrived_eq hread]
  exact arrive_prepare hc hread

theorem arrived_execute (w : Write) (salt : Salt) (c : Chunk) :
    (arrived (w.commitPacket salt true c)).header.type = .twoPcCommitExecute ∧
      blockId (arrived (w.commitPacket salt true c)) = c.blockOf w.input.uuid := by
  have hread := readRequest_sent_of_body (p := w.commitPacket salt true c) rfl (by
    change 0 < 2 ^ 32
    decide) []
  rw [List.append_nil] at hread
  rw [arrived_eq hread]
  exact arrive_commit hread

private theorem apart_chunks (input : WriteRequest) :
    Apart input.uuid (input.chunks cfg.blocksize) := by
  rw [Apart, List.pairwise_iff_getElem]
  intro i j hi hj hij heq
  have := input.index_unique cfg (List.getElem?_eq_getElem hi) (List.getElem?_eq_getElem hj) _ heq
  omega

section Phases

variable (stray : ℕ → UInt8) (draw : Draw) (hosts : Hosts) (input : WriteRequest)

theorem prepareAll_agree_iff : (prepareAll cfg stray draw hosts input).2 = true ↔
    draw.checked = true ∨ ∀ c ∈ input.chunks cfg.blocksize,
      (hosts.primary cfg (c.blockOf input.uuid)).create.havePending = false := by
  have hprepare := fun c (hc : c ∈ input.chunks cfg.blocksize) ↦
    arrived_prepare draw.salt draw.checked (w := Write.start 0 input draw.version) hc
  have hiff := exchange_agree_iff cfg stray (fun _ hc ↦ (input.fits hc).blockid_lt)
    (fun c hc ↦ (hprepare c hc).2.1) hosts (apart_chunks input) fun c hc ↦ by
      rw [(hprepare c hc).1]
      cases draw.checked
      · exact .inl rfl
      · exact .inr rfl
  refine Iff.trans hiff ?_
  by_cases hchecked : draw.checked = true
  · refine iff_of_true (fun c hc h ↦ ?_) (.inl hchecked)
    rw [(hprepare c hc).1, if_pos hchecked] at h
    cases h.1
  · rw [or_iff_right hchecked]
    refine forall₂_congr fun c hc ↦ ?_
    rw [(hprepare c hc).1, if_neg hchecked, Bool.eq_false_iff]
    exact not_congr (and_iff_right rfl)

theorem primary_prepareAll (hagree : (prepareAll cfg stray draw hosts input).2 = true) {c : Chunk}
    (hc : c ∈ input.chunks cfg.blocksize) :
    ∃ version committed,
      (prepareAll cfg stray draw hosts input).1.primary cfg (c.blockOf input.uuid)
        = ⟨some ((hosts.primary cfg (c.blockOf input.uuid)).content.getD []),
          overlay 0 ((hosts.primary cfg (c.blockOf input.uuid)).content.getD []) c.offset
            (input.slice c), version, committed⟩ := by
  have hprepare := fun c (hc : c ∈ input.chunks cfg.blocksize) ↦
    arrived_prepare draw.salt draw.checked (w := Write.start 0 input draw.version) hc
  have hblock : (prepareAll cfg stray draw hosts input).1.primary cfg (c.blockOf input.uuid)
      = (hosts.primary cfg (c.blockOf input.uuid)).handle
        (arrived ((Write.start 0 input draw.version).preparePacket draw.salt draw.checked c)) :=
    exchange_of_mem cfg stray (fun _ hc ↦ (input.fits hc).blockid_lt)
      (fun c hc ↦ (hprepare c hc).2.1) hosts (apart_chunks input) hc
  obtain ⟨htype, -, hpatch, hsized⟩ := hprepare c hc
  have hagreed : ¬((arrived ((Write.start 0 input draw.version).preparePacket draw.salt
      draw.checked c)).header.type = .twoPcPrepare ∧
      (hosts.primary cfg (c.blockOf input.uuid)).create.havePending) := by
    rw [htype]
    rcases (prepareAll_agree_iff stray draw hosts input).mp hagree with hchecked | hfree
    · rw [hchecked]
      rintro ⟨⟨⟩, -⟩
    · rw [hfree c hc]
      rintro ⟨-, ⟨⟩⟩
  refine ⟨(arrived ((Write.start 0 input draw.version).preparePacket draw.salt
    draw.checked c)).header.version,
    (hosts.primary cfg (c.blockOf input.uuid)).create.committedVersion, hblock.trans ?_⟩
  rw [Block.handle_prepare _ (by
    rw [htype]
    cases draw.checked
    · exact .inl rfl
    · exact .inr rfl), if_neg hagreed, Block.record, overlayBlock_eq hsized, hpatch,
    Block.create_content, Option.getD_some]
  rfl

theorem primary_prepareAll_of_ne {id : BlockId}
    (hid : ∀ c ∈ input.chunks cfg.blocksize, c.blockOf input.uuid ≠ id) :
    (prepareAll cfg stray draw hosts input).1.primary cfg id = hosts.primary cfg id :=
  exchange_of_notMem cfg stray (fun _ hc ↦ (input.fits hc).blockid_lt)
    (fun _ hc ↦ (arrived_prepare draw.salt draw.checked
      (w := Write.start 0 input draw.version) hc).2.1) hosts hid

theorem primary_commitAll {c : Chunk} (hc : c ∈ input.chunks cfg.blocksize) :
    (commitAll cfg stray draw true hosts input).primary cfg (c.blockOf input.uuid)
      = (hosts.primary cfg (c.blockOf input.uuid)).execute := by
  have hexecute := arrived_execute (Write.start 0 input draw.version) draw.salt
  have hblock := exchange_of_mem cfg stray (fun _ hc ↦ (input.fits hc).blockid_lt)
    (fun c _ ↦ (hexecute c).2) hosts (apart_chunks input) hc
  refine hblock.trans ?_
  rw [Block.handle, (hexecute c).1]
  rfl

theorem primary_commitAll_of_ne {id : BlockId}
    (hid : ∀ c ∈ input.chunks cfg.blocksize, c.blockOf input.uuid ≠ id) :
    (commitAll cfg stray draw true hosts input).primary cfg id = hosts.primary cfg id :=
  exchange_of_notMem cfg stray (fun _ hc ↦ (input.fits hc).blockid_lt)
    (fun c _ ↦ (arrived_execute (Write.start 0 input draw.version) draw.salt c).2) hosts hid

end Phases

/-- **A write to completion** is answered with OK and lays its pieces over its blocks. -/
theorem performWrite_spec (stray : ℕ → UInt8) (draw : Draw) {hosts : Hosts} {input : WriteRequest}
    (hne : input.chunks cfg.blocksize ≠ []) (hcalm : Calm cfg hosts input.uuid) :
    ∃ hosts' : Hosts, performWrite cfg stray draw hosts input = some (Write.ok, hosts') ∧
      (∀ c ∈ input.chunks cfg.blocksize,
        (hosts'.primary cfg (c.blockOf input.uuid)).content = some
          (overlay 0 ((hosts.primary cfg (c.blockOf input.uuid)).content.getD []) c.offset
            (input.slice c)) ∧
        (hosts'.primary cfg (c.blockOf input.uuid)).havePending = false) ∧
      ∀ id, (∀ c ∈ input.chunks cfg.blocksize, c.blockOf input.uuid ≠ id) →
        hosts'.primary cfg id = hosts.primary cfg id := by
  have hagree : (prepareAll cfg stray draw hosts input).2 = true :=
    (prepareAll_agree_iff stray draw hosts input).mpr (.inr fun c _ ↦ hcalm.free _)
  rw [performWrite_eq, if_neg hne]
  dsimp only
  rw [hagree, if_pos rfl]
  refine ⟨_, rfl, fun c hc ↦ ?_, fun id hid ↦ ?_⟩
  · obtain ⟨version, committed, hprepared⟩ :=
      primary_prepareAll stray draw hosts input hagree hc
    rw [primary_commitAll stray draw _ input hc, hprepared]
    refine ⟨rfl, ?_⟩
    simp [Block.execute, Block.havePending]
  · rw [primary_commitAll_of_ne stray draw _ input hid,
      primary_prepareAll_of_ne stray draw hosts input hid]

/-- Blocks that have the pieces of a write in their places have its bytes. -/
theorem byteAt_of_slices {hosts : Hosts} {input : WriteRequest}
    (hend : input.position.toNat + input.data.length < 2 ^ 32)
    (h : ∀ c ∈ input.chunks cfg.blocksize,
      ∃ buf, (hosts.primary cfg (c.blockOf input.uuid)).content = some buf ∧
        ∀ k < c.length, buf[c.offset + k]? = (input.slice c)[k]?) :
    ∀ i < input.data.length,
      hosts.byteAt cfg input.uuid (input.position.toNat + i) = input.data[i]? := by
  intro i hi
  have hsum : (input.position + input.size).toNat = input.position.toNat + input.data.length := by
    rw [UInt32.toNat_add, input.size_toNat, Nat.mod_eq_of_lt hend]
  -- the byte is in the slice of the piece its position belongs to
  have hbelow : input.position.toNat + i < (input.position + input.size).toNat := by
    rw [hsum]
    omega
  obtain ⟨c, hc, hblock, hlo, hhi⟩ := exists_chunk cfg.blocksize_pos
    (Nat.le_add_right input.position.toNat i) hbelow
  have hplace := (input.fits hc).within.place
  have hdiv := Nat.div_add_mod' (input.position.toNat + i) cfg.blocksize
  have hbuffer :
      c.bufferOffset + ((input.position.toNat + i) % cfg.blocksize - c.offset) = i := by
    rw [hblock] at hplace
    omega
  obtain ⟨buf, hbuf, hbytes⟩ := h c hc
  rw [Chunk.blockOf, hblock] at hbuf
  rw [Hosts.byteAt, hbuf, Option.bind_some]
  obtain ⟨k, hk⟩ := Nat.exists_eq_add_of_le hlo
  have hi' : c.bufferOffset + k = i := by omega
  rw [hk, hbytes k (by omega), WriteRequest.slice_getElem? (by omega), hi']

theorem byteAt_performWrite (stray : ℕ → UInt8) (draw : Draw) {hosts : Hosts} {input : WriteRequest}
    (hpos : 0 < input.data.length) (hend : input.position.toNat + input.data.length < 2 ^ 32)
    (hcalm : Calm cfg hosts input.uuid) :
    ∃ hosts' : Hosts, performWrite cfg stray draw hosts input = some (Write.ok, hosts') ∧
      Calm cfg hosts' input.uuid ∧
      ∀ i < input.data.length,
        hosts'.byteAt cfg input.uuid (input.position.toNat + i) = input.data[i]? := by
  have hsum : (input.position + input.size).toNat = input.position.toNat + input.data.length := by
    rw [UInt32.toNat_add, input.size_toNat, Nat.mod_eq_of_lt hend]
  have hne : input.chunks cfg.blocksize ≠ [] :=
    splitBlocks_ne_nil cfg.blocksize_pos (by rw [hsum]; omega)
  obtain ⟨hosts', hwrite, hin, hout⟩ := performWrite_spec stray draw hne hcalm
  refine ⟨hosts', hwrite, ?_, ?_⟩
  · -- a block of the file is one of the pieces, or it is what it was
    have hcases : ∀ b, (∃ c ∈ input.chunks cfg.blocksize, c.blockOf input.uuid = (input.uuid, b)) ∨
        hosts'.primary cfg (input.uuid, b) = hosts.primary cfg (input.uuid, b) := by
      intro b
      by_cases hex : ∃ c ∈ input.chunks cfg.blocksize, c.blockOf input.uuid = (input.uuid, b)
      · exact .inl hex
      · exact .inr (hout _ fun c hc heq ↦ hex ⟨c, hc, heq⟩)
    refine ⟨?_, ?_⟩
    · intro b
      rcases hcases b with ⟨c, hc, hb⟩ | hsame
      · rw [← hb, Block.create, (hin c hc).1]
        exact (hin c hc).2
      · rw [hsame]
        exact hcalm.free b
    · intro b content hcontent
      rcases hcases b with ⟨c, hc, hb⟩ | hsame
      · rw [← hb, (hin c hc).1, Option.some_inj] at hcontent
        have hfits := input.fits hc
        have hslice := WriteRequest.slice_length cfg hc
        have hold : ((hosts.primary cfg (c.blockOf input.uuid)).content.getD []).length
            < 2 ^ 32 := by
          cases hprev : (hosts.primary cfg (c.blockOf input.uuid)).content with
          | none => exact Nat.two_pow_pos 32
          | some old => exact hcalm.small (UInt32.ofNat c.blockid) old hprev
        have hoff := hfits.offset_lt
        have hle := hfits.length_le
        rw [← hcontent, length_overlay, hslice]
        omega
      · rw [hsame] at hcontent
        exact hcalm.small b content hcontent
  · refine byteAt_of_slices hend fun c hc ↦ ⟨_, (hin c hc).1, fun k hk ↦ ?_⟩
    exact getElem?_overlay_of_mem _ _ _ _ (by rwa [WriteRequest.slice_length cfg hc])

/-! ## A read

The answer for a piece is a buffer of the length that was asked for, filled with the bytes of the
block from the offset on. Behind the end of the block it holds whatever was in memory, which is what
`stray` stands for; so a read is right as far as the file is stored. -/

private theorem handle_getRequest (hosts : Hosts) {c : Chunk} (hblock : c.blockid < 2 ^ 32)
    (hoffset : c.offset < 2 ^ 16) (hlength : c.length < 2 ^ 32) :
    ((hosts (hostOf cfg uuid c)).handle stray (arrived (getRequest uuid c))).2.data
      = (hosts.primary cfg (c.blockOf uuid)).content.elim []
        (Server.readBuffer stray · c.offset c.length) := by
  have hread := readRequest_sent_of_get (p := getRequest uuid c) rfl []
  rw [List.append_nil] at hread
  rw [arrived_eq hread, Server.handle_get _ _ _ rfl, Server.startDbRead]
  have hcontent : (hosts (hostOf cfg uuid c)).db (getRequest uuid c).header.asString
      = (hosts.primary cfg (c.blockOf uuid)).content := by
    rw [Hosts.primary, Chunk.blockOf, UInt32.toNat_ofNat', Nat.mod_eq_of_lt hblock]
    rfl
  have hoff : (getRequest uuid c).header.position.toNat = c.offset := by
    rw [getRequest, Packet.createRequest, UInt16.toNat_ofNat', Nat.mod_eq_of_lt hoffset]
  have hlen : (getRequest uuid c).header.datasize.toNat = c.length := by
    rw [getRequest, Packet.createRequest, UInt32.toNat_ofNat', Nat.mod_eq_of_lt hlength]
  dsimp only
  rw [hcontent, hoff, hlen]
  cases (hosts.primary cfg (c.blockOf uuid)).content with
  | none => rfl
  | some block => rfl

private theorem content_of_byteAt {hosts : Hosts} {endpos pos off j : ℕ} {b : UInt8}
    (hj : j < (chunkAt cfg.blocksize endpos pos off).length)
    (hbyte : hosts.byteAt cfg uuid (pos + j) = some b) :
    ∃ block, (hosts.primary cfg
        ((chunkAt cfg.blocksize endpos pos off).blockOf uuid)).content = some block ∧
      block[(chunkAt cfg.blocksize endpos pos off).offset + j]? = some b := by
  change j < min (endpos - pos) (cfg.blocksize - pos % cfg.blocksize) at hj
  have hmod := Nat.mod_lt pos cfg.blocksize_pos
  have hinside : pos % cfg.blocksize + j < cfg.blocksize := by omega
  have hsplit : pos + j = (pos % cfg.blocksize + j) + pos / cfg.blocksize * cfg.blocksize := by
    have := Nat.div_add_mod' pos cfg.blocksize
    omega
  have hjdiv : (pos + j) / cfg.blocksize = pos / cfg.blocksize := by
    rw [hsplit, Nat.add_mul_div_right _ _ cfg.blocksize_pos, Nat.div_eq_of_lt hinside,
      Nat.zero_add]
  have hjmod : (pos + j) % cfg.blocksize = pos % cfg.blocksize + j := by
    rw [hsplit, Nat.add_mul_mod_self_right, Nat.mod_eq_of_lt hinside]
  rw [Hosts.byteAt, hjdiv, hjmod] at hbyte
  exact Option.bind_eq_some_iff.mp hbyte

section Answers

variable (cfg stray uuid) in
/-- The data of the answer to the get of a piece. -/
def answerData (hosts : Hosts) (c : Chunk) : Buf :=
  ((hosts (hostOf cfg uuid c)).handle stray (arrived (getRequest uuid c))).2.data

variable (stray : ℕ → UInt8) (uuid : Key) (hosts : Hosts) {size : UInt32} {pos : ℕ} (off : ℕ)

private theorem answerData_eq (hpos : pos < size.toNat) :
    answerData cfg stray uuid hosts (chunkAt cfg.blocksize size.toNat pos off)
      = (hosts.primary cfg
          ((chunkAt cfg.blocksize size.toNat pos off).blockOf uuid)).content.elim []
        (Server.readBuffer stray · (chunkAt cfg.blocksize size.toNat pos off).offset
          (chunkAt cfg.blocksize size.toNat pos off).length) := by
  have hlt := size.toNat_lt
  have hB := cfg.blocksize_le
  have hmod := Nat.mod_lt pos cfg.blocksize_pos
  have hdiv := Nat.div_le_self pos cfg.blocksize
  refine handle_getRequest hosts ?_ ?_ ?_
  · change pos / cfg.blocksize < 2 ^ 32
    omega
  · change pos % cfg.blocksize < 2 ^ 16
    omega
  · change min (size.toNat - pos) (cfg.blocksize - pos % cfg.blocksize) < 2 ^ 32
    omega

variable (cfg) in
private theorem length_answerData_le (hpos : pos < size.toNat) :
    (answerData cfg stray uuid hosts (chunkAt cfg.blocksize size.toNat pos off)).length
      ≤ (chunkAt cfg.blocksize size.toNat pos off).length := by
  rw [answerData_eq stray uuid hosts off hpos]
  cases (hosts.primary cfg ((chunkAt cfg.blocksize size.toNat pos off).blockOf uuid)).content with
  | none => exact Nat.zero_le _
  | some block => rw [Option.elim_some, Server.readBuffer_length]

/-- The answer has the bytes that are stored, and if there is one then it is as long as the
piece. -/
theorem answerData_of_byteAt {uuid hosts off} (hpos : pos < size.toNat)
    (hsmall : ∀ b content, (hosts.primary cfg (uuid, b)).content = some content →
      content.length < 2 ^ 32)
    {j : ℕ} {b : UInt8} (hj : j < (chunkAt cfg.blocksize size.toNat pos off).length)
    (hbyte : hosts.byteAt cfg uuid (pos + j) = some b) :
    (answerData cfg stray uuid hosts (chunkAt cfg.blocksize size.toNat pos off)).length
        = (chunkAt cfg.blocksize size.toNat pos off).length ∧
      (answerData cfg stray uuid hosts (chunkAt cfg.blocksize size.toNat pos off))[j]?
        = some b := by
  obtain ⟨block, hblock, hget⟩ := content_of_byteAt hj hbyte
  have hinside := (List.getElem?_eq_some_iff.mp hget).1
  have hlt := hsmall _ block hblock
  rw [answerData_eq stray uuid hosts off hpos, hblock, Option.elim_some]
  refine ⟨Server.readBuffer_length .., ?_⟩
  rw [Server.readBuffer_getElem? stray (by omega) hj hinside, hget]

end Answers

/-- **A read from the start of a file** returns at most the bytes it asks for, and those that are
stored come first. -/
theorem performRead_spec (stray : ℕ → UInt8) {hosts : Hosts}
    (hsmall : ∀ b content, (hosts.primary cfg (uuid, b)).content = some content →
      content.length < 2 ^ 32)
    {image : Buf} (himage : ∀ x < image.length, hosts.byteAt cfg uuid x = image[x]?)
    (size : UInt32) :
    ∃ buf, performRead cfg stray hosts ⟨uuid, 0, size⟩ = some buf ∧ buf.length ≤ size.toNat ∧
      ∀ x < image.length, x < size.toNat → buf[x]? = image[x]? := by
  by_cases hzero : size = 0
  · refine ⟨[], by rw [performRead]; exact if_pos hzero, Nat.zero_le _, fun x _ hx ↦ ?_⟩
    rw [hzero] at hx
    cases hx
  have hsize : 0 < size.toNat := by
    rw [← UInt32.toNat_inj, UInt32.toNat_zero] at hzero
    omega
  have hsum : ((0 : UInt32) + size).toNat = size.toNat := by rw [UInt32.zero_add]
  have hne : ReadRequest.chunks cfg.blocksize ⟨uuid, 0, size⟩ ≠ [] :=
    splitBlocks_ne_nil cfg.blocksize_pos (by rw [hsum]; exact hsize)
  have hbyte : ∀ x, (hx : x < image.length) → hosts.byteAt cfg uuid x = some image[x] :=
    fun x hx ↦ (himage x hx).trans (List.getElem?_eq_getElem hx)
  have hall := blockLoop_induction size.toNat cfg.blocksize_pos
    (P := fun pos _ cs ↦
      (cs.map (answerData cfg stray uuid hosts)).flatten.length ≤ size.toNat - pos ∧
      ∀ i, pos + i < image.length → pos + i < size.toNat →
        (cs.map (answerData cfg stray uuid hosts)).flatten[i]? = image[pos + i]?)
    (fun pos off hend ↦ ⟨Nat.zero_le _, fun i _ hi ↦ by omega⟩)
    (fun pos off rest hpos ih ↦ by
      have hle := length_answerData_le cfg stray uuid hosts off hpos
      have hlength : (chunkAt cfg.blocksize size.toNat pos off).length ≤ size.toNat - pos :=
        Nat.min_le_left _ _
      have hpositive : 0 < (chunkAt cfg.blocksize size.toNat pos off).length :=
        chunkAt_length_pos cfg.blocksize_pos hpos
      rw [List.map_cons, List.flatten_cons, List.length_append]
      refine ⟨by have := ih.1; omega, fun i hi hi' ↦ ?_⟩
      by_cases hic : i < (chunkAt cfg.blocksize size.toNat pos off).length
      · obtain ⟨hlen, hget⟩ :=
          answerData_of_byteAt stray hpos hsmall hic (hbyte (pos + i) hi)
        rw [List.getElem?_append_left (by omega), hget, List.getElem?_eq_getElem hi]
      · -- the block of `pos` is there, because the byte at `pos` is
        obtain ⟨hlen, -⟩ :=
          answerData_of_byteAt stray hpos hsmall hpositive (hbyte pos (by omega))
        have hback : pos + (chunkAt cfg.blocksize size.toNat pos off).length
            + (i - (chunkAt cfg.blocksize size.toNat pos off).length) = pos + i := by omega
        rw [List.getElem?_append_right (by omega), hlen, ih.2 _ (by omega) (by omega), hback])
    (size.toNat - 0) 0 0 le_rfl
  refine ⟨((ReadRequest.chunks cfg.blocksize ⟨uuid, 0, size⟩).map
    (answerData cfg stray uuid hosts)).flatten, ?_, ?_, ?_⟩
  · rw [performRead]
    dsimp only
    rw [if_neg hzero, if_neg hne]
    rfl
  · rw [ReadRequest.chunks, hsum]
    exact hall.1
  · intro x hx hx'
    have := hall.2 x (by omega) (by omega)
    rw [Nat.zero_add] at this
    rw [ReadRequest.chunks, hsum]
    exact this

end Slsfs.Datafunction

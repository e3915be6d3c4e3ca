import Slsfs.Datafunction.Cluster
import Slsfs.Ssbd.Ledger

/-!
# What arrives at the servers

The packets of a request go over the wire and act on the block they name. Each kind of packet is
followed once from the coordinator to the server: which type, block, position and data the handler
sees. The block of a piece of the range lives at its primary host, `Cluster.primary`, which is where
`select_replica` with index 0 sends prepares, commits and gets; `primary_step` says that a step of
the system is a step of `Block.handle` on one primary block, or leaves them all alone.
-/

namespace Slsfs.Datafunction

open LeveldbPack Ssbd

variable {cfg : Config}

/-! ## Pieces of a range on the wire

A piece has an offset that fits into 16 bits and a block id that fits into 32, since the block size
is at most 65536 and the range does not wrap around. So the header of its packet carries the piece
as it is. Two pieces of a range are in different blocks; every position of the range is in one of
them. -/

/-- The block of a file that a piece of a range belongs to. -/
def Chunk.blockOf (c : Chunk) (uuid : Key) : BlockId := (uuid, UInt32.ofNat c.blockid)

private theorem add_toNat_of_lt {position size : UInt32} (h : position < position + size) :
    (position + size).toNat = position.toNat + size.toNat := by
  rw [UInt32.lt_iff_toNat_lt, UInt32.toNat_add] at h
  rw [UInt32.toNat_add]
  have hp := position.toNat_lt
  have hs := size.toNat_lt
  omega

/-- What is known of every piece of a range of 32-bit positions. -/
structure Chunk.Fits (cfg : Config) (position size : UInt32) (c : Chunk) : Prop where
  within : c.Within cfg.blocksize position.toNat (position.toNat + size.toNat)
  offset_lt : c.offset < 2 ^ 16
  length_le : c.length ≤ 2 ^ 16
  blockid_lt : c.blockid < 2 ^ 32
  end_lt : position.toNat + size.toNat < 2 ^ 32

private theorem fits_of_mem {position size : UInt32} {c : Chunk}
    (hc : c ∈ splitBlocks cfg.blocksize position.toNat (position + size).toNat) :
    c.Fits cfg position size := by
  have hwithin := within_of_mem cfg.blocksize_pos hc
  have hlt : position < position + size := by
    rw [UInt32.lt_iff_toNat_lt]
    have := hwithin.end_le
    have := hwithin.length_pos
    omega
  have hadd := add_toNat_of_lt hlt
  have hend := (position + size).toNat_lt
  rw [hadd] at hwithin hend
  have hfits := hwithin.fits
  have hpos := hwithin.length_pos
  have hplace := hwithin.place
  have hle := hwithin.end_le
  have hB := cfg.blocksize_le
  have hmul : c.blockid ≤ c.blockid * cfg.blocksize := Nat.le_mul_of_pos_right _ cfg.blocksize_pos
  exact ⟨hwithin, by omega, by omega, by omega, by omega⟩

theorem Chunk.Fits.blockOf_toNat {position size : UInt32} {c : Chunk} (h : c.Fits cfg position size)
    (uuid : Key) : (c.blockOf uuid).2.toNat = c.blockid := by
  rw [Chunk.blockOf, UInt32.toNat_ofNat', Nat.mod_eq_of_lt h.blockid_lt]

theorem WriteRequest.size_toNat (input : WriteRequest) : input.size.toNat = input.data.length := by
  rw [WriteRequest.size, UInt32.toNat_ofNat', Nat.mod_eq_of_lt input.size_lt]

theorem WriteRequest.fits {input : WriteRequest} {c : Chunk} (hc : c ∈ input.chunks cfg.blocksize) :
    c.Fits cfg input.position input.size := fits_of_mem hc

theorem ReadRequest.fits {input : ReadRequest} {c : Chunk} (hc : c ∈ input.chunks cfg.blocksize) :
    c.Fits cfg input.position input.size := fits_of_mem hc

variable (cfg) in
theorem WriteRequest.slice_length {input : WriteRequest} {c : Chunk}
    (hc : c ∈ input.chunks cfg.blocksize) : (input.slice c).length = c.length := by
  have hle := (input.fits hc).within.end_le
  rw [input.size_toNat] at hle
  rw [WriteRequest.slice, List.length_take, List.length_drop]
  omega

theorem WriteRequest.slice_getElem? {input : WriteRequest} {c : Chunk} {i : ℕ} (hi : i < c.length) :
    (input.slice c)[i]? = input.data[c.bufferOffset + i]? := by
  rw [WriteRequest.slice, List.getElem?_take_of_lt hi, List.getElem?_drop]

variable (cfg) in
/-- Two pieces of a range in the same block are the same piece. -/
theorem WriteRequest.index_unique {input : WriteRequest} {i j : ℕ} {c d : Chunk}
    (hc : (input.chunks cfg.blocksize)[i]? = some c)
    (hd : (input.chunks cfg.blocksize)[j]? = some d)
    (uuid : Key) (h : c.blockOf uuid = d.blockOf uuid) : i = j := by
  have hid : c.blockid = d.blockid := by
    rw [← (input.fits (List.mem_of_getElem? hc)).blockOf_toNat uuid,
      ← (input.fits (List.mem_of_getElem? hd)).blockOf_toNat uuid, h]
  have hsorted : (input.chunks cfg.blocksize).Pairwise fun c d ↦ c.blockid < d.blockid :=
    splitBlocks_pairwise cfg.blocksize_pos input.position.toNat
  rw [List.pairwise_iff_getElem] at hsorted
  obtain ⟨hi, rfl⟩ := List.getElem?_eq_some_iff.mp hc
  obtain ⟨hj, rfl⟩ := List.getElem?_eq_some_iff.mp hd
  rcases lt_trichotomy i j with hij | hij | hij
  · have := hsorted i j hi hj hij
    exact absurd hid (Nat.ne_of_lt this)
  · exact hij
  · have := hsorted j i hj hi hij
    exact absurd hid.symm (Nat.ne_of_lt this)

variable (cfg) in
theorem ReadRequest.exists_chunk {input : ReadRequest} {x : ℕ}
    (hend : input.position.toNat + input.size.toNat < 2 ^ 32) (hlo : input.position.toNat ≤ x)
    (hhi : x < input.position.toNat + input.size.toNat) :
    ∃ (i : ℕ) (c : Chunk), (input.chunks cfg.blocksize)[i]? = some c ∧
      c.blockid = x / cfg.blocksize ∧ c.offset ≤ x % cfg.blocksize ∧
      x % cfg.blocksize < c.offset + c.length := by
  rw [← toNat_endpos hend] at hhi
  obtain ⟨c, hc, hspec⟩ := Datafunction.exists_chunk cfg.blocksize_pos hlo hhi
  obtain ⟨i, hi⟩ := List.mem_iff_getElem?.mp hc
  exact ⟨i, c, hi, hspec⟩

/-- **The reply of a read** whose gets have all been answered with as many bytes as they asked for:
it has the size of the range, and each byte comes from the answer for its block. -/
theorem ReadJob.reply_spec {job : ReadJob} (hinv : job.Inv cfg) (hne : job.chunks cfg ≠ [])
    {reply : Buf} (hreply : reply ∈ job.replies)
    (hbodies : ∀ (i : ℕ) (c : Chunk), (job.chunks cfg)[i]? = some c →
      ∃ response, (job.life i).reply = some response ∧ response.data.length = c.length) :
    reply.length = job.input.size.toNat ∧
      ∀ x, job.input.position.toNat ≤ x → x < job.input.position.toNat + job.input.size.toNat →
        ∃ (i : ℕ) (c : Chunk) (response : Packet), (job.chunks cfg)[i]? = some c ∧
          c.blockid = x / cfg.blocksize ∧ c.offset ≤ x % cfg.blocksize ∧
          x % cfg.blocksize < c.offset + c.length ∧ (job.life i).reply = some response ∧
          reply[x - job.input.position.toNat]?
            = response.data[x % cfg.blocksize - c.offset]? := by
  rw [hinv.replies, if_neg hne] at hreply
  split at hreply
  on_goal 2 => cases hreply
  rename_i hall
  rw [List.mem_singleton] at hreply
  obtain ⟨c₀, hc₀⟩ := List.exists_mem_of_ne_nil _ hne
  have hend := (job.input.fits hc₀).end_lt
  have hadd := toNat_endpos hend
  -- the buffer of each block is the body of its answer
  have hbuf : ∀ (i : ℕ) (c : Chunk), (job.chunks cfg)[i]? = some c → ∃ response,
      (job.life i).reply = some response ∧
      (job.accumulator.map (·.getD []))[i]? = some response.data ∧
      response.data.length = c.length := by
    intro i c hc
    obtain ⟨response, hresponse, hlen⟩ := hbodies i c hc
    have hi := (List.getElem?_eq_some_iff.mp hc).1
    have hacc : job.accumulator[i]? = some (job.life i).body := by
      rw [hinv.accumulator]
      simp [hi]
    have hsome : (job.life i).body.isSome = true :=
      List.all_eq_true.mp hall _ (List.mem_of_getElem? hacc)
    refine ⟨response, hresponse, ?_, hlen⟩
    cases hlife : job.life i with
    | done r =>
      rw [hlife, Life.reply, Option.some_inj] at hresponse
      rw [List.getElem?_map, hacc, hlife, ← hresponse]
      rfl
    | unsent | requested | answered => rw [hlife] at hsome; cases hsome
  have hpieces : List.Forall₂ (fun c buf ↦ List.length buf = Chunk.length c) (job.chunks cfg)
      (job.accumulator.map (·.getD [])) := by
    rw [List.forall₂_iff_get]
    refine ⟨by simp [hinv.accumulator], fun i hi hi' ↦ ?_⟩
    obtain ⟨response, -, hget, hlen⟩ := hbuf i _ (List.getElem?_eq_getElem hi)
    rw [List.getElem?_eq_getElem hi', Option.some_inj] at hget
    simp only [List.get_eq_getElem, hget, hlen]
  obtain ⟨hlength, hget⟩ := flatten_pieces cfg.blocksize_pos _ hpieces
  refine ⟨by rw [hreply, hlength, hadd]; omega, fun x hlo hhi ↦ ?_⟩
  obtain ⟨i, c, hc, hid, hoff, hlen⟩ := job.input.exists_chunk cfg hend hlo hhi
  obtain ⟨response, hresponse, hbody, -⟩ := hbuf i c hc
  refine ⟨i, c, response, hc, hid, hoff, hlen, hresponse, ?_⟩
  have hplace := (job.input.fits (List.mem_of_getElem? hc)).within.place
  have hdiv := Nat.div_add_mod' x cfg.blocksize
  rw [hid] at hplace
  rw [hreply, ← hget i c response.data (x % cfg.blocksize - c.offset) hc hbody (by omega)]
  congr 1
  omega

/-! ## Packets on arrival

One lemma for each kind of packet. A prepare arrives with its slice, a commit and a copy without
data, and a `get` without data too but with the size that it asks for, since nothing behind its
header is sent and `datasize` is not overwritten. -/

private theorem offset_toNat {n : ℕ} (h : n < 2 ^ 16) : (UInt16.ofNat n).toNat = n := by
  rw [UInt16.toNat_ofNat', Nat.mod_eq_of_lt h]

theorem arrive_prepare {w : Write} {salt : Salt} {checked : Bool} {c : Chunk}
    (hc : c ∈ w.input.chunks cfg.blocksize) {arrived : Packet} {rest : Buf}
    (h : readRequest (w.preparePacket salt checked c).sent = some (arrived, rest)) :
    arrived.header.type = (if checked then .twoPcPrepareQuick else .twoPcPrepare) ∧
      blockId arrived = c.blockOf w.input.uuid ∧ patchOf arrived = ⟨c.offset, w.input.slice c⟩ ∧
      Sized arrived := by
  have hfits := w.input.fits hc
  have hlen := WriteRequest.slice_length cfg hc
  have hle := hfits.length_le
  have hbody : (w.preparePacket salt checked c).header.type.carriesBody = true := by
    cases checked <;> rfl
  have hread := readRequest_sent_of_body hbody (by
    change (w.input.slice c).length < 2 ^ 32
    omega) []
  rw [List.append_nil, h, Option.some_inj, Prod.mk.injEq] at hread
  obtain ⟨rfl, -⟩ := hread
  refine ⟨rfl, rfl, ?_, ?_, ?_⟩
  · change Patch.mk (UInt16.ofNat c.offset).toNat (w.input.slice c) = _
    rw [offset_toNat hfits.offset_lt]
  · change (UInt32.ofNat (w.input.slice c).length).toNat = (w.input.slice c).length
    rw [UInt32.toNat_ofNat', Nat.mod_eq_of_lt (by omega)]
  · change (w.input.slice c).length ≤ 2 ^ 16
    omega

theorem arrive_commit {w : Write} {salt : Salt} {agree : Bool} {c : Chunk} {arrived : Packet}
    {rest : Buf} (h : readRequest (w.commitPacket salt agree c).sent = some (arrived, rest)) :
    arrived.header.type = (if agree then .twoPcCommitExecute else .twoPcCommitRollback) ∧
      blockId arrived = c.blockOf w.input.uuid := by
  cases agree with
  | true =>
    have hread := readRequest_sent_of_body (p := w.commitPacket salt true c) rfl (by
      change 0 < 2 ^ 32
      decide) []
    rw [List.append_nil, h, Option.some_inj, Prod.mk.injEq] at hread
    obtain ⟨rfl, -⟩ := hread
    exact ⟨rfl, rfl⟩
  | false =>
    have hread := readRequest_sent_of_rollback (p := w.commitPacket salt false c) rfl rfl []
    rw [List.append_nil, h, Option.some_inj, Prod.mk.injEq] at hread
    obtain ⟨rfl, -⟩ := hread
    exact ⟨rfl, rfl⟩

theorem arrive_replica {w : Write} {salt : Salt} {c : Chunk}
    (hc : c ∈ w.input.chunks cfg.blocksize) {arrived : Packet} {rest : Buf}
    (h : readRequest (w.replicaPacket salt c).sent = some (arrived, rest)) :
    arrived.header.type = .replication ∧ blockId arrived = c.blockOf w.input.uuid ∧
      patchOf arrived = ⟨c.offset, []⟩ ∧ Sized arrived := by
  have hread := readRequest_sent_of_body (p := w.replicaPacket salt c) rfl (by
    change 0 < 2 ^ 32
    decide) []
  rw [List.append_nil, h, Option.some_inj, Prod.mk.injEq] at hread
  obtain ⟨rfl, -⟩ := hread
  refine ⟨rfl, rfl, ?_, rfl, Nat.zero_le _⟩
  change Patch.mk (UInt16.ofNat c.offset).toNat [] = _
  rw [offset_toNat (w.input.fits hc).offset_lt]

theorem arrive_get {job : ReadJob} {j : ℕ} {c : Chunk} (hc : c ∈ job.chunks cfg)
    {arrived : Packet} {rest : Buf}
    (h : readRequest (job.getPacket j c).sent = some (arrived, rest)) :
    arrived.header.type = .get ∧ blockId arrived = c.blockOf job.input.uuid ∧
      arrived.header.position.toNat = c.offset ∧ arrived.header.datasize.toNat = c.length := by
  have hfits := job.input.fits hc
  have hread := readRequest_sent_of_get (p := job.getPacket j c) rfl []
  rw [List.append_nil, h, Option.some_inj, Prod.mk.injEq] at hread
  obtain ⟨rfl, -⟩ := hread
  refine ⟨rfl, rfl, offset_toNat hfits.offset_lt, ?_⟩
  change (UInt32.ofNat c.length).toNat = c.length
  rw [UInt32.toNat_ofNat', Nat.mod_eq_of_lt (by have := hfits.length_le; omega)]

/-! ## The primary blocks

A server is looked at one block at a time: `primary` is the block with an id at its primary host, as
a `Block`. A message that a server handles is `Block.handle` of one block and leaves the others
alone; copies go to other cells, and the callbacks of answers do not touch the servers. The results
about the protocol follow one block through such steps. -/

/-- The host of a block. -/
def Config.primaryHost (cfg : Config) (b : BlockId) : ℕ := cfg.selectReplica b.1 b.2.toNat 0

namespace Cluster

variable {s s' : Cluster}

/-- The block at its host. -/
def primary (cfg : Config) (s : Cluster) (b : BlockId) : Block :=
  (s.server (cfg.primaryHost b)).block b

private theorem primary_update {stray : ℕ → UInt8} {arrived : Packet}
    (hserver : s'.server = Function.update s.server (cfg.primaryHost (blockId arrived))
      ((s.server (cfg.primaryHost (blockId arrived))).handle stray arrived).1) :
    s'.primary cfg = Function.update (s.primary cfg) (blockId arrived)
      ((s.primary cfg (blockId arrived)).handle arrived) := by
  funext b
  have hblock := Server.block_handle stray (s.server (cfg.primaryHost (blockId arrived))) arrived
  by_cases hb : b = blockId arrived
  · rw [hb, Function.update_self, primary, hserver, Function.update_self, hblock,
      Function.update_self, primary]
  · rw [Function.update_of_ne hb, primary, hserver, primary]
    by_cases hhost : cfg.primaryHost b = cfg.primaryHost (blockId arrived)
    · rw [hhost, Function.update_self, hblock, Function.update_of_ne hb]
    · rw [Function.update_of_ne hhost]

private theorem primary_same {stray : ℕ → UInt8} {arrived : Packet} {host : ℕ}
    (hserver : s'.server = Function.update s.server host
      ((s.server host).handle stray arrived).1)
    (hnone : ∀ blk : Block, blk.handle arrived = blk) : s'.primary cfg = s.primary cfg := by
  funext b
  have hblock := Server.block_handle stray (s.server host) arrived
  rw [primary, hserver, primary]
  by_cases hhost : cfg.primaryHost b = host
  · rw [hhost, Function.update_self, hblock, hnone, Function.update_eq_self]
  · rw [Function.update_of_ne hhost]

private theorem received_eq {response received : Packet} {rest : Buf}
    (hlen : response.data.length < 2 ^ 32)
    (h : readResponse response.serialize = some (received, rest)) :
    received = { header := response.sealedHeader, data := response.data } := by
  have hread := readResponse_serialize hlen []
  rw [List.append_nil, h, Option.some_inj, Prod.mk.injEq] at hread
  exact hread.1

private theorem received_type {pack received : Packet} {type : MsgT} {rest : Buf}
    (h : readResponse (Server.respond pack type).serialize = some (received, rest)) :
    received.header.type = type := by
  rw [received_eq (by simp [Server.respond]) h]
  rfl

/-- A message of a write that a server handles: the packet that arrives and what it does. -/
structure Handles (cfg : Config) (s s' : Cluster) (w : ℕ) (t : WriteTicket) (job : Job) (c : Chunk)
    (arrived received : Packet) : Prop where
  found : s.writes w = some job
  chunk : (job.chunks cfg)[t.block]? = some c
  requested : ∃ pack, job.life t = .requested pack
  block : blockId arrived = c.blockOf job.write.input.uuid
  writes : s'.writes = Function.update s.writes w (some (job.answer t received))
  reads : s'.reads = s.reads
  blocks : s'.primary cfg = Function.update (s.primary cfg) (blockId arrived)
    ((s.primary cfg (blockId arrived)).handle arrived)
  log : s'.log = ⟨.write w t, arrived, received.header.type⟩ :: s.log

private theorem route_primary {w : ℕ} {t : WriteTicket} {job : Job} {c : Chunk} {conn : Conn}
    (hw : s.writes w = some job) (hc : (job.chunks cfg)[t.block]? = some c)
    (ht : ∀ k j r, t ≠ .replica k j r) (h : s.route cfg (.write w t) = some conn) :
    conn.index % cfg.hosts = cfg.primaryHost (c.blockOf job.write.input.uuid) := by
  have hfits : c.Fits cfg _ _ := job.write.input.fits (List.mem_of_getElem? hc)
  simp only [route, hw, hc, Option.map_some, Option.some_inj] at h
  rw [← h, Config.primaryHost, hfits.blockOf_toNat]
  cases t with
  | vote j => exact Nat.mod_eq_of_lt (cfg.selectReplica _ _ _).isLt
  | commit k j => exact Nat.mod_eq_of_lt (cfg.selectReplica _ _ _).isLt
  | replica k j r => exact absurd rfl (ht k j r)

/-- **A prepare is handled.** The server that holds the block agrees unless it is a full prepare
and the block has a pending log. -/
theorem handle_vote (hinv : s.Inv cfg) {w j : ℕ} {stray : ℕ → UInt8}
    (h : step cfg s (.handle (.write w (.vote j)) stray) = some s') :
    ∃ job c arrived received, Handles cfg s s' w (.vote j) job c arrived received ∧
      (arrived.header.type = .twoPcPrepare ∨ arrived.header.type = .twoPcPrepareQuick) ∧
      patchOf arrived = ⟨c.offset, job.write.input.slice c⟩ ∧ Sized arrived ∧
      received.header.type =
        if arrived.header.type = .twoPcPrepare ∧
          (s.primary cfg (blockId arrived)).create.havePending
        then .twoPcPrepareAbort else .twoPcPrepareAgree := by
  obtain ⟨conn, pack, arrived, received, _, _, hroute, hlife, harrived, hreceived, hwrites, hreads,
    hserver, hlog, -⟩ := step_handle h
  obtain ⟨job, hw, hj⟩ := life_write_eq (by simp) hlife
  obtain ⟨checked, c, hc, rfl⟩ := (hinv.write w job hw).vote_pack j pack hj
  obtain ⟨htype, hblock, hpatch, hsized⟩ := arrive_prepare (List.mem_of_getElem? hc) harrived
  have hhost := route_primary hw hc (by simp) hroute
  rw [← hblock] at hhost
  rw [hhost] at hserver hlog hreceived
  have hprepare : arrived.header.type = .twoPcPrepare ∨
      arrived.header.type = .twoPcPrepareQuick := by
    cases checked with
    | true => exact Or.inr htype
    | false => exact Or.inl htype
  have hvote := Server.handle_vote stray (s.server (cfg.primaryHost (blockId arrived))) arrived
    hprepare
  rw [hvote] at hlog hreceived
  have hrtype := received_type hreceived
  refine ⟨job, c, arrived, received, ⟨hw, hc, ⟨_, hj⟩, hblock, ?_, ?_, primary_update hserver, ?_⟩,
    hprepare, hpatch, hsized, hrtype⟩
  · rw [hwrites, answer, hw]
    rfl
  · rw [hreads, answer]
  · rw [hlog, hrtype]
    rfl

/-- **A commit is handled**, as an execute or a rollback by the decision of its call. -/
theorem handle_commit (hinv : s.Inv cfg) {w k j : ℕ} {stray : ℕ → UInt8}
    (h : step cfg s (.handle (.write w (.commit k j)) stray) = some s') :
    ∃ job c arrived received call, Handles cfg s s' w (.commit k j) job c arrived received ∧
      job.write.commits[k]? = some call ∧
      arrived.header.type =
        if call.allSsbdAgree then .twoPcCommitExecute else .twoPcCommitRollback := by
  obtain ⟨conn, pack, arrived, received, _, _, hroute, hlife, harrived, hreceived, hwrites, hreads,
    hserver, hlog, -⟩ := step_handle h
  obtain ⟨job, hw, hj⟩ := life_write_eq (by simp) hlife
  obtain ⟨call, c, hcall, hc, rfl⟩ := (hinv.write w job hw).commit_pack k j pack hj
  obtain ⟨htype, hblock⟩ := arrive_commit harrived
  have hhost := route_primary hw hc (by simp) hroute
  rw [← hblock] at hhost
  rw [hhost] at hserver hlog hreceived
  have hcommit := Server.handle_commit stray (s.server (cfg.primaryHost (blockId arrived))) arrived
    (by rw [htype]; cases call.allSsbdAgree <;> simp)
  rw [hcommit] at hlog hreceived
  have hrtype := received_type hreceived
  refine ⟨job, c, arrived, received, call,
    ⟨hw, hc, ⟨_, hj⟩, hblock, ?_, ?_, primary_update hserver, ?_⟩, hcall, htype⟩
  · rw [hwrites, answer, hw]
    rfl
  · rw [hreads, answer]
  · rw [hlog, hrtype]
    rfl

theorem handle_replica (hinv : s.Inv cfg) {w k j r : ℕ} {stray : ℕ → UInt8}
    (h : step cfg s (.handle (.write w (.replica k j r)) stray) = some s') :
    ∃ job c arrived received, s.writes w = some job ∧ (job.chunks cfg)[j]? = some c ∧
      (∃ pack, job.life (.replica k j r) = .requested pack) ∧
      arrived.header.type = .replication ∧ blockId arrived = c.blockOf job.write.input.uuid ∧
      patchOf arrived = ⟨c.offset, []⟩ ∧ Sized arrived ∧
      s'.writes = Function.update s.writes w (some (job.answer (.replica k j r) received)) ∧
      s'.reads = s.reads ∧ s'.primary cfg = s.primary cfg ∧
      (∃ host, s'.server = Function.update s.server host
        ((s.server host).handle stray arrived).1) ∧
      ∃ type, s'.log = ⟨.write w (.replica k j r), arrived, type⟩ :: s.log := by
  obtain ⟨conn, pack, arrived, received, _, _, hroute, hlife, harrived, hreceived, hwrites, hreads,
    hserver, hlog, -⟩ := step_handle h
  obtain ⟨job, hw, hj⟩ := life_write_eq (by simp) hlife
  obtain ⟨c, hc, rfl⟩ := (hinv.write w job hw).replica_pack k j r pack hj
  obtain ⟨htype, hblock, hpatch, hsized⟩ := arrive_replica (List.mem_of_getElem? hc) harrived
  refine ⟨job, c, arrived, received, hw, hc, ⟨_, hj⟩, htype, hblock, hpatch, hsized, ?_, ?_,
    primary_same hserver fun blk ↦ by rw [Block.handle, htype], ⟨_, hserver⟩, _, hlog⟩
  · rw [hwrites, answer, hw]
    rfl
  · rw [hreads, answer]

/-- The bytes a get is answered with; none if there is no block. -/
def readBlock (stray : ℕ → UInt8) (content : Option Buf) (offset length : ℕ) : Buf :=
  content.elim [] fun block ↦ Server.readBuffer stray block offset length

private theorem startDbRead_data (stray : ℕ → UInt8) (server : Server) (pack : Packet) :
    (server.startDbRead stray pack).data = readBlock stray (server.db pack.header.asString)
      pack.header.position.toNat pack.header.datasize.toNat := by
  rw [Server.startDbRead, readBlock]
  cases server.db pack.header.asString <;> rfl

/-- **A get is handled**: it is answered from the block, which stays as it is. -/
theorem handle_get (hinv : s.Inv cfg) {r j : ℕ} {stray : ℕ → UInt8}
    (h : step cfg s (.handle (.read r j) stray) = some s') :
    ∃ job c arrived received, s.reads r = some job ∧ (job.chunks cfg)[j]? = some c ∧
      (∃ pack, job.life j = .requested pack) ∧ arrived.header.type = .get ∧
      s'.reads = Function.update s.reads r (some (job.answer j received)) ∧
      s'.writes = s.writes ∧ s'.primary cfg = s.primary cfg ∧
      (∃ type, s'.log = ⟨.read r j, arrived, type⟩ :: s.log) ∧
      received.data = readBlock stray (s.primary cfg (c.blockOf job.input.uuid)).content
        c.offset c.length := by
  obtain ⟨conn, pack, arrived, received, _, _, hroute, hlife, harrived, hreceived, hwrites, hreads,
    hserver, hlog, -⟩ := step_handle h
  obtain ⟨job, hr, hj⟩ := life_read_eq (by simp) hlife
  obtain ⟨c, hc, rfl⟩ := (hinv.read r job hr).get_pack j pack hj
  have hmem := List.mem_of_getElem? hc
  have hfits : c.Fits cfg _ _ := job.input.fits hmem
  obtain ⟨htype, hblock, hposition, hdatasize⟩ := arrive_get hmem harrived
  have hhost : conn.index % cfg.hosts = cfg.primaryHost (c.blockOf job.input.uuid) := by
    simp only [route, hr, hc, Option.map_some, Option.some_inj] at hroute
    rw [← hroute, Config.primaryHost, hfits.blockOf_toNat]
    exact Nat.mod_eq_of_lt (cfg.selectReplica _ _ _).isLt
  rw [hhost] at hserver hlog hreceived
  have hcontent : (s.primary cfg (c.blockOf job.input.uuid)).content
      = (s.server (cfg.primaryHost (c.blockOf job.input.uuid))).db arrived.header.asString := by
    rw [asString_eq, hblock]
    rfl
  have hdata : ((s.server (cfg.primaryHost (c.blockOf job.input.uuid))).startDbRead stray
      arrived).data = readBlock stray (s.primary cfg (c.blockOf job.input.uuid)).content
        c.offset c.length := by
    rw [startDbRead_data, hcontent, hposition, hdatasize]
  rw [Server.handle_get _ _ _ htype] at hreceived
  have hlength : ((s.server (cfg.primaryHost (c.blockOf job.input.uuid))).startDbRead stray
      arrived).data.length < 2 ^ 32 := by
    have hle := hfits.length_le
    rw [hdata]
    cases (s.primary cfg (c.blockOf job.input.uuid)).content with
    | none => rw [readBlock, Option.elim_none, List.length_nil]; omega
    | some block => rw [readBlock, Option.elim_some, Server.readBuffer_length]; omega
  refine ⟨job, c, arrived, received, hr, hc, ⟨_, hj⟩, htype, ?_, ?_,
    primary_same hserver fun blk ↦ by rw [Block.handle, htype], ⟨_, hlog⟩, ?_⟩
  · rw [hreads, answer, hr]
    rfl
  · rw [hwrites, answer]
  · rw [received_eq hlength hreceived, hdata]

/-- Only prepares and commits change blocks, and only servers write to the log. -/
theorem primary_step (hinv : s.Inv cfg) {e : Event} (h : step cfg s e = some s')
    (hvote : ∀ w j stray, e ≠ .handle (.write w (.vote j)) stray)
    (hcommit : ∀ w k j stray, e ≠ .handle (.write w (.commit k j)) stray) :
    s'.primary cfg = s.primary cfg := by
  have hsame : s'.server = s.server → s'.primary cfg = s.primary cfg := by
    intro hserver
    funext b
    rw [primary, hserver, primary]
  cases e with
  | startWrite | startRead =>
    rw [step, Option.some_inj] at h
    subst h
    rfl
  | sendPrepare => obtain ⟨_, _, _, _, _, _, h, -⟩ := step_sendPrepare h; exact hsame h
  | sendGet => obtain ⟨_, _, _, _, _, _, h, -⟩ := step_sendGet h; exact hsame h
  | writeError => obtain ⟨_, _, _, _, h, -⟩ := step_writeError h; exact hsame h
  | callback => obtain ⟨_, _, _, _, h, -⟩ := step_callback h; exact hsame h
  | handle t stray =>
    cases t with
    | read r j =>
      obtain ⟨_, _, _, _, _, _, _, _, _, _, h, -⟩ := handle_get hinv h
      exact h
    | write w t =>
      cases t with
      | vote j => exact absurd rfl (hvote w j stray)
      | commit k j => exact absurd rfl (hcommit w k j stray)
      | replica k j r =>
        obtain ⟨_, _, _, _, _, _, _, _, _, _, _, _, _, h, -⟩ := handle_replica hinv h
        exact h

end Cluster

end Slsfs.Datafunction

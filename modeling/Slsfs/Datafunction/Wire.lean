import Slsfs.Datafunction.ReadJob
import Slsfs.Lib.Framing
import Slsfs.Ssbd.Server

/-!
# The byte streams between a datafunction and an ssbd server

A connection carries the requests of many jobs one after the other, and nothing on it marks where
one ends. Both sides know from the header whether a body follows. The two sides agree because
`serialize` corrects `datasize` before it is sent: a replica request is created with the size of its
piece and then sent without data, and a commit that is to be executed is read with a body of the
size zero. A `get` keeps the size it asks for, since it is sent with `serialize_header`, and the
server reads no body for it.

`Request` is what `storage_conf_ssbd_backend` can create; the packets of a write and of a read are
of this form.
-/

namespace Slsfs.Datafunction

open LeveldbPack Ssbd

/-- What a request of the backend is for, with what it carries or asks for. -/
inductive Purpose where
  /-- A prepare, quick if the file is marked. A payload is a part of one block; the buffer that
  takes it together with its header has a 32-bit size. -/
  | prepare (checked : Bool) (payload : Buf)
    (size_lt : PacketHeader.bytesize + payload.length < 2 ^ 32)
  | commit (allSsbdAgree : Bool)
  | replication (blockwritesize : UInt32)
  | get (blockreadsize : UInt32)

/-- A request as `storage_conf_ssbd_backend` creates it. -/
structure Request where
  uuid : Key
  version : UInt32
  blockid : UInt32
  offset : UInt16
  salt : Salt
  purpose : Purpose

namespace Request

/-- The packet that is given to `start_send_request`. -/
def packet (r : Request) : Packet :=
  let create (type : MsgT) (size : ℕ) : Packet :=
    Packet.createRequest r.uuid type r.version r.blockid.toNat r.offset.toNat size r.salt
  match r.purpose with
  | .prepare checked payload _ =>
    { create (if checked then .twoPcPrepareQuick else .twoPcPrepare) payload.length with
      data := payload }
  | .commit agree => create (if agree then .twoPcCommitExecute else .twoPcCommitRollback) 0
  | .replication blockwritesize => create .replication blockwritesize.toNat
  | .get blockreadsize => create .get blockreadsize.toNat

def type (r : Request) : MsgT :=
  match r.purpose with
  | .prepare checked _ _ => if checked then .twoPcPrepareQuick else .twoPcPrepare
  | .commit agree => if agree then .twoPcCommitExecute else .twoPcCommitRollback
  | .replication _ => .replication
  | .get _ => .get

/-- The bytes that go along with the header. -/
def payload (r : Request) : Buf :=
  match r.purpose with
  | .prepare _ payload _ => payload
  | _ => []

/-- The size in the header: that of the payload, or the size that is asked for. -/
def datasize (r : Request) : UInt32 :=
  match r.purpose with
  | .get blockreadsize => blockreadsize
  | _ => UInt32.ofNat r.payload.length

/-- The header and the payload of the request. -/
def message (r : Request) : Packet where
  header := { type := r.type, uuid := r.uuid, blockid := r.blockid, position := r.offset
              datasize := r.datasize, version := r.version, salt := r.salt }
  data := r.payload

@[simp] theorem packet_type (r : Request) : r.packet.header.type = r.type := by
  obtain ⟨uuid, version, blockid, offset, salt, purpose⟩ := r
  cases purpose <;> rfl

private theorem packet_data (r : Request) : r.packet.data = r.payload := by
  obtain ⟨uuid, version, blockid, offset, salt, purpose⟩ := r
  cases purpose <;> rfl

private theorem payload_length_lt (r : Request) : r.payload.length < 2 ^ 32 := by
  obtain ⟨uuid, version, blockid, offset, salt, purpose⟩ := r
  cases purpose with
  | prepare checked payload hlt => exact lt_of_le_of_lt (Nat.le_add_left _ _) hlt
  | commit | replication | get => exact Nat.two_pow_pos 32

private theorem sealedHeader_packet (r : Request) (hget : r.type ≠ .get) :
    r.packet.sealedHeader = r.message.header := by
  obtain ⟨uuid, version, blockid, offset, salt, purpose⟩ := r
  cases purpose with
  | prepare | commit | replication =>
    simp [packet, message, type, datasize, payload, Packet.sealedHeader, Packet.createRequest]
  | get => exact absurd rfl hget

private theorem header_packet_of_get (r : Request) (hget : r.type = .get) :
    r.packet.header = r.message.header ∧ r.payload = [] := by
  obtain ⟨uuid, version, blockid, offset, salt, purpose⟩ := r
  cases purpose with
  | prepare checked => cases checked <;> cases hget
  | commit agree => cases agree <;> cases hget
  | replication => cases hget
  | get => simp [packet, message, type, datasize, payload, Packet.createRequest]

/-- A rollback is read without a body, and has none. -/
theorem carriesBody_or (r : Request) :
    r.type = .get ∨ r.type.carriesBody = true ∨
      r.type = .twoPcCommitRollback ∧ r.payload = [] := by
  obtain ⟨uuid, version, blockid, offset, salt, purpose⟩ := r
  cases purpose with
  | prepare checked => cases checked <;> exact .inr (.inl rfl)
  | commit agree =>
    cases agree with
    | false => exact .inr (.inr ⟨rfl, rfl⟩)
    | true => exact .inr (.inl rfl)
  | replication => exact .inr (.inl rfl)
  | get => exact .inl rfl

private theorem readRequest_sent (r : Request) (rest : Buf) :
    readRequest (r.packet.sent ++ rest) = some (r.message, rest) := by
  have hlt : r.packet.data.length < 2 ^ 32 := by
    rw [packet_data]
    exact r.payload_length_lt
  have hmessage : r.message = ⟨r.message.header, r.payload⟩ := rfl
  rcases r.carriesBody_or with hget | hbody | ⟨hroll, hnil⟩
  · obtain ⟨hheader, hnil⟩ := r.header_packet_of_get hget
    rw [readRequest_sent_of_get (by rw [packet_type, hget]), hheader, hmessage, hnil]
  · have hget : r.type ≠ .get := fun h ↦ by rw [h] at hbody; cases hbody
    rw [readRequest_sent_of_body (by rw [packet_type, hbody]) hlt, sealedHeader_packet r hget,
      packet_data, hmessage]
  · have hget : r.type ≠ .get := fun h ↦ by rw [h] at hroll; cases hroll
    rw [readRequest_sent_of_rollback (by rw [packet_type, hroll]) (by rw [packet_data, hnil]),
      sealedHeader_packet r hget, hmessage, hnil]

end Request

/-! ## The packets of a job are requests

Whatever a write or a read sends is one of the packets that are read back. -/

section Created

variable (w : Write) (salt : Salt) (c : Chunk)

theorem exists_sent_preparePacket (checked : Bool) (hc : c.length ≤ 2 ^ 16) :
    ∃ r : Request, r.packet.sent = (w.preparePacket salt checked c).sent := by
  have hsize : PacketHeader.bytesize + (w.input.slice c).length < 2 ^ 32 := by
    rw [WriteRequest.slice, List.length_take, PacketHeader.bytesize]
    omega
  refine ⟨⟨w.input.uuid, w.selectedVersion, UInt32.ofNat c.blockid, UInt16.ofNat c.offset, salt,
    .prepare checked (w.input.slice c) hsize⟩, ?_⟩
  -- the size that was asked for is overwritten with that of the slice
  cases checked <;>
  simp only [Request.packet, Write.preparePacket, Packet.createRequest, Packet.sent,
    Packet.serialize, Packet.sealedHeader, UInt32.ofNat_toNat, UInt16.ofNat_toNat,
    Bool.false_eq_true, if_true, if_false]

theorem exists_packet_eq_commitPacket (agree : Bool) :
    ∃ r : Request, r.packet = w.commitPacket salt agree c :=
  ⟨⟨w.input.uuid, w.selectedVersion, UInt32.ofNat c.blockid, UInt16.ofNat c.offset, salt,
    .commit agree⟩, by
      simp only [Request.packet, Write.commitPacket, Packet.createRequest, UInt32.ofNat_toNat,
        UInt16.ofNat_toNat]⟩

theorem exists_packet_eq_replicaPacket : ∃ r : Request, r.packet = w.replicaPacket salt c :=
  ⟨⟨w.input.uuid, w.selectedVersion, UInt32.ofNat c.blockid, UInt16.ofNat c.offset, salt,
    .replication (UInt32.ofNat c.length)⟩,
    by simp only [Request.packet, Write.replicaPacket, Packet.createRequest, UInt32.ofNat_toNat,
      UInt16.ofNat_toNat]⟩

theorem exists_packet_eq_getPacket (job : ReadJob) (j : ℕ) :
    ∃ r : Request, r.packet = job.getPacket j c :=
  ⟨⟨job.input.uuid, 0, UInt32.ofNat c.blockid, UInt16.ofNat c.offset, job.salt j,
    .get (UInt32.ofNat c.length)⟩,
    by simp only [Request.packet, ReadJob.getPacket, Packet.createRequest, UInt32.ofNat_toNat,
      UInt16.ofNat_toNat]⟩

end Created

/-! ## The answers

A server answers with the header of the request, the type changed, and for a `get` with as many
bytes as it asks for. These fit in a packet if the size asked for does. -/

/-- A packet with which some server answers some packet. Of a `get` it takes that the buffer of the
answer has a 32-bit size. -/
def Response : Type :=
  { pack : Packet // ∃ stray server request,
    PacketHeader.bytesize + request.header.datasize.toNat < 2 ^ 32 ∧
      (Server.handle stray server request).2 = pack }

namespace Response

/-- The header and the data of the answer; `serialize` sets the size before it writes the header. -/
def message (r : Response) : Packet := { header := r.1.sealedHeader, data := r.1.data }

private theorem data_length_lt (r : Response) : r.1.data.length < 2 ^ 32 := by
  obtain ⟨pack, stray, server, request, -, rfl⟩ := r
  have hrespond : ∀ type, (Server.respond request type).data.length < 2 ^ 32 :=
    fun type ↦ Nat.two_pow_pos 32
  cases htype : request.header.type with
  | get =>
    simp only [Server.handle, htype, Server.startDbRead]
    split
    · exact hrespond .err
    · rw [Server.readBuffer_length]
      exact UInt32.toNat_lt _
  | twoPcPrepare =>
    simp only [Server.handle, htype, Server.startTwoPcPrepare]
    split
    · exact hrespond _
    · split
      · exact hrespond _
      · exact hrespond _
  | twoPcPrepareQuick =>
    simp only [Server.handle, htype, Server.startTwoPcPrepareQuick]
    split
    · exact hrespond _
    · exact hrespond _
  | twoPcCommitExecute | twoPcCommitRollback | replication | err | ack | twoPcCommitAck
  | twoPcPrepareAgree | twoPcPrepareAbort =>
    simp only [Server.handle, htype]
    exact hrespond _

private theorem readResponse_bytes (r : Response) (rest : Buf) :
    readResponse (r.1.serialize ++ rest) = some (r.message, rest) :=
  readResponse_serialize r.data_length_lt rest

end Response

private theorem serialize_ne_nil (p : Packet) : p.serialize ≠ [] := by
  rw [← List.length_pos_iff, Packet.serialize, List.length_append, PacketHeader.dump_length]
  exact Nat.add_pos_left (by decide) _

private theorem sent_ne_nil (p : Packet) : p.sent ≠ [] := by
  rw [Packet.sent]
  split
  · rw [← List.length_pos_iff, Packet.serializeHeader, PacketHeader.dump_length]
    decide
  · exact serialize_ne_nil p

end Slsfs.Datafunction

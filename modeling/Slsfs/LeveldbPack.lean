import Slsfs.Lib.Bytes
import Slsfs.Lib.Decimal

/-!
# The packets between a datafunction and an ssbd server

`leveldb-serializer.hpp`: the 52-byte header, its two byte orders, and what each side reads back
from the stream. The message type is copied in host order, every other integer goes through
`hton`; the host is taken to be little-endian.

Two details decide what a server receives. `serialize` overwrites `datasize` with the size of the
buffer that is attached, whatever `create_request` was given, while `serialize_header` sends the
header as it stands. A `get` is sent with the second, everything else with the first.
-/

namespace Slsfs.LeveldbPack

abbrev Buf := List UInt8

/-- `key_t`: a 256-bit file id. -/
abbrev Key := List.Vector UInt8 32

abbrev Salt := List.Vector UInt8 4

/-- `msg_t`. -/
inductive MsgT where
  | err
  | ack
  | get
  | twoPcPrepare
  | twoPcPrepareQuick
  | twoPcPrepareAgree
  | twoPcPrepareAbort
  | twoPcCommitExecute
  | twoPcCommitRollback
  | twoPcCommitAck
  | replication
  deriving DecidableEq, Repr

/-- The value of the enumerator. -/
def MsgT.code : MsgT → ℕ
  | .err => 0b00000000
  | .ack => 0b00000001
  | .get => 0b00000010
  | .twoPcPrepare => 0b00001000
  | .twoPcPrepareQuick => 0b00001001
  | .twoPcPrepareAgree => 0b00001010
  | .twoPcPrepareAbort => 0b00001011
  | .twoPcCommitExecute => 0b00001100
  | .twoPcCommitRollback => 0b00001101
  | .twoPcCommitAck => 0b00001110
  | .replication => 0b00001111

/-- The enumerator with a given value, if there is one. -/
def MsgT.ofCode : ℕ → Option MsgT
  | 0b00000000 => some .err
  | 0b00000001 => some .ack
  | 0b00000010 => some .get
  | 0b00001000 => some .twoPcPrepare
  | 0b00001001 => some .twoPcPrepareQuick
  | 0b00001010 => some .twoPcPrepareAgree
  | 0b00001011 => some .twoPcPrepareAbort
  | 0b00001100 => some .twoPcCommitExecute
  | 0b00001101 => some .twoPcCommitRollback
  | 0b00001110 => some .twoPcCommitAck
  | 0b00001111 => some .replication
  | _ => none

/-- `packet_header`. -/
structure PacketHeader where
  type : MsgT
  uuid : Key
  blockid : UInt32
  position : UInt16
  datasize : UInt32
  version : UInt32
  salt : Salt
  deriving DecidableEq

/-- `packet`: a header and the buffer of its `packet_data`. -/
structure Packet where
  header : PacketHeader
  data : Buf
  deriving DecidableEq

namespace PacketHeader

def bytesize : ℕ := 52

/-- The leveldb key of a block: the raw file id followed by the block id in decimal. -/
def asString (h : PacketHeader) : Buf := h.uuid.toList ++ decimal h.blockid.toNat

def dump (h : PacketHeader) : Buf :=
  (littleEndian 2 h.type.code).toList
    ++ (h.uuid.toList
    ++ ((bigEndian 4 h.blockid.toNat).toList
    ++ ((bigEndian 2 h.position.toNat).toList
    ++ ((bigEndian 4 h.datasize.toNat).toList
    ++ ((bigEndian 4 h.version.toNat).toList
    ++ h.salt.toList)))))

/-- A header off the front of a stream, with the rest of the stream. -/
def parse (stream : Buf) : Option (PacketHeader × Buf) := do
  let (type, stream) ← cut 2 stream
  let type ← MsgT.ofCode (ofLittleEndian type)
  let (uuid, stream) ← cut 32 stream
  let (blockid, stream) ← cut 4 stream
  let (position, stream) ← cut 2 stream
  let (datasize, stream) ← cut 4 stream
  let (version, stream) ← cut 4 stream
  let (salt, stream) ← cut 4 stream
  return ({ type, uuid, blockid := UInt32.ofNat (ofBigEndian blockid)
            position := UInt16.ofNat (ofBigEndian position)
            datasize := UInt32.ofNat (ofBigEndian datasize)
            version := UInt32.ofNat (ofBigEndian version), salt }, stream)

end PacketHeader

namespace Packet

/-- `create_request`. The block id, the offset and the size are narrowed to their header fields. -/
def createRequest (name : Key) (type : MsgT) (version : UInt32) (partition location size : ℕ)
    (salt : Salt) : Packet where
  header := { type, uuid := name, blockid := UInt32.ofNat partition
              position := UInt16.ofNat location, datasize := UInt32.ofNat size, version, salt }
  data := []

/-- The header as `serialize` leaves it: `datasize` is that of the attached buffer. -/
def sealedHeader (p : Packet) : PacketHeader :=
  { p.header with datasize := UInt32.ofNat p.data.length }

def serialize (p : Packet) : Buf := p.sealedHeader.dump ++ p.data

def serializeHeader (p : Packet) : Buf := p.header.dump

/-- The bytes `start_send_request` writes. -/
def sent (p : Packet) : Buf :=
  match p.header.type with
  | .get => p.serializeHeader
  | _ => p.serialize

end Packet

/-- The messages whose handler reads `datasize` more bytes off the socket. -/
def MsgT.carriesBody : MsgT → Bool
  | .twoPcPrepare | .twoPcPrepareQuick | .twoPcCommitExecute | .replication => true
  | _ => false

/-- The server's read of one request: the header, then the body its handler asks for. -/
def readRequest (stream : Buf) : Option (Packet × Buf) := do
  let (header, stream) ← PacketHeader.parse stream
  if header.type.carriesBody then
    let (body, stream) ← cut header.datasize.toNat stream
    return ({ header, data := body.toList }, stream)
  else
    return ({ header, data := [] }, stream)

/-- `start_read_one` and `start_read_one_body`: the client's read of one response. -/
def readResponse (stream : Buf) : Option (Packet × Buf) := do
  let (header, stream) ← PacketHeader.parse stream
  let (body, stream) ← cut header.datasize.toNat stream
  return ({ header, data := body.toList }, stream)

/-! ## What arrives is what was sent

The server reads a body for four of the types. A `get` is sent without one. A rollback is sent with
its data and read without, so it has to have none. -/

@[simp] theorem MsgT.ofCode_code (type : MsgT) : MsgT.ofCode type.code = some type := by
  cases type <;> rfl

theorem MsgT.code_lt (type : MsgT) : type.code < 256 ^ 2 := by
  cases type <;> decide

/-- **The header round trip**, with whatever follows on the stream left alone. -/
theorem PacketHeader.parse_dump (h : PacketHeader) (rest : Buf) :
    PacketHeader.parse (h.dump ++ rest) = some (h, rest) := by
  have htype : MsgT.ofCode (ofLittleEndian (littleEndian 2 h.type.code)) = some h.type := by
    rw [ofLittleEndian_littleEndian, Nat.mod_eq_of_lt h.type.code_lt, MsgT.ofCode_code]
  simp only [PacketHeader.parse, PacketHeader.dump, List.append_assoc, cut_append, htype,
    Option.bind_eq_bind, Option.bind_some, ofBigEndian_uint32, ofBigEndian_uint16, pure]

theorem PacketHeader.dump_length (h : PacketHeader) : h.dump.length = PacketHeader.bytesize := by
  simp only [PacketHeader.dump, List.length_append, List.Vector.toList_length]
  rfl

private theorem sealedHeader_datasize {p : Packet} (h : p.data.length < 2 ^ 32) :
    p.sealedHeader.datasize.toNat = p.data.length := by
  rw [Packet.sealedHeader, UInt32.toNat_ofNat', Nat.mod_eq_of_lt h]

theorem readRequest_sent_of_body {p : Packet} (hbody : p.header.type.carriesBody)
    (hlen : p.data.length < 2 ^ 32) (rest : Buf) :
    readRequest (p.sent ++ rest) = some ({ header := p.sealedHeader, data := p.data }, rest) := by
  have hsent : p.sent = p.serialize := by
    cases h : p.header.type <;> simp [Packet.sent, h, MsgT.carriesBody] at hbody ⊢
  rw [hsent, Packet.serialize, List.append_assoc, readRequest, PacketHeader.parse_dump]
  simp only [Option.bind_eq_bind, Option.bind_some]
  rw [if_pos (by rw [Packet.sealedHeader]; exact hbody)]
  exact bind_cut (sealedHeader_datasize hlen)
    fun body stream ↦ some (Packet.mk p.sealedHeader body, stream)

theorem readRequest_sent_of_get {p : Packet} (hget : p.header.type = .get) (rest : Buf) :
    readRequest (p.sent ++ rest) = some ({ header := p.header, data := [] }, rest) := by
  have hsent : p.sent = p.header.dump := by rw [Packet.sent, hget, Packet.serializeHeader]
  rw [hsent, readRequest, PacketHeader.parse_dump]
  simp [hget, MsgT.carriesBody]

theorem readRequest_sent_of_rollback {p : Packet} (hroll : p.header.type = .twoPcCommitRollback)
    (hdata : p.data = []) (rest : Buf) :
    readRequest (p.sent ++ rest) = some ({ header := p.sealedHeader, data := [] }, rest) := by
  have hsent : p.sent = p.sealedHeader.dump := by
    rw [Packet.sent, hroll, Packet.serialize, hdata, List.append_nil]
  have htype : p.sealedHeader.type = .twoPcCommitRollback := hroll
  rw [hsent, readRequest, PacketHeader.parse_dump]
  simp [htype, MsgT.carriesBody]

theorem readResponse_serialize {p : Packet} (hlen : p.data.length < 2 ^ 32) (rest : Buf) :
    readResponse (p.serialize ++ rest)
      = some ({ header := p.sealedHeader, data := p.data }, rest) := by
  rw [Packet.serialize, List.append_assoc, readResponse, PacketHeader.parse_dump]
  simp only [Option.bind_eq_bind, Option.bind_some]
  exact bind_cut (sealedHeader_datasize hlen)
    fun body stream ↦ some (Packet.mk p.sealedHeader body, stream)

end Slsfs.LeveldbPack

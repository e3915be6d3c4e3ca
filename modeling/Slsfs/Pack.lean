import Slsfs.LeveldbPack

/-!
# The packets between clients, proxies and workers

`serializer.hpp`: a 45-byte header followed by the data. The client library, the proxy and the
datafunction have the same file. The message type is one byte, the key, the sequence and the salt
are copied, and the size of the data goes through `hton`.

`serialize` sets `datasize` to the size of the data and allocates the header and the data together.
That sum has 32 bits.
-/

namespace Slsfs.Pack

open LeveldbPack (Buf Key)

/-- `msg_t`. -/
inductive MsgT where
  | err
  | put
  | get
  | ack
  | proxyjoin
  | setTimer
  | cacheTransfer
  | workerReg
  | workerDereg
  | workerPushRequest
  | workerResponse
  | trigger
  | triggerReject
  deriving DecidableEq, Repr

/-- The value of the enumerator. -/
def MsgT.code : MsgT → ℕ
  | .err => 0
  | .put => 1
  | .get => 2
  | .ack => 3
  | .proxyjoin => 4
  | .setTimer => 5
  | .cacheTransfer => 6
  | .workerReg => 8
  | .workerDereg => 9
  | .workerPushRequest => 10
  | .workerResponse => 11
  | .trigger => 14
  | .triggerReject => 15

/-- The enumerator with a given value, if there is one. -/
def MsgT.ofCode : ℕ → Option MsgT
  | 0 => some .err
  | 1 => some .put
  | 2 => some .get
  | 3 => some .ack
  | 4 => some .proxyjoin
  | 5 => some .setTimer
  | 6 => some .cacheTransfer
  | 8 => some .workerReg
  | 9 => some .workerDereg
  | 10 => some .workerPushRequest
  | 11 => some .workerResponse
  | 14 => some .trigger
  | 15 => some .triggerReject
  | _ => none

/-- `packet_header`. -/
structure PacketHeader where
  type : MsgT
  key : Key
  datasize : UInt32
  sequence : List.Vector UInt8 4
  randomSalt : List.Vector UInt8 4
  deriving DecidableEq

/-- `packet`: a header and the buffer of its `packet_data`. -/
structure Packet where
  header : PacketHeader
  data : Buf
  deriving DecidableEq

namespace PacketHeader

def bytesize : ℕ := 45

def dump (h : PacketHeader) : Buf :=
  (bigEndian 1 h.type.code).toList
    ++ (h.key.toList
    ++ (h.sequence.toList
    ++ (h.randomSalt.toList
    ++ (bigEndian 4 h.datasize.toNat).toList)))

/-- A header off the front of a stream, with the rest of the stream. A type that is no enumerator
matches no case of the switches that follow, so it ends the reading as a failure does. -/
def parse (stream : Buf) : Option (PacketHeader × Buf) := do
  let (type, stream) ← cut 1 stream
  let type ← MsgT.ofCode (ofBigEndian type)
  let (key, stream) ← cut 32 stream
  let (sequence, stream) ← cut 4 stream
  let (randomSalt, stream) ← cut 4 stream
  let (datasize, stream) ← cut 4 stream
  return ({ type, key, sequence, randomSalt
            datasize := UInt32.ofNat (ofBigEndian datasize) }, stream)

end PacketHeader

namespace Packet

/-- The header as `serialize` leaves it. -/
def sealedHeader (p : Packet) : PacketHeader :=
  { p.header with datasize := UInt32.ofNat p.data.length }

/-- `none` if the data is copied past the end of the buffer. -/
def serialize (p : Packet) : Option Buf :=
  if PacketHeader.bytesize + p.data.length < 2 ^ 32 then some (p.sealedHeader.dump ++ p.data)
  else none

end Packet

/-- The read of a header and of the body it announces. -/
def readPacket (stream : Buf) : Option (Packet × Buf) := do
  let (header, stream) ← PacketHeader.parse stream
  let (body, stream) ← cut header.datasize.toNat stream
  return ({ header, data := body.toList }, stream)

/-! ## What arrives is what was sent

A packet is `Sealed` if its header says the size of its data. `serialize` makes it so, unless the
size does not fit. -/

@[simp] theorem MsgT.ofCode_code (type : MsgT) : MsgT.ofCode type.code = some type := by
  cases type <;> rfl

theorem MsgT.code_lt (type : MsgT) : type.code < 256 ^ 1 := by
  cases type <;> decide

/-- **The header round trip**, with whatever follows on the stream left alone. -/
theorem PacketHeader.parse_dump (h : PacketHeader) (rest : Buf) :
    PacketHeader.parse (h.dump ++ rest) = some (h, rest) := by
  have htype : MsgT.ofCode (ofBigEndian (bigEndian 1 h.type.code)) = some h.type := by
    rw [ofBigEndian_bigEndian, Nat.mod_eq_of_lt h.type.code_lt, MsgT.ofCode_code]
  simp only [PacketHeader.parse, PacketHeader.dump, List.append_assoc, cut_append, htype,
    Option.bind_eq_bind, Option.bind_some, ofBigEndian_uint32, pure]

theorem PacketHeader.dump_length (h : PacketHeader) : h.dump.length = PacketHeader.bytesize := by
  simp only [PacketHeader.dump, List.length_append, List.Vector.toList_length]
  rfl

theorem PacketHeader.length_of_parse {stream rest : Buf} {header : PacketHeader}
    (h : PacketHeader.parse stream = some (header, rest)) :
    stream.length = PacketHeader.bytesize + rest.length := by
  simp only [PacketHeader.parse, Option.bind_eq_bind, Option.bind_eq_some_iff, Prod.exists] at h
  obtain ⟨b, s₁, h₁, t, -, key, s₂, h₂, sequence, s₃, h₃, salt, s₄, h₄, size, s₅, h₅, hpure⟩ := h
  cases hpure
  rw [length_of_cut h₁, length_of_cut h₂, length_of_cut h₃, length_of_cut h₄, length_of_cut h₅,
    PacketHeader.bytesize]
  omega

namespace Packet

/-- The size in the header is that of the data. -/
def Sealed (p : Packet) : Prop := p.header.datasize.toNat = p.data.length

private theorem sealed_sealedHeader {p : Packet} (h : p.data.length < 2 ^ 32) :
    Sealed ⟨p.sealedHeader, p.data⟩ := by
  rw [Sealed, Packet.sealedHeader, UInt32.toNat_ofNat', Nat.mod_eq_of_lt h]

private theorem serialize_eq_some {p : Packet} {bytes : Buf} (h : p.serialize = some bytes) :
    PacketHeader.bytesize + p.data.length < 2 ^ 32 ∧ bytes = p.sealedHeader.dump ++ p.data := by
  rw [serialize] at h
  split at h
  · rename_i hlt
    exact ⟨hlt, (Option.some_inj.mp h).symm⟩
  · cases h

end Packet

/-- A packet with the right size in its header is read off the front of a stream. -/
theorem readPacket_of_sealed {p : Packet} (h : p.Sealed) (rest : Buf) :
    readPacket (p.header.dump ++ (p.data ++ rest)) = some (p, rest) := by
  rw [readPacket, PacketHeader.parse_dump]
  simp only [Option.bind_eq_bind, Option.bind_some]
  exact bind_cut h fun body stream ↦ some (Packet.mk p.header body, stream)

theorem readPacket_serialize {p : Packet} {bytes : Buf} (h : p.serialize = some bytes)
    (rest : Buf) : readPacket (bytes ++ rest) = some (⟨p.sealedHeader, p.data⟩, rest) := by
  obtain ⟨hlt, rfl⟩ := Packet.serialize_eq_some h
  have hsealed : Packet.Sealed ⟨p.sealedHeader, p.data⟩ :=
    Packet.sealed_sealedHeader (lt_of_le_of_lt (Nat.le_add_left _ _) hlt)
  rw [List.append_assoc]
  exact readPacket_of_sealed hsealed rest

end Slsfs.Pack

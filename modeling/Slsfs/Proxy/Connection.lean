import Slsfs.Lib.Framing
import Slsfs.Pack

/-!
# The read loop of a client connection

`tcp_connection::start_read_header` reads a header and branches on its type. Each branch decides for
itself whether it reads the body before the next header: `put` and `trigger` do, and all the other
branches go on with the next header at once. The packets these branches expect have no body, and
they do not check it. So the bytes of an unexpected body are taken for headers.
-/

namespace Slsfs.Proxy

open LeveldbPack (Buf)

/-- What the branch of a header does: the body it reads and what it writes back. -/
structure Handled where
  header : Pack.PacketHeader
  body : Option Buf
  reply : Option Pack.Packet

/-- The header with another type, and no data. -/
def replyTo (header : Pack.PacketHeader) (type : Pack.MsgT) : Pack.Packet :=
  ⟨{ header with type }, []⟩

/-- A branch that reads the body: `start_read_body` and `start_trigger`. If the body does not come
the loop is over. -/
def startReadBody (header : Pack.PacketHeader) (reply : Option Pack.Packet) (stream : Buf) :
    Handled × Option Buf :=
  match cut header.datasize.toNat stream with
  | none => (⟨header, none, none⟩, none)
  | some (body, rest) => (⟨header, some body.toList, reply⟩, some rest)

/-- One round of `start_read_header`. The state is what is left to read, and `none` once the loop is
over. A `worker_reg` hands the socket to the launcher. What `get` and `trigger` write back comes
later. -/
def startReadHeader : Option Buf → Option (Handled × Option Buf)
  | none => none
  | some stream =>
    (Pack.PacketHeader.parse stream).map fun (header, rest) ↦
      match header.type with
      | .put => startReadBody header (some (replyTo header .ack)) rest
      | .trigger => startReadBody header none rest
      | .get => (⟨header, none, none⟩, some rest)
      | .ack => (⟨header, none, some (replyTo header .ack)⟩, some rest)
      | .workerReg => (⟨header, none, none⟩, none)
      | .setTimer | .proxyjoin | .err | .cacheTransfer | .workerDereg | .workerPushRequest
      | .workerResponse | .triggerReject =>
        (⟨header, none, some (replyTo header .err)⟩, some rest)

/-- The loop from the first byte of a connection on: what was handled, and what is left to read. -/
def readConnection (stream : Buf) : List Handled × Option Buf :=
  readLoop startReadHeader stream.length (some stream)

/-- A well-formed packet that a client may send. -/
structure ClientPacket where
  packet : Pack.Packet
  isSealed : packet.Sealed
  type_ne : packet.header.type ≠ .workerReg

namespace ClientPacket

def bytes (p : ClientPacket) : Buf := p.packet.header.dump ++ p.packet.data

end ClientPacket

/-- The types whose branch reads the body. -/
def readsBody (type : Pack.MsgT) : Prop := type = .put ∨ type = .trigger

instance : DecidablePred readsBody := fun _ ↦ inferInstanceAs (Decidable (_ ∨ _))

/-- The loop has read the headers of the packets, each from the first byte behind the packet before
it, and is about to read from the first byte behind the last one. -/
def InStep (packets : List ClientPacket) : Prop :=
  (readConnection (packets.flatMap ClientPacket.bytes)).1.map Handled.header
      = packets.map (fun p ↦ p.packet.header) ∧
    (readConnection (packets.flatMap ClientPacket.bytes)).2 = some []

/-! ## One round

A packet is read as it was sent if its type is one whose body is read, or if it has no body. -/

/-- The number of bytes that the loop takes off the stream with a header. -/
def taken (header : Pack.PacketHeader) : ℕ :=
  Pack.PacketHeader.bytesize + if readsBody header.type then header.datasize.toNat else 0

private theorem length_of_startReadHeader {stream rest : Buf} {handled : Handled}
    (h : startReadHeader (some stream) = some (handled, some rest)) :
    stream.length = taken handled.header + rest.length := by
  obtain ⟨⟨header, after⟩, hparse, hbranch⟩ := Option.map_eq_some_iff.mp h
  rw [Pack.PacketHeader.length_of_parse hparse]
  -- a branch without a body goes on behind the header
  have hskip : ∀ {reply : Option Pack.Packet}, ¬readsBody header.type →
      ((⟨header, none, reply⟩ : Handled), some after) = (handled, some rest) →
      Pack.PacketHeader.bytesize + after.length = taken handled.header + rest.length := by
    intro reply hno heq
    cases heq
    rw [taken, if_neg hno, Nat.add_zero]
  have hbody : ∀ {reply : Option Pack.Packet}, readsBody header.type →
      startReadBody header reply after = (handled, some rest) →
      Pack.PacketHeader.bytesize + after.length = taken handled.header + rest.length := by
    intro reply hyes heq
    rw [startReadBody] at heq
    split at heq
    · cases heq
    · rename_i body rest' hcut
      cases heq
      rw [length_of_cut hcut, taken, if_pos hyes, Nat.add_assoc]
  cases htype : header.type with
  | put | trigger =>
    simp only [htype] at hbranch
    exact hbody (by rw [htype]; decide) hbranch
  | workerReg =>
    simp only [htype] at hbranch
    cases hbranch
  | get | ack | setTimer | proxyjoin | err | cacheTransfer | workerDereg | workerPushRequest
  | workerResponse | triggerReject =>
    simp only [htype] at hbranch
    exact hskip (by rw [htype]; decide) hbranch

/-- What is handled of a packet: with its body if its branch reads it. -/
def ClientPacket.handled (p : ClientPacket) : Handled :=
  match p.packet.header.type with
  | .put =>
    ⟨p.packet.header, some p.packet.data, some (replyTo p.packet.header .ack)⟩
  | .trigger => ⟨p.packet.header, some p.packet.data, none⟩
  | .get | .workerReg => ⟨p.packet.header, none, none⟩
  | .ack => ⟨p.packet.header, none, some (replyTo p.packet.header .ack)⟩
  | .setTimer | .proxyjoin | .err | .cacheTransfer | .workerDereg | .workerPushRequest
  | .workerResponse | .triggerReject =>
    ⟨p.packet.header, none, some (replyTo p.packet.header .err)⟩

private theorem ClientPacket.handled_header (p : ClientPacket) :
    p.handled.header = p.packet.header := by
  rw [handled]
  split <;> rfl

private theorem startReadBody_append {p : ClientPacket} (reply : Option Pack.Packet) (rest : Buf) :
    startReadBody p.packet.header reply (p.packet.data ++ rest)
      = (⟨p.packet.header, some p.packet.data, reply⟩, some rest) := by
  have hcut : (cut p.packet.header.datasize.toNat (p.packet.data ++ rest)).bind
      (fun c ↦ some ((⟨p.packet.header, some c.1.toList, reply⟩ : Handled), some c.2))
      = some (⟨p.packet.header, some p.packet.data, reply⟩, some rest) :=
    bind_cut p.isSealed fun body rest ↦
      some (Handled.mk p.packet.header (some body) reply, some rest)
  rw [startReadBody]
  cases h : cut p.packet.header.datasize.toNat (p.packet.data ++ rest) with
  | none =>
    rw [h] at hcut
    cases hcut
  | some c =>
    rw [h, Option.bind_some, Option.some_inj] at hcut
    exact hcut

/-- A packet whose body is read, or which has none, is taken off the stream as a whole. -/
theorem startReadHeader_bytes {p : ClientPacket}
    (hp : readsBody p.packet.header.type ∨ p.packet.data = []) (rest : Buf) :
    startReadHeader (some (p.bytes ++ rest)) = some (p.handled, some rest) := by
  have hparse : Pack.PacketHeader.parse (p.bytes ++ rest)
      = some (p.packet.header, p.packet.data ++ rest) := by
    rw [ClientPacket.bytes, List.append_assoc, Pack.PacketHeader.parse_dump]
  rw [startReadHeader, hparse, Option.map_some]
  cases htype : p.packet.header.type with
  | put | trigger => simp only [ClientPacket.handled, htype, startReadBody_append]
  | workerReg => exact absurd htype p.type_ne
  | get | ack | setTimer | proxyjoin | err | cacheTransfer | workerDereg | workerPushRequest
  | workerResponse | triggerReject =>
    have hnil : p.packet.data = [] := by
      refine hp.resolve_left ?_
      rw [htype]
      decide
    simp only [ClientPacket.handled, htype, hnil, List.nil_append]

/-! ## Whole streams

In the other direction the argument counts bytes. A round takes the header, and the body if its type
is one that has it, and never more bytes than the packet has. If all headers are those that were
sent, and no bytes are left at the end, then every round has taken all the bytes of its packet. -/

/-- The bytes taken with a list of headers. -/
def takenAll : List Pack.PacketHeader → ℕ
  | [] => 0
  | header :: headers => taken header + takenAll headers

private theorem length_of_readLoop {rounds : ℕ} {stream : Buf}
    (h : (readLoop startReadHeader rounds (some stream)).2 = some []) :
    stream.length
      = takenAll ((readLoop startReadHeader rounds (some stream)).1.map Handled.header) := by
  induction rounds generalizing stream with
  | zero =>
    cases h
    rfl
  | succ rounds ih =>
    cases hread : startReadHeader (some stream) with
    | none =>
      rw [readLoop_of_none hread] at h ⊢
      cases h
      rfl
    | some r =>
      obtain ⟨handled, after⟩ := r
      rw [readLoop_succ_of_some hread] at h ⊢
      cases after with
      | none =>
        have hover : startReadHeader none = none := rfl
        rw [readLoop_of_none hover] at h
        cases h
      | some rest =>
        rw [length_of_startReadHeader hread, ih h, List.map_cons, takenAll]

private theorem taken_le (p : ClientPacket) : taken p.packet.header ≤ p.bytes.length := by
  rw [taken, ClientPacket.bytes, List.length_append, Pack.PacketHeader.dump_length, p.isSealed]
  split <;> omega

private theorem takenAll_le (packets : List ClientPacket) :
    takenAll (packets.map fun p ↦ p.packet.header)
      ≤ (packets.flatMap ClientPacket.bytes).length := by
  induction packets with
  | nil => exact Nat.zero_le _
  | cons p packets ih =>
    rw [List.map_cons, takenAll, List.flatMap_cons, List.length_append]
    exact Nat.add_le_add (taken_le p) ih

/-- All bytes are taken only if no body is left out. -/
theorem forall_of_takenAll_eq {packets : List ClientPacket}
    (h : takenAll (packets.map fun p ↦ p.packet.header)
      = (packets.flatMap ClientPacket.bytes).length) :
    ∀ p ∈ packets, readsBody p.packet.header.type ∨ p.packet.data = [] := by
  induction packets with
  | nil => exact List.forall_mem_nil _
  | cons p packets ih =>
    rw [List.map_cons, takenAll, List.flatMap_cons, List.length_append] at h
    have hhead := taken_le p
    have htail := takenAll_le packets
    refine List.forall_mem_cons.mpr ⟨?_, ih (by omega)⟩
    by_cases hbody : readsBody p.packet.header.type
    · exact .inl hbody
    · refine .inr (List.length_eq_zero_iff.mp ?_)
      have hlen : taken p.packet.header = p.bytes.length := by omega
      rw [taken, if_neg hbody, ClientPacket.bytes, List.length_append,
        Pack.PacketHeader.dump_length] at hlen
      omega

private theorem bytes_ne_nil (p : ClientPacket) : p.bytes ≠ [] := by
  rw [← List.length_pos_iff, ClientPacket.bytes, List.length_append, Pack.PacketHeader.dump_length]
  exact Nat.add_pos_left (by decide) _

/-- **The stream stays in step exactly if only puts and triggers have bodies.** -/
theorem inStep_iff (packets : List ClientPacket) :
    InStep packets ↔
      ∀ p ∈ packets, readsBody p.packet.header.type ∨ p.packet.data = [] := by
  constructor
  · rintro ⟨hheaders, hend⟩
    have hlen := length_of_readLoop hend
    rw [show (readLoop startReadHeader _ _).1 = (readConnection _).1 from rfl, hheaders] at hlen
    exact forall_of_takenAll_eq hlen.symm
  · intro h
    have hloop : readConnection (packets.flatMap ClientPacket.bytes)
        = (packets.map ClientPacket.handled, some []) := by
      have hread := readLoop_flatMap some (fun p hp ↦ startReadHeader_bytes (h p hp))
        (show startReadHeader (some []) = none from rfl)
        (length_le_length_flatMap fun p _ ↦ bytes_ne_nil p)
      rwa [List.append_nil] at hread
    rw [InStep, hloop]
    refine ⟨?_, rfl⟩
    rw [List.map_map]
    exact List.map_congr_left fun p _ ↦ p.handled_header

/-- A get with a body of one byte. -/
def getWithBody : ClientPacket where
  packet := ⟨⟨.get, List.Vector.replicate 32 0, 1, List.Vector.replicate 4 0,
    List.Vector.replicate 4 0⟩, [0]⟩
  isSealed := rfl
  type_ne := by decide

/-- **The body of a get is read as a header.** Behind it comes another get, whose header is read one
byte too early. -/
theorem getWithBody_not_inStep : ¬∀ packets : List ClientPacket, InStep packets := by
  intro h
  obtain ⟨hheaders, -⟩ := h [getWithBody, getWithBody]
  revert hheaders
  decide

end Slsfs.Proxy

import Slsfs.Pack

/-!
# Requests inside packets

`json-replacement.hpp` and `clientlib-packet-create.hpp`: the data of a request packet starts with
the struct `request`, copied as it lies in memory after `to_network_format`. The compiler puts two
bytes between the operation and the position, which nothing sets, so the struct has 12 bytes.
`request_parser` reads the members at their offsets; what follows the struct is the payload.
-/

namespace Slsfs.Jsre

open LeveldbPack (Buf Key)

/-- `type_t`. -/
inductive TypeT where
  | file
  | metadata
  | wakeup
  | storagetest
  deriving DecidableEq, Repr

def TypeT.code : TypeT → ℕ
  | .file => 0
  | .metadata => 1
  | .wakeup => 2
  | .storagetest => 3

def TypeT.ofCode : ℕ → Option TypeT
  | 0 => some .file
  | 1 => some .metadata
  | 2 => some .wakeup
  | 3 => some .storagetest
  | _ => none

/-- `operation_t`. -/
inductive OperationT where
  | write
  | read
  deriving DecidableEq, Repr

def OperationT.code : OperationT → UInt8
  | .write => 0
  | .read => 1

/-- `meta_operation_t`. -/
inductive MetaOperationT where
  | addfile
  | ls
  | mkdir
  deriving DecidableEq, Repr

def MetaOperationT.code : MetaOperationT → UInt8
  | .addfile => 0
  | .ls => 1
  | .mkdir => 2

/-- `request`. The operation of a file and that of a directory share one byte. -/
structure Request where
  type : TypeT
  operation : UInt8
  position : UInt32
  size : UInt32
  deriving DecidableEq

/-- The memory of a request in network format. -/
def Request.bytes (padding : List.Vector UInt8 2) (r : Request) : Buf :=
  (bigEndian 1 r.type.code).toList
    ++ ((r.operation ::ᵥ List.Vector.nil).toList
    ++ (padding.toList
    ++ ((bigEndian 4 r.position.toNat).toList
    ++ (bigEndian 4 r.size.toNat).toList)))

/-- What the members of a `request_parser` return. -/
structure RequestParser where
  uuid : Key
  type : TypeT
  operation : UInt8
  position : UInt32
  size : UInt32
  data : Buf
  deriving DecidableEq

/-- `request_parser` of a packet; `none` if its data is shorter than a request. -/
def requestParser (pack : Pack.Packet) : Option RequestParser := do
  let (type, rest) ← cut 1 pack.data
  let type ← TypeT.ofCode (ofBigEndian type)
  let (operation, rest) ← cut 1 rest
  let (_, rest) ← cut 2 rest
  let (position, rest) ← cut 4 rest
  let (size, rest) ← cut 4 rest
  return { uuid := pack.header.key, type, operation := operation.head
           position := UInt32.ofNat (ofBigEndian position)
           size := UInt32.ofNat (ofBigEndian size), data := rest }

/-- `sizeof (request)`. -/
def Request.sizeOf : ℕ := 12

theorem Request.bytes_length (padding : List.Vector UInt8 2) (r : Request) :
    (r.bytes padding).length = Request.sizeOf := by
  simp only [Request.bytes, List.length_append, List.Vector.toList_length]
  rfl

theorem TypeT.ofCode_code (type : TypeT) :
    TypeT.ofCode (ofBigEndian (bigEndian 1 type.code)) = some type := by
  cases type <;> decide

/-- **The parser finds the members of the struct and the payload behind it.** -/
theorem requestParser_bytes (header : Pack.PacketHeader) (padding : List.Vector UInt8 2)
    (r : Request) (payload : Buf) :
    requestParser ⟨header, r.bytes padding ++ payload⟩
      = some ⟨header.key, r.type, r.operation, r.position, r.size, payload⟩ := by
  simp only [requestParser, Request.bytes, List.append_assoc, cut_append, TypeT.ofCode_code,
    Option.bind_eq_bind, Option.bind_some, List.Vector.head_cons, ofBigEndian_uint32, pure]

end Slsfs.Jsre

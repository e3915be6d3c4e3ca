import Mathlib.Data.List.Find
import Mathlib.Data.UInt
import Slsfs.Datafunction.Trace
import Slsfs.Lib.Base64
import Slsfs.Lib.Decimal
import Slsfs.Lib.EmplaceMap

/-!
# Cassandra and swift

`storage_conf_cass` and `storage_conf_swift` answer a request at once. Both compute the block of the
position and the offset in it, and leave the rest to a class for the remote store. `cassandra` keeps
one value for each block, and `swiftkv` one for each file. A write replaces the value by the bytes
it has, whatever its offset; `cassandra` reads from the offset on, and `swiftkv` reads everything.

So what is read is what the last write to the block, or to the file, has at that place. The ssbd
backend returns the byte of the latest write that covers a position, wherever it starts.
-/

namespace Slsfs.Datafunction.KeyValue

open LeveldbPack (Buf Key)

/-! ## The two stores

`cassandra` and `swiftkv` are maps from names to values behind one interface. The names are built as
in the source, from the encoded file id, and for `cassandra` from the number of the block as well.
How a value is encoded, and in which chunks an object comes back, is left to the configuration; the
offset passes through an `int` on its way to `std::size_t`. -/

/-- `storage::interface`. A read has no result where it throws, where it does not return, and where
it takes a byte from outside the value. -/
structure Interface (σ : Type*) where
  readKey (name : Key) (partition location size : UInt64) (s : σ) : Option Buf
  writeKey (name : Key) (partition : UInt64) (buffer : Buf) (location : UInt64) (version : UInt32)
    (s : σ) : σ

/-- The configuration, and what comes from other libraries: Poco writes the name of a file, cppcodec
the value of a column, and minio hands over an object in one or more pieces. -/
structure Setup where
  blocksize : UInt32
  blocksize_ne : blocksize ≠ 0
  encodeBase64 : Key → Buf
  encode : Buf → Buf
  decode : Buf → Buf
  decode_encode : ∀ buf, decode (encode buf) = buf
  /-- The calls of the data function for an object. -/
  datachunks : Buf → List Buf
  flatten_datachunks : ∀ buf, (datachunks buf).flatten = buf

/-- The storage types with a `perform` that returns the answer. -/
inductive StorageType where
  | cassandra
  | swift
  deriving DecidableEq

/-- An `int` made a `std::size_t`. -/
def toSizeT (n : UInt32) : UInt64 := n.toInt32.toInt64.toUInt64

/-- `std::copy_n` from a place in a buffer; `none` if it leaves the buffer. -/
def copyN (buf : Buf) (location n : ℕ) : Option Buf :=
  if n = 0 ∨ location + n ≤ buf.length then some ((buf.drop location).take n) else none

section Model

variable (setup : Setup)

/-- The key of a block: the name of the file, a hyphen and the number of the block. -/
def casskey (name : Key) (partition : UInt64) : Buf :=
  setup.encodeBase64 name ++ ascii "-" ++ decimal partition.toNat

/-- `storage::cassandra`, on a table of texts. -/
def cassandra : Interface (FiniteMap Buf Buf) where
  readKey name partition location size s :=
    let buf := ((s.lookup (casskey setup name partition)).map setup.decode).getD []
    copyN buf location.toNat (min buf.length size.toNat)
  writeKey name partition buffer _ _ s :=
    s.insert (casskey setup name partition) (setup.encode buffer)

/-- The answer to `GetObject`. The promise is set by the data function, so there is no result unless
that is called once. -/
def getObject : Option Buf → Option Buf
  | none => some (ascii "KEYNOTFOUND")
  | some object =>
    match setup.datachunks object with
    | [chunk] => some chunk
    | _ => none

/-- `storage::swiftkv`, on a container of objects. -/
def swiftkv : Interface (FiniteMap Buf Buf) where
  readKey name _ _ _ s := getObject setup (s.lookup (setup.encodeBase64 name))
  writeKey name _ buffer _ _ s := s.insert (setup.encodeBase64 name) buffer

/-- The only member of `hostlist_`. -/
def StorageType.host : StorageType → Interface (FiniteMap Buf Buf)
  | .cassandra => KeyValue.cassandra setup
  | .swift => swiftkv setup

/-- The write of `perform`. Both classes have the same. -/
def performWrite {σ : Type*} (host : Interface σ) (input : WriteRequest) (s : σ) : Buf × σ :=
  let blockid := input.position / setup.blocksize
  let offset := input.position % setup.blocksize
  (Write.ok, host.writeKey input.uuid (toSizeT blockid) input.data (toSizeT offset) 0 s)

/-- The read of `perform`. -/
def performRead {σ : Type*} (host : Interface σ) (input : ReadRequest) (s : σ) : Option Buf :=
  let blockid := input.position / setup.blocksize
  let offset := input.position % setup.blocksize
  host.readKey input.uuid (toSizeT blockid) (toSizeT offset) input.size.toUInt64 s

/-- The store after some writes. -/
def stored (t : StorageType) (ws : List WriteRequest) : FiniteMap Buf Buf :=
  ws.foldl (fun s w ↦ (performWrite setup (t.host setup) w s).2) ∅

/-- The byte put at a position by the latest write that covers it. -/
def latestByte (ws : List WriteRequest) (x : ℕ) : Option UInt8 :=
  (ws.reverse.find? fun w ↦ w.Covers x).bind (·.byte x)

/-- The read returns the latest byte of each position, and takes none from outside the value. -/
def Answered (t : StorageType) (ws : List WriteRequest) (input : ReadRequest) : Prop :=
  ∃ reply, performRead setup (t.host setup) input (stored setup t ws) = some reply ∧
    reply.length = input.size.toNat ∧
    ∀ i < input.size.toNat, reply[i]? = latestByte ws (input.position.toNat + i)

/-- The last write that starts in the block of a position. -/
def lastInBlock (ws : List WriteRequest) (position : UInt32) : Option WriteRequest :=
  ws.reverse.find? fun w ↦ w.position / setup.blocksize = position / setup.blocksize

/-- From `offset` on the write has the latest bytes of the range. -/
def Carries (ws : List WriteRequest) (input : ReadRequest) (w : WriteRequest) (offset : ℕ) : Prop :=
  ∀ i < input.size.toNat, w.data[offset + i]? = latestByte ws (input.position.toNat + i)

/-- **The condition.** For cassandra, the last write that starts in the block of the read has the
latest bytes of the range, as many places from its own start as the range is from the start of the
block. For swift, the last write has these bytes and no others, and is handed over in one piece. -/
def Holds : StorageType → List WriteRequest → ReadRequest → Prop
  | .cassandra, ws, input => input.size = 0 ∨ ∃ w, lastInBlock setup ws input.position = some w ∧
      (input.position % setup.blocksize).toNat < 2 ^ 31 ∧
      (input.position % setup.blocksize).toNat + input.size.toNat ≤ w.data.length ∧
      Carries ws input w (input.position % setup.blocksize).toNat
  | .swift, ws, input => ∃ w, ws.getLast? = some w ∧ w.data.length = input.size.toNat ∧
      setup.datachunks w.data = [w.data] ∧ Carries ws input w 0

end Model

/-! ## The values in the store

Different blocks have different keys, so the value under a key is that of the last write that was
for it. -/

private theorem toNat_toSizeT (n : UInt32) :
    (toSizeT n).toNat = if n.toNat < 2 ^ 31 then n.toNat else n.toNat + (2 ^ 64 - 2 ^ 32) := by
  have hextend : (toSizeT n).toNat = (n.toBitVec.signExtend 64).toNat := rfl
  have hn : n.toBitVec.toNat = n.toNat := rfl
  have hlt := n.toNat_lt
  rw [hextend, BitVec.toNat_signExtend, BitVec.msb_eq_decide]
  simp only [BitVec.toNat_setWidth, hn]
  by_cases hs : n.toNat < 2 ^ 31
  · rw [if_pos hs, if_neg (by simpa using hs)]
    omega
  · rw [if_neg hs, if_pos (by simpa using hs)]
    omega

private theorem toSizeT_injective : Function.Injective toSizeT := by
  intro m n h
  have hm := m.toNat_lt
  have hn := n.toNat_lt
  have heq := congrArg UInt64.toNat h
  rw [toNat_toSizeT, toNat_toSizeT] at heq
  apply UInt32.toNat_inj.mp
  by_cases hs : m.toNat < 2 ^ 31
  · rw [if_pos hs] at heq
    split at heq <;> omega
  · rw [if_neg hs] at heq
    split at heq <;> omega

private theorem casskey_inj {setup : Setup} {name : Key} {p q : UInt64} :
    casskey setup name p = casskey setup name q ↔ p = q := by
  constructor
  · intro h
    exact UInt64.toNat_inj.mp (decimal_injective (List.append_cancel_left h))
  · rintro rfl
    rfl

/-! ## What is read

A read is answered with the end of a value from the offset on, cut to the size it asks for, or with
the whole value. What it should be answered with is the latest byte of each position. The two agree
under `Holds`, which compares the range of the read with the range of one write. -/

private theorem getElem?_take_drop {buf : Buf} {location n i : ℕ} (hi : i < n) :
    ((buf.drop location).take n)[i]? = buf[location + i]? := by
  rw [List.getElem?_take_of_lt hi, List.getElem?_drop]

private theorem copyN_eq_iff {buf : Buf} {location size : ℕ} {byte : ℕ → Option UInt8} :
    (∃ reply, copyN buf location (min buf.length size) = some reply ∧ reply.length = size ∧
      ∀ i < size, reply[i]? = byte i) ↔
      size = 0 ∨ location + size ≤ buf.length ∧ ∀ i < size, buf[location + i]? = byte i := by
  constructor
  · rintro ⟨reply, hcopy, hlength, hbytes⟩
    rw [copyN] at hcopy
    split at hcopy
    · rename_i hin
      cases hcopy
      rw [List.length_take, List.length_drop] at hlength
      by_cases hsize : size = 0
      · exact .inl hsize
      · have hmin : min buf.length size = size := by omega
        refine .inr ⟨by omega, fun i hi ↦ ?_⟩
        rw [← hbytes i hi, hmin, getElem?_take_drop hi]
    · cases hcopy
  · rintro (rfl | ⟨hin, hbytes⟩)
    · refine ⟨[], ?_, rfl, fun i hi ↦ absurd hi (Nat.not_lt_zero i)⟩
      rw [Nat.min_zero, copyN, if_pos (.inl rfl), List.take_zero]
    · have hmin : min buf.length size = size := by omega
      refine ⟨(buf.drop location).take size, ?_, ?_, fun i hi ↦ ?_⟩
      · rw [hmin, copyN, if_pos (.inr hin)]
      · rw [List.length_take, List.length_drop]
        omega
      · rw [getElem?_take_drop hi, hbytes i hi]

private theorem getObject_eq_some_iff {setup : Setup} {object reply : Buf} :
    getObject setup (some object) = some reply
      ↔ reply = object ∧ setup.datachunks object = [object] := by
  have hflatten := setup.flatten_datachunks object
  rw [getObject]
  split
  · rename_i chunk hchunk
    rw [hchunk, List.flatten_singleton] at hflatten
    subst hflatten
    rw [Option.some_inj, eq_comm, and_iff_left hchunk]
  · rename_i hmany
    refine iff_of_false (fun h ↦ by cases h) fun h ↦ hmany object h.2

section Stored

variable {setup : Setup} {ws : List WriteRequest} {input : ReadRequest}
  (huuid : ∀ w ∈ ws, w.uuid = input.uuid)

include huuid

private theorem lookup_stored_cassandra :
    ((stored setup .cassandra ws).lookup
      (casskey setup input.uuid (toSizeT (input.position / setup.blocksize)))).map setup.decode
      = (lastInBlock setup ws input.position).map (·.data) := by
  have hfold : (stored setup .cassandra ws).lookup
      (casskey setup input.uuid (toSizeT (input.position / setup.blocksize))) = _ :=
    FiniteMap.lookup_foldl_insert
      (fun w : WriteRequest ↦ casskey setup w.uuid (toSizeT (w.position / setup.blocksize)))
      (fun w ↦ setup.encode w.data) ws ∅ _
  have hfind : ws.reverse.find? (fun w ↦
        casskey setup w.uuid (toSizeT (w.position / setup.blocksize))
          = casskey setup input.uuid (toSizeT (input.position / setup.blocksize)))
      = lastInBlock setup ws input.position := by
    refine List.find?_congr fun w hw ↦ ?_
    have hkey : casskey setup w.uuid (toSizeT (w.position / setup.blocksize))
        = casskey setup input.uuid (toSizeT (input.position / setup.blocksize))
        ↔ w.position / setup.blocksize = input.position / setup.blocksize := by
      rw [huuid w (List.mem_reverse.mp hw), casskey_inj, toSizeT_injective.eq_iff]
    exact decide_eq_decide.mpr hkey
  rw [hfold, hfind, AList.lookup_empty, Option.or_none, Option.map_map]
  exact congrArg (Option.map · _) (funext fun w ↦ setup.decode_encode w.data)

private theorem lookup_stored_swift :
    (stored setup .swift ws).lookup (setup.encodeBase64 input.uuid)
      = ws.getLast?.map (·.data) := by
  have hfold : (stored setup .swift ws).lookup (setup.encodeBase64 input.uuid) = _ :=
    FiniteMap.lookup_foldl_insert (fun w : WriteRequest ↦ setup.encodeBase64 w.uuid)
      (fun w ↦ w.data) ws ∅ _
  have hfind : ws.reverse.find? (fun w ↦
      setup.encodeBase64 w.uuid = setup.encodeBase64 input.uuid) = ws.getLast? := by
    cases hrev : ws.reverse with
    | nil =>
      rw [List.reverse_eq_nil_iff.mp hrev]
      rfl
    | cons w rest =>
      have hw : w ∈ ws.reverse := by
        rw [hrev]
        exact List.mem_cons_self
      have hkey : setup.encodeBase64 w.uuid = setup.encodeBase64 input.uuid :=
        congrArg setup.encodeBase64 (huuid w (List.mem_reverse.mp hw))
      rw [List.find?_cons_of_pos (by simpa using hkey), List.getLast?_eq_head?_reverse, hrev]
      rfl
  rw [hfold, hfind, AList.lookup_empty, Option.or_none]

private theorem answered_cassandra_iff :
    Answered setup .cassandra ws input ↔ Holds setup .cassandra ws input := by
  have hlookup : Option.map setup.decode _ = (lastInBlock setup ws input.position).map _ :=
    lookup_stored_cassandra huuid
  have hoffset := toNat_toSizeT (input.position % setup.blocksize)
  rw [Answered, Holds]
  change (∃ reply, copyN _ _ (min _ input.size.toUInt64.toNat) = some reply ∧ _) ↔ _
  rw [hlookup, UInt32.toNat_toUInt64, copyN_eq_iff]
  have hsize : input.size.toNat = 0 ↔ input.size = 0 := by
    rw [← UInt32.toNat_inj]
    rfl
  by_cases hzero : input.size.toNat = 0
  · exact iff_of_true (.inl hzero) (.inl (hsize.mp hzero))
  · rw [or_iff_right hzero, or_iff_right (mt hsize.mpr hzero)]
    cases lastInBlock setup ws input.position with
    | none =>
      refine iff_of_false (fun h ↦ ?_) fun ⟨w, hw, _⟩ ↦ by cases hw
      have hlength := h.1
      rw [Option.map_none, Option.getD_none, List.length_nil] at hlength
      omega
    | some w =>
      rw [Option.map_some, Option.getD_some]
      constructor
      · rintro ⟨hin, hbytes⟩
        have hfits := w.size_lt
        have hsmall : (input.position % setup.blocksize).toNat < 2 ^ 31 := by
          by_contra hlarge
          rw [if_neg hlarge] at hoffset
          omega
        rw [if_pos hsmall] at hoffset
        rw [hoffset] at hin hbytes
        exact ⟨w, rfl, hsmall, hin, hbytes⟩
      · rintro ⟨w', hw', hsmall, hin, hbytes⟩
        cases hw'
        rw [if_pos hsmall] at hoffset
        rw [hoffset]
        exact ⟨hin, hbytes⟩

private theorem answered_swift_iff :
    Answered setup .swift ws input ↔ Holds setup .swift ws input := by
  have hlookup : (stored setup .swift ws).lookup _ = _ := lookup_stored_swift huuid
  rw [Answered, Holds]
  change (∃ reply, getObject setup
    ((stored setup .swift ws).lookup (setup.encodeBase64 input.uuid)) = some reply ∧ _) ↔ _
  rw [hlookup]
  cases hlast : ws.getLast? with
  | none =>
    -- The answer to a key that is not there has bytes, and no write has put any.
    refine iff_of_false ?_ fun ⟨w, hw, _⟩ ↦ by cases hw
    rintro ⟨reply, hreply, hlength, hbytes⟩
    cases hreply
    have hbyte := hbytes 0 (by rw [← hlength]; decide)
    rw [List.getLast?_eq_none_iff.mp hlast] at hbyte
    cases hbyte
  | some w =>
    rw [Option.map_some]
    constructor
    · rintro ⟨reply, hreply, hlength, hbytes⟩
      obtain ⟨rfl, hchunks⟩ := getObject_eq_some_iff.mp hreply
      refine ⟨w, rfl, hlength, hchunks, fun i hi ↦ ?_⟩
      rw [Nat.zero_add, hbytes i hi]
    · rintro ⟨w', hw', hlength, hchunks, hbytes⟩
      cases hw'
      refine ⟨w.data, getObject_eq_some_iff.mpr ⟨rfl, hchunks⟩, hlength, fun i hi ↦ ?_⟩
      rw [← hbytes i hi, Nat.zero_add]

/-- **Other backends.** For any configuration and any writes to a file, a read is answered with the
latest byte of each position, and from inside the value, exactly under the condition of the storage
type. -/
theorem answered_iff_holds (t : StorageType) :
    Answered setup t ws input ↔ Holds setup t ws input := by
  cases t with
  | cassandra => exact answered_cassandra_iff huuid
  | swift => exact answered_swift_iff huuid

end Stored

/-! ## Reading back what was just written

The simplest use of a store: to read with the position and the size of the last write. With
`cassandra` this works exactly for a write that starts at the start of a block, since the value has
only the bytes of the write and is read from the offset on. -/

/-- The last write has the latest bytes of its range. -/
theorem latestByte_concat {ws : List WriteRequest} {w : WriteRequest} {x : ℕ} (h : w.Covers x) :
    latestByte (ws ++ [w]) x = w.byte x := by
  rw [latestByte, List.reverse_append, List.reverse_singleton, List.singleton_append,
    List.find?_cons_of_pos (by simpa using h)]
  rfl

/-- The range of a write. -/
def readBack (w : WriteRequest) : ReadRequest := ⟨w.uuid, w.position, w.size⟩

private theorem toNat_size (w : WriteRequest) : w.size.toNat = w.data.length := by
  rw [WriteRequest.size, UInt32.toNat_ofNat', Nat.mod_eq_of_lt w.size_lt]

/-- **Read back.** With cassandra, what was just written can be read back exactly if it starts at
the start of a block. -/
theorem holds_readBack_iff (setup : Setup) (ws : List WriteRequest) (w : WriteRequest)
    (hne : w.data ≠ []) :
    Holds setup .cassandra (ws ++ [w]) (readBack w) ↔ w.position % setup.blocksize = 0 := by
  have hsize := toNat_size w
  have hpos : 0 < w.data.length := List.length_pos_iff.mpr hne
  have hlast : lastInBlock setup (ws ++ [w]) w.position = some w := by
    rw [lastInBlock, List.reverse_append, List.reverse_singleton, List.singleton_append,
      List.find?_cons_of_pos (by simp)]
  constructor
  · rintro (hzero | ⟨w', hw', -, hin, -⟩)
    · have hzero' : w.size.toNat = 0 := congrArg UInt32.toNat hzero
      omega
    · obtain rfl : w = w' := Option.some_inj.mp (hlast.symm.trans hw')
      change (w.position % setup.blocksize).toNat + w.size.toNat ≤ w.data.length at hin
      apply UInt32.toNat_inj.mp
      change (w.position % setup.blocksize).toNat = 0
      omega
  · intro hstart
    have hoffset : ((readBack w).position % setup.blocksize).toNat = 0 := by
      change (w.position % setup.blocksize).toNat = 0
      rw [hstart]
      rfl
    refine .inr ⟨w, hlast, ?_, ?_, fun i hi ↦ ?_⟩
    · rw [hoffset]
      decide
    · rw [hoffset]
      change 0 + w.size.toNat ≤ w.data.length
      omega
    · rw [hoffset, Nat.zero_add]
      change i < w.size.toNat at hi
      change w.data[i]? = latestByte (ws ++ [w]) (w.position.toNat + i)
      rw [latestByte_concat ⟨by omega, by omega⟩, WriteRequest.byte, Nat.add_sub_cancel_left]

/-! ## A configuration

Concrete tables for what the configuration leaves open, and two runs: one in which reads are
answered as they should be, and one write with an offset that is not read back. -/

/-- The letters, the numerals and two more digits. -/
def table (last : String) : List UInt8 :=
  ascii "ABCDEFGHIJKLMNOPQRSTUVWXYZabcdefghijklmnopqrstuvwxyz0123456789" ++ ascii last

/-- The digits of `cppcodec::base64_url`. -/
def base64Url : Alphabet64 :=
  .ofTable (table "-_") (by decide +kernel) (by decide +kernel) (by decide +kernel)

/-- Those of a name, in which an underscore stands for a slash. -/
def nameDigits : Alphabet64 :=
  .ofTable (table "+_") (by decide +kernel) (by decide +kernel) (by decide +kernel)

/-- The default blocksize. Objects come in one piece. -/
def defaults : Setup where
  blocksize := 4096
  blocksize_ne := by decide
  encodeBase64 name := nameDigits.encode name.toList
  encode := base64Url.encode
  decode := base64Url.decode
  decode_encode := Alphabet64.decode_encode
  datachunks buf := [buf]
  flatten_datachunks buf := List.flatten_singleton

/-- The range of a read is covered by the writes. -/
def Covered (ws : List WriteRequest) (input : ReadRequest) : Prop :=
  ∀ x, input.position.toNat ≤ x → x < input.position.toNat + input.size.toNat →
    ∃ w ∈ ws, w.Covers x

def file : Key := List.Vector.replicate 32 0

/-- A write to the start of the second block, and one to the start of the third. -/
def twoWrites : List WriteRequest :=
  [⟨file, 4096, [1, 2, 3], by decide⟩, ⟨file, 8192, [71, 82], by decide⟩]

/-- A part of the first write is read from cassandra, and all of the second from swift. -/
theorem answered_twoWrites :
    Answered defaults .cassandra twoWrites ⟨file, 4097, 2⟩ ∧
      Answered defaults .swift twoWrites ⟨file, 8192, 2⟩ := by
  constructor
  · apply (answered_iff_holds (by decide +kernel) .cassandra).mpr
    refine .inr ⟨⟨file, 4096, [1, 2, 3], by decide⟩, by decide +kernel, by decide +kernel,
      by decide +kernel, ?_⟩
    show ∀ i < 2, _
    decide +kernel
  · apply (answered_iff_holds (by decide +kernel) .swift).mpr
    refine ⟨⟨file, 8192, [71, 82], by decide⟩, by decide +kernel, by decide +kernel,
      by decide +kernel, ?_⟩
    show ∀ i < 2, _
    decide +kernel

/-- A write at the second byte of a block. -/
def atOffset : List WriteRequest := [⟨file, 1, [1, 2, 3], by decide⟩]

private theorem covered_atOffset {input : ReadRequest} (hlo : 1 ≤ input.position.toNat)
    (hhi : input.position.toNat + input.size.toNat ≤ 4) : Covered atOffset input := by
  intro x hx hx'
  refine ⟨_, List.mem_cons_self, ?_, ?_⟩
  · change 1 ≤ x
    omega
  · change x < 1 + 3
    omega

/-- **An offset.** Cassandra copies from outside the value when that write is read back, and swift
returns all of it for a part. -/
theorem atOffset_not_answered :
    Covered atOffset ⟨file, 1, 3⟩ ∧
      performRead defaults (StorageType.cassandra.host defaults) ⟨file, 1, 3⟩
        (stored defaults .cassandra atOffset) = none ∧
      ¬Answered defaults .cassandra atOffset ⟨file, 1, 3⟩ ∧
      Covered atOffset ⟨file, 2, 1⟩ ∧
      performRead defaults (StorageType.swift.host defaults) ⟨file, 2, 1⟩
        (stored defaults .swift atOffset) = some [1, 2, 3] ∧
      ¬Answered defaults .swift atOffset ⟨file, 2, 1⟩ := by
  have hcassandra : performRead defaults (StorageType.cassandra.host defaults) ⟨file, 1, 3⟩
      (stored defaults .cassandra atOffset) = none := by decide +kernel
  have hswift : performRead defaults (StorageType.swift.host defaults) ⟨file, 2, 1⟩
      (stored defaults .swift atOffset) = some [1, 2, 3] := by decide +kernel
  refine ⟨covered_atOffset (by decide) (by decide), hcassandra, fun h ↦ ?_,
    covered_atOffset (by decide) (by decide), hswift, fun h ↦ ?_⟩
  · obtain ⟨reply, hreply, -⟩ := h
    cases hcassandra.symm.trans hreply
  · obtain ⟨reply, hreply, hlength, -⟩ := h
    cases hswift.symm.trans hreply
    exact absurd hlength (by decide)

end Slsfs.Datafunction.KeyValue

import Slsfs.Datafunction.BlockSplit
import Slsfs.Datafunction.CacheFill
import Slsfs.JsonReplacement

/-!
# Bodies that are not requests

A trigger packet is handed to `request_parser` whatever its body is. The parser keeps a pointer to
the first byte, and all that handles the request reads through it: the accessors at the offsets of
the struct `request`, the `memcpy` of a prepare and the copies of `write_to_cache` as far as the
size field says, `start_meta_addfile` one `filemeta`. None of them compares an address with the
length of the body. `Touches` says which bytes are read, one constructor for each place in the
source that reads, and `WellFormed` says of which bodies no byte outside is read.

The path is that of `start_storage_perform`. What a read gets from the backend is in a buffer of its
own, and so are the requests that `start_meta_addfile` and `start_meta_mkdir` make themselves.
-/

namespace Slsfs.Datafunction

open LeveldbPack Jsre

namespace Trigger

/-! ## The accessors -/

/-- The memory from `refdata` on: the body, and then whatever lies behind it. -/
def seen (body : Buf) (beyond : ℕ → UInt8) (i : ℕ) : UInt8 := body[i]?.getD (beyond i)

section Accessors

variable (refdata : ℕ → UInt8)

/-- The bytes at `offset`, as a number in network format. -/
def uint32At (offset : ℕ) : UInt32 :=
  UInt32.ofNat (ofBigEndian ⟨[refdata offset, refdata (offset + 1), refdata (offset + 2),
    refdata (offset + 3)], rfl⟩)

/-- `type()`; `none` if the byte is none of the enumerators. -/
def type : Option TypeT := TypeT.ofCode (refdata 0).toNat

/-- `operation()` and `meta_operation()`. -/
def operation : UInt8 := refdata 1

def position : UInt32 := uint32At refdata 4

def size : UInt32 := uint32At refdata 8

/-- What the size field says that follows the struct. -/
def payload : Buf := (List.range (size refdata).toNat).map fun i ↦ refdata (Request.sizeOf + i)

end Accessors

/-- What decides how a request is handled besides its bytes. -/
structure Surroundings where
  uuid : Key
  blocksize : UInt32
  /-- The loops divide by it. -/
  blocksize_pos : 0 < blocksize.toNat
  enableCache : Bool
  /-- The cache when a write is entered into it. -/
  cache : Cache
  /-- `read_from_cache` finds the file. -/
  cached : Bool
  /-- The directory is read, and the read returns all its entries. -/
  directory : Bool

/-! ## What is read

`Touches` has a constructor for each read through the pointer of the parser, with what has led to
it: which operation the body asks for is itself read from it. -/

section

variable (env : Surroundings) (refdata : ℕ → UInt8)

/-- A write to a file. -/
def IsWrite : Prop := type refdata = some .file ∧ operation refdata = OperationT.write.code

/-- Position and size are looked at: by `start_2pc_prepare`, by `start_read` or the look into the
cache before it, and by the line each handler of a directory writes into the log. A file operation
that is neither of the two goes to the cache like a read, and no further. -/
def LooksAtRange : Prop :=
  match type refdata with
  | some .file => operation refdata = OperationT.write.code ∨
      operation refdata = OperationT.read.code ∨ env.cached = true
  | some .metadata => operation refdata = MetaOperationT.addfile.code ∨
      operation refdata = MetaOperationT.ls.code ∨ operation refdata = MetaOperationT.mkdir.code
  | _ => False

/-- **The bytes that are read** while a request is handled, counted from the start of the body. -/
inductive Touches : ℕ → Prop
  | type : Touches 0
  | operation (h : type refdata = some .file ∨ type refdata = some .metadata) : Touches 1
  | range {i : ℕ} (h : LooksAtRange env refdata) (hlo : 4 ≤ i) (hhi : i < Request.sizeOf) :
    Touches i
  /-- The `memcpy` of `start_2pc_prepare`, for each piece. -/
  | prepare {pieces : List (Piece × UInt32)} {t : UInt32 × UInt32} {p : Piece × UInt32} {i : ℕ}
    (h : IsWrite refdata)
    (hloop : Emits (start2pcPrepareRound env.blocksize (position refdata + size refdata))
      (position refdata, 0) pieces t)
    (hp : p ∈ pieces) (hi : i < p.1.size.toNat) : Touches (Request.sizeOf + (p.2.toNat + i))
  /-- `write_to_cache`, after a write. -/
  | cache {i : ℕ} (h : IsWrite refdata) (henable : env.enableCache = true)
    (hcopied : Cache.Copied (position refdata) (size refdata) (payload refdata) env.cache env.uuid
      i) : Touches (Request.sizeOf + i)
  /-- The `memcpy` of a `filemeta` in `start_meta_addfile`. -/
  | addfile {i : ℕ} (htype : type refdata = some .metadata)
    (hop : operation refdata = MetaOperationT.addfile.code) (hdirectory : env.directory = true)
    (hi : i < 64) : Touches (Request.sizeOf + i)

end

/-- A body that has in it what its type and operation ask for. -/
def WellFormed (body : Buf) : Prop :=
  let refdata := seen body fun _ ↦ 0
  1 ≤ body.length ∧
    match type refdata with
    | some .file => Request.sizeOf ≤ body.length ∧ (operation refdata = OperationT.write.code →
        Request.sizeOf + (size refdata).toNat ≤ body.length ∨
          2 ^ 32 ≤ (position refdata).toNat + (size refdata).toNat)
    | some .metadata =>
      if operation refdata = MetaOperationT.addfile.code then Request.sizeOf + 64 ≤ body.length
      else if operation refdata = MetaOperationT.ls.code ∨
        operation refdata = MetaOperationT.mkdir.code then Request.sizeOf ≤ body.length
      else 2 ≤ body.length
    | _ => True

/-! ## The bytes of a write

A prepare copies the slice of each of its blocks. Together these are the first bytes of the payload,
as many as the size field says. -/

section Payload

variable {blocksize position size : UInt32} (hB : 0 < blocksize.toNat)

include hB

/-- A prepare copies from the first `size` bytes, and only for a range that does not wrap. -/
theorem piece_inside {pieces : List (Piece × UInt32)} {t : UInt32 × UInt32}
    (hloop : Emits (start2pcPrepareRound blocksize (position + size)) (position, 0) pieces t)
    {p : Piece × UInt32} (hp : p ∈ pieces) :
    p.2.toNat + p.1.size.toNat ≤ size.toNat ∧ position.toNat + size.toNat < 2 ^ 32 := by
  obtain ⟨pieces', t', hloop', hmap⟩ := emits_start2pcPrepare hB position (position + size)
  obtain ⟨rfl, rfl⟩ := hloop.unique hloop'
  have hmem : Piece.chunk p ∈ splitBlocks blocksize.toNat position.toNat (position + size).toNat :=
    hmap ▸ List.mem_map_of_mem hp
  obtain ⟨hpos, -, -, hend⟩ := within_of_mem hB hmem
  change 0 < p.1.size.toNat at hpos
  change position.toNat + p.2.toNat + p.1.size.toNat ≤ _ at hend
  have := position.toNat_lt
  have := size.toNat_lt
  rw [UInt32.toNat_add] at hend
  omega

private theorem exists_piece (hfits : position.toNat + size.toNat < 2 ^ 32) {j : ℕ}
    (hj : j < size.toNat) :
    ∃ pieces t p, Emits (start2pcPrepareRound blocksize (position + size)) (position, 0) pieces t ∧
      p ∈ pieces ∧ p.2.toNat ≤ j ∧ j < p.2.toNat + p.1.size.toNat := by
  obtain ⟨pieces, t, hloop, hmap⟩ := emits_start2pcPrepare hB position (position + size)
  have hsum := toNat_endpos hfits
  obtain ⟨c, hc, hblock, hlo, hhi⟩ := exists_chunk hB (Nat.le_add_right position.toNat j)
    (show position.toNat + j < (position + size).toNat by omega)
  have hplace := (within_of_mem hB hc).place
  have hdiv := Nat.div_add_mod' (position.toNat + j) blocksize.toNat
  rw [← hblock] at hdiv
  rw [← hmap] at hc
  obtain ⟨p, hp, rfl⟩ := List.mem_map.mp hc
  change _ = position.toNat + p.2.toNat at hplace
  change _ < _ + p.1.size.toNat at hhi
  exact ⟨pieces, t, p, hloop, hp, by omega, by omega⟩

end Payload

/-! ## What lies behind the body makes no difference

Two memories that agree on the body agree on everything that is read from it, if no read goes past
its end. So it does not matter which memory is taken to decide whether one does. -/

private theorem seen_of_lt {body : Buf} {i : ℕ} (h : i < body.length) (beyond beyond' : ℕ → UInt8) :
    seen body beyond i = seen body beyond' i := by
  rw [seen, seen, List.getElem?_eq_getElem h, Option.getD_some, Option.getD_some]

private theorem uint32At_seen {body : Buf} {offset : ℕ} (h : offset + 4 ≤ body.length)
    (beyond beyond' : ℕ → UInt8) :
    uint32At (seen body beyond) offset = uint32At (seen body beyond') offset := by
  rw [uint32At, seen_of_lt (by omega) beyond beyond', seen_of_lt (by omega) beyond beyond',
    seen_of_lt (by omega) beyond beyond', seen_of_lt (by omega) beyond beyond']
  rfl

theorem accessors_of_requestParser {pack : Pack.Packet} {r : RequestParser}
    (h : requestParser pack = some r) (beyond : ℕ → UInt8) :
    type (seen pack.data beyond) = some r.type ∧ operation (seen pack.data beyond) = r.operation ∧
      position (seen pack.data beyond) = r.position ∧ size (seen pack.data beyond) = r.size ∧
      pack.data.drop Request.sizeOf = r.data := by
  obtain ⟨header, data⟩ := pack
  simp only [requestParser, Option.bind_eq_bind, Option.bind_eq_some_iff] at h
  obtain ⟨⟨t, d₁⟩, h₁, ty, hty, ⟨o, d₂⟩, h₂, ⟨pad, d₃⟩, h₃, ⟨pos, d₄⟩, h₄, ⟨sz, d₅⟩, h₅, h⟩ := h
  cases h
  obtain rfl := eq_append_of_cut h₁
  obtain rfl := eq_append_of_cut h₂
  obtain rfl := eq_append_of_cut h₃
  obtain rfl := eq_append_of_cut h₄
  obtain rfl := eq_append_of_cut h₅
  obtain ⟨t, ht⟩ := t
  obtain ⟨o, ho⟩ := o
  obtain ⟨pad, hpad⟩ := pad
  obtain ⟨pos, hpos⟩ := pos
  obtain ⟨sz, hsz⟩ := sz
  obtain ⟨_, rfl⟩ := List.length_eq_one_iff.mp ht
  obtain ⟨_, rfl⟩ := List.length_eq_one_iff.mp ho
  obtain ⟨_, _, rfl⟩ := List.length_eq_two.mp hpad
  obtain ⟨_, _, _, _, rfl⟩ := List.length_eq_four.mp hpos
  obtain ⟨_, _, _, _, rfl⟩ := List.length_eq_four.mp hsz
  refine ⟨?_, rfl, rfl, rfl, rfl⟩
  rw [← hty]
  simp [type, seen, ofBigEndian, List.Vector.toList]

private theorem type_seen {body : Buf} (h : 1 ≤ body.length) (beyond beyond' : ℕ → UInt8) :
    type (seen body beyond) = type (seen body beyond') := by
  rw [type, type, seen_of_lt h beyond beyond']

private theorem operation_seen {body : Buf} (h : 2 ≤ body.length) (beyond beyond' : ℕ → UInt8) :
    operation (seen body beyond) = operation (seen body beyond') :=
  seen_of_lt h beyond beyond'

namespace WellFormed

variable {body : Buf} (h : WellFormed body)

include h

private theorem two_le (beyond : ℕ → UInt8) (htype : type (seen body beyond) = some .file ∨
    type (seen body beyond) = some .metadata) : 2 ≤ body.length := by
  obtain ⟨hone, hrest⟩ := h
  rw [type_seen hone beyond fun _ ↦ 0] at htype
  rcases htype with htype | htype
  · rw [htype] at hrest
    exact le_trans (by decide) hrest.1
  · rw [htype] at hrest
    dsimp only at hrest
    split at hrest
    · exact le_trans (by decide) hrest
    · split at hrest
      · exact le_trans (by decide) hrest
      · exact hrest

private theorem twelve_le {env : Surroundings} {beyond : ℕ → UInt8}
    (hlooks : LooksAtRange env (seen body beyond)) : Request.sizeOf ≤ body.length := by
  rw [LooksAtRange] at hlooks
  split at hlooks
  · rename_i htype
    obtain ⟨hone, hrest⟩ := h
    rw [type_seen hone beyond fun _ ↦ 0] at htype
    rw [htype] at hrest
    exact hrest.1
  · rename_i htype
    have htwo := h.two_le beyond (.inr htype)
    obtain ⟨hone, hrest⟩ := h
    rw [type_seen hone beyond fun _ ↦ 0] at htype
    rw [operation_seen htwo beyond fun _ ↦ 0] at hlooks
    rw [htype] at hrest
    dsimp only at hrest
    split at hrest
    · exact le_trans (by decide) hrest
    · rename_i hadd
      rw [if_pos (hlooks.resolve_left hadd)] at hrest
      exact hrest
  · exact hlooks.elim

private theorem payload_le {beyond : ℕ → UInt8} (hwrite : IsWrite (seen body beyond))
    (hfits : (position (seen body beyond)).toNat + (size (seen body beyond)).toNat < 2 ^ 32) :
    Request.sizeOf + (size (seen body beyond)).toNat ≤ body.length := by
  obtain ⟨htype, hop⟩ := hwrite
  have htwo := h.two_le beyond (.inl htype)
  obtain ⟨hone, hrest⟩ := h
  rw [type_seen hone beyond fun _ ↦ 0] at htype
  rw [operation_seen htwo beyond fun _ ↦ 0] at hop
  rw [htype] at hrest
  obtain ⟨htwelve, hpayload⟩ := hrest
  change 12 ≤ body.length at htwelve
  rw [position, size, uint32At_seen (by omega) beyond fun _ ↦ 0,
    uint32At_seen (by omega) beyond fun _ ↦ 0] at hfits
  rw [size, uint32At_seen (by omega) beyond fun _ ↦ 0]
  rcases hpayload hop with hle | hwrap
  · exact hle
  · exact absurd hfits (Nat.not_lt.mpr hwrap)

private theorem filemeta_le {beyond : ℕ → UInt8} (htype : type (seen body beyond) = some .metadata)
    (hop : operation (seen body beyond) = MetaOperationT.addfile.code) :
    Request.sizeOf + 64 ≤ body.length := by
  have htwo := h.two_le beyond (.inr htype)
  obtain ⟨hone, hrest⟩ := h
  rw [type_seen hone beyond fun _ ↦ 0] at htype
  rw [operation_seen htwo beyond fun _ ↦ 0] at hop
  rw [htype] at hrest
  dsimp only at hrest
  rw [if_pos hop] at hrest
  exact hrest

/-- **A body that is well formed is all that is read.** -/
theorem lt_length {env : Surroundings} {beyond : ℕ → UInt8} {i : ℕ}
    (htouches : Touches env (seen body beyond) i) : i < body.length := by
  cases htouches with
  | type => exact h.1
  | operation htype => exact h.two_le beyond htype
  | range hlooks hlo hhi => exact hhi.trans_le (h.twelve_le hlooks)
  | prepare hwrite hloop hp hi =>
    obtain ⟨hle, hfits⟩ := piece_inside env.blocksize_pos hloop hp
    have := h.payload_le hwrite hfits
    omega
  | cache hwrite henable hcopied =>
    obtain ⟨hlt, hfits, -⟩ := hcopied.lt_size
    have := h.payload_le hwrite hfits
    omega
  | addfile htype hop hdirectory hi =>
    have := h.filemeta_le htype hop
    omega

end WellFormed

/-! ## Which bodies are harmless

The exact condition goes through the operations: a write needs its payload, an `addfile` needs a
`filemeta`, and everything else needs the fixed fields that are looked at. -/

/-- Blocks of 4096 bytes, no cache, and all that is looked for is there. -/
def Surroundings.plain : Surroundings where
  uuid := .replicate 32 0
  blocksize := 4096
  blocksize_pos := by decide
  enableCache := false
  cache := Cache.empty 65536 .lru
  cached := true
  directory := true

/-- **Malformed bodies.** Handling a body reads no byte outside it, whatever the surroundings are
and whatever lies behind it, exactly if it is well formed. -/
theorem reads_inside_iff (body : Buf) :
    (∀ (env : Surroundings) (beyond : ℕ → UInt8) (i : ℕ),
        Touches env (seen body beyond) i → i < body.length) ↔ WellFormed body := by
  refine ⟨fun h ↦ ?_, fun h env beyond i ↦ h.lt_length⟩
  have hplain : ∀ {i}, Touches .plain (seen body fun _ ↦ 0) i → i < body.length :=
    fun htouches ↦ h .plain (fun _ ↦ 0) _ htouches
  -- the last byte of the struct is read where position and size are
  have hrange : LooksAtRange .plain (seen body fun _ ↦ 0) → Request.sizeOf ≤ body.length :=
    fun hlooks ↦ hplain (.range (i := 11) hlooks (by decide) (by decide))
  refine ⟨hplain .type, ?_⟩
  split
  · rename_i htype
    have htwelve : Request.sizeOf ≤ body.length := by
      refine hrange ?_
      rw [LooksAtRange, htype]
      exact .inr (.inr rfl)
    refine ⟨htwelve, fun hop ↦ ?_⟩
    by_contra hout
    obtain ⟨hshort, hfits⟩ := not_or.mp hout
    -- the first byte behind the body is one of those that are copied
    obtain ⟨pieces, t, p, hloop, hp, hlo, hhi⟩ := exists_piece Surroundings.plain.blocksize_pos
      (Nat.not_le.mp hfits) (j := body.length - Request.sizeOf) (by omega)
    have hlt := hplain (.prepare (i := body.length - Request.sizeOf - p.2.toNat) ⟨htype, hop⟩
      hloop hp (by omega))
    omega
  · rename_i htype
    split
    · rename_i hop
      exact hplain (.addfile (i := 63) htype hop rfl (by decide))
    · rename_i hadd
      split
      · rename_i hop
        refine hrange ?_
        rw [LooksAtRange, htype]
        exact .inr hop
      · exact hplain (.operation (.inr htype))
  · trivial

/-- A write of one byte with nothing behind the struct. -/
def shortWrite : Buf := [0, 0, 0, 0, 0, 0, 0, 0, 0, 0, 0, 1]

/-- The byte that is sent to the storage for it is not one of the body. -/
theorem prepare_leaves_body :
    ∃ i, Touches .plain (seen shortWrite fun _ ↦ 7) i ∧ ¬i < shortWrite.length := by
  have hposition : position (seen shortWrite fun _ ↦ 7) = 0 := by decide +kernel
  have hsize : size (seen shortWrite fun _ ↦ 7) = 1 := by decide +kernel
  have hloop : Emits (start2pcPrepareRound Surroundings.plain.blocksize
      (position (seen shortWrite fun _ ↦ 7) + size (seen shortWrite fun _ ↦ 7)))
      (position (seen shortWrite fun _ ↦ 7), 0) [(⟨0, 0, 1⟩, 0)] (1, 1) := by
    rw [hposition, hsize]
    exact .next rfl (.stop rfl)
  exact ⟨12, .prepare (i := 0) ⟨by decide, by decide⟩ hloop List.mem_cons_self (by decide),
    by decide⟩

end Trigger

end Slsfs.Datafunction

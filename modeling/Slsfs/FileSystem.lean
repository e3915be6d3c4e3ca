import Slsfs.Datafunction.FileNames

/-!
# The file system that clients see

A request of a client goes through a proxy to a datafunction, which performs it on the ssbd servers,
and the result goes back. Here all of it is put together: `serve` is one request from the bytes the
client sends to the packet it gets, with the cache of the datafunction off, and `serveAll` is one
request after the other, for any files and directories and by any proxies and workers.

`Files` is what this is for: an array of bytes for every file and a list of names for every
directory. `files_served` is the refinement: as long as the requests are allowed, all of them are
answered, with the answers that `Files` gives.

## When a request is over

A write is answered when all its votes have come, and its commits are sent after that. A client that
sends its next request right away may find a block that is not committed yet: `Visibility` is about
those. Here a request is over when nothing of it is left: in `performWrite` all votes come after the
last prepare was sent, and all commits are handled, and `performRead` runs one callback after the
other. What can happen between the steps of a request is in `Sequential`.
-/

namespace Slsfs.Datafunction

open LeveldbPack Ssbd

variable {cfg : Config} {hosts hosts' : Hosts} {uuid : Key}

/-! ## Ranges of bytes

What a request does to a file is stated for bytes rather than blocks. A write leaves the bytes
around its range as they are, and a read of a range of which every byte is stored returns these
bytes. -/

private theorem byteAt_congr (h : ∀ b, hosts'.primary cfg (uuid, b) = hosts.primary cfg (uuid, b))
    (x : ℕ) :
    hosts'.byteAt cfg uuid x = hosts.byteAt cfg uuid x := by
  rw [Hosts.byteAt, Hosts.byteAt, h]

theorem Calm.congr (hcalm : Calm cfg hosts uuid)
    (h : ∀ b, hosts'.primary cfg (uuid, b) = hosts.primary cfg (uuid, b)) :
    Calm cfg hosts' uuid where
  free b := by rw [h]; exact hcalm.free b
  small b content hcontent := hcalm.small b content (by rw [← h]; exact hcontent)

theorem Stored.congr {image : Buf} (hstored : Stored cfg hosts uuid image)
    (h : ∀ b, hosts'.primary cfg (uuid, b) = hosts.primary cfg (uuid, b)) :
    Stored cfg hosts' uuid image where
  calm := hstored.calm.congr h
  bytes x hx := (byteAt_congr h x).trans (hstored.bytes x hx)

/-- A write changes neither other files nor the bytes of its own file outside its range. -/
theorem performWrite_frame (stray : ℕ → UInt8) (draw : Draw) {input : WriteRequest} {reply : Buf}
    (hne : input.chunks cfg.blocksize ≠ []) (hcalm : Calm cfg hosts input.uuid)
    (hwrite : performWrite cfg stray draw hosts input = some (reply, hosts')) :
    (∀ key b, key ≠ input.uuid → hosts'.primary cfg (key, b) = hosts.primary cfg (key, b)) ∧
    ∀ x byte, x < 2 ^ 32 →
      (x < input.position.toNat ∨ input.position.toNat + input.data.length ≤ x) →
      hosts.byteAt cfg input.uuid x = some byte → hosts'.byteAt cfg input.uuid x = some byte := by
  obtain ⟨hosts₁, hwrite₁, hin, hout⟩ := performWrite_spec stray draw hne hcalm
  obtain rfl : hosts' = hosts₁ := by
    rw [hwrite₁, Option.some_inj, Prod.mk.injEq] at hwrite
    exact hwrite.2.symm
  refine ⟨fun key b hkey ↦ hout _ fun c _ heq ↦ hkey (congrArg Prod.fst heq).symm,
    fun x byte hx hrange hbyte ↦ ?_⟩
  by_cases hex : ∃ c ∈ input.chunks cfg.blocksize,
      c.blockOf input.uuid = (input.uuid, UInt32.ofNat (x / cfg.blocksize))
  · obtain ⟨c, hc, hblock⟩ := hex
    have hfits := input.fits hc
    obtain ⟨-, -, hplace, hend⟩ := hfits.within
    have hid : c.blockid = x / cfg.blocksize := by
      have htoNat := congrArg (fun id : BlockId ↦ id.2.toNat) hblock
      dsimp only at htoNat
      rw [hfits.blockOf_toNat, UInt32.toNat_ofNat', Nat.mod_eq_of_lt
        (lt_of_le_of_lt (Nat.div_le_self _ _) hx)] at htoNat
      exact htoNat
    have hdiv := Nat.div_add_mod' x cfg.blocksize
    have hslice := WriteRequest.slice_length cfg hc
    rw [input.size_toNat] at hend
    rw [hid] at hplace
    rw [Hosts.byteAt, ← hblock, Option.bind_eq_some_iff] at hbyte ⊢
    obtain ⟨old, hold, hget⟩ := hbyte
    refine ⟨_, (hin c hc).1, ?_⟩
    rw [hold, Option.getD_some, getElem?_overlay_of_old 0 (by omega)
      (List.getElem?_eq_some_iff.mp hget).1, hget]
  · have hsame := hout (input.uuid, UInt32.ofNat (x / cfg.blocksize))
      fun c hc heq ↦ hex ⟨c, hc, heq⟩
    rw [Hosts.byteAt] at hbyte ⊢
    rwa [hsame]

/-- **A read of bytes that are all stored** returns them. -/
theorem performRead_covered (stray : ℕ → UInt8) (input : ReadRequest)
    (hsmall : ∀ b content, (hosts.primary cfg (input.uuid, b)).content = some content →
      content.length < 2 ^ 32)
    (hend : input.position.toNat + input.size.toNat < 2 ^ 32) (byte : ℕ → UInt8)
    (hbyte : ∀ x, input.position.toNat ≤ x → x < input.position.toNat + input.size.toNat →
      hosts.byteAt cfg input.uuid x = some (byte x)) :
    performRead cfg stray hosts input
      = some ((List.range input.size.toNat).map fun i ↦ byte (input.position.toNat + i)) := by
  by_cases hzero : input.size = 0
  · rw [performRead, hzero]
    exact if_pos rfl
  have hsize : 0 < input.size.toNat := by
    rw [← UInt32.toNat_inj, UInt32.toNat_zero] at hzero
    omega
  have hsum : (input.position + input.size).toNat
      = input.position.toNat + input.size.toNat := by
    rw [UInt32.toNat_add, Nat.mod_eq_of_lt hend]
  have hne : input.chunks cfg.blocksize ≠ [] :=
    splitBlocks_ne_nil cfg.blocksize_pos (by rw [hsum]; omega)
  have hall := blockLoop_induction (input.position + input.size).toNat cfg.blocksize_pos
    (P := fun pos _ cs ↦ input.position.toNat ≤ pos → ∀ i,
      (cs.map (answerData cfg stray input.uuid hosts)).flatten[i]?
        = if pos + i < (input.position + input.size).toNat then some (byte (pos + i)) else none)
    (fun pos off hpos _ i ↦ by rw [if_neg (by omega)]; rfl)
    (fun pos off rest hpos ih hstart i ↦ by
      have hpositive : 0
          < (chunkAt cfg.blocksize (input.position + input.size).toNat pos off).length :=
        chunkAt_length_pos cfg.blocksize_pos hpos
      have hlength : (chunkAt cfg.blocksize (input.position + input.size).toNat pos off).length
          ≤ (input.position + input.size).toNat - pos := Nat.min_le_left _ _
      have hanswer := fun j hj ↦ @answerData_of_byteAt cfg stray _ pos input.uuid hosts off hpos
        hsmall j _ hj (hbyte (pos + j) (by omega) (by omega))
      rw [List.map_cons, List.flatten_cons]
      by_cases hi : i < (chunkAt cfg.blocksize (input.position + input.size).toNat pos off).length
      · obtain ⟨hlen, hget⟩ := hanswer i hi
        rw [List.getElem?_append_left (by omega), hget, if_pos (by omega)]
      · obtain ⟨hlen, -⟩ := hanswer 0 hpositive
        have hback :
            pos + (chunkAt cfg.blocksize (input.position + input.size).toNat pos off).length +
              (i - (chunkAt cfg.blocksize (input.position + input.size).toNat pos off).length)
                = pos + i := by omega
        rw [List.getElem?_append_right (by omega), hlen, ih (by omega), hback])
    ((input.position + input.size).toNat - input.position.toNat) input.position.toNat 0 le_rfl
    le_rfl
  rw [performRead, if_neg hzero, if_neg hne, Option.some_inj]
  refine List.ext_getElem? fun i ↦ (hall i).trans ?_
  rw [hsum, List.getElem?_map]
  by_cases hi : i < input.size.toNat
  · rw [if_pos (by omega), List.getElem?_range hi, Option.map_some]
  · rw [if_neg (by omega), List.getElem?_eq_none (by rw [List.length_range]; omega),
      Option.map_none]

end Slsfs.Datafunction

namespace Slsfs.FileSystem

open LeveldbPack (Buf Key)
open Datafunction Proxy

/-! ## A request from end to end

The surroundings of a request are all that the data of its answer does not depend on: the salt and
the sequence that the client draws, the hosts and versions drawn for a write, the reserved bytes of
a new directory, and what follows the packets on the four streams. -/

/-- A request of a client about a file or a directory. -/
inductive Request where
  | write (position : UInt32) (data : Buf)
  | read (position size : UInt32)
  | mkdir
  | addfile (filename : Buf)
  | ls

/-- The request as `packet_create` builds it, for a read and a write with a position. -/
def Request.client (key : Key) (gen : Gen) : Request → ClientRequest
  | .write position data => ⟨key, gen,
      ⟨.file, Jsre.OperationT.write.code, position, UInt32.ofNat data.length⟩, data⟩
  | .read position size => ⟨key, gen, ⟨.file, Jsre.OperationT.read.code, position, size⟩, []⟩
  | .mkdir => .mkdir key gen
  | .addfile filename => Datafunction.addfile key gen filename
  | .ls => .ls key gen

/-- What a request finds on its way: what its packet and its write draw, the reserved bytes of a new
directory, and what follows on the four connections. -/
structure Surroundings where
  gen : Gen
  draw : Draw
  reserved : List.Vector UInt8 60
  toProxy : Buf
  toWorker : Buf
  fromWorker : Buf
  fromProxy : Buf

section

variable (cfg : Config) (stray : ℕ → UInt8) (rereads : ℕ)

/-- The bytes that `start_2pc_prepare` writes: as many as the request says; `none` if it has
fewer. -/
def writeRequest (input : Jsre.RequestParser) : Option WriteRequest :=
  if input.size.toNat ≤ input.data.length then
    some ⟨input.uuid, input.position, input.data.take input.size.toNat, by
      have := input.size.toNat_lt
      rw [List.length_take]
      omega⟩
  else none

/-- `start_storage_perform` with the cache off, `start_perform` and `start_perform_metadata`; `none`
where `next` is not called, or the request is too short. -/
def startStoragePerform (env : Surroundings) (hosts : Hosts) (input : Jsre.RequestParser) :
    Option (Buf × Hosts) :=
  match input.type with
  | .file =>
    if input.operation = Jsre.OperationT.write.code then
      (writeRequest input).bind (performWrite cfg stray env.draw hosts)
    else if input.operation = Jsre.OperationT.read.code then
      (performRead cfg stray hosts ⟨input.uuid, input.position, input.size⟩).map (·, hosts)
    else none
  | .metadata =>
    if input.operation = Jsre.MetaOperationT.addfile.code then
      (FileMeta.parse input.data).bind
        (startMetaAddfile cfg stray (rereads + 1) env.draw hosts input.uuid)
    else if input.operation = Jsre.MetaOperationT.mkdir.code then
      startMetaMkdir cfg stray env.draw hosts input.uuid env.reserved
    else if input.operation = Jsre.MetaOperationT.ls.code then
      (startMetaLs cfg stray (rereads + 1) hosts input.uuid).map (·, hosts)
    else none
  | .wakeup | .storagetest => none

/-- A request from the client's packet to the packet it gets back. The hosts are left as they are
when all commits of the request have been handled, which the client does not wait for. -/
def serve (env : Surroundings) (key : Key) (request : Request) (hosts : Hosts) :
    Option (Pack.Packet × Hosts) := do
  let pack ← toWorker env.toProxy env.toWorker (request.client key env.gen)
  let input ← Jsre.requestParser pack
  let (buf, hosts) ← startStoragePerform cfg stray rereads env hosts input
  let (_, received) ← toClient env.fromWorker env.fromProxy pack buf
  return (received, hosts)

/-- Requests one after the other. -/
def serveAll : List (Surroundings × Key × Request) → Hosts → Option (List Pack.Packet × Hosts)
  | [], hosts => some ([], hosts)
  | (env, key, request) :: requests, hosts => do
    let (received, hosts) ← serve cfg stray rereads env key request hosts
    let (rest, hosts) ← serveAll requests hosts
    return (received :: rest, hosts)

end

/-! ## Files and directories

A directory is stored in the blocks of its file, so the two must not be mixed. `Allowed` keeps a
path to one of them, and excludes what `Files` has no answer for: bytes that have not been written,
a write of nothing, a range that ends at 2^32 or beyond, a name with a zero byte or of more than 60
bytes, and a directory with more than 63 names. It also keeps requests and answers below the size
that fits in a packet. -/

/-- Every file is an array of bytes, where written, and every directory a list of names. -/
structure Files where
  bytes : Key → ℕ → Option UInt8
  names : Key → Option (List Buf)

namespace Files

def empty : Files where
  bytes _ _ := none
  names _ := none

def perform (fs : Files) (key : Key) : Request → Files
  | .write position data => { fs with bytes := fun k x ↦
      if k = key ∧ position.toNat ≤ x ∧ x < position.toNat + data.length then
        data[x - position.toNat]? else fs.bytes k x }
  | .mkdir => { fs with names := Function.update fs.names key (some []) }
  | .addfile filename =>
    { fs with names := Function.update fs.names key ((fs.names key).map (· ++ [filename])) }
  | .read _ _ | .ls => fs

def reply (fs : Files) (key : Key) : Request → Buf
  | .write _ _ | .mkdir | .addfile _ => Write.ok
  | .read position size =>
    (List.range size.toNat).map fun i ↦ (fs.bytes key (position.toNat + i)).getD 0
  | .ls => (fs.names key).elim [] fun names ↦ listing names.length names

/-- The requests that there is an answer to. A file that is not a directory is written and read
where it was written, a directory that is not a file has up to 63 names of at most 60 bytes, and
everything fits in a packet. -/
def Allowed (fs : Files) (key : Key) : Request → Prop
  | .write position data => fs.names key = none ∧ 0 < data.length ∧
      position.toNat + data.length < 2 ^ 32 ∧
      Pack.PacketHeader.bytesize + (Jsre.Request.sizeOf + data.length) < 2 ^ 32
  | .read position size => fs.names key = none ∧ position.toNat + size.toNat < 2 ^ 32 ∧
      Pack.PacketHeader.bytesize + size.toNat < 2 ^ 32 ∧
      ∀ x, position.toNat ≤ x → x < position.toNat + size.toNat → (fs.bytes key x).isSome
  | .mkdir => ∀ x, fs.bytes key x = none
  | .addfile filename => (∀ b ∈ filename, b ≠ 0) ∧ filename.length ≤ 60 ∧
      ∃ names, fs.names key = some names ∧ names.length < 63
  | .ls => (fs.names key).isSome

/-- Requests that are allowed one after the other. -/
def AllAllowed : Files → List (Surroundings × Key × Request) → Prop
  | _, [] => True
  | fs, (_, key, request) :: requests =>
    fs.Allowed key request ∧ AllAllowed (fs.perform key request) requests

def replies : Files → List (Surroundings × Key × Request) → List Buf
  | _, [] => []
  | fs, (_, key, request) :: requests =>
    fs.reply key request :: replies (fs.perform key request) requests

end Files

/-! ## The refinement

`Refines` relates the hosts to a `Files`: nothing is under way on any host for any block, the bytes
of a file are those of its blocks, and a directory is the block that holds its names. A request for
one key leaves everything under the others alone, so a step has only to look at its own. -/

/-- The servers hold these files and directories. -/
structure Refines (cfg : Config) (hosts : Hosts) (fs : Files) : Prop where
  calm : ∀ key, Calm cfg hosts key
  bytes : ∀ key x byte, fs.bytes key x = some byte →
    x < 2 ^ 32 ∧ hosts.byteAt cfg key x = some byte
  names : ∀ key names, fs.names key = some names → ∃ reserved entries,
    Stored cfg hosts key (recordsImage reserved entries) ∧ entries.length ≤ 63 ∧
      entries.map FileMeta.name = names
  apart : ∀ key x, (fs.names key).isSome → fs.bytes key x = none

variable {cfg : Config} {hosts hosts' : Hosts} {fs : Files} {key : Key}

private theorem refines_empty (hcalm : ∀ key, Calm cfg hosts key) :
    Refines cfg hosts Files.empty where
  calm := hcalm
  bytes _ _ _ h := by cases h
  names _ _ h := by cases h
  apart _ _ _ := rfl

private theorem refines_of_frame (h : Refines cfg hosts fs)
    (hframe : ∀ k b, k ≠ key → hosts'.primary cfg (k, b) = hosts.primary cfg (k, b)) {k : Key}
    (hk : k ≠ key) : Calm cfg hosts' k ∧
      (∀ x byte, fs.bytes k x = some byte → x < 2 ^ 32 ∧ hosts'.byteAt cfg k x = some byte) ∧
      ∀ names, fs.names k = some names → ∃ reserved entries,
        Stored cfg hosts' k (recordsImage reserved entries) ∧ entries.length ≤ 63 ∧
          entries.map FileMeta.name = names := by
  refine ⟨(h.calm k).congr fun b ↦ hframe k b hk, fun x byte hbyte ↦ ?_, fun names hnames ↦ ?_⟩
  · obtain ⟨hx, hstored⟩ := h.bytes k x byte hbyte
    exact ⟨hx, (byteAt_congr (fun b ↦ hframe k b hk) x).trans hstored⟩
  · obtain ⟨reserved, entries, hstored, hrest⟩ := h.names k names hnames
    exact ⟨reserved, entries, hstored.congr fun b ↦ hframe k b hk, hrest⟩

private theorem refines_write (stray : ℕ → UInt8) (draw : Draw) (h : Refines cfg hosts fs)
    {position : UInt32} {data : Buf} (hallowed : fs.Allowed key (.write position data))
    (input : WriteRequest) (hinput : input.uuid = key ∧ input.position = position ∧
      input.data = data) :
    ∃ hosts', performWrite cfg stray draw hosts input = some (Write.ok, hosts') ∧
      Refines cfg hosts' (fs.perform key (.write position data)) := by
  obtain ⟨rfl, rfl, rfl⟩ := hinput
  obtain ⟨hfile, hpos, hend, -⟩ := hallowed
  have hsum : (input.position + input.size).toNat
      = input.position.toNat + input.data.length := by
    rw [UInt32.toNat_add, input.size_toNat, Nat.mod_eq_of_lt hend]
  have hne : input.chunks cfg.blocksize ≠ [] :=
    splitBlocks_ne_nil cfg.blocksize_pos (by rw [hsum]; omega)
  obtain ⟨hosts', hwrite, hcalm, hbytes⟩ :=
    byteAt_performWrite stray draw hpos hend (h.calm input.uuid)
  obtain ⟨hframe, hkept⟩ := performWrite_frame stray draw hne (h.calm input.uuid) hwrite
  have hothers := fun k (hk : k ≠ input.uuid) ↦ refines_of_frame h hframe hk
  refine ⟨hosts', hwrite, fun k ↦ ?_, fun k x byte hbyte ↦ ?_, fun k names hnames ↦ ?_,
    fun k x hsome ↦ ?_⟩
  · by_cases hk : k = input.uuid
    · exact hk ▸ hcalm
    · exact (hothers k hk).1
  · rw [Files.perform] at hbyte
    dsimp only at hbyte
    split at hbyte
    · rename_i hin
      obtain ⟨rfl, hlo, hhi⟩ := hin
      have hin := hbytes (x - input.position.toNat) (by omega)
      rw [Nat.add_sub_cancel' hlo, hbyte] at hin
      exact ⟨by omega, hin⟩
    · rename_i hout
      by_cases hk : k = input.uuid
      · subst hk
        obtain ⟨hx, hstored⟩ := h.bytes _ x byte hbyte
        refine ⟨hx, hkept x byte hx ?_ hstored⟩
        by_contra hin
        exact hout ⟨rfl, by omega, by omega⟩
      · exact (hothers k hk).2.1 x byte hbyte
  · have hk : k ≠ input.uuid := by
      rintro rfl
      change fs.names _ = _ at hnames
      rw [hfile] at hnames
      cases hnames
    exact (hothers k hk).2.2 names hnames
  · have hk : k ≠ input.uuid := by
      rintro rfl
      change (fs.names _).isSome at hsome
      rw [hfile] at hsome
      cases hsome
    rw [Files.perform]
    dsimp only
    rw [if_neg fun hin ↦ hk hin.1]
    exact h.apart k x hsome

private theorem refines_directory (h : Refines cfg hosts fs) {reserved : List.Vector UInt8 60}
    {entries : List FileMeta}
    (hframe : ∀ k b, k ≠ key → hosts'.primary cfg (k, b) = hosts.primary cfg (k, b))
    (hfile : ∀ x, fs.bytes key x = none)
    (hstored : Stored cfg hosts' key (recordsImage reserved entries)) (hle : entries.length ≤ 63) :
    Refines cfg hosts'
      { fs with names := Function.update fs.names key (some (entries.map FileMeta.name)) } := by
  have hothers := fun k (hk : k ≠ key) ↦ refines_of_frame h hframe hk
  refine ⟨fun k ↦ ?_, fun k x byte hbyte ↦ ?_, fun k names hnames ↦ ?_, fun k x hsome ↦ ?_⟩
  · by_cases hk : k = key
    · exact hk ▸ hstored.calm
    · exact (hothers k hk).1
  · have hk : k ≠ key := by
      rintro rfl
      change fs.bytes _ x = _ at hbyte
      rw [hfile] at hbyte
      cases hbyte
    exact (hothers k hk).2.1 x byte hbyte
  · by_cases hk : k = key
    · subst hk
      dsimp only at hnames
      rw [Function.update_self, Option.some_inj] at hnames
      exact ⟨reserved, entries, hstored, hle, hnames⟩
    · dsimp only at hnames
      rw [Function.update_of_ne hk] at hnames
      exact (hothers k hk).2.2 names hnames
  · by_cases hk : k = key
    · exact hk ▸ hfile x
    · dsimp only at hsome
      rw [Function.update_of_ne hk] at hsome
      exact h.apart k x hsome

private theorem refines_writeContent (stray : ℕ → UInt8) (draw : Draw) (h : Refines cfg hosts fs)
    (hfile : ∀ x, fs.bytes key x = none) (reserved : List.Vector UInt8 60)
    (entries : List FileMeta) (hle : entries.length ≤ 63) :
    ∃ hosts', performWrite cfg stray draw hosts (writeContent key (recordsImage reserved entries))
        = some (Write.ok, hosts') ∧ Refines cfg hosts'
      { fs with names := Function.update fs.names key (some (entries.map FileMeta.name)) } := by
  have hlen := length_recordsImage reserved entries
  have hlt : (recordsImage reserved entries).length < 2 ^ 32 := by omega
  have hempty : Stored cfg hosts key [] := ⟨h.calm key, fun x hx ↦ absurd hx (Nat.not_lt_zero x)⟩
  obtain ⟨hosts', hwrite, hstored⟩ := hempty.write stray draw (by omega) hlt
  have hsum : ((writeContent key (recordsImage reserved entries)).position
      + (writeContent key (recordsImage reserved entries)).size).toNat
        = (recordsImage reserved entries).length := by
    change ((0 : UInt32) + _).toNat = _
    rw [UInt32.zero_add, WriteRequest.size_toNat, data_writeContent key hlt]
  have hne : (writeContent key (recordsImage reserved entries)).chunks cfg.blocksize ≠ [] := by
    refine splitBlocks_ne_nil cfg.blocksize_pos ?_
    rw [hsum]
    change 0 < _
    omega
  exact ⟨hosts', hwrite, refines_directory h
    (performWrite_frame stray draw hne (h.calm key) hwrite).1 hfile hstored hle⟩

/-- **One request at a datafunction.** -/
theorem startStoragePerform_spec (stray : ℕ → UInt8) (rereads : ℕ) (env : Surroundings)
    (h : Refines cfg hosts fs) {request : Request} (hallowed : fs.Allowed key request) :
    ∃ hosts', startStoragePerform cfg stray rereads env hosts (request.client key env.gen).parsed
        = some (fs.reply key request, hosts') ∧ Refines cfg hosts' (fs.perform key request) := by
  cases request with
  | write position data =>
    have hlt : data.length < 2 ^ 32 := by
      have := hallowed.2.2.1
      omega
    have hsize : (UInt32.ofNat data.length).toNat = data.length := by
      rw [UInt32.toNat_ofNat', Nat.mod_eq_of_lt hlt]
    obtain ⟨hosts', hwrite, hrefines⟩ := refines_write stray env.draw h hallowed
      (⟨key, position, data.take (UInt32.ofNat data.length).toNat, by
        rw [hsize, List.take_length]
        exact hlt⟩) ⟨rfl, rfl, by dsimp only; rw [hsize, List.take_length]⟩
    refine ⟨hosts', ?_, hrefines⟩
    have hparsed : ((Request.write position data).client key env.gen).parsed = ⟨key, .file,
      Jsre.OperationT.write.code, position, UInt32.ofNat data.length, data⟩ := rfl
    rw [hparsed, startStoragePerform]
    dsimp only
    rw [if_pos rfl, writeRequest, if_pos hsize.le, Option.bind_some]
    exact hwrite
  | read position size =>
    obtain ⟨-, hend, -, hcovered⟩ := hallowed
    refine ⟨hosts, ?_, h⟩
    have hread := performRead_covered stray ⟨key, position, size⟩ (h.calm key).small hend
      (fun x ↦ (fs.bytes key x).getD 0) fun x hlo hhi ↦ by
        obtain ⟨byte, hbyte⟩ := Option.isSome_iff_exists.mp (hcovered x hlo hhi)
        rw [hbyte, Option.getD_some]
        exact (h.bytes key x byte hbyte).2
    have hparsed : ((Request.read position size).client key env.gen).parsed = ⟨key, .file,
      Jsre.OperationT.read.code, position, size, []⟩ := rfl
    rw [hparsed, startStoragePerform]
    dsimp only
    rw [if_neg (by decide), if_pos rfl, hread]
    rfl
  | mkdir =>
    obtain ⟨hosts', hwrite, hrefines⟩ :=
      refines_writeContent stray env.draw h hallowed env.reserved [] (by decide)
    refine ⟨hosts', ?_, hrefines⟩
    have himage : recordsImage env.reserved [] = Stats.bytes ⟨0, env.reserved⟩ := by
      rw [recordsImage, List.flatMap_nil, List.append_nil]
      rfl
    rw [himage] at hwrite
    have hparsed : (Request.mkdir.client key env.gen).parsed = ⟨key, .metadata,
      Jsre.MetaOperationT.mkdir.code, 0, 0, []⟩ := rfl
    rw [hparsed, startStoragePerform]
    dsimp only
    rw [if_neg (by decide), if_pos rfl]
    exact hwrite
  | addfile filename =>
    obtain ⟨hnul, hlen, names, hnames, hsmall⟩ := hallowed
    obtain ⟨reserved, entries, hstored, -, rfl⟩ := h.names key names hnames
    rw [List.length_map] at hsmall
    obtain ⟨rest, hread⟩ := readDirectory_records hstored.beginsWith (by omega) stray rereads
    obtain ⟨hosts', hwrite, hrefines⟩ := refines_writeContent stray env.draw h
      (fun x ↦ h.apart key x (by rw [hnames]; rfl)) reserved
      (entries ++ [addfileMeta filename]) (by
        rw [List.length_append, List.length_singleton]
        omega)
    have hparse := FileMeta.parse_bytes (addfileMeta filename) []
    rw [List.append_nil] at hparse
    refine ⟨hosts', ?_, ?_⟩
    · have hparsed : ((Request.addfile filename).client key env.gen).parsed = ⟨key, .metadata,
        Jsre.MetaOperationT.addfile.code, 0, UInt32.ofNat FileMeta.sizeOf,
        (addfileMeta filename).bytes⟩ := rfl
      rw [hparsed, startStoragePerform]
      dsimp only
      rw [if_pos rfl, hparse, Option.bind_some, startMetaAddfile, hread]
      dsimp only
      rw [append_records rest _ hsmall]
      exact hwrite
    · rw [List.map_append, List.map_singleton, name_addfileMeta hnul,
        List.take_of_length_le hlen] at hrefines
      rw [Files.perform, hnames]
      exact hrefines
  | ls =>
    obtain ⟨names, hnames⟩ := Option.isSome_iff_exists.mp hallowed
    obtain ⟨reserved, entries, hstored, hle, rfl⟩ := h.names key names hnames
    refine ⟨hosts, ?_, h⟩
    have hls := ls_records hstored hle stray rereads
    have hparsed : (Request.ls.client key env.gen).parsed = ⟨key, .metadata,
      Jsre.MetaOperationT.ls.code, 0, 0, []⟩ := rfl
    rw [hparsed, startStoragePerform]
    dsimp only
    rw [if_neg (by decide), if_neg (by decide), if_pos rfl, hls, Files.reply, hnames,
      Option.elim_some, List.length_map]
    rfl

/-! ## There and back

What the datafunction answers has to fit into a packet with its header. For a listing this is so
because a directory has few names. -/

private theorem length_name_le (entry : FileMeta) : entry.name.length ≤ 60 := by
  have hle := (List.takeWhile_prefix (p := fun b : UInt8 ↦ b ≠ 0)
    (l := entry.filename.toList)).length_le
  rwa [List.Vector.toList_length] at hle

private theorem length_listing {entries : List FileMeta} (hle : entries.length ≤ 63) :
    (listing entries.length (entries.map FileMeta.name)).length ≤ 4000 := by
  have hdecimal : ∀ n ≤ 63, (decimal n).length ≤ 2 := by decide
  have hnames : ((entries.map FileMeta.name).flatMap (· ++ [10])).length
      ≤ 61 * entries.length := by
    clear hle
    induction entries with
    | nil => exact le_rfl
    | cons entry entries ih =>
      have hname := length_name_le entry
      rw [List.map_cons, List.flatMap_cons, List.length_append, List.length_append,
        List.length_singleton, List.length_cons]
      omega
  have hcount := hdecimal _ hle
  have htotal : (ascii "total: ").length = 7 := by decide
  have hfiles : (ascii " files\n").length = 7 := by decide
  rw [listing, List.length_append, List.length_append, List.length_append]
  omega

/-- What is sent for an allowed request, and what is sent back, fits in a packet. -/
theorem fits_of_allowed (h : Refines cfg hosts fs) {request : Request}
    (hallowed : fs.Allowed key request) (gen : Gen) :
    Pack.PacketHeader.bytesize
        + (Jsre.Request.sizeOf + (request.client key gen).payload.length) < 2 ^ 32 ∧
      Pack.PacketHeader.bytesize + (fs.reply key request).length < 2 ^ 32 := by
  have hok : Pack.PacketHeader.bytesize + Write.ok.length < 2 ^ 32 := by decide
  have hbare : Pack.PacketHeader.bytesize + (Jsre.Request.sizeOf + ([] : Buf).length) < 2 ^ 32 := by
    decide
  cases request with
  | write position data => exact ⟨hallowed.2.2.2, hok⟩
  | read position size =>
    refine ⟨hbare, ?_⟩
    rw [Files.reply, List.length_map, List.length_range]
    exact hallowed.2.2.1
  | mkdir => exact ⟨hbare, hok⟩
  | addfile filename =>
    refine ⟨?_, hok⟩
    have hlen : ((Request.addfile filename).client key gen).payload.length = 64 :=
      FileMeta.length_bytes _
    rw [hlen]
    decide
  | ls =>
    obtain ⟨names, hnames⟩ := Option.isSome_iff_exists.mp hallowed
    obtain ⟨reserved, entries, -, hle, rfl⟩ := h.names key names hnames
    refine ⟨hbare, ?_⟩
    have hlisting := length_listing hle
    rw [Files.reply, hnames, Option.elim_some, List.length_map, Pack.PacketHeader.bytesize]
    omega

/-- **One request from end to end.** -/
theorem serve_spec (stray : ℕ → UInt8) (rereads : ℕ) (env : Surroundings)
    (h : Refines cfg hosts fs) {request : Request} (hallowed : fs.Allowed key request) :
    ∃ received hosts', serve cfg stray rereads env key request hosts = some (received, hosts') ∧
      received.data = fs.reply key request ∧
      fullKey received.header = (request.client key env.gen).fullKey ∧
      Refines cfg hosts' (fs.perform key request) := by
  obtain ⟨hpayload, hreply⟩ := fits_of_allowed h hallowed env.gen
  obtain ⟨hosts', hperform, hrefines⟩ := startStoragePerform_spec stray rereads env h hallowed
  have hpack := toWorker_eq env.toProxy env.toWorker (request.client key env.gen) hpayload
  have hparse : Jsre.requestParser
      ⟨{ (request.client key env.gen).packet.sealedHeader with type := .workerPushRequest },
        (request.client key env.gen).packet.data⟩ = some (request.client key env.gen).parsed :=
    Jsre.requestParser_bytes _ _ _ _
  have hback := toClient_eq env.fromWorker env.fromProxy
    ⟨{ (request.client key env.gen).packet.sealedHeader with type := .workerPushRequest },
      (request.client key env.gen).packet.data⟩ (fs.reply key request) hreply
  refine ⟨⟨(respond ⟨{ (request.client key env.gen).packet.sealedHeader with
    type := .workerPushRequest }, (request.client key env.gen).packet.data⟩
    (fs.reply key request)).sealedHeader, fs.reply key request⟩, hosts', ?_, rfl, rfl, hrefines⟩
  simp only [serve, hpack, hparse, hperform, hback, Option.bind_eq_bind, Option.bind_some]
  rfl

/-! ## Requests one after the other

By induction over the requests, with the hosts and the `Files` that each one finds. The answers of
all requests are known from the start, because `Files` has no choice. -/

/-- The header fields that a request and its answer share. -/
def Request.fullKey (env : Surroundings) (key : Key) (request : Request) : PacketHeader :=
  (request.client key env.gen).fullKey

private theorem serveAll_spec (stray : ℕ → UInt8) (rereads : ℕ)
    (requests : List (Surroundings × Key × Request)) :
    ∀ {hosts : Hosts} {fs : Files}, Refines cfg hosts fs → fs.AllAllowed requests →
      ∃ received hosts', serveAll cfg stray rereads requests hosts = some (received, hosts') ∧
        received.map (·.data) = fs.replies requests ∧
        received.map (fun r ↦ fullKey r.header)
          = requests.map (fun r ↦ r.2.2.fullKey r.1 r.2.1) := by
  induction requests with
  | nil => exact fun _ _ ↦ ⟨[], _, rfl, rfl, rfl⟩
  | cons r requests ih =>
    obtain ⟨env, key, request⟩ := r
    intro hosts fs h hallowed
    obtain ⟨received, hosts₁, hserve, hdata, hkey, hrefines⟩ :=
      serve_spec stray rereads env h hallowed.1
    obtain ⟨rest, hosts', hall, hdatas, hkeys⟩ := ih hrefines hallowed.2
    refine ⟨received :: rest, hosts', ?_, ?_, ?_⟩
    · rw [serveAll, hserve]
      simp only [Option.bind_eq_bind, Option.bind_some, hall]
      rfl
    · rw [List.map_cons, hdata, hdatas, Files.replies]
    · rw [List.map_cons, List.map_cons, hkey, hkeys]
      rfl

/-- A request on its own. -/
def quiet : Surroundings where
  gen := ⟨List.Vector.replicate 4 1, List.Vector.replicate 4 2, List.Vector.replicate 2 0⟩
  draw := fileA.1
  reserved := List.Vector.replicate 60 0
  toProxy := []
  toWorker := []
  fromWorker := []
  fromProxy := []

/-- A file of two bytes and a directory with a name. -/
def session : List (Surroundings × Key × Request) :=
  [(quiet, rootId, .mkdir), (quiet, List.Vector.replicate 32 1, .write 0 [7, 8]),
    (quiet, rootId, .addfile (ascii "a")),
    (quiet, List.Vector.replicate 32 1, .read 1 1), (quiet, rootId, .ls)]

end Slsfs.FileSystem

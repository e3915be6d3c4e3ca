import Slsfs.Datafunction.Storage

/-!
# Directories

A directory is a file of 64-byte records: the first holds the number of files, each of the others
the owner, the permission and the name of one. `addfile` and `ls` read 4096 bytes, and read again
if the files alone take more than what they got. The record with the number takes a place too, so
from 64 files on the last record is not among the bytes that were read: `addfile` overwrites it
with zeros and `ls` copies it from outside the buffer. Below that, a directory lists what was added.
-/

namespace Slsfs.Datafunction

open LeveldbPack Ssbd

/-! ## The records and the requests

The record at the start of a directory and the records of its files are given byte by byte, as
`memcpy` puts them into the buffer. `readDirectory` is the read that all requests start with, and
`startMetaAddfile` and `startMetaLs` are what they make of the buffer. A second read is made only if
the number of files says that more than 4096 bytes are needed. -/

/-- `meta::stats`, with the reserved bytes. -/
structure Stats where
  fileCount : UInt32
  reserved : List.Vector UInt8 60

/-- The record in network format. -/
def Stats.bytes (stat : Stats) : Buf :=
  (bigEndian 4 stat.fileCount.toNat).toList ++ stat.reserved.toList

/-- The record at the start of a buffer; `none` if the buffer is too small for it. -/
def Stats.parse (content : Buf) : Option Stats := do
  let (count, content) ← cut 4 content
  let (reserved, _) ← cut 60 content
  return ⟨UInt32.ofNat (ofBigEndian count), reserved⟩

/-- `meta::filemeta`, in network format. -/
structure FileMeta where
  owner : List.Vector UInt8 2
  permission : List.Vector UInt8 2
  filename : List.Vector UInt8 60

def FileMeta.bytes (entry : FileMeta) : Buf :=
  entry.owner.toList ++ (entry.permission.toList ++ entry.filename.toList)

@[simp] theorem Stats.length_bytes (stat : Stats) : stat.bytes.length = 64 := by
  simp [Stats.bytes]

@[simp] theorem FileMeta.length_bytes (entry : FileMeta) : entry.bytes.length = 64 := by
  simp [FileMeta.bytes]

section

variable (cfg : Config) (stray : ℕ → UInt8)

/-- What `start_meta_addfile` and `start_meta_ls` begin with: reading the directory, and reading it
again while there is not enough of it. `some none` is a directory that does not exist. -/
def readDirectory (hosts : Hosts) (uuid : Key) : ℕ → UInt32 → Option (Option (Stats × Buf))
  | 0, _ => none
  | rereads + 1, readsize =>
    match performRead cfg stray hosts ⟨uuid, 0, readsize⟩ with
    | none => none
    | some content =>
      match Stats.parse content with
      | none => some none
      | some stat =>
        -- the first record is not counted, so this may stop one record too early
        if content.length < stat.fileCount.toNat * 64 then
          readDirectory hosts uuid rereads (UInt32.ofNat (stat.fileCount.toNat * 64))
        else some (some (stat, content))

def noSuchDirectory : Buf := ascii "Error: No such directory"

/-- A write of a buffer to the start of a file. Its size is cut to 32 bits. -/
def writeContent (uuid : Key) (content : Buf) : WriteRequest where
  uuid
  position := 0
  data := content.take (content.length % 2 ^ 32)
  size_lt := by
    have := Nat.mod_lt content.length (by decide : 2 ^ 32 > 0)
    rw [List.length_take]
    omega

def startMetaMkdir (draw : Draw) (hosts : Hosts) (uuid : Key) (reserved : List.Vector UInt8 60) :
    Option (Buf × Hosts) :=
  performWrite cfg stray draw hosts (writeContent uuid (Stats.bytes ⟨0, reserved⟩))

/-- The directory with one more file. -/
def append (stat : Stats) (content : Buf) (entry : FileMeta) : Buf :=
  let count := stat.fileCount + 1
  let position := (UInt32.ofNat (count.toNat * 64)).toNat
  let content := copyAt (resize 0 (position + 64) content) position entry.bytes
  copyAt content 0 (Stats.bytes ⟨count, stat.reserved⟩)

def startMetaAddfile (rereads : ℕ) (draw : Draw) (hosts : Hosts) (uuid : Key) (entry : FileMeta) :
    Option (Buf × Hosts) :=
  match readDirectory cfg stray hosts uuid rereads 4096 with
  | none => none
  | some none => some (noSuchDirectory, hosts)
  | some (some (stat, content)) =>
    performWrite cfg stray draw hosts (writeContent uuid (append stat content entry))

/-- The name in the record with a number; `none` if the record is not inside the buffer. -/
def entryName (content : Buf) (i : ℕ) : Option Buf :=
  let pos := i * 64 % 2 ^ 32
  if pos + 64 ≤ content.length then
    some (((content.drop pos).drop 4).take 60 |>.takeWhile (· ≠ 0))
  else none

/-- The loop of `start_meta_ls`. -/
def entryNames (content : Buf) : ℕ → Option (List Buf)
  | 0 => some []
  | i + 1 => (entryNames content i).bind fun names ↦
      (entryName content (i + 1)).map fun name ↦ names ++ [name]

/-- The answer of `ls` for some names. -/
def listing (count : ℕ) (names : List Buf) : Buf :=
  ascii "total: " ++ (decimal count ++ (ascii " files\n" ++ names.flatMap (· ++ [10])))

def startMetaLs (rereads : ℕ) (hosts : Hosts) (uuid : Key) : Option Buf :=
  match readDirectory cfg stray hosts uuid rereads 4096 with
  | none => none
  | some none => some noSuchDirectory
  | some (some (stat, content)) =>
    (entryNames content stat.fileCount.toNat).map (listing stat.fileCount.toNat)

end

/-- A file that is added: its name has at most 60 bytes, none of them zero. -/
structure NewFile where
  owner : List.Vector UInt8 2
  permission : List.Vector UInt8 2
  name : Buf
  name_pos : 0 < name.length
  name_le : name.length ≤ 60
  name_ne : ∀ b ∈ name, b ≠ 0

/-- The record a client sends: the name is followed by zeros. -/
def NewFile.meta (file : NewFile) : FileMeta where
  owner := file.owner
  permission := file.permission
  filename := ⟨resize 0 60 file.name, length_resize ..⟩

/-- `addfile` requests one after the other. -/
def addFiles (cfg : Config) (stray : ℕ → UInt8) (rereads : ℕ) (uuid : Key) :
    List (Draw × NewFile) → Hosts → Option Hosts
  | [], hosts => some hosts
  | (draw, file) :: files, hosts =>
    match startMetaAddfile cfg stray rereads draw hosts uuid file.meta with
    | none => none
    | some (_, hosts) => addFiles cfg stray rereads uuid files hosts

/-! ## Reading the directory

What is stored of a directory is described as a beginning of the file: `BeginsWith` for the bytes on
the servers, `Stored` with the condition that nothing is pending, so that the file can be written. A
read that asks for no more than that gets it, and a write of a whole directory leaves its own bytes
as the beginning. -/

theorem Stats.parse_bytes (stat : Stats) (rest : Buf) :
    Stats.parse (stat.bytes ++ rest) = some stat := by
  have hcount : UInt32.ofNat (ofBigEndian (bigEndian 4 stat.fileCount.toNat)) = stat.fileCount := by
    rw [ofBigEndian_bigEndian, Nat.mod_eq_of_lt (by have := stat.fileCount.toNat_lt; omega),
      UInt32.ofNat_toNat]
  simp only [Stats.parse, Stats.bytes, List.append_assoc, cut_append, Option.bind_eq_bind,
    Option.bind_some, hcount, pure]

section

variable {cfg : Config} {stray : ℕ → UInt8} {hosts hosts' : Hosts} {uuid : Key}

/-- The file starts with some bytes. -/
structure Stored (cfg : Config) (hosts : Hosts) (uuid : Key) (image : Buf) : Prop where
  calm : Calm cfg hosts uuid
  bytes : ∀ x < image.length, hosts.byteAt cfg uuid x = image[x]?

/-- What a read sees of the file starts with some bytes, whatever is pending. -/
structure BeginsWith (cfg : Config) (hosts : Hosts) (uuid : Key) (image : Buf) : Prop where
  small : ∀ b content, (hosts.primary cfg (uuid, b)).content = some content →
    content.length < 2 ^ 32
  bytes : ∀ x < image.length, hosts.byteAt cfg uuid x = image[x]?

theorem Stored.beginsWith {image : Buf} (h : Stored cfg hosts uuid image) :
    BeginsWith cfg hosts uuid image :=
  ⟨h.calm.small, h.bytes⟩

theorem BeginsWith.read {image : Buf} (h : BeginsWith cfg hosts uuid image) (stray : ℕ → UInt8)
    (size : UInt32) (hsize : image.length ≤ size.toNat) :
    ∃ rest, performRead cfg stray hosts ⟨uuid, 0, size⟩ = some (image ++ rest) ∧
      (image ++ rest).length ≤ size.toNat := by
  obtain ⟨buf, hread, hlen, hbuf⟩ := performRead_spec stray h.small h.bytes size
  have hstart : buf.take image.length = image := by
    refine List.ext_getElem? fun i ↦ ?_
    by_cases hi : i < image.length
    · rw [List.getElem?_take_of_lt hi, hbuf i hi (by omega)]
    · rw [List.getElem?_eq_none (by rw [List.length_take]; omega), List.getElem?_eq_none (by omega)]
  have hsplit : image ++ buf.drop image.length = buf := by
    have htake := List.take_append_drop image.length buf
    rwa [hstart] at htake
  exact ⟨buf.drop image.length, by rw [hsplit]; exact hread, by rw [hsplit]; exact hlen⟩

theorem Stored.shorten {image : Buf} (h : Stored cfg hosts uuid image) {start : Buf}
    (hstart : start <+: image) : Stored cfg hosts uuid start := by
  refine ⟨h.calm, fun x hx ↦ ?_⟩
  obtain ⟨rest, rfl⟩ := hstart
  rw [h.bytes x (by rw [List.length_append]; omega), List.getElem?_append_left hx]

theorem data_writeContent (uuid : Key) {content : Buf} (hlt : content.length < 2 ^ 32) :
    (writeContent uuid content).data = content := by
  change content.take (content.length % 2 ^ 32) = content
  rw [Nat.mod_eq_of_lt hlt, List.take_length]

theorem bytes_of_writeContent {content : Buf} (hlt : content.length < 2 ^ 32)
    (h : ∀ i < (writeContent uuid content).data.length,
      hosts.byteAt cfg uuid ((writeContent uuid content).position.toNat + i)
        = (writeContent uuid content).data[i]?) :
    ∀ x < content.length, hosts.byteAt cfg uuid x = content[x]? := by
  rw [data_writeContent uuid hlt] at h
  intro x hx
  have hbyte := h x hx
  change hosts.byteAt cfg uuid (0 + x) = _ at hbyte
  rwa [Nat.zero_add] at hbyte

theorem end_writeContent {content : Buf} (hlt : content.length < 2 ^ 32) :
    (writeContent uuid content).position.toNat + (writeContent uuid content).data.length
      < 2 ^ 32 := by
  rw [data_writeContent uuid hlt]
  change 0 + content.length < 2 ^ 32
  omega

theorem Stored.write {image content : Buf} (h : Stored cfg hosts uuid image) (stray : ℕ → UInt8)
    (draw : Draw) (hpos : 0 < content.length) (hlt : content.length < 2 ^ 32) :
    ∃ hosts' : Hosts, performWrite cfg stray draw hosts (writeContent uuid content)
        = some (Write.ok, hosts') ∧ Stored cfg hosts' uuid content := by
  have hpos' : 0 < (writeContent uuid content).data.length := by
    rw [data_writeContent uuid hlt]
    exact hpos
  obtain ⟨hosts', hwrite, hcalm, hbytes⟩ := byteAt_performWrite stray draw hpos'
    (end_writeContent hlt) h.calm
  exact ⟨hosts', hwrite, hcalm, bytes_of_writeContent hlt hbytes⟩

/-- As long as its first record is stored, a directory that is read has that record, and as many
bytes as the read asked for at most. -/
theorem readDirectory_stored {stat : Stats} (h : Stored cfg hosts uuid stat.bytes) {rereads : ℕ}
    {size : UInt32} {stat' : Stats} {content : Buf}
    (hread : readDirectory cfg stray hosts uuid rereads size = some (some (stat', content))) :
    stat' = stat ∧ 64 ≤ content.length ∧ content.length < 2 ^ 32 ∧
      content.length ≤ max size.toNat (stat.fileCount.toNat * 64) := by
  induction rereads generalizing size with
  | zero => cases hread
  | succ rereads ih =>
    rw [readDirectory] at hread
    split at hread
    · cases hread
    · rename_i buf hbuf
      by_cases hsize : 64 ≤ size.toNat
      · obtain ⟨rest, hrest, hlen⟩ := h.beginsWith.read stray size
          (by rw [Stats.length_bytes]; exact hsize)
        rw [hrest, Option.some_inj] at hbuf
        subst hbuf
        rw [Stats.parse_bytes] at hread
        dsimp only at hread
        split at hread
        · obtain ⟨hstat, hmin, hlt, hmax⟩ := ih hread
          refine ⟨hstat, hmin, hlt, ?_⟩
          have hmod := Nat.mod_le (stat.fileCount.toNat * 64) (2 ^ 32)
          rw [UInt32.toNat_ofNat'] at hmax
          omega
        · cases hread
          rw [List.length_append, Stats.length_bytes] at hlen ⊢
          have := size.toNat_lt
          exact ⟨rfl, by omega, by omega, by omega⟩
      · -- too small a read for the first record
        have himage : ∀ x < ([] : Buf).length, hosts.byteAt cfg uuid x = ([] : Buf)[x]? :=
          fun x hx ↦ absurd hx (Nat.not_lt_zero x)
        obtain ⟨buf', hread', hlen, -⟩ := performRead_spec stray h.calm.small himage size
        rw [hread', Option.some_inj] at hbuf
        subst hbuf
        have hnone : Stats.parse buf' = none := by
          rw [Stats.parse]
          by_cases hfour : 4 ≤ buf'.length
          · simp [cut, hfour]
            omega
          · simp [cut, hfour]
        rw [hnone] at hread
        cases hread

/-! ## Up to 63 records

The first read gets 4096 bytes, which are 64 records, so a directory of at most 63 files is read as
a whole. `addfile` then appends its record and counts it, and `ls` finds the names of all
records. -/

/-- The name that `ls` finds in a record. -/
def FileMeta.name (entry : FileMeta) : Buf := entry.filename.toList.takeWhile (· ≠ 0)

/-- The bytes of a directory with some records. -/
def recordsImage (reserved : List.Vector UInt8 60) (entries : List FileMeta) : Buf :=
  Stats.bytes ⟨UInt32.ofNat entries.length, reserved⟩ ++ entries.flatMap FileMeta.bytes

private theorem length_entries (entries : List FileMeta) :
    (entries.flatMap FileMeta.bytes).length = 64 * entries.length := by
  induction entries with
  | nil => rfl
  | cons entry entries ih =>
    rw [List.flatMap_cons, List.length_append, ih, FileMeta.length_bytes, List.length_cons]
    omega

@[simp] theorem length_recordsImage (reserved : List.Vector UInt8 60) (entries : List FileMeta) :
    (recordsImage reserved entries).length = 64 * (entries.length + 1) := by
  rw [recordsImage, List.length_append, Stats.length_bytes, length_entries]
  omega

theorem readDirectory_records {reserved : List.Vector UInt8 60} {entries : List FileMeta}
    (h : BeginsWith cfg hosts uuid (recordsImage reserved entries)) (hsmall : entries.length ≤ 63)
    (stray : ℕ → UInt8) (rereads : ℕ) :
    ∃ rest, readDirectory cfg stray hosts uuid (rereads + 1) 4096
      = some (some (⟨UInt32.ofNat entries.length, reserved⟩,
        recordsImage reserved entries ++ rest)) := by
  have hcount : (UInt32.ofNat entries.length).toNat = entries.length :=
    UInt32.toNat_ofNat_of_lt' (by rw [UInt32.size]; omega)
  obtain ⟨rest, hread, -⟩ := h.read stray 4096 (by
    rw [length_recordsImage]
    change _ ≤ 4096
    omega)
  refine ⟨rest, ?_⟩
  rw [readDirectory, hread]
  dsimp only
  have hparse : Stats.parse (recordsImage reserved entries ++ rest)
      = some ⟨UInt32.ofNat entries.length, reserved⟩ := by
    rw [recordsImage, List.append_assoc, Stats.parse_bytes]
  rw [hparse]
  dsimp only
  rw [hcount, if_neg]
  rw [List.length_append, length_recordsImage]
  omega

theorem append_records {reserved : List.Vector UInt8 60} {entries : List FileMeta} (rest : Buf)
    (entry : FileMeta) (hsmall : entries.length < 63) :
    append ⟨UInt32.ofNat entries.length, reserved⟩ (recordsImage reserved entries ++ rest) entry
      = recordsImage reserved (entries ++ [entry]) := by
  have hcount : UInt32.ofNat entries.length + 1 = UInt32.ofNat (entries.length + 1) := by
    rw [UInt32.ofNat_add]
    rfl
  -- the new record starts where the directory ends, and what is read behind is cut off
  have hposition : (UInt32.ofNat ((UInt32.ofNat (entries.length + 1)).toNat * 64)).toNat
      = (recordsImage reserved entries).length := by
    rw [UInt32.toNat_ofNat', UInt32.toNat_ofNat', length_recordsImage]
    omega
  have hlast : copyAt (resize 0 ((recordsImage reserved entries).length + 64)
        (recordsImage reserved entries ++ rest)) (recordsImage reserved entries).length
        entry.bytes = recordsImage reserved entries ++ entry.bytes := by
    have hdrop : (resize 0 ((recordsImage reserved entries).length + 64)
        (recordsImage reserved entries ++ rest)).drop
          ((recordsImage reserved entries).length + entry.bytes.length) = [] := by
      rw [FileMeta.length_bytes, List.drop_eq_nil_iff, length_resize]
    rw [copyAt, hdrop, List.append_nil, resize, List.take_append_of_le_length (by
      rw [List.length_take, List.length_append]
      omega), List.take_take, Nat.min_eq_left (Nat.le_add_right _ _), List.take_left']
    rfl
  rw [append]
  dsimp only
  rw [hcount, hposition, hlast, recordsImage, recordsImage, copyAt, List.take_zero,
    Nat.zero_add, List.nil_append, Stats.length_bytes, List.append_assoc, List.drop_append,
    Stats.length_bytes, Nat.sub_self, List.drop_zero, List.drop_eq_nil_of_le (by simp),
    List.nil_append, List.length_append, List.length_singleton, List.flatMap_append,
    List.flatMap_singleton]

theorem addfile_records {reserved : List.Vector UInt8 60} {entries : List FileMeta}
    (h : Stored cfg hosts uuid (recordsImage reserved entries)) (hsmall : entries.length < 63)
    (stray : ℕ → UInt8) (rereads : ℕ) (draw : Draw) (entry : FileMeta) :
    ∃ hosts' : Hosts, startMetaAddfile cfg stray (rereads + 1) draw hosts uuid entry
        = some (Write.ok, hosts') ∧
      Stored cfg hosts' uuid (recordsImage reserved (entries ++ [entry])) := by
  obtain ⟨rest, hread⟩ := readDirectory_records h.beginsWith (by omega) stray rereads
  rw [startMetaAddfile, hread]
  dsimp only
  rw [append_records rest entry hsmall]
  refine h.write stray draw ?_ ?_
  · rw [length_recordsImage]
    omega
  · rw [length_recordsImage, List.length_append, List.length_singleton]
    omega

private theorem entryName_records (reserved : List.Vector UInt8 60) (before after : List FileMeta)
    (entry : FileMeta) (rest : Buf) (hsmall : before.length < 63) (count : UInt32) :
    entryName (Stats.bytes ⟨count, reserved⟩ ++ (before ++ entry :: after).flatMap FileMeta.bytes
      ++ rest) (before.length + 1) = some entry.name := by
  have hpos : (before.length + 1) * 64 % 2 ^ 32 = 64 * (before.length + 1) := by omega
  have hdrop : (Stats.bytes ⟨count, reserved⟩ ++ (before ++ entry :: after).flatMap FileMeta.bytes
      ++ rest).drop (64 * (before.length + 1))
        = entry.bytes ++ (after.flatMap FileMeta.bytes ++ rest) := by
    rw [List.flatMap_append, List.flatMap_cons, List.append_assoc, List.append_assoc,
      ← List.append_assoc (Stats.bytes _), List.drop_left' (by
        rw [List.length_append, Stats.length_bytes, length_entries]
        omega), List.append_assoc]
  have hlen : 64 * (before.length + 1) + 64
      ≤ (Stats.bytes ⟨count, reserved⟩ ++ (before ++ entry :: after).flatMap FileMeta.bytes
        ++ rest).length := by
    rw [List.length_append, List.length_append, Stats.length_bytes, length_entries,
      List.length_append, List.length_cons]
    omega
  have hname : ((entry.bytes ++ (after.flatMap FileMeta.bytes ++ rest)).drop 4).take 60
      = entry.filename.toList := by
    rw [FileMeta.bytes, ← List.append_assoc entry.owner.toList, List.append_assoc,
      List.drop_left' (by simp), List.take_left' (by simp)]
  rw [entryName, hpos, if_pos hlen, hdrop, hname, FileMeta.name]

private theorem entryNames_records {reserved : List.Vector UInt8 60} {entries : List FileMeta}
    (rest : Buf) (hsmall : entries.length ≤ 63) (count : UInt32) {k : ℕ} (hk : k ≤ entries.length) :
    entryNames (Stats.bytes ⟨count, reserved⟩ ++ entries.flatMap FileMeta.bytes ++ rest) k
      = some ((entries.take k).map FileMeta.name) := by
  induction k with
  | zero => rw [entryNames, List.take_zero, List.map_nil]
  | succ k ih =>
    have hsplit : entries = entries.take k ++ entries[k] :: entries.drop (k + 1) := by
      rw [List.getElem_cons_drop, List.take_append_drop]
    have hname := entryName_records reserved (entries.take k) (entries.drop (k + 1)) entries[k] rest
      (by
        rw [List.length_take]
        omega) count
    rw [← hsplit, List.length_take, Nat.min_eq_left (by omega)] at hname
    rw [entryNames, ih (by omega), Option.bind_some, hname, Option.map_some, Option.some_inj,
      List.take_succ_eq_append_getElem (by omega), List.map_append, List.map_singleton]

theorem ls_records {reserved : List.Vector UInt8 60} {entries : List FileMeta}
    (h : Stored cfg hosts uuid (recordsImage reserved entries)) (hsmall : entries.length ≤ 63)
    (stray : ℕ → UInt8) (rereads : ℕ) :
    startMetaLs cfg stray (rereads + 1) hosts uuid
      = some (listing entries.length (entries.map FileMeta.name)) := by
  have hcount : (UInt32.ofNat entries.length).toNat = entries.length :=
    UInt32.toNat_ofNat_of_lt' (by rw [UInt32.size]; omega)
  obtain ⟨rest, hread⟩ := readDirectory_records h.beginsWith hsmall stray rereads
  rw [startMetaLs, hread]
  dsimp only
  rw [hcount, recordsImage, entryNames_records rest hsmall _ le_rfl, List.take_length,
    Option.map_some]

/-! ## Up to 63 files

The same in terms of the files that were added: `directoryImage` is the file after some calls of
`addfile`, and each call leads from the image of the files so far to the image with one more. Names
are cut to the sixty bytes of their field; the zeros behind them end them again when they are
listed. -/

/-- The bytes of a directory. -/
def directoryImage (reserved : List.Vector UInt8 60) (files : List NewFile) : Buf :=
  Stats.bytes ⟨UInt32.ofNat files.length, reserved⟩ ++ files.flatMap (·.meta.bytes)

theorem directoryImage_eq (reserved : List.Vector UInt8 60) (files : List NewFile) :
    directoryImage reserved files = recordsImage reserved (files.map NewFile.meta) := by
  rw [directoryImage, recordsImage, List.flatMap_map, List.length_map]

@[simp] theorem length_directoryImage (reserved : List.Vector UInt8 60) (files : List NewFile) :
    (directoryImage reserved files).length = 64 * (files.length + 1) := by
  rw [directoryImage_eq, length_recordsImage, List.length_map]

theorem takeWhile_resize {name : Buf} (hle : name.length ≤ 60) (hne : ∀ b ∈ name, b ≠ 0) :
    (resize 0 60 name).takeWhile (· ≠ 0) = name := by
  rw [resize, List.take_of_length_le hle, List.takeWhile_append_of_pos fun b hb ↦ by
    simpa using hne b hb]
  cases 60 - name.length with
  | zero => simp
  | succ k => simp [List.replicate_succ]

private theorem NewFile.name_meta (file : NewFile) : file.meta.name = file.name :=
  takeWhile_resize file.name_le file.name_ne

theorem readDirectory_image {reserved : List.Vector UInt8 60} {files : List NewFile}
    (h : BeginsWith cfg hosts uuid (directoryImage reserved files)) (hsmall : files.length ≤ 63)
    (stray : ℕ → UInt8) (rereads : ℕ) :
    ∃ rest, readDirectory cfg stray hosts uuid (rereads + 1) 4096
      = some (some (⟨UInt32.ofNat files.length, reserved⟩,
        directoryImage reserved files ++ rest)) := by
  rw [directoryImage_eq] at h ⊢
  have hread := readDirectory_records h (by rwa [List.length_map]) stray rereads
  rwa [List.length_map] at hread

theorem append_image {reserved : List.Vector UInt8 60} {files : List NewFile} (rest : Buf)
    (file : NewFile) (hsmall : files.length < 63) :
    append ⟨UInt32.ofNat files.length, reserved⟩ (directoryImage reserved files ++ rest) file.meta
      = directoryImage reserved (files ++ [file]) := by
  have happend : append ⟨UInt32.ofNat (files.map NewFile.meta).length, reserved⟩
      (recordsImage reserved (files.map NewFile.meta) ++ rest) file.meta
        = recordsImage reserved (files.map NewFile.meta ++ [file.meta]) :=
    append_records rest file.meta (by rwa [List.length_map])
  rw [List.length_map] at happend
  rw [directoryImage_eq, directoryImage_eq, happend, List.map_append, List.map_singleton]

private theorem addfile_image {reserved : List.Vector UInt8 60} {files : List NewFile}
    (h : Stored cfg hosts uuid (directoryImage reserved files)) (hsmall : files.length < 63)
    (stray : ℕ → UInt8) (rereads : ℕ) (draw : Draw) (file : NewFile) :
    ∃ hosts' : Hosts, startMetaAddfile cfg stray (rereads + 1) draw hosts uuid file.meta
        = some (Write.ok, hosts') ∧
      Stored cfg hosts' uuid (directoryImage reserved (files ++ [file])) := by
  rw [directoryImage_eq] at h
  rw [directoryImage_eq, List.map_append, List.map_singleton]
  exact addfile_records h (by rwa [List.length_map]) stray rereads draw file.meta

private theorem addFiles_image {reserved : List.Vector UInt8 60} {old : List NewFile}
    (h : Stored cfg hosts uuid (directoryImage reserved old)) {files : List (Draw × NewFile)}
    (hsmall : old.length + files.length ≤ 63) (stray : ℕ → UInt8) (rereads : ℕ) :
    ∃ hosts' : Hosts, addFiles cfg stray (rereads + 1) uuid files hosts = some hosts' ∧
      Stored cfg hosts' uuid (directoryImage reserved (old ++ files.map Prod.snd)) := by
  induction files generalizing hosts old with
  | nil => exact ⟨hosts, rfl, by rwa [List.map_nil, List.append_nil]⟩
  | cons entry files ih =>
    obtain ⟨draw, file⟩ := entry
    rw [List.length_cons] at hsmall
    obtain ⟨hosts₁, hadd, hstored⟩ := addfile_image h (by omega) stray rereads draw file
    obtain ⟨hosts', hrest, hstored'⟩ := ih hstored (by
      rw [List.length_append, List.length_singleton]
      omega)
    refine ⟨hosts', ?_, ?_⟩
    · rw [addFiles, hadd]
      exact hrest
    · rw [List.map_cons]
      rwa [List.append_assoc] at hstored'

theorem ls_image {reserved : List.Vector UInt8 60} {files : List NewFile}
    (h : Stored cfg hosts uuid (directoryImage reserved files)) (hsmall : files.length ≤ 63)
    (stray : ℕ → UInt8) (rereads : ℕ) :
    startMetaLs cfg stray (rereads + 1) hosts uuid
      = some (listing files.length (files.map NewFile.name)) := by
  rw [directoryImage_eq] at h
  rw [ls_records h (by rwa [List.length_map]) stray rereads, List.length_map, List.map_map]
  congr 2
  exact List.map_congr_left fun file _ ↦ file.name_meta

/-! ## More than 63 files

With the 64th file the record of that file lies behind the first 4096 bytes, and the second read is
not made, since the count of the files alone does not ask for it. What `addfile` writes back from
then on begins with the right count, but a record in it is lost. `Headed` says no more than that,
and it is enough: the count is too large for the names that can be listed. -/

/-- The first record of the directory is stored. -/
def Headed (cfg : Config) (hosts : Hosts) (uuid : Key) : Prop :=
  ∃ stat : Stats, Stored cfg hosts uuid stat.bytes

theorem bytes_isPrefix_append (stat : Stats) (content : Buf) (entry : FileMeta) :
    Stats.bytes ⟨stat.fileCount + 1, stat.reserved⟩ <+: append stat content entry := by
  rw [append, copyAt, List.take_zero, List.nil_append]
  exact List.prefix_append _ _

private theorem length_append_le (stat : Stats) (content : Buf) (entry : FileMeta) :
    64 ≤ (append stat content entry).length ∧ (append stat content entry).length ≤ 2 ^ 32 := by
  obtain ⟨position, hposition⟩ :
      ∃ n, (UInt32.ofNat ((stat.fileCount + 1).toNat * 64)).toNat = n := ⟨_, rfl⟩
  have hle : position ≤ 2 ^ 32 - 64 := by
    rw [← hposition, UInt32.toNat_ofNat']
    omega
  have hlast : (copyAt (resize 0 (position + 64) content) position entry.bytes).length
      = position + 64 := by
    rw [length_copyAt] <;> rw [length_resize]
    rw [FileMeta.length_bytes]
  rw [append, hposition, length_copyAt] <;> rw [hlast]
  · omega
  · rw [Stats.length_bytes]
    omega

/-- A size of 2 ^ 32 is cut to zero, and a write of nothing is never answered. -/
theorem length_append_lt {stat : Stats} {content : Buf} {entry : FileMeta}
    (hne : (writeContent uuid (append stat content entry)).chunks cfg.blocksize ≠ []) :
    (append stat content entry).length < 2 ^ 32 := by
  by_contra hfull
  obtain ⟨-, hmax⟩ := length_append_le stat content entry
  have hdata : (writeContent uuid (append stat content entry)).data = [] := by
    change List.take ((append stat content entry).length % 2 ^ 32) _ = []
    rw [show (append stat content entry).length = 2 ^ 32 by omega]
    rfl
  refine hne ?_
  rw [WriteRequest.chunks, WriteRequest.size, hdata]
  rfl

/-- Whatever becomes of the other records, an `addfile` that is answered keeps the first one. -/
theorem headed_addfile {rereads : ℕ} {draw : Draw} {entry : FileMeta} {reply : Buf}
    (h : Headed cfg hosts uuid)
    (hadd : startMetaAddfile cfg stray rereads draw hosts uuid entry = some (reply, hosts')) :
    Headed cfg hosts' uuid := by
  obtain ⟨stat, hstored⟩ := h
  rw [startMetaAddfile] at hadd
  split at hadd
  · cases hadd
  · cases hadd
    exact ⟨stat, hstored⟩
  · rename_i stat' content hread
    obtain ⟨hmin, -⟩ := length_append_le stat' content entry
    by_cases hchunks :
        (writeContent uuid (append stat' content entry)).chunks cfg.blocksize = []
    · rw [performWrite_eq, if_pos hchunks] at hadd
      cases hadd
    · obtain ⟨hosts₁, hwrite, hstored'⟩ := hstored.write stray draw (by omega)
        (length_append_lt hchunks)
      rw [hwrite] at hadd
      cases hadd
      exact ⟨_, hstored'.shorten (bytes_isPrefix_append stat' content entry)⟩

private theorem headed_addFiles {rereads : ℕ} {files : List (Draw × NewFile)}
    (h : Headed cfg hosts uuid) (hadd : addFiles cfg stray rereads uuid files hosts = some hosts') :
    Headed cfg hosts' uuid := by
  induction files generalizing hosts with
  | nil =>
    cases hadd
    exact h
  | cons entry files ih =>
    rw [addFiles] at hadd
    split at hadd
    · cases hadd
    · rename_i hfirst
      exact ih (headed_addfile h hfirst) hadd

private theorem entryNames_eq_none {content : Buf} {i count : ℕ} (hpos : 0 < i) (hi : i ≤ count)
    (hout : entryName content i = none) : entryNames content count = none := by
  induction count with
  | zero => omega
  | succ count ih =>
    rw [entryNames]
    rcases Nat.lt_or_ge count i with hlt | hge
    · obtain rfl : i = count + 1 := by omega
      rw [hout]
      cases entryNames content count <;> rfl
    · rw [ih hge]
      rfl

/-- The number in the answer of `ls` ends with its last digit. -/
theorem listing_count_inj {n m : ℕ} {names names' : List Buf}
    (h : listing n names = listing m names') : n = m := by
  have hstart : ∀ rest, StartsOffDigit (ascii " files\n" ++ rest) := by
    intro rest b hb
    obtain rfl : 32 = b := by simpa [ascii] using hb
    decide
  exact (decimal_append_inj (hstart _) (hstart _) (List.append_cancel_left h)).1

/-- From 64 files on, `ls` leaves its buffer. -/
theorem ls_headed (h : Headed cfg hosts uuid) {rereads n : ℕ} {names : List Buf}
    (hls : startMetaLs cfg stray rereads hosts uuid = some (listing n names)) : n ≤ 63 := by
  obtain ⟨stat, hstored⟩ := h
  rw [startMetaLs] at hls
  split at hls
  · cases hls
  · rw [Option.some_inj, noSuchDirectory, listing] at hls
    exact absurd (congrArg List.head? hls) (by simp [ascii])
  · rename_i stat' content hread
    obtain ⟨rfl, hmin, hlt, hmax⟩ := readDirectory_stored hstored hread
    obtain ⟨names', hnames, heq⟩ := Option.map_eq_some_iff.mp hls
    have hcount : stat'.fileCount.toNat = n := listing_count_inj heq
    by_contra hmany
    change content.length ≤ max 4096 _ at hmax
    -- the buffer has room for at most as many records as there are files, with the first of them
    have hout : entryName content (content.length / 64) = none := by
      rw [entryName, if_neg]
      omega
    rw [entryNames_eq_none (by omega) (by omega) hout] at hnames
    cases hnames

/-! ## Directory contents

A new directory is one that lists no files. By induction over the calls of `addfile` it lists what
was added up to 63 files, and from there on it does not. -/

theorem mkdir_stored (stray : ℕ → UInt8) (hcalm : Calm cfg hosts uuid)
    (reserved : List.Vector UInt8 60) (draw : Draw) :
    ∃ hosts₀ : Hosts, startMetaMkdir cfg stray draw hosts uuid reserved
        = some (Write.ok, hosts₀) ∧ Stored cfg hosts₀ uuid (directoryImage reserved []) := by
  have hempty : Stored cfg hosts uuid [] := ⟨hcalm, fun x hx ↦ absurd hx (Nat.not_lt_zero x)⟩
  have himage : directoryImage reserved [] = Stats.bytes ⟨0, reserved⟩ := by
    rw [directoryImage, List.flatMap_nil, List.append_nil]
    rfl
  rw [himage]
  exact hempty.write stray draw (by rw [Stats.length_bytes]; decide)
    (by rw [Stats.length_bytes]; decide)

private theorem length_le_of_lists (hcalm : Calm cfg hosts uuid) {reserved : List.Vector UInt8 60}
    {draw : Draw} {files : List (Draw × NewFile)} {rereads : ℕ} {hosts₀ : Hosts} {names : List Buf}
    (hmkdir : startMetaMkdir cfg stray draw hosts uuid reserved = some (Write.ok, hosts₀))
    (hadd : addFiles cfg stray rereads uuid files hosts₀ = some hosts')
    (hls : startMetaLs cfg stray rereads hosts' uuid = some (listing files.length names)) :
    files.length ≤ 63 := by
  obtain ⟨hosts₁, hfirst, hstored⟩ := mkdir_stored stray hcalm reserved draw
  rw [hfirst, Option.some_inj, Prod.mk.injEq] at hmkdir
  obtain ⟨-, rfl⟩ := hmkdir
  exact ls_headed (headed_addFiles ⟨_, hstored.shorten (List.prefix_append _ _)⟩ hadd) hls

end

/-- **A directory lists the files that were added, in order, as long as there are at most 63.** -/
theorem directory_lists_iff (cfg : Config) (stray : ℕ → UInt8) (hosts : Hosts) (uuid : Key)
    (hcalm : Calm cfg hosts uuid) (reserved : List.Vector UInt8 60) (draw : Draw)
    (files : List (Draw × NewFile)) (rereads : ℕ) :
    (∃ hosts₀ hosts' : Hosts,
      startMetaMkdir cfg stray draw hosts uuid reserved = some (Write.ok, hosts₀) ∧
      addFiles cfg stray (rereads + 1) uuid files hosts₀ = some hosts' ∧
      startMetaLs cfg stray (rereads + 1) hosts' uuid
        = some (listing files.length (files.map fun file ↦ file.2.name))) ↔
      files.length ≤ 63 := by
  refine ⟨?_, ?_⟩
  · rintro ⟨hosts₀, hosts', hmkdir, hadd, hls⟩
    exact length_le_of_lists hcalm hmkdir hadd hls
  · intro hsmall
    obtain ⟨hosts₀, hmkdir, hstored⟩ := mkdir_stored stray hcalm reserved draw
    have hfiles : ([] : List NewFile).length + files.length ≤ 63 := by
      rw [List.length_nil]
      omega
    obtain ⟨hosts', hadd, hstored'⟩ := addFiles_image hstored hfiles stray rereads
    rw [List.nil_append] at hstored'
    have hls := ls_image hstored' (by rwa [List.length_map]) stray rereads
    rw [List.length_map, List.map_map] at hls
    exact ⟨hosts₀, hosts', hmkdir, hadd, hls⟩

/-- One server with blocks of 4096 bytes. -/
def oneServer : Config := ⟨4096, by decide, by decide, 1, 1, fun _ _ _ ↦ Fin.last 0⟩

/-- The directory whose id is all zeros. -/
def rootId : Key := List.Vector.replicate 32 0

/-- A file called `a`. -/
def fileA : Draw × NewFile :=
  (⟨false, 7, List.Vector.replicate 4 0⟩,
    ⟨List.Vector.replicate 2 0, List.Vector.replicate 2 0, ascii "a", by decide, by decide,
      List.forall_mem_singleton.mpr (by decide)⟩)

theorem calm_empty : Calm oneServer (fun _ ↦ Server.empty) rootId where
  free _ := rfl
  small _ _ h := nomatch h

/-- The directory with two files of that name. -/
theorem directory_lists_two :
    ∃ hosts₀ hosts' : Hosts,
      startMetaMkdir oneServer (fun _ ↦ 0) fileA.1 (fun _ ↦ Server.empty) rootId
        (List.Vector.replicate 60 0) = some (Write.ok, hosts₀) ∧
      addFiles oneServer (fun _ ↦ 0) 2 rootId [fileA, fileA] hosts₀ = some hosts' ∧
      startMetaLs oneServer (fun _ ↦ 0) 2 hosts' rootId
        = some (listing 2 [ascii "a", ascii "a"]) :=
  (directory_lists_iff oneServer (fun _ ↦ 0) (fun _ ↦ Server.empty) rootId calm_empty
    (List.Vector.replicate 60 0) fileA.1 [fileA, fileA] 1).mpr (by decide)

/-- With 64 files the last record starts where the buffer ends. -/
theorem directory_lists_sixty_four_false :
    ¬ ∃ hosts₀ hosts' : Hosts,
      startMetaMkdir oneServer (fun _ ↦ 0) fileA.1 (fun _ ↦ Server.empty) rootId
        (List.Vector.replicate 60 0) = some (Write.ok, hosts₀) ∧
      addFiles oneServer (fun _ ↦ 0) 2 rootId (List.replicate 64 fileA) hosts₀ = some hosts' ∧
      startMetaLs oneServer (fun _ ↦ 0) 2 hosts' rootId
        = some (listing 64 (List.replicate 64 (ascii "a"))) := by
  rintro ⟨hosts₀, hosts', hmkdir, hadd, hls⟩
  have hlisted : startMetaLs oneServer (fun _ ↦ 0) 2 hosts' rootId
      = some (listing (List.replicate 64 fileA).length (List.replicate 64 (ascii "a"))) := by
    rw [List.length_replicate]
    exact hls
  have hle := length_le_of_lists calm_empty hmkdir hadd hlisted
  rw [List.length_replicate] at hle
  omega

end Slsfs.Datafunction

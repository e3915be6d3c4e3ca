import Slsfs.Datafunction.Directory
import Slsfs.Proxy.Forwarding

/-!
# The names of files

`packet_create::addfile` copies a name into the 60 bytes that a record has for it. The number of
bytes is bounded by the size of the whole record, which is four bytes more, so a longer name is
copied over what lies behind the record. The bytes in the record are the same either way: the start
of the name, with zeros behind it, which `ls` reads up to the first zero.
-/

namespace Slsfs.Datafunction

open LeveldbPack Ssbd

/-- `sizeof (filemeta)`. -/
def FileMeta.sizeOf : ℕ := 64

/-- The `memcpy` of `packet_create::addfile` writes this place, counted from the start of the field
for the name. -/
def NameCopied (filename : Buf) (i : ℕ) : Prop := i < min filename.length FileMeta.sizeOf

private theorem length_copyAt_zero (cells new : Buf) :
    cells.length ≤ (copyAt cells 0 new).length := by
  rw [copyAt, List.length_append, List.length_append, List.length_drop]
  omega

/-- The field after the copy: what is written to its places. -/
def filenameField (filename : Buf) : List.Vector UInt8 60 where
  val := (copyAt (List.replicate 60 0) 0
    (filename.take (min filename.length FileMeta.sizeOf))).take 60
  property := by
    have hle := length_copyAt_zero (List.replicate 60 0)
      (filename.take (min filename.length FileMeta.sizeOf))
    rw [List.length_replicate] at hle
    rw [List.length_take, Nat.min_eq_left hle]

/-- The record, in network format. -/
def addfileMeta (filename : Buf) : FileMeta where
  owner := bigEndian 2 0
  permission := bigEndian 2 0o40777
  filename := filenameField filename

/-- `packet_create::addfile`. -/
def addfile (directory : Key) (gen : Proxy.Gen) (filename : Buf) : Proxy.ClientRequest :=
  ⟨directory, gen,
    ⟨.metadata, Jsre.MetaOperationT.addfile.code, 0, UInt32.ofNat FileMeta.sizeOf⟩,
    (addfileMeta filename).bytes⟩

/-- The record that `start_meta_addfile` copies from a request; `none` if there is not enough. -/
def FileMeta.parse (data : Buf) : Option FileMeta := do
  let (owner, data) ← cut 2 data
  let (permission, data) ← cut 2 data
  let (filename, _) ← cut 60 data
  return ⟨owner, permission, filename⟩

theorem FileMeta.parse_bytes (entry : FileMeta) (rest : Buf) :
    FileMeta.parse (entry.bytes ++ rest) = some entry := by
  simp only [FileMeta.parse, FileMeta.bytes, List.append_assoc, cut_append, Option.bind_eq_bind,
    Option.bind_some, pure]

private theorem requestParser_addfile (directory : Key) (gen : Proxy.Gen) (filename : Buf) :
    Jsre.requestParser (addfile directory gen filename).packet
      = some (addfile directory gen filename).parsed :=
  Jsre.requestParser_bytes ..

/-! ## The field

At most 64 bytes of a name are copied, and the field has 60. So up to four bytes of a longer name
end up behind the record, and what the record holds is the name cut off. -/

private theorem filenameField_toList (filename : Buf) :
    (filenameField filename).toList = resize 0 60 (filename.take 60) := by
  change (copyAt (List.replicate 60 0) 0 _).take 60 = _
  rw [copyAt, List.take_zero, List.nil_append, Nat.zero_add, List.drop_replicate, List.take_append,
    List.take_take, resize, List.take_take, List.take_replicate, List.length_take,
    List.length_take, FileMeta.sizeOf]
  have hname : filename.take (min 60 (min filename.length 64)) = filename.take (min 60 60) :=
    List.take_eq_take_iff.mpr (by omega)
  rw [hname]
  congr 2
  omega

/-- A name without zeros is printed up to its 60th byte. -/
theorem name_addfileMeta {filename : Buf} (hnul : ∀ b ∈ filename, b ≠ 0) :
    (addfileMeta filename).name = filename.take 60 := by
  rw [FileMeta.name, addfileMeta, filenameField_toList]
  refine takeWhile_resize ?_ fun b hb ↦ hnul b (List.mem_of_mem_take hb)
  rw [List.length_take]
  exact Nat.min_le_left _ _

private theorem nameCopied_inside_iff (filename : Buf) :
    (∀ i, NameCopied filename i → i < 60) ↔ filename.length ≤ 60 := by
  constructor
  · intro h
    by_contra hlong
    have hout := h 60 (by rw [NameCopied, FileMeta.sizeOf]; omega)
    exact lt_irrefl _ hout
  · intro h i hi
    rw [NameCopied] at hi
    omega

/-- **File names.** A file is added to a directory. The copy of its name stays in the field, and the
record, stored and listed, has the first 60 bytes of the name, exactly if the name has at most 60
bytes and the directory had at most 62 files. -/
theorem name_recorded_iff {cfg : Config} {stray : ℕ → UInt8} {hosts : Hosts} {directory : Key}
    {reserved : List.Vector UInt8 60} {entries : List FileMeta}
    (hstored : Stored cfg hosts directory (recordsImage reserved entries)) (gen : Proxy.Gen)
    (filename : Buf) (hnul : ∀ b ∈ filename, b ≠ 0) (draw : Draw) (rereads : ℕ) :
    ((∀ i, NameCopied filename i → i < 60) ∧ ∃ input entry hosts',
        Jsre.requestParser (addfile directory gen filename).packet = some input ∧
        FileMeta.parse input.data = some entry ∧
        startMetaAddfile cfg stray (rereads + 1) draw hosts input.uuid entry
          = some (Write.ok, hosts') ∧
        startMetaLs cfg stray (rereads + 1) hosts' input.uuid
          = some (listing (entries.length + 1)
            (entries.map FileMeta.name ++ [filename.take 60]))) ↔
      filename.length ≤ 60 ∧ entries.length ≤ 62 := by
  rw [nameCopied_inside_iff]
  refine and_congr_right fun _ ↦ ⟨?_, fun hsmall ↦ ?_⟩
  · rintro ⟨input, entry, hosts', hinput, -, hadd, hls⟩
    rw [requestParser_addfile, Option.some_inj] at hinput
    subst hinput
    have hheaded : Headed cfg hosts' directory :=
      headed_addfile ⟨_, hstored.shorten (List.prefix_append _ _)⟩ hadd
    have hcount := ls_headed hheaded hls
    omega
  · obtain ⟨hosts', hadd, hstored'⟩ := addfile_records hstored (by omega) stray rereads draw
      (addfileMeta filename)
    have hparse := FileMeta.parse_bytes (addfileMeta filename) []
    rw [List.append_nil] at hparse
    have hls := ls_records hstored' (by
      rw [List.length_append, List.length_singleton]
      omega) stray rereads
    rw [List.length_append, List.length_singleton, List.map_append, List.map_singleton,
      name_addfileMeta hnul] at hls
    exact ⟨_, _, hosts', requestParser_addfile directory gen filename, hparse, hadd, hls⟩

/-- A name of 61 bytes: its last byte is copied over what lies behind the field. -/
theorem long_name_leaves_field :
    (∀ b ∈ List.replicate 61 (97 : UInt8), b ≠ 0) ∧ NameCopied (List.replicate 61 97) 60 ∧
      ¬∀ i, NameCopied (List.replicate 61 97) i → i < 60 := by
  have hcopied : NameCopied (List.replicate 61 97) 60 := by
    rw [NameCopied]
    decide
  refine ⟨fun b hb ↦ ?_, hcopied, fun h ↦ lt_irrefl _ (h 60 hcopied)⟩
  rw [List.eq_of_mem_replicate hb]
  decide

/-- A file called `a`, the first of its directory. -/
theorem name_recorded_first_file :
    ∃ hosts : Hosts, Stored oneServer hosts rootId (recordsImage (.replicate 60 0) []) ∧
      (∀ b ∈ ascii "a", b ≠ 0) ∧ (∀ i, NameCopied (ascii "a") i → i < 60) ∧
      ∃ input entry hosts',
        Jsre.requestParser (addfile rootId ⟨.replicate 4 0, .replicate 4 0, .replicate 2 0⟩
          (ascii "a")).packet = some input ∧
        FileMeta.parse input.data = some entry ∧
        startMetaAddfile oneServer (fun _ ↦ 0) 1 fileA.1 hosts input.uuid entry
          = some (Write.ok, hosts') ∧
        startMetaLs oneServer (fun _ ↦ 0) 1 hosts' input.uuid
          = some (listing 1 ([] ++ [(ascii "a").take 60])) := by
  obtain ⟨hosts, -, hstored⟩ :=
    mkdir_stored (fun _ ↦ 0) calm_empty (.replicate 60 0) fileA.1
  rw [directoryImage_eq] at hstored
  have hnul : ∀ b ∈ ascii "a", b ≠ 0 := List.forall_mem_singleton.mpr (by decide)
  exact ⟨hosts, hstored, hnul, (name_recorded_iff hstored
    ⟨.replicate 4 0, .replicate 4 0, .replicate 2 0⟩ (ascii "a") hnul fileA.1 0).mpr
      ⟨by decide, by decide⟩⟩

end Slsfs.Datafunction

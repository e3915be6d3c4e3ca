import Slsfs.Datafunction.Directory
import Slsfs.Datafunction.SparseRead

/-!
# Directories with any content

`start_meta_addfile` and `start_meta_ls` trust the number of files that they find in the first
record of a directory. They read 4096 bytes, and while the records of that many files take more
bytes than they got they read again, asking for as many bytes as those records take, cut to 32 bits.
A block that is missing answers nothing, so a second read may be as short as it must not be, and so
are all that follow it. If it is long enough it ends before the last record, because the record with
the number is not counted, and `start_meta_ls` leaves the buffer.

A file is any choice of blocks, some of them missing. Every access to `file_content` is recorded,
with the size that the buffer has at that time.
-/

namespace Slsfs.Datafunction

open LeveldbPack Ssbd

/-! ## Reading from the start of a file

What `start_read` returns for the first `size` bytes: the answers of the blocks, one after the
other. A longer read starts like a shorter one up to the last block of the shorter one, so once the
first record is there it stays the same. -/

section Read

variable (blocksize : UInt32) (file : UInt32 → Option Buf)

/-- What the block of a piece answers: nothing if it is missing. -/
def pieceAnswer (c : Chunk) : Buf :=
  (file (UInt32.ofNat c.blockid)).elim [] (Server.padded · c.offset c.length)

/-- What `start_read` passes on of the first `size` bytes. -/
def startReadFrom (size : UInt32) : Buf :=
  ((splitBlocks blocksize.toNat 0 size.toNat).map (pieceAnswer file)).flatten

/-- How many of the first `size` bytes lie in blocks that are there. -/
def present (size : ℕ) : ℕ :=
  ((splitBlocks blocksize.toNat 0 size).map fun c ↦
    if (file (UInt32.ofNat c.blockid)).isSome then c.length else 0).sum

private theorem length_pieceAnswer (c : Chunk) : (pieceAnswer file c).length
    = if (file (UInt32.ofNat c.blockid)).isSome then c.length else 0 := by
  rw [pieceAnswer]
  cases file (UInt32.ofNat c.blockid) with
  | none => rfl
  | some block => simp [Server.padded]

private theorem length_startReadFrom (size : UInt32) :
    (startReadFrom blocksize file size).length = present blocksize file size.toNat := by
  rw [startReadFrom, List.length_flatten, List.map_map, present]
  refine congrArg List.sum (List.map_congr_left fun c _ ↦ ?_)
  exact length_pieceAnswer file c

private theorem padded_prefix_of_le (block : Buf) (position : ℕ) {n m : ℕ} (h : n ≤ m) :
    Server.padded block position n <+: Server.padded block position m := by
  refine List.IsPrefix.map _ ?_
  have htake := List.take_prefix n (List.range m)
  rwa [List.take_range, Nat.min_eq_left h] at htake

private theorem pieceAnswer_prefix_of_le {c d : Chunk} (hid : c.blockid = d.blockid)
    (hoffset : c.offset = d.offset) (h : c.length ≤ d.length) :
    pieceAnswer file c <+: pieceAnswer file d := by
  rw [pieceAnswer, pieceAnswer, hid, hoffset]
  cases file (UInt32.ofNat d.blockid) with
  | none => exact List.prefix_refl _
  | some block => exact padded_prefix_of_le block d.offset h

variable {blocksize}

private theorem startReadFrom_prefix_of_le (hB : 0 < blocksize.toNat) {size size' : UInt32}
    (h : size.toNat ≤ size'.toNat) :
    startReadFrom blocksize file size <+: startReadFrom blocksize file size' := by
  have hall := blockLoop_induction size.toNat hB
    (P := fun pos off cs ↦ (size.toNat ≤ pos → cs = []) ∧ ∀ rounds, size'.toNat - pos ≤ rounds →
      (cs.map (pieceAnswer file)).flatten
        <+: ((blockLoop blocksize.toNat size'.toNat rounds pos off).map (pieceAnswer file)).flatten)
    (fun pos off _ ↦ ⟨fun _ ↦ rfl, fun rounds _ ↦ List.nil_prefix⟩)
    (fun pos off rest hpos ih ↦ by
      refine ⟨fun hge ↦ absurd hpos (Nat.not_lt.mpr hge), fun rounds hrounds ↦ ?_⟩
      obtain ⟨rounds, rfl⟩ : ∃ n, rounds = n + 1 := ⟨rounds - 1, by omega⟩
      rw [blockLoop, if_pos (by omega), List.map_cons, List.map_cons, List.flatten_cons,
        List.flatten_cons]
      have hlen : (chunkAt blocksize.toNat size.toNat pos off).length
          ≤ (chunkAt blocksize.toNat size'.toNat pos off).length := by
        simp only [chunkAt]
        omega
      have hpos' : 0 < (chunkAt blocksize.toNat size'.toNat pos off).length :=
        chunkAt_length_pos hB (by omega)
      rcases hlen.eq_or_lt with hsame | hless
      · -- the piece ends its block, and both reads go on
        have hpiece : chunkAt blocksize.toNat size.toNat pos off
            = chunkAt blocksize.toNat size'.toNat pos off := by
          simp only [chunkAt] at hsame ⊢
          rw [hsame]
        rw [hpiece] at ih ⊢
        exact (List.prefix_append_right_inj _).mpr (ih.2 rounds (by omega))
      · -- the piece ends the shorter read
        have hnil : rest = [] := ih.1 (by
          have hmod := Nat.mod_lt pos hB
          simp only [chunkAt] at hless ⊢
          omega)
        rw [hnil, List.map_nil, List.flatten_nil, List.append_nil]
        exact (pieceAnswer_prefix_of_le file (c := chunkAt blocksize.toNat size.toNat pos off)
          (d := chunkAt blocksize.toNat size'.toNat pos off) rfl rfl hlen).trans
          (List.prefix_append _ _))
    size.toNat 0 0 (by omega)
  exact hall.2 _ (Nat.le_refl _)

private theorem present_le (hB : 0 < blocksize.toNat) (size : ℕ) :
    present blocksize file size ≤ size := by
  have hall := blockLoop_induction size hB
    (P := fun pos _ cs ↦ (cs.map fun c ↦
      if (file (UInt32.ofNat c.blockid)).isSome then c.length else 0).sum ≤ size - pos)
    (fun pos off _ ↦ Nat.zero_le _)
    (fun pos off rest hpos ih ↦ by
      rw [List.map_cons, List.sum_cons]
      have hle : (chunkAt blocksize.toNat size pos off).length ≤ size - pos := Nat.min_le_left _ _
      split <;> omega)
    size 0 0 (Nat.le_refl _)
  exact hall

end Read

/-! ## The accesses to the buffer

`metaAccesses` runs a request and notes each access to `file_content`, the ones of the first record,
those of the loop and those of what comes after the reads. `Safe` is that none of them leaves the
buffer. The requests differ in what comes after, which is a parameter. -/

/-- An access to `length` bytes of `file_content` from `offset` on, when it has `size` bytes. -/
structure Access where
  offset : ℕ
  length : ℕ
  size : ℕ
  deriving DecidableEq, Repr

def Access.Inside (a : Access) : Prop := a.offset + a.length ≤ a.size

instance (a : Access) : Decidable a.Inside :=
  inferInstanceAs (Decidable (a.offset + a.length ≤ a.size))

/-- The loop of `start_meta_ls` over the records. -/
def lsAccesses (stat : Stats) (content : Buf) : List Access :=
  (List.range stat.fileCount.toNat).map fun i ↦ ⟨(i + 1) * 64 % 2 ^ 32, 64, content.length⟩

/-- The end of `start_meta_addfile`: the new record, the first record, and the copy of the buffer
into the write request. -/
def addfileAccesses (stat : Stats) (_content : Buf) : List Access :=
  let position := (UInt32.ofNat ((stat.fileCount + 1).toNat * 64)).toNat
  let size := position + 64
  [⟨position, 64, size⟩, ⟨0, 64, size⟩, ⟨0, size, size⟩]

/-- `start_meta_addfile` and `start_meta_ls`, up to what they do with a directory that they have
read: the accesses to `file_content`, or `none` if they have not come to an end after a number of
reads. -/
def metaAccesses (read : UInt32 → Buf) (finish : Stats → Buf → List Access) :
    ℕ → UInt32 → Option (List Access)
  | 0, _ => none
  | reads + 1, readsize =>
    let content := read readsize
    match Stats.parse content with
    | none => some []
    | some stat =>
      if content.length < stat.fileCount.toNat * 64 then
        (metaAccesses read finish reads (UInt32.ofNat (stat.fileCount.toNat * 64))).map
          (⟨0, 64, content.length⟩ :: ·)
      else some (⟨0, 64, content.length⟩ :: finish stat content)

/-- With a read of some size to begin with, the request comes to an end after finitely many reads
and stays inside the buffer. -/
def SafeFrom (read : UInt32 → Buf) (finish : Stats → Buf → List Access) (size : UInt32) : Prop :=
  ∃ reads trace, metaAccesses read finish reads size = some trace ∧ ∀ a ∈ trace, a.Inside

/-- The first read is of 4096 bytes. -/
def Safe (read : UInt32 → Buf) (finish : Stats → Buf → List Access) : Prop :=
  SafeFrom read finish 4096

/-! ## The first record

It is parsed from the first 64 bytes. If there are fewer, the request stops. -/

private theorem Stats.parse_eq_none_iff {content : Buf} :
    Stats.parse content = none ↔ content.length < 64 := by
  rw [Stats.parse]
  by_cases hfour : 4 ≤ content.length
  · by_cases hrest : 60 ≤ content.length - 4
    · simp [cut, hfour, hrest]
      omega
    · simp [cut, hfour, hrest]
      omega
  · simp [cut, hfour]
    omega

private theorem Stats.parse_congr {content content' : Buf} (hlen : 64 ≤ content.length)
    (h : content <+: content') : Stats.parse content' = Stats.parse content := by
  obtain ⟨rest, rfl⟩ := h
  have htake : (content ++ rest).take 4 = content.take 4 := List.take_append_of_le_length (by omega)
  have hdrop : ((content ++ rest).drop 4).take 60 = (content.drop 4).take 60 := by
    rw [List.drop_append_of_le_length (by omega),
      List.take_append_of_le_length (by rw [List.length_drop]; omega)]
  have hfour : 4 ≤ (content ++ rest).length := by rw [List.length_append]; omega
  have hsixty : 60 ≤ (content ++ rest).length - 4 := by rw [List.length_append]; omega
  simp only [Stats.parse, cut, hfour, hsixty, (by omega : 4 ≤ content.length),
    (by omega : 60 ≤ content.length - 4), List.length_drop, dite_true, Option.bind_eq_bind,
    Option.bind_some, htake, hdrop]

/-- The number of files in the first record. -/
def fileCount (content : Buf) : ℕ := ((Stats.parse content).map (·.fileCount.toNat)).getD 0

/-! ## The loop

It reads again if the records of the counted files take more than what it got. A second read asks
for just that many bytes, so one that gets fewer is repeated for ever (`not_safeFrom_of_stuck`). One
that gets all of them ends the loop, and then the last record is behind what was read. -/

section Loop

variable {read : UInt32 → Buf} {finish : Stats → Buf → List Access} {size : UInt32} {stat : Stats}

private theorem metaAccesses_none (h : (read size).length < 64) (reads : ℕ) :
    metaAccesses read finish (reads + 1) size = some [] := by
  rw [metaAccesses]
  simp only [Stats.parse_eq_none_iff.mpr h]

private theorem metaAccesses_enough (h : Stats.parse (read size) = some stat)
    (hle : stat.fileCount.toNat * 64 ≤ (read size).length) (reads : ℕ) :
    metaAccesses read finish (reads + 1) size
      = some (⟨0, 64, (read size).length⟩ :: finish stat (read size)) := by
  rw [metaAccesses]
  simp only [h, if_neg (Nat.not_lt.mpr hle)]

private theorem metaAccesses_reread (h : Stats.parse (read size) = some stat)
    (hlt : (read size).length < stat.fileCount.toNat * 64) (reads : ℕ) :
    metaAccesses read finish (reads + 1) size
      = (metaAccesses read finish reads (UInt32.ofNat (stat.fileCount.toNat * 64))).map
        (⟨0, 64, (read size).length⟩ :: ·) := by
  rw [metaAccesses]
  simp only [h, if_pos hlt]

private theorem parse_length (h : Stats.parse (read size) = some stat) :
    64 ≤ (read size).length := by
  by_contra hshort
  rw [Stats.parse_eq_none_iff.mpr (Nat.not_le.mp hshort)] at h
  cases h

private theorem safeFrom_of_short (h : (read size).length < 64) : SafeFrom read finish size :=
  ⟨1, [], metaAccesses_none h 0, fun _ ha ↦ absurd ha List.not_mem_nil⟩

private theorem safeFrom_iff_of_enough (h : Stats.parse (read size) = some stat)
    (hle : stat.fileCount.toNat * 64 ≤ (read size).length) :
    SafeFrom read finish size ↔ ∀ a ∈ finish stat (read size), a.Inside := by
  constructor
  · rintro ⟨reads, trace, htrace, hinside⟩ a ha
    cases reads with
    | zero => cases htrace
    | succ reads =>
      rw [metaAccesses_enough h hle, Option.some_inj] at htrace
      exact hinside a (htrace ▸ List.mem_cons_of_mem _ ha)
  · intro hall
    refine ⟨1, _, metaAccesses_enough h hle 0, fun a ha ↦ ?_⟩
    rcases List.mem_cons.mp ha with rfl | ha
    · exact Nat.le_trans (Nat.le_of_eq (Nat.zero_add 64)) (parse_length h)
    · exact hall a ha

private theorem safeFrom_iff_of_reread (h : Stats.parse (read size) = some stat)
    (hlt : (read size).length < stat.fileCount.toNat * 64) :
    SafeFrom read finish size
      ↔ SafeFrom read finish (UInt32.ofNat (stat.fileCount.toNat * 64)) := by
  constructor
  · rintro ⟨reads, trace, htrace, hinside⟩
    cases reads with
    | zero => cases htrace
    | succ reads =>
      rw [metaAccesses_reread h hlt] at htrace
      obtain ⟨rest, hrest, rfl⟩ := Option.map_eq_some_iff.mp htrace
      exact ⟨reads, rest, hrest, fun a ha ↦ hinside a (List.mem_cons_of_mem _ ha)⟩
  · rintro ⟨reads, rest, hrest, hinside⟩
    refine ⟨reads + 1, _, by rw [metaAccesses_reread h hlt, hrest, Option.map_some], ?_⟩
    intro a ha
    rcases List.mem_cons.mp ha with rfl | ha
    · exact Nat.le_trans (Nat.le_of_eq (Nat.zero_add 64)) (parse_length h)
    · exact hinside a ha

private theorem SafeFrom.of_inside {finish' : Stats → Buf → List Access}
    (h : SafeFrom read finish size)
    (hinside : ∀ stat content, ∀ a ∈ finish' stat content, a.Inside) :
    SafeFrom read finish' size := by
  obtain ⟨reads, trace, htrace, -⟩ := h
  induction reads generalizing size trace with
  | zero => cases htrace
  | succ reads ih =>
    cases hparse : Stats.parse (read size) with
    | none => exact safeFrom_of_short (Stats.parse_eq_none_iff.mp hparse)
    | some stat =>
      by_cases hlt : (read size).length < stat.fileCount.toNat * 64
      · rw [metaAccesses_reread hparse hlt] at htrace
        obtain ⟨rest, hrest, -⟩ := Option.map_eq_some_iff.mp htrace
        exact (safeFrom_iff_of_reread hparse hlt).mpr (ih rest hrest)
      · exact (safeFrom_iff_of_enough hparse (Nat.not_lt.mp hlt)).mpr (hinside stat _)

/-- A second read that is too short is repeated for ever. -/
theorem not_safeFrom_of_stuck
    (h : Stats.parse (read (UInt32.ofNat (stat.fileCount.toNat * 64))) = some stat)
    (hlt : (read (UInt32.ofNat (stat.fileCount.toNat * 64))).length < stat.fileCount.toNat * 64) :
    ¬SafeFrom read finish (UInt32.ofNat (stat.fileCount.toNat * 64)) := by
  have hstuck : ∀ reads,
      metaAccesses read finish reads (UInt32.ofNat (stat.fileCount.toNat * 64)) = none := by
    intro reads
    induction reads with
    | zero => rfl
    | succ reads ih => rw [metaAccesses_reread h hlt, ih, Option.map_none]
  rintro ⟨reads, trace, htrace, -⟩
  rw [hstuck] at htrace
  cases htrace

end Loop

/-! ## The records

After the loop the records are copied one by one, from the second 64 bytes on. All are inside the
buffer exactly if the last one is. -/

private theorem lsAccesses_inside_iff {stat : Stats} {content : Buf}
    (h : stat.fileCount.toNat * 64 ≤ content.length) (hlt : content.length < 2 ^ 32)
    (hlen : 64 ≤ content.length) :
    (∀ a ∈ lsAccesses stat content, a.Inside) ↔
      (stat.fileCount.toNat + 1) * 64 ≤ content.length := by
  constructor
  · intro hall
    by_contra hout
    have hpos : 0 < stat.fileCount.toNat := by omega
    have hmem : (⟨(stat.fileCount.toNat - 1 + 1) * 64 % 2 ^ 32, 64, content.length⟩ : Access)
        ∈ lsAccesses stat content :=
      List.mem_map.mpr ⟨stat.fileCount.toNat - 1, List.mem_range.mpr (by omega), rfl⟩
    have hin := hall _ hmem
    simp only [Access.Inside] at hin
    omega
  · intro hall a ha
    obtain ⟨i, hi, rfl⟩ := List.mem_map.mp ha
    rw [List.mem_range] at hi
    simp only [Access.Inside]
    omega

/-- `addfile` makes room for what it writes. -/
theorem addfileAccesses_inside (stat : Stats) (content : Buf) :
    ∀ a ∈ addfileAccesses stat content, a.Inside := by
  intro a ha
  simp only [addfileAccesses, List.mem_cons, List.not_mem_nil, or_false] at ha
  rcases ha with rfl | rfl | rfl <;> simp only [Access.Inside] <;> omega

/-! ## The reads of the servers

The file as a choice of blocks is what the servers have: `startReadFrom` is what `performRead`
returns, and the model of `ls` in `Directory` returns names exactly if its accesses are inside. -/

section Servers

variable {select : Key → UInt32 → ℕ} {uuid : Key} {stray : ℕ → UInt8}
  {salt : UInt32 × Piece → Salt} {hosts : Hosts}

/-- What the servers answer to the requests of `start_read` for the start of a file. -/
theorem readReply_eq_startReadFrom {blocksize : UInt32} (hB : 0 < blocksize.toNat)
    (hlen : ∀ b block, fileBlock select uuid hosts b = some block → block.length < 2 ^ 64)
    {size : UInt32} {reads : List (UInt32 × Piece)}
    (hreads : reads.map (·.2.triple)
      = (splitBlocks blocksize.toNat 0 size.toNat).map Chunk.triple) :
    readReply select uuid stray salt hosts reads
      = startReadFrom blocksize (fileBlock select uuid hosts) size := by
  -- the answer as a function of the block, the offset and the length
  let answer : ℕ × ℕ × ℕ → Buf := fun t ↦ (fileBlock select uuid hosts (UInt32.ofNat t.1)).elim []
    (Server.readBuffer stray · (t.2.1 % 2 ^ 16) t.2.2)
  have hread : reads.map (readAnswer select uuid stray salt hosts)
      = (reads.map (·.2.triple)).map answer := by
    rw [List.map_map]
    refine List.map_congr_left fun r _ ↦ ?_
    rw [readAnswer_eq]
    simp only [answer, Function.comp_apply, Piece.triple, UInt32.ofNat_toNat]
  rw [readReply, startReadFrom, hread, hreads, List.map_map]
  refine congrArg List.flatten (List.map_congr_left fun c hc ↦ ?_)
  have hoffset : c.offset = 0 := by
    rcases splitBlocks_offset hB hc with ⟨-, hoffset⟩ | ⟨-, hoffset⟩
    · rw [hoffset, Nat.zero_mod]
    · exact hoffset
  simp only [Function.comp_apply, answer, Chunk.triple, pieceAnswer, hoffset, Nat.zero_mod]
  cases hblock : fileBlock select uuid hosts (UInt32.ofNat c.blockid) with
  | none => rfl
  | some block =>
    exact Server.readBuffer_eq_padded stray (hlen _ _ hblock) (.inl (Nat.zero_le _))

variable {cfg : Config}

private theorem performRead_eq_startReadFrom
    (hlen : ∀ b block, fileBlock (fun uuid b ↦ cfg.selectReplica uuid b.toNat 0) uuid hosts b
      = some block → block.length < 2 ^ 64) (size : UInt32) :
    performRead cfg stray hosts ⟨uuid, 0, size⟩
      = some (startReadFrom (UInt32.ofNat cfg.blocksize)
        (fileBlock (fun uuid b ↦ cfg.selectReplica uuid b.toNat 0) uuid hosts) size) := by
  by_cases hzero : size = 0
  · subst hzero
    rfl
  have hB : (UInt32.ofNat cfg.blocksize).toNat = cfg.blocksize := by
    have := cfg.blocksize_le
    rw [UInt32.toNat_ofNat', Nat.mod_eq_of_lt (by omega)]
  have hpos : 0 < (UInt32.ofNat cfg.blocksize).toNat := by
    rw [hB]
    exact cfg.blocksize_pos
  have hsize : ((0 : UInt32) + size).toNat = size.toNat := by rw [UInt32.zero_add]
  have hne : ReadRequest.chunks cfg.blocksize ⟨uuid, 0, size⟩ ≠ [] := by
    refine splitBlocks_ne_nil cfg.blocksize_pos ?_
    rw [hsize]
    rw [← UInt32.toNat_inj] at hzero
    exact Nat.pos_of_ne_zero hzero
  obtain ⟨reads, t, hsend, hread⟩ := performRead_eq_readReply cfg stray hosts hne
  obtain ⟨reads', t', hsend', htriples, -⟩ := exists_reads hpos 0 (0 + size)
  obtain ⟨rfl, -⟩ := hsend.unique hsend'
  rw [hsize] at htriples
  rw [hread, readReply_eq_startReadFrom hpos hlen htriples]

private theorem entryNames_isSome_iff (content : Buf) (n : ℕ) :
    (entryNames content n).isSome ↔ ∀ i < n, (i + 1) * 64 % 2 ^ 32 + 64 ≤ content.length := by
  induction n with
  | zero => simp [entryNames]
  | succ n ih =>
    have hsplit : (entryNames content (n + 1)).isSome ↔
        (entryNames content n).isSome ∧ (n + 1) * 64 % 2 ^ 32 + 64 ≤ content.length := by
      rw [entryNames]
      cases entryNames content n with
      | none => simp
      | some names =>
        rw [Option.bind_some, entryName]
        by_cases hin : (n + 1) * 64 % 2 ^ 32 + 64 ≤ content.length
        · rw [if_pos hin]
          exact iff_of_true rfl ⟨rfl, hin⟩
        · rw [if_neg hin]
          exact iff_of_false Bool.false_ne_true fun h ↦ hin h.2
    rw [hsplit, ih]
    constructor
    · rintro ⟨hall, hlast⟩ i hi
      rcases Nat.lt_succ_iff_lt_or_eq.mp hi with hi | rfl
      · exact hall i hi
      · exact hlast
    · exact fun hall ↦ ⟨fun i hi ↦ hall i (Nat.lt_succ_of_lt hi), hall n (Nat.lt_succ_self n)⟩

/-- **The requests of the servers.** `ls` over the servers of a directory gets to its answer with a
number of reads exactly if those reads are enough and all accesses are inside the buffer. -/
theorem startMetaLs_isSome_iff
    (hlen : ∀ b block, fileBlock (fun uuid b ↦ cfg.selectReplica uuid b.toNat 0) uuid hosts b
      = some block → block.length < 2 ^ 64) (reads : ℕ) :
    (startMetaLs cfg stray reads hosts uuid).isSome ↔
      ∃ trace, metaAccesses (startReadFrom (UInt32.ofNat cfg.blocksize)
          (fileBlock (fun uuid b ↦ cfg.selectReplica uuid b.toNat 0) uuid hosts))
          lsAccesses reads 4096 = some trace ∧ ∀ a ∈ trace, a.Inside := by
  have hread : ∀ size,
      performRead cfg stray hosts ⟨uuid, 0, size⟩ = some (startReadFrom _ _ size) :=
    performRead_eq_startReadFrom hlen
  rw [startMetaLs]
  generalize (4096 : UInt32) = size
  generalize startReadFrom (UInt32.ofNat cfg.blocksize)
    (fileBlock (fun uuid b ↦ cfg.selectReplica uuid b.toNat 0) uuid hosts) = read at hread ⊢
  induction reads generalizing size with
  | zero => simp [readDirectory, metaAccesses]
  | succ reads ih =>
    rw [readDirectory, metaAccesses, hread]
    dsimp only
    cases hparse : Stats.parse (read size) with
    | none => simp
    | some stat =>
      have hfirst : Access.Inside ⟨0, 64, (read size).length⟩ :=
        Nat.le_trans (Nat.le_of_eq (Nat.zero_add 64)) (parse_length hparse)
      dsimp only
      by_cases hlt : (read size).length < stat.fileCount.toNat * 64
      · rw [if_pos hlt, if_pos hlt]
        refine (ih _).trans ?_
        constructor
        · rintro ⟨trace, htrace, hinside⟩
          refine ⟨_, by rw [htrace, Option.map_some], fun a ha ↦ ?_⟩
          rcases List.mem_cons.mp ha with rfl | ha
          · exact hfirst
          · exact hinside a ha
        · rintro ⟨trace, htrace, hinside⟩
          obtain ⟨rest, hrest, rfl⟩ := Option.map_eq_some_iff.mp htrace
          exact ⟨rest, hrest, fun a ha ↦ hinside a (List.mem_cons_of_mem _ ha)⟩
      · rw [if_neg hlt, if_neg hlt]
        dsimp only
        rw [Option.isSome_map, entryNames_isSome_iff]
        constructor
        · intro hall
          refine ⟨_, rfl, fun a ha ↦ ?_⟩
          rcases List.mem_cons.mp ha with rfl | ha
          · exact hfirst
          · obtain ⟨i, hi, rfl⟩ := List.mem_map.mp ha
            exact hall i (List.mem_range.mp hi)
        · rintro ⟨trace, htrace, hinside⟩ i hi
          rw [Option.some_inj] at htrace
          refine hinside ⟨(i + 1) * 64 % 2 ^ 32, 64, (read size).length⟩ ?_
          exact htrace ▸ List.mem_cons_of_mem _ (List.mem_map.mpr ⟨i, List.mem_range.mpr hi, rfl⟩)

end Servers

/-! ## Which directories are parsed safely

`Fits` is the condition on the content. The first read finds no record at all; or what it finds has
the records of all counted files; or it finds too little for the count alone, and the second read
finds nothing and the request stops. -/

section Main

variable {blocksize : UInt32} (file : UInt32 → Option Buf)

/-- **The condition.** The first read finds no record at all, or the first record with the records
of all its files; or it finds less than the records of the files, and the second one, whose size is
cut to 32 bits, finds no record at all. -/
def Fits (blocksize : UInt32) (file : UInt32 → Option Buf) : Prop :=
  let count := fileCount (startReadFrom blocksize file 4096)
  present blocksize file 4096 < 64 ∨
    (count + 1) * 64 ≤ present blocksize file 4096 ∨
    present blocksize file 4096 < count * 64 ∧ present blocksize file (count * 64 % 2 ^ 32) < 64

instance (blocksize : UInt32) (file : UInt32 → Option Buf) : Decidable (Fits blocksize file) :=
  inferInstanceAs (Decidable (_ ∨ _ ∨ _ ∧ _))

private theorem parse_startReadFrom (hB : 0 < blocksize.toNat) {size size' : UInt32} {stat : Stats}
    (h : Stats.parse (startReadFrom blocksize file size) = some stat)
    (hlen : 64 ≤ (startReadFrom blocksize file size').length) :
    Stats.parse (startReadFrom blocksize file size') = some stat := by
  rcases Nat.le_total size.toNat size'.toNat with hle | hle
  · rw [Stats.parse_congr (parse_length h) (startReadFrom_prefix_of_le file hB hle), h]
  · rw [← Stats.parse_congr hlen (startReadFrom_prefix_of_le file hB hle), h]

private theorem safe_ls_iff_fits (hB : 0 < blocksize.toNat) :
    Safe (startReadFrom blocksize file) lsAccesses ↔ Fits blocksize file := by
  have hlen : ∀ size, (startReadFrom blocksize file size).length
      = present blocksize file size.toNat := length_startReadFrom blocksize file
  have hle : ∀ size : UInt32, (startReadFrom blocksize file size).length ≤ size.toNat :=
    fun size ↦ (hlen size).trans_le (present_le file hB size.toNat)
  rw [Safe, Fits, ← show (4096 : UInt32).toNat = 4096 from rfl, ← hlen]
  cases hparse : Stats.parse (startReadFrom blocksize file 4096) with
  | none =>
    have hshort := Stats.parse_eq_none_iff.mp hparse
    exact iff_of_true (safeFrom_of_short hshort) (.inl hshort)
  | some stat =>
    have hcount : fileCount (startReadFrom blocksize file 4096) = stat.fileCount.toNat := by
      rw [fileCount, hparse]
      rfl
    have hsize : (UInt32.ofNat (stat.fileCount.toNat * 64)).toNat
        = stat.fileCount.toNat * 64 % 2 ^ 32 := UInt32.toNat_ofNat'
    have hlen₀ := parse_length hparse
    rw [hcount, ← hsize, ← hlen]
    have hmin := hle 4096
    rw [show (4096 : UInt32).toNat = 4096 from rfl] at hmin
    by_cases henough : stat.fileCount.toNat * 64 ≤ (startReadFrom blocksize file 4096).length
    · rw [safeFrom_iff_of_enough hparse henough,
        lsAccesses_inside_iff henough (by omega) (by omega)]
      omega
    · rw [safeFrom_iff_of_reread hparse (Nat.not_le.mp henough)]
      have hmax := hle (UInt32.ofNat (stat.fileCount.toNat * 64))
      have hmod := Nat.mod_le (stat.fileCount.toNat * 64) (2 ^ 32)
      have hbound := (UInt32.ofNat (stat.fileCount.toNat * 64)).toNat_lt
      rw [hsize] at hmax hbound
      by_cases hshort :
          (startReadFrom blocksize file (UInt32.ofNat (stat.fileCount.toNat * 64))).length < 64
      · exact iff_of_true (safeFrom_of_short hshort)
          (.inr (.inr ⟨Nat.not_le.mp henough, hshort⟩))
      · refine iff_of_false ?_ (by omega)
        have hsame := parse_startReadFrom file hB hparse (Nat.not_lt.mp hshort)
        -- a second read that is long enough ends where the last record starts
        by_cases hsecond : stat.fileCount.toNat * 64
            ≤ (startReadFrom blocksize file (UInt32.ofNat (stat.fileCount.toNat * 64))).length
        · rw [safeFrom_iff_of_enough hsame hsecond,
            lsAccesses_inside_iff hsecond (by omega) (by omega)]
          omega
        · exact not_safeFrom_of_stuck hsame (Nat.not_le.mp hsecond)

end Main

/-- **Parsing directories of any content.** `ls` and `addfile` come to an end and stay inside the
buffer exactly if the directory fits the first read, or is not one. -/
theorem meta_safe_iff_fits {blocksize : UInt32} (hB : 1 ≤ blocksize) (file : UInt32 → Option Buf) :
    Safe (startReadFrom blocksize file) lsAccesses ∧
        Safe (startReadFrom blocksize file) addfileAccesses ↔
      Fits blocksize file := by
  have hpos : 0 < blocksize.toNat := UInt32.le_iff_toNat_le.mp hB
  rw [← safe_ls_iff_fits file hpos]
  exact ⟨And.left, fun h ↦ ⟨h, h.of_inside addfileAccesses_inside⟩⟩

/-- A directory of one block, with a number of files in its first record. -/
def countedDirectory (count : ℕ) (b : UInt32) : Option Buf :=
  if b = 0 then some (Stats.bytes ⟨UInt32.ofNat count, .replicate 60 0⟩) else none

theorem meta_safe_three_files :
    (1 : UInt32) ≤ 4096 ∧
      Safe (startReadFrom 4096 (countedDirectory 3)) lsAccesses ∧
      Safe (startReadFrom 4096 (countedDirectory 3)) addfileAccesses :=
  ⟨by decide, (meta_safe_iff_fits (by decide) _).mpr (by decide +kernel)⟩

/-- A hundred files take more than the block that is there, and the directory is read again and
again. With 64 files `ls` copies the last record from outside the buffer. -/
theorem meta_unsafe_hundred_files :
    ¬(Safe (startReadFrom 4096 (countedDirectory 100)) lsAccesses ∧
        Safe (startReadFrom 4096 (countedDirectory 100)) addfileAccesses) ∧
      ¬(Safe (startReadFrom 4096 (countedDirectory 64)) lsAccesses ∧
        Safe (startReadFrom 4096 (countedDirectory 64)) addfileAccesses) := by
  constructor
  · rintro ⟨hls, -⟩
    exact absurd ((safe_ls_iff_fits _ (by decide)).mp hls) (by decide +kernel)
  · rintro ⟨hls, -⟩
    exact absurd ((safe_ls_iff_fits _ (by decide)).mp hls) (by decide +kernel)

end Slsfs.Datafunction

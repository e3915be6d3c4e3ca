import Slsfs.Datafunction.Directory

/-!
# Two addfile requests at once

`start_meta_addfile` reads the directory and then writes all of it back, with one file more. Nothing
ties the write to the read: the strand of the key covers only the start of a request, and the two
phase commit compares no versions. If two requests read before one of them has committed, both are
based on the same directory, and the one that prepares last overwrites the other. Only a prepare
that is not a quick one and finds the pending log of the other is refused.

A request goes through three phases here: it reads, its prepares are handled and the caller is
answered, and its commits are handled. The phases of the two requests come in any order.
-/

namespace Slsfs.Datafunction

open LeveldbPack Ssbd

/-! ## Two requests and their phases

A phase is as much as happens between two moments at which the other request can be noticed. A read
is followed by the prepares of what it leads to, or by an answer at once if the directory is full or
cannot be read. The commits come after the answer, so a request that has been answered can still
have commits to come. -/

/-- How far an `addfile` is. -/
inductive AddPhase where
  | idle
  /-- The directory was read, and this is to be written. -/
  | read (input : WriteRequest)
  /-- The prepares were handled and the caller is answered. -/
  | answered (input : WriteRequest) (agree : Bool)
  /-- All messages were handled. -/
  | finished (reply : Buf)

/-- Two requests to add files with different names to one directory. -/
structure TwoFiles where
  cfg : Config
  stray : ℕ → UInt8
  /-- How many times a request may read the directory again. -/
  rereads : ℕ
  uuid : Key
  draw : Bool → Draw
  file : Bool → NewFile
  name_ne : (file false).name ≠ (file true).name

/-- The servers and the two requests. -/
structure TwoAddfiles where
  hosts : Hosts
  phase : Bool → AddPhase

namespace TwoFiles

variable (q : TwoFiles)

def start (hosts : Hosts) : TwoAddfiles := ⟨hosts, fun _ ↦ .idle⟩

/-- The next phase of a request. -/
def step (s : TwoAddfiles) (i : Bool) : Option TwoAddfiles :=
  match s.phase i with
  | .idle =>
    match readDirectory q.cfg q.stray s.hosts q.uuid (q.rereads + 1) 4096 with
    | none => none
    | some none => some ⟨s.hosts, Function.update s.phase i (.finished noSuchDirectory)⟩
    | some (some (stat, content)) => some ⟨s.hosts, Function.update s.phase i
        (.read (writeContent q.uuid (append stat content (q.file i).meta)))⟩
  | .read input =>
    if input.chunks q.cfg.blocksize = [] then none
    else
      let prepared := prepareAll q.cfg q.stray (q.draw i) s.hosts input
      some ⟨prepared.1, Function.update s.phase i (.answered input prepared.2)⟩
  | .answered input agree =>
    some ⟨commitAll q.cfg q.stray (q.draw i) agree s.hosts input,
      Function.update s.phase i (.finished (if agree then Write.ok else Write.foundPending))⟩
  | .finished _ => none

variable {s s' : TwoAddfiles} {i : Bool}

private theorem step_idle (h : s.phase i = .idle) : q.step s i =
    (readDirectory q.cfg q.stray s.hosts q.uuid (q.rereads + 1) 4096).map fun found ↦
      ⟨s.hosts, Function.update s.phase i (found.elim (.finished noSuchDirectory) fun found ↦
        .read (writeContent q.uuid (append found.1 found.2 (q.file i).meta)))⟩ := by
  rw [step, h]
  dsimp only
  split <;> rename_i hread <;> rw [hread] <;> rfl

theorem step_read {input : WriteRequest} (h : s.phase i = .read input)
    (hne : input.chunks q.cfg.blocksize ≠ []) : q.step s i = some
      ⟨(prepareAll q.cfg q.stray (q.draw i) s.hosts input).1, Function.update s.phase i
        (.answered input (prepareAll q.cfg q.stray (q.draw i) s.hosts input).2)⟩ := by
  rw [step, h]
  exact if_neg hne

private theorem step_answered {input : WriteRequest} {agree : Bool}
    (h : s.phase i = .answered input agree) : q.step s i = some
      ⟨commitAll q.cfg q.stray (q.draw i) agree s.hosts input, Function.update s.phase i
        (.finished (if agree then Write.ok else Write.foundPending))⟩ := by
  rw [step, h]

private theorem step_read_inv {input : WriteRequest} (hphase : s.phase i = .read input)
    (h : q.step s i = some s') : input.chunks q.cfg.blocksize ≠ [] ∧ s' =
      ⟨(prepareAll q.cfg q.stray (q.draw i) s.hosts input).1, Function.update s.phase i
        (.answered input (prepareAll q.cfg q.stray (q.draw i) s.hosts input).2)⟩ := by
  by_cases hne : input.chunks q.cfg.blocksize = []
  · rw [step, hphase] at h
    dsimp only at h
    rw [if_pos hne] at h
    cases h
  · rw [step_read q hphase hne, Option.some_inj] at h
    exact ⟨hne, h.symm⟩

theorem step_cases (h : q.step s i = some s') :
    (s.phase i = .idle ∧
      readDirectory q.cfg q.stray s.hosts q.uuid (q.rereads + 1) 4096 = some none ∧
      s' = ⟨s.hosts, Function.update s.phase i (.finished noSuchDirectory)⟩) ∨
    (∃ stat content, s.phase i = .idle ∧
      readDirectory q.cfg q.stray s.hosts q.uuid (q.rereads + 1) 4096
        = some (some (stat, content)) ∧
      s' = ⟨s.hosts, Function.update s.phase i
        (.read (writeContent q.uuid (append stat content (q.file i).meta)))⟩) ∨
    (∃ input, s.phase i = .read input ∧ input.chunks q.cfg.blocksize ≠ [] ∧
      s' = ⟨(prepareAll q.cfg q.stray (q.draw i) s.hosts input).1, Function.update s.phase i
        (.answered input (prepareAll q.cfg q.stray (q.draw i) s.hosts input).2)⟩) ∨
    ∃ input agree, s.phase i = .answered input agree ∧
      s' = ⟨commitAll q.cfg q.stray (q.draw i) agree s.hosts input, Function.update s.phase i
        (.finished (if agree then Write.ok else Write.foundPending))⟩ := by
  cases hphase : s.phase i with
  | idle =>
    rw [step_idle q hphase] at h
    obtain ⟨found, hread, hs'⟩ := Option.map_eq_some_iff.mp h
    cases found with
    | none => exact .inl ⟨rfl, hread, hs'.symm⟩
    | some found => exact .inr (.inl ⟨found.1, found.2, rfl, hread, hs'.symm⟩)
  | read input => exact .inr (.inr (.inl ⟨input, rfl, step_read_inv q hphase h⟩))
  | answered input agree =>
    rw [step_answered q hphase, Option.some_inj] at h
    exact .inr (.inr (.inr ⟨input, agree, rfl, h.symm⟩))
  | finished reply =>
    rw [step, hphase] at h
    cases h

private theorem step_phase_of_ne (h : q.step s i = some s') {j : Bool} (hj : j ≠ i) :
    s'.phase j = s.phase j := by
  obtain ⟨-, -, rfl⟩ | ⟨stat, content, -, -, rfl⟩ | ⟨input, -, -, rfl⟩ |
    ⟨input, agree, -, rfl⟩ := step_cases q h <;> exact Function.update_of_ne hj ..

/-- A request whose phases come one after the other is `start_meta_addfile`. -/
theorem run_alone (hidle : s.phase i = .idle) {reply : Buf} {hosts' : Hosts}
    (h : startMetaAddfile q.cfg q.stray (q.rereads + 1) (q.draw i) s.hosts q.uuid
      (q.file i).meta = some (reply, hosts')) :
    ∃ n, run q.step s (List.replicate n i)
      = some ⟨hosts', Function.update s.phase i (.finished reply)⟩ := by
  have hread := step_idle q hidle
  rw [startMetaAddfile] at h
  split at h
  · cases h
  · rename_i hnone
    obtain ⟨rfl, rfl⟩ := Prod.mk.inj (Option.some_inj.mp h)
    rw [hnone] at hread
    exact ⟨1, run_cons_eq_some.mpr ⟨_, hread, rfl⟩⟩
  · rename_i stat content hsome
    rw [performWrite_eq] at h
    split at h
    · cases h
    · rename_i hne
      obtain ⟨rfl, rfl⟩ := Prod.mk.inj (Option.some_inj.mp h)
      rw [hsome] at hread
      refine ⟨3, run_cons_eq_some.mpr ⟨_, hread, run_cons_eq_some.mpr
        ⟨_, step_read q (Function.update_self ..) hne, run_cons_eq_some.mpr
          ⟨_, step_answered q (Function.update_self ..), ?_⟩⟩⟩⟩
      dsimp only
      rw [Function.update_idem, Function.update_idem]
      exact run_nil _

/-- The law: if both are answered with OK then the directory lists the files it had and both new
ones. -/
def AddsBoth (old : List NewFile) (s : TwoAddfiles) : Prop :=
  (∀ i, s.phase i = .finished Write.ok) →
    ∃ i, startMetaLs q.cfg q.stray (q.rereads + 1) s.hosts q.uuid
      = some (listing (old.length + 2) ((old ++ [q.file i, q.file !i]).map NewFile.name))

/-- A request reads the directory while the other one has not, or after all its messages. -/
def Alone (s : TwoAddfiles) (i : Bool) : Prop :=
  s.phase i = .idle → s.phase (!i) = .idle ∨ ∃ reply, s.phase (!i) = .finished reply

/-- The prepares of a request are quick ones, or there is no pending log. -/
def Agreed (s : TwoAddfiles) (i : Bool) : Prop :=
  ∀ input, s.phase i = .read input → (q.draw i).checked = true ∨
    ∀ c ∈ input.chunks q.cfg.blocksize,
      (s.hosts.primary q.cfg (c.blockOf input.uuid)).create.havePending = false

end TwoFiles

/-! ## Blocks under the phases of writes

What a block can be while two writes of the same file are in their phases: its committed content,
and the pending data that the next execute will put there. A round of prepares that is agreed to
replaces the pending data of all blocks of its range; a round of commits moves whatever is pending
in its blocks, also if another prepare has put it there in the meantime. -/

/-- The blocks of a write have its pieces in their places, in one of the two databases. -/
def Carries (cfg : Config) (data : Block → Option Buf) (hosts : Hosts) (input : WriteRequest) :
    Prop :=
  ∀ c ∈ input.chunks cfg.blocksize,
    ∃ buf, data (hosts.primary cfg (c.blockOf input.uuid)) = some buf ∧
      ∀ k < c.length, buf[c.offset + k]? = (input.slice c)[k]?

/-- The pending data of a block as `Carries` takes it. -/
def logged (blk : Block) : Option Buf := some blk.pendingData

/-- The block is one of those of a write. -/
def Covers (cfg : Config) (input : WriteRequest) (id : BlockId) : Prop :=
  ∃ c ∈ input.chunks cfg.blocksize, c.blockOf input.uuid = id

section Blocks

variable {cfg : Config} {stray : ℕ → UInt8} {draw : Draw} {hosts : Hosts}
  {input other : WriteRequest} {id : BlockId}

private theorem primary_commitAll_cases (stray : ℕ → UInt8) (draw : Draw) (hosts : Hosts)
    (input : WriteRequest) (id : BlockId) :
    Covers cfg input id ∧ (commitAll cfg stray draw true hosts input).primary cfg id
        = (hosts.primary cfg id).execute ∨
      ¬Covers cfg input id ∧
        (commitAll cfg stray draw true hosts input).primary cfg id = hosts.primary cfg id := by
  by_cases hcovers : Covers cfg input id
  · obtain ⟨c, hc, rfl⟩ := hcovers
    exact .inl ⟨⟨c, hc, rfl⟩, primary_commitAll stray draw hosts input hc⟩
  · exact .inr ⟨hcovers, primary_commitAll_of_ne stray draw hosts input
      fun c hc heq ↦ hcovers ⟨c, hc, heq⟩⟩

private theorem pendingData_commitAll :
    ((commitAll cfg stray draw true hosts input).primary cfg id).pendingData
      = (hosts.primary cfg id).pendingData := by
  rcases primary_commitAll_cases stray draw hosts input id with ⟨-, heq⟩ | ⟨-, heq⟩ <;> rw [heq]
  rfl

private theorem carries_prepareAll (hagree : (prepareAll cfg stray draw hosts input).2 = true) :
    Carries cfg logged (prepareAll cfg stray draw hosts input).1 input := by
  intro c hc
  obtain ⟨version, committed, hblock⟩ := primary_prepareAll stray draw hosts input hagree hc
  rw [hblock]
  refine ⟨_, rfl, fun k hk ↦ ?_⟩
  exact getElem?_overlay_of_mem _ _ _ _ (by rwa [WriteRequest.slice_length cfg hc])

private theorem Carries.logged_commitAll (h : Carries cfg logged hosts input) :
    Carries cfg logged (commitAll cfg stray draw true hosts other) input := by
  intro c hc
  rw [logged, pendingData_commitAll]
  exact h c hc

private theorem Carries.commitAll_self (h : Carries cfg logged hosts input) :
    Carries cfg Block.content (commitAll cfg stray draw true hosts input) input := by
  intro c hc
  rw [primary_commitAll stray draw hosts input hc]
  exact h c hc

/-- The commit of another write moves the data of the last prepare, which may be this one. -/
theorem Carries.commitAll_other (hlog : Carries cfg logged hosts input)
    (h : Carries cfg Block.content hosts input) :
    Carries cfg Block.content (commitAll cfg stray draw true hosts other) input := by
  intro c hc
  rcases primary_commitAll_cases stray draw hosts other (c.blockOf input.uuid) with
    ⟨-, heq⟩ | ⟨-, heq⟩ <;> rw [heq]
  · exact hlog c hc
  · exact h c hc

private theorem content_prepareAll (hagree : (prepareAll cfg stray draw hosts input).2 = true)
    (id : BlockId) :
    ((prepareAll cfg stray draw hosts input).1.primary cfg id).content.getD []
      = (hosts.primary cfg id).content.getD [] := by
  by_cases hcovers : Covers cfg input id
  · obtain ⟨c, hc, rfl⟩ := hcovers
    obtain ⟨version, committed, hblock⟩ := primary_prepareAll stray draw hosts input hagree hc
    rw [hblock]
    rfl
  · rw [primary_prepareAll_of_ne stray draw hosts input fun c hc heq ↦ hcovers ⟨c, hc, heq⟩]

private theorem byteAt_prepareAll (hagree : (prepareAll cfg stray draw hosts input).2 = true)
    (uuid : Key) (x : ℕ) :
    (prepareAll cfg stray draw hosts input).1.byteAt cfg uuid x = hosts.byteAt cfg uuid x := by
  have hbyte : ∀ (content : Option Buf) (k : ℕ), content.bind (·[k]?) = (content.getD [])[k]? := by
    intro content k
    cases content <;> rfl
  rw [Hosts.byteAt, Hosts.byteAt, hbyte, hbyte, content_prepareAll hagree]

private theorem havePending_commitAll
    (h : ((commitAll cfg stray draw true hosts input).primary cfg id).create.havePending = true) :
    ¬Covers cfg input id ∧ (hosts.primary cfg id).create.havePending = true := by
  rcases primary_commitAll_cases stray draw hosts input id with ⟨-, heq⟩ | ⟨hout, heq⟩
  · rw [heq] at h
    simp [Block.execute, Block.create, Block.havePending] at h
  · rw [heq] at h
    exact ⟨hout, h⟩

private theorem length_pendingData_prepareAll
    (hagree : (prepareAll cfg stray draw hosts input).2 = true) (hcovers : Covers cfg input id)
    (hsmall : ∀ content, (hosts.primary cfg id).content = some content → content.length < 2 ^ 32) :
    ((prepareAll cfg stray draw hosts input).1.primary cfg id).pendingData.length < 2 ^ 32 := by
  obtain ⟨c, hc, rfl⟩ := hcovers
  obtain ⟨version, committed, hblock⟩ := primary_prepareAll stray draw hosts input hagree hc
  have hfits := input.fits hc
  have hoffset := hfits.offset_lt
  have hlength := hfits.length_le
  have hold : ((hosts.primary cfg (c.blockOf input.uuid)).content.getD []).length < 2 ^ 32 := by
    cases hcontent : (hosts.primary cfg (c.blockOf input.uuid)).content with
    | none => exact Nat.two_pow_pos 32
    | some content => exact hsmall content hcontent
  rw [hblock, length_overlay, WriteRequest.slice_length cfg hc]
  omega

end Blocks

namespace TwoFiles

variable (q : TwoFiles) {s s' : TwoAddfiles} {i : Bool}

/-! ## Requests that are not refused

`Agreed` is the condition that no prepare is refused. Then each request is somewhere between its
read and its end, and what is pending in the directory is what the request that prepared last has
written (`Prepared`). From its own commit, or from that of the other request, this becomes the
directory, and stays it. -/

/-- The file while the two requests are under way and none of them was refused. -/
structure Tidy (s : TwoAddfiles) : Prop where
  form : ∀ i input, s.phase i = .read input ∨ (∃ agree, s.phase i = .answered input agree) →
    ∃ stat content, input = writeContent q.uuid (append stat content (q.file i).meta)
  agreed : ∀ i input agree, s.phase i = .answered input agree → agree = true
  small : ∀ b content, (s.hosts.primary q.cfg (q.uuid, b)).content = some content →
    content.length < 2 ^ 32
  pending_small : ∀ i input agree, s.phase i = .answered input agree →
    ∀ id, Covers q.cfg input id → (s.hosts.primary q.cfg id).pendingData.length < 2 ^ 32
  /-- A pending log belongs to a request that has not committed. -/
  pending : ∀ b, (s.hosts.primary q.cfg (q.uuid, b)).create.havePending = true →
    ∃ i input agree, s.phase i = .answered input agree ∧ Covers q.cfg input (q.uuid, b)

private theorem update_phase_eq {phase : Bool → AddPhase} {p p' : AddPhase} {j : Bool}
    (h : Function.update phase i p j = p') : j = i ∧ p = p' ∨ j ≠ i ∧ phase j = p' := by
  by_cases hj : j = i
  · subst hj
    rw [Function.update_self] at h
    exact .inl ⟨rfl, h⟩
  · rw [Function.update_of_ne hj] at h
    exact .inr ⟨hj, h⟩

variable {q}

theorem Agreed.votes {input : WriteRequest} (h : q.Agreed s i) (hphase : s.phase i = .read input) :
    (prepareAll q.cfg q.stray (q.draw i) s.hosts input).2 = true :=
  (prepareAll_agree_iff q.stray (q.draw i) s.hosts input).mpr (h input hphase)

theorem Tidy.read (hs : q.Tidy s) (hidle : s.phase i = .idle) {p : AddPhase}
    (hp : (∃ reply, p = .finished reply) ∨ ∃ stat content,
      p = .read (writeContent q.uuid (append stat content (q.file i).meta))) :
    q.Tidy ⟨s.hosts, Function.update s.phase i p⟩ := by
  have hanswered : ∀ j input agree, Function.update s.phase i p j = .answered input agree ↔
      s.phase j = .answered input agree := by
    intro j input agree
    by_cases hj : j = i
    · subst hj
      rw [Function.update_self, hidle]
      rcases hp with ⟨reply, rfl⟩ | ⟨stat, content, rfl⟩ <;> exact iff_of_false nofun nofun
    · rw [Function.update_of_ne hj]
  refine ⟨fun j input hj ↦ ?_, fun j input agree hj ↦ ?_, hs.small, fun j input agree hj ↦ ?_,
    fun b hb ↦ ?_⟩
  · rcases hj with hj | ⟨agree, hj⟩
    · rcases update_phase_eq hj with ⟨rfl, rfl⟩ | ⟨-, hj⟩
      · rcases hp with ⟨reply, ⟨⟩⟩ | ⟨stat, content, hread⟩
        cases hread
        exact ⟨stat, content, rfl⟩
      · exact hs.form j input (.inl hj)
    · exact hs.form j input (.inr ⟨agree, (hanswered j input agree).mp hj⟩)
  · exact hs.agreed j input agree ((hanswered j input agree).mp hj)
  · exact hs.pending_small j input agree ((hanswered j input agree).mp hj)
  · obtain ⟨j, input, agree, hj, hcovers⟩ := hs.pending b hb
    exact ⟨j, input, agree, (hanswered j input agree).mpr hj, hcovers⟩

private theorem Tidy.uuid_eq (hs : q.Tidy s) {input : WriteRequest}
    (h : s.phase i = .read input ∨ ∃ agree, s.phase i = .answered input agree) :
    input.uuid = q.uuid := by
  obtain ⟨stat, content, rfl⟩ := hs.form i input h
  rfl

theorem Tidy.prepare (hs : q.Tidy s) {input : WriteRequest} (hphase : s.phase i = .read input)
    (hagree : (prepareAll q.cfg q.stray (q.draw i) s.hosts input).2 = true) :
    q.Tidy ⟨(prepareAll q.cfg q.stray (q.draw i) s.hosts input).1,
      Function.update s.phase i (.answered input true)⟩ := by
  have huuid := hs.uuid_eq (.inl hphase)
  have hcovered : ∀ id, Covers q.cfg input id →
      ((prepareAll q.cfg q.stray (q.draw i) s.hosts input).1.primary q.cfg id).pendingData.length
        < 2 ^ 32 := by
    rintro id ⟨c, hc, rfl⟩
    refine length_pendingData_prepareAll hagree ⟨c, hc, rfl⟩ ?_
    rw [huuid]
    exact hs.small _
  have hother : ∀ id, ¬Covers q.cfg input id →
      (prepareAll q.cfg q.stray (q.draw i) s.hosts input).1.primary q.cfg id
        = s.hosts.primary q.cfg id :=
    fun id hid ↦ primary_prepareAll_of_ne q.stray (q.draw i) s.hosts input
      fun c hc heq ↦ hid ⟨c, hc, heq⟩
  refine ⟨fun j input' hj ↦ ?_, fun j input' agree hj ↦ ?_, fun b content hcontent ↦ ?_,
    fun j input' agree hj id hid ↦ ?_, fun b hb ↦ ?_⟩
  · rcases hj with hj | ⟨agree, hj⟩ <;> rcases update_phase_eq hj with ⟨rfl, hp⟩ | ⟨-, hj⟩
    · cases hp
    · exact hs.form j input' (.inl hj)
    · cases hp
      exact hs.form j input (.inl hphase)
    · exact hs.form j input' (.inr ⟨agree, hj⟩)
  · rcases update_phase_eq hj with ⟨rfl, hp⟩ | ⟨-, hj⟩
    · cases hp
      rfl
    · exact hs.agreed j input' agree hj
  · have hsame := content_prepareAll hagree (q.uuid, b)
    rw [hcontent, Option.getD_some] at hsame
    rw [hsame]
    cases hold : (s.hosts.primary q.cfg (q.uuid, b)).content with
    | none => exact Nat.two_pow_pos 32
    | some old => exact hs.small b old hold
  · by_cases hcovers : Covers q.cfg input id
    · exact hcovered id hcovers
    · rcases update_phase_eq hj with ⟨rfl, hp⟩ | ⟨-, hj⟩
      · cases hp
        exact absurd hid hcovers
      · rw [hother id hcovers]
        exact hs.pending_small j input' agree hj id hid
  · by_cases hcovers : Covers q.cfg input (q.uuid, b)
    · exact ⟨i, input, true, Function.update_self .., hcovers⟩
    · rw [hother _ hcovers] at hb
      obtain ⟨j, input', agree, hj, hcovers'⟩ := hs.pending b hb
      have hne : j ≠ i := by
        rintro rfl
        cases hphase.symm.trans hj
      exact ⟨j, input', agree, (Function.update_of_ne hne ..).trans hj, hcovers'⟩

theorem Tidy.commit (hs : q.Tidy s) {input : WriteRequest} {agree : Bool}
    (hphase : s.phase i = .answered input agree) (reply : Buf) :
    q.Tidy ⟨commitAll q.cfg q.stray (q.draw i) true s.hosts input,
      Function.update s.phase i (.finished reply)⟩ := by
  refine ⟨fun j input' hj ↦ ?_, fun j input' agree' hj ↦ ?_, fun b content hcontent ↦ ?_,
    fun j input' agree' hj id hid ↦ ?_, fun b hb ↦ ?_⟩
  · rcases hj with hj | ⟨agree', hj⟩ <;> rcases update_phase_eq hj with ⟨-, ⟨⟩⟩ | ⟨-, hj⟩
    · exact hs.form j input' (.inl hj)
    · exact hs.form j input' (.inr ⟨agree', hj⟩)
  · rcases update_phase_eq hj with ⟨-, ⟨⟩⟩ | ⟨-, hj⟩
    exact hs.agreed j input' agree' hj
  · rcases primary_commitAll_cases q.stray (q.draw i) s.hosts input (q.uuid, b) with
      ⟨hcovers, heq⟩ | ⟨-, heq⟩ <;> rw [heq] at hcontent
    · cases hcontent
      exact hs.pending_small i input agree hphase _ hcovers
    · exact hs.small b content hcontent
  · rcases update_phase_eq hj with ⟨-, ⟨⟩⟩ | ⟨-, hj⟩
    rw [pendingData_commitAll]
    exact hs.pending_small j input' agree' hj id hid
  · obtain ⟨hout, hb⟩ := havePending_commitAll hb
    obtain ⟨j, input', agree', hj, hcovers⟩ := hs.pending b hb
    have hne : j ≠ i := by
      rintro rfl
      rw [hphase, AddPhase.answered.injEq] at hj
      exact hout (hj.1 ▸ hcovers)
    exact ⟨j, input', agree', (Function.update_of_ne hne ..).trans hj, hcovers⟩

private theorem tidy_step (hagreed : q.Agreed s i) (h : q.step s i = some s') (hs : q.Tidy s) :
    q.Tidy s' := by
  obtain ⟨hidle, -, rfl⟩ | ⟨stat, content, hidle, -, rfl⟩ | ⟨input, hphase, -, rfl⟩ |
    ⟨input, agree, hphase, rfl⟩ := step_cases q h
  · exact hs.read hidle (.inl ⟨_, rfl⟩)
  · exact hs.read hidle (.inr ⟨stat, content, rfl⟩)
  · rw [hagreed.votes hphase]
    exact hs.prepare hphase (hagreed.votes hphase)
  · obtain rfl := hs.agreed i input agree hphase
    exact hs.commit hphase _

theorem Tidy.calm (hs : q.Tidy s) (h : ∀ i input agree, s.phase i ≠ .answered input agree) :
    Calm q.cfg s.hosts q.uuid := by
  refine ⟨fun b ↦ ?_, hs.small⟩
  rw [Bool.eq_false_iff]
  intro hb
  obtain ⟨i, input, agree, hphase, -⟩ := hs.pending b hb
  exact h i input agree hphase

variable (q) in
/-- The request prepared last. What it writes is pending, and stored once it has committed. -/
structure Prepared (last : Bool) (input : WriteRequest) (s : TwoAddfiles) : Prop where
  pending : Carries q.cfg logged s.hosts input
  phase : s.phase last = .answered input true ∨
    s.phase last = .finished Write.ok ∧ Carries q.cfg Block.content s.hosts input

theorem Prepared.step {last : Bool} {input : WriteRequest} (hs : q.Tidy s)
    (hlast : q.Prepared last input s) (h : q.step s i = some s')
    (hread : ∀ input', s.phase i ≠ .read input') : q.Prepared last input s' := by
  have hframe : last ≠ i → s'.phase last = s.phase last := step_phase_of_ne q h
  have hidle : s.phase i = .idle → s'.phase last = s.phase last := by
    refine fun hidle ↦ hframe ?_
    rintro rfl
    rcases hlast.phase with hphase | ⟨hphase, -⟩ <;> cases hidle.symm.trans hphase
  obtain ⟨hphase, -, rfl⟩ | ⟨stat, content, hphase, -, rfl⟩ | ⟨input', hphase, -, rfl⟩ |
    ⟨input', agree, hphase, rfl⟩ := step_cases q h
  · refine ⟨hlast.pending, ?_⟩
    rw [hidle hphase]
    exact hlast.phase
  · refine ⟨hlast.pending, ?_⟩
    rw [hidle hphase]
    exact hlast.phase
  · exact absurd hphase (hread input')
  · obtain rfl := hs.agreed i input' agree hphase
    refine ⟨hlast.pending.logged_commitAll, ?_⟩
    by_cases hsame : last = i
    · subst hsame
      rcases hlast.phase with hanswered | ⟨hfinished, -⟩
      · cases hphase.symm.trans hanswered
        exact .inr ⟨Function.update_self .., hlast.pending.commitAll_self⟩
      · cases hphase.symm.trans hfinished
    · rw [hframe hsame]
      rcases hlast.phase with hanswered | ⟨hfinished, hcontent⟩
      · exact .inl hanswered
      · exact .inr ⟨hfinished, hlast.pending.commitAll_other hcontent⟩

theorem Prepared.stored {last : Bool} {content : Buf} (hs : q.Tidy s)
    (hlast : q.Prepared last (writeContent q.uuid content) s)
    (hdone : ∀ i input agree, s.phase i ≠ .answered input agree) (hlt : content.length < 2 ^ 32) :
    Stored q.cfg s.hosts q.uuid content := by
  refine ⟨hs.calm hdone, ?_⟩
  rcases hlast.phase with hphase | ⟨-, hcarries⟩
  · exact absurd hphase (hdone last _ true)
  · exact bytes_of_writeContent hlt (byteAt_of_slices (end_writeContent hlt) hcarries)

private theorem step_prepare (hagreed : q.Agreed s i) (h : q.step s i = some s')
    {input : WriteRequest} (hphase : s.phase i = .read input) :
    s'.phase i = .answered input true ∧ q.Prepared i input s' ∧
      ∀ x, s'.hosts.byteAt q.cfg q.uuid x = s.hosts.byteAt q.cfg q.uuid x := by
  have hagree := hagreed.votes hphase
  obtain ⟨-, rfl⟩ := step_read_inv q hphase h
  rw [hagree]
  have hanswered := Function.update_self i (AddPhase.answered input true) s.phase
  exact ⟨hanswered, ⟨carries_prepareAll hagree, .inl hanswered⟩, byteAt_prepareAll hagree q.uuid⟩

private theorem step_commit (hs : q.Tidy s) (h : q.step s i = some s') {input : WriteRequest}
    {agree : Bool}
    (hphase : s.phase i = .answered input agree) : s'.phase i = .finished Write.ok := by
  obtain rfl := hs.agreed i input agree hphase
  rw [step_answered q hphase, Option.some_inj] at h
  subst h
  exact Function.update_self ..

private theorem step_finished {reply : Buf} (hphase : s.phase i = .finished reply) :
    q.step s i ≠ some s' := by
  rw [step, hphase]
  exact nofun

/-! ## One after the other, or both from one directory

There are two kinds of runs. In the first one request has committed before the other reads; the
second one then finds a directory that has the first file. In the second kind both have read the old
directory, and then each of them writes a directory without the file of the other. -/

section Course

variable (q) (reserved : List.Vector UInt8 60) (old : List NewFile)

/-- What a request writes that was to find the old files and some of the new ones. -/
def target (added : List Bool) : WriteRequest :=
  writeContent q.uuid (directoryImage reserved (old ++ added.map q.file))

/-- So far the requests went one after the other. -/
inductive Serial (s : TwoAddfiles) : Prop where
  | first (i : Bool) (hother : s.phase (!i) = .idle)
      (hbegins : BeginsWith q.cfg s.hosts q.uuid (directoryImage reserved old))
      (hphase : s.phase i = .idle ∨ s.phase i = .read (q.target reserved old [i]) ∨
        s.phase i = .answered (q.target reserved old [i]) true ∧
          q.Prepared i (q.target reserved old [i]) s)
  | second (i : Bool) (hdone : s.phase i = .finished Write.ok)
      (hphase : s.phase (!i) = .idle ∧ q.Prepared i (q.target reserved old [i]) s ∨
        s.phase (!i) = .read (q.target reserved old [i, !i]) ∨
        q.Prepared (!i) (q.target reserved old [i, !i]) s)

/-- Both requests have read the directory without the file of the other. -/
structure Overlapped (s : TwoAddfiles) : Prop where
  phase : ∀ i, s.phase i = .read (q.target reserved old [i]) ∨
    s.phase i = .answered (q.target reserved old [i]) true ∨ s.phase i = .finished Write.ok
  last : (∀ i, s.phase i = .read (q.target reserved old [i])) ∨
    ∃ i, q.Prepared i (q.target reserved old [i]) s

end Course

section

variable {reserved : List.Vector UInt8 60} {old : List NewFile}

private theorem step_target {added : List Bool}
    (hbegins : BeginsWith q.cfg s.hosts q.uuid (directoryImage reserved (old ++ added.map q.file)))
    (hsmall : old.length + added.length < 63) (hidle : s.phase i = .idle)
    (h : q.step s i = some s') :
    s'.hosts = s.hosts ∧ s'.phase i = .read (q.target reserved old (added ++ [i])) := by
  have hlen : (old ++ added.map q.file).length < 63 := by
    rwa [List.length_append, List.length_map]
  obtain ⟨rest, hread⟩ := readDirectory_image hbegins hlen.le q.stray q.rereads
  rw [step_idle q hidle, hread, Option.map_some, Option.some_inj, Option.elim_some,
    append_image rest (q.file i) hlen] at h
  subst h
  refine ⟨rfl, (Function.update_self ..).trans ?_⟩
  rw [target, List.map_append, List.map_singleton, List.append_assoc]

private theorem step_target_old
    (hbegins : BeginsWith q.cfg s.hosts q.uuid (directoryImage reserved old))
    (hsmall : old.length ≤ 61) (hidle : s.phase i = .idle) (h : q.step s i = some s') :
    s'.hosts = s.hosts ∧ s'.phase i = .read (q.target reserved old [i]) := by
  have hbegins' : BeginsWith q.cfg s.hosts q.uuid
      (directoryImage reserved (old ++ ([] : List Bool).map q.file)) := by
    rwa [List.map_nil, List.append_nil]
  have hstep := step_target hbegins' (by rw [List.length_nil]; omega) hidle h
  rwa [List.nil_append] at hstep

private theorem Prepared.stored_target {last : Bool} {added : List Bool} (hs : q.Tidy s)
    (hlast : q.Prepared last (q.target reserved old added) s)
    (hdone : ∀ i input agree, s.phase i ≠ .answered input agree)
    (hsmall : old.length + added.length ≤ 63) :
    Stored q.cfg s.hosts q.uuid (directoryImage reserved (old ++ added.map q.file)) := by
  refine hlast.stored hs hdone ?_
  rw [length_directoryImage, List.length_append, List.length_map]
  omega

theorem serial_step (hsmall : old.length ≤ 61) (hagreed : q.Agreed s i) (halone : Alone s i)
    (h : q.step s i = some s') (hs : q.Tidy s) (hserial : q.Serial reserved old s) :
    q.Serial reserved old s' := by
  have hself : (!i) ≠ i := by cases i <;> decide
  have hother := step_phase_of_ne q h hself
  obtain ⟨j, hj, hbegins, hphase⟩ | ⟨j, hj, hphase⟩ := hserial
  · rcases Bool.eq_or_eq_not j i with rfl | rfl
    · rcases hphase with hidle | hread | ⟨hanswered, hprepared⟩
      · obtain ⟨hhosts, hread⟩ := step_target_old hbegins hsmall hidle h
        exact .first j (hother.trans hj) (hhosts ▸ hbegins) (.inr (.inl hread))
      · obtain ⟨hanswered, hprepared, hbytes⟩ := step_prepare hagreed h hread
        refine .first j (hother.trans hj) ⟨(tidy_step hagreed h hs).small, fun x hx ↦ ?_⟩
          (.inr (.inr ⟨hanswered, hprepared⟩))
        rw [hbytes, hbegins.bytes x hx]
      · refine .second j (step_commit hs h hanswered) (.inl ⟨hother.trans hj, ?_⟩)
        exact hprepared.step hs h fun input hread ↦ by cases hanswered.symm.trans hread
    · -- the other request reads, and it does so alone
      rw [Bool.not_not] at hj
      have hidle : s.phase (!i) = .idle := by
        rcases halone hj with hidle | ⟨reply, hfinished⟩
        · exact hidle
        · rcases hphase with hidle | hread | ⟨hanswered, -⟩
          · exact hidle
          · cases hfinished.symm.trans hread
          · cases hfinished.symm.trans hanswered
      obtain ⟨hhosts, hread⟩ := step_target_old hbegins hsmall hj h
      exact .first i (hother.trans hidle) (hhosts ▸ hbegins) (.inr (.inl hread))
  · rcases Bool.eq_or_eq_not j i with rfl | rfl
    · exact absurd h (step_finished hj)
    · rw [Bool.not_not] at hphase
      refine .second (!i) (hother.trans hj) ?_
      rw [Bool.not_not]
      rcases hphase with ⟨hidle, hprepared⟩ | hread | hprepared
      · have hdone : ∀ k input agree, s.phase k ≠ .answered input agree := by
          intro k input agree hk
          rcases Bool.eq_or_eq_not k i with rfl | rfl
          · cases hidle.symm.trans hk
          · cases hj.symm.trans hk
        have hstored := hprepared.stored_target hs hdone (by rw [List.length_singleton]; omega)
        have hlen : old.length + [!i].length < 63 := by
          rw [List.length_singleton]
          omega
        exact .inr (.inl (step_target hstored.beginsWith hlen hidle h).2)
      · exact .inr (.inr (step_prepare hagreed h hread).2.1)
      · refine .inr (.inr (hprepared.step hs h fun input hread ↦ ?_))
        rcases hprepared.phase with hphase | ⟨hphase, -⟩ <;> cases hphase.symm.trans hread

/-- A request that reads before the other has committed finds the old directory. -/
theorem overlapped_of_serial (hsmall : old.length ≤ 61) (halone : ¬Alone s i)
    (h : q.step s i = some s') (hs : q.Tidy s) (hserial : q.Serial reserved old s) :
    q.Overlapped reserved old s' := by
  obtain ⟨hidle, hbusy⟩ := Classical.not_imp.mp halone
  obtain ⟨hready, hdone⟩ := not_or.mp hbusy
  have hself : (!i) ≠ i := by cases i <;> decide
  have hother := step_phase_of_ne q h hself
  obtain ⟨j, hj, hbegins, hphase⟩ | ⟨j, hj, hphase⟩ := hserial
  · rcases Bool.eq_or_eq_not j i with rfl | rfl
    · exact absurd hj hready
    · have hread := (step_target_old hbegins hsmall hidle h).2
      rcases hphase with hphase | hphase | ⟨hphase, hprepared⟩
      · exact absurd hphase hready
      · have hall : ∀ k, s'.phase k = .read (q.target reserved old [k]) := by
          intro k
          rcases Bool.eq_or_eq_not k i with rfl | rfl
          · exact hread
          · exact hother.trans hphase
        exact ⟨fun k ↦ .inl (hall k), .inl hall⟩
      · refine ⟨fun k ↦ ?_, .inr ⟨!i, ?_⟩⟩
        · rcases Bool.eq_or_eq_not k i with rfl | rfl
          · exact .inl hread
          · exact .inr (.inl (hother.trans hphase))
        · exact hprepared.step hs h fun input hread ↦ by cases hidle.symm.trans hread
  · rcases Bool.eq_or_eq_not j i with rfl | rfl
    · cases hidle.symm.trans hj
    · exact absurd ⟨_, hj⟩ hdone

private theorem overlapped_step (hagreed : q.Agreed s i) (h : q.step s i = some s') (hs : q.Tidy s)
    (hover : q.Overlapped reserved old s) : q.Overlapped reserved old s' := by
  have hframe : ∀ k ≠ i, s'.phase k = s.phase k := fun k hk ↦ step_phase_of_ne q h hk
  rcases hover.phase i with hread | hanswered | hfinished
  · obtain ⟨hanswered, hprepared, -⟩ := step_prepare hagreed h hread
    refine ⟨fun k ↦ ?_, .inr ⟨i, hprepared⟩⟩
    by_cases hk : k = i
    · subst hk
      exact .inr (.inl hanswered)
    · rw [hframe k hk]
      exact hover.phase k
  · refine ⟨fun k ↦ ?_, .inr ?_⟩
    · by_cases hk : k = i
      · subst hk
        exact .inr (.inr (step_commit hs h hanswered))
      · rw [hframe k hk]
        exact hover.phase k
    · rcases hover.last with hall | ⟨last, hprepared⟩
      · cases hanswered.symm.trans (hall i)
      · exact ⟨last, hprepared.step hs h fun input hread ↦ by cases hanswered.symm.trans hread⟩
  · exact absurd h (step_finished hfinished)

/-! ## When both requests are done

The directory of a run of the first kind has both files, and that of a run of the second kind has
one of them only: the file of the request that prepared last. -/

private theorem not_answered_of_finished {reply : Buf} (hok : ∀ i, s.phase i = .finished reply)
    (i : Bool) (input : WriteRequest) (agree : Bool) : s.phase i ≠ .answered input agree := by
  rw [hok i]
  exact nofun

theorem Serial.stored (hsmall : old.length ≤ 61) (hok : ∀ i, s.phase i = .finished Write.ok)
    (hs : q.Tidy s) (h : q.Serial reserved old s) : ∃ i, Stored q.cfg s.hosts q.uuid
      (directoryImage reserved (old ++ [q.file i, q.file !i])) := by
  obtain ⟨j, hj, -, -⟩ | ⟨j, -, ⟨hidle, -⟩ | hread | hprepared⟩ := h
  · cases hj.symm.trans (hok _)
  · cases hidle.symm.trans (hok _)
  · cases hread.symm.trans (hok _)
  · have hlen : old.length + [j, !j].length ≤ 63 := by
      rw [List.length_cons, List.length_singleton]
      omega
    have hstored := hprepared.stored_target hs (not_answered_of_finished hok) hlen
    exact ⟨j, hstored⟩

theorem Overlapped.stored (hsmall : old.length ≤ 61) (hok : ∀ i, s.phase i = .finished Write.ok)
    (hs : q.Tidy s) (h : q.Overlapped reserved old s) :
    ∃ i, Stored q.cfg s.hosts q.uuid (directoryImage reserved (old ++ [q.file i])) := by
  rcases h.last with hall | ⟨last, hprepared⟩
  · cases (hall true).symm.trans (hok true)
  · have hlen : old.length + [last].length ≤ 63 := by
      rw [List.length_singleton]
      omega
    have hstored := hprepared.stored_target hs (not_answered_of_finished hok) hlen
    exact ⟨last, hstored⟩

end

/-! ## Larger directories and refused requests

What is left are the runs that the two kinds do not cover. A directory that passes 63 files is not
listed any more, whoever comes first (`Headed`). And once a prepare has been refused, one of the
requests is not answered with "OK" (`Refused`), so nothing is asked of the directory. -/

variable (q) in
/-- Once a request has prepared, the last one to do so has a directory to write. -/
def Headed (s : TwoAddfiles) : Prop :=
  (∀ i, s.phase i ≠ .finished Write.ok ∧ ∀ input agree, s.phase i ≠ .answered input agree) ∨
    ∃ last stat content,
      q.Prepared last (writeContent q.uuid (append stat content (q.file last).meta)) s ∧
      (append stat content (q.file last).meta).length < 2 ^ 32

private theorem headed_step (hagreed : q.Agreed s i) (h : q.step s i = some s') (hs : q.Tidy s)
    (hheaded : q.Headed s) : q.Headed s' := by
  by_cases hread : ∃ input, s.phase i = .read input
  · obtain ⟨input, hread⟩ := hread
    have hprepared := (step_prepare hagreed h hread).2.1
    obtain ⟨hne, -⟩ := step_read_inv q hread h
    obtain ⟨stat, content, rfl⟩ := hs.form i input (.inl hread)
    exact .inr ⟨i, stat, content, hprepared, length_append_lt hne⟩
  · have hnot : ∀ input, s.phase i ≠ .read input := fun input hinput ↦ hread ⟨input, hinput⟩
    rcases hheaded with hnone | ⟨last, stat, content, hprepared, hlt⟩
    · refine .inl fun j ↦ ?_
      by_cases hj : j = i
      · subst hj
        obtain ⟨-, -, rfl⟩ | ⟨stat, content, -, -, rfl⟩ | ⟨input, hphase, -, -⟩ |
          ⟨input, agree, hphase, -⟩ := step_cases q h
        · dsimp only
          rw [Function.update_self]
          refine ⟨fun heq ↦ ?_, fun input agree ↦ nofun⟩
          exact absurd (AddPhase.finished.inj heq) (by decide)
        · dsimp only
          rw [Function.update_self]
          exact ⟨nofun, fun input agree ↦ nofun⟩
        · exact absurd hphase (hnot input)
        · exact absurd hphase ((hnone j).2 input agree)
      · rw [step_phase_of_ne q h hj]
        exact hnone j
    · exact .inr ⟨last, stat, content, hprepared.step hs h hnot, hlt⟩

theorem Headed.stored (hok : ∀ i, s.phase i = .finished Write.ok) (hs : q.Tidy s)
    (h : q.Headed s) : Datafunction.Headed q.cfg s.hosts q.uuid := by
  rcases h with hnone | ⟨last, stat, content, hprepared, hlt⟩
  · exact absurd (hok true) (hnone true).1
  · have hstored := hprepared.stored hs (not_answered_of_finished hok) hlt
    exact ⟨_, hstored.shorten (bytes_isPrefix_append stat content _)⟩

/-- A request was refused. -/
def Refused (s : TwoAddfiles) : Prop :=
  ∃ i, (∃ input, s.phase i = .answered input false) ∨ s.phase i = .finished Write.foundPending

private theorem refused_of_not_agreed (hagreed : ¬q.Agreed s i) (h : q.step s i = some s') :
    Refused s' := by
  rw [Agreed] at hagreed
  push Not at hagreed
  obtain ⟨input, hread, hchecked, hpending⟩ := hagreed
  have hvotes : (prepareAll q.cfg q.stray (q.draw i) s.hosts input).2 = false := by
    rw [Bool.eq_false_iff, Ne, prepareAll_agree_iff]
    rintro (hquick | hfree)
    · exact hchecked hquick
    · obtain ⟨c, hc, hhas⟩ := hpending
      exact hhas (hfree c hc)
  obtain ⟨-, rfl⟩ := step_read_inv q hread h
  rw [hvotes]
  exact ⟨i, .inl ⟨input, Function.update_self ..⟩⟩

private theorem refused_step (h : q.step s i = some s') (hrefused : Refused s) : Refused s' := by
  obtain ⟨j, hj⟩ := hrefused
  refine ⟨j, ?_⟩
  by_cases hij : j = i
  · subst hij
    rcases hj with ⟨input, hanswered⟩ | hfinished
    · rw [step_answered q hanswered, Option.some_inj] at h
      subst h
      exact .inr (Function.update_self ..)
    · exact absurd h (step_finished hfinished)
  · rw [step_phase_of_ne q h hij]
    exact hj

private theorem Refused.not_ok (h : Refused s) : ¬∀ i, s.phase i = .finished Write.ok := by
  intro hok
  obtain ⟨i, ⟨input, hanswered⟩ | hfinished⟩ := h
  · cases hanswered.symm.trans (hok i)
  · exact absurd (AddPhase.finished.inj (hfinished.symm.trans (hok i))) (by decide)

/-! ## Concurrent addfile

`addsBoth_iff_alone` puts the cases together. If both requests are answered with "OK", both files
are listed at the end exactly if the one request was over before the other one read, and the
directory had room for two files. -/

section

variable {reserved : List.Vector UInt8 60} {old : List NewFile} {hosts : Hosts}
  (hstored : Stored q.cfg hosts q.uuid (directoryImage reserved old)) {es : List Bool}
  (hrun : run q.step (start hosts) es = some s)

include hstored in
private theorem tidy_start : q.Tidy (start hosts) where
  form i input h := by rcases h with h | ⟨agree, h⟩ <;> cases h
  agreed i input agree h := by cases h
  small := hstored.calm.small
  pending_small i input agree h := by cases h
  pending b hb := by
    rw [start, hstored.calm.free b] at hb
    cases hb

include hrun in
/-- If a prepare is refused then one of the requests is not answered with OK. -/
theorem meets_agreed_of_ok (hok : ∀ i, s.phase i = .finished Write.ok) :
    Meets q.step q.Agreed (start hosts) es := by
  have hmeets : Meets q.step (fun _ _ ↦ True) (start hosts) es :=
    meets_of_forall_mem (C := fun _ ↦ True) (fun _ _ ↦ trivial) _
  rcases invariant_run_or (I := fun _ ↦ True) (J := Refused) (fun _ _ _ _ _ _ _ ↦ trivial)
    (fun _ _ _ _ hC hstep _ ↦ refused_of_not_agreed hC hstep)
    (fun _ _ _ _ hstep hJ ↦ refused_step hstep hJ) hmeets hrun trivial with ⟨hall, -⟩ | ⟨-, hno⟩
  · exact hall
  · exact absurd hok hno.not_ok

include hstored hrun in
private theorem serial_or_overlapped (hsmall : old.length ≤ 61)
    (hagreed : Meets q.step q.Agreed (start hosts) es) :
    Meets q.step Alone (start hosts) es ∧ (q.Tidy s ∧ q.Serial reserved old s) ∨
      ¬Meets q.step Alone (start hosts) es ∧ (q.Tidy s ∧ q.Overlapped reserved old s) := by
  refine invariant_run_or (I := fun s ↦ q.Tidy s ∧ q.Serial reserved old s)
    (J := fun s ↦ q.Tidy s ∧ q.Overlapped reserved old s) ?_ ?_ ?_ hagreed hrun
    ⟨tidy_start hstored, .first false rfl hstored.beginsWith (.inl rfl)⟩
  · rintro s i s' hA hC hstep ⟨hs, hserial⟩
    exact ⟨tidy_step hA hstep hs, serial_step hsmall hA hC hstep hs hserial⟩
  · rintro s i s' hA hC hstep ⟨hs, hserial⟩
    exact ⟨tidy_step hA hstep hs, overlapped_of_serial hsmall hC hstep hs hserial⟩
  · rintro s i s' hA hstep ⟨hs, hover⟩
    exact ⟨tidy_step hA hstep hs, overlapped_step hA hstep hs hover⟩

include hstored hrun in
private theorem headed_run (hok : ∀ i, s.phase i = .finished Write.ok) :
    Datafunction.Headed q.cfg s.hosts q.uuid := by
  have hI := invariant_run (I := fun s ↦ q.Tidy s ∧ q.Headed s)
    (fun s i s' hA hstep h ↦ ⟨tidy_step hA hstep h.1, headed_step hA hstep h.1 h.2⟩)
    (meets_agreed_of_ok hrun hok) hrun
    ⟨tidy_start hstored, .inl fun i ↦ ⟨nofun, fun input agree ↦ nofun⟩⟩
  exact hI.2.stored hok hI.1

end

/-- **Both files are listed if the requests do not overlap.** A run in which a prepare is refused
has not answered both with OK. A run in which each request reads before the other has read or after
all its messages adds both files, up to the 63 that can be listed. No other run does. -/
theorem addsBoth_iff_alone (q : TwoFiles) {reserved : List.Vector UInt8 60} {old : List NewFile}
    {hosts : Hosts} (hstored : Stored q.cfg hosts q.uuid (directoryImage reserved old))
    {es : List Bool} {s : TwoAddfiles} (hrun : run q.step (start hosts) es = some s) :
    (¬Meets q.step q.Agreed (start hosts) es ∨
        Meets q.step Alone (start hosts) es ∧ old.length ≤ 61 → q.AddsBoth old s) ∧
      ((∀ i, s.phase i = .finished Write.ok) → q.AddsBoth old s →
        Meets q.step q.Agreed (start hosts) es ∧
          Meets q.step Alone (start hosts) es ∧ old.length ≤ 61) := by
  refine ⟨fun hwhen hok ↦ ?_, fun hok hadds ↦ ?_⟩
  · have hagreed := meets_agreed_of_ok hrun hok
    rcases hwhen with hrefused | ⟨halone, hsmall⟩
    · exact absurd hagreed hrefused
    · rcases serial_or_overlapped hstored hrun hsmall hagreed with ⟨-, hs, hserial⟩ | ⟨hnot, -⟩
      · obtain ⟨i, hend⟩ := hserial.stored hsmall hok hs
        have hlen : (old ++ [q.file i, q.file !i]).length = old.length + 2 := List.length_append
        refine ⟨i, ?_⟩
        rw [ls_image hend (by omega) q.stray q.rereads, hlen]
      · exact absurd halone hnot
  · have hagreed := meets_agreed_of_ok hrun hok
    obtain ⟨i, hls⟩ := hadds hok
    have hsmall : old.length ≤ 61 := by
      have := ls_headed (headed_run hstored hrun hok) hls
      omega
    refine ⟨hagreed, ?_, hsmall⟩
    rcases serial_or_overlapped hstored hrun hsmall hagreed with ⟨halone, -⟩ | ⟨-, hs, hover⟩
    · exact halone
    · obtain ⟨j, hend⟩ := hover.stored hsmall hok hs
      have hlen : (old ++ [q.file j]).length = old.length + 1 := List.length_append
      rw [ls_image hend (by omega) q.stray q.rereads, Option.some_inj] at hls
      have := listing_count_inj hls
      omega

end TwoFiles

/-! ## Two files for a new directory -/

def AddPhase.reply : AddPhase → Option Buf
  | .finished reply => some reply
  | _ => none

private theorem AddPhase.eq_finished {p : AddPhase} {reply : Buf} (h : p.reply = some reply) :
    p = .finished reply := by
  cases p with
  | finished reply' =>
    cases h
    rfl
  | _ => cases h

/-- A file called `b`. -/
def fileB : NewFile :=
  ⟨List.Vector.replicate 2 0, List.Vector.replicate 2 0, ascii "b", by decide, by decide,
    List.forall_mem_singleton.mpr (by decide)⟩

/-- Files called `a` and `b` for the directory whose id is all zeros. -/
def filesAB : TwoFiles where
  cfg := oneServer
  stray _ := 0
  rereads := 1
  uuid := rootId
  draw i := ⟨false, if i then 9 else 8, List.Vector.replicate 4 0⟩
  file i := if i then fileB else fileA.2
  name_ne := by decide

/-- The directory is made and the phases are played. These are the replies and the listing. -/
def replay (es : List Bool) : Option (Option Buf × Option Buf × Option Buf) :=
  (startMetaMkdir oneServer (fun _ ↦ 0) fileA.1 (fun _ ↦ Server.empty) rootId
    (List.Vector.replicate 60 0)).bind fun made ↦
      (run filesAB.step (TwoFiles.start made.2) es).map fun s ↦
        ((s.phase false).reply, (s.phase true).reply,
          startMetaLs oneServer (fun _ ↦ 0) 2 s.hosts rootId)

private theorem exists_run_of_replay {es : List Bool} {names : Buf}
    (h : replay es = some (some Write.ok, some Write.ok, some names)) :
    ∃ hosts s, Stored oneServer hosts rootId (directoryImage (List.Vector.replicate 60 0) []) ∧
      run filesAB.step (TwoFiles.start hosts) es = some s ∧
      (∀ i, s.phase i = .finished Write.ok) ∧
      startMetaLs oneServer (fun _ ↦ 0) 2 s.hosts rootId = some names := by
  obtain ⟨hosts, hmkdir, hstored⟩ :=
    mkdir_stored (fun _ ↦ 0) calm_empty (List.Vector.replicate 60 0) fileA.1
  rw [replay, hmkdir, Option.bind_some] at h
  obtain ⟨s, hrun, heq⟩ := Option.map_eq_some_iff.mp h
  obtain ⟨hfalse, htrue, hls⟩ : (s.phase false).reply = some Write.ok ∧
      (s.phase true).reply = some Write.ok ∧
      startMetaLs oneServer (fun _ ↦ 0) 2 s.hosts rootId = some names := by
    simpa only [Prod.mk.injEq] using heq
  refine ⟨hosts, s, hstored, hrun, fun i ↦ ?_, hls⟩
  cases i with
  | false => exact AddPhase.eq_finished hfalse
  | true => exact AddPhase.eq_finished htrue

/-- One request after the other. -/
theorem addsBoth_in_turn :
    ∃ hosts s, Stored oneServer hosts rootId (directoryImage (List.Vector.replicate 60 0) []) ∧
      run filesAB.step (TwoFiles.start hosts) [false, false, false, true, true, true] = some s ∧
      filesAB.AddsBoth [] s ∧
      Meets filesAB.step TwoFiles.Alone (TwoFiles.start hosts)
        [false, false, false, true, true, true] := by
  have hreplay : replay [false, false, false, true, true, true]
      = some (some Write.ok, some Write.ok, some (listing 2 [ascii "a", ascii "b"])) := by
    decide +kernel
  obtain ⟨hosts, s, hstored, hrun, hok, hls⟩ := exists_run_of_replay hreplay
  have hadds : filesAB.AddsBoth [] s := fun _ ↦ ⟨false, hls⟩
  exact ⟨hosts, s, hstored, hrun, hadds,
    ((TwoFiles.addsBoth_iff_alone filesAB hstored hrun).2 hok hadds).2.1⟩

/-- Both requests read, and then one after the other writes. Both are answered with OK and the
directory has one file. -/
theorem first_file_lost :
    ∃ hosts s, Stored oneServer hosts rootId (directoryImage (List.Vector.replicate 60 0) []) ∧
      run filesAB.step (TwoFiles.start hosts) [false, true, false, false, true, true] = some s ∧
      (∀ i, s.phase i = .finished Write.ok) ∧
      startMetaLs oneServer (fun _ ↦ 0) 2 s.hosts rootId = some (listing 1 [ascii "b"]) ∧
      ¬filesAB.AddsBoth [] s := by
  have hreplay : replay [false, true, false, false, true, true]
      = some (some Write.ok, some Write.ok, some (listing 1 [ascii "b"])) := by decide +kernel
  obtain ⟨hosts, s, hstored, hrun, hok, hls⟩ := exists_run_of_replay hreplay
  refine ⟨hosts, s, hstored, hrun, hok, hls, fun hadds ↦ ?_⟩
  obtain ⟨i, htwo⟩ := hadds hok
  have hcount := listing_count_inj (Option.some_inj.mp (hls.symm.trans htwo))
  exact absurd hcount (by decide)

end Slsfs.Datafunction

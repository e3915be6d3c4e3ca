import Slsfs.Datafunction.CacheFreshness
import Slsfs.Datafunction.CacheTransfer

/-!
# Several caches in front of one storage

A worker has a cache for each proxy that it is connected to, other workers have theirs, and a file
that goes from one proxy to another goes from one cache to another. The strand of a file orders how
its requests start, and not how they end: `start_perform` returns at once, and when the storage has
answered, the callback puts the blocks in the cache. So a request of the same file, over the same
connection or another, may take effect in between. The blocks that `build_cache` fetches are no
different.

`Held` is what a cache has, or is going to get from a callback. `agrees_iff_keeps`: everything that
is held agrees with the storage in all states of a run exactly if no write of the run, at the moment
when it takes effect, changes a block that is held. `hit_agrees`: in such a run a hit over any of
the connections returns what is stored. Nothing in the code sees to it.

The storage is a `Backend`: any store of bytes whose requests succeed, take effect at one moment,
and find all the blocks they are for. The servers are one as long as what is read has been written;
a block that is not there they answer with no bytes, and the bytes that are then cached are not
those of the storage. Requests are for whole blocks, and each operation of a cache is taken as one
step.
-/

namespace Slsfs.Datafunction.CacheSharing

open LeveldbPack (Buf Key)

/-- What the storage is asked for, which says what is done with its answer. -/
inductive Job where
  | file (input : FileRequest)
  /-- The read of a block in `build_cache`. -/
  | fetch (key : Key) (blockId size : UInt32)

/-- A call of `start_perform` whose callback has not run. -/
structure Pending (ι : Type*) where
  connection : ι
  job : Job
  /-- `none` until the request takes effect. -/
  answer : Option Buf

structure State (ι σ : Type*) where
  caches : ι → Cache
  backend : σ
  pending : List (Pending ι)

inductive Event (ι : Type*) where
  /-- `start_storage_perform`. -/
  | request (i : ι) (input : FileRequest)
  /-- `build_cache` enters a file in the map. -/
  | enter (i : ι) (key : Key)
  /-- `build_cache` puts a node on the list. -/
  | node (i : ι) (held : Option Key) (entry : CacheEntry)
  /-- `build_cache` starts the read of a block. -/
  | fetch (i : ι) (key : Key) (blockId size : UInt32)
  /-- The request with the number `n` takes effect. -/
  | perform (n : ℕ)
  /-- The callback of the request with the number `n`. -/
  | finish (n : ℕ)

namespace Job

/-- What the storage is asked to read. -/
def readRequest : Job → Option ReadRequest
  | .file (.read input) => some input
  | .file (.write _) => none
  | .fetch key blockId size => some (Cache.blockRequest key blockId size)

def perform {σ : Type*} (backend : Backend σ) (b : σ) : Job → Buf × σ
  | .file (.write input) => backend.performWrite b input
  | .file (.read input) => (backend.performRead b input, b)
  | .fetch key blockId size => (backend.performRead b (Cache.blockRequest key blockId size), b)

/-- What the callback does with the cache. -/
def callback (enableCache : Bool) (c : Cache) (answer : Buf) : Job → Option Cache
  | .file (.write input) =>
    if enableCache then c.writeToCache input.position input.size input.data input.uuid else some c
  | .file (.read input) =>
    if enableCache then c.writeToCache input.position input.size answer input.uuid else some c
  | .fetch key blockId _ =>
    match c.cachingMap.lookup key with
    | none => some c
    | some blocks =>
      some { c with cachingMap := c.cachingMap.insert key (blocks.emplace blockId answer) }

def WholeBlocks : Job → Prop
  | .file input => input.WholeBlocks
  | .fetch _ blockId size => blockId.toNat < 2 ^ 20 ∧ size = 4096

end Job

variable {ι σ : Type*} [DecidableEq ι]

namespace State

/-- Empty caches. -/
def init (cachesize : UInt32) (policy : EvictionPolicy) (b : σ) : State ι σ :=
  ⟨fun _ ↦ Cache.empty cachesize policy, b, []⟩

def setCache (s : State ι σ) (i : ι) (c : Cache) : State ι σ :=
  { s with caches := Function.update s.caches i c }

def start (s : State ι σ) (i : ι) (job : Job) : State ι σ :=
  { s with pending := s.pending ++ [⟨i, job, none⟩] }

private theorem setCache_self (s : State ι σ) (i : ι) (c : Cache) : (s.setCache i c).caches i = c :=
  Function.update_self ..

private theorem setCache_of_ne (s : State ι σ) {i j : ι} (c : Cache) (h : j ≠ i) :
    (s.setCache i c).caches j = s.caches j := Function.update_of_ne h ..

end State

section

variable (backend : Backend σ) (enableCache : Bool)

def step (s : State ι σ) : Event ι → Option (State ι σ)
  | .request i (.write input) => some (s.start i (.file (.write input)))
  | .request i (.read input) =>
    ((s.caches i).readFromCache input).map fun found ↦
      if found.1.isSome then s.setCache i found.2
      else (s.setCache i found.2).start i (.file (.read input))
  | .enter i key =>
    some (s.setCache i { s.caches i with cachingMap := (s.caches i).cachingMap.emplace key ∅ })
  | .node i held entry => ((s.caches i).set held entry).map (s.setCache i)
  | .fetch i key blockId size => some (s.start i (.fetch key blockId size))
  | .perform n => s.pending[n]?.bind fun p ↦
    if p.answer.isSome then none
    else
      let (answer, b) := p.job.perform backend s.backend
      some { s with backend := b, pending := s.pending.set n { p with answer := some answer } }
  | .finish n => s.pending[n]?.bind fun p ↦ p.answer.bind fun answer ↦
    (p.job.callback enableCache (s.caches p.connection) answer).map fun c ↦
      { s.setCache p.connection c with pending := s.pending.eraseIdx n }

/-- The requests of an event are for whole blocks. -/
def Event.WholeBlocks : Event ι → Prop
  | .request _ input => (Job.file input).WholeBlocks
  | .fetch _ key blockId size => (Job.fetch key blockId size).WholeBlocks
  | _ => True

instance : DecidablePred (@Event.WholeBlocks ι)
  | .request _ input => inferInstanceAs (Decidable (FileRequest.WholeBlocks input))
  | .fetch _ _ _ _ => inferInstanceAs (Decidable (_ ∧ _))
  | .enter .. | .node .. | .perform _ | .finish _ => inferInstanceAs (Decidable True)

end

/-! ## What is held

What a callback is going to put in its cache is fixed when the request takes effect: the blocks of
what was written, or of what was read. So it counts as held from then on, together with what all
caches have. -/

section

variable {backend : Backend σ} {enableCache : Bool} {s s' t : State ι σ} {e : Event ι}

/-- The callback of an answered request may put the block in the cache. -/
def Pending.Carries (enableCache : Bool) (p : Pending ι) (key : Key) (blockId : UInt32)
    (buf : Buf) : Prop :=
  ∃ answer, p.answer = some answer ∧ match p.job with
    | .file (.write input) => enableCache = true ∧ key = input.uuid ∧
      (∃ ids, Cache.getBlockIds input.position input.size = some ids ∧ blockId ∈ ids) ∧
        buf = Cache.toEmplace input.position input.size input.data blockId
    | .file (.read input) => enableCache = true ∧ key = input.uuid ∧
      (∃ ids, Cache.getBlockIds input.position input.size = some ids ∧ blockId ∈ ids) ∧
        buf = Cache.toEmplace input.position input.size answer blockId
    | .fetch key' blockId' _ => key = key' ∧ blockId = blockId' ∧ buf = answer

/-- The block is cached over some connection, or about to be. -/
def Held (enableCache : Bool) (s : State ι σ) (key : Key) (blockId : UInt32) (buf : Buf) : Prop :=
  (∃ i, (s.caches i).cachingMap.lookup₂ key blockId = some buf) ∨
    ∃ p ∈ s.pending, p.Carries enableCache key blockId buf

/-- **The invariant.** What is held is what is stored. -/
def Agrees (backend : Backend σ) (enableCache : Bool) (s : State ι σ) : Prop :=
  ∀ key blockId buf, Held enableCache s key blockId buf →
    buf = backend.block s.backend key blockId

/-- A write that takes effect changes no block that is held. -/
def Keeps (enableCache : Bool) (s : State ι σ) : Event ι → Prop
  | .perform n => ∀ i input, s.pending[n]? = some ⟨i, .file (.write input), none⟩ →
    ∀ blockId buf, Held enableCache s input.uuid blockId buf →
      ∀ k < input.data.length / 4096, blockId.toNat = input.position.toNat / 4096 + k →
        buf = (input.data.drop (4096 * k)).take 4096
  | _ => True

omit [DecidableEq ι] in
private theorem lookup_callback {p : Pending ι} {answer : Buf} (hanswer : p.answer = some answer)
    {c c' : Cache} (h : p.job.callback enableCache c answer = some c') {key : Key}
    {blockId : UInt32} {buf : Buf} (hbuf : c'.cachingMap.lookup₂ key blockId = some buf) :
    c.cachingMap.lookup₂ key blockId = some buf ∨ p.Carries enableCache key blockId buf := by
  obtain ⟨i, job, _⟩ := p
  cases hanswer
  cases job with
  | file input =>
    cases input with
    | write input | read input =>
      rw [Job.callback] at h
      split at h
      · rename_i henabled
        refine (Cache.lookup_writeToCache h hbuf).imp_right fun ⟨hkey, hid, hadded⟩ ↦ ?_
        exact ⟨answer, rfl, henabled, hkey, hid, hadded⟩
      · cases h
        exact .inl hbuf
  | fetch key' blockId' size =>
    dsimp only [Job.callback] at h
    split at h
    · cases h
      exact .inl hbuf
    · rename_i blocks hblocks
      cases h
      dsimp only at hbuf
      by_cases hkey : key = key'
      · subst hkey
        rw [FiniteMap.lookup₂_insert] at hbuf
        rcases FiniteMap.lookup_of_emplace hbuf with hold | ⟨rfl, rfl, -⟩
        · exact .inl (FiniteMap.lookup₂_eq_some.mpr ⟨blocks, hblocks, hold⟩)
        · exact .inr ⟨buf, rfl, rfl, rfl, rfl⟩
      · rw [FiniteMap.lookup₂_insert_of_ne _ _ _ hkey] at hbuf
        exact .inl hbuf

private theorem held_of_setCache {i : ι} {c : Cache} {key : Key} {blockId : UInt32} {buf : Buf}
    (hc : c.cachingMap.lookup₂ key blockId = some buf → Held enableCache s key blockId buf)
    (h : Held enableCache (s.setCache i c) key blockId buf) :
    Held enableCache s key blockId buf := by
  obtain ⟨j, hj⟩ | hcarried := h
  · by_cases hji : j = i
    · subst hji
      rw [State.setCache_self] at hj
      exact hc hj
    · rw [State.setCache_of_ne _ _ hji] at hj
      exact .inl ⟨j, hj⟩
  · exact .inr hcarried

private theorem held_of_shrinks {i : ι} {c : Cache}
    (hc : FiniteMap.Shrinks (s.caches i).cachingMap c.cachingMap) {key : Key} {blockId : UInt32}
    {buf : Buf} (h : Held enableCache (s.setCache i c) key blockId buf) :
    Held enableCache s key blockId buf :=
  held_of_setCache (fun hbuf ↦ .inl ⟨i, hc key blockId buf hbuf⟩) h

omit [DecidableEq ι] in
private theorem held_of_start {i : ι} {job : Job} {key : Key} {blockId : UInt32} {buf : Buf}
    (h : Held enableCache (s.start i job) key blockId buf) :
    Held enableCache s key blockId buf := by
  refine h.imp_right ?_
  rintro ⟨p, hp, hcarries⟩
  rcases List.mem_append.mp hp with hp | hp
  · exact ⟨p, hp, hcarries⟩
  · obtain rfl := List.mem_singleton.mp hp
    obtain ⟨answer, hanswer, -⟩ := hcarries
    cases hanswer

/-! ## What a step can do

There is one case for each event, and two for a read. Only `perform` touches the storage. -/

/-- What a step can do. -/
inductive Effect (backend : Backend σ) (enableCache : Bool) (s : State ι σ) :
    Event ι → State ι σ → Prop
  | write (i : ι) (input : WriteRequest) :
      Effect backend enableCache s (.request i (.write input)) (s.start i (.file (.write input)))
  | hit (i : ι) (input : ReadRequest) (buf : Buf) (c : Cache)
      (hread : (s.caches i).readFromCache input = some (some buf, c)) :
      Effect backend enableCache s (.request i (.read input)) (s.setCache i c)
  | miss (i : ι) (input : ReadRequest) (c : Cache)
      (hread : (s.caches i).readFromCache input = some (none, c)) :
      Effect backend enableCache s (.request i (.read input))
        ((s.setCache i c).start i (.file (.read input)))
  | enter (i : ι) (key : Key) : Effect backend enableCache s (.enter i key)
      (s.setCache i { s.caches i with cachingMap := (s.caches i).cachingMap.emplace key ∅ })
  | node (i : ι) (held : Option Key) (entry : CacheEntry) (c : Cache)
      (hset : (s.caches i).set held entry = some c) :
      Effect backend enableCache s (.node i held entry) (s.setCache i c)
  | fetch (i : ι) (key : Key) (blockId size : UInt32) :
      Effect backend enableCache s (.fetch i key blockId size) (s.start i (.fetch key blockId size))
  | perform (n : ℕ) (i : ι) (job : Job) (hp : s.pending[n]? = some ⟨i, job, none⟩) :
      Effect backend enableCache s (.perform n)
        { s with
          backend := (job.perform backend s.backend).2
          pending := s.pending.set n ⟨i, job, some (job.perform backend s.backend).1⟩ }
  | finish (n : ℕ) (i : ι) (job : Job) (answer : Buf) (c : Cache)
      (hp : s.pending[n]? = some ⟨i, job, some answer⟩)
      (hc : job.callback enableCache (s.caches i) answer = some c) :
      Effect backend enableCache s (.finish n)
        { s.setCache i c with pending := s.pending.eraseIdx n }

theorem effect_of_step (h : step backend enableCache s e = some s') :
    Effect backend enableCache s e s' := by
  cases e with
  | request i input =>
    cases input with
    | write input =>
      cases h
      exact .write i input
    | read input =>
      obtain ⟨⟨found, c⟩, hread, h⟩ := Option.map_eq_some_iff.mp h
      cases found with
      | none =>
        cases h
        exact .miss i input c hread
      | some buf =>
        cases h
        exact .hit i input buf c hread
  | enter i key =>
    cases h
    exact .enter i key
  | node i held entry =>
    obtain ⟨c, hset, rfl⟩ := Option.map_eq_some_iff.mp h
    exact .node i held entry c hset
  | fetch i key blockId size =>
    cases h
    exact .fetch i key blockId size
  | perform n =>
    obtain ⟨⟨i, job, answer⟩, hp, h⟩ := Option.bind_eq_some_iff.mp h
    cases answer with
    | none =>
      cases h
      exact .perform n i job hp
    | some answer => cases h
  | finish n =>
    obtain ⟨⟨i, job, answer⟩, hp, h⟩ := Option.bind_eq_some_iff.mp h
    obtain ⟨answer', rfl, h⟩ := Option.bind_eq_some_iff.mp h
    obtain ⟨c, hc, rfl⟩ := Option.map_eq_some_iff.mp h
    exact .finish n i job answer' c hp hc

/-! ## When a request takes effect

A block carried away from the storage is the storage's at this moment. A block that was held before
stays right unless it is written, and if it is written `Keeps` says that it has the new bytes
already. -/

omit [DecidableEq ι] in
private theorem block_of_carries {i : ι} {job : Job} (hwhole : job.WholeBlocks) {b : σ} {key : Key}
    {blockId : UInt32} {buf : Buf}
    (h : Pending.Carries enableCache ⟨i, job, some (job.perform backend b).1⟩ key blockId buf) :
    buf = backend.block (job.perform backend b).2 key blockId := by
  obtain ⟨answer, hanswer, h⟩ := h
  cases hanswer
  cases job with
  | file input =>
    cases input with
    | write input =>
      obtain ⟨-, rfl, ⟨ids, hids, hmem⟩, rfl⟩ := h
      obtain ⟨k, hid, hk, heq⟩ := Cache.added_block (toNat_size_write input).symm hids hmem
      rw [heq]
      exact (block_performWrite_of_mem hwhole.1 hwhole.2 hid hk).symm
    | read input =>
      obtain ⟨-, rfl, ⟨ids, hids, hmem⟩, rfl⟩ := h
      have hdata : (backend.performRead b input).length = input.size.toNat := by
        rw [backend.performRead_eq, List.length_map, List.length_range]
      obtain ⟨k, hid, hk, heq⟩ := Cache.added_block hdata hids hmem
      exact heq.trans (block_performRead hwhole.1 hwhole.2 hid (by omega))
  | fetch key' blockId' size =>
    obtain ⟨rfl, rfl, rfl⟩ := h
    obtain ⟨hid, rfl⟩ := hwhole
    have hposition : (blockId * 4096).toNat = blockId.toNat * 4096 := by
      rw [UInt32.toNat_mul]
      exact Nat.mod_eq_of_lt (by change blockId.toNat * 4096 < 2 ^ 32; omega)
    have hsize : UInt32.toNat 4096 = 4096 := Cache.toNat_blocksize
    simp only [Job.perform, backend.performRead_eq, Backend.block, Cache.blockRequest, hposition,
      hsize]

omit [DecidableEq ι] in
private theorem block_of_held {n : ℕ} {i : ι} {job : Job} (hwhole : job.WholeBlocks)
    (hp : s.pending[n]? = some ⟨i, job, none⟩) (hkeeps : Keeps enableCache s (.perform n))
    (hs : Agrees backend enableCache s) {key : Key} {blockId : UInt32} {buf : Buf}
    (h : Held enableCache s key blockId buf) :
    buf = backend.block (job.perform backend s.backend).2 key blockId := by
  have hread : (job.perform backend s.backend).2 = s.backend →
      buf = backend.block (job.perform backend s.backend).2 key blockId := fun hb ↦ by
    rw [hb]
    exact hs key blockId buf h
  cases job with
  | fetch => exact hread (by rw [Job.perform])
  | file input =>
    cases input with
    | read input => exact hread (by rw [Job.perform])
    | write input =>
      obtain ⟨hpos, hlen⟩ := hwhole
      rw [Job.perform]
      by_cases hin : key = input.uuid ∧ input.position.toNat ≤ blockId.toNat * 4096 ∧
          blockId.toNat * 4096 < input.position.toNat + input.data.length
      · obtain ⟨rfl, hlo, hhi⟩ := hin
        obtain ⟨k, hk⟩ : ∃ k, blockId.toNat = input.position.toNat / 4096 + k :=
          ⟨blockId.toNat - input.position.toNat / 4096, by omega⟩
        rw [block_performWrite_of_mem hpos hlen hk (by omega)]
        exact hkeeps i input hp blockId buf h k (by omega) hk
      · rw [block_performWrite_of_notMem hpos hin]
        exact hs key blockId buf h

/-! ## One request after the other, and a table

The runs of `CacheFreshness` are those in which a request takes effect and finishes before the next
one comes. A table that a worker receives starts a number of fetches, which is a run too. -/

private theorem run_job {i : ι} {job : Job} {c : Cache}
    (hc : job.callback enableCache (s.caches i) (job.perform backend s.backend).1 = some c) :
    run (step backend enableCache) (s.start i job)
        [.perform s.pending.length, .finish s.pending.length]
      = some { s.setCache i c with backend := (job.perform backend s.backend).2 } := by
  have hperform : step backend enableCache (s.start i job) (.perform s.pending.length)
      = some { s with
        backend := (job.perform backend s.backend).2
        pending := s.pending ++ [⟨i, job, some (job.perform backend s.backend).1⟩] } := by
    simp [step, State.start]
  rw [run, hperform, Option.bind_some, run]
  simp [step, hc, State.setCache, List.eraseIdx_append_of_length_le]

theorem run_performStep {i : ι} {input : FileRequest} {t : Storage σ}
    (h : performStep backend ⟨s.caches i, s.backend⟩ input = some t) :
    ∃ es, run (step backend true) s es
      = some { s.setCache i t.cache with backend := t.backend } := by
  obtain ⟨w, c, rfl, hwrite, rfl⟩ | ⟨r, buf, c, rfl, hhit, rfl⟩ |
    ⟨r, c₁, c, rfl, hmiss, hwrite, rfl⟩ := performStep_cases h
  · refine ⟨[.request i (.write w), _, _], run_cons_eq_some.mpr ⟨_, rfl, run_job ?_⟩⟩
    exact hwrite
  · refine ⟨[.request i (.read r)], run_cons_eq_some.mpr ⟨_, ?_, rfl⟩⟩
    rw [step, hhit, Option.map_some]
    rfl
  · have hstart : step backend true s (.request i (.read r))
        = some ((s.setCache i c₁).start i (.file (.read r))) := by
      rw [step, hmiss, Option.map_some]
      rfl
    have hcallback : (Job.file (.read r)).callback true ((s.setCache i c₁).caches i)
        ((Job.file (.read r)).perform backend (s.setCache i c₁).backend).1 = some c := by
      rw [State.setCache_self]
      exact hwrite
    refine ⟨[.request i (.read r), _, _],
      run_cons_eq_some.mpr ⟨_, hstart, (run_job hcallback).trans ?_⟩⟩
    simp [State.setCache, Job.perform]

/-- When reads have been started over a connection, with the cache `c`. -/
def State.startAll (s : State ι σ) (i : ι) (c : Cache) (jobs : List Job) : State ι σ :=
  { s.setCache i c with pending := s.pending ++ jobs.map (⟨i, ·, none⟩) }

private theorem startAll_nil (s : State ι σ) (i : ι) : s.startAll i (s.caches i) [] = s := by
  simp [State.startAll, State.setCache]

private theorem startAll_setCache (s : State ι σ) (i : ι) (c c' : Cache) (jobs : List Job) :
    (s.setCache i c').startAll i c jobs = s.startAll i c jobs := by
  simp [State.startAll, State.setCache]

private theorem startAll_start (s : State ι σ) (i : ι) (c : Cache) (job : Job) (jobs : List Job) :
    (s.start i job).startAll i c jobs = s.startAll i c (job :: jobs) := by
  simp [State.startAll, State.setCache, State.start]

private theorem startAll_startAll (s : State ι σ) (i : ι) (c c' : Cache) (jobs jobs' : List Job) :
    (s.startAll i c' jobs').startAll i c jobs = s.startAll i c (jobs' ++ jobs) := by
  simp [State.startAll, State.setCache]

private theorem run_buildRecord (backend : Backend σ) (enableCache : Bool) {i : ι}
    {held : Option Key}
    {key : Key} {rounds : ℕ} {table rest : Buf} {c : Cache} {reads : List ReadRequest}
    (h : Cache.buildRecord held key rounds table (s.caches i) = some (reads, c, rest)) :
    ∃ es jobs, run (step backend enableCache) s es = some (s.startAll i c jobs) ∧
      jobs.map Job.readRequest = reads.map some := by
  induction rounds generalizing s table reads with
  | zero => cases h
  | succ rounds ih =>
    cases table with
    | nil => cases h
    | cons byte table =>
      rw [Cache.buildRecord] at h
      split at h
      · cases h
        exact ⟨[], [], congrArg some (startAll_nil s i).symm, rfl⟩
      split at h
      · cases h
      rename_i bid table _
      split at h
      · cases h
      rename_i size table _
      split at h
      · -- a node
        split at h
        · cases h
          refine ⟨[.node i held ⟨key, bid, size⟩], [], ?_, rfl⟩
          rw [run, step, ‹Cache.set held (s.caches i) _ = some c›]
          simp [State.startAll, State.setCache]
        · cases h
      · -- a block, and the rest of the record
        obtain ⟨⟨reads', c', rest'⟩, hrest, h⟩ := Option.map_eq_some_iff.mp h
        cases h
        obtain ⟨es, jobs, hrun, hjobs⟩ := ih (s := s.start i (.fetch key bid size)) hrest
        rw [startAll_start] at hrun
        refine ⟨.fetch i key bid size :: es, .fetch key bid size :: jobs, ?_, ?_⟩
        · exact run_cons_eq_some.mpr ⟨_, rfl, hrun⟩
        · rw [List.map_cons, List.map_cons, hjobs, Job.readRequest]

/-- **A table** is handled by events of its connection alone, which start the reads of
`build_cache`. -/
theorem run_buildCache {i : ι} {rounds : ℕ} {table : Buf} {c : Cache} {reads : List ReadRequest}
    (h : Cache.buildCache rounds table (s.caches i) = some (reads, c)) :
    ∃ es jobs, run (step backend enableCache) s es = some (s.startAll i c jobs) ∧
      jobs.map Job.readRequest = reads.map some := by
  have hend : ∀ {s : State ι σ} {c : Cache} {reads : List ReadRequest},
      some ([], s.caches i) = some (reads, c) → ∃ es jobs,
        run (step backend enableCache) s es = some (s.startAll i c jobs) ∧
          jobs.map Job.readRequest = reads.map some := by
    intro s c reads h
    cases h
    exact ⟨[], [], congrArg some (startAll_nil s i).symm, rfl⟩
  induction rounds generalizing s table reads with
  | zero =>
    rw [Cache.buildCache] at h
    split at h
    · exact hend h
    · cases h
  | succ rounds ih =>
    rw [Cache.buildCache] at h
    split at h
    · exact hend h
    split at h
    · cases h
    rename_i key rest _
    dsimp only at h
    split at h
    · cases h
    rename_i reads' c' rest' hrecord
    obtain ⟨⟨reads'', c''⟩, hcache, h⟩ := Option.map_eq_some_iff.mp h
    cases h
    let c₀ : Cache := { s.caches i with cachingMap := (s.caches i).cachingMap.emplace key ∅ }
    obtain ⟨es, jobs, hrun, hjobs⟩ := run_buildRecord backend enableCache (s := s.setCache i c₀)
      (i := i) (by rw [State.setCache_self]; exact hrecord)
    rw [startAll_setCache] at hrun
    obtain ⟨es', jobs', hrun', hjobs'⟩ := ih (s := s.startAll i c' jobs)
      (by rw [State.startAll, State.setCache_self]; exact hcache)
    rw [startAll_startAll] at hrun'
    refine ⟨.enter i key :: (es ++ es'), jobs ++ jobs', ?_, ?_⟩
    · exact run_cons_eq_some.mpr ⟨_, rfl, run_append_eq_some.mpr ⟨_, hrun, hrun'⟩⟩
    · rw [List.map_append, List.map_append, hjobs, hjobs']

/-! ## Agreement along a run

A step that is not a `perform` only moves held blocks from a callback to a cache, or drops them. In
the other direction, a write that changes a held block makes it disagree at once. -/

/-- Only a request that takes effect changes the storage, and only it adds to what is held. -/
theorem held_of_step (h : step backend enableCache s e = some s') (he : ∀ n, e ≠ .perform n) :
    s'.backend = s.backend ∧ ∀ key blockId buf, Held enableCache s' key blockId buf →
      Held enableCache s key blockId buf := by
  cases effect_of_step h with
  | write | fetch => exact ⟨rfl, fun _ _ _ ↦ held_of_start⟩
  | hit i input buf c hread =>
    exact ⟨rfl, fun _ _ _ ↦ held_of_shrinks (Cache.shrinks_readFromCache hread)⟩
  | miss i input c hread =>
    exact ⟨rfl, fun _ _ _ hheld ↦
      held_of_shrinks (Cache.shrinks_readFromCache hread) (held_of_start hheld)⟩
  | enter i key =>
    refine ⟨rfl, fun key' blockId buf ↦ held_of_setCache fun hbuf ↦ .inl ⟨i, ?_⟩⟩
    obtain ⟨blocks, hblocks, hbuf⟩ := FiniteMap.lookup₂_eq_some.mp hbuf
    rcases FiniteMap.lookup_of_emplace hblocks with hold | ⟨-, rfl, -⟩
    · exact FiniteMap.lookup₂_eq_some.mpr ⟨blocks, hold, hbuf⟩
    · cases hbuf
  | node i held entry c hset =>
    exact ⟨rfl, fun _ _ _ ↦ held_of_shrinks (Cache.shrinks_set hset)⟩
  | perform n => exact absurd rfl (he n)
  | finish n i job answer c hp hc =>
    refine ⟨rfl, fun key blockId buf hheld ↦ ?_⟩
    have hcallback (hbuf : c.cachingMap.lookup₂ key blockId = some buf) :
        Held enableCache s key blockId buf :=
      (lookup_callback (p := ⟨i, job, some answer⟩) rfl hc hbuf).imp (⟨i, ·⟩) fun hcarries ↦
        ⟨_, List.mem_of_getElem? hp, hcarries⟩
    refine held_of_setCache (i := i) (c := c) hcallback (hheld.imp_right ?_)
    rintro ⟨p, hp', hcarries⟩
    exact ⟨p, List.mem_of_mem_eraseIdx hp', hcarries⟩

omit [DecidableEq ι] in
private theorem held_of_perform {n : ℕ} {i : ι} {job : Job} {answer : Buf} {b : σ} {key : Key}
    {blockId : UInt32} {buf : Buf}
    (h : Held enableCache
      { s with backend := b, pending := s.pending.set n ⟨i, job, some answer⟩ } key blockId buf) :
    Held enableCache s key blockId buf ∨
      Pending.Carries enableCache ⟨i, job, some answer⟩ key blockId buf := by
  obtain hcached | ⟨p, hp, hcarries⟩ := h
  · exact .inl (.inl hcached)
  · rcases List.mem_or_eq_of_mem_set hp with hp | rfl
    · exact .inl (.inr ⟨p, hp, hcarries⟩)
    · exact .inr hcarries

omit [DecidableEq ι] in
theorem Held.perform {n : ℕ} {i : ι} {job : Job} (hp : s.pending[n]? = some ⟨i, job, none⟩)
    {answer : Buf} {b : σ} {key : Key} {blockId : UInt32} {buf : Buf}
    (h : Held enableCache s key blockId buf) :
    Held enableCache { s with backend := b, pending := s.pending.set n ⟨i, job, some answer⟩ } key
      blockId buf := by
  obtain hcached | ⟨p, hp', hcarries⟩ := h
  · exact .inl hcached
  · refine .inr ⟨p, ?_, hcarries⟩
    obtain ⟨m, hm⟩ := List.mem_iff_getElem?.mp hp'
    refine List.mem_of_getElem? (i := m) ?_
    rw [List.getElem?_set_ne, hm]
    rintro rfl
    -- the request itself carried nothing
    obtain ⟨answer', hanswer', -⟩ := hcarries
    rw [Option.some_inj.mp (hm.symm.trans hp)] at hanswer'
    cases hanswer'

/-- The storage agrees with what is held, and the requests are for whole blocks. -/
structure Inv (backend : Backend σ) (enableCache : Bool) (s : State ι σ) : Prop where
  agrees : Agrees backend enableCache s
  whole : ∀ p ∈ s.pending, p.job.WholeBlocks

private theorem whole_step (hwhole : e.WholeBlocks) (h : step backend enableCache s e = some s')
    (hs : ∀ p ∈ s.pending, p.job.WholeBlocks) : ∀ p ∈ s'.pending, p.job.WholeBlocks := by
  have hstart : ∀ (i : ι) (job : Job), job.WholeBlocks →
      ∀ p ∈ s.pending ++ [⟨i, job, none⟩], p.job.WholeBlocks := by
    intro i job hjob p hp
    rcases List.mem_append.mp hp with hp | hp
    · exact hs p hp
    · rw [List.mem_singleton.mp hp]
      exact hjob
  cases effect_of_step h with
  | write i | miss i | fetch i => exact hstart i _ hwhole
  | hit | enter | node => exact hs
  | perform n i job hp =>
    intro p hp'
    rcases List.mem_or_eq_of_mem_set hp' with hp' | rfl
    · exact hs p hp'
    · exact hs ⟨i, job, none⟩ (List.mem_of_getElem? hp)
  | finish => exact fun p hp' ↦ hs p (List.mem_of_mem_eraseIdx hp')

theorem Inv.step (hwhole : e.WholeBlocks) (hkeeps : Keeps enableCache s e)
    (h : step backend enableCache s e = some s') (hs : Inv backend enableCache s) :
    Inv backend enableCache s' := by
  refine ⟨?_, whole_step hwhole h hs.whole⟩
  by_cases he : ∃ n, e = .perform n
  · obtain ⟨n, rfl⟩ := he
    cases effect_of_step h with
    | perform n i job hp =>
      intro key blockId buf hheld
      have hjob := hs.whole _ (List.mem_of_getElem? hp)
      rcases held_of_perform hheld with hheld | hcarries
      · exact block_of_held hjob hp hkeeps hs.agrees hheld
      · exact block_of_carries hjob hcarries
  · obtain ⟨hb, hheld⟩ := held_of_step h fun n hn ↦ he ⟨n, hn⟩
    intro key blockId buf hbuf
    rw [hb]
    exact hs.agrees key blockId buf (hheld key blockId buf hbuf)

/-- A write that changes a block that is held leaves it stale. -/
theorem keeps_of_agrees (h : step backend enableCache s e = some s')
    (hs : Inv backend enableCache s) (hs' : Agrees backend enableCache s') :
    Keeps enableCache s e := by
  cases effect_of_step h with
  | perform n i job hp =>
    intro i' input hinput blockId buf hheld k hk hid
    cases hp.symm.trans hinput
    obtain ⟨hpos, hlen⟩ := hs.whole _ (List.mem_of_getElem? hp)
    rw [hs' input.uuid blockId buf (hheld.perform hp)]
    exact block_performWrite_of_mem hpos hlen hid (by omega)
  | _ => trivial

omit [DecidableEq ι] in
private theorem not_held_init (cachesize : UInt32) (policy : EvictionPolicy) (b : σ) (key : Key)
    (blockId : UInt32) (buf : Buf) :
    ¬Held enableCache (.init cachesize policy b : State ι σ) key blockId buf := by
  rintro (⟨i, hi⟩ | ⟨p, hp, -⟩)
  · cases hi
  · cases hp

omit [DecidableEq ι] in
theorem inv_init (cachesize : UInt32) (policy : EvictionPolicy) (b : σ) :
    Inv backend enableCache (.init cachesize policy b : State ι σ) where
  agrees key blockId buf h := (not_held_init cachesize policy b key blockId buf h).elim
  whole p hp := by cases hp

/-- **When the caches agree with the storage.** In every run of requests for whole blocks over any
number of caches, with the requests taking effect and ending in any order, all that is cached or
about to be cached is what is stored, in all states of the run, if and only if each write, at the
moment when it takes effect, writes into every block that is cached or about to be cached, over its
own connection or another, the bytes that are there. -/
theorem agrees_iff_keeps (backend : Backend σ) (enableCache : Bool) (cachesize : UInt32)
    (policy : EvictionPolicy) (b : σ) (es : List (Event ι)) (s : State ι σ)
    (hrun : run (step backend enableCache) (.init cachesize policy b) es = some s)
    (hwhole : ∀ e ∈ es, e.WholeBlocks) :
    Always (step backend enableCache) (Agrees backend enableCache) (.init cachesize policy b) es ↔
      Meets (step backend enableCache) (Keeps enableCache) (.init cachesize policy b) es :=
  always_iff_meets_under (I := Inv backend enableCache)
    (fun _ _ _ hwhole hkeeps h hs ↦ hs.step hwhole hkeeps h) (fun _ hs ↦ hs.agrees)
    (fun _ _ _ _ hs h hs' ↦ keeps_of_agrees h hs hs') (meets_of_forall_mem hwhole _) hrun
    (inv_init cachesize policy b)

/-- A block is written over one connection. -/
def writeFirst : List (Event Bool) :=
  [.request false (.write (oneBlock 0 7)), .perform 0, .finish 0]

/-- Then it is written over another. -/
def writeSecond : Event Bool := .request true (.write (oneBlock 0 8))

theorem agrees_iff_keeps_second : ∃ s,
    run (step Backend.memory true) (.init 8192 .lru fun _ _ ↦ 0) (writeFirst ++ [writeSecond,
      .perform 0]) = some s ∧
    ¬Always (step Backend.memory true) (Agrees Backend.memory true) (.init 8192 .lru fun _ _ ↦ 0)
      (writeFirst ++ [writeSecond, .perform 0]) := by
  obtain ⟨s, hs⟩ := Option.isSome_iff_exists.mp (show (run (step Backend.memory true)
    (.init 8192 .lru fun _ _ ↦ 0) (writeFirst ++ [writeSecond, .perform 0])).isSome
    by decide +kernel)
  obtain ⟨u, hu, hrest⟩ := run_append_eq_some.mp hs
  have hall : ∀ u ∈ run (step Backend.memory true) (.init 8192 .lru fun _ _ ↦ 0) writeFirst,
      u.pending.isEmpty ∧ ((u.caches false).cachingMap.lookup₂ (List.Vector.replicate 32 0) 0).map
        List.head? = some (some 7) := by decide +kernel
  obtain ⟨hpending, hcached⟩ := hall u hu
  obtain ⟨buf, hbuf, hhead⟩ := Option.map_eq_some_iff.mp hcached
  refine ⟨s, hs, fun halways ↦ ?_⟩
  have hmeets := (agrees_iff_keeps Backend.memory true 8192 .lru (fun _ _ ↦ 0) _ s hs
    (by decide +kernel)).mp halways
  have hkeeps := (((meets_append_iff hu).mp hmeets).2.2 _ rfl).1 true (oneBlock 0 8)
    (by rw [State.start, List.isEmpty_iff.mp hpending]; rfl) 0 buf (.inl ⟨false, hbuf⟩) 0
    (by decide +kernel) rfl
  rw [hkeeps] at hhead
  exact absurd hhead (by decide +kernel)

/-- It is read over the other connection. -/
def readSecond : List (Event Bool) :=
  [.request true (.read (readOne 0)), .perform 0, .finish 0]

end

end Slsfs.Datafunction.CacheSharing

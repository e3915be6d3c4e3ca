import Slsfs.Datafunction.Job

/-!
# A read and its messages

`storage_conf_ssbd_backend::start_read` sends one `get` for each block of the range and collects
the answers in a vector with one place for each block. The callback that finds every place filled
joins them and replies. A read of size zero is answered at once.

As with writes, `ReadJob.step` accepts any answer. `ReadJob.Inv` says that the vector holds exactly
the answers whose callbacks have run, so the reply is their concatenation in the order of the
blocks, whatever the order in which they came.
-/

namespace Slsfs.Datafunction

open LeveldbPack

/-- A read as `request_parser` presents it. -/
structure ReadRequest where
  uuid : Key
  position : UInt32
  size : UInt32
  deriving DecidableEq

/-- The rounds of the block loop. -/
def ReadRequest.chunks (blocksize : ℕ) (input : ReadRequest) : List Chunk :=
  splitBlocks blocksize input.position.toNat (input.position + input.size).toNat

theorem ReadRequest.chunks_of_size_zero {blocksize : ℕ} {input : ReadRequest}
    (h : input.size = 0) : input.chunks blocksize = [] := by
  rw [chunks, h, UInt32.add_zero, splitBlocks, Nat.sub_self]
  rfl

/-- The data of the answer the callback has seen. -/
def Life.body : Life → Option Buf
  | .done response => some response.data
  | _ => none

/-- A read with the vector its callbacks fill. -/
structure ReadJob where
  /-- The datafunction that runs it. -/
  coordinator : ℕ
  input : ReadRequest
  salt : ℕ → Salt
  /-- The rounds of the send loop done so far. -/
  sent : ℕ
  /-- `result_accumulator`: the bodies that are ready. -/
  accumulator : List (Option Buf)
  /-- The invocations of `next`. -/
  replies : List Buf
  life : ℕ → Life

namespace ReadJob

def chunks (cfg : Config) (job : ReadJob) : List Chunk := job.input.chunks cfg.blocksize

def start (cfg : Config) (coordinator : ℕ) (input : ReadRequest) (salt : ℕ → Salt) : ReadJob where
  coordinator
  input
  salt
  sent := 0
  accumulator := List.replicate (input.chunks cfg.blocksize).length none
  replies := if input.size = 0 then [[]] else []
  life _ := .unsent

def getPacket (job : ReadJob) (j : ℕ) (c : Chunk) : Packet :=
  Packet.createRequest job.input.uuid .get 0 c.blockid c.offset c.length (job.salt j)

/-- One round of the send loop. -/
def sendGet (cfg : Config) (job : ReadJob) : Option ReadJob :=
  match (job.chunks cfg)[job.sent]? with
  | none => none
  | some c =>
    some { job with
      sent := job.sent + 1
      life := Function.update job.life job.sent (.requested (job.getPacket job.sent c)) }

def answer (job : ReadJob) (j : ℕ) (response : Packet) : ReadJob :=
  { job with life := Function.update job.life j (.answered response) }

@[simp] theorem answer_life (job : ReadJob) (j : ℕ) (response : Packet) :
    (job.answer j response).life = Function.update job.life j (.answered response) := rfl

/-- The response callback of `start_read`. -/
def onBlock (job : ReadJob) (j : ℕ) (body : Buf) : ReadJob :=
  let accumulator := job.accumulator.set j (some body)
  if accumulator.all Option.isSome then
    { job with accumulator, replies := job.replies ++ [(accumulator.map (·.getD [])).flatten] }
  else { job with accumulator }

def callback (job : ReadJob) (j : ℕ) (response : Packet) : ReadJob :=
  { job with life := Function.update job.life j (.done response) }.onBlock j response.data

inductive Event where
  | send
  | answer (j : ℕ) (response : Packet)
  | callback (j : ℕ)

/-- What can happen to a read. -/
def step (cfg : Config) (job : ReadJob) : Event → Option ReadJob
  | .send => job.sendGet cfg
  | .answer j response =>
    match job.life j with
    | .requested _ => some (job.answer j response)
    | _ => none
  | .callback j =>
    match job.life j with
    | .answered response => some (job.callback j response)
    | _ => none

variable {cfg : Config} {job : ReadJob}

theorem step_cases {job' : ReadJob} {e : Event} (h : job.step cfg e = some job') :
    (∃ c, e = .send ∧ (job.chunks cfg)[job.sent]? = some c ∧
      job' = { job with
        sent := job.sent + 1
        life := Function.update job.life job.sent (.requested (job.getPacket job.sent c)) }) ∨
    (∃ j pack response, e = .answer j response ∧ job.life j = .requested pack ∧
      job' = job.answer j response) ∨
    (∃ j response, e = .callback j ∧ job.life j = .answered response ∧
      job' = job.callback j response) := by
  cases e with
  | send =>
    rw [step, sendGet] at h
    cases hc : (job.chunks cfg)[job.sent]? with
    | none => rw [hc] at h; cases h
    | some c =>
      rw [hc] at h
      cases h
      exact Or.inl ⟨c, rfl, rfl, rfl⟩
  | answer j response =>
    cases hlife : job.life j with
    | requested pack =>
      simp only [step, hlife, Option.some_inj] at h
      exact Or.inr (Or.inl ⟨j, pack, response, rfl, hlife, h.symm⟩)
    | unsent | answered | done => simp only [step, hlife, reduceCtorEq] at h
  | callback j =>
    cases hlife : job.life j with
    | answered response =>
      simp only [step, hlife, Option.some_inj] at h
      exact Or.inr (Or.inr ⟨j, response, rfl, hlife, h.symm⟩)
    | unsent | requested | done => simp only [step, hlife, reduceCtorEq] at h

section Callback

variable (job) (j : ℕ) (response : Packet)

@[simp] theorem callback_input : (job.callback j response).input = job.input := by
  simp only [callback, onBlock]; split <;> rfl

@[simp] theorem callback_coordinator :
    (job.callback j response).coordinator = job.coordinator := by
  simp only [callback, onBlock]; split <;> rfl

@[simp] theorem callback_salt : (job.callback j response).salt = job.salt := by
  simp only [callback, onBlock]; split <;> rfl

@[simp] theorem callback_sent : (job.callback j response).sent = job.sent := by
  simp only [callback, onBlock]; split <;> rfl

private theorem callback_life : (job.callback j response).life
    = Function.update job.life j (.done response) := by
  simp only [callback, onBlock]; split <;> rfl

private theorem callback_accumulator : (job.callback j response).accumulator
    = job.accumulator.set j (some response.data) := by
  simp only [callback, onBlock]; split <;> rfl

private theorem callback_replies : (job.callback j response).replies =
    job.replies ++
      if ((job.callback j response).accumulator).all Option.isSome then
        [((job.callback j response).accumulator.map (·.getD [])).flatten] else [] := by
  rw [callback_accumulator]
  simp only [callback, onBlock]
  split
  · rfl
  · exact (List.append_nil _).symm

end Callback

/-! ## The messages of a read, in every run

`Inv` says how far the read is: the gets of the first `sent` blocks are on their way, the places of
the vector that are filled are those whose callbacks have run, with the answers that these got, and
there is a reply once all of them are filled. Nothing is assumed about the servers. -/

/-- Which gets have been sent, what has been collected and what has been replied. -/
structure Inv (cfg : Config) (job : ReadJob) : Prop where
  sent_le : job.sent ≤ (job.chunks cfg).length
  get_sent : ∀ j, job.life j ≠ .unsent ↔ j < job.sent
  get_pack : ∀ j pack, job.life j = .requested pack →
    ∃ c, (job.chunks cfg)[j]? = some c ∧ pack = job.getPacket j c
  accumulator : job.accumulator
    = (List.range (job.chunks cfg).length).map fun j ↦ (job.life j).body
  replies : job.replies =
    if job.chunks cfg = [] then (if job.input.size = 0 then [[]] else [])
    else if job.accumulator.all Option.isSome then [(job.accumulator.map (·.getD [])).flatten]
    else []

theorem inv_start (coordinator : ℕ) (input : ReadRequest) (salt : ℕ → Salt) :
    Inv cfg (start cfg coordinator input salt) where
  sent_le := Nat.zero_le _
  get_sent j := by simp [start]
  get_pack j pack h := by cases h
  accumulator := by
    simp only [start, chunks, Life.body]
    rw [List.map_const', List.length_range]
  replies := by
    by_cases hnil : (start cfg coordinator input salt).chunks cfg = []
    · rw [if_pos hnil]
      rfl
    · have hsize : input.size ≠ 0 := fun hzero ↦ hnil (ReadRequest.chunks_of_size_zero hzero)
      obtain ⟨c, cs, hcs⟩ := List.exists_cons_of_ne_nil hnil
      have hacc : (start cfg coordinator input salt).accumulator
          = none :: List.replicate cs.length none := by
        change List.replicate ((start cfg coordinator input salt).chunks cfg).length none = _
        rw [hcs]
        rfl
      rw [if_neg hnil, hacc]
      exact if_neg hsize

private theorem body_update (life : ℕ → Life) {j : ℕ} {l : Life} (h : l.body = (life j).body) :
    (fun i ↦ (Function.update life j l i).body) = fun i ↦ (life i).body := by
  funext i
  by_cases hi : i = j
  · rw [hi, Function.update_self, h]
  · rw [Function.update_of_ne hi]

theorem inv_step (job : ReadJob) (e : Event) (job' : ReadJob) (h : job.step cfg e = some job')
    (hinv : Inv cfg job) : Inv cfg job' := by
  rcases step_cases h with ⟨c, -, hc, rfl⟩ | ⟨j, pack, response, -, hj, rfl⟩ |
    ⟨j, response, -, hj, rfl⟩
  · have hunsent : job.life job.sent = .unsent := by
      by_contra hne
      exact absurd ((hinv.get_sent _).mp hne) (lt_irrefl _)
    refine ⟨(List.getElem?_eq_some_iff.mp hc).1, fun i ↦ ?_, fun i pack hi ↦ ?_, ?_, hinv.replies⟩
    · dsimp only
      by_cases hi : i = job.sent
      · simp [hi]
      · rw [Function.update_of_ne hi, hinv.get_sent i]
        omega
    · dsimp only at hi
      by_cases hij : i = job.sent
      · subst hij
        rw [Function.update_self, Life.requested.injEq] at hi
        exact ⟨c, hc, hi.symm⟩
      · rw [Function.update_of_ne hij] at hi
        exact hinv.get_pack i pack hi
    · dsimp only
      rw [body_update job.life (by rw [hunsent]; rfl)]
      exact hinv.accumulator
  · refine ⟨hinv.sent_le, fun i ↦ ?_, fun i pack' hi ↦ ?_, ?_, hinv.replies⟩
    · refine Iff.trans ?_ (hinv.get_sent i)
      rw [answer_life]
      by_cases hi : i = j
      · simp [hi, hj]
      · rw [Function.update_of_ne hi]
    · rw [answer_life] at hi
      by_cases hij : i = j
      · rw [hij, Function.update_self] at hi
        cases hi
      · rw [Function.update_of_ne hij] at hi
        exact hinv.get_pack i pack' hi
    · rw [answer_life, body_update job.life (by rw [hj]; rfl)]
      exact hinv.accumulator
  · have hsent : j < job.sent := (hinv.get_sent j).mp (by rw [hj]; simp)
    have hlt : j < (job.chunks cfg).length := hsent.trans_le hinv.sent_le
    have hchunks : (job.callback j response).chunks cfg = job.chunks cfg := by
      rw [chunks, callback_input, chunks]
    have hacc : (job.callback j response).accumulator
        = (List.range ((job.callback j response).chunks cfg).length).map
            fun i ↦ ((job.callback j response).life i).body := by
      rw [callback_accumulator, callback_life, hchunks, hinv.accumulator]
      refine List.ext_getElem? fun i ↦ ?_
      rw [List.getElem?_set]
      by_cases hi : j = i
      · subst hi
        simp [hlt, Life.body]
      · rw [if_neg hi]
        by_cases hin : i < (job.chunks cfg).length
        · simp [hin, Function.update_of_ne (Ne.symm hi)]
        · simp [hin]
    refine ⟨by rw [callback_sent, hchunks]; exact hinv.sent_le, fun i ↦ ?_, fun i pack hi ↦ ?_,
      hacc, ?_⟩
    · rw [callback_life, callback_sent, ← hinv.get_sent i]
      by_cases hi : i = j
      · simp [hi, hj]
      · rw [Function.update_of_ne hi]
    · rw [callback_life] at hi
      by_cases hij : i = j
      · rw [hij, Function.update_self] at hi
        cases hi
      · rw [Function.update_of_ne hij] at hi
        obtain ⟨c, hc, rfl⟩ := hinv.get_pack i pack hi
        exact ⟨c, by rw [hchunks, hc], by simp [getPacket]⟩
    · -- the place of `j` was empty, so nothing has been replied yet
      have hne : job.chunks cfg ≠ [] := List.ne_nil_of_length_pos (by omega)
      have hempty : job.accumulator.all Option.isSome = false := by
        rw [hinv.accumulator, List.all_eq_false]
        exact ⟨none, List.mem_map.mpr ⟨j, List.mem_range.mpr hlt, by rw [hj]; rfl⟩, by simp⟩
      have hreplies : job.replies = [] := by
        rw [hinv.replies, if_neg hne, hempty]
        rfl
      rw [callback_replies, hreplies, hchunks, if_neg hne]
      rfl

private theorem reply_step {job' : ReadJob} {e : Event} (h : job.step cfg e = some job') {i : ℕ}
    {response : Packet} (hr : (job'.life i).reply = some response) :
    (job.life i).reply = some response ∨ e = .answer i response := by
  rcases step_cases h with ⟨c, -, hc, rfl⟩ | ⟨j, pack, answer, rfl, hj, rfl⟩ |
    ⟨j, answer, -, hj, rfl⟩
  · rcases Life.reply_update hr with hold | ⟨-, hnew⟩
    · exact Or.inl hold
    · cases hnew
  · rw [answer_life] at hr
    rcases Life.reply_update hr with hold | ⟨rfl, hnew⟩
    · exact Or.inl hold
    · rw [Life.reply, Option.some_inj] at hnew
      exact Or.inr (by rw [hnew])
  · rw [callback_life] at hr
    rcases Life.reply_update hr with hold | ⟨rfl, hnew⟩
    · exact Or.inl hold
    · exact Or.inl (by rw [hj]; exact hnew)

theorem reply_run {job' : ReadJob} {events : List Event}
    (h : run (step cfg) job events = some job') {i : ℕ} {response : Packet}
    (hr : (job'.life i).reply = some response) :
    (job.life i).reply = some response ∨ .answer i response ∈ events := by
  induction events generalizing job with
  | nil =>
    rw [run_nil, Option.some_inj] at h
    exact Or.inl (h ▸ hr)
  | cons e es ih =>
    obtain ⟨mid, hmid, hrest⟩ := run_cons_eq_some.mp h
    rcases ih hrest with hmem | hmem
    · rcases reply_step hmid hmem with hold | rfl
      · exact Or.inl hold
      · exact Or.inr List.mem_cons_self
    · exact Or.inr (List.mem_cons_of_mem _ hmem)

/-! ## A read only moves on

As for writes: an answer that has come stays, and the request is the same all along. -/

/-- Later on: the request is the same and answers stay. -/
structure Le (job job' : ReadJob) : Prop where
  input : job'.input = job.input
  reply : ∀ j response, (job.life j).reply = some response →
    (job'.life j).reply = some response

theorem Le.refl (job : ReadJob) : job.Le job := ⟨rfl, fun _ _ h ↦ h⟩

theorem Le.trans {job job' job'' : ReadJob} (h : job.Le job') (h' : job'.Le job'') :
    job.Le job'' :=
  ⟨h'.input.trans h.input, fun j r hr ↦ h'.reply j r (h.reply j r hr)⟩

private theorem reply_update {life : ℕ → Life} {i j : ℕ} {l : Life} {response : Packet}
    (hl : ∀ response, (life j).reply = some response → l.reply = some response)
    (h : (life i).reply = some response) :
    (Function.update life j l i).reply = some response := by
  by_cases hi : i = j
  · rw [hi, Function.update_self]
    exact hl response (hi ▸ h)
  · rwa [Function.update_of_ne hi]

theorem le_step (hinv : Inv cfg job) {job' : ReadJob} {e : Event}
    (h : job.step cfg e = some job') : job.Le job' := by
  rcases step_cases h with ⟨c, -, hc, rfl⟩ | ⟨j, pack, response, -, hj, rfl⟩ |
    ⟨j, response, -, hj, rfl⟩
  · have hunsent : job.life job.sent = .unsent := by
      by_contra hne
      exact absurd ((hinv.get_sent _).mp hne) (lt_irrefl _)
    exact ⟨rfl, fun i r hr ↦ reply_update (by rw [hunsent]; exact fun _ h ↦ nomatch h) hr⟩
  · exact ⟨rfl, fun i r hr ↦ reply_update (by rw [hj]; exact fun _ h ↦ nomatch h) hr⟩
  · refine ⟨callback_input job j response, fun i r hr ↦ ?_⟩
    rw [callback_life]
    exact reply_update (by rw [hj]; exact fun _ h ↦ h) hr

theorem le_run {job' : ReadJob} {events : List Event} (hinv : Inv cfg job)
    (h : run (step cfg) job events = some job') : job.Le job' := by
  induction events generalizing job with
  | nil =>
    rw [run_nil, Option.some_inj] at h
    rw [h]
    exact Le.refl _
  | cons e es ih =>
    obtain ⟨mid, hmid, hrest⟩ := run_cons_eq_some.mp h
    exact (le_step hinv hmid).trans (ih (inv_step job e mid hmid hinv) hrest)

end ReadJob

end Slsfs.Datafunction

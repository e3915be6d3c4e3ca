import Slsfs.Datafunction.BlockLoop
import Slsfs.Lib.Count
import Slsfs.Lib.Run
import Slsfs.LeveldbPack

/-!
# The coordinator of a write

`storage_conf_ssbd_backend::start_2pc_prepare` sends one prepare for each block of the range and
counts the answers that are still missing in `outstanding_requests`. The callback that brings the
counter to zero replies to the caller and calls `start_2pc_commit`.

The counter is raised inside the send loop, one block at a time, while the callbacks of the blocks
already sent lower it on other threads. So it can reach zero before the loop is over.
`commit_called_twice` is such a run, with two blocks. `safe_iff_loopFirst` says that this is all
that can go wrong: the coordinator decides once, on all votes, exactly if no callback runs as the
only outstanding one while the loop still has blocks to send.

A `Ballot` is one write and the votes its callbacks have seen. What holds of it in every run,
with or without that condition, is in `Ballot.Inv`.
-/

namespace Slsfs.Datafunction

open LeveldbPack

/-- A write as `request_parser` presents it. -/
structure WriteRequest where
  uuid : Key
  position : UInt32
  data : Buf
  /-- The size is a 32-bit field of the request. -/
  size_lt : data.length < 2 ^ 32
  deriving DecidableEq

namespace WriteRequest

def size (input : WriteRequest) : UInt32 := UInt32.ofNat input.data.length

/-- The rounds of the block loop, `currentpos` running from `realpos` to `endpos`. The sum is
computed in 32 bits. -/
def chunks (blocksize : ℕ) (input : WriteRequest) : List Chunk :=
  splitBlocks blocksize input.position.toNat (input.position + input.size).toNat

/-- The bytes copied into the prepare of a block. -/
def slice (input : WriteRequest) (c : Chunk) : Buf :=
  (input.data.drop c.bufferOffset).take c.length

end WriteRequest

/-- One call of `start_2pc_commit`. -/
structure CommitCall where
  allSsbdAgree : Bool
  outstandingRequests : ℤ
  deriving DecidableEq

/-- One call of `start_2pc_prepare`, with the variables its callbacks share. -/
structure Write where
  /-- The datafunction that runs it. -/
  coordinator : ℕ
  input : WriteRequest
  selectedVersion : UInt32
  /-- The rounds of the send loop done so far. -/
  sent : ℕ
  outstandingRequests : ℤ
  allSsbdAgree : Bool
  /-- The invocations of `next`. -/
  replies : List Buf
  /-- The calls of `start_2pc_commit`. -/
  commits : List CommitCall
  deriving DecidableEq

namespace Write

def start (coordinator : ℕ) (input : WriteRequest) (version : UInt32) : Write :=
  ⟨coordinator, input, version, 0, 0, true, [], []⟩

def ok : Buf := ascii "OK"

def foundPending : Buf := ascii "Error: Found Pending 2PC Log"

/-- The counters after one more round of the send loop. -/
def sendOne (w : Write) : Write :=
  { w with sent := w.sent + 1, outstandingRequests := w.outstandingRequests + 1 }

/-- The response callback of `start_2pc_prepare`. Anything but an agree counts against. -/
def onVote (blocksize : ℕ) (w : Write) (type : MsgT) : Write :=
  let agree := w.allSsbdAgree && decide (type = .twoPcPrepareAgree)
  let outstanding := w.outstandingRequests - 1
  let w := { w with allSsbdAgree := agree, outstandingRequests := outstanding }
  -- the answer that brings the counter to zero decides, also while the loop still sends
  if outstanding = 0 then
    { w with
      replies := w.replies ++ [if agree then ok else foundPending]
      commits := w.commits ++ [⟨agree, (w.input.chunks blocksize).length⟩] }
  else w

@[simp] theorem sendOne_input (w : Write) : w.sendOne.input = w.input := rfl
@[simp] theorem sendOne_sent (w : Write) : w.sendOne.sent = w.sent + 1 := rfl
@[simp] theorem sendOne_replies (w : Write) : w.sendOne.replies = w.replies := rfl
@[simp] theorem sendOne_commits (w : Write) : w.sendOne.commits = w.commits := rfl
@[simp] theorem sendOne_allSsbdAgree (w : Write) :
    w.sendOne.allSsbdAgree = w.allSsbdAgree := rfl
@[simp] theorem sendOne_outstanding (w : Write) :
    w.sendOne.outstandingRequests = w.outstandingRequests + 1 := rfl

section OnVote

variable (blocksize : ℕ) (w : Write) (type : MsgT)

@[simp] theorem onVote_input : (w.onVote blocksize type).input = w.input := by
  simp only [onVote]; split <;> rfl

@[simp] theorem onVote_coordinator :
    (w.onVote blocksize type).coordinator = w.coordinator := by
  simp only [onVote]; split <;> rfl

@[simp] theorem onVote_selectedVersion :
    (w.onVote blocksize type).selectedVersion = w.selectedVersion := by
  simp only [onVote]; split <;> rfl

@[simp] theorem onVote_sent : (w.onVote blocksize type).sent = w.sent := by
  simp only [onVote]; split <;> rfl

@[simp] theorem onVote_outstanding :
    (w.onVote blocksize type).outstandingRequests = w.outstandingRequests - 1 := by
  simp only [onVote]; split <;> rfl

@[simp] theorem onVote_allSsbdAgree : (w.onVote blocksize type).allSsbdAgree
    = (w.allSsbdAgree && decide (type = .twoPcPrepareAgree)) := by
  simp only [onVote]; split <;> rfl

theorem onVote_commits : (w.onVote blocksize type).commits =
    if w.outstandingRequests = 1 then
      w.commits ++ [⟨w.allSsbdAgree && decide (type = .twoPcPrepareAgree),
        (w.input.chunks blocksize).length⟩]
    else w.commits := by
  by_cases h : w.outstandingRequests = 1
  · simp [onVote, h]
  · rw [if_neg h, onVote, if_neg (by omega)]

private theorem onVote_replies : (w.onVote blocksize type).replies =
    if w.outstandingRequests = 1 then
      w.replies ++ [if w.allSsbdAgree && decide (type = .twoPcPrepareAgree)
        then ok else foundPending]
    else w.replies := by
  by_cases h : w.outstandingRequests = 1
  · simp [onVote, h]
  · rw [if_neg h, onVote, if_neg (by omega)]

end OnVote

end Write

/-! ## All orders of sending and answering

A `Ballot` takes two kinds of steps: the loop sends the next prepare, or the callback of one that
has been sent runs with an answer of any type. A callback is one step here; `Threaded` takes it
apart. -/

/-- A write and the votes its callbacks have seen, by the index of the block. -/
structure Ballot where
  write : Write
  votes : ℕ → Option MsgT

namespace Ballot

/-- One round of the send loop, or the callback of block `i` with an answer of some type. -/
inductive Event where
  | send
  | respond (i : ℕ) (type : MsgT)
  deriving DecidableEq

variable (blocksize : ℕ)

/-- How many blocks the range covers. -/
def blocks (s : Ballot) : ℕ := (s.write.input.chunks blocksize).length

def step (s : Ballot) : Event → Option Ballot
  | .send =>
    if s.write.sent < s.blocks blocksize then some { s with write := s.write.sendOne } else none
  | .respond i type =>
    if i < s.write.sent ∧ s.votes i = none then
      some ⟨s.write.onVote blocksize type, Function.update s.votes i (some type)⟩
    else none

def start (coordinator : ℕ) (input : WriteRequest) (version : UInt32) : Ballot :=
  ⟨.start coordinator input version, fun _ ↦ none⟩

/-- The law: one decision and one reply, made when all blocks have voted, and in favour only if all
of them agreed. -/
structure Safe (s : Ballot) : Prop where
  commit_once : s.write.commits.length ≤ 1
  reply_once : s.write.replies.length ≤ 1
  commit_last : s.write.commits ≠ [] → ∀ i < s.blocks blocksize, s.votes i ≠ none
  commit_agree : (∃ c ∈ s.write.commits, c.allSsbdAgree = true) →
    ∀ i < s.blocks blocksize, s.votes i = some .twoPcPrepareAgree
  finished : (∀ i < s.blocks blocksize, s.votes i ≠ none) →
    s.write.commits.length = 1 ∧ s.write.replies.length = 1

/-- A callback runs only if the loop is over or another block already sent has not answered. -/
def LoopFirst (s : Ballot) : Event → Prop
  | .send => True
  | .respond i _ =>
    s.write.sent = s.blocks blocksize ∨ ∃ j < s.write.sent, j ≠ i ∧ s.votes j = none

/-- How many of the blocks sent have not answered. -/
def unanswered (s : Ballot) : ℕ := countBelow (fun i ↦ (s.votes i).isNone) s.write.sent

/-! ## What holds in every run

The counter is the number of unanswered prepares among those sent, also in the runs that decide too
early, and the flag says whether an answer has been against the write. A decision is made with
whatever is known at that time. -/

variable {blocksize}

theorem step_cases {s s' : Ballot} {e : Event} (h : step blocksize s e = some s') :
    (e = .send ∧ s.write.sent < s.blocks blocksize ∧ s'.votes = s.votes ∧
      s'.write = s.write.sendOne) ∨
    (∃ i type, e = .respond i type ∧ i < s.write.sent ∧ s.votes i = none ∧
      s'.votes = Function.update s.votes i (some type) ∧
      s'.write = s.write.onVote blocksize type) := by
  cases e with
  | send =>
    by_cases hlt : s.write.sent < s.blocks blocksize
    · rw [step, if_pos hlt, Option.some_inj] at h
      subst h
      exact Or.inl ⟨rfl, hlt, rfl, rfl⟩
    · rw [step, if_neg hlt] at h
      cases h
  | respond i type =>
    by_cases hi : i < s.write.sent ∧ s.votes i = none
    · rw [step, if_pos hi, Option.some_inj] at h
      subst h
      exact Or.inr ⟨i, type, rfl, hi.1, hi.2, rfl, rfl⟩
    · rw [step, if_neg hi] at h
      cases h

theorem blocks_step {s s' : Ballot} {e : Event} (h : step blocksize s e = some s') :
    s'.blocks blocksize = s.blocks blocksize := by
  rcases step_cases h with ⟨-, -, -, hwrite⟩ | ⟨i, type, -, -, -, -, hwrite⟩
  · rw [blocks, hwrite, Write.sendOne_input, blocks]
  · rw [blocks, hwrite, Write.onVote_input, blocks]

/-- The counters say what they are meant to say, whatever the order. -/
structure Inv (blocksize : ℕ) (s : Ballot) : Prop where
  sent_le : s.write.sent ≤ s.blocks blocksize
  unsent : ∀ i, s.write.sent ≤ i → s.votes i = none
  outstanding : s.write.outstandingRequests = s.unanswered
  agree : s.write.allSsbdAgree = true ↔
    ∀ i type, s.votes i = some type → type = .twoPcPrepareAgree
  replies : s.write.replies = s.write.commits.map fun c ↦
    if c.allSsbdAgree then Write.ok else Write.foundPending
  /-- A decision against the write is never forgotten. -/
  refused : ∀ c ∈ s.write.commits, s.write.allSsbdAgree = true → c.allSsbdAgree = true
  /-- Whenever all blocks sent have answered, a decision has been made. -/
  decided : 0 < s.write.sent → (∀ i < s.write.sent, s.votes i ≠ none) → s.write.commits ≠ []
  opened : s.write.commits ≠ [] → 0 < s.write.sent

theorem inv_start (coordinator : ℕ) (input : WriteRequest) (version : UInt32) :
    Inv blocksize (start coordinator input version) where
  sent_le := Nat.zero_le _
  unsent _ _ := rfl
  outstanding := rfl
  agree := ⟨fun _ _ _ h ↦ (nomatch h), fun _ ↦ rfl⟩
  replies := rfl
  refused c hc := by cases hc
  decided h := by cases h
  opened h := absurd rfl h

private theorem countBelow_isNone_eq_zero {votes : ℕ → Option MsgT} {n : ℕ} :
    countBelow (fun j ↦ (votes j).isNone) n = 0 ↔ ∀ j < n, votes j ≠ none := by
  rw [countBelow_eq_zero]
  refine forall₂_congr fun j _ ↦ ?_
  rw [Option.isNone_eq_false_iff, Option.isSome_iff_ne_none]

private theorem unanswered_respond {s : Ballot} {i : ℕ} (hi : i < s.write.sent)
    (hvote : s.votes i = none) (type : MsgT) :
    s.unanswered = countBelow (fun j ↦ (Function.update s.votes i (some type) j).isNone)
      s.write.sent + 1 := by
  refine countBelow_eq_add_one hi (by rw [hvote]; rfl) (by rw [Function.update_self]; rfl) ?_
  intro j hj
  rw [Function.update_of_ne hj]

theorem outstanding_eq_one {s : Ballot} (hout : s.write.outstandingRequests = s.unanswered) {i : ℕ}
    (hi : i < s.write.sent) (hnone : s.votes i = none)
    (hothers : ∀ j < s.write.sent, j ≠ i → s.votes j ≠ none) :
    s.write.outstandingRequests = 1 := by
  have hanswered : ∀ j < s.write.sent, Function.update s.votes i (some .err) j ≠ none := by
    intro j hj
    by_cases hji : j = i
    · rw [hji, Function.update_self]
      exact Option.some_ne_none _
    · rw [Function.update_of_ne hji]
      exact hothers j hj hji
  rw [hout, unanswered_respond hi hnone .err, countBelow_isNone_eq_zero.mpr hanswered]
  rfl

theorem inv_step (s : Ballot) (e : Event) (s' : Ballot) (h : step blocksize s e = some s')
    (hinv : Inv blocksize s) : Inv blocksize s' := by
  have hblocks := blocks_step h
  rcases step_cases h with ⟨-, hlt, hvotes, hwrite⟩ | ⟨i, type, -, hi, hnone, hvotes, hwrite⟩
  · have hlast : s.votes s.write.sent = none := hinv.unsent _ le_rfl
    refine ⟨?_, ?_, ?_, ?_, ?_, ?_, ?_, ?_⟩
    · rw [hblocks, hwrite]; exact hlt
    · intro i hi
      rw [hwrite, Write.sendOne_sent] at hi
      rw [hvotes]
      exact hinv.unsent i (by omega)
    · rw [unanswered, hwrite, Write.sendOne_outstanding, Write.sendOne_sent, hvotes,
        countBelow_succ, hlast, hinv.outstanding]
      rfl
    · rw [hwrite, Write.sendOne_allSsbdAgree, hvotes]
      exact hinv.agree
    · rw [hwrite]; exact hinv.replies
    · rw [hwrite]; exact hinv.refused
    · intro _ hall
      rw [hwrite, Write.sendOne_sent, hvotes] at hall
      exact absurd hlast (hall _ (Nat.lt_succ_self _))
    · rw [hwrite, Write.sendOne_sent]
      exact fun _ ↦ Nat.succ_pos _
  · have hcount := unanswered_respond hi hnone type
    have hout := hinv.outstanding
    refine ⟨?_, ?_, ?_, ?_, ?_, ?_, ?_, ?_⟩
    · rw [hblocks, hwrite, Write.onVote_sent]
      exact hinv.sent_le
    · intro j hj
      rw [hwrite, Write.onVote_sent] at hj
      rw [hvotes, Function.update_of_ne (by omega)]
      exact hinv.unsent j hj
    · rw [unanswered, hwrite, Write.onVote_outstanding, Write.onVote_sent, hvotes, hout, hcount]
      omega
    · rw [hwrite, Write.onVote_allSsbdAgree, hvotes, Bool.and_eq_true, decide_eq_true_iff,
        hinv.agree]
      constructor
      · rintro ⟨hall, htype⟩ j t hj
        by_cases hji : j = i
        · rw [hji, Function.update_self, Option.some_inj] at hj
          rw [← hj, htype]
        · rw [Function.update_of_ne hji] at hj
          exact hall j t hj
      · intro hall
        refine ⟨fun j t hj ↦ hall j t ?_, hall i type (Function.update_self _ _ _)⟩
        rwa [Function.update_of_ne]
        rintro rfl
        rw [hnone] at hj
        cases hj
    · rw [hwrite, Write.onVote_replies, Write.onVote_commits, hinv.replies]
      split <;> simp
    · intro c hc hagree
      rw [hwrite, Write.onVote_allSsbdAgree] at hagree
      rw [hwrite, Write.onVote_commits] at hc
      have hold : s.write.allSsbdAgree = true := (Bool.and_eq_true_iff.mp hagree).1
      split at hc
      · rcases List.mem_append.mp hc with hc | hc
        · exact hinv.refused c hc hold
        · rw [List.mem_singleton.mp hc]
          exact hagree
      · exact hinv.refused c hc hold
    · intro _ hall
      rw [hwrite, Write.onVote_sent, hvotes] at hall
      have hzero := countBelow_isNone_eq_zero.mpr hall
      rw [hwrite, Write.onVote_commits, if_pos (by rw [hout, hcount, hzero]; rfl)]
      simp
    · rw [hwrite, Write.onVote_sent]
      exact fun _ ↦ Nat.zero_lt_of_lt hi

/-! ## One decision if the loop is first

Under the condition the counter does not come to zero before the last prepare has been sent. So the
one decision is made by the last callback, with all votes. -/

/-- While a vote is missing nothing has been decided, and with the last vote the decision is made,
once. -/
structure Once (blocksize : ℕ) (s : Ballot) : Prop where
  open_ : ∀ i < s.blocks blocksize, s.votes i = none → s.write.commits = []
  closed : (∀ i < s.blocks blocksize, s.votes i ≠ none) →
    s.write.commits.map CommitCall.allSsbdAgree = [s.write.allSsbdAgree]

theorem once_start {coordinator : ℕ} {input : WriteRequest} {version : UInt32}
    (hpos : input.chunks blocksize ≠ []) : Once blocksize (start coordinator input version) where
  open_ _ _ _ := rfl
  closed h := absurd rfl (h 0 (List.length_pos_iff.mpr hpos))

theorem once_step (s : Ballot) (e : Event) (s' : Ballot) (hfirst : LoopFirst blocksize s e)
    (h : step blocksize s e = some s') (hinv : Inv blocksize s) (honce : Once blocksize s) :
    Once blocksize s' := by
  have hblocks := blocks_step h
  rcases step_cases h with ⟨-, hlt, hvotes, hwrite⟩ | ⟨i, type, rfl, hi, hnone, hvotes, hwrite⟩
  · refine ⟨fun i hi hn ↦ ?_, fun hall ↦ ?_⟩
    · rw [hwrite]
      exact honce.open_ i (by rwa [← hblocks]) (by rwa [← hvotes])
    · rw [hwrite]
      exact honce.closed (by rwa [← hblocks, ← hvotes])
  · have hcommits : s.write.commits = [] :=
      honce.open_ i (hi.trans_le hinv.sent_le) hnone
    have hcount := unanswered_respond hi hnone type
    have hout := hinv.outstanding
    have hsame : ∀ j, j ≠ i → s'.votes j = s.votes j := by
      intro j hj
      rw [hvotes, Function.update_of_ne hj]
    by_cases hone : s.write.outstandingRequests = 1
    · -- the counter reaches zero: nobody else is outstanding, so the loop is over
      have hzero : ∀ j < s.write.sent, s'.votes j ≠ none := by
        intro j hj hn
        rw [hvotes] at hn
        have := countBelow_pos (p := fun j ↦ (Function.update s.votes i (some type) j).isNone)
          hj (by rw [hn]; rfl)
        omega
      have hall : s.write.sent = s.blocks blocksize := by
        rcases hfirst with hall | ⟨j, hj, hji, hn⟩
        · exact hall
        · exact absurd (by rw [hsame j hji, hn]) (hzero j hj)
      refine ⟨fun j hj hn ↦ ?_, fun _ ↦ ?_⟩
      · rw [hblocks, ← hall] at hj
        exact absurd hn (hzero j hj)
      · rw [hwrite, Write.onVote_commits, if_pos hone, hcommits, Write.onVote_allSsbdAgree]
        rfl
    · -- somebody else is outstanding
      have hkeep : s'.write.commits = [] := by
        rw [hwrite, Write.onVote_commits, if_neg hone, hcommits]
      refine ⟨fun _ _ _ ↦ hkeep, fun hall ↦ ?_⟩
      rw [hblocks, hvotes] at hall
      have hzero := countBelow_isNone_eq_zero.mpr fun j hj ↦ hall j (hj.trans_le hinv.sent_le)
      rw [hcount, hzero] at hout
      exact absurd hout hone

theorem safe_of_once {s : Ballot} (hinv : Inv blocksize s) (honce : Once blocksize s) :
    Safe blocksize s := by
  have hlen : s.write.replies.length = s.write.commits.length := by
    rw [hinv.replies, List.length_map]
  by_cases hall : ∀ i < s.blocks blocksize, s.votes i ≠ none
  · have hclosed := honce.closed hall
    have hone : s.write.commits.length = 1 := by
      rw [← List.length_map (f := CommitCall.allSsbdAgree), hclosed]
      rfl
    refine ⟨hone.le, by omega, fun _ ↦ hall, ?_, fun _ ↦ ⟨hone, by omega⟩⟩
    rintro ⟨c, hc, hagree⟩ i hi
    have hmem := List.mem_map_of_mem (f := CommitCall.allSsbdAgree) hc
    rw [hclosed, List.mem_singleton, hagree] at hmem
    obtain ⟨type, htype⟩ := Option.ne_none_iff_exists'.mp (hall i hi)
    rw [htype, hinv.agree.mp hmem.symm i type htype]
  · push Not at hall
    obtain ⟨i, hi, hn⟩ := hall
    have hnil := honce.open_ i hi hn
    refine ⟨by rw [hnil]; exact Nat.zero_le _, by rw [hlen, hnil]; exact Nat.zero_le _,
      fun h ↦ absurd hnil h, ?_, fun h ↦ absurd hn (h i hi)⟩
    rintro ⟨c, hc, -⟩
    rw [hnil] at hc
    cases hc

/-- A callback that empties the counter too early makes a decision without the votes of the blocks
still to be sent. -/
theorem loopFirst_of_safe (s : Ballot) (e : Event) (s' : Ballot) (hinv : Inv blocksize s)
    (h : step blocksize s e = some s') (hsafe : Safe blocksize s') : LoopFirst blocksize s e := by
  have hblocks := blocks_step h
  rcases step_cases h with ⟨rfl, -⟩ | ⟨i, type, rfl, hi, hnone, hvotes, hwrite⟩
  · trivial
  · by_contra hfirst
    rw [LoopFirst, not_or] at hfirst
    obtain ⟨hloop, hothers⟩ := hfirst
    push Not at hothers
    have hlt : s.write.sent < s.blocks blocksize := lt_of_le_of_ne hinv.sent_le hloop
    have hone : s.write.outstandingRequests = 1 :=
      outstanding_eq_one hinv.outstanding hi hnone hothers
    refine hsafe.commit_last ?_ s.write.sent (by rwa [hblocks]) ?_
    · rw [hwrite, Write.onVote_commits, if_pos hone]
      simp
    · rw [hvotes, Function.update_of_ne (by omega)]
      exact hinv.unsent _ le_rfl

end Ballot

open Ballot

/-- **The coordinator decides once and on all votes, exactly if the send loop is first.** In every
run, the law holds in all states reached if and only if every callback runs after the loop or while
another block already sent has not answered. -/
theorem safe_iff_loopFirst (blocksize coordinator : ℕ) (input : WriteRequest) (version : UInt32)
    (hpos : input.chunks blocksize ≠ []) (events : List Event) (s : Ballot)
    (hrun : run (step blocksize) (start coordinator input version) events = some s) :
    Always (step blocksize) (Safe blocksize) (start coordinator input version) events ↔
      Meets (step blocksize) (LoopFirst blocksize) (start coordinator input version) events :=
  always_iff_meets (I := fun s ↦ Ballot.Inv blocksize s ∧ Once blocksize s)
    (fun s e s' hfirst h hI ↦ ⟨Ballot.inv_step s e s' h hI.1, once_step s e s' hfirst h hI.1 hI.2⟩)
    (fun _ hI ↦ safe_of_once hI.1 hI.2)
    (fun s e s' hI h hsafe ↦ loopFirst_of_safe s e s' hI.1 h hsafe) hrun
    ⟨inv_start coordinator input version, once_start hpos⟩

/-! ## The run that breaks it -/

/-- Two bytes at the start of the file whose id is all zeros. -/
def twoBytes : WriteRequest := ⟨List.Vector.replicate 32 0, 0, [1, 2], by decide⟩

/-- Both blocks are sent before the first answer: the law holds all along. -/
theorem safe_sends_first :
    ∃ s, run (step 1) (start 0 twoBytes 1)
        [.send, .send, .respond 1 .twoPcPrepareAgree, .respond 0 .twoPcPrepareAgree] = some s ∧
      Always (step 1) (Safe 1) (start 0 twoBytes 1)
        [.send, .send, .respond 1 .twoPcPrepareAgree, .respond 0 .twoPcPrepareAgree] := by
  refine ⟨_, rfl, (safe_iff_loopFirst 1 0 twoBytes 1 (by decide) _ _ rfl).mpr ?_⟩
  refine ⟨trivial, fun s hs ↦ ?_⟩
  cases hs
  refine ⟨trivial, fun s hs ↦ ?_⟩
  cases hs
  refine ⟨Or.inl (by decide), fun s hs ↦ ?_⟩
  cases hs
  exact ⟨Or.inl (by decide), fun s hs ↦ trivial⟩

/-- **The first block answers before the second is sent.** The counter goes up to one and back to
zero twice, so there are two decisions and two replies. -/
theorem commit_called_twice :
    ¬∀ (blocksize coordinator : ℕ) (input : WriteRequest) (version : UInt32),
      input.chunks blocksize ≠ [] → ∀ (events : List Event) (s : Ballot),
      run (step blocksize) (start coordinator input version) events = some s →
        Safe blocksize s := by
  intro h
  have hsafe := h 1 0 twoBytes 1 (by decide)
    [.send, .respond 0 .twoPcPrepareAgree, .send, .respond 1 .twoPcPrepareAgree] _ rfl
  exact absurd hsafe.commit_once (by decide)

end Slsfs.Datafunction

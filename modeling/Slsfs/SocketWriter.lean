import Slsfs.Lib.Run

/-!
# The socket writer

`socket_writer::v1` writes packets to a socket from any number of threads. A caller pushes its
packet and tests `is_writing_`. If nobody is writing it sets the flag, pops a packet and hands it to
`async_write`; the handler of the write pops the next one, and the flag is cleared when there is
none. Between the test and the store, and between the failed pop and the store, another thread can
test the flag: then two of them write, or a packet stays in the queue.

Every access to the queue or to the flag is a step of its own. Handlers run on a strand, one at a
time. `Exclusive` says who has the turn to write, if it is one thread at a time.
-/

namespace Slsfs.SocketWriter

variable {P : Type*}

/-- The threads inside the class: a call of `start_write_socket`, or a handler on the strand. -/
inductive Thread where
  | caller (id : ℕ)
  | handler
  deriving DecidableEq

/-- What a thread that writes does next. -/
inductive Busy (P : Type*) where
  /-- `is_writing_.store(true)`. -/
  | set
  /-- `write_queue_.try_pop`. -/
  | pop
  /-- `async_write` of the packet it popped. -/
  | hand (packet : P)
  /-- `is_writing_.store(false)`, as there was no packet. -/
  | clear
  deriving DecidableEq

/-- What a thread does next. -/
inductive Phase (P : Type*) where
  | idle
  /-- Test `is_writing_`. -/
  | test
  | busy (b : Busy P)
  deriving DecidableEq

structure State (P : Type*) where
  writeQueue : List P
  isWriting : Bool
  phase : Thread → Phase P
  /-- The writes that are not over. -/
  inFlight : List P
  /-- The handlers of completed writes that have not run. -/
  handlers : ℕ
  /-- The packets in the order they were pushed. -/
  pushed : List P
  /-- The packets in the order they were handed to `async_write`. -/
  handed : List P

inductive Event (P : Type*) where
  /-- A call begins, and pushes its packet. -/
  | push (id : ℕ) (packet : P)
  /-- A thread does its next step. -/
  | advance (t : Thread)
  /-- A write completes, without an error. -/
  | complete (packet : P)
  /-- The handler of a completed write starts. -/
  | handle
  deriving DecidableEq

namespace State

def init : State P := ⟨[], false, fun _ ↦ .idle, [], 0, [], []⟩

def setPhase (s : State P) (t : Thread) (ph : Phase P) : State P :=
  { s with phase := Function.update s.phase t ph }

/-- The next step of a thread. -/
def advance (s : State P) (t : Thread) : Option (State P) :=
  match s.phase t with
  | .idle => none
  | .test => some (s.setPhase t (if s.isWriting then .idle else .busy .set))
  | .busy .set => some { s.setPhase t (.busy .pop) with isWriting := true }
  | .busy .pop =>
    match s.writeQueue with
    | [] => some (s.setPhase t (.busy .clear))
    | p :: rest => some { s.setPhase t (.busy (.hand p)) with writeQueue := rest }
  | .busy (.hand p) => some { s.setPhase t .idle with
      inFlight := s.inFlight ++ [p], handed := s.handed ++ [p] }
  | .busy .clear => some { s.setPhase t .idle with isWriting := false }

/-- No call is inside, and no write is under way. -/
def Quiescent (s : State P) : Prop := (∀ t, s.phase t = .idle) ∧ s.inFlight = [] ∧ s.handlers = 0

end State

/-- One event. -/
def step [DecidableEq P] (s : State P) : Event P → Option (State P)
  | .push id p =>
    if s.phase (.caller id) = .idle then
      some { s.setPhase (.caller id) .test with
        writeQueue := s.writeQueue ++ [p], pushed := s.pushed ++ [p] }
    else none
  | .advance t => s.advance t
  | .complete p =>
    if p ∈ s.inFlight then
      some { s with inFlight := s.inFlight.erase p, handlers := s.handlers + 1 }
    else none
  | .handle =>
    if s.phase .handler = .idle ∧ s.handlers ≠ 0 then
      some { s.setPhase .handler (.busy .pop) with handlers := s.handlers - 1 }
    else none

/-- The packet that an event pushes. -/
def Event.pushes : Event P → List P
  | .push _ p => [p]
  | _ => []

/-- The packet that an event hands to `async_write`. -/
def State.hands (s : State P) : Event P → List P
  | .advance t =>
    match s.phase t with
    | .busy (.hand p) => [p]
    | _ => []
  | _ => []

/-- One write at a time, in the order of the calls, and nothing stays behind. -/
structure WellBehaved (s : State P) : Prop where
  one : s.inFlight.length ≤ 1
  inOrder : s.handed <+: s.pushed
  drained : s.Quiescent → s.writeQueue = []

/-- **The condition.** No thread tests the flag while another is about to set it. A thread tests it
while another is about to clear it only if there is no packet or a third is about to test it too. -/
def Careful (s : State P) : Event P → Prop
  | .advance t => s.phase t = .test →
      (∀ u, s.phase u ≠ .busy .set) ∧
        ((∃ u, s.phase u = .busy .clear) →
          s.writeQueue = [] ∨ ∃ u, u ≠ t ∧ s.phase u = .test)
  | _ => True

theorem hands_cases (s : State P) (e : Event P) : s.hands e = [] ∨ ∃ p, s.hands e = [p] := by
  cases e with
  | advance t =>
    rw [State.hands]
    split
    · exact .inr ⟨_, rfl⟩
    · exact .inl rfl
  | push id p | complete p | handle => exact .inl rfl

theorem sequences_step [DecidableEq P] {s s' : State P} {e : Event P} (h : step s e = some s') :
    s'.pushed = s.pushed ++ e.pushes ∧ s'.handed = s.handed ++ s.hands e := by
  cases e with
  | push id p =>
    rw [step] at h
    split at h
    · cases h
      exact ⟨rfl, (List.append_nil _).symm⟩
    · cases h
  | advance t =>
    rw [step, State.advance] at h
    rw [State.hands]
    split at h
    · cases h
    all_goals rename_i hphase; rw [hphase]
    · cases h
      exact ⟨(List.append_nil _).symm, (List.append_nil _).symm⟩
    · cases h
      exact ⟨(List.append_nil _).symm, (List.append_nil _).symm⟩
    · split at h <;> (cases h; exact ⟨(List.append_nil _).symm, (List.append_nil _).symm⟩)
    · cases h
      exact ⟨(List.append_nil _).symm, rfl⟩
    · cases h
      exact ⟨(List.append_nil _).symm, (List.append_nil _).symm⟩
  | complete p | handle =>
    rw [step] at h
    split at h
    · cases h
      exact ⟨(List.append_nil _).symm, (List.append_nil _).symm⟩
    · cases h

theorem idle_step [DecidableEq P] {s s' : State P} {e : Event P} {id : ℕ}
    (h : step s e = some s') (hidle : s.phase (.caller id) = .idle)
    (he : ∀ p, e ≠ .push id p) : s'.phase (.caller id) = .idle := by
  have hother : ∀ {t : Thread} {ph : Phase P}, t ≠ .caller id →
      (s.setPhase t ph).phase (.caller id) = .idle :=
    fun ht ↦ (Function.update_of_ne ht.symm ..).trans hidle
  cases e with
  | push i p =>
    rw [step] at h
    split at h
    · cases h
      refine hother fun hi ↦ he p ?_
      cases hi
      rfl
    · cases h
  | advance t =>
    have ht : s.phase t ≠ .idle → t ≠ .caller id := by
      rintro hne rfl
      exact hne hidle
    rw [step, State.advance] at h
    split at h
    · cases h
    all_goals
      rename_i hphase
      have hne := ht (by rw [hphase]; exact fun hc ↦ by cases hc)
    · cases h
      exact hother hne
    · cases h
      exact hother hne
    · split at h <;> (cases h; exact hother hne)
    · cases h
      exact hother hne
    · cases h
      exact hother hne
  | complete p =>
    rw [step] at h
    split at h
    · cases h
      exact hidle
    · cases h
  | handle =>
    rw [step] at h
    split at h
    · cases h
      have hne : Thread.caller id ≠ .handler := fun hc ↦ by cases hc
      show Function.update s.phase .handler (.busy .pop) (.caller id) = .idle
      rw [Function.update_of_ne hne, hidle]
    · cases h

/-! ## Whose turn it is

A write goes through the hands of a thread that found the flag cleared, of `async_write`, of the
completed write whose handler has not run, and of that handler. `Turn` says which of these has it.
If only one has, all that the threads know of each other is in the flag: it is set from the store of
the one who starts until the store of the one who stops.

A packet that is in the queue when the turn ends is not lost if a thread is about to test the flag.
That is why `Exclusive` asks for one. -/

/-- Who writes. -/
inductive Turn (P : Type*) where
  | nobody
  | thread (t : Thread) (b : Busy P)
  | writing (packet : P)
  | completed

namespace Turn

def busy : Turn P → Option (Thread × Busy P)
  | .thread t b => some (t, b)
  | _ => none

/-- The flag is set. -/
def isWriting : Turn P → Bool
  | .nobody | .thread _ .set => false
  | _ => true

def inFlight : Turn P → List P
  | .writing p => [p]
  | _ => []

def handlers : Turn P → ℕ
  | .completed => 1
  | _ => 0

/-- The packet that was popped and not handed on. -/
def popped : Turn P → List P
  | .thread _ (.hand p) => [p]
  | _ => []

/-- Nobody is going to pop. -/
def Resting : Turn P → Prop
  | .nobody | .thread _ .clear => True
  | _ => False

end Turn

/-- The thread of the turn, and no other, is busy. -/
def OnlyBusy (phase : Thread → Phase P) (o : Option (Thread × Busy P)) : Prop :=
  ∀ t b, phase t = .busy b ↔ o = some (t, b)

/-- **The invariant.** There is one turn, and the fields are as it says. While nobody is going to
pop, a packet in the queue has a caller that has not tested the flag. -/
structure Exclusive (s : State P) (turn : Turn P) : Prop where
  busy : OnlyBusy s.phase turn.busy
  isWriting : s.isWriting = turn.isWriting
  inFlight : s.inFlight = turn.inFlight
  handlers : s.handlers = turn.handlers
  order : s.pushed = s.handed ++ turn.popped ++ s.writeQueue
  tester : turn.Resting → s.writeQueue ≠ [] → ∃ t, s.phase t = .test

namespace OnlyBusy

variable {phase : Thread → Phase P} {o : Option (Thread × Busy P)} {t : Thread}

private theorem outside (h : OnlyBusy phase o) {ph : Phase P} (ht : ∀ b, phase t ≠ .busy b)
    (hph : ∀ b, ph ≠ .busy b) : OnlyBusy (Function.update phase t ph) o := by
  intro u b
  by_cases hut : u = t
  · subst hut
    rw [Function.update_self]
    exact ⟨fun hb ↦ absurd hb (hph b), fun ho ↦ absurd ((h u b).mpr ho) (ht b)⟩
  · rw [Function.update_of_ne hut]
    exact h u b

theorem enter (h : OnlyBusy phase o) (ho : ∀ u b, o = some (u, b) → u = t) (b : Busy P) :
    OnlyBusy (Function.update phase t (.busy b)) (some (t, b)) := by
  intro u c
  by_cases hut : u = t
  · subst hut
    rw [Function.update_self, Phase.busy.injEq, Option.some_inj, Prod.mk.injEq]
    exact (and_iff_right rfl).symm
  · rw [Function.update_of_ne hut, Option.some_inj, Prod.mk.injEq]
    refine ⟨fun hc ↦ absurd (ho u c ((h u c).mp hc)) hut, fun hc ↦ absurd hc.1.symm hut⟩

theorem leave (h : OnlyBusy phase o) (ho : ∀ u b, o = some (u, b) → u = t) :
    OnlyBusy (Function.update phase t .idle) none := by
  intro u c
  refine ⟨fun hc ↦ ?_, fun hc ↦ by cases hc⟩
  by_cases hut : u = t
  · subst hut
    rw [Function.update_self] at hc
    cases hc
  · rw [Function.update_of_ne hut] at hc
    exact absurd (ho u c ((h u c).mp hc)) hut

end OnlyBusy

/-! ## One event

One lemma for each access. The two that test the flag are the only ones that need `Careful`: a test
between the test of another thread and its store begins a second turn, and a test between a failed
pop and the store of its thread leaves the packet that was pushed in between, unless nothing was
pushed or another test is to come. -/

namespace Exclusive

variable {s s' : State P} {turn : Turn P} {t : Thread}

theorem init : Exclusive (State.init : State P) .nobody where
  busy _ _ := by
    constructor
    · intro h
      cases h
    · intro h
      cases h
  isWriting := rfl
  inFlight := rfl
  handlers := rfl
  order := rfl
  tester _ h := absurd rfl h

private theorem turn_eq (hs : Exclusive s turn) {b : Busy P} (h : s.phase t = .busy b) :
    turn = .thread t b := by
  have hbusy := (hs.busy t b).mp h
  cases turn with
  | thread u c =>
    cases hbusy
    rfl
  | nobody | writing | completed => cases hbusy

theorem push (hs : Exclusive s turn) {id : ℕ} (hidle : s.phase (.caller id) = .idle) (p : P) :
    Exclusive { s.setPhase (.caller id) .test with
      writeQueue := s.writeQueue ++ [p], pushed := s.pushed ++ [p] } turn where
  busy := by
    refine hs.busy.outside (fun b hb ↦ ?_) fun b hb ↦ by cases hb
    rw [hidle] at hb
    cases hb
  isWriting := hs.isWriting
  inFlight := hs.inFlight
  handlers := hs.handlers
  order := by
    show s.pushed ++ [p] = s.handed ++ turn.popped ++ (s.writeQueue ++ [p])
    rw [hs.order, List.append_assoc]
  tester _ _ := ⟨.caller id, Function.update_self ..⟩

private theorem test_true (hs : Exclusive s turn) (htest : s.phase t = .test)
    (hw : s.isWriting = true) (hclear : (∃ u, s.phase u = .busy .clear) →
      s.writeQueue = [] ∨ ∃ u, u ≠ t ∧ s.phase u = .test) :
    Exclusive (s.setPhase t .idle) turn where
  busy := by
    refine hs.busy.outside (fun b hb ↦ ?_) fun b hb ↦ by cases hb
    rw [htest] at hb
    cases hb
  isWriting := hs.isWriting
  inFlight := hs.inFlight
  handlers := hs.handlers
  order := hs.order
  tester hresting hqueue := by
    have hflag := hs.isWriting.symm.trans hw
    cases turn with
    | nobody => cases hflag
    | thread u b =>
      cases b with
      | clear =>
        obtain ⟨v, hne, hv⟩ := (hclear ⟨u, (hs.busy u .clear).mpr rfl⟩).resolve_left hqueue
        exact ⟨v, (Function.update_of_ne hne ..).trans hv⟩
      | set | pop | hand => cases hresting
    | writing | completed => cases hresting

private theorem test_false (hs : Exclusive s turn) (hw : s.isWriting = false)
    (hset : ∀ u, s.phase u ≠ .busy .set) :
    Exclusive (s.setPhase t (.busy .set)) (.thread t .set) := by
  have hflag := hs.isWriting.symm.trans hw
  obtain rfl : turn = .nobody := by
    cases turn with
    | nobody => rfl
    | thread u b =>
      cases b with
      | set => exact absurd ((hs.busy u .set).mpr rfl) (hset u)
      | pop | hand | clear => cases hflag
    | writing | completed => cases hflag
  exact ⟨hs.busy.enter (fun u b h ↦ by cases h) .set, hs.isWriting, hs.inFlight, hs.handlers,
    hs.order, fun h ↦ by cases h⟩

theorem set (hs : Exclusive s (.thread t .set)) :
    Exclusive { s.setPhase t (.busy .pop) with isWriting := true } (.thread t .pop) where
  busy := hs.busy.enter (fun u b h ↦ by cases h; rfl) .pop
  isWriting := rfl
  inFlight := hs.inFlight
  handlers := hs.handlers
  order := hs.order
  tester h := by cases h

private theorem pop_nil (hs : Exclusive s (.thread t .pop)) (hqueue : s.writeQueue = []) :
    Exclusive (s.setPhase t (.busy .clear)) (.thread t .clear) where
  busy := hs.busy.enter (fun u b h ↦ by cases h; rfl) .clear
  isWriting := hs.isWriting
  inFlight := hs.inFlight
  handlers := hs.handlers
  order := hs.order
  tester _ h := absurd hqueue h

private theorem pop_cons (hs : Exclusive s (.thread t .pop)) {p : P} {rest : List P}
    (hqueue : s.writeQueue = p :: rest) :
    Exclusive { s.setPhase t (.busy (.hand p)) with writeQueue := rest } (.thread t (.hand p)) where
  busy := hs.busy.enter (fun u b h ↦ by cases h; rfl) (.hand p)
  isWriting := hs.isWriting
  inFlight := hs.inFlight
  handlers := hs.handlers
  order := by
    have horder : s.pushed = s.handed ++ [] ++ p :: rest := hqueue ▸ hs.order
    show s.pushed = s.handed ++ [p] ++ rest
    rw [horder, List.append_nil, List.append_cons]
  tester h := by cases h

theorem hand {p : P} (hs : Exclusive s (.thread t (.hand p))) :
    Exclusive { s.setPhase t .idle with
      inFlight := s.inFlight ++ [p], handed := s.handed ++ [p] } (.writing p) where
  busy := hs.busy.leave fun u b h ↦ by cases h; rfl
  isWriting := hs.isWriting
  inFlight := by
    rw [hs.inFlight]
    rfl
  handlers := hs.handlers
  order := by
    show s.pushed = s.handed ++ [p] ++ [] ++ s.writeQueue
    rw [List.append_nil]
    exact hs.order
  tester h := by cases h

theorem clear (hs : Exclusive s (.thread t .clear)) :
    Exclusive { s.setPhase t .idle with isWriting := false } .nobody where
  busy := hs.busy.leave fun u b h ↦ by cases h; rfl
  isWriting := rfl
  inFlight := hs.inFlight
  handlers := hs.handlers
  order := hs.order
  tester _ hqueue := by
    obtain ⟨u, hu⟩ := hs.tester trivial hqueue
    refine ⟨u, (Function.update_of_ne ?_ ..).trans hu⟩
    rintro rfl
    have hbusy := (hs.busy u .clear).mpr rfl
    rw [hu] at hbusy
    cases hbusy

theorem advance (hs : Exclusive s turn) (hcareful : Careful s (.advance t))
    (h : s.advance t = some s') : ∃ turn', Exclusive s' turn' := by
  rw [State.advance] at h
  split at h
  · cases h
  · rename_i htest
    obtain ⟨hset, hclear⟩ := hcareful htest
    cases hw : s.isWriting with
    | true =>
      rw [hw, if_pos rfl] at h
      cases h
      exact ⟨turn, hs.test_true htest hw hclear⟩
    | false =>
      rw [hw, if_neg Bool.false_ne_true] at h
      cases h
      exact ⟨_, hs.test_false hw hset⟩
  · rename_i hphase
    cases h
    exact ⟨_, (hs.turn_eq hphase ▸ hs).set⟩
  · rename_i hphase
    have hturn : Exclusive s (.thread t .pop) := hs.turn_eq hphase ▸ hs
    split at h
    · rename_i hqueue
      cases h
      exact ⟨_, hturn.pop_nil hqueue⟩
    · rename_i hqueue
      cases h
      exact ⟨_, hturn.pop_cons hqueue⟩
  · rename_i hphase
    cases h
    exact ⟨_, (hs.turn_eq hphase ▸ hs).hand⟩
  · rename_i hphase
    cases h
    exact ⟨_, (hs.turn_eq hphase ▸ hs).clear⟩

theorem step [DecidableEq P] {e : Event P} (hcareful : Careful s e)
    (h : SocketWriter.step s e = some s') (hs : Exclusive s turn) :
    ∃ turn', Exclusive s' turn' := by
  rw [SocketWriter.step.eq_def] at h
  cases e with
  | push id p =>
    dsimp only at h
    split at h
    · rename_i hidle
      cases h
      exact ⟨turn, hs.push hidle p⟩
    · cases h
  | advance t => exact hs.advance hcareful h
  | complete p =>
    dsimp only at h
    split at h
    · rename_i hmem
      cases h
      rw [hs.inFlight] at hmem
      cases turn with
      | writing q =>
        obtain rfl : p = q := List.mem_singleton.mp hmem
        refine ⟨.completed, hs.busy, hs.isWriting, ?_, ?_, hs.order, fun h ↦ by cases h⟩
        · show s.inFlight.erase p = []
          rw [hs.inFlight, Turn.inFlight, List.erase_cons_head]
        · show s.handlers + 1 = 1
          rw [hs.handlers]
          rfl
      | nobody | thread | completed => cases hmem
    · cases h
  | handle =>
    dsimp only at h
    split at h
    · rename_i hguard
      cases h
      have hcount := hguard.2
      rw [hs.handlers] at hcount
      cases turn with
      | completed =>
        refine ⟨.thread .handler .pop, hs.busy.enter (fun u b h ↦ by cases h) .pop, hs.isWriting,
          hs.inFlight, ?_, hs.order, fun h ↦ by cases h⟩
        show s.handlers - 1 = 0
        rw [hs.handlers]
        rfl
      | nobody | thread | writing => exact absurd rfl hcount
    · cases h

theorem wellBehaved (hs : Exclusive s turn) : WellBehaved s where
  one := by
    rw [hs.inFlight]
    cases turn <;> simp [Turn.inFlight]
  inOrder := by
    rw [hs.order, List.append_assoc]
    exact List.prefix_append _ _
  drained := by
    rintro ⟨hidle, hflight, hhandlers⟩
    rw [hs.inFlight] at hflight
    rw [hs.handlers] at hhandlers
    by_contra hqueue
    cases turn with
    | nobody =>
      obtain ⟨t, ht⟩ := hs.tester trivial hqueue
      cases (hidle t).symm.trans ht
    | thread t b => cases (hidle t).symm.trans ((hs.busy t b).mpr rfl)
    | writing p => cases hflight
    | completed => cases hhandlers

/-- When the writer is quiescent, every packet has been handed on. -/
theorem handed_eq_pushed (hs : Exclusive s turn) (hquiescent : s.Quiescent) :
    s.handed = s.pushed := by
  have hpopped : turn.popped = [] := by
    cases turn with
    | thread t b =>
      have hbusy := (hs.busy t b).mpr rfl
      cases (hquiescent.1 t).symm.trans hbusy
    | nobody | writing | completed => rfl
  rw [hs.order, hpopped, hs.wellBehaved.drained hquiescent, List.append_nil, List.append_nil]

end Exclusive

/-- **The writer.** In a run in which no test comes between another thread's test and its store, nor
leaves a packet behind that is about to be forgotten, every state reached is well behaved. -/
theorem wellBehaved_of_careful [DecidableEq P] {es : List (Event P)}
    (hmeets : Meets step Careful State.init es) : Always step WellBehaved State.init es :=
  always_of_meets (I := fun s ↦ ∃ turn, Exclusive s turn)
    (fun _ _ _ hcareful h ⟨_, hs⟩ ↦ hs.step hcareful h) (fun _ ⟨_, hs⟩ ↦ hs.wellBehaved) hmeets
    ⟨.nobody, Exclusive.init⟩

/-- A test while no thread is busy, and a test while the only busy thread is in the middle of its
turn, are careful. -/
theorem careful_advance {s : State P} {t : Thread}
    (h : ∀ u, s.phase u ≠ .busy .set ∧ s.phase u ≠ .busy .clear) : Careful s (.advance t) :=
  fun _ ↦ ⟨fun u ↦ (h u).1, fun ⟨u, hu⟩ ↦ absurd hu (h u).2⟩

/-- The second packet is pushed while the first is written, and written by the handler. -/
theorem wellBehaved_second_packet :
    ∃ s : State ℕ, run step State.init
        [.push 0 10, .advance (.caller 0), .advance (.caller 0), .advance (.caller 0),
          .advance (.caller 0), .push 1 11, .advance (.caller 1), .complete 10, .handle,
          .advance .handler, .advance .handler] = some s ∧
      s.handed = [10, 11] ∧ s.inFlight = [11] ∧ WellBehaved s := by
  have hmeets : Meets step Careful (State.init : State ℕ)
      [.push 0 10, .advance (.caller 0), .advance (.caller 0), .advance (.caller 0),
        .advance (.caller 0), .push 1 11, .advance (.caller 1), .complete 10, .handle,
        .advance .handler, .advance .handler] := by
    refine ⟨trivial, fun s₁ h₁ ↦ ?_⟩
    cases h₁
    refine ⟨careful_advance fun u ↦ ?_, fun s₂ h₂ ↦ ?_⟩
    · rcases u with (_ | id) | _ <;> exact ⟨by rintro ⟨⟩, by rintro ⟨⟩⟩
    cases h₂
    refine ⟨by rintro ⟨⟩, fun s₃ h₃ ↦ ?_⟩
    cases h₃
    refine ⟨by rintro ⟨⟩, fun s₄ h₄ ↦ ?_⟩
    cases h₄
    refine ⟨by rintro ⟨⟩, fun s₅ h₅ ↦ ?_⟩
    cases h₅
    refine ⟨trivial, fun s₆ h₆ ↦ ?_⟩
    cases h₆
    refine ⟨careful_advance fun u ↦ ?_, fun s₇ h₇ ↦ ?_⟩
    · rcases u with (_ | _ | id) | _ <;> exact ⟨by rintro ⟨⟩, by rintro ⟨⟩⟩
    cases h₇
    refine ⟨trivial, fun s₈ h₈ ↦ ?_⟩
    cases h₈
    refine ⟨trivial, fun s₉ h₉ ↦ ?_⟩
    cases h₉
    refine ⟨by rintro ⟨⟩, fun t₁ k₁ ↦ ?_⟩
    cases k₁
    exact ⟨by rintro ⟨⟩, fun t₂ k₂ ↦ trivial⟩
  refine ⟨_, rfl, rfl, rfl, ?_⟩
  exact (always_iff_forall_split rfl).mp (wellBehaved_of_careful hmeets) _ [] _
    (List.append_nil _).symm rfl

/-- **Two writes at once, and a packet that stays behind.** Two callers both test the flag before
one of them sets it. A caller tests the flag after the pop of the handler failed and before the
handler clears it. -/
theorem tests_between_stores :
    (¬∀ (es : List (Event ℕ)) (s : State ℕ), run step State.init es = some s →
      s.inFlight.length ≤ 1 ∧ s.handed <+: s.pushed) ∧
    ¬∀ (es : List (Event ℕ)) (s : State ℕ), run step State.init es = some s →
      s.Quiescent → s.writeQueue = [] := by
  constructor
  · intro h
    have hrun := h [.push 0 10, .push 1 11, .advance (.caller 0), .advance (.caller 1),
      .advance (.caller 0), .advance (.caller 1), .advance (.caller 0), .advance (.caller 1),
      .advance (.caller 1), .advance (.caller 0)] _ rfl
    exact absurd hrun.1 (by decide)
  · intro h
    have hrun := h [.push 0 10, .advance (.caller 0), .advance (.caller 0), .advance (.caller 0),
      .advance (.caller 0), .complete 10, .handle, .advance .handler, .push 1 11,
      .advance (.caller 1), .advance .handler] _ rfl
    refine absurd (hrun ⟨fun t ↦ ?_, rfl, rfl⟩) (by decide)
    rcases t with (_ | _ | id) | _ <;> rfl

end Slsfs.SocketWriter

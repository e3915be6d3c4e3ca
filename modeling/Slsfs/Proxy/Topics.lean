import Mathlib.Data.List.Flatten
import Slsfs.SocketWriter

/-!
# Topics

A `bucket` keeps the messages that are put to a topic until a connection gets them. The handler that
`start_handle_events` posts pops one message after the other into a response packet and calls the
listener, which hands a pointer to that packet to the writer of its connection. There is one packet
for all the messages, and the writer serializes it when its turn comes. What is sent is the message
that was popped last by then.

The handlers of a bucket run one at a time on its strand; the writer is that of `SocketWriter`, and
other packets may be written to the connection of the getter. One topic is modelled, and one getter
that comes after the messages were put.

A pop into the response packet and its serialization are one step each. In the source nothing keeps
them apart: a handler of the writer may read the packet while the strand assigns to it, even if the
message that is popped has the same body as the one before. That data race is not in the model.
-/

namespace Slsfs.Proxy.Topics

/-- What is written to the connection of the getter. -/
inductive Packet where
  /-- The packet that all messages of the topic are popped into. -/
  | response
  | other (n : ℕ)
  deriving DecidableEq

/-- Where the handler on the strand is. -/
inductive Handling where
  | idle
  /-- Before `try_pop`. -/
  | loop
  /-- Before the call of the listener. -/
  | calling
  deriving DecidableEq

structure State (Body : Type*) where
  messageQueue : List Body
  /-- The listener of the getter is connected. -/
  listener : Bool
  /-- The calls of `start_handle_events` that have not posted their handler. -/
  posting : ℕ
  /-- The posted handlers that have not run. -/
  events : ℕ
  handling : Handling
  /-- The data of the response packet. -/
  data : Option Body
  writer : SocketWriter.State Packet
  /-- A connection has called `start_load`. -/
  got : Bool
  /-- The bodies in the order they were put. -/
  puts : List Body
  /-- The bodies in the order they were popped. -/
  popped : List Body
  /-- The bodies in the order they were serialized for the getter. -/
  sent : List Body

inductive Event (Body : Type*) where
  /-- `start_store` pushes a message. -/
  | put (body : Body)
  /-- `start_load` connects the listener. -/
  | get
  /-- `start_handle_events` posts its handler. -/
  | post
  /-- The handler starts, and tests the listeners and the queue. -/
  | start
  | tryPop
  /-- The listener calls `start_write`. -/
  | listener
  /-- A step of the writer that is not the push of the listener. -/
  | write (e : SocketWriter.Event Packet)
  deriving DecidableEq

/-- The thread that runs the strand of the bucket, among the callers of the writer. -/
abbrev strand : ℕ := 0

variable {Body : Type*}

/-- What is serialized for a packet. -/
def serialize (data : Option Body) : Packet → List Body
  | .response => data.toList
  | .other _ => []

namespace State

def init : State Body := ⟨[], false, 0, 0, .idle, none, .init, false, [], [], []⟩

def put (s : State Body) (body : Body) : State Body :=
  { s with
    messageQueue := s.messageQueue ++ [body]
    posting := s.posting + 1
    puts := s.puts ++ [body] }

def get (s : State Body) : State Body :=
  { s with listener := true, posting := s.posting + 1, got := true }

/-- The handler returns if there is no listener or no message. -/
def start (s : State Body) : State Body :=
  if s.listener = false ∨ s.messageQueue = [] then { s with events := s.events - 1 }
  else { s with events := s.events - 1, handling := .loop, data := none }

/-- When there is no message left, the slots are disconnected. -/
def tryPop (s : State Body) : State Body :=
  match s.messageQueue with
  | [] => { s with handling := .idle, listener := false }
  | m :: rest => { s with
      messageQueue := rest, handling := .calling, data := some m, popped := s.popped ++ [m] }

/-- A step of the writer. A packet that is handed on is serialized just before. -/
def write (s : State Body) (e : SocketWriter.Event Packet) : Option (State Body) :=
  (SocketWriter.step s.writer e).map fun w ↦
    { s with writer := w, sent := s.sent ++ (s.writer.hands e).flatMap (serialize s.data) }

/-- Nothing is posted, and neither the handler nor the writer has anything left to do. -/
def Quiescent (s : State Body) : Prop :=
  s.posting = 0 ∧ s.events = 0 ∧ s.handling = .idle ∧ s.writer.Quiescent

end State

/-- A packet that is not the response is pushed by another thread. -/
def Foreign : SocketWriter.Event Packet → Prop
  | .push id p => id ≠ strand ∧ p ≠ .response
  | _ => True

instance decidableForeign : ∀ e, Decidable (Foreign e)
  | .push id p => inferInstanceAs (Decidable (id ≠ strand ∧ p ≠ .response))
  | .advance _ | .complete _ | .handle => .isTrue trivial

private theorem Foreign.count_pushes {e : SocketWriter.Event Packet} (h : Foreign e) :
    e.pushes.count .response = 0 := by
  cases e with
  | push id p => exact List.count_eq_zero.mpr fun hmem ↦ h.2 (List.mem_singleton.mp hmem).symm
  | advance t | complete p | handle => rfl

/-- One event. The strand goes on when `start_write` has returned. -/
def step (s : State Body) : Event Body → Option (State Body)
  | .put body => if s.got then none else some (s.put body)
  | .get => if s.got then none else some s.get
  | .post =>
    if s.posting = 0 then none
    else some { s with posting := s.posting - 1, events := s.events + 1 }
  | .start => if s.events = 0 ∨ s.handling ≠ .idle then none else some s.start
  | .tryPop =>
    if s.handling ≠ .loop ∨ s.writer.phase (.caller strand) ≠ .idle then none else some s.tryPop
  | .listener =>
    if s.handling ≠ .calling then none
    else { s with handling := .loop }.write (.push strand .response)
  | .write e => if Foreign e then s.write e else none

/-- The getter is sent the bodies in order, each of them once. -/
structure Delivered (s : State Body) : Prop where
  inOrder : s.sent <+: s.puts
  complete : s.got = true → s.Quiescent → s.sent = s.puts

/-- **The condition.** A message is popped only when the packets of all earlier ones have been
serialized, unless it has the same body as the one before. The pop and the serialization are taken
as atomic: a pop of an equal body while the writer serializes is a data race in the source. The
writer is used with care. -/
def Paced (s : State Body) : Event Body → Prop
  | .tryPop => ∀ b ∈ s.messageQueue.head?, s.sent.length = s.popped.length ∨ s.data = some b
  | .write e => SocketWriter.Careful s.writer e
  | _ => True

/-! ## What waits to be sent

What the listener has handed to the writer and the writer has not serialized yet is, every time, the
same packet. When it is serialized it has the data of the message that was popped last. So `Inv`
asks that all messages that wait are equal to that one; a pop keeps this if nothing waits, or if the
next message is equal to those that do. The rest of the invariant counts: the packets that wait at
the writer are as many as the messages that were popped and not sent. -/

/-- Each response that was pushed stands for a message popped. Those that are not serialized have
the same body, which is the one in the packet; and messages that wait will be popped. -/
structure Inv (s : State Body) : Prop where
  turn : ∃ turn, SocketWriter.Exclusive s.writer turn
  order : s.puts = s.popped ++ s.messageQueue
  pushed : s.popped.length
    = s.writer.pushed.count .response + if s.handling = .calling then 1 else 0
  handed : s.sent.length = s.writer.handed.count .response
  waiting : ∃ rest, s.popped = s.sent ++ rest ∧ ∀ b ∈ rest, s.data = some b
  fresh : s.got = false → s.popped = [] ∧ s.handling = .idle ∧ s.listener = false
  unopened : s.listener = true → s.handling = .idle → s.popped = []
  pending : s.got = true → s.messageQueue = [] ∨
    s.listener = true ∧ (s.posting ≠ 0 ∨ s.events ≠ 0 ∨ s.handling ≠ .idle)

namespace Inv

variable {s s' : State Body}

theorem init : Inv (State.init : State Body) where
  turn := ⟨_, SocketWriter.Exclusive.init⟩
  order := rfl
  pushed := rfl
  handed := rfl
  waiting := ⟨[], rfl, List.forall_mem_nil _⟩
  fresh _ := ⟨rfl, rfl, rfl⟩
  unopened _ _ := rfl
  pending h := by cases h

theorem put (h : Inv s) (hgot : s.got = false) (body : Body) : Inv (s.put body) where
  turn := h.turn
  order := by
    show s.puts ++ [body] = s.popped ++ (s.messageQueue ++ [body])
    rw [h.order, List.append_assoc]
  pushed := h.pushed
  handed := h.handed
  waiting := h.waiting
  fresh := h.fresh
  unopened := h.unopened
  pending hgot' := by cases hgot.symm.trans hgot'

theorem get (h : Inv s) (hgot : s.got = false) : Inv s.get where
  turn := h.turn
  order := h.order
  pushed := h.pushed
  handed := h.handed
  waiting := h.waiting
  fresh hgot' := by cases hgot'
  unopened _ _ := (h.fresh hgot).1
  pending _ := .inr ⟨rfl, .inl (Nat.succ_ne_zero _)⟩

theorem post (h : Inv s) :
    Inv { s with posting := s.posting - 1, events := s.events + 1 } where
  turn := h.turn
  order := h.order
  pushed := h.pushed
  handed := h.handed
  waiting := h.waiting
  fresh := h.fresh
  unopened := h.unopened
  pending hgot := (h.pending hgot).imp_right fun hboth ↦
    ⟨hboth.1, .inr (.inl (Nat.succ_ne_zero _))⟩

theorem start (h : Inv s) (hidle : s.handling = .idle) : Inv s.start := by
  rw [State.start]
  split
  · rename_i hnone
    refine ⟨h.turn, h.order, h.pushed, h.handed, h.waiting, h.fresh, h.unopened,
      fun hgot ↦ .inl ?_⟩
    rcases h.pending hgot with hempty | ⟨hlistener, -⟩
    · exact hempty
    · exact hnone.resolve_left (by rw [hlistener]; decide)
  · rename_i hboth
    rw [not_or, Bool.not_eq_false] at hboth
    have hpopped := h.unopened hboth.1 hidle
    have hsent : s.sent = [] := by
      obtain ⟨rest, hrest, -⟩ := h.waiting
      exact (List.append_eq_nil_iff.mp (hrest.symm.trans hpopped)).1
    refine ⟨h.turn, h.order, ?_, h.handed, ⟨[], ?_, List.forall_mem_nil _⟩, fun hgot ↦ ?_,
      fun _ hloop ↦ ?_, fun _ ↦ .inr ⟨hboth.1, .inr (.inr fun hloop ↦ ?_)⟩⟩
    · have hpushed := h.pushed
      rw [hidle] at hpushed
      exact hpushed
    · show s.popped = s.sent ++ []
      rw [hpopped, hsent, List.append_nil]
    · cases hboth.1.symm.trans (h.fresh hgot).2.2
    · cases hloop
    · cases hloop

theorem tryPop (h : Inv s) (hloop : s.handling = .loop)
    (hpaced : ∀ b ∈ s.messageQueue.head?, s.sent.length = s.popped.length ∨ s.data = some b) :
    Inv s.tryPop := by
  have hpushed := h.pushed
  rw [hloop] at hpushed
  have hgot : s.got = true := by
    by_contra hgot
    cases hloop.symm.trans (h.fresh (Bool.eq_false_iff.mpr hgot)).2.1
  rw [State.tryPop]
  split
  · rename_i hempty
    refine ⟨h.turn, h.order, hpushed, h.handed, h.waiting, fun hgot' ↦ ?_, fun hlistener ↦ ?_,
      fun _ ↦ .inl hempty⟩
    · cases hgot.symm.trans hgot'
    · cases hlistener
  · rename_i m rest hqueue
    obtain ⟨waiting, hwaiting, hsame⟩ := h.waiting
    refine ⟨h.turn, ?_, ?_, h.handed, ⟨waiting ++ [m], ?_, fun b hb ↦ ?_⟩, fun hgot' ↦ ?_,
      fun _ hidle ↦ ?_, fun hgot' ↦ ?_⟩
    · show s.puts = s.popped ++ [m] ++ rest
      rw [h.order, hqueue, List.append_assoc, List.singleton_append]
    · show (s.popped ++ [m]).length = s.writer.pushed.count .response + 1
      rw [List.length_append, hpushed]
      rfl
    · show s.popped ++ [m] = s.sent ++ (waiting ++ [m])
      rw [hwaiting, List.append_assoc]
    · -- Nothing waits yet, or all that waits has the body that is popped now.
      show some m = some b
      rcases List.mem_append.mp hb with hb | hb
      · rcases hpaced m (by rw [hqueue]; rfl) with hlength | hdata
        · rw [hwaiting, List.length_append] at hlength
          have hnone : waiting = [] := List.eq_nil_of_length_eq_zero (by omega)
          rw [hnone] at hb
          cases hb
        · exact hdata.symm.trans (hsame b hb)
      · exact congrArg some (List.mem_singleton.mp hb).symm
    · cases hgot.symm.trans hgot'
    · cases hidle
    · rcases h.pending hgot with hempty | ⟨hlistener, -⟩
      · cases hqueue.symm.trans hempty
      · exact .inr ⟨hlistener, .inr (.inr fun hidle ↦ by cases hidle)⟩

theorem write (h : Inv s) {e : SocketWriter.Event Packet} {handling : Handling}
    (hcareful : SocketWriter.Careful s.writer e)
    (hs : State.write { s with handling } e = some s')
    (hcalls : (e.pushes.count .response + if handling = .calling then 1 else 0)
      = if s.handling = .calling then 1 else 0)
    (hidle : handling = .idle ↔ s.handling = .idle) : Inv s' := by
  obtain ⟨w, hw, rfl⟩ := Option.map_eq_some_iff.mp hs
  obtain ⟨hpushes, hhands⟩ := SocketWriter.sequences_step hw
  obtain ⟨turn, hturn⟩ := h.turn
  obtain ⟨turn', hturn'⟩ := hturn.step hcareful hw
  obtain ⟨rest, hrest, hsame⟩ := h.waiting
  have hlength : s.sent.length + rest.length = s.popped.length := by
    rw [hrest, List.length_append]
  have hpushed : s.popped.length
      = w.pushed.count .response + if handling = .calling then 1 else 0 := by
    rw [h.pushed, hpushes, List.count_append, ← hcalls, Nat.add_assoc]
  have hhanded : w.handed.count .response ≤ w.pushed.count .response :=
    hturn'.wellBehaved.inOrder.sublist.count_le _
  have hsent : ∃ after, rest
      = (s.writer.hands e).flatMap (serialize s.data) ++ after ∧
      ((s.writer.hands e).flatMap (serialize s.data)).length
        = (s.writer.hands e).count .response := by
    rcases SocketWriter.hands_cases s.writer e with hnone | ⟨_ | n, hone⟩
    · rw [hnone]
      exact ⟨rest, rfl, rfl⟩
    · -- The writer has handed on fewer responses than were pushed, so a body waits.
      rw [hhands, hone, List.count_append, ← h.handed, List.count_singleton_self] at hhanded
      rw [hone]
      cases rest with
      | nil =>
        rw [List.length_nil] at hlength
        omega
      | cons b after =>
        have hdata : s.data = some b := hsame b List.mem_cons_self
        rw [hdata]
        exact ⟨after, rfl, rfl⟩
    · rw [hone]
      exact ⟨rest, rfl, rfl⟩
  obtain ⟨after, hafter, hcount⟩ := hsent
  refine ⟨⟨turn', hturn'⟩, h.order, hpushed, ?_, ⟨after, ?_, fun b hb ↦ ?_⟩, fun hgot ↦ ?_,
    fun hlistener hnow ↦ h.unopened hlistener (hidle.mp hnow), fun hgot ↦ ?_⟩
  · show (s.sent ++ (s.writer.hands e).flatMap (serialize s.data)).length
      = w.handed.count .response
    rw [List.length_append, h.handed, hhands, List.count_append, hcount]
  · show s.popped = s.sent ++ (s.writer.hands e).flatMap (serialize s.data) ++ after
    rw [hrest, hafter, List.append_assoc]
  · exact hsame b (hafter ▸ List.mem_append_right _ hb)
  · obtain ⟨hpopped, hnow, hlistener⟩ := h.fresh hgot
    exact ⟨hpopped, hidle.mpr hnow, hlistener⟩
  · refine (h.pending hgot).imp_right fun hboth ↦ ⟨hboth.1, ?_⟩
    exact hboth.2.imp_right fun hlater ↦ hlater.imp_right fun hnow hidle' ↦ hnow (hidle.mp hidle')

theorem step {e : Event Body} (h : Inv s) (hpaced : Paced s e) (hs : step s e = some s') :
    Inv s' := by
  cases e with
  | put body =>
    obtain ⟨hgot, hs⟩ := Option.ite_none_left_eq_some.mp hs
    cases hs
    exact h.put (Bool.eq_false_iff.mpr hgot) body
  | get =>
    obtain ⟨hgot, hs⟩ := Option.ite_none_left_eq_some.mp hs
    cases hs
    exact h.get (Bool.eq_false_iff.mpr hgot)
  | post =>
    obtain ⟨-, hs⟩ := Option.ite_none_left_eq_some.mp hs
    cases hs
    exact h.post
  | start =>
    obtain ⟨hguard, hs⟩ := Option.ite_none_left_eq_some.mp hs
    cases hs
    rw [not_or, not_not] at hguard
    exact h.start hguard.2
  | tryPop =>
    obtain ⟨hguard, hs⟩ := Option.ite_none_left_eq_some.mp hs
    cases hs
    rw [not_or, not_not] at hguard
    exact h.tryPop hguard.1 hpaced
  | listener =>
    obtain ⟨hcalling, hs⟩ := Option.ite_none_left_eq_some.mp hs
    rw [not_not] at hcalling
    refine h.write (e := .push strand .response) trivial hs ?_ ?_
    · rw [hcalling]
      rfl
    · rw [hcalling]
      exact iff_of_false (fun hc ↦ by cases hc) fun hc ↦ by cases hc
  | write e =>
    obtain ⟨hforeign, hs⟩ := Option.ite_none_right_eq_some.mp hs
    refine h.write hpaced hs ?_ Iff.rfl
    rw [hforeign.count_pushes, Nat.zero_add]

theorem delivered (h : Inv s) : Delivered s where
  inOrder := by
    obtain ⟨rest, hrest, -⟩ := h.waiting
    rw [h.order, hrest, List.append_assoc]
    exact List.prefix_append _ _
  complete hgot hquiescent := by
    obtain ⟨hposting, hevents, hidle, hwriter⟩ := hquiescent
    obtain ⟨turn, hturn⟩ := h.turn
    obtain ⟨rest, hrest, -⟩ := h.waiting
    have hqueue : s.messageQueue = [] := by
      refine (h.pending hgot).resolve_right fun hboth ↦ ?_
      rcases hboth.2 with hpost | hevent | hbusy
      · exact hpost hposting
      · exact hevent hevents
      · exact hbusy hidle
    have hlength : s.sent.length = s.popped.length := by
      rw [h.handed, h.pushed, hturn.handed_eq_pushed hwriter, hidle]
      rfl
    have hnone : rest = [] := by
      rw [hrest, List.length_append] at hlength
      exact List.eq_nil_of_length_eq_zero (by omega)
    rw [h.order, hqueue, hrest, hnone, List.append_nil, List.append_nil]

end Inv

/-- **Topics.** In every run in which each message is popped when the packets of those before have
been serialized, or has the same body as the last of them, and in which the writer is used with
care, the getter is sent the bodies in order, each of them once. -/
theorem delivered_of_paced {es : List (Event Body)} (hmeets : Meets step Paced State.init es) :
    Always step Delivered State.init es :=
  always_of_meets (fun _ _ _ hpaced hs h ↦ h.step hpaced hs) (fun _ h ↦ h.delivered) hmeets
    Inv.init

/-! ## Nothing else is written

The condition of the writer, `Careful`, is about all threads that use it. If the getter's connection
writes nothing but this topic, then the only caller is the strand, and what is left of the condition
is that the strand does not test the flag while the handler of the writer is between a test and a
store. -/

section Alone

/-- No other packet is written to the connection. A thread tests the flag while neither the handler
of the writer nor the strand is about to store it. -/
def Alone (s : State Body) : Event Body → Prop
  | .tryPop => Paced s .tryPop
  | .write (.push _ _) => False
  | .write (.advance t) => s.writer.phase t = .test → ∀ u ∈ [.handler, .caller strand],
      s.writer.phase u ≠ .busy .set ∧ s.writer.phase u ≠ .busy .clear
  | _ => True

instance decidableAlone [DecidableEq Body] (s : State Body) : ∀ e, Decidable (Alone s e)
  | .tryPop => inferInstanceAs (Decidable (∀ b ∈ s.messageQueue.head?,
      s.sent.length = s.popped.length ∨ s.data = some b))
  | .write (.push _ _) => .isFalse id
  | .write (.advance t) => inferInstanceAs (Decidable (s.writer.phase t = .test →
      ∀ u ∈ [.handler, .caller strand],
        s.writer.phase u ≠ .busy .set ∧ s.writer.phase u ≠ .busy .clear))
  | .put _ | .get | .post | .start | .listener | .write (.complete _) | .write .handle =>
    .isTrue trivial

private theorem writer_step {s s' : State Body} {e : Event Body} (hs : step s e = some s') :
    s'.writer = s.writer ∨ ∃ f, SocketWriter.step s.writer f = some s'.writer ∧
      (f = .push strand .response ∨ e = .write f) := by
  have hwrite : ∀ {r : State Body} {f : SocketWriter.Event Packet}, r.write f = some s' →
      SocketWriter.step r.writer f = some s'.writer := by
    intro r f hf
    obtain ⟨w, hw, rfl⟩ := Option.map_eq_some_iff.mp hf
    exact hw
  cases e with
  | put body | get | post =>
    obtain ⟨-, hs⟩ := Option.ite_none_left_eq_some.mp hs
    cases hs
    exact .inl rfl
  | start =>
    obtain ⟨-, hs⟩ := Option.ite_none_left_eq_some.mp hs
    cases hs
    rw [State.start]
    split <;> exact .inl rfl
  | tryPop =>
    obtain ⟨-, hs⟩ := Option.ite_none_left_eq_some.mp hs
    cases hs
    rw [State.tryPop]
    split <;> exact .inl rfl
  | listener =>
    obtain ⟨-, hs⟩ := Option.ite_none_left_eq_some.mp hs
    exact .inr ⟨_, hwrite (r := { s with handling := .loop }) hs, .inl rfl⟩
  | write f =>
    obtain ⟨-, hs⟩ := Option.ite_none_right_eq_some.mp hs
    exact .inr ⟨f, hwrite hs, .inr rfl⟩

theorem idle_step {s s' : State Body} {e : Event Body} (halone : Alone s e)
    (hs : step s e = some s') (hidle : ∀ id ≠ strand, s.writer.phase (.caller id) = .idle) :
    ∀ id ≠ strand, s'.writer.phase (.caller id) = .idle := by
  intro id hid
  rcases writer_step hs with hsame | ⟨f, hf, hpush⟩
  · rw [hsame]
    exact hidle id hid
  · refine SocketWriter.idle_step hf (hidle id hid) fun p heq ↦ ?_
    rcases hpush with rfl | rfl
    · cases heq
      exact hid rfl
    · rw [heq] at halone
      exact halone

private theorem paced_of_alone {es : List (Event Body)} (hmeets : Meets step Alone State.init es) :
    Meets step Paced State.init es := by
  refine meets_of_invariant (I := fun s ↦ ∀ id ≠ strand, s.writer.phase (.caller id) = .idle)
    (fun _ _ _ halone hs hidle ↦ idle_step halone hs hidle) ?_ hmeets fun _ _ ↦ rfl
  intro s e hidle halone
  cases e with
  | write f =>
    cases f with
    | push id p => exact halone.elim
    | advance t =>
      intro htest
      have hstore : ∀ u, s.writer.phase u ≠ .busy .set ∧ s.writer.phase u ≠ .busy .clear := by
        intro u
        cases u with
        | handler => exact halone htest _ List.mem_cons_self
        | caller id =>
          by_cases hid : id = strand
          · subst hid
            exact halone htest _ (List.mem_cons_of_mem _ List.mem_cons_self)
          · have hout := hidle id hid
            constructor
            · intro hset
              cases hout.symm.trans hset
            · intro hclear
              cases hout.symm.trans hclear
      exact SocketWriter.careful_advance hstore htest
    | complete p | handle => trivial
  | tryPop => exact halone
  | put | get | post | start | listener => trivial

end Alone

/-- The steps of a call of `start_write` that finds nobody writing. -/
def writeFirst : List (Event Body) :=
  [.write (.advance (.caller strand)), .write (.advance (.caller strand)),
    .write (.advance (.caller strand)), .write (.advance (.caller strand))]

/-- A write of the response completes, and its handler pops the next packet and hands it on. -/
def writeNext : List (Event Body) :=
  [.write (.complete .response), .write .handle, .write (.advance .handler),
    .write (.advance .handler)]

/-- Three messages, of which the last two have the same body. All handlers have run, and the last
write has completed. -/
def pacedRun : List (Event ℕ) :=
  [.put 1, .put 2, .put 2, .post, .start, .get, .post, .post, .post, .start, .tryPop, .listener]
    ++ writeFirst ++ [.tryPop, .listener, .write (.advance (.caller strand)), .tryPop, .listener,
      .write (.advance (.caller strand)), .tryPop, .start, .start]
    ++ writeNext ++ writeNext ++ writeNext

theorem delivered_pacedRun :
    ∃ s, run step State.init pacedRun = some s ∧ s.Quiescent ∧ s.sent = [1, 2, 2] ∧
      Always step Delivered State.init pacedRun := by
  refine ⟨_, rfl, ⟨rfl, rfl, rfl, fun t ↦ ?_, rfl, rfl⟩, rfl,
    delivered_of_paced (paced_of_alone (by decide +kernel))⟩
  rcases t with (_ | id) | _ <;> rfl

/-- All messages are popped while the first is written. -/
def hurriedRun : List (Event ℕ) :=
  [.put 1, .put 2, .put 3, .post, .post, .post, .start, .start, .start, .get, .post, .start,
      .tryPop, .listener]
    ++ writeFirst ++ [.tryPop, .listener, .write (.advance (.caller strand)), .tryPop, .listener,
      .write (.advance (.caller strand)), .tryPop]
    ++ writeNext ++ writeNext ++ writeNext

/-- **Three messages.** The first write takes until all have been popped. The last message is sent
twice and the second never. -/
theorem second_message_lost :
    ∃ s, run step State.init hurriedRun = some s ∧ s.Quiescent ∧ s.puts = [1, 2, 3] ∧
      s.sent = [1, 3, 3] ∧ ¬Delivered s := by
  refine ⟨_, rfl, ⟨rfl, rfl, rfl, fun t ↦ ?_, rfl, rfl⟩, rfl, rfl, fun h ↦ ?_⟩
  · rcases t with (_ | id) | _ <;> rfl
  · exact absurd h.inOrder (by decide)

end Slsfs.Proxy.Topics

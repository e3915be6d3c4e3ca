import Mathlib.Data.Fintype.Basic
import Slsfs.Lib.Run

/-!
# How long a worker lives

A worker has a `proxy_command` for each proxy that it is connected to, and each of them waits for
commands for `waittime_`, ten seconds unless the proxy says otherwise. The timer is cancelled when
the header of a command has been read, and starts again from the moment of the last command when the
body has been handled; a `set_timer` packet changes the time, and does not count as a command. When
the timer expires the proxy is told, and then the `io_context` stops, which is that of the whole
process. Besides, the first `proxy_command` is closed after 298 seconds.

Making a connection can end the process as well. A `proxyjoin` packet makes a `proxy_command`, whose
`tcp_server` takes the port after that of the connection the packet came over, and throws if the
port is in use. Which proxies a worker is already connected to is looked up in a set that is a
local variable of `do_datafunction_with_proxy` and gone when the first handler runs. So nothing is
said here about which connections are made: `Event.make` leaves open whether the port is free.

`alive_of_active`: no process ends before that time in which every connection has had a command in
its own time, unless making a connection ends it. `ends_of_quiet`: a process in which one connection
has none comes to its end, however many commands come over the others.

The handlers run in several threads, so the handler of a timer that has expired may run when the
next command is already there. It is not cancelled then.
-/

namespace Slsfs.Datafunction.KeepAlive

variable {ι : Type*} [DecidableEq ι]

/-- What is read from the socket next. -/
inductive Reading where
  | notConnected
  | header
  | body (setTimer : Bool)
  /-- Nothing, after an error. -/
  | failed
  deriving DecidableEq

/-- A `proxy_command`. Times are in nanoseconds. -/
structure Command where
  lastUpdate : ℕ
  waittime : ℕ
  reading : Reading
  /-- When the wait of `recv_deadline_` ends. -/
  deadline : Option ℕ
  /-- The waits that have ended and whose handlers have not run. -/
  expired : ℕ
  /-- The calls of `close` whose packet is not written yet. -/
  closing : ℕ
  deriving DecidableEq

/-- The handlers of one `proxy_command`. -/
inductive Action where
  | connect
  | header (setTimer : Bool)
  | setTimer (duration : UInt32)
  | command
  /-- A read fails. -/
  | fail
  | expire
  /-- The handler of the timer. -/
  | fire
  deriving DecidableEq

structure Process (ι : Type*) where
  now : ℕ
  commands : ι → Option Command
  /-- The handler of `function_timeout` has not run. -/
  functionTimeout : Bool
  stopped : Bool

inductive Event (ι : Type*) where
  | tick (duration : ℕ)
  /-- A `proxy_command` is made, or its `tcp_server` throws because the port is in use. -/
  | make (i : ι) (portFree : Bool)
  | act (i : ι) (action : Action)
  | functionTimeout
  /-- The packet of a `close` is written. -/
  | deregistered (i : ι)
  deriving DecidableEq

/-- `298s`. -/
def functionLimit : ℕ := 298000000000

namespace Command

def make (now : ℕ) : Command := ⟨now, 10000000000, .notConnected, none, 0, 0⟩

def timerReset (c : Command) : Command := { c with deadline := some (c.lastUpdate + c.waittime) }

def act (now : ℕ) (c : Command) : Action → Option Command
  | .connect =>
    if c.reading = .notConnected then some { c with reading := .header }.timerReset else none
  | .header setTimer =>
    if c.reading = .header then
      some { c with
        reading := .body setTimer, deadline := if setTimer then c.deadline else none }
    else none
  | .setTimer duration =>
    if c.reading = .body true then
      some { c with reading := .header, waittime := duration.toNat * 1000000 }.timerReset
    else none
  | .command =>
    if c.reading = .body false then
      some { c with reading := .header, lastUpdate := now }.timerReset
    else none
  | .fail =>
    if c.reading = .header ∨ (∃ setTimer, c.reading = .body setTimer) then
      some { c with reading := .failed }
    else none
  | .expire =>
    if ∃ deadline ∈ c.deadline, deadline ≤ now then
      some { c with deadline := none, expired := c.expired + 1 }
    else none
  | .fire =>
    if c.expired = 0 then none
    else some { c with expired := c.expired - 1, closing := c.closing + 1 }

end Command

namespace Process

def init : Process ι := ⟨0, fun _ ↦ none, true, false⟩

def set (s : Process ι) (i : ι) (c : Command) : Process ι :=
  { s with commands := Function.update s.commands i (some c) }

end Process

/-- One event. `first` is the connection that the process was started for. -/
def step (first : ι) (s : Process ι) (e : Event ι) : Option (Process ι) :=
  if s.stopped then none
  else match e with
    | .tick duration => some { s with now := s.now + duration }
    | .make i portFree =>
      if s.commands i ≠ none then none
      else if portFree then some (s.set i (.make s.now))
      -- nothing catches the exception in a thread of the pool
      else some { s with stopped := true }
    | .act i action => (s.commands i).bind fun c ↦ (c.act s.now action).map (s.set i)
    | .functionTimeout =>
      if s.functionTimeout = true ∧ functionLimit ≤ s.now then
        (s.commands first).map fun c ↦
          { s.set first { c with closing := c.closing + 1 } with functionTimeout := false }
      else none
    | .deregistered i => (s.commands i).bind fun c ↦
      if c.closing = 0 then none else some { s with stopped := true }

variable {first : ι} {s s' t : Process ι} {e : Event ι} {c c' : Command} {i : ι}

private theorem set_self (s : Process ι) (i : ι) (c : Command) : (s.set i c).commands i = some c :=
  Function.update_self ..

private theorem set_of_ne (s : Process ι) {i j : ι} (c : Command) (h : j ≠ i) :
    (s.set i c).commands j = s.commands j := Function.update_of_ne h ..

/-- What a step can do. -/
inductive Effect (first : ι) (s : Process ι) : Event ι → Process ι → Prop
  | tick (duration : ℕ) : Effect first s (.tick duration) { s with now := s.now + duration }
  | make (i : ι) (hnone : s.commands i = none) :
      Effect first s (.make i true) (s.set i (.make s.now))
  | terminate (i : ι) : Effect first s (.make i false) { s with stopped := true }
  | act (i : ι) (action : Action) (c c' : Command) (hc : s.commands i = some c)
      (hact : c.act s.now action = some c') : Effect first s (.act i action) (s.set i c')
  | functionTimeout (c : Command) (hlimit : functionLimit ≤ s.now)
      (hc : s.commands first = some c) : Effect first s .functionTimeout
        { s.set first { c with closing := c.closing + 1 } with functionTimeout := false }
  | deregistered (i : ι) (c : Command) (hc : s.commands i = some c) (hclosing : c.closing ≠ 0) :
      Effect first s (.deregistered i) { s with stopped := true }

theorem effect_of_step (h : step first s e = some s') :
    s.stopped = false ∧ Effect first s e s' := by
  obtain ⟨hrunning, h⟩ := Option.ite_none_left_eq_some.mp h
  refine ⟨by simpa using hrunning, ?_⟩
  cases e with
  | tick duration =>
    cases h
    exact .tick duration
  | make i portFree =>
    obtain ⟨hnone, h⟩ := Option.ite_none_left_eq_some.mp h
    cases portFree with
    | true =>
      cases h
      exact .make i (not_not.mp hnone)
    | false =>
      cases h
      exact .terminate i
  | act i action =>
    obtain ⟨c, hc, h⟩ := Option.bind_eq_some_iff.mp h
    obtain ⟨c', hact, rfl⟩ := Option.map_eq_some_iff.mp h
    exact .act i action c c' hc hact
  | functionTimeout =>
    obtain ⟨⟨-, hlimit⟩, h⟩ := Option.ite_none_right_eq_some.mp h
    obtain ⟨c, hc, rfl⟩ := Option.map_eq_some_iff.mp h
    exact .functionTimeout c hlimit hc
  | deregistered i =>
    obtain ⟨c, hc, h⟩ := Option.bind_eq_some_iff.mp h
    obtain ⟨hclosing, h⟩ := Option.ite_none_left_eq_some.mp h
    cases h
    exact .deregistered i c hc hclosing

private theorem now_step (h : step first s e = some s') : s.now ≤ s'.now := by
  cases (effect_of_step h).2 with
  | tick => exact Nat.le_add_right _ _
  | make | terminate | act | functionTimeout | deregistered => exact Nat.le_refl _

private theorem forall_set {P : Command → Prop} (h : ∀ j c, s.commands j = some c → P c)
    (hc : P c) :
    ∀ j c', (s.set i c).commands j = some c' → P c' := by
  intro j c' hc'
  by_cases hji : j = i
  · subst hji
    rw [set_self, Option.some_inj] at hc'
    exact hc' ▸ hc
  · rw [set_of_ne s c hji] at hc'
    exact h j c' hc'

/-! ## Every connection is in use

Before the time of any connection is over no timer has expired, so nothing is closing. The invariant
is that every timer is set to the end of this time, or not at all. -/

/-- Every connection has had a command in its own time. -/
def Active (s : Process ι) : Prop := ∀ i, ∀ c ∈ s.commands i, s.now < c.lastUpdate + c.waittime

instance [Fintype ι] (s : Process ι) : Decidable (Active s) :=
  inferInstanceAs (Decidable (∀ i, ∀ c ∈ s.commands i, s.now < c.lastUpdate + c.waittime))

/-- **The invariant of a connection in use.** Its timer runs from the last command on, and has never
expired. -/
structure Command.Waiting (c : Command) : Prop where
  deadline : ∀ deadline ∈ c.deadline, deadline = c.lastUpdate + c.waittime
  expired : c.expired = 0
  closing : c.closing = 0

private theorem Command.Waiting.act {now : ℕ} (h : c.Waiting)
    (hactive : now < c.lastUpdate + c.waittime)
    {action : Action} (hact : c.act now action = some c') : c'.Waiting := by
  cases action with
  | connect =>
    obtain ⟨-, hact⟩ := Option.ite_none_right_eq_some.mp hact
    cases hact
    exact ⟨fun _ hd ↦ (Option.mem_some.mp hd).symm, h.expired, h.closing⟩
  | header setTimer =>
    obtain ⟨-, hact⟩ := Option.ite_none_right_eq_some.mp hact
    cases hact
    refine ⟨fun d hd ↦ ?_, h.expired, h.closing⟩
    dsimp only at hd
    split at hd
    · exact h.deadline d hd
    · cases hd
  | setTimer duration =>
    obtain ⟨-, hact⟩ := Option.ite_none_right_eq_some.mp hact
    cases hact
    exact ⟨fun _ hd ↦ (Option.mem_some.mp hd).symm, h.expired, h.closing⟩
  | command =>
    obtain ⟨-, hact⟩ := Option.ite_none_right_eq_some.mp hact
    cases hact
    exact ⟨fun _ hd ↦ (Option.mem_some.mp hd).symm, h.expired, h.closing⟩
  | fail =>
    obtain ⟨-, hact⟩ := Option.ite_none_right_eq_some.mp hact
    cases hact
    exact ⟨h.deadline, h.expired, h.closing⟩
  | expire =>
    obtain ⟨⟨d, hd, hle⟩, -⟩ := Option.ite_none_right_eq_some.mp hact
    have := h.deadline d hd
    omega
  | fire =>
    obtain ⟨hne, -⟩ := Option.ite_none_left_eq_some.mp hact
    exact absurd h.expired hne

/-- The process runs, and every connection waits. -/
def Calm (s : Process ι) : Prop := s.stopped = false ∧ ∀ i c, s.commands i = some c → c.Waiting

theorem Calm.step (h : Calm s) (hactive : Active s) (hmade : ∀ i, e ≠ .make i false)
    (hnow : s.now < functionLimit) (hs : KeepAlive.step first s e = some s') : Calm s' := by
  cases (effect_of_step hs).2 with
  | tick => exact h
  | terminate i => exact absurd rfl (hmade i)
  | make i =>
    exact ⟨h.1, forall_set h.2 ⟨fun _ hd ↦ absurd hd (Option.not_mem_none _), rfl, rfl⟩⟩
  | act i action c c' hc hact =>
    exact ⟨h.1, forall_set h.2 ((h.2 i c hc).act (hactive i c hc) hact)⟩
  | functionTimeout c hlimit => omega
  | deregistered i c hc hclosing => exact absurd (h.2 i c hc).closing hclosing

/-- **A worker in use goes on.** If every event of a run comes when all connections have had a
command in their own time, counted from the last command or from when the connection was made, and
the ports of all connections that are made are free, the process is running before 298 seconds, and
no proxy is told that it ends. -/
theorem alive_of_active (first : ι) (es : List (Event ι)) (s : Process ι)
    (hrun : run (step first) .init es = some s)
    (hactive : Meets (step first) (fun s e ↦ Active s ∧ ∀ i, e ≠ .make i false) .init es)
    (hnow : s.now < functionLimit) :
    s.stopped = false ∧ ∀ i c, s.commands i = some c → c.closing = 0 := by
  have hcalm : s.now < functionLimit → Calm s :=
    invariant_run (I := fun s ↦ s.now < functionLimit → Calm s)
      (fun s e s' ⟨hactive, hmade⟩ hs h hnow ↦
        have hbefore := Nat.lt_of_le_of_lt (now_step hs) hnow
        (h hbefore).step hactive hmade hbefore hs)
      hactive hrun fun _ ↦ ⟨rfl, fun _ _ h ↦ by cases h⟩
  exact ⟨(hcalm hnow).1, fun i c hc ↦ ((hcalm hnow).2 i c hc).closing⟩

/-- A connection gets a command after nine seconds, and another after nine more. -/
def twoCommands : List (Event Unit) :=
  [.make () true, .act () .connect, .tick 9000000000, .act () (.header false), .act () .command,
    .tick 9000000000]

theorem alive_of_active_two : ∃ s, run (step ()) .init twoCommands = some s ∧
    s.stopped = false := by
  obtain ⟨s, hs, hnow⟩ : ∃ s, run (step ()) .init twoCommands = some s ∧
    s.now < functionLimit := ⟨_, rfl, by decide⟩
  exact ⟨s, hs, (alive_of_active () twoCommands s hs (by decide +kernel) hnow).1⟩

/-! ## One connection is quiet

A connection that waits for a header has its timer set, or the timer has expired, or it is closing.
Only the header of a command leads out of this. So when the time is over there is a way to the end
of the process, which needs nothing but the timer of this connection and the write of its packet.
Other events may come in between, and they may end the process as well. -/

/-- The connection is going to be closed when `deadline` has passed, or is being closed. -/
def Command.Quiet (deadline : ℕ) (c : Command) : Prop :=
  c.deadline = some deadline ∧ (c.reading = .header ∨ c.reading = .failed) ∨
    0 < c.expired ∨ 0 < c.closing

/-- Only the header of a packet keeps a connection from being closed. -/
theorem Command.Quiet.act {now deadline : ℕ} (h : c.Quiet deadline) {action : Action}
    (haction : ∀ setTimer, action ≠ .header setTimer) (hact : c.act now action = some c') :
    c'.Quiet deadline := by
  cases action with
  | header setTimer => exact absurd rfl (haction setTimer)
  | connect =>
    obtain ⟨hreading, hact⟩ := Option.ite_none_right_eq_some.mp hact
    cases hact
    rcases h with ⟨-, h⟩ | h
    · rw [hreading] at h
      rcases h with h | h <;> cases h
    · exact .inr h
  | setTimer duration =>
    obtain ⟨hreading, hact⟩ := Option.ite_none_right_eq_some.mp hact
    cases hact
    rcases h with ⟨-, h⟩ | h
    · rw [hreading] at h
      rcases h with h | h <;> cases h
    · exact .inr h
  | command =>
    obtain ⟨hreading, hact⟩ := Option.ite_none_right_eq_some.mp hact
    cases hact
    rcases h with ⟨-, h⟩ | h
    · rw [hreading] at h
      rcases h with h | h <;> cases h
    · exact .inr h
  | fail =>
    obtain ⟨-, hact⟩ := Option.ite_none_right_eq_some.mp hact
    cases hact
    exact h.imp_left fun h ↦ ⟨h.1, .inr rfl⟩
  | expire =>
    obtain ⟨-, hact⟩ := Option.ite_none_right_eq_some.mp hact
    cases hact
    exact .inr (.inl (Nat.succ_pos _))
  | fire =>
    obtain ⟨-, hact⟩ := Option.ite_none_left_eq_some.mp hact
    cases hact
    exact .inr (.inr (Nat.succ_pos _))

/-- A connection that waits for a command has its timer. -/
def Command.Timed (c : Command) : Prop :=
  c.reading = .header → c.Quiet (c.lastUpdate + c.waittime)

private theorem Command.timed_of_act {now : ℕ} {action : Action}
    (hact : c.act now action = some c') : c'.Timed := by
  cases action with
  | connect | setTimer duration | command =>
    obtain ⟨-, hact⟩ := Option.ite_none_right_eq_some.mp hact
    cases hact
    exact fun _ ↦ .inl ⟨rfl, .inl rfl⟩
  | header setTimer | fail =>
    obtain ⟨-, hact⟩ := Option.ite_none_right_eq_some.mp hact
    cases hact
    exact fun hreading ↦ by cases hreading
  | expire =>
    obtain ⟨-, hact⟩ := Option.ite_none_right_eq_some.mp hact
    cases hact
    exact fun _ ↦ .inr (.inl (Nat.succ_pos _))
  | fire =>
    obtain ⟨-, hact⟩ := Option.ite_none_left_eq_some.mp hact
    cases hact
    exact fun _ ↦ .inr (.inr (Nat.succ_pos _))

private theorem timed_run {es : List (Event ι)} (hrun : run (step first) .init es = some s) :
    ∀ i c, s.commands i = some c → c.Timed := by
  refine invariant_run_of_step (I := fun s : Process ι ↦ ∀ i c, s.commands i = some c → c.Timed)
    (fun s e s' hs h ↦ ?_) hrun fun _ _ h ↦ by cases h
  cases (effect_of_step hs).2 with
  | tick | terminate | deregistered => exact h
  | make i => exact forall_set h fun hreading ↦ by cases hreading
  | act i action c c' hc hact => exact forall_set h (Command.timed_of_act hact)
  | functionTimeout c => exact forall_set h fun _ ↦ .inr (.inr (Nat.succ_pos _))

/-- The process ends, or one connection is quiet. -/
def Ending (i : ι) (deadline : ℕ) (s : Process ι) : Prop :=
  s.stopped = true ∨ ∃ c, s.commands i = some c ∧ c.Quiet deadline

private theorem ending_step {deadline : ℕ} (h : Ending i deadline s)
    (he : ∀ setTimer, e ≠ .act i (.header setTimer)) (hs : step first s e = some s') :
    Ending i deadline s' := by
  obtain ⟨hrunning, heffect⟩ := effect_of_step hs
  obtain ⟨c, hc, hquiet⟩ := h.resolve_left (by rw [hrunning]; exact Bool.false_ne_true)
  have hother : ∀ {j : ι} (c' : Command), i ≠ j → (s.set j c').commands i = some c :=
    fun c' hne ↦ (set_of_ne s c' hne).trans hc
  cases heffect with
  | tick => exact .inr ⟨c, hc, hquiet⟩
  | make j hnone =>
    refine .inr ⟨c, hother _ ?_, hquiet⟩
    rintro rfl
    rw [hc] at hnone
    cases hnone
  | act j action d d' hd hact =>
    by_cases hij : i = j
    · subst hij
      obtain rfl : c = d := Option.some_inj.mp (hc.symm.trans hd)
      exact .inr ⟨d', set_self .., hquiet.act (fun b hb ↦ he b (hb ▸ rfl)) hact⟩
    · exact .inr ⟨c, hother _ hij, hquiet⟩
  | functionTimeout d hlimit hd =>
    by_cases hij : i = first
    · subst hij
      exact .inr ⟨_, set_self .., .inr (.inr (Nat.succ_pos _))⟩
    · exact .inr ⟨c, hother _ hij, hquiet⟩
  | terminate | deregistered => exact .inl rfl

/-- The handlers of one connection that end the process. -/
def Closes (i : ι) (e : Event ι) : Prop :=
  e = .act i .expire ∨ e = .act i .fire ∨ e = .deregistered i

private theorem step_act {action : Action} (hrunning : s.stopped = false)
    (hc : s.commands i = some c)
    (hact : c.act s.now action = some c') : step first s (.act i action) = some (s.set i c') := by
  rw [step, hrunning, if_neg Bool.false_ne_true, hc, Option.bind_some, hact, Option.map_some]

private theorem exists_stop_of_closing (first : ι) (hrunning : s.stopped = false)
    (hc : s.commands i = some c) (hclosing : 0 < c.closing) :
    ∃ es t, (∀ e ∈ es, Closes i e) ∧ run (step first) s es = some t ∧ t.stopped = true := by
  refine ⟨[.deregistered i], { s with stopped := true }, ?_, run_cons_eq_some.mpr ⟨_, ?_, rfl⟩, rfl⟩
  · exact List.forall_mem_singleton.mpr (.inr (.inr rfl))
  · rw [step, hrunning, if_neg Bool.false_ne_true, hc, Option.bind_some, if_neg (by omega)]

private theorem exists_stop_of_expired (first : ι) (hrunning : s.stopped = false)
    (hc : s.commands i = some c) (hexpired : 0 < c.expired) :
    ∃ es t, (∀ e ∈ es, Closes i e) ∧ run (step first) s es = some t ∧ t.stopped = true := by
  let c' : Command := { c with expired := c.expired - 1, closing := c.closing + 1 }
  have hact : c.act s.now .fire = some c' := if_neg (by omega)
  obtain ⟨es, t, hes, hrun, hstopped⟩ := exists_stop_of_closing (s := s.set i c') first hrunning
    (set_self s i c') (Nat.succ_pos c.closing)
  exact ⟨.act i .fire :: es, t, List.forall_mem_cons.mpr ⟨.inr (.inl rfl), hes⟩,
    run_cons_eq_some.mpr ⟨_, step_act hrunning hc hact, hrun⟩, hstopped⟩

private theorem exists_stop_of_quiet (first : ι) {deadline : ℕ} (hrunning : s.stopped = false)
    (hc : s.commands i = some c) (hquiet : c.Quiet deadline) (hlate : deadline ≤ s.now) :
    ∃ es t, (∀ e ∈ es, Closes i e) ∧ run (step first) s es = some t ∧ t.stopped = true := by
  rcases hquiet with ⟨hdeadline, -⟩ | hexpired | hclosing
  · let c' : Command := { c with deadline := none, expired := c.expired + 1 }
    have hact : c.act s.now .expire = some c' := if_pos ⟨deadline, hdeadline, hlate⟩
    obtain ⟨es, t, hes, hrun, hstopped⟩ := exists_stop_of_expired (s := s.set i c') first hrunning
      (set_self s i c') (Nat.succ_pos c.expired)
    exact ⟨.act i .expire :: es, t, List.forall_mem_cons.mpr ⟨.inl rfl, hes⟩,
      run_cons_eq_some.mpr ⟨_, step_act hrunning hc hact, hrun⟩, hstopped⟩
  · exact exists_stop_of_expired first hrunning hc hexpired
  · exact exists_stop_of_closing first hrunning hc hclosing

/-- **One quiet connection ends the worker.** From every reachable state in which a connection waits
for a command, if no packet comes over that connection until its time is over, counted from its last
command, then whatever comes over the other connections the process has stopped, or the handlers of
that connection alone are going to stop it. -/
theorem ends_of_quiet (first : ι) (es es' : List (Event ι)) (s t : Process ι) (i : ι) (c : Command)
    (hrun : run (step first) .init es = some s) (hc : s.commands i = some c)
    (hreading : c.reading = .header) (hrun' : run (step first) s es' = some t)
    (hquiet : ∀ e ∈ es', ∀ setTimer, e ≠ .act i (.header setTimer))
    (hlate : c.lastUpdate + c.waittime ≤ t.now) :
    t.stopped = true ∨
      ∃ fs u, (∀ e ∈ fs, Closes i e) ∧ run (step first) t fs = some u ∧ u.stopped = true := by
  have hending : Ending i (c.lastUpdate + c.waittime) t :=
    invariant_run (I := Ending i (c.lastUpdate + c.waittime))
      (fun _ _ _ he hs h ↦ ending_step h he hs) (meets_of_forall_mem hquiet s) hrun'
      (.inr ⟨c, hc, timed_run hrun i c hc hreading⟩)
  cases hstopped : t.stopped with
  | true => exact .inl rfl
  | false =>
    obtain ⟨c', hc', hquiet'⟩ := hending.resolve_left (by rw [hstopped]; exact Bool.false_ne_true)
    exact .inr (exists_stop_of_quiet first hstopped hc' hquiet' hlate)

/-- Two connections, one of which gets a command each five seconds. -/
def twoConnections : List (Event Bool) :=
  [.make false true, .act false .connect, .make true true, .act true .connect]

def busySecond : List (Event Bool) :=
  [.tick 5000000000, .act true (.header false), .act true .command, .tick 5000000000,
    .act true (.header false), .act true .command]

theorem ends_of_quiet_first : ∃ s t, run (step false) .init twoConnections = some s ∧
    run (step false) s busySecond = some t ∧ t.stopped = false ∧
      ∃ fs u, (∀ e ∈ fs, Closes false e) ∧ run (step false) t fs = some u ∧ u.stopped = true := by
  obtain ⟨s, t, c, hs, ht, hrunning, hc, hreading, hlate⟩ : ∃ s t c,
      run (step false) .init twoConnections = some s ∧ run (step false) s busySecond = some t ∧
        t.stopped = false ∧ s.commands false = some c ∧ c.reading = .header ∧
        c.lastUpdate + c.waittime ≤ t.now := ⟨_, _, _, rfl, rfl, rfl, rfl, rfl, by decide⟩
  refine ⟨s, t, hs, ht, hrunning, (ends_of_quiet false twoConnections busySecond s t false c hs hc
    hreading ht (by simp [busySecond]) hlate).resolve_left ?_⟩
  rw [hrunning]
  exact Bool.false_ne_true

end Slsfs.Datafunction.KeepAlive

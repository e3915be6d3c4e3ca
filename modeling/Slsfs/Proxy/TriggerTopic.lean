import Slsfs.LeveldbPack
import Slsfs.Proxy.Trigger

/-!
# Trigger topics

A packet whose salt ends in zero belongs to a trigger topic. Its `bucket` keeps the messages that
are put to it in a queue as that of any other topic, but the handler of `start_handle_events` posts
a request for each message to a url. The body of the request is taken from the packet the handler
was posted for, and not from the message it has popped. So as long as messages come one at a time
each is posted, and of messages that come together one is posted for all.

The handlers of a bucket run one at a time on its strand, in the order in which they come to it. The
bucket makes its trigger at the first post, and keeps it.

`one_post_each`: there is one post for each message, and none is written twice. `posts_eq_puts`:
messages that come one at a time are posted in order. `burst_posts`: of messages that come together,
any one may be posted for all. `silent_after_failure`: once a write or a read of the trigger has
failed, messages go on to be posted, and none is written.
-/

namespace Slsfs.Proxy.TriggerTopic

open LeveldbPack (Buf)

/-- Where the handler on the strand is, and the body of the packet it was posted for. -/
inductive Handling where
  | idle
  /-- Before `try_pop`. -/
  | loop (key : Buf)
  /-- Before `start_trigger_post`. -/
  | calling (key : Buf)
  deriving DecidableEq

structure State where
  messageQueue : List Buf
  /-- The calls of `start_handle_events` whose handlers are not on the strand yet. -/
  posting : List Buf
  /-- The handlers on the strand that have not run. -/
  events : List Buf
  handling : Handling
  binding : Option (Trigger.State Buf)
  /-- The bodies in the order they were put. -/
  puts : List Buf
  /-- The bodies in the order they were posted to the trigger. -/
  posts : List Buf

inductive Event where
  /-- `start_store` pushes a message. -/
  | put (body : Buf)
  /-- `start_load`, whose packet has no body. -/
  | get
  /-- The handler that `start_handle_events` has posted comes to the strand. -/
  | post (key : Buf)
  | start
  | tryPop
  /-- `start_trigger_post`. -/
  | startPost (named : Bool)
  /-- A handler of the trigger runs. -/
  | trigger (e : Trigger.Event Buf)
  deriving DecidableEq

namespace State

def init : State := ⟨[], [], [], .idle, none, [], []⟩

/-- The trigger, which is new if it was not needed before. -/
def toTrigger (s : State) : Trigger.State Buf := s.binding.getD .init

/-- The requests that were written. -/
def written (s : State) : List Buf := s.toTrigger.written

def put (s : State) (body : Buf) : State :=
  { s with
    messageQueue := s.messageQueue ++ [body]
    posting := s.posting ++ [body]
    puts := s.puts ++ [body] }

/-- No call is inside, and no handler waits or runs. -/
def Quiescent (s : State) : Prop := s.posting = [] ∧ s.events = [] ∧ s.handling = .idle

end State

/-- One event. The stream of the trigger is an ssl stream. -/
def step (s : State) : Event → Option State
  | .put body => some (s.put body)
  | .get => some { s with posting := s.posting ++ [[]] }
  | .post key =>
    if key ∈ s.posting then
      some { s with posting := s.posting.erase key, events := s.events ++ [key] }
    else none
  | .start =>
    match s.handling, s.events with
    | .idle, key :: rest => some { s with events := rest, handling := .loop key }
    | _, _ => none
  | .tryPop =>
    match s.handling, s.messageQueue with
    | .loop _, [] => some { s with handling := .idle }
    | .loop key, _ :: rest => some { s with messageQueue := rest, handling := .calling key }
    | _, _ => none
  | .startPost named =>
    match s.handling with
    | .calling key => (Trigger.step true s.toTrigger (.post key named)).map fun t ↦
        { s with handling := .loop key, binding := some t, posts := s.posts ++ [key] }
    | _ => none
  | .trigger e =>
    match e with
    | .post _ _ => none
    | e => (s.binding.bind fun t ↦ Trigger.step true t e).map fun t ↦ { s with binding := some t }

variable {s s' t : State} {e : Event}

/-! ## What a step can do

The steps of the bucket are those of its queue and its strand. A handler of the trigger changes the
trigger alone, and what it does is in `Trigger`. -/

/-- What a step can do, to the topic and to its trigger. -/
inductive Effect (s : State) : Event → State → Prop
  | put (body : Buf) : Effect s (.put body) (s.put body)
  | get : Effect s .get { s with posting := s.posting ++ [[]] }
  | post (key : Buf) (hkey : key ∈ s.posting) :
      Effect s (.post key) { s with posting := s.posting.erase key, events := s.events ++ [key] }
  | start (key : Buf) (rest : List Buf) (hidle : s.handling = .idle)
      (hevents : s.events = key :: rest) :
      Effect s .start { s with events := rest, handling := .loop key }
  | done (key : Buf) (hloop : s.handling = .loop key) (hempty : s.messageQueue = []) :
      Effect s .tryPop { s with handling := .idle }
  | pop (key m : Buf) (rest : List Buf) (hloop : s.handling = .loop key)
      (hqueue : s.messageQueue = m :: rest) :
      Effect s .tryPop { s with messageQueue := rest, handling := .calling key }
  | startPost (key : Buf) (named : Bool) (trigger : Trigger.State Buf)
      (hcalling : s.handling = .calling key)
      (hstep : Trigger.step true s.toTrigger (.post key named) = some trigger) :
      Effect s (.startPost named)
        { s with handling := .loop key, binding := some trigger, posts := s.posts ++ [key] }
  | trigger (e : Trigger.Event Buf) (trigger : Trigger.State Buf)
      (hpost : ∀ key named, e ≠ .post key named)
      (hstep : Trigger.step true s.toTrigger e = some trigger) :
      Effect s (.trigger e) { s with binding := some trigger }

theorem effect_of_step (h : step s e = some s') : Effect s e s' := by
  cases e with
  | put body =>
    cases h
    exact .put body
  | get =>
    cases h
    exact .get
  | post key =>
    obtain ⟨hkey, h⟩ := Option.ite_none_right_eq_some.mp h
    cases h
    exact .post key hkey
  | start =>
    rw [step] at h
    split at h
    · cases h
      exact .start _ _ ‹_› ‹_›
    · cases h
  | tryPop =>
    rw [step] at h
    split at h
    · cases h
      exact .done _ ‹_› ‹_›
    · cases h
      exact .pop _ _ _ ‹_› ‹_›
    · cases h
  | startPost named =>
    rw [step] at h
    split at h
    · obtain ⟨trigger, hstep, h⟩ := Option.map_eq_some_iff.mp h
      cases h
      exact .startPost _ named trigger ‹_› hstep
    · cases h
  | trigger e =>
    have hpost : ∀ key named, e ≠ .post key named := by
      rintro key named rfl
      cases h
    rw [step] at h
    · obtain ⟨trigger, hstep, h⟩ := Option.map_eq_some_iff.mp h
      obtain ⟨before, hbinding, hstep⟩ := Option.bind_eq_some_iff.mp hstep
      cases h
      refine .trigger e trigger hpost ?_
      rw [State.toTrigger, hbinding]
      exact hstep
    · exact hpost

private theorem trigger_step (h : step s e = some s') : ∃ fs,
    run (Trigger.step true) s.toTrigger fs = some s'.toTrigger ∧
      ∀ f, e = .trigger f → f ∈ fs := by
  cases effect_of_step h with
  | put | get | post | start | done | pop => exact ⟨[], rfl, fun f h ↦ by cases h⟩
  | startPost key named trigger _ hstep =>
    exact ⟨[.post key named], run_cons_eq_some.mpr ⟨_, hstep, rfl⟩, fun f h ↦ by cases h⟩
  | trigger e trigger _ hstep =>
    refine ⟨[e], run_cons_eq_some.mpr ⟨_, hstep, rfl⟩, fun f h ↦ ?_⟩
    cases h
    exact List.mem_singleton_self _

private theorem trigger_run {es : List Event} (h : run step s es = some t) : ∃ fs,
    run (Trigger.step true) s.toTrigger fs = some t.toTrigger ∧
      ∀ f, .trigger f ∈ es → f ∈ fs := by
  induction es generalizing s with
  | nil =>
    cases h
    exact ⟨[], rfl, fun f h ↦ by cases h⟩
  | cons e es ih =>
    obtain ⟨u, hu, hrest⟩ := run_cons_eq_some.mp h
    obtain ⟨fs, hfs, hmem⟩ := trigger_step hu
    obtain ⟨gs, hgs, hmem'⟩ := ih hrest
    refine ⟨fs ++ gs, run_append_eq_some.mpr ⟨_, hfs, hgs⟩, fun f hf ↦ ?_⟩
    rcases List.mem_cons.mp hf with hf | hf
    · exact List.mem_append_left _ (hmem f hf.symm)
    · exact List.mem_append_right _ (hmem' f hf)

/-! ## Every message is posted once

A handler that finds messages in the queue posts until there are none, with the body it was posted
with itself. So the number of posts is that of the messages, and whatever is in the queue has a
handler that is still to come. That the bodies are right is another matter. The body of a `get`
handler is empty, and it may post messages as well. -/

namespace Handling

/-- The packet that the running handler was posted for. -/
def keys : Handling → List Buf
  | .idle => []
  | .loop key | .calling key => [key]

/-- The body that is about to be posted. -/
def called : Handling → List Buf
  | .calling key => [key]
  | _ => []

end Handling

/-- The packets whose handlers are not over. -/
def State.keys (s : State) : List Buf := s.posting ++ s.events ++ s.handling.keys

theorem State.Quiescent.keys (h : s.Quiescent) : s.keys = [] := by
  rw [State.keys, h.1, h.2.1, h.2.2]
  rfl

/-- **The invariant.** A message in the queue has a handler to come. -/
structure Counted (s : State) : Prop where
  count : s.puts.length = s.posts.length + s.handling.called.length + s.messageQueue.length
  drained : s.messageQueue ≠ [] → s.keys ≠ []
  bodies : ∀ b ∈ s.keys ++ s.posts, b ∈ s.puts ∨ b = []
  posted : s.toTrigger.posted = s.posts

theorem Counted.init : Counted .init where
  count := rfl
  drained h := absurd rfl h
  bodies _ h := by cases h
  posted := rfl

theorem Counted.step (h : Counted s) (hs : step s e = some s') : Counted s' := by
  have hcount := h.count
  have hbodies := h.bodies
  simp only [State.keys, List.mem_append] at hbodies
  cases effect_of_step hs with
  | put body =>
    refine ⟨?_, fun _ ↦ ?_, fun b hb ↦ ?_, h.posted⟩
    · simp only [State.put, List.length_append]
      omega
    · simp [State.keys, State.put]
    · simp only [State.keys, State.put, List.mem_append, List.mem_singleton] at hb ⊢
      have := hbodies b
      tauto
  | get =>
    refine ⟨hcount, fun _ ↦ by simp [State.keys], fun b hb ↦ ?_, h.posted⟩
    simp only [State.keys, List.mem_append, List.mem_singleton] at hb
    have := hbodies b
    tauto
  | post key hkey =>
    refine ⟨hcount, fun _ ↦ by simp [State.keys], fun b hb ↦ ?_, h.posted⟩
    simp only [State.keys, List.mem_append, List.mem_singleton] at hb
    have hmem : b ∈ s.posting.erase key ∨ b = key → b ∈ s.posting := by
      rintro (hb | rfl)
      · exact List.mem_of_mem_erase hb
      · exact hkey
    have := hbodies b
    tauto
  | start key rest hidle hevents =>
    rw [hidle] at hcount hbodies
    rw [hevents] at hbodies
    refine ⟨hcount, fun _ ↦ by simp [State.keys, Handling.keys], fun b hb ↦ ?_, h.posted⟩
    simp only [State.keys, Handling.keys, List.mem_append, List.mem_cons] at hb hbodies
    have := hbodies b
    tauto
  | done key hloop hempty =>
    rw [hloop] at hcount hbodies
    refine ⟨hcount, fun hne ↦ absurd hempty hne, fun b hb ↦ ?_, h.posted⟩
    simp only [State.keys, Handling.keys, List.append_nil, List.mem_append] at hb
    have := hbodies b
    tauto
  | pop key m rest hloop hqueue =>
    rw [hloop] at hcount hbodies
    refine ⟨?_, fun _ ↦ by simp [State.keys, Handling.keys], fun b hb ↦ ?_, h.posted⟩
    · rw [hqueue, List.length_cons] at hcount
      simp only [Handling.called, List.length_nil, List.length_singleton] at hcount ⊢
      omega
    · simp only [State.keys, Handling.keys, List.mem_append] at hb hbodies
      exact hbodies b hb
  | startPost key named trigger hcalling hstep =>
    rw [hcalling] at hcount hbodies
    refine ⟨?_, fun _ ↦ by simp [State.keys, Handling.keys], fun b hb ↦ ?_, ?_⟩
    · simp only [Handling.called, List.length_nil, List.length_append] at hcount ⊢
      omega
    · simp only [State.keys, Handling.keys, List.mem_append, List.mem_singleton] at hb hbodies
      have := hbodies b
      tauto
    · rw [State.toTrigger, Option.getD_some, Trigger.posted_step hstep, h.posted]
      rfl
  | trigger e trigger hpost hstep =>
    refine ⟨hcount, h.drained, h.bodies, ?_⟩
    rw [State.toTrigger, Option.getD_some, Trigger.posted_step hstep, h.posted,
      Trigger.posts_eq_nil hpost, List.append_nil]

private theorem counted_run {es : List Event} (hrun : run step .init es = some s) : Counted s :=
  invariant_run_of_step (fun _ _ _ hs h ↦ h.step hs) hrun .init

private theorem Counted.of_quiescent (h : Counted s) (hquiet : s.Quiescent) :
    s.messageQueue = [] ∧ s.posts.length = s.puts.length := by
  have hqueue : s.messageQueue = [] := by_contra fun hne ↦ h.drained hne hquiet.keys
  have hcount := h.count
  rw [hqueue, hquiet.2.2] at hcount
  exact ⟨hqueue, hcount.symm⟩

/-- **One post for each message.** In every run, when nothing is under way, the queue is empty and
as many requests have been posted as messages were put. Every one has the body of a message, or none
at all, and none is written more often than it is posted. -/
theorem one_post_each (es : List Event) (s : State) (hrun : run step .init es = some s) :
    (s.Quiescent → s.messageQueue = [] ∧ s.posts.length = s.puts.length) ∧
      (∀ b ∈ s.posts, b ∈ s.puts ∨ b = []) ∧ ∀ b, s.written.count b ≤ s.posts.count b := by
  have h := counted_run hrun
  refine ⟨h.of_quiescent, fun b hb ↦ h.bodies b (List.mem_append_right _ hb), fun b ↦ ?_⟩
  obtain ⟨fs, hfs, -⟩ := trigger_run hrun
  rw [← h.posted]
  change s.toTrigger.written.count b ≤ s.toTrigger.posted.count b
  convert Trigger.count_written_run hfs b

/-- Two messages are put before the handler of the first one runs, which pops both. -/
def burst : List Event :=
  [.put [1], .put [2], .post [1], .post [2], .start, .tryPop, .startPost true, .tryPop,
    .startPost true, .tryPop, .start, .tryPop]

theorem one_post_each_burst : ∃ s, run step .init burst = some s ∧ s.posts.length = 2 := by
  obtain ⟨s, hs, hquiet, hputs⟩ : ∃ s, run step .init burst = some s ∧ s.Quiescent ∧
      s.puts.length = 2 := ⟨_, rfl, ⟨rfl, rfl, rfl⟩, rfl⟩
  exact ⟨s, hs, (((one_post_each _ s hs).1 hquiet).2).trans hputs⟩

/-- **After a failure.** Once a write or a read of the trigger has failed, no request is written any
more, though the messages that are put go on to be posted, one for each. -/
theorem silent_after_failure (es es' : List Event) (s t : State)
    (hrun : run step .init es = some s) (hrun' : run step s es' = some t) (e : Trigger.Event Buf)
    (he : .trigger e ∈ es) (hfail : Trigger.Failure e) :
    t.written = s.written ∧ (t.Quiescent → t.posts.length = t.puts.length) := by
  have h := counted_run (run_append_eq_some.mpr ⟨s, hrun, hrun'⟩)
  refine ⟨?_, fun hquiet ↦ (h.of_quiescent hquiet).2⟩
  obtain ⟨fs, hfs, hmem⟩ := trigger_run hrun
  obtain ⟨gs, hgs, -⟩ := trigger_run hrun'
  rcases Trigger.running_or_stuck hfs with ⟨hok, -⟩ | ⟨-, hstuck⟩
  · exact absurd hfail (hok e (hmem e he))
  · exact (Trigger.written_run hstuck.jammed hgs).2

/-- A message is put and posted. -/
def onePut (body : Buf) : List Event :=
  [.put body, .post body, .start, .tryPop, .startPost true, .tryPop]

/-- The first write fails. -/
def failedPut : List Event :=
  onePut [1] ++ [.trigger (.resolved [1] true), .trigger (.connected [1] true true),
    .trigger (.shaken [1] true), .trigger (.written [1] false true)]

theorem silent_after_failure_second : ∃ s t, run step .init failedPut = some s ∧
    run step s (onePut [2]) = some t ∧ t.posts.length = 2 ∧ t.written = s.written := by
  obtain ⟨s, t, hs, ht, hquiet, hputs⟩ : ∃ s t, run step .init failedPut = some s ∧
      run step s (onePut [2]) = some t ∧ t.Quiescent ∧ t.puts.length = 2 :=
    ⟨_, _, rfl, rfl, ⟨rfl, rfl, rfl⟩, rfl⟩
  obtain ⟨hwritten, hlength⟩ := silent_after_failure failedPut (onePut [2]) s t hs ht
    (.written [1] false true) (by decide) rfl
  exact ⟨s, t, hs, ht, (hlength hquiet).trans hputs, hwritten⟩

/-! ## One message at a time

If a message is put only when everything is quiet, then there is one handler, and the message in the
queue is the one it was posted for. -/

/-- Calls come only when the ones before are done with. -/
def Alone (s : State) : Event → Prop
  | .put _ | .get => s.Quiescent
  | _ => True

/-- **The invariant.** There is one handler at most, and what it finds is the message it was posted
for. -/
structure InTurn (s : State) : Prop extends Counted s where
  one : s.keys.length ≤ 1
  own : ∀ key ∈ s.keys, ∀ m ∈ s.messageQueue, m = key
  order : s.puts = s.posts ++ s.handling.called ++ s.messageQueue

theorem InTurn.init : InTurn .init where
  toCounted := .init
  one := Nat.zero_le 1
  own _ h := by cases h
  order := rfl

theorem InTurn.step (h : InTurn s) (halone : Alone s e) (hs : step s e = some s') : InTurn s' := by
  have hcounted := h.toCounted.step hs
  have hone := h.one
  have hown := h.own
  have horder := h.order
  cases effect_of_step hs with
  | put body =>
    have hqueue := (h.of_quiescent halone).1
    obtain ⟨hposting, hevents, hidle⟩ := halone
    rw [hidle, hqueue] at horder
    refine ⟨hcounted, ?_, fun key hkey m hm ↦ ?_, ?_⟩
    · simp [State.keys, State.put, hposting, hevents, hidle, Handling.keys]
    · simp only [State.keys, State.put, hposting, hevents, hidle, Handling.keys, hqueue,
        List.nil_append, List.append_nil, List.mem_singleton] at hkey hm
      rw [hkey, hm]
    · simp [State.put, hqueue, hidle, Handling.called, horder]
  | get =>
    have hqueue := (h.of_quiescent halone).1
    obtain ⟨hposting, hevents, hidle⟩ := halone
    refine ⟨hcounted, ?_, fun key _ m hm ↦ ?_, horder⟩
    · simp [State.keys, hposting, hevents, hidle, Handling.keys]
    · rw [hqueue] at hm
      cases hm
  | post key hkey =>
    have hperm : (s.posting.erase key ++ (s.events ++ [key])).Perm (s.posting ++ s.events) := by
      rw [← List.append_assoc]
      exact (List.perm_append_singleton _ _).trans
        ((List.perm_cons_erase hkey).symm.append_right s.events)
    have hkeys := hperm.append_right s.handling.keys
    exact ⟨hcounted, hkeys.length_eq ▸ hone, fun k hk ↦ hown k (hkeys.mem_iff.mp hk), horder⟩
  | start key rest hidle hevents =>
    simp only [State.keys, hidle, hevents, Handling.keys, List.length_append, List.length_cons,
      List.length_nil] at hone
    have hrest : rest = [] := List.eq_nil_of_length_eq_zero (by omega)
    have hposting : s.posting = [] := List.eq_nil_of_length_eq_zero (by omega)
    rw [hidle] at horder
    refine ⟨hcounted, ?_, fun k hk ↦ hown k ?_, horder⟩
    · simp [State.keys, hposting, hrest, Handling.keys]
    · simp only [State.keys, hidle, hevents, Handling.keys, List.mem_append, List.mem_cons] at hk ⊢
      tauto
  | done key hloop hempty =>
    rw [hloop] at horder
    refine ⟨hcounted, ?_, fun k _ m hm ↦ ?_, horder⟩
    · simp only [State.keys, hloop, Handling.keys, List.length_append, List.length_cons,
        List.length_nil] at hone ⊢
      omega
    · rw [hempty] at hm
      cases hm
  | pop key m rest hloop hqueue =>
    -- The message that is popped has the body that is going to be posted.
    have hm : m = key := hown key (by simp [State.keys, hloop, Handling.keys]) m
      (by rw [hqueue]; exact List.mem_cons_self)
    subst hm
    simp only [State.keys, hloop, Handling.keys] at hone hown
    rw [hloop, hqueue] at horder
    refine ⟨hcounted, hone, fun k hk m' hm' ↦ hown k hk m' ?_, ?_⟩
    · rw [hqueue]
      exact List.mem_cons_of_mem _ hm'
    · rw [horder]
      simp [Handling.called]
  | startPost key named trigger hcalling hstep =>
    simp only [State.keys, hcalling, Handling.keys] at hone hown
    rw [hcalling] at horder
    refine ⟨hcounted, hone, hown, ?_⟩
    rw [horder]
    simp [Handling.called]
  | trigger => exact ⟨hcounted, hone, hown, horder⟩

/-- **One message at a time.** If messages are put, and asked for, only when the ones before are
done with, the requests that are posted have the bodies of the messages, in their order. -/
theorem posts_eq_puts (es : List Event) (s : State) (hrun : run step .init es = some s)
    (halone : Meets step Alone .init es) (hquiet : s.Quiescent) : s.posts = s.puts := by
  have h := invariant_run (fun _ _ _ halone hs h ↦ InTurn.step h halone hs) halone hrun .init
  rw [h.order, (h.of_quiescent hquiet).1, hquiet.2.2]
  simp [Handling.called]

private theorem meets_onePut (h : s.Quiescent) (body : Buf) : Meets step Alone s (onePut body) :=
  ⟨h, fun _ _ ↦ ⟨trivial, fun _ _ ↦ ⟨trivial, fun _ _ ↦ ⟨trivial, fun _ _ ↦ ⟨trivial,
    fun _ _ ↦ ⟨trivial, fun _ _ ↦ trivial⟩⟩⟩⟩⟩⟩

theorem posts_eq_puts_two : ∃ s, run step .init (onePut [1] ++ onePut [2]) = some s ∧
    s.posts = [[1], [2]] := by
  obtain ⟨s, hs, hquiet, hputs⟩ : ∃ s, run step .init (onePut [1] ++ onePut [2]) = some s ∧
      s.Quiescent ∧ s.puts = [[1], [2]] := ⟨_, rfl, ⟨rfl, rfl, rfl⟩, rfl⟩
  obtain ⟨u, hu, hfirst⟩ : ∃ u, run step .init (onePut [1]) = some u ∧ u.Quiescent :=
    ⟨_, rfl, ⟨rfl, rfl, rfl⟩⟩
  refine ⟨s, hs, (posts_eq_puts _ s hs ((meets_append_iff hu).mpr ⟨?_, ?_⟩) hquiet).trans hputs⟩
  · exact meets_onePut ⟨rfl, rfl, rfl⟩ [1]
  · exact meets_onePut hfirst [2]

/-! ## Messages that come together

If the handlers run after all messages have been put, the first one to run empties the queue, and
the others find nothing. Handlers may come to the strand in any order, so any of them may be the
first. -/

private theorem run_puts (bodies : List Buf) (s : State) : run step s (bodies.map .put) =
    some { s with
      messageQueue := s.messageQueue ++ bodies
      posting := s.posting ++ bodies
      puts := s.puts ++ bodies } := by
  induction bodies generalizing s with
  | nil => simp
  | cons body bodies ih =>
    refine run_cons_eq_some.mpr ⟨s.put body, rfl, ?_⟩
    rw [ih]
    simp [State.put]

private theorem run_posts {keys : List Buf} (h : s.posting = keys) : run step s (keys.map .post) =
    some { s with posting := [], events := s.events ++ keys } := by
  induction keys generalizing s with
  | nil =>
    have heq : { s with posting := [] } = s := by rw [← h]
    rw [List.append_nil, List.map_nil, run_nil, heq]
  | cons key keys ih =>
    refine run_cons_eq_some.mpr ⟨{ s with posting := keys, events := s.events ++ [key] }, ?_, ?_⟩
    · rw [step, h, if_pos List.mem_cons_self, List.erase_cons_head]
    · rw [ih rfl]
      simp

private theorem run_loop {key : Buf} (h : s.handling = .loop key) : ∃ es binding, run step s es =
    some { s with
      messageQueue := []
      handling := .idle
      binding
      posts := s.posts ++ List.replicate s.messageQueue.length key } := by
  induction hqueue : s.messageQueue generalizing s with
  | nil =>
    refine ⟨[.tryPop], s.binding, run_cons_eq_some.mpr ⟨{ s with handling := .idle }, ?_, ?_⟩⟩
    · simp only [step, h, hqueue]
    · simp [hqueue]
  | cons m rest ih =>
    let popped : State := { s with messageQueue := rest, handling := .calling key }
    have hpop : step s .tryPop = some popped := by
      simp only [step, h, hqueue, popped]
    obtain ⟨trigger, htrigger⟩ : ∃ trigger, Trigger.step true popped.toTrigger (.post key true)
      = some trigger := ⟨_, rfl⟩
    have hpost : step popped (.startPost true) = some { popped with
        handling := .loop key, binding := some trigger, posts := s.posts ++ [key] } := by
      simp only [step, popped] at htrigger ⊢
      rw [htrigger, Option.map_some]
    obtain ⟨es, binding, hes⟩ := ih (s := { popped with
      handling := .loop key, binding := some trigger, posts := s.posts ++ [key] }) rfl rfl
    refine ⟨.tryPop :: .startPost true :: es, binding, run_cons_eq_some.mpr ⟨_, hpop,
      run_cons_eq_some.mpr ⟨_, hpost, hes.trans ?_⟩⟩⟩
    rw [List.append_assoc, List.length_cons, List.replicate_succ]
    rfl

/-- The other handlers find nothing. -/
theorem run_events {keys : List Buf} (hevents : s.events = keys) (hidle : s.handling = .idle)
    (hqueue : s.messageQueue = []) : ∃ es, run step s es = some { s with events := [] } := by
  induction keys generalizing s with
  | nil => exact ⟨[], by simp [← hevents]⟩
  | cons key keys ih =>
    have hstart : step s .start = some { s with events := keys, handling := .loop key } := by
      simp only [step, hidle, hevents]
    have hpop : step { s with events := keys, handling := .loop key } .tryPop
        = some { s with events := keys, handling := .idle } := by
      simp only [step, hqueue]
    obtain ⟨es, hes⟩ := ih (s := { s with events := keys, handling := .idle }) rfl rfl hqueue
    refine ⟨.start :: .tryPop :: es, run_cons_eq_some.mpr ⟨_, hstart, run_cons_eq_some.mpr
      ⟨_, hpop, hes.trans ?_⟩⟩⟩
    rw [← hidle]

/-- **Messages that come together.** From every state in which nothing is under way, if some
messages are put before a handler runs, the body of any one of them may be posted as many times as
there are messages, and the others are not posted at all. -/
theorem burst_posts (es : List Event) (s : State) (hrun : run step .init es = some s)
    (hquiet : s.Quiescent) (bodies : List Buf) (b : Buf) (hb : b ∈ bodies) :
    ∃ es' t, run step s (bodies.map .put ++ es') = some t ∧ t.Quiescent ∧
      t.puts = s.puts ++ bodies ∧ t.posts = s.posts ++ List.replicate bodies.length b := by
  have hqueue := ((counted_run hrun).of_quiescent hquiet).1
  obtain ⟨hposting, hevents, hidle⟩ := hquiet
  have hputs := run_puts bodies s
  rw [hqueue, hposting, List.nil_append] at hputs
  let put : State := { s with messageQueue := bodies, posting := bodies, puts := s.puts ++ bodies }
  have hfirst : step put (.post b) =
      some { put with posting := bodies.erase b, events := s.events ++ [b] } := if_pos hb
  have hposts := run_posts (s := { put with posting := bodies.erase b, events := s.events ++ [b] })
    rfl
  rw [hevents] at hfirst hposts
  let posted : State := { put with posting := [], events := b :: bodies.erase b }
  have hstart : step posted .start =
      some { posted with events := bodies.erase b, handling := .loop b } := by
    simp only [step, posted, put, hidle]
  obtain ⟨loop, binding, hloop⟩ := run_loop
    (s := { posted with events := bodies.erase b, handling := .loop b }) rfl
  obtain ⟨rest, hrest⟩ := run_events (s := { posted with
      messageQueue := []
      events := bodies.erase b
      handling := .idle
      binding
      posts := s.posts ++ List.replicate bodies.length b }) rfl rfl rfl
  refine ⟨.post b :: ((bodies.erase b).map .post ++ .start :: (loop ++ rest)), _,
    run_append_eq_some.mpr ⟨_, hputs, run_cons_eq_some.mpr ⟨_, hfirst, run_append_eq_some.mpr
      ⟨_, hposts, run_cons_eq_some.mpr ⟨_, hstart, run_append_eq_some.mpr ⟨_, hloop, hrest⟩⟩⟩⟩⟩,
    ⟨rfl, rfl, rfl⟩, rfl, rfl⟩

theorem burst_posts_two : ∃ es t, run step .init es = some t ∧ t.puts = [[1], [2]] ∧
    t.posts = [[2], [2]] := by
  obtain ⟨es, t, ht, -, hputs, hposts⟩ :=
    burst_posts [] .init rfl ⟨rfl, rfl, rfl⟩ [[1], [2]] [2] (by decide)
  exact ⟨_, t, ht, hputs, hposts⟩

end Slsfs.Proxy.TriggerTopic

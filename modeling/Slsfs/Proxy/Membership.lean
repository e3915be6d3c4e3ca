import Mathlib.Data.Finset.Basic
import Slsfs.Lib.Run

/-!
# Watching the proxies

The names of the proxies are the children of `/slsfs/proxy`. A proxy and a client both leave a watch
there, which fires once, at the next change; then they get the children again and leave a new watch.
The proxy first gets and then watches (`zookeeper.hpp`), the client the other way round
(`clientlib-zookeeper.hpp`). Requests and answers of one session arrive in order, and every callback
runs in a thread of its own.

A change that comes while neither a watch is set nor a get is under way is not noticed: it comes in
a *gap*, and nothing else is missed. The client has no gaps after its first event, so its map is
that of the children whenever everything is quiet, `client_view_current`; the proxy has one after
every event, `proxy_misses`, and both lose a change if two callbacks overtake each other,
`view_stale_of_overtaking`.
-/

namespace Slsfs.Proxy.Membership

variable {ι : Type*} [DecidableEq ι]

/-- The calls on the children of `/slsfs/proxy`. -/
inductive Call where
  | getChildren
  | watchChildren
  deriving DecidableEq

/-- What comes back: the children, for a get, and the event of a watch. -/
inductive Message (ι : Type*) where
  | children (set : Finset ι)
  | event
  deriving DecidableEq

/-- Zookeeper, the session and the threads of one proxy or client. -/
structure State (ι : Type*) where
  children : Finset ι
  /-- The watch is set. -/
  armed : Bool
  requests : List Call
  replies : List (Message ι)
  /-- The calls that threads have still to make. -/
  threads : List (List Call)
  /-- What callbacks of gets hold, in the order of their answers. -/
  lists : List (Finset ι)
  /-- The argument of the last `reconfigure`. -/
  view : Option (Finset ι)
  /-- How many events have come. -/
  events : ℕ

inductive Event (ι : Type*) where
  | create (child : ι)
  | erase (child : ι)
  /-- A thread makes its next call. -/
  | issue (thread : ℕ)
  | serve
  | deliver
  /-- The callback of a get runs `reconfigure`. -/
  | reconfigure (callback : ℕ)
  deriving DecidableEq

namespace State

/-- A change of the children, which fires the watch. -/
def change (s : State ι) (children : Finset ι) : State ι :=
  { s with
    children
    armed := false
    replies := if s.armed then s.replies ++ [.event] else s.replies }

/-- A thread with nothing left to do ends. -/
def remaining (calls : List Call) : List (List Call) := if calls = [] then [] else [calls]

/-- `onEvent` is what the callback of an event does. -/
def step (onEvent : List Call) (s : State ι) : Event ι → Option (State ι)
  | .create child =>
    if child ∈ s.children then none else some (s.change (insert child s.children))
  | .erase child =>
    if child ∈ s.children then some (s.change (s.children.erase child)) else none
  | .issue thread =>
    match s.threads[thread]? with
    | some (call :: calls) => some { s with
        requests := s.requests ++ [call]
        threads := s.threads.take thread ++ remaining calls ++ s.threads.drop (thread + 1) }
    | _ => none
  | .serve =>
    match s.requests with
    | .getChildren :: requests => some { s with
        requests
        replies := s.replies ++ [.children s.children] }
    | .watchChildren :: requests => some { s with requests, armed := true }
    | [] => none
  | .deliver =>
    match s.replies with
    | .children set :: replies => some { s with replies, lists := s.lists ++ [set] }
    | .event :: replies => some { s with
        replies
        threads := s.threads ++ [onEvent]
        events := s.events + 1 }
    | [] => none
  | .reconfigure callback =>
    match s.lists[callback]? with
    | some set => some { s with lists := s.lists.eraseIdx callback, view := some set }
    | none => none

/-- A proxy or client that has these calls to make. -/
def start (children : Finset ι) (calls : List Call) : State ι :=
  ⟨children, false, [], [], [calls], [], none, 0⟩

/-- Nothing is under way. -/
def Quiet (s : State ι) : Prop :=
  s.requests = [] ∧ s.replies = [] ∧ s.threads = [] ∧ s.lists = []

instance (s : State ι) : Decidable s.Quiet := inferInstanceAs (Decidable (_ ∧ _ ∧ _ ∧ _))

/-- A get that has not been answered, or an event that leads to one. -/
def GetPending (s : State ι) : Prop :=
  .getChildren ∈ s.requests ∨ .getChildren ∈ s.threads.flatten ∨ .event ∈ s.replies

/-- A change now is not noticed. -/
def Gap (s : State ι) : Prop := s.armed = false ∧ ¬ s.GetPending

/-- Callbacks run in the order of the answers. -/
def InOrder : Event ι → Prop
  | .reconfigure callback => callback = 0
  | _ => True

/-- No change comes in a gap. -/
def Noticed (s : State ι) : Event ι → Prop
  | .create _ | .erase _ => ¬ s.Gap
  | _ => True

/-- The children in answers to gets. -/
def answers (replies : List (Message ι)) : List (Finset ι) :=
  replies.filterMap fun
    | .children set => some set
    | .event => none

/-- The last answer to a get, whether `reconfigure` has been run with it or will be. -/
def latest (s : State ι) : Option (Finset ι) :=
  (s.lists ++ answers s.replies).getLast?.or s.view

/-! ## What a step does

A change of the children is the only event that does not wait for another one, and it takes the
watch with it. Every other event takes the next call or message out of a queue, or runs the callback
of a get. -/

variable {onEvent : List Call} {s s' : State ι}

omit [DecidableEq ι] in
@[simp] theorem flatten_remaining (calls : List Call) : (remaining calls).flatten = calls := by
  rw [remaining]
  split
  · rename_i h
    rw [h]
    rfl
  · exact List.append_nil calls

/-- What a step does, by what it is about. -/
inductive Effect (onEvent : List Call) (s : State ι) (e : Event ι) : State ι → Prop
  | change (set : Finset ι) (hnoticed : Noticed s e → ¬ s.Gap) : Effect onEvent s e (s.change set)
  | issue (before : List (List Call)) (call : Call) (calls : List Call) (after : List (List Call))
      (hthreads : s.threads = before ++ (call :: calls) :: after) :
      Effect onEvent s e { s with
        requests := s.requests ++ [call]
        threads := before ++ remaining calls ++ after }
  | get (requests : List Call) (hrequests : s.requests = .getChildren :: requests) :
      Effect onEvent s e { s with requests, replies := s.replies ++ [.children s.children] }
  | watch (requests : List Call) (hrequests : s.requests = .watchChildren :: requests) :
      Effect onEvent s e { s with requests, armed := true }
  | answer (set : Finset ι) (replies : List (Message ι))
      (hreplies : s.replies = .children set :: replies) :
      Effect onEvent s e { s with replies, lists := s.lists ++ [set] }
  | notify (replies : List (Message ι)) (hreplies : s.replies = .event :: replies) :
      Effect onEvent s e { s with
        replies
        threads := s.threads ++ [onEvent]
        events := s.events + 1 }
  | reconfigure (before : List (Finset ι)) (set : Finset ι) (after : List (Finset ι))
      (hlists : s.lists = before ++ set :: after) (hbefore : InOrder e → before = []) :
      Effect onEvent s e { s with lists := before ++ after, view := some set }

theorem effect_of_step {e : Event ι} (h : step onEvent s e = some s') :
    Effect onEvent s e s' := by
  cases e with
  | create child =>
    rw [step] at h
    split at h
    · cases h
    · cases h
      exact .change _ id
  | erase child =>
    rw [step] at h
    split at h
    · cases h
      exact .change _ id
    · cases h
  | issue thread =>
    rw [step] at h
    split at h
    · rename_i call calls hget
      obtain ⟨hlt, hget⟩ := List.getElem?_eq_some_iff.mp hget
      cases h
      refine .issue (s.threads.take thread) call calls (s.threads.drop (thread + 1)) ?_
      rw [← hget, List.cons_getElem_drop_succ, List.take_append_drop]
    · cases h
  | serve =>
    rw [step] at h
    split at h
    · cases h
      exact .get _ ‹_›
    · cases h
      exact .watch _ ‹_›
    · cases h
  | deliver =>
    rw [step] at h
    split at h
    · cases h
      exact .answer _ _ ‹_›
    · cases h
      exact .notify _ ‹_›
    · cases h
  | reconfigure callback =>
    rw [step] at h
    split at h
    · rename_i set hget
      obtain ⟨hlt, hget⟩ := List.getElem?_eq_some_iff.mp hget
      cases h
      rw [List.eraseIdx_eq_take_drop_succ]
      refine .reconfigure (s.lists.take callback) set (s.lists.drop (callback + 1)) ?_ ?_
      · rw [← hget, List.cons_getElem_drop_succ, List.take_append_drop]
      · rintro rfl
        exact List.take_zero
    · cases h

/-! ## Only changes in gaps are missed

What will be in the last answer is known before it comes: a list that waits for its callback, or an
answer on its way. `Fresh` says that this is the present list, or that another get is going to be
served. A change makes the present list old; but if the watch is set its event brings a get, and if
a get is under way it is served after the change. In a gap there is neither. -/

/-- Once an event has come, a get is pending or the last answer is current. -/
def Fresh (s : State ι) : Prop := 0 < s.events → s.GetPending ∨ s.latest = some s.children

omit [DecidableEq ι] in
private theorem answers_concat_children (replies : List (Message ι)) (set : Finset ι) :
    answers (replies ++ [.children set]) = answers replies ++ [set] := List.filterMap_append

omit [DecidableEq ι] in
private theorem getPending_change (hgap : ¬ s.Gap) (set : Finset ι) :
    (s.change set).GetPending := by
  cases harmed : s.armed with
  | true =>
    refine .inr (.inr ?_)
    rw [change, harmed]
    exact List.mem_append_right _ List.mem_cons_self
  | false =>
    have hpending : s.GetPending := by_contra fun h ↦ hgap ⟨harmed, h⟩
    rcases hpending with h | h | h
    · exact .inl h
    · exact .inr (.inl h)
    · refine .inr (.inr ?_)
      rw [change, harmed]
      exact h

omit [DecidableEq ι] in
private theorem fresh_step (hget : .getChildren ∈ onEvent) {e : Event ι} (h : Effect onEvent s e s')
    (horder : InOrder e) (hnoticed : 0 < s.events → Noticed s e) (hs : s.Fresh) : s'.Fresh := by
  cases h with
  | change set hgap => exact fun hevents ↦ .inl (getPending_change (hgap (hnoticed hevents)) set)
  | issue before call calls after hthreads =>
    intro hevents
    rcases hs hevents with (h | h | h) | h
    · exact .inl (.inl (List.mem_append_left _ h))
    · rw [hthreads] at h
      simp only [List.flatten_append, List.flatten_cons, List.mem_append, List.mem_cons] at h
      rcases h with h | (h | h) | h
      · exact .inl (.inr (.inl (by simp [h])))
      · exact .inl (.inl (by simp [h]))
      · exact .inl (.inr (.inl (by simp [h])))
      · exact .inl (.inr (.inl (by simp [h])))
    · exact .inl (.inr (.inr h))
    · exact .inr h
  | get requests hrequests =>
    intro _
    refine .inr ?_
    rw [latest]
    dsimp only
    rw [answers_concat_children, ← List.append_assoc, List.getLast?_concat]
    rfl
  | watch requests hrequests =>
    intro hevents
    rcases hs hevents with (h | h) | h
    · rw [hrequests] at h
      exact .inl (.inl (List.mem_of_ne_of_mem (by simp) h))
    · exact .inl (.inr h)
    · exact .inr h
  | answer set replies hreplies =>
    intro hevents
    rcases hs hevents with (h | h | h) | h
    · exact .inl (.inl h)
    · exact .inl (.inr (.inl h))
    · rw [hreplies] at h
      exact .inl (.inr (.inr (List.mem_of_ne_of_mem (by simp) h)))
    · refine .inr ?_
      rw [latest, hreplies] at h
      rw [latest]
      dsimp only
      rw [List.append_assoc]
      exact h
  | notify replies hreplies =>
    intro _
    refine .inl (.inr (.inl ?_))
    simp [hget]
  | reconfigure before set after hlists hbefore =>
    intro hevents
    obtain rfl := hbefore horder
    rcases hs hevents with h | h
    · exact .inl h
    · refine .inr ?_
      rw [latest, hlists, List.nil_append, List.cons_append, List.getLast?_cons,
        Option.some_or] at h
      rw [latest, ← h, List.nil_append]
      cases (after ++ answers s.replies).getLast? <;> rfl

omit [DecidableEq ι] in
private theorem Fresh.view_of_quiet (h : s.Fresh) (hquiet : s.Quiet) (hevents : 0 < s.events) :
    s.view = some s.children := by
  obtain ⟨hrequests, hreplies, hthreads, hlists⟩ := hquiet
  rcases h hevents with (h | h | h) | h
  · rw [hrequests] at h
    cases h
  · rw [hthreads] at h
    cases h
  · rw [hreplies] at h
    cases h
  · rwa [latest, hlists, hreplies] at h

private theorem fresh_run (hget : .getChildren ∈ onEvent) {children : Finset ι} {calls : List Call}
    {es : List (Event ι)} (hrun : run (step onEvent) (start children calls) es = some s)
    (hmeets : Meets (step onEvent) (fun s e ↦ InOrder e ∧ (0 < s.events → Noticed s e))
      (start children calls) es) : s.Fresh :=
  invariant_run (fun _ _ _ hC h hs ↦ fresh_step hget (effect_of_step h) hC.1 hC.2 hs) hmeets hrun
    fun h ↦ absurd h (Nat.lt_irrefl 0)

/-! ## The client has no gaps

There is always one watch, in one of four forms: set, requested, about to be requested by a thread,
or fired and its event not yet delivered. Since every thread watches before it gets, a watch that is
requested or about to be is followed by a get. So in a state in which no get is pending the watch is
set, which is what `Followed.not_gap` says. Before the first event this is not so, because the
client starts with a get. -/

/-- Whether an answer is the event of the watch. -/
def Message.isEvent : Message ι → Bool
  | .event => true
  | .children _ => false

/-- How often the watch is set, asked for, still to be asked for, or fired. -/
def tokens (s : State ι) : ℕ :=
  s.armed.toNat + s.requests.count .watchChildren + s.threads.flatten.count .watchChildren +
    s.replies.countP Message.isEvent

/-- After the first event, a get follows every watch that is not set yet. -/
structure Followed (s : State ι) : Prop where
  requests : ∀ before after, s.requests = before ++ .watchChildren :: after →
    .getChildren ∈ after ∨ .getChildren ∈ s.threads.flatten
  threads : ∀ thread ∈ s.threads, ∀ before after, thread = before ++ .watchChildren :: after →
    .getChildren ∈ after

omit [DecidableEq ι] in
private theorem tokens_step (hone : onEvent.count .watchChildren = 1) {e : Event ι}
    (h : Effect onEvent s e s') (hs : s.tokens = 1) : s'.tokens = 1 := by
  rw [← hs]
  cases h with
  | change set hgap =>
    cases harmed : s.armed with
    | true =>
      simp [tokens, change, harmed, Message.isEvent]
      omega
    | false => simp [tokens, change, harmed]
  | issue before call calls after hthreads =>
    simp only [tokens, hthreads, List.count_append, List.flatten_append, List.flatten_cons,
      flatten_remaining, List.count_cons, List.count_nil]
    omega
  | get requests hrequests => simp [tokens, hrequests, Message.isEvent]
  | watch requests hrequests =>
    cases harmed : s.armed with
    | true =>
      simp [tokens, hrequests, harmed] at hs
      omega
    | false =>
      simp [tokens, hrequests, harmed]
      omega
  | answer set replies hreplies => simp [tokens, hreplies, Message.isEvent]
  | notify replies hreplies =>
    simp only [tokens, hreplies, List.flatten_append, List.flatten_singleton, List.count_append,
      List.countP_cons, hone, Message.isEvent, if_true]
    omega
  | reconfigure before set after hlists hbefore => rfl

omit [DecidableEq ι] in
/-- If a watch is still to come, a get comes after it: then there is no gap. -/
theorem Followed.not_gap (h : s.Followed) (htokens : s.tokens = 1) : ¬ s.Gap := by
  rintro ⟨harmed, hpending⟩
  have hevent : s.replies.countP Message.isEvent = 0 := by
    refine List.countP_eq_zero.mpr fun message hmem hisEvent ↦ ?_
    cases message with
    | children set => cases hisEvent
    | event => exact hpending (.inr (.inr hmem))
  rw [tokens, harmed, hevent] at htokens
  by_cases hrequests : Call.watchChildren ∈ s.requests
  · obtain ⟨before, after, hsplit⟩ := List.append_of_mem hrequests
    rcases h.requests before after hsplit with hget | hget
    · exact hpending (.inl (by simp [hsplit, hget]))
    · exact hpending (.inr (.inl hget))
  · rw [List.count_eq_zero_of_not_mem hrequests] at htokens
    have hthreads : Call.watchChildren ∈ s.threads.flatten :=
      List.count_pos_iff.mp (by simp only [Bool.toNat_false] at htokens; omega)
    obtain ⟨thread, hmem, hwatch⟩ := List.mem_flatten.mp hthreads
    obtain ⟨before, after, hsplit⟩ := List.append_of_mem hwatch
    have hget := h.threads thread hmem before after hsplit
    exact hpending (.inr (.inl (List.mem_flatten.mpr
      ⟨thread, hmem, by simp [hsplit, hget]⟩)))

omit [DecidableEq ι] in
private theorem followed_step
    (hfollowed : ∀ before after, onEvent = before ++ .watchChildren :: after →
      .getChildren ∈ after) {e : Event ι} (h : Effect onEvent s e s') (htokens : s.tokens = 1)
    (hs : 0 < s.events → s.Followed) : 0 < s'.events → s'.Followed := by
  intro hevents
  cases h with
  | change set hgap => exact ⟨(hs hevents).requests, (hs hevents).threads⟩
  | issue before call calls after hthreads =>
    have hold := hs hevents
    refine ⟨fun before' after' hsplit ↦ ?_, fun thread hmem before' after' hsplit ↦ ?_⟩
    · change s.requests ++ [call] = _ at hsplit
      rcases List.eq_nil_or_concat' after' with rfl | ⟨rest, last, rfl⟩
      · obtain ⟨-, rfl⟩ := List.append_singleton_inj.mp hsplit
        have hget := hold.threads (.watchChildren :: calls) (by simp [hthreads]) [] calls rfl
        exact .inr (by simp [hget])
      · rw [← List.cons_append, ← List.append_assoc] at hsplit
        obtain ⟨hrequests, rfl⟩ := List.append_singleton_inj.mp hsplit
        rcases hold.requests before' rest hrequests with hget | hget
        · exact .inl (List.mem_append_left _ hget)
        · rw [hthreads] at hget
          simp only [List.flatten_append, List.flatten_cons, List.mem_append, List.mem_cons] at hget
          rcases hget with hget | (hget | hget) | hget
          · exact .inr (by simp [hget])
          · exact .inl (by simp [hget])
          · exact .inr (by simp [hget])
          · exact .inr (by simp [hget])
    · rcases List.mem_append.mp hmem with hmem | hmem
      · rcases List.mem_append.mp hmem with hmem | hmem
        · exact hold.threads thread (by simp [hthreads, hmem]) before' after' hsplit
        · rw [remaining] at hmem
          split at hmem
          · cases hmem
          · rw [List.mem_singleton] at hmem
            exact hold.threads (call :: calls) (by simp [hthreads]) (call :: before') after'
              (by rw [← hmem, hsplit, List.cons_append])
      · exact hold.threads thread (by simp [hthreads, hmem]) before' after' hsplit
  | get requests hrequests =>
    refine ⟨fun before after hsplit ↦ ?_, (hs hevents).threads⟩
    exact (hs hevents).requests (.getChildren :: before) after
      (by rw [hrequests, List.cons_append, ← hsplit])
  | watch requests hrequests =>
    refine ⟨fun before after hsplit ↦ ?_, (hs hevents).threads⟩
    exact (hs hevents).requests (.watchChildren :: before) after
      (by rw [hrequests, List.cons_append, ← hsplit])
  | answer set replies hreplies => exact ⟨(hs hevents).requests, (hs hevents).threads⟩
  | notify replies hreplies =>
    -- The watch has fired, so it is nowhere else.
    simp only [tokens, hreplies, List.countP_cons, Message.isEvent, if_true] at htokens
    have hrequests : Call.watchChildren ∉ s.requests := List.count_eq_zero.mp (by omega)
    have hthreads : Call.watchChildren ∉ s.threads.flatten := List.count_eq_zero.mp (by omega)
    refine ⟨fun before after hsplit ↦ ?_, fun thread hmem before after hsplit ↦ ?_⟩
    · exact absurd (by simp [show s.requests = _ from hsplit]) hrequests
    · rcases List.mem_append.mp hmem with hmem | hmem
      · exact absurd (List.mem_flatten.mpr ⟨thread, hmem, by simp [hsplit]⟩) hthreads
      · rw [List.mem_singleton] at hmem
        exact hfollowed before after (hmem ▸ hsplit)
  | reconfigure before set after hlists hbefore =>
    exact ⟨(hs hevents).requests, (hs hevents).threads⟩

/-- What `start_watch` of a client does at an event. -/
def clientCalls : List Call := [.watchChildren, .getChildren]

/-- A new client, which runs `reconfigure` and then `start_watch`. -/
def clientStart (children : Finset ι) : State ι := start children [.getChildren, .watchChildren]

/-- **The client's map is current.** In every run in which callbacks run in order, whenever
everything is quiet after the first event, the last `reconfigure` was with the current children. -/
theorem client_view_current (children : Finset ι) (es : List (Event ι)) (s : State ι)
    (hrun : run (step clientCalls) (clientStart children) es = some s)
    (horder : ∀ e ∈ es, InOrder e) (hquiet : s.Quiet) (hevents : 0 < s.events) :
    s.view = some s.children := by
  have hfollowed : ∀ before after, clientCalls = before ++ .watchChildren :: after →
      .getChildren ∈ after := by
    intro before after hsplit
    cases before with
    | nil =>
      cases hsplit
      exact List.mem_cons_self
    | cons call before =>
      have hmem : Call.watchChildren ∈ [Call.getChildren] := by
        rw [(List.cons.inj hsplit).2]
        simp
      cases List.mem_singleton.mp hmem
  have hmeets : Meets (step clientCalls)
      (fun s e ↦ InOrder e ∧ (0 < s.events → Noticed s e)) (clientStart children) es :=
    meets_of_invariant (I := fun s ↦ s.tokens = 1 ∧ (0 < s.events → s.Followed))
    (D := fun _ e ↦ InOrder e)
    (fun s e s' _ h hs ↦ ⟨tokens_step rfl (effect_of_step h) hs.1,
      followed_step hfollowed (effect_of_step h) hs.1 hs.2⟩)
    (fun s e hs he ↦ ⟨he, fun hevents ↦ by
      cases e with
      | create | erase => exact (hs.2 hevents).not_gap hs.1
      | issue | serve | deliver | reconfigure => trivial⟩)
    (meets_of_forall_mem horder (clientStart children))
    ⟨rfl, fun h ↦ absurd h (Nat.lt_irrefl 0)⟩
  exact (fresh_run (by decide) hrun hmeets).view_of_quiet hquiet hevents

/-- A client of two proxies, the second of which goes away. -/
theorem client_view_current_leaving : ∃ s, run (step clientCalls) (clientStart {0, 1})
      [.issue 0, .serve, .deliver, .reconfigure 0, .issue 0, .serve, .erase 1, .deliver, .issue 0,
        .issue 0, .serve, .serve, .deliver, .reconfigure 0] = some s ∧
    s.view = some s.children := by
  obtain ⟨s, hs⟩ := Option.isSome_iff_exists.mp (show (run (step clientCalls)
    (clientStart ({0, 1} : Finset ℕ)) [.issue 0, .serve, .deliver, .reconfigure 0, .issue 0, .serve,
      .erase 1, .deliver, .issue 0, .issue 0, .serve, .serve, .deliver, .reconfigure 0]).isSome
    by decide)
  have hend : ∀ t ∈ run (step clientCalls) (clientStart ({0, 1} : Finset ℕ)) [.issue 0, .serve,
      .deliver, .reconfigure 0, .issue 0, .serve, .erase 1, .deliver, .issue 0, .issue 0, .serve,
      .serve, .deliver, .reconfigure 0], t.Quiet ∧ 0 < t.events := by
    decide
  refine ⟨s, hs, client_view_current {0, 1} _ s hs ?_ (hend s hs).1 (hend s hs).2⟩
  simp [InOrder]

/-! ## What a proxy misses

The proxy gets before it watches, so between the two a change is noticed by nobody. From every quiet
state there is a run in which the second of two changes falls there. Nothing else goes wrong in this
run: callbacks come in order, and everything is quiet at its end. The map is then that of the first
change, and stays so until the next one.

If two callbacks of gets overtake each other the order of the calls does not matter, since both
changes were noticed. The older list is the one that `reconfigure` is called with last. -/

/-- What the callback of an event does at a proxy: `start_reconfigure` and `start_watch`. -/
def proxyCalls : List Call := [.getChildren, .watchChildren]

/-- A new proxy, which runs `start_watch`. -/
def proxyStart (children : Finset ι) : State ι := start children [.watchChildren]

/-- A proxy comes or goes. -/
def IsChange : Event ι → Prop
  | .create _ | .erase _ => True
  | _ => False

private theorem step_change {e : Event ι} (he : IsChange e) (h : step onEvent s e = some s') :
    ∃ set, s' = s.change set ∧ ∀ u : State ι, u.children = s.children →
      step onEvent u e = some (u.change set) := by
  cases e with
  | create child =>
    rw [step] at h
    split at h
    · cases h
    · rename_i hnot
      cases h
      exact ⟨_, rfl, fun u hu ↦ by rw [step, hu, if_neg hnot]⟩
  | erase child =>
    rw [step] at h
    split at h
    · rename_i hmem
      cases h
      exact ⟨_, rfl, fun u hu ↦ by rw [step, hu, if_pos hmem]⟩
    · cases h
  | issue | serve | deliver | reconfigure => cases he

private theorem armed_of_quiet (hone : onEvent.count .watchChildren = 1) {children : Finset ι}
    {calls : List Call} (hcalls : calls.count .watchChildren = 1) {es : List (Event ι)}
    (hrun : run (step onEvent) (start children calls) es = some s) (hquiet : s.Quiet) :
    s.armed = true := by
  have htokens : s.tokens = 1 := invariant_run_of_step (I := fun s ↦ s.tokens = 1)
    (fun s e s' h hs ↦ tokens_step hone (effect_of_step h) hs) hrun
    (by simp [tokens, start, hcalls])
  obtain ⟨hrequests, hreplies, hthreads, -⟩ := hquiet
  rw [tokens, hrequests, hreplies, hthreads] at htokens
  cases harmed : s.armed with
  | true => rfl
  | false =>
    rw [harmed] at htokens
    cases htokens

/-- **What a proxy misses.** A change that comes in a gap, and nothing else: if no change does, then
the last `reconfigure` was with the current children whenever everything is quiet after the first
event; but from every quiet state, any two changes can go by so that everything is quiet again and
the proxy has seen the first one only. -/
theorem proxy_misses (children : Finset ι) (es : List (Event ι)) (s : State ι)
    (hrun : run (step proxyCalls) (proxyStart children) es = some s) (hquiet : s.Quiet) :
    (Meets (step proxyCalls) (fun s e ↦ InOrder e ∧ (0 < s.events → Noticed s e))
      (proxyStart children) es → 0 < s.events → s.view = some s.children) ∧
    ∀ e₁ e₂ s₁ s₂, IsChange e₁ → IsChange e₂ → step proxyCalls s e₁ = some s₁ →
      step proxyCalls s₁ e₂ = some s₂ →
      ∃ between after t, run (step proxyCalls) s ((e₁ :: between) ++ e₂ :: after) = some t ∧
        (∀ e ∈ between ++ after, InOrder e ∧ ¬ IsChange e) ∧ t.Quiet ∧
        t.view = some s₁.children ∧ t.children = s₂.children := by
  refine ⟨fun hmeets hevents ↦ (fresh_run (by decide) hrun hmeets).view_of_quiet hquiet hevents,
    fun e₁ e₂ s₁ s₂ he₁ he₂ h₁ h₂ ↦ ?_⟩
  have harmed := armed_of_quiet (by decide) (by decide) hrun hquiet
  obtain ⟨set₁, rfl, -⟩ := step_change he₁ h₁
  obtain ⟨set₂, rfl, hstep₂⟩ := step_change he₂ h₂
  obtain ⟨hrequests, hreplies, hthreads, hlists⟩ := hquiet
  obtain ⟨children, armed, requests, replies, threads, lists, view, events⟩ := s
  cases harmed
  cases hrequests
  cases hreplies
  cases hthreads
  cases hlists
  have hbefore : run (step proxyCalls) ⟨children, true, [], [], [], [], view, events⟩
      (e₁ :: [.deliver, .issue 0, .serve, .deliver, .reconfigure 0])
        = some ⟨set₁, false, [], [], [[.watchChildren]], [], some set₁, events + 1⟩ := by
    rw [run, h₁, Option.bind_some]
    rfl
  have hstep := hstep₂ ⟨set₁, false, [], [], [[.watchChildren]], [], some set₁, events + 1⟩ rfl
  have hafter : run (step proxyCalls)
      ⟨set₁, false, [], [], [[.watchChildren]], [], some set₁, events + 1⟩
      (e₂ :: [.issue 0, .serve]) = some ⟨set₂, true, [], [], [], [], some set₁, events + 1⟩ := by
    rw [run, hstep, Option.bind_some]
    rfl
  exact ⟨_, _, _, run_append_eq_some.mpr ⟨_, hbefore, hafter⟩, by simp [InOrder, IsChange],
    ⟨rfl, rfl, rfl, rfl⟩, rfl, rfl⟩

/-- Two proxies join one that is alone. -/
theorem proxy_misses_second : ∃ es t, run (step proxyCalls) ⟨{0}, true, [], [], [], [], none, 0⟩ es
    = some t ∧ t.Quiet ∧ t.view = some {1, 0} ∧ t.children = ({2, 1, 0} : Finset ℕ) := by
  obtain ⟨between, after, t, hrun, -, hquiet, hview, hchildren⟩ :=
    (proxy_misses ({0} : Finset ℕ) [.issue 0, .serve] ⟨{0}, true, [], [], [], [], none, 0⟩ rfl
      (by decide)).2 (.create 1) (.create 2) _ _ trivial trivial rfl rfl
  exact ⟨_, t, hrun, hquiet, hview, hchildren⟩

omit [DecidableEq ι] in
private theorem noticed_of_not_isChange {e : Event ι} (he : ¬ IsChange e) (s : State ι) :
    s.Noticed e := by
  cases e with
  | create | erase => exact absurd trivial he
  | issue | serve | deliver | reconfigure => trivial

omit [DecidableEq ι] in
private theorem noticed_of_armed (h : s.armed = true) (e : Event ι) : s.Noticed e := by
  have hgap : ¬ s.Gap := fun hgap ↦ by
    rw [hgap.1] at h
    cases h
  cases e with
  | create | erase => exact hgap
  | issue | serve | deliver | reconfigure => trivial

/-- **Callbacks that overtake each other.** Without a change in a gap, proxies and clients alike can
see any two changes in the wrong order, from every quiet state, and keep the first one. -/
theorem view_stale_of_overtaking (onEvent calls : List Call)
    (honEvent : onEvent = proxyCalls ∨ onEvent = clientCalls)
    (hcalls : calls.count .watchChildren = 1) (children : Finset ι) (es : List (Event ι))
    (s : State ι) (hrun : run (step onEvent) (start children calls) es = some s)
    (hquiet : s.Quiet) (e₁ e₂ : Event ι) (s₁ s₂ : State ι) (he₁ : IsChange e₁) (he₂ : IsChange e₂)
    (h₁ : step onEvent s e₁ = some s₁) (h₂ : step onEvent s₁ e₂ = some s₂) :
    ∃ between after t, run (step onEvent) s ((e₁ :: between) ++ e₂ :: after) = some t ∧
      Meets (step onEvent) Noticed s ((e₁ :: between) ++ e₂ :: after) ∧
      (∀ e ∈ between ++ after, ¬ IsChange e) ∧ t.Quiet ∧
      t.view = some s₁.children ∧ t.children = s₂.children := by
  have harmed := armed_of_quiet (by rcases honEvent with rfl | rfl <;> decide) hcalls hrun hquiet
  obtain ⟨set₁, rfl, -⟩ := step_change he₁ h₁
  obtain ⟨set₂, rfl, hstep₂⟩ := step_change he₂ h₂
  obtain ⟨hrequests, hreplies, hthreads, hlists⟩ := hquiet
  obtain ⟨children, armed, requests, replies, threads, lists, view, events⟩ := s
  cases harmed
  cases hrequests
  cases hreplies
  cases hthreads
  cases hlists
  have hbefore : run (step onEvent) ⟨children, true, [], [], [], [], view, events⟩
      (e₁ :: [.deliver, .issue 0, .issue 0, .serve, .serve, .deliver])
        = some ⟨set₁, true, [], [], [], [set₁], view, events + 1⟩ := by
    rw [run, h₁, Option.bind_some]
    rcases honEvent with rfl | rfl <;> rfl
  have hstep := hstep₂ ⟨set₁, true, [], [], [], [set₁], view, events + 1⟩ rfl
  have hafter : run (step onEvent) ⟨set₁, true, [], [], [], [set₁], view, events + 1⟩
      (e₂ :: [.deliver, .issue 0, .issue 0, .serve, .serve, .deliver, .reconfigure 1,
        .reconfigure 0]) = some ⟨set₂, true, [], [], [], [], some set₁, events + 2⟩ := by
    rw [run, hstep, Option.bind_some]
    rcases honEvent with rfl | rfl <;> rfl
  have hnoticed : ∀ es : List (Event ι), (∀ e ∈ es, ¬ IsChange e) → ∀ u : State ι,
      Meets (step onEvent) Noticed u es := fun es hes u ↦ by
    induction es generalizing u with
    | nil => trivial
    | cons e es ih =>
      exact ⟨noticed_of_not_isChange (hes e List.mem_cons_self) u,
        fun u' _ ↦ ih (fun e he ↦ hes e (List.mem_cons_of_mem _ he)) u'⟩
  refine ⟨_, _, _, run_append_eq_some.mpr ⟨_, hbefore, hafter⟩, (meets_append_iff hbefore).mpr
    ⟨⟨noticed_of_armed rfl e₁, fun u _ ↦ hnoticed _ (by simp [IsChange]) u⟩,
      ⟨noticed_of_armed rfl e₂, fun u _ ↦ hnoticed _ (by simp [IsChange]) u⟩⟩,
    by simp [IsChange], ⟨rfl, rfl, rfl, rfl⟩, rfl, rfl⟩

/-- A client that has connected to one proxy, and two that join. -/
theorem view_stale_of_overtaking_client :
    ∃ es t, run (step clientCalls) ⟨{0}, true, [], [], [], [], some {0}, 0⟩ es = some t ∧
      t.Quiet ∧ t.view = some {1, 0} ∧ t.children = ({2, 1, 0} : Finset ℕ) := by
  obtain ⟨between, after, t, hrun, -, -, hquiet, hview, hchildren⟩ :=
    view_stale_of_overtaking clientCalls [.getChildren, .watchChildren] (.inr rfl) (by decide)
      ({0} : Finset ℕ) [.issue 0, .serve, .deliver, .reconfigure 0, .issue 0, .serve]
      ⟨{0}, true, [], [], [], [], some {0}, 0⟩ rfl (by decide) (.create 1) (.create 2) _ _ trivial
      trivial rfl rfl
  exact ⟨_, t, hrun, hquiet, hview, hchildren⟩

end State

end Slsfs.Proxy.Membership

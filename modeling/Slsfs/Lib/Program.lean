import Slsfs.Lib.Run
import Mathlib.Data.Set.Lattice
import Mathlib.Logic.Function.Basic
import Mathlib.Order.CompletePartialOrder

/-!
# Programs over a store

A `Program` reads and writes the cells of a store one at a time and returns a result. It can be run
on its own, it can be cut off after any of its accesses, and several programs can take turns on one
store. Three rules say what is known about the two latter cases.

* `invariant_stores` and `invariant_threads`: what every program keeps true of each cell, as long as
  the cells it reads have it, is true of all cells wherever the programs are cut off or interleaved.
* `serializable`: if no program writes what another one reads or writes, then every interleaving
  leaves each program with the result, and its cells with the values, that it has on its own.
-/

namespace Slsfs

universe u v w

/-- A program over a store with cells `κ` that hold `ν`. -/
inductive Program (κ : Type u) (ν : Type v) (ρ : Type w) where
  | done (result : ρ)
  | get (key : κ) (next : ν → Program κ ν ρ)
  | put (key : κ) (value : ν) (next : Program κ ν ρ)

namespace Program

variable {κ : Type u} {ν : Type v} {ρ σ τ : Type w}

/-- One program after another. -/
protected def bind : Program κ ν ρ → (ρ → Program κ ν σ) → Program κ ν σ
  | done result, f => f result
  | get key next, f => get key fun value ↦ (next value).bind f
  | put key value next, f => put key value (next.bind f)

instance : Monad (Program κ ν) where
  pure := done
  bind := Program.bind

/-- The program on its own. -/
def run [DecidableEq κ] : Program κ ν ρ → (κ → ν) → ρ × (κ → ν)
  | done result, s => (result, s)
  | get key next, s => (next (s key)).run s
  | put key value next, s => next.run (Function.update s key value)

/-- The stores that the program can be cut off with, the first and the last one included. -/
def stores [DecidableEq κ] : Program κ ν ρ → (κ → ν) → List (κ → ν)
  | done _, s => [s]
  | get key next, s => (next (s key)).stores s
  | put key value next, s => s :: next.stores (Function.update s key value)

/-- All that the program reads is in `reads` and all that it writes is in `writes`, whatever the
values that it reads. -/
def Within (reads writes : Set κ) : Program κ ν ρ → Prop
  | done _ => True
  | get key next => key ∈ reads ∧ ∀ value, (next value).Within reads writes
  | put key _ next => key ∈ writes ∧ next.Within reads writes

/-- As long as it reads values with `Q`, the program writes values with `Q`, and then its result has
`R`. -/
def Keeps (Q : κ → ν → Prop) (R : ρ → Prop) : Program κ ν ρ → Prop
  | done result => R result
  | get key next => ∀ value, Q key value → (next value).Keeps Q R
  | put key value next => Q key value ∧ next.Keeps Q R

/-- As long as it reads values with `Q`, the program writes values with `Q`, until it has become a
program with `T`. -/
def Until (Q : κ → ν → Prop) (T : Program κ ν ρ → Prop) : Program κ ν ρ → Prop
  | done result => T (done result)
  | get key next => T (get key next) ∨ ∀ value, Q key value → (next value).Until Q T
  | put key value next => T (put key value next) ∨ Q key value ∧ next.Until Q T

/-! ## One program after another

Programs are a monad, and a sequence of programs is again one. What a program reads, writes and
keeps is known of the sequence if it is known of its parts.

`Until` is for a program that is followed only up to some point: as long as what is left of it does
not satisfy `T`, it only writes what `Q` allows. -/

@[simp] theorem pure_eq_done (result : ρ) : (pure result : Program κ ν ρ) = done result := rfl

@[simp] theorem done_bind (result : ρ) (f : ρ → Program κ ν σ) : done result >>= f = f result := rfl

@[simp] theorem get_bind (key : κ) (next : ν → Program κ ν ρ) (f : ρ → Program κ ν σ) :
    get key next >>= f = get key fun value ↦ next value >>= f := rfl

@[simp] theorem put_bind (key : κ) (value : ν) (next : Program κ ν ρ) (f : ρ → Program κ ν σ) :
    put key value next >>= f = put key value (next >>= f) := rfl

theorem bind_done (p : Program κ ν ρ) : p >>= done = p := by
  induction p with
  | done result => rfl
  | get key next ih => exact congrArg (get key) (funext ih)
  | put key value next ih => exact congrArg (put key value) ih

theorem bind_assoc (p : Program κ ν ρ) (f : ρ → Program κ ν σ) (g : σ → Program κ ν τ) :
    p >>= f >>= g = p >>= fun result ↦ f result >>= g := by
  induction p with
  | done result => rfl
  | get key next ih => exact congrArg (get key) (funext ih)
  | put key value next ih => exact congrArg (put key value) ih

@[simp] theorem run_done [DecidableEq κ] (result : ρ) (s : κ → ν) :
    (done result).run s = (result, s) := rfl

theorem run_bind [DecidableEq κ] (p : Program κ ν ρ) (f : ρ → Program κ ν σ) (s : κ → ν) :
    (p >>= f).run s = (f (p.run s).1).run (p.run s).2 := by
  induction p generalizing s with
  | done result => rfl
  | get key next ih => exact ih _ s
  | put key value next ih => exact ih _

theorem within_bind {reads writes : Set κ} {p : Program κ ν ρ} {f : ρ → Program κ ν σ}
    (hp : p.Within reads writes) (hf : ∀ result, (f result).Within reads writes) :
    (p >>= f).Within reads writes := by
  induction p with
  | done result => exact hf result
  | get key next ih => exact ⟨hp.1, fun value ↦ ih value (hp.2 value)⟩
  | put key value next ih => exact ⟨hp.1, ih hp.2⟩

theorem keeps_bind {Q : κ → ν → Prop} {R : ρ → Prop} {T : σ → Prop} {p : Program κ ν ρ}
    {f : ρ → Program κ ν σ} (hp : p.Keeps Q R) (hf : ∀ result, R result → (f result).Keeps Q T) :
    (p >>= f).Keeps Q T := by
  induction p with
  | done result => exact hf result hp
  | get key next ih => exact fun value hvalue ↦ ih value (hp value hvalue)
  | put key value next ih => exact ⟨hp.1, ih hp.2⟩

theorem until_of_self {Q : κ → ν → Prop} {T : Program κ ν ρ → Prop} {p : Program κ ν ρ}
    (h : T p) : p.Until Q T := by
  cases p with
  | done result => exact h
  | get key next => exact .inl h
  | put key value next => exact .inl h

theorem until_bind {Q : κ → ν → Prop} {R : ρ → Prop} {T : Program κ ν σ → Prop} {p : Program κ ν ρ}
    {f : ρ → Program κ ν σ} (hp : p.Keeps Q R) (hf : ∀ result, R result → (f result).Until Q T) :
    (p >>= f).Until Q T := by
  induction p with
  | done result => exact hf result hp
  | get key next ih => exact .inr fun value hvalue ↦ ih value (hp value hvalue)
  | put key value next ih => exact .inr ⟨hp.1, ih hp.2⟩

/-! ## Cutting a program off

`stores` are the stores that a program leaves if it is cut off: one after each of its writes, and
the one it starts from. If every write satisfies `Q`, then all of them do. -/

section Cut

variable [DecidableEq κ]

theorem start_mem_stores (p : Program κ ν ρ) (s : κ → ν) : s ∈ p.stores s := by
  induction p generalizing s with
  | done result => exact List.mem_singleton_self s
  | get key next ih => exact ih _ s
  | put key value next ih => exact List.mem_cons_self

theorem end_mem_stores (p : Program κ ν ρ) (s : κ → ν) : (p.run s).2 ∈ p.stores s := by
  induction p generalizing s with
  | done result => exact List.mem_singleton_self s
  | get key next ih => exact ih _ s
  | put key value next ih => exact List.mem_cons_of_mem _ (ih _)

theorem mem_stores_bind {p : Program κ ν ρ} {f : ρ → Program κ ν σ} {s t : κ → ν} :
    t ∈ (p >>= f).stores s ↔ t ∈ p.stores s ∨ t ∈ (f (p.run s).1).stores (p.run s).2 := by
  induction p generalizing s with
  | done result =>
    rw [done_bind, stores, run_done, List.mem_singleton]
    refine ⟨.inr, ?_⟩
    rintro (rfl | h)
    · exact start_mem_stores _ _
    · exact h
  | get key next ih => exact ih _
  | put key value next ih =>
    rw [put_bind, stores, stores, List.mem_cons, List.mem_cons, ih, or_assoc]
    rfl

variable {Q : κ → ν → Prop}

theorem forall_update {s : κ → ν} {key : κ} {value : ν} (hs : ∀ k, Q k (s k)) (h : Q key value) :
    ∀ k, Q k (Function.update s key value k) :=
  (Function.forall_update_iff s Q).mpr ⟨h, fun k _ ↦ hs k⟩

/-- **The rule for cutting off.** -/
theorem invariant_stores {R : ρ → Prop} {p : Program κ ν ρ} (hp : p.Keeps Q R) {s t : κ → ν}
    (hs : ∀ k, Q k (s k)) (ht : t ∈ p.stores s) : ∀ k, Q k (t k) := by
  induction p generalizing s with
  | done result =>
    rw [stores, List.mem_singleton] at ht
    exact ht ▸ hs
  | get key next ih => exact ih _ (hp _ (hs key)) hs ht
  | put key value next ih =>
    rcases List.mem_cons.mp ht with rfl | ht
    · exact hs
    · exact ih hp.2 (forall_update hs hp.1) ht

end Cut

/-! ## Programs that take turns

The threads share one store, and a turn is one access. The invariant for one program is an invariant
for all, since a read may return what another thread has written, and that satisfies it too. -/

/-- Programs on one store, each of them somewhere in its text. -/
structure Threads (ι : Type*) (κ : Type u) (ν : Type v) (ρ : Type w) where
  program : ι → Program κ ν ρ
  store : κ → ν

namespace Threads

variable {ι : Type*} [DecidableEq ι] [DecidableEq κ]

/-- The next access of one of the programs, if it has not returned. -/
def step (t : Threads ι κ ν ρ) (i : ι) : Option (Threads ι κ ν ρ) :=
  match t.program i with
  | done _ => none
  | get key next => some { t with program := Function.update t.program i (next (t.store key)) }
  | put key value next =>
    some ⟨Function.update t.program i next, Function.update t.store key value⟩

theorem step_cases {t t' : Threads ι κ ν ρ} {i : ι} (h : t.step i = some t') :
    (∃ key next, t.program i = get key next ∧
      t' = { t with program := Function.update t.program i (next (t.store key)) }) ∨
    ∃ key value next, t.program i = put key value next ∧
      t' = ⟨Function.update t.program i next, Function.update t.store key value⟩ := by
  rw [step] at h
  split at h
  · cases h
  · rename_i key next hget
    exact .inl ⟨key, next, hget, (Option.some_inj.mp h).symm⟩
  · rename_i key value next hput
    exact .inr ⟨key, value, next, hput, (Option.some_inj.mp h).symm⟩

/-- Some turns lead from the one state to the other. -/
def Reaches (t t' : Threads ι κ ν ρ) : Prop := ∃ turns, Slsfs.run step t turns = some t'

theorem Reaches.trans {t t' t'' : Threads ι κ ν ρ} (h : t.Reaches t') (h' : t'.Reaches t'') :
    t.Reaches t'' := by
  obtain ⟨turns, hturns⟩ := h
  obtain ⟨turns', hturns'⟩ := h'
  exact ⟨turns ++ turns', run_append_eq_some.mpr ⟨t', hturns, hturns'⟩⟩

theorem reaches_of_step {t t' : Threads ι κ ν ρ} {i : ι} (h : t.step i = some t') : t.Reaches t' :=
  ⟨[i], run_cons_eq_some.mpr ⟨t', h, run_nil t'⟩⟩

/-- A program can always be run to the end of its first part, with the others waiting. -/
theorem reaches_bind (t : Threads ι κ ν ρ) {i : ι} {p : Program κ ν σ} {f : σ → Program κ ν ρ}
    (hi : t.program i = p >>= f) :
    t.Reaches ⟨Function.update t.program i (f (p.run t.store).1), (p.run t.store).2⟩ := by
  induction p generalizing t with
  | done result =>
    refine ⟨[], ?_⟩
    rw [run_nil, run_done, ← done_bind result f, ← hi, Function.update_eq_self]
  | get key next ih =>
    have hstep : t.step i = some { t with
        program := Function.update t.program i (next (t.store key) >>= f) } := by
      rw [step, hi]
      rfl
    have hrest := ih (t.store key) { t with
      program := Function.update t.program i (next (t.store key) >>= f) } (Function.update_self ..)
    rw [Function.update_idem] at hrest
    exact (reaches_of_step hstep).trans hrest
  | put key value next ih =>
    have hstep : t.step i = some ⟨Function.update t.program i (next >>= f),
        Function.update t.store key value⟩ := by
      rw [step, hi]
      rfl
    have hrest := ih ⟨Function.update t.program i (next >>= f),
      Function.update t.store key value⟩ (Function.update_self ..)
    rw [Function.update_idem] at hrest
    exact (reaches_of_step hstep).trans hrest

/-- A program can always be run to its end, with the others waiting. -/
theorem reaches_done (t : Threads ι κ ν ρ) {i : ι} {p : Program κ ν ρ} (hi : t.program i = p) :
    t.Reaches ⟨Function.update t.program i (done (p.run t.store).1), (p.run t.store).2⟩ :=
  t.reaches_bind (hi.trans p.bind_done.symm)

/-- **The rule for taking turns.** -/
theorem invariant_threads {Q : κ → ν → Prop} {R : ι → ρ → Prop} {t t' : Threads ι κ ν ρ}
    {turns : List ι} (hrun : Slsfs.run step t turns = some t')
    (hp : ∀ i, (t.program i).Keeps Q (R i)) (hs : ∀ k, Q k (t.store k)) :
    (∀ i, (t'.program i).Keeps Q (R i)) ∧ ∀ k, Q k (t'.store k) := by
  refine invariant_run_of_step
    (I := fun t ↦ (∀ i, (t.program i).Keeps Q (R i)) ∧ ∀ k, Q k (t.store k))
    (fun t i t' h ⟨hp, hs⟩ ↦ ?_) hrun ⟨hp, hs⟩
  have hi := hp i
  have hothers : ∀ p, p.Keeps Q (R i) →
      ∀ j, (Function.update t.program i p j).Keeps Q (R j) := fun p hkeeps ↦
    (Function.forall_update_iff t.program fun j p ↦ p.Keeps Q (R j)).mpr
      ⟨hkeeps, fun j _ ↦ hp j⟩
  rcases step_cases h with ⟨key, next, hget, rfl⟩ | ⟨key, value, next, hput, rfl⟩
  · rw [hget] at hi
    exact ⟨hothers _ (hi _ (hs key)), hs⟩
  · rw [hput] at hi
    exact ⟨hothers _ hi.2, forall_update hs hi.1⟩

end Threads

/-! ## Programs that keep out of each other's way

In a state of an interleaving every program is partly run. `Serial` says that the rest of it, run
from the present store, gives the result and the cells that the whole gives from the first store. A
turn of the program itself does not change what is left to come, and a turn of another one writes
nothing that it reads. When all programs are done nothing is left to run, and the cells are what
they are after any order of the programs. -/

section Apart

variable [DecidableEq κ] {reads writes : Set κ}

/-- A program depends on what it reads and changes what it writes. -/
theorem run_congr {p : Program κ ν ρ} (hp : p.Within reads writes) {s s' : κ → ν}
    (h : ∀ k ∈ reads ∪ writes, s k = s' k) :
    (p.run s).1 = (p.run s').1 ∧ ∀ k ∈ reads ∪ writes, (p.run s).2 k = (p.run s').2 k := by
  induction p generalizing s s' with
  | done result => exact ⟨rfl, h⟩
  | get key next ih =>
    rw [run, run, h key (.inl hp.1)]
    exact ih _ (hp.2 _) h
  | put key value next ih =>
    refine ih hp.2 fun k hk ↦ ?_
    by_cases hkey : k = key
    · rw [hkey, Function.update_self, Function.update_self]
    · rw [Function.update_of_ne hkey, Function.update_of_ne hkey, h k hk]

theorem run_of_notMem {p : Program κ ν ρ} (hp : p.Within reads writes) (s : κ → ν) {k : κ}
    (hk : k ∉ writes) : (p.run s).2 k = s k := by
  induction p generalizing s with
  | done result => rfl
  | get key next ih => exact ih _ (hp.2 _) s
  | put key value next ih =>
    have hne : k ≠ key := by
      rintro rfl
      exact hk hp.1
    exact (ih hp.2 _).trans (Function.update_of_ne hne ..)

theorem stores_of_notMem {p : Program κ ν ρ} (hp : p.Within reads writes) {s t : κ → ν}
    (ht : t ∈ p.stores s) {k : κ} (hk : k ∉ writes) : t k = s k := by
  induction p generalizing s with
  | done result => rw [List.mem_singleton.mp ht]
  | get key next ih => exact ih _ (hp.2 _) ht
  | put key value next ih =>
    have hne : k ≠ key := by
      rintro rfl
      exact hk hp.1
    rcases List.mem_cons.mp ht with rfl | ht
    · rfl
    · exact (ih hp.2 ht).trans (Function.update_of_ne hne ..)

end Apart

namespace Threads

variable {ι : Type*} [DecidableEq ι] [DecidableEq κ] {reads writes : ι → Set κ}

/-- No program writes what another one reads or writes. -/
def Apart (reads writes : ι → Set κ) : Prop :=
  ∀ i j, i ≠ j → Disjoint (writes j) (reads i ∪ writes i)

/-- Each program still has the run that it has on the first store. -/
structure Serial (reads writes : ι → Set κ) (p : ι → Program κ ν ρ) (s : κ → ν)
    (t : Threads ι κ ν ρ) : Prop where
  within : ∀ i, (t.program i).Within (reads i) (writes i)
  result : ∀ i, ((t.program i).run t.store).1 = ((p i).run s).1
  written : ∀ i, ∀ k ∈ reads i ∪ writes i, ((t.program i).run t.store).2 k = ((p i).run s).2 k
  others : ∀ k, (∀ i, k ∉ writes i) → t.store k = s k

theorem serial_step (hapart : Apart reads writes) {p : ι → Program κ ν ρ} {s : κ → ν}
    {t t' : Threads ι κ ν ρ} {i : ι} (h : t.step i = some t')
    (hserial : Serial reads writes p s t) :
    Serial reads writes p s t' := by
  have hi := hserial.within i
  rcases step_cases h with ⟨key, next, hget, rfl⟩ | ⟨key, value, next, hput, rfl⟩
  · rw [hget] at hi
    -- reading is a part of the run
    have hsame : ∀ j, (Function.update t.program i (next (t.store key)) j).run t.store
        = (t.program j).run t.store := by
      refine (Function.forall_update_iff t.program
        fun j p ↦ p.run t.store = (t.program j).run t.store).mpr ⟨?_, fun _ _ ↦ rfl⟩
      rw [hget]
      rfl
    refine ⟨?_, fun j ↦ ?_, fun j ↦ ?_, hserial.others⟩
    · exact (Function.forall_update_iff t.program
        fun j p ↦ p.Within (reads j) (writes j)).mpr ⟨hi.2 _, fun j _ ↦ hserial.within j⟩
    · dsimp only
      rw [hsame]
      exact hserial.result j
    · dsimp only
      rw [hsame]
      exact hserial.written j
  · rw [hput] at hi
    -- writing is a part of the run, and the other programs do not notice
    have hother : ∀ j, j ≠ i → ∀ k ∈ reads j ∪ writes j,
        Function.update t.store key value k = t.store k := by
      intro j hj k hk
      refine Function.update_of_ne ?_ ..
      rintro rfl
      exact Set.disjoint_left.mp (hapart j i hj) hi.1 hk
    have hsame : ∀ j, ((Function.update t.program i next j).run
          (Function.update t.store key value)).1 = ((t.program j).run t.store).1 ∧
        ∀ k ∈ reads j ∪ writes j, ((Function.update t.program i next j).run
          (Function.update t.store key value)).2 k = ((t.program j).run t.store).2 k := by
      intro j
      by_cases hj : j = i
      · subst hj
        rw [Function.update_self, hput]
        exact ⟨rfl, fun _ _ ↦ rfl⟩
      · rw [Function.update_of_ne hj]
        exact run_congr (hserial.within j) (hother j hj)
    refine ⟨?_, fun j ↦ (hsame j).1.trans (hserial.result j),
      fun j k hk ↦ ((hsame j).2 k hk).trans (hserial.written j k hk), fun k hk ↦ ?_⟩
    · exact (Function.forall_update_iff t.program
        fun j p ↦ p.Within (reads j) (writes j)).mpr ⟨hi.2, fun j _ ↦ hserial.within j⟩
    · have hne : k ≠ key := by
        rintro rfl
        exact hk i hi.1
      exact (Function.update_of_ne hne ..).trans (hserial.others k hk)

/-- **The rule for programs that keep apart.** -/
theorem serializable (hapart : Apart reads writes) {p : ι → Program κ ν ρ}
    (hp : ∀ i, (p i).Within (reads i) (writes i)) {s : κ → ν} {turns : List ι}
    {t : Threads ι κ ν ρ} (hrun : Slsfs.run step ⟨p, s⟩ turns = some t) :
    Serial reads writes p s t :=
  invariant_run_of_step (fun _ _ _ ↦ serial_step hapart) hrun
    ⟨hp, fun _ ↦ rfl, fun _ _ _ ↦ rfl, fun _ _ ↦ rfl⟩

/-- The programs one after the other, each to its end. -/
def oneByOne (p : ι → Program κ ν ρ) (order : List ι) (s : κ → ν) : κ → ν :=
  order.foldl (fun s i ↦ ((p i).run s).2) s

omit [DecidableEq ι] in
theorem oneByOne_eq (hapart : Apart reads writes) {p : ι → Program κ ν ρ}
    (hp : ∀ i, (p i).Within (reads i) (writes i)) {order : List ι} (horder : order.Nodup)
    (s : κ → ν) :
    (∀ i ∈ order, ∀ k ∈ reads i ∪ writes i, oneByOne p order s k = ((p i).run s).2 k) ∧
    ∀ k, (∀ i ∈ order, k ∉ writes i) → oneByOne p order s k = s k := by
  induction order generalizing s with
  | nil => exact ⟨fun i hi ↦ absurd hi List.not_mem_nil, fun _ _ ↦ rfl⟩
  | cons j order ih =>
    obtain ⟨hj, horder⟩ := List.nodup_cons.mp horder
    obtain ⟨hin, hout⟩ := ih horder ((p j).run s).2
    refine ⟨fun i hi k hk ↦ ?_, fun k hk ↦ ?_⟩
    · rcases List.mem_cons.mp hi with rfl | hrest
      · refine hout k fun i' hi' hk' ↦ ?_
        have hne : i ≠ i' := by
          rintro rfl
          exact hj hi'
        exact Set.disjoint_left.mp (hapart i i' hne) hk' hk
      · have hne : i ≠ j := by
          rintro rfl
          exact hj hrest
        have hsame : ∀ k ∈ reads i ∪ writes i, ((p j).run s).2 k = s k := fun k hk ↦
          run_of_notMem (hp j) s fun hkj ↦ Set.disjoint_left.mp (hapart i j hne) hkj hk
        exact (hin i hrest k hk).trans ((run_congr (hp i) hsame).2 k hk)
    · have hrest := hout k fun i hi ↦ hk i (List.mem_cons_of_mem j hi)
      exact hrest.trans (run_of_notMem (hp j) s (hk j List.mem_cons_self))

/-- **Turns can be taken one by one.** A program that has returned has returned what it returns on
its own, and when all have, the store is what they leave in any order. -/
theorem serializable_done (hapart : Apart reads writes) {p : ι → Program κ ν ρ}
    (hp : ∀ i, (p i).Within (reads i) (writes i)) {s : κ → ν} {turns : List ι}
    {t : Threads ι κ ν ρ} (hrun : Slsfs.run step ⟨p, s⟩ turns = some t) :
    (∀ i result, t.program i = done result → result = ((p i).run s).1) ∧
      ((∀ i, ∃ result, t.program i = done result) →
        ∀ order : List ι, order.Nodup → (∀ i, i ∈ order) → t.store = oneByOne p order s) := by
  have hserial := serializable hapart hp hrun
  refine ⟨fun i result hdone ↦ ?_, fun hdone order horder hall ↦ ?_⟩
  · rw [← hserial.result i, hdone, run_done]
  · obtain ⟨hin, hout⟩ := oneByOne_eq hapart hp horder s
    funext k
    by_cases hk : ∃ i, k ∈ writes i
    · obtain ⟨i, hi⟩ := hk
      obtain ⟨result, hresult⟩ := hdone i
      have hwritten := hserial.written i k (.inr hi)
      rw [hresult, run_done] at hwritten
      exact hwritten.trans (hin i (hall i) k (.inr hi)).symm
    · have hk' : ∀ i, k ∉ writes i := fun i hi ↦ hk ⟨i, hi⟩
      exact (hserial.others k hk').trans (hout k fun i _ ↦ hk' i).symm

end Threads

end Program

end Slsfs

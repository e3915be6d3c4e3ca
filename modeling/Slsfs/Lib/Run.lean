import Mathlib.Data.List.Basic
import Mathlib.Tactic.Common

/-!
# Runs of a partial step function

A transition system is a partial function `step : σ → ε → Option σ` from a state and an event to
the next state, `none` where the event is not enabled. A run is a list of events. `run` plays it
and `Meets` says that every event of it is taken in a state that satisfies a condition. Since every
prefix of a run is a run, a statement about the last state of all runs is a statement about all
states reached.
-/

namespace Slsfs

variable {σ ε : Type*} (step : σ → ε → Option σ)

/-- The state after playing the events in order, if each of them was enabled. -/
def run : σ → List ε → Option σ
  | s, [] => some s
  | s, e :: es => (step s e).bind fun s' ↦ run s' es

/-- Every event of the run that is played satisfies `C` in the state it is played in. -/
def Meets (C : σ → ε → Prop) : σ → List ε → Prop
  | _, [] => True
  | s, e :: es => C s e ∧ ∀ s', step s e = some s' → Meets C s' es

instance decidableMeets (C : σ → ε → Prop) [∀ s e, Decidable (C s e)] :
    ∀ (s : σ) (es : List ε), Decidable (Meets step C s es)
  | _, [] => .isTrue trivial
  | s, e :: es =>
    have : ∀ s', Decidable (Meets step C s' es) := fun s' ↦ decidableMeets C s' es
    inferInstanceAs (Decidable (C s e ∧ ∀ s' ∈ step s e, Meets step C s' es))

/-- Every state reached along the run satisfies `P`, the first and the last one included. -/
def Always (P : σ → Prop) : σ → List ε → Prop
  | s, [] => P s
  | s, e :: es => P s ∧ ∀ s', step s e = some s' → Always P s' es

variable {step}

@[simp] theorem run_nil (s : σ) : run step s [] = some s := rfl

theorem run_cons_eq_some {s t : σ} {e : ε} {es : List ε} :
    run step s (e :: es) = some t ↔ ∃ s', step s e = some s' ∧ run step s' es = some t := by
  rw [run, Option.bind_eq_some_iff]

theorem run_append_eq_some {s t : σ} {es fs : List ε} :
    run step s (es ++ fs) = some t ↔ ∃ s', run step s es = some s' ∧ run step s' fs = some t := by
  induction es generalizing s with
  | nil => simp
  | cons e es ih =>
    rw [List.cons_append, run_cons_eq_some]
    constructor
    · rintro ⟨u, hu, h⟩
      obtain ⟨v, hv, ht⟩ := ih.mp h
      exact ⟨v, run_cons_eq_some.mpr ⟨u, hu, hv⟩, ht⟩
    · rintro ⟨v, h, ht⟩
      obtain ⟨u, hu, hv⟩ := run_cons_eq_some.mp h
      exact ⟨u, hu, ih.mpr ⟨v, hv, ht⟩⟩

/-- A run in two parts meets a condition if both parts do. -/
theorem meets_append_iff {C : σ → ε → Prop} {s s' : σ} {es fs : List ε}
    (hrun : run step s es = some s') :
    Meets step C s (es ++ fs) ↔ Meets step C s es ∧ Meets step C s' fs := by
  induction es generalizing s with
  | nil =>
    rw [run_nil, Option.some_inj] at hrun
    subst hrun
    exact ⟨fun h ↦ ⟨trivial, h⟩, fun h ↦ h.2⟩
  | cons e es ih =>
    obtain ⟨u, hu, hv⟩ := run_cons_eq_some.mp hrun
    have hnext : ∀ P : σ → Prop, (∀ t, step s e = some t → P t) ↔ P u := by
      intro P
      refine ⟨fun h ↦ h u hu, fun h t ht ↦ ?_⟩
      rwa [← Option.some_inj.mp (hu.symm.trans ht)]
    rw [List.cons_append, Meets, Meets, hnext, hnext, ih hv, and_assoc]

theorem meets_of_forall_mem {C : ε → Prop} {es : List ε} (h : ∀ e ∈ es, C e) (s : σ) :
    Meets step (fun _ e ↦ C e) s es := by
  induction es generalizing s with
  | nil => trivial
  | cons e es ih =>
    exact ⟨h e List.mem_cons_self, fun s' _ ↦ ih (fun f hf ↦ h f (List.mem_cons_of_mem e hf)) s'⟩

theorem Meets.and {C D : σ → ε → Prop} {s : σ} {es : List ε} (hC : Meets step C s es)
    (hD : Meets step D s es) : Meets step (fun s e ↦ C s e ∧ D s e) s es := by
  induction es generalizing s with
  | nil => trivial
  | cons e es ih => exact ⟨⟨hC.1, hD.1⟩, fun s' hs' ↦ ih (hC.2 s' hs') (hD.2 s' hs')⟩

/-- In a run that is played to its end, it is met by no others. -/
theorem meets_iff_forall_mem {C : ε → Prop} {s t : σ} {es : List ε}
    (hrun : run step s es = some t) : Meets step (fun _ e ↦ C e) s es ↔ ∀ e ∈ es, C e := by
  refine ⟨fun h ↦ ?_, fun h ↦ meets_of_forall_mem h s⟩
  induction es generalizing s with
  | nil => exact List.forall_mem_nil C
  | cons e es ih =>
    obtain ⟨u, hu, hv⟩ := run_cons_eq_some.mp hrun
    exact List.forall_mem_cons.mpr ⟨h.1, ih hv (h.2 u hu)⟩

/-! ## Invariants

A condition on the events of a run gives an invariant, if each event that meets it preserves the
invariant. `invariant_run₂` is for two runs of the same events, and `invariant_run_or` for a run
that ends in another invariant once the condition has failed, and for good. -/

/-- **The invariant rule.** What every step taken under `C` preserves holds after every run whose
steps all meet `C`. -/
theorem invariant_run {C : σ → ε → Prop} {I : σ → Prop}
    (hstep : ∀ s e s', C s e → step s e = some s' → I s → I s') {s t : σ} {es : List ε}
    (hmeets : Meets step C s es) (hrun : run step s es = some t) (hI : I s) : I t := by
  induction es generalizing s with
  | nil =>
    rw [run_nil] at hrun
    rwa [← Option.some_inj.mp hrun]
  | cons e es ih =>
    obtain ⟨u, hu, hv⟩ := run_cons_eq_some.mp hrun
    exact ih (hmeets.2 u hu) hv (hstep s e u hmeets.1 hu hI)

/-- The invariant rule without a condition on the steps. -/
theorem invariant_run_of_step {I : σ → Prop}
    (hstep : ∀ s e s', step s e = some s' → I s → I s') {s t : σ} {es : List ε}
    (hrun : run step s es = some t) (hI : I s) : I t := by
  refine invariant_run (C := fun _ _ ↦ True) (fun s e s' _ ↦ hstep s e s') ?_ hrun hI
  clear hrun
  induction es generalizing s with
  | nil => trivial
  | cons e es ih => exact ⟨trivial, fun s' hs' ↦ ih (hstep s e s' hs' hI)⟩

/-- A condition that a second one preserves an invariant for, and implies under it, is met. -/
theorem meets_of_invariant {C D : σ → ε → Prop} {I : σ → Prop}
    (hstep : ∀ s e s', D s e → step s e = some s' → I s → I s')
    (himp : ∀ s e, I s → D s e → C s e) {s : σ} {es : List ε} (hmeets : Meets step D s es)
    (hI : I s) : Meets step C s es := by
  induction es generalizing s with
  | nil => trivial
  | cons e es ih =>
    exact ⟨himp s e hI hmeets.1,
      fun s' hs' ↦ ih (hmeets.2 s' hs') (hstep s e s' hmeets.1 hs' hI)⟩

/-- The invariant rule for a run that may break the condition: up to the first step that breaks `C`
the one invariant holds, and from there on the other. -/
theorem invariant_run_or {A C : σ → ε → Prop} {I J : σ → Prop}
    (hstep : ∀ s e s', A s e → C s e → step s e = some s' → I s → I s')
    (hbreak : ∀ s e s', A s e → ¬C s e → step s e = some s' → I s → J s')
    (hafter : ∀ s e s', A s e → step s e = some s' → J s → J s') {s t : σ} {es : List ε}
    (hmeets : Meets step A s es) (hrun : run step s es = some t) (hI : I s) :
    Meets step C s es ∧ I t ∨ ¬Meets step C s es ∧ J t := by
  induction es generalizing s with
  | nil =>
    rw [run_nil, Option.some_inj] at hrun
    subst hrun
    exact .inl ⟨trivial, hI⟩
  | cons e es ih =>
    obtain ⟨u, hu, hv⟩ := run_cons_eq_some.mp hrun
    by_cases hC : C s e
    · rcases ih (hmeets.2 u hu) hv (hstep s e u hmeets.1 hC hu hI) with ⟨hrest, hIt⟩ | ⟨hrest, hJt⟩
      · refine .inl ⟨⟨hC, fun s' hs' ↦ ?_⟩, hIt⟩
        obtain rfl : s' = u := Option.some_inj.mp (hs'.symm.trans hu)
        exact hrest
      · exact .inr ⟨fun h ↦ hrest (h.2 u hu), hJt⟩
    · have hJ := hbreak s e u hmeets.1 hC hu hI
      exact .inr ⟨fun h ↦ hC h.1, invariant_run hafter (hmeets.2 u hu) hv hJ⟩

/-- The invariant rule with progress: if every step under `C` can be taken and preserves `I`, then
so does the whole run. -/
theorem exists_run {C : σ → ε → Prop} {I : σ → Prop} {es : List ε}
    (hstep : ∀ s, ∀ e ∈ es, C s e → I s → ∃ s', step s e = some s' ∧ I s') {s : σ}
    (hmeets : Meets step C s es) (hI : I s) : ∃ t, run step s es = some t ∧ I t := by
  induction es generalizing s with
  | nil => exact ⟨s, rfl, hI⟩
  | cons e es ih =>
    obtain ⟨u, hu, hIu⟩ := hstep s e List.mem_cons_self hmeets.1 hI
    obtain ⟨t, ht, hIt⟩ := ih (fun s' e' he' ↦ hstep s' e' (List.mem_cons_of_mem _ he'))
      (hmeets.2 u hu) hIu
    exact ⟨t, run_cons_eq_some.mpr ⟨u, hu, ht⟩, hIt⟩

/-- **The rule for two runs** of the same events: a relation that every pair of steps preserves,
each taken under its own condition, holds between the last states. -/
theorem invariant_run₂ {τ : Type*} {step' : τ → ε → Option τ} {C : σ → ε → Prop} {C' : τ → ε → Prop}
    {R : σ → τ → Prop}
    (hstep : ∀ s s' e u u', C s e → C' s' e → step s e = some u → step' s' e = some u' → R s s' →
      R u u') {s t : σ} {s' t' : τ} {es : List ε} (hmeets : Meets step C s es)
    (hmeets' : Meets step' C' s' es) (hrun : run step s es = some t)
    (hrun' : run step' s' es = some t') (hR : R s s') : R t t' := by
  induction es generalizing s s' with
  | nil =>
    rw [run_nil, Option.some_inj] at hrun hrun'
    rwa [← hrun, ← hrun']
  | cons e es ih =>
    obtain ⟨u, hu, hv⟩ := run_cons_eq_some.mp hrun
    obtain ⟨u', hu', hv'⟩ := run_cons_eq_some.mp hrun'
    exact ih (hmeets.2 u hu) (hmeets'.2 u' hu') hv hv'
      (hstep s s' e u u' hmeets.1 hmeets'.1 hu hu' hR)

/-! ## A condition that is exact

If a condition on the events preserves an invariant that implies a property, and each event that
does not meet it leads to a state without the property, then the property holds in all states of a
run exactly if all its events meet the condition. -/

/-- What holds all along a run holds after each beginning of it. -/
theorem always_iff_forall_split {P : σ → Prop} {s t : σ} {es : List ε}
    (hrun : run step s es = some t) :
    Always step P s es ↔ ∀ fs gs u, es = fs ++ gs → run step s fs = some u → P u := by
  induction es generalizing s with
  | nil =>
    constructor
    · intro h fs gs u hsplit hfs
      obtain ⟨rfl, rfl⟩ := List.append_eq_nil_iff.mp hsplit.symm
      rw [run_nil, Option.some_inj] at hfs
      exact hfs ▸ h
    · exact fun h ↦ h [] [] s rfl rfl
  | cons e es ih =>
    obtain ⟨v, hv, hrest⟩ := run_cons_eq_some.mp hrun
    constructor
    · rintro ⟨hhead, htail⟩ fs gs u hsplit hfs
      cases fs with
      | nil =>
        rw [run_nil, Option.some_inj] at hfs
        exact hfs ▸ hhead
      | cons f fs =>
        obtain ⟨rfl, hes⟩ := List.cons_eq_cons.mp hsplit
        obtain ⟨w, hw, hfs⟩ := run_cons_eq_some.mp hfs
        obtain rfl : w = v := Option.some_inj.mp (hw.symm.trans hv)
        exact (ih hrest).mp (htail w hv) fs gs u hes hfs
    · intro h
      refine ⟨h [] (e :: es) s rfl rfl, fun s' hs' ↦ ?_⟩
      obtain rfl : s' = v := Option.some_inj.mp (hs'.symm.trans hv)
      refine (ih hrest).mpr fun fs gs u hsplit hfs ↦ ?_
      exact h (e :: fs) gs u (by rw [hsplit, List.cons_append])
        (run_cons_eq_some.mpr ⟨s', hv, hfs⟩)

/-- The invariant rule for all the states reached. -/
theorem always_of_meets {C : σ → ε → Prop} {I P : σ → Prop}
    (hstep : ∀ s e s', C s e → step s e = some s' → I s → I s') (hP : ∀ s, I s → P s) {s : σ}
    {es : List ε} (hmeets : Meets step C s es) (hI : I s) : Always step P s es := by
  induction es generalizing s with
  | nil => exact hP s hI
  | cons e es ih =>
    exact ⟨hP s hI, fun s' hs' ↦ ih (hmeets.2 s' hs') (hstep s e s' hmeets.1 hs' hI)⟩

/-- If an invariant under `C` implies `P`, and a step that breaks `C` leads out of `P`, then `P`
holds all along a run exactly if all its steps meet `C`. All of it may count on a condition `A` that
the run is known to meet. -/
theorem always_iff_meets_under {A C : σ → ε → Prop} {I P : σ → Prop}
    (hstep : ∀ s e s', A s e → C s e → step s e = some s' → I s → I s') (hP : ∀ s, I s → P s)
    (hbreak : ∀ s e s', A s e → I s → step s e = some s' → P s' → C s e) {s t : σ} {es : List ε}
    (hA : Meets step A s es) (hrun : run step s es = some t) (hI : I s) :
    Always step P s es ↔ Meets step C s es := by
  induction es generalizing s with
  | nil => exact ⟨fun _ ↦ trivial, fun _ ↦ hP s hI⟩
  | cons e es ih =>
    obtain ⟨u, hu, hv⟩ := run_cons_eq_some.mp hrun
    have hhead : ∀ {s' : σ} {fs : List ε}, Always step P s' fs → P s' := by
      intro s' fs h
      cases fs with
      | nil => exact h
      | cons f fs => exact h.1
    constructor
    · intro h
      have hC : C s e := hbreak s e u hA.1 hI hu (hhead (h.2 u hu))
      refine ⟨hC, fun s' hs' ↦ ?_⟩
      obtain rfl : s' = u := Option.some_inj.mp (hs'.symm.trans hu)
      exact (ih (hA.2 s' hu) hv (hstep s e s' hA.1 hC hs' hI)).mp (h.2 s' hs')
    · intro h
      refine ⟨hP s hI, fun s' hs' ↦ ?_⟩
      obtain rfl : s' = u := Option.some_inj.mp (hs'.symm.trans hu)
      exact (ih (hA.2 s' hu) hv (hstep s e s' hA.1 h.1 hs' hI)).mpr (h.2 s' hs')

theorem always_iff_meets {C : σ → ε → Prop} {I P : σ → Prop}
    (hstep : ∀ s e s', C s e → step s e = some s' → I s → I s') (hP : ∀ s, I s → P s)
    (hbreak : ∀ s e s', I s → step s e = some s' → P s' → C s e) {s t : σ} {es : List ε}
    (hrun : run step s es = some t) (hI : I s) :
    Always step P s es ↔ Meets step C s es :=
  always_iff_meets_under (fun s e s' _ ↦ hstep s e s') hP (fun s e s' _ ↦ hbreak s e s')
    (meets_of_forall_mem (C := fun _ ↦ True) (fun _ _ ↦ trivial) s) hrun hI

end Slsfs

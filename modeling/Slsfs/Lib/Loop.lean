import Mathlib.Data.List.Basic
import Mathlib.Tactic.Common

/-!
# Loops that emit a value in each round

A loop whose body puts out one value and moves its state on is a partial function
`round : σ → Option (α × σ)`, `none` where the guard fails. `Emits round s out t` says that the
loop entered in the state `s` terminates in `t`, having put out `out`; a loop that goes on for ever
emits nothing in this sense. Two loops over different states are compared with `Emits.simulate`.
-/

namespace Slsfs

variable {σ τ α β : Type*}

/-- The loop terminates, with the values of its rounds in order and the state that is left. -/
inductive Emits (round : σ → Option (α × σ)) : σ → List α → σ → Prop
  | stop {s : σ} (h : round s = none) : Emits round s [] s
  | next {s s' t : σ} {a : α} {out : List α} (h : round s = some (a, s'))
    (rest : Emits round s' out t) : Emits round s (a :: out) t

variable {round : σ → Option (α × σ)}

theorem Emits.unique {s t t' : σ} {out out' : List α} (h : Emits round s out t)
    (h' : Emits round s out' t') : out = out' ∧ t = t' := by
  induction h generalizing out' t' with
  | stop hs =>
    cases h' with
    | stop => exact ⟨rfl, rfl⟩
    | next hs' => exact absurd (hs.symm.trans hs') (by simp)
  | next hs rest ih =>
    cases h' with
    | stop hs' => exact absurd (hs'.symm.trans hs) (by simp)
    | next hs' rest' =>
      obtain ⟨rfl, rfl⟩ := Prod.mk.inj (Option.some_inj.mp (hs.symm.trans hs'))
      obtain ⟨rfl, rfl⟩ := ih rest'
      exact ⟨rfl, rfl⟩

/-- **The simulation rule.** A loop that keeps step with another one terminates with it. What the
two put out agrees under `f` and `g` if it does so in each round. -/
theorem Emits.simulate {γ : Type*} (round' : τ → Option (β × τ)) {R : σ → τ → Prop} {f : α → γ}
    {g : β → γ}
    (hstop : ∀ s u, R s u → round s = none → round' u = none)
    (hnext : ∀ s u a s', R s u → round s = some (a, s') →
      ∃ b u', round' u = some (b, u') ∧ g b = f a ∧ R s' u')
    {s t : σ} {u : τ} {out : List α} (h : Emits round s out t) (hR : R s u) :
    ∃ out' v, Emits round' u out' v ∧ out'.map g = out.map f ∧ R t v := by
  induction h generalizing u with
  | stop hs => exact ⟨[], u, .stop (hstop _ u hR hs), rfl, hR⟩
  | next hs rest ih =>
    obtain ⟨b, u', hu, hb, hR'⟩ := hnext _ u _ _ hR hs
    obtain ⟨out', v, hv, hout, hRv⟩ := ih hR'
    exact ⟨b :: out', v, .next hu hv, by rw [List.map_cons, List.map_cons, hb, hout], hRv⟩

end Slsfs

import Mathlib.Data.List.Basic
import Mathlib.Tactic.Common

/-!
# Counting the indices that satisfy a predicate

Counters in a program often stand for the number of indices below a bound with some property. Two
facts keep such a counter in step: raising the bound, and changing the property at one index.
-/

namespace Slsfs

/-- How many of `0, …, n - 1` satisfy `p`. -/
def countBelow (p : ℕ → Bool) (n : ℕ) : ℕ := (List.range n).countP p

@[simp] theorem countBelow_zero (p : ℕ → Bool) : countBelow p 0 = 0 := rfl

theorem countBelow_succ (p : ℕ → Bool) (n : ℕ) :
    countBelow p (n + 1) = countBelow p n + if p n then 1 else 0 := by
  rw [countBelow, List.range_succ, List.countP_append, List.countP_singleton]
  rfl

theorem countBelow_congr {p q : ℕ → Bool} {n : ℕ} (h : ∀ i < n, p i = q i) :
    countBelow p n = countBelow q n :=
  List.countP_congr fun i hi ↦ by rw [h i (List.mem_range.mp hi)]

/-- Two properties that differ at one index below the bound count one apart. -/
theorem countBelow_eq_add_one {p q : ℕ → Bool} {i n : ℕ} (hi : i < n) (hp : p i = true)
    (hq : q i = false) (hne : ∀ j, j ≠ i → p j = q j) :
    countBelow p n = countBelow q n + 1 := by
  induction n with
  | zero => omega
  | succ n ih =>
    rw [countBelow_succ, countBelow_succ]
    by_cases hin : i = n
    · subst hin
      rw [hp, hq, countBelow_congr fun j hj ↦ hne j (by omega)]
      rfl
    · rw [ih (by omega), hne n (Ne.symm hin)]
      omega

theorem countBelow_eq_zero {p : ℕ → Bool} {n : ℕ} :
    countBelow p n = 0 ↔ ∀ i < n, p i = false := by
  simp [countBelow, List.countP_eq_zero]

theorem countBelow_pos {p : ℕ → Bool} {i n : ℕ} (hi : i < n) (hp : p i = true) :
    0 < countBelow p n :=
  List.countP_pos_iff.mpr ⟨i, List.mem_range.mpr hi, hp⟩

end Slsfs

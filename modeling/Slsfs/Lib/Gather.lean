import Mathlib.Data.List.Induction
import Mathlib.Data.List.Perm.Subperm
import Mathlib.Data.List.ReduceOption
import Slsfs.Lib.Run

/-!
# Filling a vector in any order

A vector of empty places is filled one place at a time, each by its index. Whoever fills a place
looks through the whole vector and, if nothing is empty, hands the values over in the order of the
places. `run_put` says what the vector is after any arrivals with different indices: who arrived
first does not show, and the values are handed over once, by the arrival that fills the last place.
-/

namespace Slsfs

variable {α : Type*}

/-- The places, and what has been handed over. -/
structure Gather (α : Type*) where
  slots : List (Option α)
  handedOver : List (List α)

namespace Gather

/-- `n` empty places. -/
def empty (n : ℕ) : Gather α where
  slots := List.replicate n none
  handedOver := []

/-- One arrival; `none` if there is no such place. -/
def put (g : Gather α) (arrival : ℕ × α) : Option (Gather α) :=
  if arrival.1 < g.slots.length then
    let slots := g.slots.set arrival.1 (some arrival.2)
    some ⟨slots, if slots.all Option.isSome then g.handedOver ++ [slots.reduceOption]
      else g.handedOver⟩
  else none

/-- The vector with the places of some indices filled. -/
def filled (n : ℕ) (value : ℕ → α) (arrived : List ℕ) : Gather α where
  slots := (List.range n).map fun i ↦ if i ∈ arrived then some (value i) else none
  handedOver := if 0 < n ∧ (List.range n).all (· ∈ arrived) then [(List.range n).map value] else []

theorem all_range_iff {n : ℕ} {arrived : List ℕ} :
    (List.range n).all (· ∈ arrived) = true ↔ ∀ i < n, i ∈ arrived := by
  simp only [List.all_eq_true, List.mem_range, decide_eq_true_iff]

theorem slots_all_iff (n : ℕ) (value : ℕ → α) (arrived : List ℕ) :
    (filled n value arrived).slots.all Option.isSome = true ↔ ∀ i < n, i ∈ arrived := by
  rw [filled, List.all_eq_true, List.forall_mem_map]
  refine forall_congr' fun i ↦ ?_
  rw [List.mem_range]
  refine imp_congr_right fun _ ↦ ?_
  by_cases h : i ∈ arrived <;> simp [h]

theorem reduceOption_slots {n : ℕ} {value : ℕ → α} {arrived : List ℕ}
    (h : ∀ i < n, i ∈ arrived) :
    (filled n value arrived).slots.reduceOption = (List.range n).map value := by
  have hslots : (filled n value arrived).slots = ((List.range n).map value).map some := by
    rw [List.map_map]
    exact List.map_congr_left fun i hi ↦ if_pos (h i (List.mem_range.mp hi))
  rw [hslots, List.reduceOption, List.filterMap_map, Function.id_comp, List.filterMap_some]

theorem put_filled {n j : ℕ} (value : ℕ → α) {arrived : List ℕ} (hj : j < n) (hnew : j ∉ arrived) :
    (filled n value arrived).put (j, value j) = some (filled n value (arrived ++ [j])) := by
  have hlen : (filled n value arrived).slots.length = n := by
    rw [filled, List.length_map, List.length_range]
  have hslots : (filled n value arrived).slots.set j (some (value j))
      = (filled n value (arrived ++ [j])).slots := by
    refine List.ext_getElem? fun i ↦ ?_
    rw [List.getElem?_set, hlen]
    by_cases hi : j = i
    · subst hi
      simp [filled, hj]
    · have hmem : ∀ k ∈ (List.range n)[i]?, (k ∈ arrived ++ [j] ↔ k ∈ arrived) := by
        intro k hk
        obtain ⟨-, rfl⟩ := List.getElem?_eq_some_iff.mp hk
        simp [Ne.symm hi]
      rw [if_neg hi, filled, filled, List.getElem?_map, List.getElem?_map]
      cases hk : (List.range n)[i]? with
      | none => rfl
      | some k => rw [Option.map_some, Option.map_some, if_congr (hmem k hk).symm rfl rfl]
  have hbefore : (filled n value arrived).handedOver = [] :=
    if_neg fun h ↦ hnew (all_range_iff.mp h.2 j hj)
  rw [put, if_pos (by rw [hlen]; exact hj)]
  dsimp only
  rw [hslots, hbefore, List.nil_append]
  by_cases hall : ∀ i < n, i ∈ arrived ++ [j]
  · rw [if_pos ((slots_all_iff n value _).mpr hall), reduceOption_slots hall]
    have hover : (filled n value (arrived ++ [j])).handedOver = [(List.range n).map value] :=
      if_pos ⟨by omega, all_range_iff.mpr hall⟩
    rw [← hover]
  · rw [if_neg fun h ↦ hall ((slots_all_iff n value _).mp h)]
    have hover : (filled n value (arrived ++ [j])).handedOver = [] :=
      if_neg fun h ↦ hall (all_range_iff.mp h.2)
    rw [← hover]

/-- **After any arrivals with different indices** the places of these are filled, whatever the
order was. -/
theorem run_put {n : ℕ} (value : ℕ → α) {arrived : List ℕ} (hlt : ∀ j ∈ arrived, j < n)
    (hnodup : arrived.Nodup) :
    run put (empty n) (arrived.map fun j ↦ (j, value j)) = some (filled n value arrived) := by
  induction arrived using List.reverseRecOn with
  | nil =>
    rw [List.map_nil, run_nil, empty, filled]
    have hover : ¬(0 < n ∧ (List.range n).all (· ∈ ([] : List ℕ)) = true) := fun h ↦
      absurd (all_range_iff.mp h.2 0 h.1) List.not_mem_nil
    rw [if_neg hover]
    simp
  | append_singleton front j ih =>
    obtain ⟨hfront, -, hdisjoint⟩ := List.nodup_append.mp hnodup
    have hnew : j ∉ front := fun h ↦ hdisjoint j h j (List.mem_singleton_self j) rfl
    rw [List.map_append, List.map_cons, List.map_nil, run_append_eq_some]
    refine ⟨_, ih (fun i hi ↦ hlt i (List.mem_append_left _ hi)) hfront, ?_⟩
    rw [run_cons_eq_some]
    exact ⟨_, put_filled value (hlt j (by simp)) hnew, run_nil _⟩

theorem handedOver_filled_of_perm {n : ℕ} (value : ℕ → α) {arrived : List ℕ} (hn : 0 < n)
    (h : arrived.Perm (List.range n)) :
    (filled n value arrived).handedOver = [(List.range n).map value] :=
  if_pos ⟨hn, all_range_iff.mpr fun _ hi ↦ h.mem_iff.mpr (List.mem_range.mpr hi)⟩

theorem handedOver_filled_of_lt {n : ℕ} (value : ℕ → α) {arrived : List ℕ}
    (h : arrived.length < n) : (filled n value arrived).handedOver = [] := by
  refine if_neg fun hall ↦ ?_
  have hsub : List.range n ⊆ arrived := fun i hi ↦
    all_range_iff.mp hall.2 i (List.mem_range.mp hi)
  have hle := (List.subperm_of_subset List.nodup_range hsub).length_le
  rw [List.length_range] at hle
  omega

end Gather

end Slsfs

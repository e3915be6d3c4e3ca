import Mathlib.Algebra.BigOperators.Group.List.Basic
import Mathlib.Algebra.GroupWithZero.Nat
import Mathlib.Data.List.Nodup
import Mathlib.Data.List.Perm.Lattice

/-!
# A recency list and what it keeps track of

A list of nodes in the order in which they are to be evicted, next to a store that maps keys to
values. `Tracks` says that the two agree: one node for each key that is held, with the weight of
its value. The step of such a structure removes the node of a key, evicts from the front and puts
the key at the back; `Tracks.touch` says what the store has to look like afterwards.
-/

namespace Slsfs

variable {α κ ν : Type*} (key : α → κ) (size : α → ℕ) (weight : ν → ℕ)

/-- The nodes have different keys, and they are those of the store with the weights of its
values. -/
structure Tracks (nodes : List α) (store : κ → Option ν) : Prop where
  distinct : nodes.Pairwise fun a b ↦ key a ≠ key b
  held : ∀ a ∈ nodes, ∃ v, store (key a) = some v ∧ weight v = size a
  listed : ∀ k v, store k = some v → ∃ a ∈ nodes, key a = k

namespace Tracks

variable {key size weight} {nodes kept : List α} {store store' : κ → Option ν}

theorem congr (h : Tracks key size weight nodes store) (heq : ∀ k, store' k = store k) :
    Tracks key size weight nodes store' := by
  rwa [show store' = store from funext heq]

/-- **One step.** Some of the other nodes are kept, and one node is put at the end. -/
theorem touch (h : Tracks key size weight nodes store) {a : α} (hkept : kept.Sublist nodes)
    (hother : ∀ b ∈ kept, key b ≠ key a)
    (hnew : ∃ v, store' (key a) = some v ∧ weight v = size a)
    (hsame : ∀ b ∈ kept, store' (key b) = store (key b))
    (hgone : ∀ k v, k ≠ key a → store' k = some v → ∃ b ∈ kept, key b = k) :
    Tracks key size weight (kept ++ [a]) store' where
  distinct := by
    rw [List.pairwise_append]
    refine ⟨h.distinct.sublist hkept, List.pairwise_singleton _ _, ?_⟩
    intro b hb c hc
    rw [List.mem_singleton] at hc
    subst hc
    exact hother b hb
  held := by
    intro b hb
    rcases List.mem_append.mp hb with hb | hb
    · rw [hsame b hb]
      exact h.held b (hkept.subset hb)
    · rw [List.mem_singleton] at hb
      subst hb
      exact hnew
  listed := by
    classical
    intro k v hv
    by_cases hk : k = key a
    · exact ⟨a, List.mem_append_right _ (List.mem_singleton_self a), hk.symm⟩
    · obtain ⟨b, hb, hkey⟩ := hgone k v hk hv
      exact ⟨b, List.mem_append_left _ hb, hkey⟩

theorem sum_eq (h : Tracks key size weight nodes store) (entries : List (κ × ν))
    (hnodup : (entries.map Prod.fst).Nodup)
    (hmem : ∀ k v, (k, v) ∈ entries ↔ store k = some v) :
    (entries.map fun entry ↦ weight entry.2).sum = (nodes.map size).sum := by
  have hperm : (entries.map fun entry ↦ (entry.1, weight entry.2)).Perm
      (nodes.map fun a ↦ (key a, size a)) := by
    refine (List.perm_ext_iff_of_nodup ?_ ?_).mpr ?_
    · refine List.Nodup.of_map Prod.fst ?_
      rw [List.map_map]
      exact hnodup
    · refine List.Nodup.of_map Prod.fst ?_
      rw [List.map_map]
      exact List.pairwise_map.mpr h.distinct
    · rintro ⟨k, w⟩
      rw [List.mem_map, List.mem_map]
      constructor
      · rintro ⟨⟨k', v⟩, hentry, heq⟩
        cases heq
        have hv := (hmem k' v).mp hentry
        obtain ⟨a, ha, rfl⟩ := h.listed k' v hv
        obtain ⟨v', hv', hsize⟩ := h.held a ha
        rw [hv, Option.some_inj] at hv'
        subst hv'
        exact ⟨a, ha, by rw [hsize]⟩
      · rintro ⟨a, ha, heq⟩
        cases heq
        obtain ⟨v, hv, hsize⟩ := h.held a ha
        exact ⟨(key a, v), (hmem _ v).mpr hv, by rw [hsize]⟩
  have hsum := (hperm.map Prod.snd).sum_eq
  rw [List.map_map, List.map_map] at hsum
  exact hsum

end Tracks

end Slsfs

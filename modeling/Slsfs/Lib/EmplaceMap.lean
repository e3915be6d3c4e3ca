import Mathlib.Data.List.AList

/-!
# Finite maps with insertion that does not replace

A finite map is an association list without duplicate keys. `emplace` adds a key that is not there
and otherwise leaves the map as it is, which is what hash maps of that name do. `Shrinks` is the
relation between a map of maps and what is left of it after some removals.
-/

namespace Slsfs

variable {κ κ' ν : Type*} [DecidableEq κ] [DecidableEq κ']

/-- A finite map. -/
abbrev FiniteMap (κ ν : Type*) := AList fun _ : κ ↦ ν

namespace FiniteMap

/-- Insert unless the key is there. -/
def emplace (m : FiniteMap κ ν) (k : κ) (v : ν) : FiniteMap κ ν :=
  if (m.lookup k).isSome then m else m.insert k v

theorem lookup_emplace (m : FiniteMap κ ν) (k : κ) (v : ν) :
    (m.emplace k v).lookup k = some ((m.lookup k).getD v) := by
  rw [emplace]
  split
  · rename_i hsome
    obtain ⟨old, hold⟩ := Option.isSome_iff_exists.mp hsome
    rw [hold]
    rfl
  · rename_i hnone
    rw [Option.not_isSome_iff_eq_none] at hnone
    rw [AList.lookup_insert, hnone]
    rfl

theorem lookup_emplace_of_ne (m : FiniteMap κ ν) {k k' : κ} (v : ν) (h : k' ≠ k) :
    (m.emplace k v).lookup k' = m.lookup k' := by
  rw [emplace]
  split
  · rfl
  · exact AList.lookup_insert_ne h

theorem lookup_emplace_of_some {m : FiniteMap κ ν} {k : κ} {v : ν} (h : m.lookup k = some v)
    (k' : κ) (v' : ν) : (m.emplace k' v').lookup k = some v := by
  by_cases hk : k = k'
  · subst hk
    rw [lookup_emplace, h, Option.getD_some]
  · rw [lookup_emplace_of_ne _ _ hk, h]

/-- What is there after an insertion was there before, or was inserted. -/
theorem lookup_of_emplace {m : FiniteMap κ ν} {k k' : κ} {v x : ν}
    (h : (m.emplace k v).lookup k' = some x) :
    m.lookup k' = some x ∨ k' = k ∧ x = v ∧ m.lookup k = none := by
  by_cases hk : k' = k
  · subst hk
    rw [lookup_emplace, Option.some_inj] at h
    cases hm : m.lookup k' with
    | none =>
      rw [hm] at h
      exact .inr ⟨rfl, h.symm, rfl⟩
    | some old =>
      rw [hm] at h
      exact .inl (congrArg some h)
  · rw [lookup_emplace_of_ne _ _ hk] at h
    exact .inl h

theorem lookup_of_erase {m : FiniteMap κ ν} {k k' : κ} {x : ν}
    (h : (m.erase k).lookup k' = some x) : k' ≠ k ∧ m.lookup k' = some x := by
  by_cases hk : k' = k
  · subst hk
    rw [AList.lookup_erase] at h
    cases h
  · rw [AList.lookup_erase_ne hk] at h
    exact ⟨hk, h⟩

/-- Another value for each key. -/
def mapValues {ν' : Type*} (f : ν → ν') (m : FiniteMap κ ν) : FiniteMap κ ν' :=
  ⟨m.entries.map fun e ↦ ⟨e.1, f e.2⟩, by
    have hkeys := m.nodupKeys
    rw [List.NodupKeys, List.keys] at hkeys ⊢
    rw [List.map_map]
    exact hkeys⟩

theorem lookup_mapValues {ν' : Type*} (f : ν → ν') (m : FiniteMap κ ν) (k : κ) :
    (m.mapValues f).lookup k = (m.lookup k).map f := by
  refine Option.ext fun v ↦ ?_
  rw [Option.map_eq_some_iff, ← Option.mem_def, AList.mem_lookup_iff]
  constructor
  · intro hmem
    obtain ⟨⟨k', w⟩, hw, heq⟩ := List.mem_map.mp hmem
    cases heq
    exact ⟨w, AList.mem_lookup_iff.mpr hw, rfl⟩
  · rintro ⟨w, hw, rfl⟩
    exact List.mem_map.mpr ⟨⟨k, w⟩, AList.mem_lookup_iff.mp hw, rfl⟩

theorem lookup_foldl_insert {ω : Type*} (key : ω → κ) (value : ω → ν) (ws : List ω)
    (m : FiniteMap κ ν) (k : κ) :
    (ws.foldl (fun m w ↦ m.insert (key w) (value w)) m).lookup k
      = ((ws.reverse.find? fun w ↦ key w = k).map value).or (m.lookup k) := by
  induction ws generalizing m with
  | nil => rfl
  | cons w ws ih =>
    rw [List.foldl_cons, ih, List.reverse_cons, List.find?_append]
    cases ws.reverse.find? fun w ↦ key w = k with
    | some v => rfl
    | none =>
      rw [Option.map_none, Option.none_or, Option.none_or]
      by_cases hk : key w = k
      · subst hk
        rw [AList.lookup_insert, List.find?_cons_of_pos (by simp)]
        rfl
      · rw [AList.lookup_insert_ne (Ne.symm hk), List.find?_cons_of_neg (by simpa using hk)]
        rfl

/-! ## Maps of maps

The inner map is looked up first, so a key pair is there if both lookups find something. Removing
from an inner map, or removing a whole one, leaves a map that `Shrinks` relates to the old one. -/

/-- The value in a map of maps. -/
def lookup₂ (m : FiniteMap κ (FiniteMap κ' ν)) (k : κ) (k' : κ') : Option ν :=
  (m.lookup k).bind fun inner ↦ inner.lookup k'

theorem lookup₂_eq_some {m : FiniteMap κ (FiniteMap κ' ν)} {k : κ} {k' : κ'} {v : ν} :
    m.lookup₂ k k' = some v ↔ ∃ inner, m.lookup k = some inner ∧ inner.lookup k' = some v :=
  Option.bind_eq_some_iff

theorem lookup₂_insert (m : FiniteMap κ (FiniteMap κ' ν)) (k : κ) (inner : FiniteMap κ' ν)
    (k' : κ') : lookup₂ (m.insert k inner) k k' = inner.lookup k' := by
  rw [lookup₂, AList.lookup_insert]
  rfl

theorem lookup₂_insert_of_ne (m : FiniteMap κ (FiniteMap κ' ν)) {k j : κ}
    (inner : FiniteMap κ' ν) (k' : κ') (h : j ≠ k) :
    lookup₂ (m.insert k inner) j k' = lookup₂ m j k' := by
  rw [lookup₂, AList.lookup_insert_ne h, lookup₂]

/-- The values of a map of maps, with their keys. -/
def entries₂ (m : FiniteMap κ (FiniteMap κ' ν)) : List (κ × κ' × ν) :=
  m.entries.flatMap fun outer ↦ outer.2.entries.map fun inner ↦ (outer.1, inner.1, inner.2)

theorem mem_entries₂ {m : FiniteMap κ (FiniteMap κ' ν)} {k : κ} {k' : κ'} {v : ν} :
    (k, k', v) ∈ m.entries₂ ↔ m.lookup₂ k k' = some v := by
  rw [entries₂, List.mem_flatMap, lookup₂_eq_some]
  constructor
  · rintro ⟨⟨i, inner⟩, hinner, hmem⟩
    obtain ⟨⟨i', w⟩, hw, heq⟩ := List.mem_map.mp hmem
    cases heq
    exact ⟨inner, AList.mem_lookup_iff.mpr hinner, AList.mem_lookup_iff.mpr hw⟩
  · rintro ⟨inner, hinner, hv⟩
    exact ⟨⟨k, inner⟩, AList.mem_lookup_iff.mp hinner,
      List.mem_map.mpr ⟨⟨k', v⟩, AList.mem_lookup_iff.mp hv, rfl⟩⟩

omit [DecidableEq κ] [DecidableEq κ'] in
theorem nodup_entries₂ (m : FiniteMap κ (FiniteMap κ' ν)) :
    (m.entries₂.map fun entry ↦ (entry.1, entry.2.1)).Nodup := by
  rw [entries₂, List.map_flatMap, List.nodup_flatMap]
  refine ⟨?_, ?_⟩
  · intro outer _
    rw [List.map_map]
    refine List.Nodup.map_on ?_ (List.NodupKeys.nodup outer.2.nodupKeys)
    intro a ha b hb heq
    exact List.NodupKeys.eq_of_fst_eq outer.2.nodupKeys ha hb (Prod.mk.inj heq).2
  · refine (List.nodupKeys_iff_pairwise.mp m.nodupKeys).imp fun {a b} hne ↦ ?_
    refine List.disjoint_left.mpr ?_
    rintro ⟨k, k'⟩ ha hb
    obtain ⟨_, ha, hka⟩ := List.mem_map.mp ha
    obtain ⟨_, hb, hkb⟩ := List.mem_map.mp hb
    obtain ⟨x, -, rfl⟩ := List.mem_map.mp ha
    obtain ⟨y, -, rfl⟩ := List.mem_map.mp hb
    exact hne ((Prod.mk.inj hka).1.trans (Prod.mk.inj hkb).1.symm)

/-- What is in `m'` is in `m`. -/
def Shrinks (m m' : FiniteMap κ (FiniteMap κ' ν)) : Prop :=
  ∀ k k' v, m'.lookup₂ k k' = some v → m.lookup₂ k k' = some v

theorem Shrinks.refl (m : FiniteMap κ (FiniteMap κ' ν)) : Shrinks m m := fun _ _ _ h ↦ h

theorem Shrinks.trans {m m' m'' : FiniteMap κ (FiniteMap κ' ν)} (h : Shrinks m m')
    (h' : Shrinks m' m'') : Shrinks m m'' := fun k k' v hv ↦ h k k' v (h' k k' v hv)

theorem lookup₂_erase (m : FiniteMap κ (FiniteMap κ' ν)) (k j : κ) (i : κ') :
    lookup₂ (m.erase k) j i = if j = k then none else m.lookup₂ j i := by
  split
  · rename_i hj
    rw [lookup₂, hj, AList.lookup_erase]
    rfl
  · rename_i hj
    rw [lookup₂, AList.lookup_erase_ne hj, lookup₂]

theorem lookup₂_insert_erase {m : FiniteMap κ (FiniteMap κ' ν)} {k : κ} {inner : FiniteMap κ' ν}
    (hk : m.lookup k = some inner) (k' : κ') (j : κ) (i : κ') :
    lookup₂ (m.insert k (inner.erase k')) j i
      = if j = k ∧ i = k' then none else m.lookup₂ j i := by
  by_cases hj : j = k
  · subst hj
    rw [lookup₂_insert]
    by_cases hi : i = k'
    · rw [if_pos ⟨rfl, hi⟩, hi, AList.lookup_erase]
    · rw [if_neg fun h ↦ hi h.2, AList.lookup_erase_ne hi, lookup₂, hk, Option.bind_some]
  · rw [if_neg fun h ↦ hj h.1, lookup₂_insert_of_ne _ _ _ hj]

theorem shrinks_erase (m : FiniteMap κ (FiniteMap κ' ν)) (k : κ) : Shrinks m (m.erase k) := by
  intro j i v h
  rw [lookup₂_erase] at h
  split at h
  · cases h
  · exact h

theorem shrinks_insert_erase {m : FiniteMap κ (FiniteMap κ' ν)} {k : κ} {inner : FiniteMap κ' ν}
    (hk : m.lookup k = some inner) (k' : κ') : Shrinks m (m.insert k (inner.erase k')) := by
  intro j i v h
  rw [lookup₂_insert_erase hk] at h
  split at h
  · cases h
  · exact h

/-- None of the maps is empty. -/
def NoneEmpty (m : FiniteMap κ (FiniteMap κ' ν)) : Prop :=
  ∀ k inner, m.lookup k = some inner → inner.entries ≠ []

omit [DecidableEq κ'] in
theorem NoneEmpty.insert {m : FiniteMap κ (FiniteMap κ' ν)} (h : m.NoneEmpty) (k : κ)
    {inner : FiniteMap κ' ν} (hinner : inner.entries ≠ []) : NoneEmpty (m.insert k inner) := by
  intro j other hother
  by_cases hj : j = k
  · subst hj
    rw [AList.lookup_insert, Option.some_inj] at hother
    rwa [← hother]
  · rw [AList.lookup_insert_ne hj] at hother
    exact h j other hother

omit [DecidableEq κ'] in
theorem NoneEmpty.erase {m : FiniteMap κ (FiniteMap κ' ν)} (h : m.NoneEmpty) (k : κ) :
    NoneEmpty (m.erase k) := by
  intro j other hother
  by_cases hj : j = k
  · rw [hj, AList.lookup_erase] at hother
    cases hother
  · rw [AList.lookup_erase_ne hj] at hother
    exact h j other hother

theorem entries_ne_nil_of_lookup {m : FiniteMap κ ν} {k : κ} {v : ν} (h : m.lookup k = some v) :
    m.entries ≠ [] :=
  List.ne_nil_of_mem (AList.mem_lookup_iff.mp h)

end FiniteMap

end Slsfs

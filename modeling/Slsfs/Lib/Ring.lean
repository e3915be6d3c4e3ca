import Mathlib.Data.Finset.Max
import Mathlib.Data.List.TakeWhile
import Mathlib.Data.Set.Insert
import Mathlib.Order.Basic
import Mathlib.Tactic.Common

/-!
# Owners on a ring

Points of a linear order are laid out on a ring, and a key belongs to the first point above it, or
to the first point of all if there is none above. `Owns` says so for a set of points. A set has at
most one owner of a key, and one point more changes the owner of a key only to itself.

`successor` finds the owner in a sorted sequence, by `upperBound` with a jump back to the start. An
`OrderedMap` is a sequence of entries that is sorted by its keys; the owner found in it depends on
its keys alone.
-/

namespace Slsfs

variable {α β ν : Type*} [LinearOrder α]

/-- `x` is the first point of `S` above `k`, or the first one if no point is above `k`. -/
def Owns (S : Set α) (k x : α) : Prop :=
  x ∈ S ∧ (k < x ∧ (∀ y ∈ S, k < y → x ≤ y) ∨ (∀ y ∈ S, y ≤ k) ∧ ∀ y ∈ S, x ≤ y)

namespace Owns

variable {S : Set α} {k p x y : α}

theorem unique (hx : Owns S k x) (hy : Owns S k y) : x = y := by
  obtain ⟨hxS, ⟨hkx, hxle⟩ | ⟨hx, hxle⟩⟩ := hx
  · obtain ⟨hyS, ⟨hky, hyle⟩ | ⟨hy, -⟩⟩ := hy
    · exact le_antisymm (hxle y hyS hky) (hyle x hxS hkx)
    · exact absurd (hy x hxS) (not_le_of_gt hkx)
  · obtain ⟨hyS, ⟨hky, -⟩ | ⟨-, hyle⟩⟩ := hy
    · exact absurd (hx y hyS) (not_le_of_gt hky)
    · exact le_antisymm (hxle y hyS) (hyle x hxS)

theorem of_insert (hy : Owns (insert p S) k y) (hne : y ≠ p) : Owns S k y := by
  obtain ⟨hyS, hy⟩ := hy
  refine ⟨hyS.resolve_left hne, ?_⟩
  rcases hy with ⟨hky, hle⟩ | ⟨hbelow, hle⟩
  · exact .inl ⟨hky, fun z hz ↦ hle z (Set.mem_insert_of_mem p hz)⟩
  · exact .inr ⟨fun z hz ↦ hbelow z (Set.mem_insert_of_mem p hz),
      fun z hz ↦ hle z (Set.mem_insert_of_mem p hz)⟩

/-- **Minimal movement.** A new point takes keys over and moves no others. -/
theorem eq_or_eq_of_insert (hx : Owns S k x) (hy : Owns (insert p S) k y) : y = x ∨ y = p := by
  by_cases hne : y = p
  · exact .inr hne
  · exact .inl ((hy.of_insert hne).unique hx)

/-- Around the ring, a point with a property is followed by one without it, if there are both. -/
theorem exists_not {S : Finset α} {P : α → Prop} {a b : α} (ha : a ∈ S) (hPa : P a) (hb : b ∈ S)
    (hPb : ¬ P b) : ∃ x ∈ S, P x ∧ ∃ y, ¬ P y ∧ Owns (S : Set α) x y := by
  by_contra hnone
  have hnext : ∀ x ∈ S, P x → ∀ y, Owns (S : Set α) x y → P y := fun x hx hPx y hy ↦
    by_contra fun hPy ↦ hnone ⟨x, hx, hPx, y, hPy, hy⟩
  -- Upwards from a point with the property, every point has it.
  have hup : ∀ c ∈ S, P c → ∀ y ∈ S, c ≤ y → P y := by
    intro c hc hPc y hy
    induction hn : {x ∈ S | c ≤ x ∧ x < y}.card using Nat.strong_induction_on generalizing y with
    | _ n ih =>
      intro hcy
      rcases hcy.eq_or_lt with rfl | hlt
      · exact hPc
      have hne : {x ∈ S | c ≤ x ∧ x < y}.Nonempty :=
        ⟨c, Finset.mem_filter.mpr ⟨hc, le_rfl, hlt⟩⟩
      obtain ⟨hzS, hcz, hzy⟩ := Finset.mem_filter.mp (Finset.max'_mem _ hne)
      set z := {x ∈ S | c ≤ x ∧ x < y}.max' hne
      have hfewer : {x ∈ S | c ≤ x ∧ x < z}.card < n := by
        rw [← hn]
        refine Finset.card_lt_card (Finset.ssubset_iff_of_subset ?_ |>.mpr ⟨z, ?_, ?_⟩)
        · intro x hx
          obtain ⟨hxS, hcx, hxz⟩ := Finset.mem_filter.mp hx
          exact Finset.mem_filter.mpr ⟨hxS, hcx, hxz.trans hzy⟩
        · exact Finset.mem_filter.mpr ⟨hzS, hcz, hzy⟩
        · exact fun hz ↦ (Finset.mem_filter.mp hz).2.2.false
      refine hnext z hzS (ih _ hfewer z hzS rfl hcz) y ⟨hy, .inl ⟨hzy, fun w hw hzw ↦ ?_⟩⟩
      by_contra hwy
      exact hzw.not_ge (Finset.le_max' _ w (Finset.mem_filter.mpr
        ⟨hw, hcz.trans hzw.le, not_le.mp hwy⟩))
  have hmax := hup a ha hPa _ (S.max'_mem ⟨a, ha⟩) (S.le_max' a ha)
  have hmin : P (S.min' ⟨a, ha⟩) := hnext _ (S.max'_mem ⟨a, ha⟩) hmax _
    ⟨S.min'_mem _, .inr ⟨fun y hy ↦ S.le_max' y hy, fun y hy ↦ S.min'_le y hy⟩⟩
  exact hPb (hup _ (S.min'_mem _) hmin b hb (S.min'_le b hb))

end Owns

/-! ## Sorted sequences

`upperBound` drops the elements up to the first one above the key. In a sorted sequence this one is
the least above, and the head of the sequence is the least of all. -/

/-- The part of a sequence from the first element above `k` on. -/
def upperBound (f : β → α) (k : α) (l : List β) : List β := l.dropWhile (f · ≤ k)

/-- The first element above `k`, or the first one if the sequence ends before. -/
def successor (f : β → α) (k : α) (l : List β) : Option β :=
  match upperBound f k l with
  | [] => l.head?
  | x :: _ => some x

variable {f : β → α} {k : α} {l : List β}

theorem upperBound_map (l : List β) : (upperBound f k l).map f = upperBound id k (l.map f) := by
  induction l with
  | nil => rfl
  | cons x l ih =>
    rw [upperBound, upperBound, List.map_cons, List.dropWhile_cons, List.dropWhile_cons, id_eq]
    split
    · exact ih
    · rfl

/-- Which element is found depends on the keys alone. -/
theorem successor_map (l : List β) : (successor f k l).map f = successor id k (l.map f) := by
  rw [successor, successor, ← upperBound_map]
  cases upperBound f k l with
  | nil => rw [List.map_nil, List.head?_map]
  | cons x rest => rfl

theorem exists_successor (f : β → α) (k : α) (hne : l ≠ []) :
    ∃ x ∈ l, successor f k l = some x := by
  rw [successor]
  cases h : upperBound f k l with
  | nil =>
    obtain ⟨x, rest, rfl⟩ := List.exists_cons_of_ne_nil hne
    exact ⟨x, List.mem_cons_self, rfl⟩
  | cons x rest =>
    have hmem : x ∈ upperBound f k l := by
      rw [h]
      exact List.mem_cons_self
    exact ⟨x, (List.dropWhile_sublist _).subset hmem, rfl⟩

theorem upperBound_eq_cons {x : β} {rest : List β} (h : upperBound f k l = x :: rest) :
    ∃ before, l = before ++ x :: rest ∧ (∀ y ∈ before, f y ≤ k) ∧ k < f x := by
  induction l with
  | nil => cases h
  | cons z l ih =>
    by_cases hz : f z ≤ k
    · rw [upperBound, List.dropWhile_cons_of_pos (by simpa using hz)] at h
      obtain ⟨before, rfl, hbefore, hx⟩ := ih h
      exact ⟨z :: before, rfl, List.forall_mem_cons.mpr ⟨hz, hbefore⟩, hx⟩
    · rw [upperBound, List.dropWhile_cons_of_neg (by simpa using hz)] at h
      cases h
      exact ⟨[], rfl, List.forall_mem_nil _, not_le.mp hz⟩

theorem upperBound_eq_nil (h : upperBound f k l = []) : ∀ y ∈ l, f y ≤ k :=
  fun y hy ↦ of_decide_eq_true (List.dropWhile_eq_nil_iff.mp h y hy)

/-- **In a sorted sequence the element found is the owner.** -/
theorem owns_of_successor {l : List α} (hsorted : l.Pairwise (· < ·)) {x : α}
    (h : successor id k l = some x) : Owns {y | y ∈ l} k x := by
  rw [successor] at h
  split at h
  · rename_i hnil
    have hbelow := upperBound_eq_nil hnil
    obtain ⟨rest, rfl⟩ := List.head?_eq_some_iff.mp h
    refine ⟨List.mem_cons_self, .inr ⟨hbelow, fun y hy ↦ ?_⟩⟩
    rcases List.mem_cons.mp hy with rfl | hy
    · exact le_rfl
    · exact (List.rel_of_pairwise_cons hsorted hy).le
  · rename_i z rest hcons
    obtain rfl : z = x := Option.some_inj.mp h
    obtain ⟨before, rfl, hbefore, hz⟩ := upperBound_eq_cons hcons
    refine ⟨List.mem_append_right _ List.mem_cons_self, .inl ⟨hz, fun y hy hky ↦ ?_⟩⟩
    rcases List.mem_append.mp hy with hy | hy
    · exact absurd (hbefore y hy) (not_le_of_gt hky)
    · rcases List.mem_cons.mp hy with rfl | hy
      · exact le_rfl
      · exact (List.rel_of_pairwise_cons (List.pairwise_append.mp hsorted).2.1 hy).le

/-! ## Ordered maps

The order of the entries is part of the map, so `emplace` looks for the place of a key. An entry
that is there already is kept. -/

/-- Entries that are sorted by their keys. -/
structure OrderedMap (α ν : Type*) [LinearOrder α] where
  entries : List (α × ν)
  sorted : (entries.map Prod.fst).Pairwise (· < ·)

/-- Insert an entry at its place, unless its key is there. -/
def emplaceEntry (k : α) (v : ν) : List (α × ν) → List (α × ν)
  | [] => [(k, v)]
  | e :: rest =>
    if k < e.1 then (k, v) :: e :: rest
    else if k = e.1 then e :: rest
    else e :: emplaceEntry k v rest

theorem mem_keys_emplaceEntry (k : α) (v : ν) (entries : List (α × ν)) (x : α) :
    x ∈ (emplaceEntry k v entries).map Prod.fst ↔ x = k ∨ x ∈ entries.map Prod.fst := by
  induction entries with
  | nil => simp [emplaceEntry]
  | cons e rest ih =>
    rw [emplaceEntry]
    split
    · rw [List.map_cons, List.mem_cons]
    · split
      · rename_i hk
        rw [List.map_cons, List.mem_cons, hk]
        tauto
      · rw [List.map_cons, List.mem_cons, ih, List.map_cons, List.mem_cons]
        tauto

theorem sorted_emplaceEntry (k : α) (v : ν) {entries : List (α × ν)}
    (h : (entries.map Prod.fst).Pairwise (· < ·)) :
    ((emplaceEntry k v entries).map Prod.fst).Pairwise (· < ·) := by
  induction entries with
  | nil => exact List.pairwise_singleton _ _
  | cons e rest ih =>
    rw [List.map_cons] at h
    obtain ⟨hhead, htail⟩ := List.pairwise_cons.mp h
    rw [emplaceEntry]
    split
    · rename_i hk
      refine List.pairwise_cons.mpr ⟨fun x hx ↦ ?_, h⟩
      rcases List.mem_cons.mp hx with rfl | hx
      · exact hk
      · exact hk.trans (hhead x hx)
    · split
      · exact h
      · rename_i hnlt hne
        refine List.pairwise_cons.mpr ⟨fun x hx ↦ ?_, ih htail⟩
        rcases (mem_keys_emplaceEntry k v rest x).mp hx with rfl | hx
        · exact lt_of_le_of_ne (not_lt.mp hnlt) (Ne.symm hne)
        · exact hhead x hx

namespace OrderedMap

def empty : OrderedMap α ν := ⟨[], List.Pairwise.nil⟩

def size (m : OrderedMap α ν) : ℕ := m.entries.length

def keys (m : OrderedMap α ν) : List α := m.entries.map Prod.fst

def find (m : OrderedMap α ν) (k : α) : Option (α × ν) := m.entries.find? (·.1 = k)

def emplace (m : OrderedMap α ν) (k : α) (v : ν) : OrderedMap α ν :=
  ⟨emplaceEntry k v m.entries, sorted_emplaceEntry k v m.sorted⟩

theorem mem_keys_emplace (m : OrderedMap α ν) (k : α) (v : ν) (x : α) :
    x ∈ (m.emplace k v).keys ↔ x = k ∨ x ∈ m.keys :=
  mem_keys_emplaceEntry k v m.entries x

theorem find_isSome (m : OrderedMap α ν) (k : α) : (m.find k).isSome ↔ k ∈ m.keys := by
  rw [find, List.find?_isSome, keys, List.mem_map]
  simp

end OrderedMap

theorem OrderedMap.owns_of_successor {m : OrderedMap α ν} {e : α × ν}
    (h : successor Prod.fst k m.entries = some e) : Owns {y | y ∈ m.keys} k e.1 := by
  refine Slsfs.owns_of_successor m.sorted ?_
  rw [← successor_map, h, Option.map_some]

end Slsfs

import Mathlib.Data.List.Chain
import Slsfs.Lib.EmplaceMap

/-!
# Doubly linked lists in a heap

A heap of cells with a pointer in each direction. The two operations are those that need no walk:
putting a cell behind another one and taking one out, each a few assignments through pointers.
Following a pointer that was never assigned, or one to a cell that is not there, has no outcome.

`Linked` says of a list of addresses that the pointers run along it in both directions, and there
is one rule for each operation.
-/

namespace Slsfs

variable {α : Type}

/-- A cell. A pointer is `none` until it is assigned. -/
structure Cell (α : Type) where
  key : α
  prev : Option ℕ
  next : Option ℕ

abbrev Heap (α : Type) := FiniteMap ℕ (Cell α)

/-- What an allocation may return: an address at which there is nothing. -/
structure Allocator (α : Type) where
  pick : Heap α → ℕ
  free : ∀ heap : Heap α, heap.lookup (pick heap) = none

namespace Heap

variable (heap : Heap α) (a : ℕ)

def keyOf : Option α := (heap.lookup a).map Cell.key

def prevOf : Option ℕ := (heap.lookup a).bind Cell.prev

def nextOf : Option ℕ := (heap.lookup a).bind Cell.next

/-- An assignment to a member of the cell at `a`. -/
def assign (f : Cell α → Cell α) : Option (Heap α) :=
  (heap.lookup a).map fun cell ↦ heap.insert a (f cell)

/-- `a->prev = p`. -/
def setPrev (p : ℕ) : Option (Heap α) := heap.assign a fun cell ↦ { cell with prev := some p }

/-- `a->next = p`. -/
def setNext (p : ℕ) : Option (Heap α) := heap.assign a fun cell ↦ { cell with next := some p }

/-- Put the cell at `temp` behind the one at `a`. -/
def insertAfter (temp : ℕ) : Option (Heap α) := do
  let dummy ← heap.nextOf a
  let heap ← heap.setNext a temp
  let heap ← heap.setPrev temp a
  let heap ← heap.setNext temp dummy
  heap.setPrev dummy temp

/-- Take out the cell at `a` and free it. -/
def unlink : Option (Heap α) := do
  let delnext ← heap.nextOf a
  let delprev ← heap.prevOf a
  let heap ← heap.setPrev delnext delprev
  let heap ← heap.setNext delprev delnext
  return heap.erase a

/-! ## The assignments

A heap with pointers assigned is described by what can be followed in it: the key, and the pointer
in each direction, of every cell. Each of the two operations has one such description, in which the
order of its assignments does not show. -/

variable {heap a}

theorem assign_spec (h : (heap.keyOf a).isSome) (f : Cell α → Cell α) :
    ∃ heap' cell, heap.assign a f = some heap' ∧ heap.lookup a = some cell ∧
      ∀ x, heap'.lookup x = if x = a then some (f cell) else heap.lookup x := by
  rw [keyOf, Option.isSome_map, Option.isSome_iff_exists] at h
  obtain ⟨cell, hcell⟩ := h
  refine ⟨heap.insert a (f cell), cell, by rw [assign, hcell, Option.map_some], hcell, fun x ↦ ?_⟩
  split
  · rename_i hx
    rw [hx, AList.lookup_insert]
  · rename_i hx
    rw [AList.lookup_insert_ne hx]

theorem setPrev_spec (h : (heap.keyOf a).isSome) (p : ℕ) :
    ∃ heap', heap.setPrev a p = some heap' ∧ (∀ x, heap'.keyOf x = heap.keyOf x) ∧
      (∀ x, heap'.nextOf x = heap.nextOf x) ∧
      ∀ x, heap'.prevOf x = if x = a then some p else heap.prevOf x := by
  obtain ⟨heap', cell, hassign, hcell, hlookup⟩ := assign_spec h fun cell ↦
    { cell with prev := some p }
  refine ⟨heap', hassign, ?_, ?_, ?_⟩ <;> intro x <;> by_cases hx : x = a
  · rw [keyOf, hlookup, if_pos hx, hx, keyOf, hcell, Option.map_some, Option.map_some]
  · rw [keyOf, hlookup, if_neg hx, keyOf]
  · rw [nextOf, hlookup, if_pos hx, hx, nextOf, hcell, Option.bind_some, Option.bind_some]
  · rw [nextOf, hlookup, if_neg hx, nextOf]
  · rw [prevOf, hlookup, if_pos hx, if_pos hx, Option.bind_some]
  · rw [prevOf, hlookup, if_neg hx, if_neg hx, prevOf]

theorem setNext_spec (h : (heap.keyOf a).isSome) (p : ℕ) :
    ∃ heap', heap.setNext a p = some heap' ∧ (∀ x, heap'.keyOf x = heap.keyOf x) ∧
      (∀ x, heap'.prevOf x = heap.prevOf x) ∧
      ∀ x, heap'.nextOf x = if x = a then some p else heap.nextOf x := by
  obtain ⟨heap', cell, hassign, hcell, hlookup⟩ := assign_spec h fun cell ↦
    { cell with next := some p }
  refine ⟨heap', hassign, ?_, ?_, ?_⟩ <;> intro x <;> by_cases hx : x = a
  · rw [keyOf, hlookup, if_pos hx, hx, keyOf, hcell, Option.map_some, Option.map_some]
  · rw [keyOf, hlookup, if_neg hx, keyOf]
  · rw [prevOf, hlookup, if_pos hx, hx, prevOf, hcell, Option.bind_some, Option.bind_some]
  · rw [prevOf, hlookup, if_neg hx, prevOf]
  · rw [nextOf, hlookup, if_pos hx, if_pos hx, Option.bind_some]
  · rw [nextOf, hlookup, if_neg hx, if_neg hx, nextOf]

theorem keyOf_insert (heap : Heap α) (a : ℕ) (cell : Cell α) :
    keyOf (AList.insert a cell heap) a = some cell.key := by
  rw [keyOf, AList.lookup_insert, Option.map_some]

theorem keyOf_insert_of_ne (heap : Heap α) {a x : ℕ} (cell : Cell α) (h : x ≠ a) :
    keyOf (AList.insert a cell heap) x = heap.keyOf x := by
  rw [keyOf, AList.lookup_insert_ne h, keyOf]

theorem isSome_keyOf_of_nextOf {p : ℕ} (h : heap.nextOf a = some p) : (heap.keyOf a).isSome := by
  obtain ⟨cell, hcell, -⟩ := Option.bind_eq_some_iff.mp h
  rw [keyOf, hcell]
  rfl

theorem isSome_keyOf_of_prevOf {p : ℕ} (h : heap.prevOf a = some p) : (heap.keyOf a).isSome := by
  obtain ⟨cell, hcell, -⟩ := Option.bind_eq_some_iff.mp h
  rw [keyOf, hcell]
  rfl

theorem insertAfter_spec {dummy temp : ℕ} (hnext : heap.nextOf a = some dummy)
    (hdummy : (heap.keyOf dummy).isSome) (htemp : (heap.keyOf temp).isSome) (hne : temp ≠ a) :
    ∃ heap', heap.insertAfter a temp = some heap' ∧ (∀ x, heap'.keyOf x = heap.keyOf x) ∧
      (∀ x, heap'.nextOf x = if x = a then some temp else if x = temp then some dummy
        else heap.nextOf x) ∧
      ∀ x, heap'.prevOf x = if x = dummy then some temp else if x = temp then some a
        else heap.prevOf x := by
  obtain ⟨heap₁, h₁, hkey₁, hprev₁, hnext₁⟩ :=
    setNext_spec (isSome_keyOf_of_nextOf hnext) temp
  have htemp₁ : (heap₁.keyOf temp).isSome := by rwa [hkey₁]
  obtain ⟨heap₂, h₂, hkey₂, hnext₂, hprev₂⟩ := setPrev_spec htemp₁ a
  have htemp₂ : (heap₂.keyOf temp).isSome := by rwa [hkey₂]
  obtain ⟨heap₃, h₃, hkey₃, hprev₃, hnext₃⟩ := setNext_spec htemp₂ dummy
  have hdummy₃ : (heap₃.keyOf dummy).isSome := by rwa [hkey₃, hkey₂, hkey₁]
  obtain ⟨heap₄, h₄, hkey₄, hnext₄, hprev₄⟩ := setPrev_spec hdummy₃ temp
  refine ⟨heap₄, ?_, fun x ↦ ?_, fun x ↦ ?_, fun x ↦ ?_⟩
  · simp only [insertAfter, hnext, h₁, h₂, h₃, Option.bind_eq_bind, Option.bind_some]
    exact h₄
  · rw [hkey₄, hkey₃, hkey₂, hkey₁]
  · rw [hnext₄, hnext₃, hnext₂, hnext₁]
    by_cases hx : x = temp
    · rw [if_pos hx, if_neg (by rwa [hx]), if_pos hx]
    · rw [if_neg hx, if_neg hx]
  · rw [hprev₄, hprev₃, hprev₂, hprev₁]

theorem unlink_spec {delprev delnext : ℕ} (hnext : heap.nextOf a = some delnext)
    (hprev : heap.prevOf a = some delprev) (hdelnext : (heap.keyOf delnext).isSome)
    (hdelprev : (heap.keyOf delprev).isSome) :
    ∃ heap', heap.unlink a = some heap' ∧
      (∀ x, heap'.keyOf x = if x = a then none else heap.keyOf x) ∧
      (∀ x, x ≠ a → heap'.nextOf x = if x = delprev then some delnext else heap.nextOf x) ∧
      ∀ x, x ≠ a → heap'.prevOf x = if x = delnext then some delprev else heap.prevOf x := by
  obtain ⟨heap₁, h₁, hkey₁, hnext₁, hprev₁⟩ := setPrev_spec hdelnext delprev
  have hdelprev₁ : (heap₁.keyOf delprev).isSome := by rwa [hkey₁]
  obtain ⟨heap₂, h₂, hkey₂, hprev₂, hnext₂⟩ := setNext_spec hdelprev₁ delnext
  refine ⟨heap₂.erase a, ?_, fun x ↦ ?_, fun x hx ↦ ?_, fun x hx ↦ ?_⟩
  · simp only [unlink, hnext, hprev, h₁, h₂, Option.bind_eq_bind, Option.bind_some]
    rfl
  · by_cases hx : x = a
    · rw [if_pos hx, hx, keyOf, AList.lookup_erase]
      rfl
    · rw [if_neg hx, keyOf, AList.lookup_erase_ne hx, ← hkey₁, ← hkey₂]
      rfl
  · rw [nextOf, AList.lookup_erase_ne hx, ← hnext₁, ← hnext₂]
    rfl
  · rw [prevOf, AList.lookup_erase_ne hx, ← hprev₁, ← hprev₂]
    rfl

end Heap

/-! ## Lists

No cell is in a list twice, so a pointer that is assigned belongs to one place in it. Both rules
need a cell on each side of that place, which a list between two sentinels always has. -/

/-- The pointers run along the addresses of `path`, in both directions. -/
structure Linked (heap : Heap α) (path : List ℕ) : Prop where
  nodup : path.Nodup
  links : path.IsChain fun a b ↦ heap.nextOf a = some b ∧ heap.prevOf b = some a

namespace Linked

variable {heap : Heap α}

theorem insert_fresh {path : List ℕ} (h : Linked heap path) {x : ℕ} (hx : x ∉ path)
    (cell : Cell α) : Linked (AList.insert x cell heap) path := by
  refine ⟨h.nodup, h.links.imp_of_mem_imp fun u v hu hv huv ↦ ?_⟩
  have hux : u ≠ x := fun heq ↦ hx (heq ▸ hu)
  have hvx : v ≠ x := fun heq ↦ hx (heq ▸ hv)
  rw [Heap.nextOf, AList.lookup_insert_ne hux, Heap.prevOf, AList.lookup_insert_ne hvx]
  exact huv

theorem insertAfter {a b x : ℕ} {rest : List ℕ} (h : Linked heap (a :: b :: rest))
    (hx : x ∉ a :: b :: rest) (hcell : (heap.keyOf x).isSome) :
    ∃ heap', heap.insertAfter a x = some heap' ∧ Linked heap' (a :: x :: b :: rest) ∧
      ∀ y, heap'.keyOf y = heap.keyOf y := by
  obtain ⟨⟨hnext, hprev⟩, hrest⟩ := List.isChain_cons_cons.mp h.links
  obtain ⟨ha, hb⟩ := List.nodup_cons.mp h.nodup
  simp only [List.mem_cons, not_or] at hx ha
  obtain ⟨hxa, hxb, hxrest⟩ := hx
  obtain ⟨heap', hheap, hkey, hnext', hprev'⟩ := Heap.insertAfter_spec hnext
    (Heap.isSome_keyOf_of_prevOf hprev) hcell hxa
  refine ⟨heap', hheap, ⟨?_, ?_⟩, hkey⟩
  · simp only [List.nodup_cons, List.mem_cons, not_or]
    exact ⟨⟨Ne.symm hxa, ha⟩, ⟨hxb, hxrest⟩, List.nodup_cons.mp hb⟩
  · refine .cons_cons ⟨?_, ?_⟩ (.cons_cons ⟨?_, ?_⟩ ?_)
    · rw [hnext', if_pos rfl]
    · rw [hprev', if_neg hxb, if_pos rfl]
    · rw [hnext', if_neg hxa, if_pos rfl]
    · rw [hprev', if_pos rfl]
    · refine hrest.imp_of_mem_tail_imp fun u v hu hv huv ↦ ?_
      rw [List.tail_cons] at hv
      have hu' : u ≠ a ∧ u ≠ x := by
        rcases List.mem_cons.mp hu with rfl | hu
        · exact ⟨Ne.symm ha.1, Ne.symm hxb⟩
        · exact ⟨fun h ↦ ha.2 (h ▸ hu), fun h ↦ hxrest (h ▸ hu)⟩
      have hv' : v ≠ b ∧ v ≠ x :=
        ⟨fun h ↦ (List.nodup_cons.mp hb).1 (h ▸ hv), fun h ↦ hxrest (h ▸ hv)⟩
      rw [hnext', if_neg hu'.1, if_neg hu'.2, hprev', if_neg hv'.1, if_neg hv'.2]
      exact huv

theorem unlink {front rest : List ℕ} {a x b : ℕ} (h : Linked heap (front ++ a :: x :: b :: rest)) :
    x ∉ front ++ a :: b :: rest ∧
      ∃ heap', heap.unlink x = some heap' ∧ Linked heap' (front ++ a :: b :: rest) ∧
        ∀ y, heap'.keyOf y = if y = x then none else heap.keyOf y := by
  obtain ⟨hfront, ⟨hnext, hprev⟩, hrest⟩ := List.isChain_append_cons_cons.mp h.links
  obtain ⟨⟨hnext', hprev'⟩, hback⟩ := List.isChain_cons_cons.mp hrest
  obtain ⟨heap', hheap, hkey, hnexts, hprevs⟩ := Heap.unlink_spec hnext' hprev
    (Heap.isSome_keyOf_of_prevOf hprev') (Heap.isSome_keyOf_of_nextOf hnext)
  have hperm : (front ++ a :: x :: b :: rest).Perm (x :: (front ++ a :: b :: rest)) := by
    refine (List.Perm.append_left front (List.Perm.swap x a _)).trans ?_
    exact List.perm_middle
  obtain ⟨hx, hnodup⟩ := List.nodup_cons.mp (hperm.nodup_iff.mp h.nodup)
  refine ⟨hx, heap', hheap, ⟨hnodup, ?_⟩, hkey⟩
  -- away from the gap nothing has changed, and the pointers of `a` and `b` do not go along the path
  have hkept : ∀ u v, u ∈ front ++ a :: b :: rest → v ∈ front ++ a :: b :: rest →
      heap.nextOf u = some v ∧ heap.prevOf v = some u →
      heap'.nextOf u = some v ∧ heap'.prevOf v = some u := by
    rintro u v hu hv ⟨hu', hv'⟩
    have hux : u ≠ x := fun heq ↦ hx (heq ▸ hu)
    have hvx : v ≠ x := fun heq ↦ hx (heq ▸ hv)
    have hua : u ≠ a := by
      rintro rfl
      exact hvx (Option.some_inj.mp (hu'.symm.trans hnext))
    have hvb : v ≠ b := by
      rintro rfl
      exact hux (Option.some_inj.mp (hv'.symm.trans hprev'))
    rw [hnexts u hux, if_neg hua, hprevs v hvx, if_neg hvb]
    exact ⟨hu', hv'⟩
  have ha : a ∈ front ++ a :: b :: rest := List.mem_append_right _ List.mem_cons_self
  have hb : b ∈ front ++ a :: b :: rest := by simp
  refine List.isChain_append_cons_cons.mpr ⟨?_, ⟨?_, ?_⟩, ?_⟩
  · refine hfront.imp_of_mem_imp fun u v hu hv ↦ hkept u v ?_ ?_
    · simp only [List.mem_append, List.mem_cons, List.not_mem_nil, or_false] at hu ⊢
      exact hu.imp_right .inl
    · simp only [List.mem_append, List.mem_cons, List.not_mem_nil, or_false] at hv ⊢
      exact hv.imp_right .inl
  · rw [hnexts a (fun heq ↦ hx (heq ▸ ha)), if_pos rfl]
  · rw [hprevs b (fun heq ↦ hx (heq ▸ hb)), if_pos rfl]
  · refine hback.imp_of_mem_imp fun u v hu hv ↦ hkept u v ?_ ?_
    · exact List.mem_append_right _ (List.mem_cons_of_mem _ hu)
    · exact List.mem_append_right _ (List.mem_cons_of_mem _ hv)

end Linked

end Slsfs

import Mathlib.Algebra.BigOperators.Group.List.Basic
import Mathlib.Data.List.DropRight
import Mathlib.Data.List.Rotate

/-!
# Sliding windows

The last inputs of a sequence, and the ring of cells in which a program keeps them. The ring is
overwritten from one end to the other and then from the start again, so the cell that comes next is
the oldest: read from there on, once around, the ring is the window.

A sum over the window can be kept without adding up again. What leaves the window is in the cell
that is about to be overwritten.
-/

namespace Slsfs

variable {α : Type*}

/-- The last `n` inputs, the oldest first. Inputs before the first one are `fill`. -/
def window (fill : α) (n : ℕ) (inputs : List α) : List α :=
  (List.replicate n fill ++ inputs).drop inputs.length

@[simp] theorem length_window (fill : α) (n : ℕ) (inputs : List α) :
    (window fill n inputs).length = n := by
  rw [window, List.length_drop, List.length_append, List.length_replicate, Nat.add_sub_cancel]

@[simp] theorem window_nil (fill : α) (n : ℕ) : window fill n [] = List.replicate n fill := by
  rw [window, List.append_nil, List.length_nil, List.drop_zero]

theorem window_concat (fill : α) {n : ℕ} (hn : 0 < n) (inputs : List α) (x : α) :
    window fill n (inputs ++ [x]) = (window fill n inputs).tail ++ [x] := by
  rw [window, window, List.tail_drop, ← List.append_assoc, List.length_append,
    List.length_singleton, List.drop_append_of_le_length]
  rw [List.length_append, List.length_replicate]
  omega

theorem window_eq_append (fill : α) (n : ℕ) (inputs : List α) :
    window fill n inputs = List.replicate (n - inputs.length) fill ++ inputs.rtake n := by
  rw [window, List.drop_append, List.drop_replicate, List.length_replicate, List.rtake]

theorem sum_window_concat [AddCommGroup α] {n : ℕ} {inputs : List α} {oldest : α}
    (h : (window 0 n inputs).head? = some oldest) (x : α) :
    (window 0 n (inputs ++ [x])).sum = (window 0 n inputs).sum - oldest + x := by
  have hn : 0 < n := by
    rw [← length_window 0 n inputs]
    exact List.length_pos_iff_exists_mem.mpr ⟨oldest, List.mem_of_head? h⟩
  have hsplit := List.cons_head?_tail h
  rw [window_concat 0 hn, List.sum_append, List.sum_singleton, ← hsplit, List.sum_cons,
    List.tail_cons, add_sub_cancel_left]

/-! ## The ring

`HoldsWindow` relates the cells and the place that is next to the inputs so far. It says that the
ring, rotated to that place, is the window. A cell that is overwritten holds the oldest input of the
window, and after the step it is the last one of the rotated ring. -/

/-- The cell after a cell, the first one after the last. -/
def nextCell (n index : ℕ) : ℕ := if index + 1 = n then 0 else index + 1

theorem nextCell_lt {n index : ℕ} (h : index < n) : nextCell n index < n := by
  rw [nextCell]
  split <;> omega

/-- What was overwritten is read last. -/
theorem rotate_set_nextCell {cells : List α} {index : ℕ} (h : index < cells.length) (x : α) :
    (cells.set index x).rotate (nextCell cells.length index)
      = (cells.rotate index).tail ++ [x] := by
  have hlength : (cells.set index x).length = cells.length := List.length_set
  -- the cells before the new one, which come after the others
  have hafter : (cells.rotate index).tail = cells.drop (index + 1) ++ cells.take index := by
    rw [List.rotate_eq_drop_append_take h.le, List.drop_eq_getElem_cons h, List.cons_append,
      List.tail_cons]
  have hset : cells.set index x = cells.take index ++ x :: cells.drop (index + 1) := by
    rw [List.set_eq_take_append_cons_drop, if_pos h]
  rw [hafter, nextCell]
  split
  · rename_i hlast
    rw [List.rotate_zero, hset, List.drop_eq_nil_of_le hlast.ge, List.nil_append]
  · rw [List.rotate_eq_drop_append_take (by omega), List.drop_set_of_lt (Nat.lt_succ_self index),
      List.append_assoc, hset, List.take_append,
      List.take_of_length_le ((List.length_take_le _ _).trans (Nat.le_succ _)), List.length_take,
      Nat.min_eq_left h.le, Nat.add_sub_cancel_left, List.take_succ_cons, List.take_zero]

/-- The ring holds the window. -/
structure HoldsWindow (fill : α) (cells : List α) (index : ℕ) (inputs : List α) : Prop where
  index_lt : index < cells.length
  oldest_first : cells.rotate index = window fill cells.length inputs

namespace HoldsWindow

variable {fill : α} {cells inputs : List α} {index : ℕ}

theorem init (fill : α) {n : ℕ} (hn : 0 < n) :
    HoldsWindow fill (List.replicate n fill) 0 [] where
  index_lt := by rwa [List.length_replicate]
  oldest_first := by rw [List.rotate_zero, List.length_replicate, window_nil]

theorem head?_window (h : HoldsWindow fill cells index inputs) :
    (window fill cells.length inputs).head? = cells[index]? := by
  rw [← h.oldest_first, List.head?_rotate h.index_lt]

/-- **One more input.** -/
theorem put (h : HoldsWindow fill cells index inputs) (x : α) :
    HoldsWindow fill (cells.set index x) (nextCell cells.length index) (inputs ++ [x]) where
  index_lt := by
    rw [List.length_set]
    exact nextCell_lt h.index_lt
  oldest_first := by
    rw [rotate_set_nextCell h.index_lt, h.oldest_first, List.length_set,
      window_concat fill (Nat.zero_lt_of_lt h.index_lt)]

theorem sum_put [AddCommGroup α] {cells inputs : List α}
    (h : HoldsWindow 0 cells index inputs) (x : α) :
    (window 0 cells.length (inputs ++ [x])).sum
      = (window 0 cells.length inputs).sum - cells.get ⟨index, h.index_lt⟩ + x := by
  refine sum_window_concat ?_ x
  rw [h.head?_window, List.getElem?_eq_getElem h.index_lt]
  rfl

end HoldsWindow

end Slsfs

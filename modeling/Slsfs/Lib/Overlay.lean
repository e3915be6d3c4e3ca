import Mathlib.Data.List.Basic
import Mathlib.Tactic.Common

/-!
# Overlaying one buffer on another

A buffer is grown to a given size and a second buffer is copied into it at an offset. Both steps
are the ones of a growing string: `resize` pads with a fill value or cuts, `copyAt` overwrites.
Their combination, `overlay`, is characterized once by its length and by its elements; nothing
below unfolds it again.
-/

namespace Slsfs

variable {α : Type*}

/-- `buf` cut or padded with `fill` to exactly `n` elements. -/
def resize (fill : α) (n : ℕ) (buf : List α) : List α :=
  buf.take n ++ List.replicate (n - buf.length) fill

/-- `new` copied over `buf` from position `pos` on. -/
def copyAt (buf : List α) (pos : ℕ) (new : List α) : List α :=
  buf.take pos ++ new ++ buf.drop (pos + new.length)

/-- `new` written over `old` at `pos`, after growing `old` far enough to hold it. -/
def overlay (fill : α) (old : List α) (pos : ℕ) (new : List α) : List α :=
  copyAt (resize fill (max (pos + new.length) old.length) old) pos new

@[simp] theorem length_resize (fill : α) (n : ℕ) (buf : List α) :
    (resize fill n buf).length = n := by
  rw [resize, List.length_append, List.length_take, List.length_replicate]
  omega

theorem getElem?_resize (fill : α) {n : ℕ} {buf : List α} (h : buf.length ≤ n) (i : ℕ) :
    (resize fill n buf)[i]? = if i < buf.length then buf[i]? else if i < n then some fill
      else none := by
  rw [resize, List.take_of_length_le h]
  by_cases hi : i < buf.length
  · rw [List.getElem?_append_left hi, if_pos hi]
  · rw [List.getElem?_append_right (by omega), List.getElem?_replicate, if_neg hi]
    congr 1
    exact propext (by omega)

@[simp] theorem length_copyAt {buf new : List α} {pos : ℕ} (h : pos + new.length ≤ buf.length) :
    (copyAt buf pos new).length = buf.length := by
  simp only [copyAt, List.length_append, List.length_take, List.length_drop]
  omega

theorem getElem?_copyAt {buf new : List α} {pos : ℕ} (h : pos + new.length ≤ buf.length) (i : ℕ) :
    (copyAt buf pos new)[i]? =
      if pos ≤ i ∧ i < pos + new.length then new[i - pos]? else buf[i]? := by
  have htake : (buf.take pos).length = pos := by rw [List.length_take]; omega
  rw [copyAt, List.append_assoc]
  by_cases hlo : i < pos
  · rw [List.getElem?_append_left (by omega), List.getElem?_take_of_lt hlo, if_neg (by omega)]
  · rw [List.getElem?_append_right (by omega), htake]
    by_cases hhi : i < pos + new.length
    · rw [List.getElem?_append_left (by omega), if_pos (by omega)]
    · rw [List.getElem?_append_right (by omega), List.getElem?_drop, if_neg (by omega)]
      congr 1
      omega

@[simp] theorem length_overlay (fill : α) (old : List α) (pos : ℕ) (new : List α) :
    (overlay fill old pos new).length = max (pos + new.length) old.length := by
  rw [overlay, length_copyAt (by rw [length_resize]; omega), length_resize]

/-- Inside the written range the overlay holds the new buffer. -/
theorem getElem?_overlay_of_mem (fill : α) (old new : List α) (pos : ℕ) {i : ℕ}
    (h : i < new.length) :
    (overlay fill old pos new)[pos + i]? = new[i]? := by
  rw [overlay, getElem?_copyAt (by rw [length_resize]; omega), if_pos (by omega)]
  congr 1
  omega

/-- Outside the written range the overlay keeps every element of the old buffer. -/
theorem getElem?_overlay_of_old (fill : α) {old new : List α} {pos i : ℕ}
    (hi : i < pos ∨ pos + new.length ≤ i) (hold : i < old.length) :
    (overlay fill old pos new)[i]? = old[i]? := by
  rw [overlay, getElem?_copyAt (by rw [length_resize]; omega), if_neg (by omega),
    getElem?_resize _ (by omega), if_pos hold]

theorem getElem?_overlay_nil (fill : α) (old : List α) {pos i : ℕ} (hi : pos ≤ i) :
    (overlay fill old pos [])[i]? = old[i]? := by
  rw [overlay, getElem?_copyAt (by rw [length_resize, List.length_nil]; omega),
    if_neg (by rw [List.length_nil]; omega), getElem?_resize _ (by omega)]
  by_cases hold : i < old.length
  · rw [if_pos hold]
  · rw [if_neg hold, if_neg (by rw [List.length_nil]; omega), List.getElem?_eq_none (by omega)]

/-! ## Several overlays

The newest patch is the first one of the list. A byte that a patch covers is that of the newest one
that does. -/

/-- A buffer and the position it goes to. -/
structure Patch (α : Type*) where
  pos : ℕ
  data : List α
  deriving DecidableEq

/-- The patch writes position `x`. -/
def Patch.covers (p : Patch α) (x : ℕ) : Bool := decide (p.pos ≤ x ∧ x < p.pos + p.data.length)

/-- Patches applied to a buffer, the last of the list first. -/
def replay (fill : α) (base : List α) : List (Patch α) → List α
  | [] => base
  | p :: ps => overlay fill (replay fill base ps) p.pos p.data

theorem Patch.covers_iff {p : Patch α} {x : ℕ} :
    p.covers x = true ↔ p.pos ≤ x ∧ x < p.pos + p.data.length := by
  rw [Patch.covers, decide_eq_true_iff]

/-- A position that a patch covers is inside the buffer, whatever is applied later. -/
theorem lt_length_replay (fill : α) (base : List α) {ps : List (Patch α)} {p : Patch α} {x : ℕ}
    (hp : p ∈ ps) (hx : p.covers x = true) : x < (replay fill base ps).length := by
  induction ps with
  | nil => cases hp
  | cons q qs ih =>
    rw [replay, length_overlay]
    rcases List.mem_cons.mp hp with rfl | hp
    · have := Patch.covers_iff.mp hx
      omega
    · have := ih hp
      omega

theorem length_replay_le (fill : α) {base : List α} {ps : List (Patch α)} {m : ℕ}
    (hbase : base.length ≤ m) (hps : ∀ p ∈ ps, p.pos + p.data.length ≤ m) :
    (replay fill base ps).length ≤ m := by
  induction ps with
  | nil => exact hbase
  | cons p ps ih =>
    have hp := hps p List.mem_cons_self
    have hrest := ih fun q hq ↦ hps q (List.mem_cons_of_mem _ hq)
    rw [replay, length_overlay]
    omega

/-- **The newest patch decides.** -/
theorem getElem?_replay (fill : α) (base : List α) {ps : List (Patch α)} {p : Patch α} {x : ℕ}
    (h : ps.find? (·.covers x) = some p) :
    (replay fill base ps)[x]? = p.data[x - p.pos]? := by
  induction ps with
  | nil => cases h
  | cons q qs ih =>
    rw [replay]
    by_cases hq : q.covers x = true
    · rw [List.find?_cons_of_pos (p := fun q : Patch α ↦ q.covers x) hq, Option.some_inj] at h
      subst h
      obtain ⟨hlo, hhi⟩ := Patch.covers_iff.mp hq
      have := getElem?_overlay_of_mem fill (replay fill base qs) q.data q.pos
        (i := x - q.pos) (by omega)
      rwa [Nat.add_sub_cancel' hlo] at this
    · rw [List.find?_cons_of_neg (p := fun q : Patch α ↦ q.covers x) hq] at h
      have hin := lt_length_replay fill base (List.mem_of_find?_eq_some h) (by
        simpa using List.find?_some h)
      rw [Patch.covers_iff] at hq
      rw [getElem?_overlay_of_old fill (by omega) hin, ih h]

end Slsfs

import Mathlib.Data.List.Basic
import Mathlib.Tactic.Common

/-!
# Read loops over a stream

A read loop takes one message off its input in each round and goes on with what is left, until a
round fails. The input is any state; for a byte stream it is the list of the bytes not yet read. If
one round recovers a message from its encoding, whatever follows, then the loop recovers a sequence
of messages from the concatenation of their encodings.
-/

namespace Slsfs

variable {σ α β γ : Type*}

/-- The messages of at most `rounds` rounds, and the input that is left when a round fails. -/
def readLoop (read : σ → Option (β × σ)) : ℕ → σ → List β × σ
  | 0, s => ([], s)
  | rounds + 1, s =>
    match read s with
    | none => ([], s)
    | some (message, rest) =>
      ((message :: (readLoop read rounds rest).1), (readLoop read rounds rest).2)

/-- The read loop of a connection. A round that takes a message takes at least one byte, so there
are no more rounds than bytes. -/
def readStream (read : List α → Option (β × List α)) (stream : List α) : List β × List α :=
  readLoop read stream.length stream

theorem readLoop_of_none {read : σ → Option (β × σ)} {s : σ} (h : read s = none) (rounds : ℕ) :
    readLoop read rounds s = ([], s) := by
  cases rounds with
  | zero => rfl
  | succ rounds => rw [readLoop, h]

theorem readLoop_succ_of_some {read : σ → Option (β × σ)} {s rest : σ} {message : β}
    (h : read s = some (message, rest)) (rounds : ℕ) :
    readLoop read (rounds + 1) s
      = (message :: (readLoop read rounds rest).1, (readLoop read rounds rest).2) := by
  rw [readLoop, h]

section Encodings

variable {encode : γ → List α} {value : γ → β}

/-- **The loop recovers the messages**, and stops at what is not one. The input is a state that
holds a stream. -/
theorem readLoop_flatMap {read : σ → Option (β × σ)} (holding : List α → σ) {xs : List γ}
    {rest : List α}
    (hread : ∀ x ∈ xs, ∀ rest, read (holding (encode x ++ rest)) = some (value x, holding rest))
    (hstop : read (holding rest) = none) {rounds : ℕ} (hrounds : xs.length ≤ rounds) :
    readLoop read rounds (holding (xs.flatMap encode ++ rest)) = (xs.map value, holding rest) := by
  induction xs generalizing rounds with
  | nil => exact readLoop_of_none hstop rounds
  | cons x xs ih =>
    obtain ⟨rounds, rfl⟩ : ∃ n, rounds = n + 1 := ⟨rounds - 1, by
      rw [List.length_cons] at hrounds
      omega⟩
    have hhead := hread x List.mem_cons_self (xs.flatMap encode ++ rest)
    have htail := ih (fun y hy ↦ hread y (List.mem_cons_of_mem x hy))
      (Nat.le_of_succ_le_succ hrounds)
    rw [List.flatMap_cons, List.append_assoc, readLoop_succ_of_some hhead, htail, List.map_cons]

theorem length_le_length_flatMap {xs : List γ} (hne : ∀ x ∈ xs, encode x ≠ []) :
    xs.length ≤ (xs.flatMap encode).length := by
  induction xs with
  | nil => exact Nat.zero_le _
  | cons x xs ih =>
    have hx : 0 < (encode x).length := List.length_pos_iff.mpr (hne x List.mem_cons_self)
    have hxs := ih fun y hy ↦ hne y (List.mem_cons_of_mem x hy)
    rw [List.flatMap_cons, List.length_append, List.length_cons]
    omega

theorem readStream_flatMap {read : List α → Option (β × List α)} {xs : List γ}
    (hread : ∀ x ∈ xs, ∀ rest, read (encode x ++ rest) = some (value x, rest))
    (hne : ∀ x ∈ xs, encode x ≠ []) (hend : read [] = none) :
    readStream read (xs.flatMap encode) = (xs.map value, []) := by
  have h := readLoop_flatMap id hread hend (length_le_length_flatMap hne)
  rwa [List.append_nil] at h

end Encodings

end Slsfs

import Mathlib.Data.Vector.Basic
import Mathlib.Tactic.Common

/-!
# Fixed-width fields of a byte stream

A field of `n` bytes is a `List.Vector UInt8 n`. `cut` takes one off the front of a stream, and the
two integer encodings turn a number into a field and back. Reading what was written is stated once
for `cut` and once for each encoding, so that a record made of such fields is read back by
rewriting.
-/

namespace Slsfs

/-- The first `n` bytes of a stream and what follows them; `none` if the stream is shorter. -/
def cut (n : ℕ) (stream : List UInt8) : Option (List.Vector UInt8 n × List UInt8) :=
  if h : n ≤ stream.length then
    some (⟨stream.take n, by rw [List.length_take]; omega⟩, stream.drop n)
  else none

@[simp] theorem cut_append {n : ℕ} (field : List.Vector UInt8 n) (rest : List UInt8) :
    cut n (field.toList ++ rest) = some (field, rest) := by
  obtain ⟨bytes, rfl⟩ := field
  rw [cut, dif_pos (by simp [List.Vector.toList])]
  simp [List.Vector.toList]

@[simp] theorem cut_toList {n : ℕ} (field : List.Vector UInt8 n) :
    cut n field.toList = some (field, []) := by
  simpa using cut_append field []

theorem eq_append_of_cut {n : ℕ} {stream rest : List UInt8} {field : List.Vector UInt8 n}
    (h : cut n stream = some (field, rest)) : stream = field.toList ++ rest := by
  rw [cut] at h
  split at h
  · obtain ⟨rfl, rfl⟩ := Prod.mk.inj (Option.some_inj.mp h)
    exact (List.take_append_drop n stream).symm
  · cases h

theorem length_of_cut {n : ℕ} {stream rest : List UInt8} {field : List.Vector UInt8 n}
    (h : cut n stream = some (field, rest)) : stream.length = n + rest.length := by
  rw [eq_append_of_cut h, List.length_append, List.Vector.toList_length]

theorem bind_cut {β : Type*} {n : ℕ} {data rest : List UInt8} (hn : n = data.length)
    (k : List UInt8 → List UInt8 → Option β) :
    ((cut n (data ++ rest)).bind fun c ↦ k c.1.toList c.2) = k data rest := by
  subst hn
  have h := cut_append (⟨data, rfl⟩ : List.Vector UInt8 data.length) rest
  rw [List.Vector.toList_mk] at h
  rw [h, Option.bind_some, List.Vector.toList_mk]

/-- `n` in `width` bytes, most significant first. -/
def bigEndian : (width : ℕ) → ℕ → List.Vector UInt8 width
  | 0, _ => .nil
  | width + 1, n => bigEndian width (n / 256) ++ List.Vector.cons (UInt8.ofNat n) List.Vector.nil

/-- `n` in `width` bytes, least significant first. -/
def littleEndian (width n : ℕ) : List.Vector UInt8 width := (bigEndian width n).reverse

/-- The number a field holds, most significant byte first. -/
def ofBigEndian {width : ℕ} (field : List.Vector UInt8 width) : ℕ :=
  field.toList.foldl (fun acc b ↦ 256 * acc + b.toNat) 0

/-- The number a field holds, least significant byte first. -/
def ofLittleEndian {width : ℕ} (field : List.Vector UInt8 width) : ℕ := ofBigEndian field.reverse

theorem ofBigEndian_bigEndian (width n : ℕ) :
    ofBigEndian (bigEndian width n) = n % 256 ^ width := by
  induction width generalizing n with
  | zero => rw [pow_zero, Nat.mod_one]; rfl
  | succ width ih =>
    have hstep : ofBigEndian (bigEndian (width + 1) n)
        = 256 * ofBigEndian (bigEndian width (n / 256)) + (UInt8.ofNat n).toNat := by
      simp [ofBigEndian, bigEndian, List.Vector.toList_append]
    rw [hstep, ih, UInt8.toNat_ofNat', Nat.pow_succ 256, Nat.mul_comm (256 ^ width) 256,
      Nat.mod_mul]
    omega

theorem ofBigEndian_uint32 (n : UInt32) :
    UInt32.ofNat (ofBigEndian (bigEndian 4 n.toNat)) = n := by
  rw [ofBigEndian_bigEndian, Nat.mod_eq_of_lt (by have := n.toNat_lt; omega), UInt32.ofNat_toNat]

theorem ofBigEndian_uint16 (n : UInt16) :
    UInt16.ofNat (ofBigEndian (bigEndian 2 n.toNat)) = n := by
  rw [ofBigEndian_bigEndian, Nat.mod_eq_of_lt (by have := n.toNat_lt; omega), UInt16.ofNat_toNat]

theorem ofLittleEndian_littleEndian (width n : ℕ) :
    ofLittleEndian (littleEndian width n) = n % 256 ^ width := by
  have hrev : (littleEndian width n).reverse = bigEndian width n :=
    List.Vector.eq _ _ (by simp [littleEndian])
  rw [ofLittleEndian, hrev, ofBigEndian_bigEndian]

end Slsfs

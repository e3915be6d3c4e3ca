import Mathlib.Data.List.GetD
import Mathlib.Tactic.Common

/-!
# Base64

Three bytes are written as four digits of six bits each; a rest of one or two bytes is written as
two or three digits, and padded to four. An alphabet gives the digits. What was written is read back
the same.
-/

namespace Slsfs

/-- What fills up the last four digits. -/
def pad64 : UInt8 := 61

/-- Sixty-four digits, none of them the padding, and the number of each. -/
structure Alphabet64 where
  digit : ℕ → UInt8
  value : UInt8 → ℕ
  value_digit : ∀ n < 64, value (digit n) = n
  digit_ne_pad : ∀ n < 64, digit n ≠ pad64

namespace Alphabet64

variable (a : Alphabet64)

/-- The text for some bytes. -/
def encode : List UInt8 → List UInt8
  | [] => []
  | [x] => [a.digit (x.toNat / 4), a.digit (x.toNat % 4 * 16), pad64, pad64]
  | [x, y] => [a.digit (x.toNat / 4), a.digit (x.toNat % 4 * 16 + y.toNat / 16),
      a.digit (y.toNat % 16 * 4), pad64]
  | x :: y :: z :: rest =>
    a.digit (x.toNat / 4) :: a.digit (x.toNat % 4 * 16 + y.toNat / 16) ::
      a.digit (y.toNat % 16 * 4 + z.toNat / 64) :: a.digit (z.toNat % 64) :: encode rest

/-- The first byte of four digits, from the first two. -/
def firstByte (c d : UInt8) : UInt8 := UInt8.ofNat (a.value c * 4 + a.value d / 16)

/-- The second byte, from the second and the third digit. -/
def secondByte (d e : UInt8) : UInt8 := UInt8.ofNat (a.value d % 16 * 16 + a.value e / 4)

/-- The third byte, from the last two digits. -/
def thirdByte (e f : UInt8) : UInt8 := UInt8.ofNat (a.value e % 4 * 64 + a.value f)

/-- The bytes a text stands for. -/
def decode : List UInt8 → List UInt8
  | c :: d :: e :: f :: rest =>
    if e = pad64 then [a.firstByte c d]
    else if f = pad64 then [a.firstByte c d, a.secondByte d e]
    else a.firstByte c d :: a.secondByte d e :: a.thirdByte e f :: decode rest
  | _ => []

/-- The digits of a table, numbered from the start. -/
def ofTable (table : List UInt8) (hlength : table.length = 64) (hnodup : table.Nodup)
    (hpad : pad64 ∉ table) : Alphabet64 where
  digit n := table.getD n 0
  value b := table.idxOf b
  value_digit n hn := by
    rw [List.getD_eq_getElem _ _ (hlength ▸ hn)]
    exact hnodup.idxOf_getElem n (hlength ▸ hn)
  digit_ne_pad n hn h := by
    rw [List.getD_eq_getElem _ _ (hlength ▸ hn)] at h
    exact hpad (h ▸ List.getElem_mem _)

variable {a}

theorem firstByte_digit (x y : UInt8) :
    a.firstByte (a.digit (x.toNat / 4)) (a.digit (x.toNat % 4 * 16 + y.toNat / 16)) = x := by
  have hx := x.toNat_lt
  have hy := y.toNat_lt
  rw [firstByte, a.value_digit _ (by omega), a.value_digit _ (by omega)]
  have hsum : x.toNat / 4 * 4 + (x.toNat % 4 * 16 + y.toNat / 16) / 16 = x.toNat := by omega
  rw [hsum, UInt8.ofNat_toNat]

theorem secondByte_digit (n : ℕ) (hn : n < 4) (y z : UInt8) :
    a.secondByte (a.digit (n * 16 + y.toNat / 16)) (a.digit (y.toNat % 16 * 4 + z.toNat / 64))
      = y := by
  have hy := y.toNat_lt
  have hz := z.toNat_lt
  rw [secondByte, a.value_digit _ (by omega), a.value_digit _ (by omega)]
  have hsum : (n * 16 + y.toNat / 16) % 16 * 16 + (y.toNat % 16 * 4 + z.toNat / 64) / 4
      = y.toNat := by omega
  rw [hsum, UInt8.ofNat_toNat]

theorem thirdByte_digit (n : ℕ) (hn : n < 16) (z : UInt8) :
    a.thirdByte (a.digit (n * 4 + z.toNat / 64)) (a.digit (z.toNat % 64)) = z := by
  have hz := z.toNat_lt
  rw [thirdByte, a.value_digit _ (by omega), a.value_digit _ (by omega)]
  have hsum : (n * 4 + z.toNat / 64) % 4 * 64 + z.toNat % 64 = z.toNat := by omega
  rw [hsum, UInt8.ofNat_toNat]

/-- **Round trip.** -/
theorem decode_encode (bytes : List UInt8) : a.decode (a.encode bytes) = bytes := by
  induction bytes using encode.induct with
  | case1 => rfl
  | case2 x =>
    rw [encode, decode, if_pos rfl]
    exact congrArg (· :: []) (firstByte_digit x 0)
  | case3 x y =>
    have hy := y.toNat_lt
    have hne : a.digit (y.toNat % 16 * 4) ≠ pad64 := a.digit_ne_pad _ (by omega)
    rw [encode, decode, if_neg hne, if_pos rfl, firstByte_digit]
    exact congrArg (x :: · :: []) (secondByte_digit _ (Nat.mod_lt _ (by decide)) y 0)
  | case4 x y z rest ih =>
    have hy := y.toNat_lt
    have hz := z.toNat_lt
    have hthird : a.digit (y.toNat % 16 * 4 + z.toNat / 64) ≠ pad64 :=
      a.digit_ne_pad _ (by omega)
    have hfourth : a.digit (z.toNat % 64) ≠ pad64 := a.digit_ne_pad _ (by omega)
    rw [encode, decode, if_neg hthird, if_neg hfourth, ih, firstByte_digit,
      secondByte_digit _ (Nat.mod_lt _ (by decide)), thirdByte_digit _ (Nat.mod_lt _ (by decide))]

end Alphabet64

end Slsfs

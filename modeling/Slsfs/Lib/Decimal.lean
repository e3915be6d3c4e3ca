import Mathlib.Algebra.Group.Int.Defs
import Mathlib.Algebra.Group.Nat.Defs
import Mathlib.Data.List.TakeWhile
import Mathlib.Tactic.Common

/-!
# Decimal numerals in byte strings

Byte strings that hold numbers are written with `decimal` and read back with `stoll`, which follows
the documented behaviour of the C++ function: leading white space and one sign are accepted, the
longest run of digits is converted, and a string without digits or a value outside the 64-bit range
is refused.

The last section is about keys made of a numeral and a suffix. A suffix that does not start with a
digit can be separated from the numeral in front of it, so two such keys are equal only if both
parts are.
-/

namespace Slsfs

/-- The bytes of an ASCII text. -/
def ascii (text : String) : List UInt8 := text.toList.map fun c ↦ UInt8.ofNat c.toNat

/-- The decimal digits of `n`, most significant first. -/
def decimal (n : ℕ) : List UInt8 := (Nat.toDigits 10 n).map fun c ↦ UInt8.ofNat c.toNat

def isDigit (b : UInt8) : Bool := 48 ≤ b.toNat && b.toNat ≤ 57

def isSpace (b : UInt8) : Bool := b.toNat == 32 || (9 ≤ b.toNat && b.toNat ≤ 13)

/-- The number a run of digits stands for. -/
def ofDecimal (digits : List UInt8) : ℕ :=
  digits.foldl (fun acc b ↦ 10 * acc + (b.toNat - 48)) 0

/-- An optional sign in front of a numeral. -/
def splitSign : List UInt8 → Bool × List UInt8
  | 45 :: rest => (true, rest)
  | 43 :: rest => (false, rest)
  | rest => (false, rest)

/-- `std::stoll` in base ten; `none` where it throws. -/
def stoll (text : List UInt8) : Option ℤ :=
  let signed := splitSign (text.dropWhile isSpace)
  let digits := signed.2.takeWhile isDigit
  if digits = [] then none
  else
    let value : ℤ := if signed.1 then -(ofDecimal digits : ℤ) else ofDecimal digits
    if -2 ^ 63 ≤ value ∧ value < 2 ^ 63 then some value else none

/-! ## Reading back what was written

A numeral consists of digits and starts with one, so that neither white space nor a sign is skipped,
and its value is that of the digits. Two numbers with one numeral are equal. -/

theorem decimal_ne_nil (n : ℕ) : decimal n ≠ [] := by
  rw [decimal, ne_eq, List.map_eq_nil_iff]
  exact Nat.toDigits_ne_nil

private theorem digit_toNat_bounds {c : Char} (h : c.isDigit) : 48 ≤ c.toNat ∧ c.toNat ≤ 57 := by
  simp only [Char.isDigit, ge_iff_le, Bool.and_eq_true, decide_eq_true_eq, UInt32.le_iff_toNat_le]
    at h
  exact h

private theorem toNat_ofNat_digit {c : Char} (h : c.isDigit) :
    (UInt8.ofNat c.toNat).toNat = c.toNat := by
  have hc := digit_toNat_bounds h
  rw [UInt8.toNat_ofNat']
  omega

theorem isDigit_of_mem_decimal {n : ℕ} {b : UInt8} (h : b ∈ decimal n) : isDigit b = true := by
  obtain ⟨c, hc, rfl⟩ := List.mem_map.mp h
  have hd : c.isDigit := Nat.isDigit_of_mem_toDigits (by decide) (by decide) hc
  have hbounds := digit_toNat_bounds hd
  rw [isDigit, toNat_ofNat_digit hd]
  simp [hbounds]

private theorem foldl_digits (l : List Char) (hl : ∀ c ∈ l, c.isDigit) (init : ℕ) :
    (l.map fun c ↦ UInt8.ofNat c.toNat).foldl (fun acc b ↦ 10 * acc + (b.toNat - 48)) init
      = Nat.ofDigitChars 10 l init := by
  induction l generalizing init with
  | nil => rw [List.map_nil, List.foldl_nil, Nat.ofDigitChars_nil]
  | cons c l ih =>
    rw [List.map_cons, List.foldl_cons, toNat_ofNat_digit (hl c List.mem_cons_self),
      ih (fun d hd ↦ hl d (List.mem_cons_of_mem c hd)), Nat.ofDigitChars_cons]
    rfl

@[simp] theorem ofDecimal_decimal (n : ℕ) : ofDecimal (decimal n) = n := by
  rw [ofDecimal, decimal, foldl_digits _ _, Nat.ofDigitChars_ten_toDigits]
  exact fun c hc ↦ Nat.isDigit_of_mem_toDigits (by decide) (by decide) hc

theorem decimal_injective : Function.Injective decimal :=
  Function.LeftInverse.injective ofDecimal_decimal

private theorem splitSign_of_isDigit {b : UInt8} {rest : List UInt8} (h : isDigit b = true) :
    splitSign (b :: rest) = (false, b :: rest) := by
  unfold splitSign
  split
  · rename_i heq
    rw [(List.cons.inj heq).1] at h
    exact absurd h (by decide)
  · rename_i heq
    rw [(List.cons.inj heq).1] at h
    exact absurd h (by decide)
  · rfl

private theorem isSpace_of_isDigit {b : UInt8} (h : isDigit b = true) : isSpace b = false := by
  simp only [isDigit, Bool.and_eq_true, decide_eq_true_eq] at h
  simp only [isSpace, Bool.or_eq_false_iff, Bool.and_eq_false_iff, beq_eq_false_iff_ne,
    decide_eq_false_iff_not, ne_eq]
  omega

theorem stoll_decimal {n : ℕ} (h : n < 2 ^ 63) : stoll (decimal n) = some (n : ℤ) := by
  have hdigits : (decimal n).takeWhile isDigit = decimal n :=
    List.takeWhile_eq_self_iff.mpr fun b hb ↦ isDigit_of_mem_decimal hb
  obtain ⟨b, rest, hcons⟩ := List.exists_cons_of_ne_nil (decimal_ne_nil n)
  have hb : isDigit b = true := isDigit_of_mem_decimal (hcons ▸ List.mem_cons_self)
  have hsign : splitSign ((decimal n).dropWhile isSpace) = (false, decimal n) := by
    rw [hcons, List.dropWhile_cons_of_neg (by simp [isSpace_of_isDigit hb]),
      splitSign_of_isDigit hb]
  rw [stoll, hsign]
  simp only [hdigits, decimal_ne_nil, if_false, ofDecimal_decimal, Bool.false_eq_true]
  rw [if_pos (by omega)]

/-! ## Numerals with a suffix

The digits of the whole string end where the suffix starts. -/

/-- A suffix that cannot be taken for a continuation of the numeral in front of it. -/
def StartsOffDigit (suffix : List UInt8) : Prop := ∀ b ∈ suffix.head?, isDigit b = false

instance (suffix : List UInt8) : Decidable (StartsOffDigit suffix) :=
  Option.decidableForallMem suffix.head?

private theorem takeWhile_decimal_append (n : ℕ) {suffix : List UInt8}
    (h : StartsOffDigit suffix) : (decimal n ++ suffix).takeWhile isDigit = decimal n := by
  rw [List.takeWhile_append_of_pos fun b hb ↦ isDigit_of_mem_decimal hb]
  cases suffix with
  | nil => rw [List.takeWhile_nil, List.append_nil]
  | cons b rest =>
    rw [List.takeWhile_cons_of_neg (by simp [h b (by simp)]), List.append_nil]

theorem decimal_append_inj {m n : ℕ} {s t : List UInt8} (hs : StartsOffDigit s)
    (ht : StartsOffDigit t) (h : decimal m ++ s = decimal n ++ t) : m = n ∧ s = t := by
  have hdec : decimal m = decimal n := by
    rw [← takeWhile_decimal_append m hs, h, takeWhile_decimal_append n ht]
  refine ⟨decimal_injective hdec, ?_⟩
  rw [hdec] at h
  exact List.append_cancel_left h

end Slsfs

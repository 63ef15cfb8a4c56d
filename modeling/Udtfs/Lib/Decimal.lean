import Mathlib.Data.Nat.Digits.Defs
import Mathlib.Data.Nat.Digits.Lemmas
import Mathlib.Tactic.IntervalCases
import Udtfs.Lib.NulString

/-!
# Unsigned decimal numerals as bytes

Printing a natural number in base ten and reading the numeral back. The reader takes every
byte at its distance from `'0'`, so it is only meant for strings of digits.
-/

namespace Decimal

open NulString

/-- The byte is one of the characters `'0'` to `'9'`. -/
def IsDigit (b : UInt8) : Prop := 48 ≤ b.toNat ∧ b.toNat ≤ 57

instance (b : UInt8) : Decidable (IsDigit b) := inferInstanceAs (Decidable (_ ∧ _))

/-- The character of one decimal digit. -/
def digitByte (d : ℕ) : UInt8 := UInt8.ofNat (48 + d)

/-- The numeral of a natural number, most significant digit first. -/
def print (n : ℕ) : List UInt8 :=
  if n = 0 then [digitByte 0] else ((Nat.digits 10 n).map digitByte).reverse

/-- The number that a string of digits denotes. -/
def value (s : List UInt8) : ℕ := s.foldl (fun acc b => 10 * acc + (b.toNat - 48)) 0

/-- A digit's character lies at its distance from `'0'`. -/
theorem digitByte_toNat {d : ℕ} (h : d < 10) : (digitByte d).toNat = 48 + d := by
  simp only [digitByte, UInt8.toNat_ofNat']
  omega

/-- The characters used for printing are digits. -/
theorem digitByte_isDigit {d : ℕ} (h : d < 10) : IsDigit (digitByte d) := by
  rw [IsDigit, digitByte_toNat h]
  omega

/-- Every character of a numeral is a digit. -/
theorem print_isDigit (n : ℕ) : ∀ b ∈ print n, IsDigit b := by
  intro b hb
  unfold print at hb
  split at hb
  · rw [List.mem_singleton.mp hb]
    exact digitByte_isDigit (by decide)
  · obtain ⟨d, hd, rfl⟩ := List.mem_map.mp (List.mem_reverse.mp hb)
    exact digitByte_isDigit (Nat.digits_lt_base (by decide) hd)

/-- A numeral is never empty. -/
theorem print_ne_nil (n : ℕ) : print n ≠ [] := by
  unfold print
  split
  · simp
  · next h => simpa [Nat.digits_eq_nil_iff_eq_zero] using h

/-- A digit is not the string terminator. -/
theorem IsDigit.ne_zero {b : UInt8} (h : IsDigit b) : b ≠ 0 := by
  rintro rfl
  exact absurd h.1 (by decide)

/-- A numeral travels as one C string. -/
theorem print_nulFree (n : ℕ) : NulFree (print n) :=
  fun hmem => (print_isDigit n 0 hmem).ne_zero rfl

/-- The reader evaluates the digits it is given by Horner's scheme. -/
theorem value_digits (digits : List ℕ) (h : ∀ d ∈ digits, d < 10) :
    value (digits.map digitByte).reverse = Nat.ofDigits 10 digits := by
  induction digits with
  | nil => rfl
  | cons d digits ih =>
    have hd : d < 10 := h d List.mem_cons_self
    have ih := ih (fun e he => h e (List.mem_cons_of_mem _ he))
    simp only [value, List.map_cons, List.reverse_cons, List.foldl_append, List.foldl_cons,
      List.foldl_nil, Nat.ofDigits_cons] at ih ⊢
    rw [ih, digitByte_toNat hd]
    omega

/-- Reading a printed number gives the number back. -/
@[simp] theorem value_print (n : ℕ) : value (print n) = n := by
  unfold print
  split
  · next h => subst h; decide
  · rw [value_digits _ (fun d hd => Nat.digits_lt_base (by decide) hd), Nat.ofDigits_digits]

/-- A number below `10 ^ k` has at most `k` digits. -/
theorem print_length_le {n k : ℕ} (hk : 0 < k) (h : n < 10 ^ k) : (print n).length ≤ k := by
  unfold print
  split
  · exact Nat.succ_le_of_lt hk
  · simpa using Nat.digits_length_le_iff (by decide) n |>.mpr h

end Decimal

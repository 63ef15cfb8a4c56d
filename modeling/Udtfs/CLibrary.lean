import Mathlib.Data.UInt
import Udtfs.Lib.Decimal

/-!
# The C library functions that the file system rests on

String comparison, copying and integer conversion as the C standard and glibc document
them on an LP64 machine. Strings are byte lists without their terminator, blocks of memory
are byte lists. A comparison is modelled by its test against zero, the only use made of it.
-/

namespace Udtfs

open NulString

/-- Strings and memory as bytes. -/
abbrev Bytes := List UInt8

/-- The bytes of a string literal. -/
def ascii (s : String) : Bytes := s.toUTF8.data.toList

/-- `tolower` in the C locale. -/
def tolower (b : UInt8) : UInt8 := if 65 ≤ b.toNat ∧ b.toNat ≤ 90 then b + 32 else b

/-- `strcasecmp(s, t) == 0`. -/
def strcasecmp (s t : Bytes) : Bool := s.map tolower == t.map tolower

/-- `strncasecmp(s, t, n) == 0`. -/
def strncasecmp (s t : Bytes) (n : ℕ) : Bool := strcasecmp (s.take n) (t.take n)

/-- `strncmp(s, t, n) == 0` for a string and a block of memory of at least `n` bytes. -/
def strncmp (s memory : Bytes) (n : ℕ) : Bool := s.take n == cstr (memory.take n)

/-- The `n` bytes that `strncpy(dst, s, n)` stores: no terminator when `s` has `n` bytes or more. -/
def strncpy (s : Bytes) (n : ℕ) : Bytes := s.take n ++ List.replicate (n - s.length) 0

/-- Conversion to `size_t` and to `unsigned long long`. -/
def toSizeT (x : ℤ) : ℕ := (x % 2 ^ 64).toNat

/-- Conversion to a signed type of `w` bits. -/
def toSigned (w : ℕ) (x : ℤ) : ℤ := (x + 2 ^ (w - 1)) % 2 ^ w - 2 ^ (w - 1)

/-- Conversion to `int`. -/
def toInt (x : ℤ) : ℤ := toSigned 32 x

/-- Conversion to `off_t`, `long` and `int64_t`. -/
def toInt64 (x : ℤ) : ℤ := toSigned 64 x

/-- `snprintf(info, M_MAX_VAL, "%Lu", (unsigned long long)x)`. -/
def printLu (x : ℤ) : Bytes := Decimal.print (toSizeT x)

/-- `isspace` in the C locale. -/
def isspace (b : UInt8) : Bool := b = 32 || (9 ≤ b.toNat && b.toNat ≤ 13)

/-- `atoll` and `atol`: leading space, a sign, digits; glibc saturates at the limits. -/
def atoll (s : Bytes) : ℤ :=
  let numeral := s.dropWhile isspace
  let negative := numeral.head? = some 45
  let digits := if negative ∨ numeral.head? = some 43 then numeral.tail else numeral
  let magnitude : ℤ := Decimal.value (digits.takeWhile fun b => decide (Decimal.IsDigit b))
  max (-2 ^ 63) (min (if negative then -magnitude else magnitude) (2 ^ 63 - 1))

/-- A value in range is unchanged by the conversion to `size_t`. -/
theorem toSizeT_of_nonneg {x : ℤ} (h₀ : 0 ≤ x) (h : x < 2 ^ 64) : toSizeT x = x.toNat := by
  unfold toSizeT
  rw [Int.emod_eq_of_lt h₀ h]

/-- A `size_t` value is unchanged by the conversion to its own type. -/
theorem toSizeT_natCast {n : ℕ} (h : n < 2 ^ 64) : toSizeT n = n := by
  rw [toSizeT_of_nonneg (by omega) (by omega), Int.toNat_natCast]

/-- A value of the signed type is unchanged by the conversion to it. -/
theorem toSigned_of_range {w : ℕ} (hw : 0 < w) {x : ℤ} (h₀ : -2 ^ (w - 1) ≤ x)
    (h : x < 2 ^ (w - 1)) : toSigned w x = x := by
  obtain ⟨w, rfl⟩ : ∃ v, w = v + 1 := ⟨w - 1, by omega⟩
  simp only [Nat.add_sub_cancel] at h₀ h ⊢
  have hpow : (2 : ℤ) ^ (w + 1) = 2 ^ w + 2 ^ w := by ring
  unfold toSigned
  rw [Nat.add_sub_cancel, Int.emod_eq_of_lt (by omega) (by omega)]
  omega

/-- A value in range is unchanged by the conversion to a signed 64-bit type. -/
theorem toInt64_of_range {x : ℤ} (h₀ : -2 ^ 63 ≤ x) (h : x < 2 ^ 63) : toInt64 x = x :=
  toSigned_of_range (by decide) h₀ h

/-- A value in range is unchanged by the conversion to `int`. -/
theorem toInt_of_range {x : ℤ} (h₀ : -2 ^ 31 ≤ x) (h : x < 2 ^ 31) : toInt x = x :=
  toSigned_of_range (by decide) h₀ h

/-- An `int` holds a size exactly if it is below `2 ^ 31`. -/
theorem toInt_natCast_iff (n : ℕ) : toInt n = n ↔ n < 2 ^ 31 := by
  rw [toInt, toSigned]
  omega

/-- A numeral begins with a digit, which is neither space nor a sign. -/
theorem print_head (n : ℕ) : ∃ b s, Decimal.print n = b :: s ∧ Decimal.IsDigit b := by
  obtain ⟨b, s, h⟩ := List.exists_cons_of_ne_nil (Decimal.print_ne_nil n)
  exact ⟨b, s, h, Decimal.print_isDigit n b (by rw [h]; exact List.mem_cons_self)⟩

/-- The parser reads a printed number, cut at the largest `long long`. -/
theorem atoll_print (n : ℕ) : atoll (Decimal.print n) = min (n : ℤ) (2 ^ 63 - 1) := by
  obtain ⟨b, s, hs, hb⟩ := print_head n
  have hspace : isspace b = false := by
    obtain ⟨h1, h2⟩ := hb
    have hne : b ≠ 32 := by rintro rfl; exact absurd h1 (by decide)
    simp only [isspace, hne, decide_false, Bool.false_or, Bool.and_eq_false_iff,
      decide_eq_false_iff_not]
    omega
  have hdrop : (Decimal.print n).dropWhile isspace = Decimal.print n := by
    rw [hs, List.dropWhile_cons, hspace]
    rfl
  have hminus : b ≠ 45 := by rintro rfl; exact absurd hb.1 (by decide)
  have hplus : b ≠ 43 := by rintro rfl; exact absurd hb.1 (by decide)
  have htake : (Decimal.print n).takeWhile (fun b => decide (Decimal.IsDigit b)) =
      Decimal.print n :=
    List.takeWhile_eq_self_iff.mpr fun c hc => decide_eq_true (Decimal.print_isDigit n c hc)
  have hhead : (Decimal.print n).head? = some b := by rw [hs]; rfl
  unfold atoll
  simp only [hdrop, hhead, Option.some.injEq, hminus, hplus, or_self, if_false, htake,
    Decimal.value_print]
  omega

/-- A nonnegative `long long` survives printing with `%Lu` and parsing with `atoll`. -/
theorem atoll_printLu {x : ℤ} (h₀ : 0 ≤ x) (h : x < 2 ^ 63) : atoll (printLu x) = x := by
  rw [printLu, atoll_print, toSizeT_of_nonneg h₀ (by omega)]
  omega

/-- A printed value travels as one C string. -/
theorem printLu_nulFree (x : ℤ) : NulFree (printLu x) := Decimal.print_nulFree _

/-- An `unsigned long long` has at most twenty digits. -/
theorem printLu_length_le (x : ℤ) : (printLu x).length ≤ 20 := by
  apply Decimal.print_length_le (by decide)
  unfold toSizeT
  omega

/-- Equality up to case implies equal lengths. -/
theorem strcasecmp_length {s t : Bytes} (h : strcasecmp s t = true) : s.length = t.length := by
  simpa using congrArg List.length (beq_iff_eq.mp h)

/-- A string that fits with its terminator is what the copied array holds. -/
theorem cstr_strncpy {s : Bytes} (h : NulFree s) {n : ℕ} (hn : s.length < n) (beyond : Bytes) :
    cstr (strncpy s n ++ beyond) = s := by
  obtain ⟨k, hk⟩ : ∃ k, n - s.length = k + 1 := ⟨n - s.length - 1, by omega⟩
  rw [strncpy, List.take_of_length_le hn.le, hk, List.replicate_succ, List.append_assoc,
    List.cons_append, cstr_append_zero h]

/-- A common beginning can be left out of the comparison. -/
theorem strncasecmp_append (s u t : Bytes) (n : ℕ) :
    strncasecmp (s ++ u) (s ++ t) (s.length + n) = strncasecmp u t n := by
  rw [strncasecmp, strncasecmp, List.take_length_add_append, List.take_length_add_append,
    strcasecmp, strcasecmp, List.map_append, List.map_append, Bool.eq_iff_iff, beq_iff_eq,
    beq_iff_eq, List.append_cancel_left_eq]

/-- Only the terminator is the terminator in lower case. -/
theorem tolower_eq_zero {b : UInt8} (h : tolower b = 0) : b = 0 := by
  unfold tolower at h
  split at h
  · next hupper =>
    have hnat := congrArg UInt8.toNat h
    rw [UInt8.toNat_add] at hnat
    have h32 : (32 : UInt8).toNat = 32 := rfl
    have h0 : (0 : UInt8).toNat = 0 := rfl
    omega
  · exact h

/-- Comparing a block of memory with a whole string is comparing the string that the block holds. -/
theorem strncasecmp_cstr {t : Bytes} (ht : NulFree t) (memory : Bytes) :
    strncasecmp (cstr memory) t t.length = strncasecmp memory t t.length := by
  induction t generalizing memory with
  | nil => rfl
  | cons b t ih =>
    obtain ⟨hb, ht⟩ := (nulFree_cons b t).mp ht
    cases memory with
    | nil => rfl
    | cons c memory =>
      by_cases hc : c = 0
      · have hne : tolower 0 ≠ tolower b := fun h => hb (tolower_eq_zero h.symm)
        rw [hc, Bool.eq_iff_iff]
        simp [cstr, strncasecmp, strcasecmp, hne]
      · have hcstr : cstr (c :: memory) = c :: cstr memory := by simp [cstr, hc]
        have ih := ih ht memory
        rw [hcstr]
        simp only [strncasecmp, strcasecmp, List.length_cons, List.take_succ_cons, List.map_cons,
          List.cons_beq_cons] at ih ⊢
        rw [ih]

end Udtfs

import Mathlib.Algebra.Order.Group.Abs
import Mathlib.Algebra.Order.Group.Int
import Mathlib.Data.Int.Notation

/-!
# Serial numbers

Counters that start again at zero behind a largest value. Two of them are compared as if they were
close to each other on the circle: a distance of the threshold or more is taken for a wrap. As long as
the counters behind them are closer than the threshold, comparison, distance and length are those of the
counters.
-/

/-- Serial numbers from zero to `max`, with the distance from which on a wrap is assumed. -/
structure SerialNumber where
  max : ℤ
  threshold : ℤ

namespace SerialNumber

variable (s : SerialNumber)

/-- The number of a counter. -/
def wrap (n : ℤ) : ℤ := n % (s.max + 1)

/-- Compare two numbers: negative if the first comes before the second. -/
def cmp (x y : ℤ) : ℤ := if |x - y| < s.threshold then x - y else y - x

/-- How many numbers there are from the first to the second, both included. -/
def len (x y : ℤ) : ℤ := if x ≤ y then y - x + 1 else y - x + s.max + 2

/-- The distance from the first number to the second. -/
def off (x y : ℤ) : ℤ :=
  if |x - y| < s.threshold then y - x else
  if x < y then y - x - s.max - 1 else y - x + s.max + 1

/-- The next number. -/
def inc (x : ℤ) : ℤ := if x = s.max then 0 else x + 1

/-- The number before. -/
def dec (x : ℤ) : ℤ := if x = 0 then s.max else x - 1

/-- The threshold is not zero, and two distances below it do not add up to the whole circle. -/
structure Valid : Prop where
  threshold_pos : 0 < s.threshold
  threshold_le : 2 * s.threshold ≤ s.max + 1

variable {s} (hs : s.Valid)

include hs

/-- There is more than one number. -/
theorem Valid.max_pos : 0 < s.max := by
  have hpos := hs.threshold_pos
  have hle := hs.threshold_le
  omega

/-- The number of a counter is one of the numbers. -/
theorem wrap_bounds (n : ℤ) : 0 ≤ s.wrap n ∧ s.wrap n ≤ s.max := by
  have hmax := hs.max_pos
  have hlt : s.wrap n < s.max + 1 := Int.emod_lt_of_pos n (by omega)
  exact ⟨Int.emod_nonneg n (by omega), by omega⟩

omit hs in
/-- A counter up to the largest number is its own number. -/
theorem wrap_of_bounds {n : ℤ} (h₀ : 0 ≤ n) (h : n ≤ s.max) : s.wrap n = n :=
  Int.emod_eq_of_lt h₀ (by omega)

/-- Going ahead by less than the whole circle passes zero at most once. -/
theorem wrap_add (n : ℤ) {d : ℤ} (h₀ : 0 ≤ d) (h : d ≤ s.max) :
    s.wrap (n + d) = if s.wrap n + d ≤ s.max then s.wrap n + d else s.wrap n + d - (s.max + 1) := by
  obtain ⟨hlow, hhigh⟩ := wrap_bounds hs n
  have hsum : s.wrap (n + d) = s.wrap (s.wrap n + d) := (Int.emod_add_emod n (s.max + 1) d).symm
  rw [hsum]
  split
  · exact wrap_of_bounds (by omega) (by omega)
  · have hless : s.wrap (s.wrap n + d) = s.wrap (s.wrap n + d - (s.max + 1)) :=
      (Int.sub_emod_right _ _).symm
    rw [hless]
    exact wrap_of_bounds (by omega) (by omega)

/-- The numbers of counters at a distance differ by the distance, up to a whole circle. -/
theorem wrap_sub_cases {a b : ℤ} (h : |a - b| ≤ s.max) :
    s.wrap b - s.wrap a = b - a ∨
      (s.wrap b - s.wrap a = b - a - (s.max + 1) ∧ a < b) ∨
        (s.wrap b - s.wrap a = b - a + (s.max + 1) ∧ b < a) := by
  obtain ⟨hlow, hhigh⟩ := abs_le.mp h
  rcases le_total a b with hle | hle
  · have hadd := wrap_add hs a (d := b - a) (by omega) (by omega)
    rw [add_sub_cancel] at hadd
    have hlt := (wrap_bounds hs a).2
    split at hadd <;> omega
  · have hadd := wrap_add hs b (d := a - b) (by omega) (by omega)
    rw [add_sub_cancel] at hadd
    have hlt := (wrap_bounds hs b).2
    split at hadd <;> omega

/-- Counters less than a whole circle apart have different numbers. -/
theorem wrap_inj {a b : ℤ} (h : |a - b| ≤ s.max) : s.wrap a = s.wrap b ↔ a = b := by
  constructor
  · intro heq
    obtain ⟨hlow, hhigh⟩ := abs_le.mp h
    rcases wrap_sub_cases hs h with hsub | ⟨hsub, -⟩ | ⟨hsub, -⟩ <;> omega
  · rintro rfl
    rfl

/-- The distance of close counters. -/
theorem off_wrap {a b : ℤ} (h : |a - b| < s.threshold) : s.off (s.wrap a) (s.wrap b) = b - a := by
  have hpos := hs.threshold_pos
  have hle := hs.threshold_le
  obtain ⟨hlow, hhigh⟩ := abs_lt.mp h
  simp only [off, abs_lt]
  rcases wrap_sub_cases hs (a := a) (b := b) (by rw [abs_le]; omega) with hsub | ⟨hsub, hlt⟩ | ⟨hsub, hlt⟩
  · rw [if_pos (by omega), hsub]
  · rw [if_neg (by omega), if_neg (by omega)]
    omega
  · rw [if_neg (by omega), if_pos (by omega)]
    omega

/-- Close counters are ordered as their numbers compare. -/
theorem cmp_wrap_neg {a b : ℤ} (h : |a - b| < s.threshold) :
    s.cmp (s.wrap a) (s.wrap b) < 0 ↔ a < b := by
  have hpos := hs.threshold_pos
  have hle := hs.threshold_le
  obtain ⟨hlow, hhigh⟩ := abs_lt.mp h
  simp only [cmp, abs_lt]
  rcases wrap_sub_cases hs (a := a) (b := b) (by rw [abs_le]; omega) with hsub | ⟨hsub, hlt⟩ | ⟨hsub, hlt⟩
  · rw [if_pos (by omega)]
    omega
  · rw [if_neg (by omega)]
    omega
  · rw [if_neg (by omega)]
    omega

omit hs in
/-- Comparing the other way round changes the sign. -/
theorem cmp_symm (x y : ℤ) : s.cmp x y = -s.cmp y x := by
  unfold cmp
  rw [abs_sub_comm]
  split <;> omega

/-- The greater of close counters has the greater number. -/
theorem cmp_wrap_pos {a b : ℤ} (h : |a - b| < s.threshold) :
    0 < s.cmp (s.wrap a) (s.wrap b) ↔ b < a := by
  rw [cmp_symm, ← cmp_wrap_neg hs (a := b) (b := a) (by rwa [abs_sub_comm])]
  omega

/-- The length from a counter to a later one. -/
theorem len_wrap {a b : ℤ} (h : a ≤ b) (hlt : b - a ≤ s.max) :
    s.len (s.wrap a) (s.wrap b) = b - a + 1 := by
  unfold len
  rcases wrap_sub_cases hs (a := a) (b := b) (by rw [abs_le]; omega) with hsub | ⟨hsub, -⟩ | ⟨-, hlt⟩
  · rw [if_pos (by omega), hsub]
  · rw [if_neg (by omega)]
    omega
  · omega

/-- The next number is that of the next counter. -/
theorem inc_wrap (n : ℤ) : s.inc (s.wrap n) = s.wrap (n + 1) := by
  have hmax := hs.max_pos
  have hbounds := wrap_bounds hs n
  rw [wrap_add hs n (by omega) (by omega), inc]
  split_ifs <;> omega

/-- The number before is that of the counter before. -/
theorem dec_wrap (n : ℤ) : s.dec (s.wrap n) = s.wrap (n - 1) := by
  have hinc := inc_wrap hs (n - 1)
  have hbounds := wrap_bounds hs (n - 1)
  rw [Int.sub_add_cancel] at hinc
  rw [← hinc, inc, dec]
  split_ifs <;> omega

end SerialNumber

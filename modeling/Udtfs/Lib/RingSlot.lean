import Mathlib.Algebra.Order.Group.Abs
import Mathlib.Algebra.Order.Group.Unbundled.Int
import Mathlib.Algebra.Order.Group.Int
import Mathlib.Data.Int.Notation

/-!
# Slots of a ring

Consecutive integers take the slots of a ring in turn. Integers that are closer to each other than the
size of the ring have different slots.
-/

namespace RingSlot

/-- The slot of an integer, where `-c` has the slot zero. -/
def slot (size c n : ℤ) : ℤ := (n + c) % size

variable {size c m n d : ℤ}

/-- A slot is not negative. -/
theorem slot_nonneg (hsize : 0 < size) : 0 ≤ slot size c n := Int.emod_nonneg _ (by omega)

/-- A slot lies in the array. -/
theorem slot_lt (hsize : 0 < size) : slot size c n < size := Int.emod_lt_of_pos _ hsize

/-- Different numbers less than a round apart have different slots. -/
theorem slot_ne (hne : m ≠ n) (hmn : m - n < size) (hnm : n - m < size) : slot size c m ≠ slot size c n := by
  intro heq
  have hdvd : size ∣ m + c - (n + c) :=
    Int.dvd_of_emod_eq_zero (Int.emod_eq_emod_iff_emod_sub_eq_zero.mp heq)
  have hzero : m + c - (n + c) = 0 := by
    refine Int.eq_zero_of_abs_lt_dvd hdvd ?_
    rw [abs_lt]
    omega
  omega

/-- So the slot tells which of them it is. -/
theorem slot_inj (hmn : m - n < size) (hnm : n - m < size) : slot size c m = slot size c n ↔ m = n :=
  ⟨fun heq => by_contra fun hne => slot_ne hne hmn hnm heq, fun heq => by rw [heq]⟩

/-- The number of the origin has the first slot. -/
@[simp] theorem slot_origin : slot size (-n) n = 0 := by simp [slot]

/-- Going once around leads to the same slot. -/
theorem slot_add_emod : slot size c (n + d % size) = slot size c (n + d) := by
  have hsum : n + d % size + c = d % size + (n + c) := by omega
  rw [slot, slot, hsum, Int.emod_add_emod]
  congr 1
  omega

/-- The slot so far ahead, as it is computed with a remainder that rounds towards zero. -/
theorem slot_add (hd : 0 ≤ slot size c n + d) :
    (slot size c n + d).tmod size = slot size c (n + d) := by
  rw [Int.tmod_eq_emod_of_nonneg hd, slot, slot, Int.emod_add_emod]
  congr 1
  omega

/-- The same with the size added first, where the distance may be negative. -/
theorem slot_add_size (hd : 0 ≤ slot size c n + d + size) :
    (slot size c n + d + size).tmod size = slot size c (n + d) := by
  rw [Int.tmod_eq_emod_of_nonneg hd, Int.add_emod_right, slot, slot, Int.emod_add_emod]
  congr 1
  omega

/-- The next slot, with a comparison instead of a remainder. -/
theorem slot_next (hsize : 0 < size) :
    (if slot size c n + 1 = size then 0 else slot size c n + 1) = slot size c (n + 1) := by
  have hnonneg := slot_nonneg (c := c) (n := n) hsize
  have hlt := slot_lt (c := c) (n := n) hsize
  rw [← slot_add (d := 1) (by omega), Int.tmod_eq_emod_of_nonneg (by omega)]
  split_ifs with hend
  · rw [hend, Int.emod_self]
  · exact (Int.emod_eq_of_lt (by omega) (by omega)).symm

/-- The slots differ by the distance, up to once around. -/
theorem slot_sub (hsize : 0 < size) (hmn : m ≤ n) (hnm : n - m < size) :
    n - m = if slot size c m ≤ slot size c n then slot size c n - slot size c m
      else size + slot size c n - slot size c m := by
  have hm := slot_nonneg (c := c) (n := m) hsize
  have hm' := slot_lt (c := c) (n := m) hsize
  have hadd := @slot_add size c m (n - m) (by omega)
  rw [Int.tmod_eq_emod_of_nonneg (by omega), show m + (n - m) = n by omega] at hadd
  rcases lt_or_ge (slot size c m + (n - m)) size with hlt | hge
  · rw [Int.emod_eq_of_lt (by omega) hlt] at hadd
    rw [if_pos (by omega)]
    omega
  · have hsub : (slot size c m + (n - m)) % size = slot size c m + (n - m) - size := by
      rw [← Int.sub_emod_right]
      exact Int.emod_eq_of_lt (by omega) (by omega)
    rw [hsub] at hadd
    rw [if_neg (by omega)]
    omega

end RingSlot

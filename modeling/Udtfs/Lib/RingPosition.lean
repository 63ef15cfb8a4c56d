import Mathlib.Logic.Function.Iterate
import Mathlib.Tactic.Common

/-!
# Places on a ring

The places of a circular list are numbered from an arbitrary one on. Places may be inserted behind
any of them, which renumbers those that follow; distances along the ring that do not pass the
insertion stay the same.
-/

namespace RingPosition

/-- The next place on a ring of `n`. -/
def next (n i : ℕ) : ℕ := if i + 1 = n then 0 else i + 1

/-- The place so many steps ahead, less than once around. -/
def ahead (n i k : ℕ) : ℕ := if i + k < n then i + k else i + k - n

/-- The number of steps from one place ahead to another. -/
def steps (n i j : ℕ) : ℕ := if i ≤ j then j - i else j + n - i

/-- The number of a place after `u` places are inserted behind another. -/
def inserted (u place i : ℕ) : ℕ := if place < i then i + u else i

variable {n i j k d : ℕ}

/-- Every position lies on the ring. -/
theorem ahead_lt (hi : i < n) (hk : k < n) : ahead n i k < n := by
  unfold ahead
  split_ifs <;> omega

/-- No step leads to the position itself. -/
@[simp] theorem ahead_zero (hi : i < n) : ahead n i 0 = i := by
  rw [ahead, Nat.add_zero, if_pos hi]

/-- Steps add up. -/
theorem ahead_ahead (hi : i < n) (h : j + k < n) : ahead n (ahead n i j) k = ahead n i (j + k) := by
  unfold ahead
  split_ifs <;> omega

/-- The next position is one step ahead. -/
theorem next_eq_ahead (hi : i < n) : next n i = ahead n i 1 := by
  unfold next ahead
  split_ifs <;> omega

/-- Going from place to place leads as many steps ahead. -/
theorem iterate_next (hi : i < n) (hk : k < n) : (next n)^[k] i = ahead n i k := by
  induction k with
  | zero => rw [Function.iterate_zero_apply, ahead_zero hi]
  | succ k ih =>
    have hk' : k < n := by omega
    rw [Function.iterate_succ_apply', ih hk', next_eq_ahead (ahead_lt hi hk'), ahead_ahead hi hk]

/-- The steps to a place ahead are those taken. -/
theorem steps_ahead (hk : k < n) : steps n i (ahead n i k) = k := by
  unfold steps ahead
  split_ifs <;> omega

/-- A place ahead is the same one exactly if no steps were taken. -/
theorem ahead_eq_iff (hj : j < n) (hk : k < n) :
    ahead n i j = ahead n i k ↔ j = k := by
  unfold ahead
  split_ifs <;> omega

/-- Places inserted behind the last of some places ahead do not change how far ahead these are. -/
theorem inserted_ahead (u : ℕ) (hd : d < n) (hk : k ≤ d) :
    inserted u (ahead n i d) (ahead n i k) = ahead (n + u) (inserted u (ahead n i d) i) k := by
  unfold inserted ahead
  split_ifs <;> omega

/-- An inserted place keeps its number. -/
@[simp] theorem inserted_self (u place : ℕ) : inserted u place place = place := by
  rw [inserted, if_neg (Nat.lt_irrefl place)]

/-- Positions lie on the larger ring after an insertion. -/
theorem inserted_lt (u place : ℕ) (hi : i < n) : inserted u place i < n + u := by
  unfold inserted
  split_ifs <;> omega

end RingPosition

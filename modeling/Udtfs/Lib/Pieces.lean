import Mathlib.Data.Int.Notation
import Mathlib.Data.List.Infix
import Mathlib.Tactic.Common

/-!
# A stream in numbered pieces

Lists that are numbered by integers, joined from one number to another, and streams that two sides cut into
pieces of the same lengths.
-/

namespace Pieces

variable {α : Type*}

/-- The pieces from the number `m` to before the number `n`, joined. -/
def joined (f : ℤ → List α) (m n : ℤ) : List α :=
  ((List.range (n - m).toNat).map fun i : ℕ => f (m + (i : ℤ))).flatten

variable {f g : ℤ → List α} {m n k : ℤ}

/-- No pieces are no bytes. -/
@[simp] theorem joined_self (f : ℤ → List α) (m : ℤ) : joined f m m = [] := by
  simp [joined]

/-- The first piece and the rest. -/
theorem joined_cons (h : m < n) : joined f m n = f m ++ joined f (m + 1) n := by
  have hcount : (n - m).toNat = (n - (m + 1)).toNat + 1 := by omega
  have hshift : ∀ i : ℕ, m + ((i + 1 : ℕ) : ℤ) = m + 1 + i := by omega
  rw [joined, joined, hcount, List.range_succ_eq_map, List.map_cons, List.map_map, List.flatten_cons]
  congr 1
  · simp
  · congr 1
    exact List.map_congr_left fun i _ => congrArg f (hshift i)

/-- Pieces up to a number and those behind it. -/
theorem joined_append (hmk : m ≤ k) (hkn : k ≤ n) : joined f m n = joined f m k ++ joined f k n := by
  obtain ⟨d, hd⟩ : ∃ d : ℕ, k = m + d := ⟨(k - m).toNat, by omega⟩
  induction d generalizing m with
  | zero =>
    have heq : m = k := by omega
    rw [heq, joined_self, List.nil_append]
  | succ d ih =>
    rw [joined_cons (by omega), joined_cons (n := k) (by omega), ih (by omega) (by omega), List.append_assoc]

/-- Only the pieces between the numbers matter. -/
theorem joined_congr (h : ∀ i, m ≤ i → i < n → f i = g i) : joined f m n = joined g m n := by
  unfold joined
  congr 1
  refine List.map_congr_left fun i hi => ?_
  rw [List.mem_range] at hi
  exact h (m + i) (by omega) (by omega)

/-- What is cut from a stream is what it was joined from: both sides use the same lengths, and one of them may be
ahead of the other only by pieces without length. The last piece may not be complete on either side. -/
theorem cut_eq {pieces cut : List (List α)} {lengths : List ℕ} {last rest : List α}
    (hpieces : pieces.map List.length <+: lengths) (hlast : ∀ k, lengths[pieces.length]? = some k → last.length ≤ k)
    (hcut : cut.map List.length <+: lengths) (hrest : ∀ k, lengths[cut.length]? = some k → rest.length ≤ k)
    (hstream : cut.flatten ++ rest <+: pieces.flatten ++ last) :
    (∀ (i : ℕ) piece, cut[i]? = some piece → piece = (pieces ++ [last])[i]?.getD []) ∧
      (cut.length < lengths.length → rest <+: (pieces ++ [last])[cut.length]?.getD []) := by
  induction cut generalizing pieces lengths with
  | nil =>
    refine ⟨fun i piece h => by simp at h, fun _ => ?_⟩
    cases pieces with
    | nil => exact hstream
    | cons piece pieces =>
      obtain ⟨later, rfl⟩ := hpieces
      have hle : rest.length ≤ piece.length := hrest _ rfl
      rw [List.flatten_nil, List.nil_append, List.flatten_cons, List.append_assoc] at hstream
      exact List.prefix_of_prefix_length_le hstream (List.prefix_append _ _) hle
  | cons first cut ih =>
    obtain ⟨later, rfl⟩ := hcut
    rw [List.flatten_cons, List.append_assoc] at hstream
    cases pieces with
    | nil =>
      obtain rfl : first = last :=
        ((List.prefix_append _ _).trans hstream).eq_of_length_le (hlast _ rfl)
      have hnone : cut.flatten ++ rest = [] := by
        have hle := hstream.length_le
        rw [List.length_append, List.flatten_nil, List.nil_append] at hle
        exact List.eq_nil_of_length_eq_zero (by omega)
      obtain ⟨hflatten, rfl⟩ := List.append_eq_nil_iff.mp hnone
      refine ⟨fun i piece h => ?_, fun _ => List.nil_prefix⟩
      cases i with
      | zero => exact (Option.some.inj h).symm
      | succ i => exact List.flatten_eq_nil_iff.mp hflatten piece (List.mem_of_getElem? h)
    | cons piece pieces =>
      rw [List.map_cons, List.map_cons, List.cons_append, List.cons_prefix_cons] at hpieces
      obtain ⟨hlength, hpieces⟩ := hpieces
      rw [List.flatten_cons, List.append_assoc] at hstream
      obtain rfl : first = piece := by
        have hprefix := List.prefix_of_prefix_length_le ((List.prefix_append _ _).trans hstream)
          (List.prefix_append _ _) hlength.ge
        exact hprefix.eq_of_length hlength.symm
      obtain ⟨heq, hend⟩ := ih hpieces hlast (List.prefix_append _ _) hrest
        ((List.prefix_append_right_inj _).mp hstream)
      refine ⟨fun i p h => ?_, fun h => hend (Nat.lt_of_succ_lt_succ h)⟩
      cases i with
      | zero => exact (Option.some.inj h).symm
      | succ i => exact heq i p h

end Pieces

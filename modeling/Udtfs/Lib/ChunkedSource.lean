import Mathlib.Algebra.GroupWithZero.Nat
import Mathlib.Data.List.Basic
import Mathlib.Tactic.Common

/-!
# Reading a source in chunks

A source hands out its data on request and stops when it has less than it was asked for, as a file
does at its end. Reading it in chunks until it stops yields the same data and leaves the same
source as one read of the whole amount, however the chunks are chosen.
-/

/-- A source of data in a state `σ`. A read of a source that has not stopped may be split at any
point; the second part is read only if the first is complete. -/
structure ChunkedSource (σ α : Type*) where
  stopped : σ → Bool
  read : σ → ℕ → List α × σ
  read_zero : ∀ s, stopped s = false → read s 0 = ([], s)
  read_length_le : ∀ s n, (read s n).1.length ≤ n
  stopped_read : ∀ s n, stopped s = false →
    stopped (read s n).2 = decide ((read s n).1.length < n)
  read_add : ∀ s m n, stopped s = false →
    read s (m + n) =
      if (read s m).1.length < m then read s m
      else ((read s m).1 ++ (read (read s m).2 n).1, (read (read s m).2 n).2)

namespace ChunkedSource

variable {σ α : Type*} (src : ChunkedSource σ α)

/-- Read chunks of these sizes, until the source has stopped or a chunk is empty. -/
def readChunks : List ℕ → σ → List (List α) × σ
  | [], s => ([], s)
  | n :: sizes, s =>
    if src.stopped s then ([], s) else
    let chunk := src.read s n
    if chunk.1.length ≤ 0 then ([], chunk.2) else
    let later := readChunks sizes chunk.2
    (chunk.1 :: later.1, later.2)

/-- A source that has stopped yields no chunks. -/
theorem readChunks_stopped {s : σ} (h : src.stopped s = true) (sizes : List ℕ) :
    src.readChunks sizes s = ([], s) := by
  cases sizes with
  | nil => rfl
  | cons n sizes => rw [readChunks, h, if_pos rfl]

/-- A source that yields an empty chunk has stopped, and yields nothing more. -/
theorem readChunks_cons_empty {s : σ} (h : src.stopped s = false) {n : ℕ}
    (hempty : (src.read s n).1.length = 0) (sizes : List ℕ) :
    src.readChunks (n :: sizes) s = ([], (src.read s n).2) := by
  rw [readChunks, h, if_neg (by decide)]
  exact if_pos (Nat.le_of_eq hempty)

/-- A chunk that is not empty is followed by the chunks of the rest. -/
theorem readChunks_cons {s : σ} (h : src.stopped s = false) {n : ℕ}
    (hsome : 0 < (src.read s n).1.length) (sizes : List ℕ) :
    src.readChunks (n :: sizes) s =
      ((src.read s n).1 :: (src.readChunks sizes (src.read s n).2).1,
        (src.readChunks sizes (src.read s n).2).2) := by
  rw [readChunks, h, if_neg (by decide)]
  exact if_neg (by omega)

/-- A short read is the end of every longer one. -/
theorem read_add_short {s : σ} (h : src.stopped s = false) {m : ℕ}
    (hshort : (src.read s m).1.length < m) (n : ℕ) : src.read s (m + n) = src.read s m := by
  rw [src.read_add s m n h, if_pos hshort]

/-- A complete read leaves a source that has not stopped. -/
theorem stopped_of_complete {s : σ} (h : src.stopped s = false) {n : ℕ}
    (hcomplete : n ≤ (src.read s n).1.length) : src.stopped (src.read s n).2 = false := by
  rw [src.stopped_read s n h, decide_eq_false_iff_not]
  omega

/-- Reading in chunks is reading the whole amount at once: where the source stops within a chunk, no
other chunk follows. -/
theorem readChunks_eq_read {sizes : List ℕ} (hsizes : ∀ n ∈ sizes, 0 < n) {s : σ}
    (h : src.stopped s = false) :
    ((src.readChunks sizes s).1.flatten, (src.readChunks sizes s).2) = src.read s sizes.sum := by
  induction sizes generalizing s with
  | nil => rw [readChunks, List.flatten_nil, List.sum_nil, src.read_zero s h]
  | cons n sizes ih =>
    obtain ⟨hn, hrest⟩ := List.forall_mem_cons.mp hsizes
    rw [List.sum_cons]
    by_cases hshort : (src.read s n).1.length < n
    · have hstopped : src.stopped (src.read s n).2 = true := by
        rw [src.stopped_read s n h, decide_eq_true hshort]
      rw [src.read_add_short h hshort]
      by_cases hempty : (src.read s n).1.length = 0
      · rw [src.readChunks_cons_empty h hempty, List.flatten_nil,
          ← List.length_eq_zero_iff.mp hempty]
      · rw [src.readChunks_cons h (by omega), src.readChunks_stopped hstopped,
          List.flatten_singleton]
    · have hgoes := src.stopped_of_complete h (n := n) (by omega)
      have hlater := ih hrest hgoes
      rw [src.readChunks_cons h (by omega), src.read_add s n sizes.sum h, if_neg hshort, ← hlater,
        List.flatten_cons]

/-- No chunk is empty. -/
theorem readChunks_ne_nil (sizes : List ℕ) (s : σ) : ∀ chunk ∈ (src.readChunks sizes s).1, chunk ≠ [] := by
  induction sizes generalizing s with
  | nil => simp [readChunks]
  | cons n sizes ih =>
    cases hstopped : src.stopped s with
    | true => simp [src.readChunks_stopped hstopped]
    | false =>
      by_cases hempty : (src.read s n).1.length = 0
      · simp [src.readChunks_cons_empty hstopped hempty]
      · rw [src.readChunks_cons hstopped (by omega), List.forall_mem_cons]
        exact ⟨List.length_pos_iff.mp (by omega), ih _⟩

/-- No chunk is larger than one of the sizes. -/
theorem readChunks_le (sizes : List ℕ) (s : σ) :
    ∀ chunk ∈ (src.readChunks sizes s).1, ∃ n ∈ sizes, chunk.length ≤ n := by
  induction sizes generalizing s with
  | nil => simp [readChunks]
  | cons n sizes ih =>
    intro chunk hchunk
    rw [readChunks] at hchunk
    dsimp only at hchunk
    split_ifs at hchunk
    · simp at hchunk
    · simp at hchunk
    · rcases List.mem_cons.mp hchunk with rfl | hchunk
      · exact ⟨n, List.mem_cons_self, src.read_length_le s n⟩
      · obtain ⟨m, hm, hle⟩ := ih _ chunk hchunk
        exact ⟨m, List.mem_cons_of_mem n hm, hle⟩

/-- No more chunks are read than are asked for. -/
theorem readChunks_length_le (sizes : List ℕ) (s : σ) :
    (src.readChunks sizes s).1.length ≤ sizes.length := by
  induction sizes generalizing s with
  | nil => exact Nat.le_refl 0
  | cons n sizes ih =>
    rw [readChunks]
    dsimp only
    split_ifs
    · exact Nat.zero_le _
    · exact Nat.zero_le _
    · exact Nat.succ_le_succ (ih _)

/-- Less than the first of some numbers exceeds the sum without the last one exactly if the first is
also the last and there is something. -/
theorem dropLast_sum_lt_iff {n k : ℕ} (hk : k < n) (sizes : List ℕ) :
    (n :: sizes).dropLast.sum < k ↔ 0 < k ∧ sizes = [] := by
  cases sizes with
  | nil => simp
  | cons m sizes =>
    rw [List.dropLast_cons_of_ne_nil (List.cons_ne_nil m sizes), List.sum_cons]
    simp only [reduceCtorEq, and_false, iff_false]
    omega

/-- As many chunks are read as were asked for exactly if the data reach into the last one. -/
theorem readChunks_length_iff {sizes : List ℕ} (hsizes : ∀ n ∈ sizes, 0 < n) (s : σ) :
    (src.readChunks sizes s).1.length = sizes.length ↔
      sizes = [] ∨ src.stopped s = false ∧ sizes.dropLast.sum < (src.read s sizes.sum).1.length := by
  induction sizes generalizing s with
  | nil => exact iff_of_true rfl (Or.inl rfl)
  | cons n sizes ih =>
    obtain ⟨hn, hrest⟩ := List.forall_mem_cons.mp hsizes
    rw [or_iff_right (List.cons_ne_nil n sizes)]
    cases h : src.stopped s with
    | true =>
      rw [src.readChunks_stopped h]
      simp
    | false =>
      rw [and_iff_right rfl, List.sum_cons]
      by_cases hshort : (src.read s n).1.length < n
      · have hstopped : src.stopped (src.read s n).2 = true := by
          rw [src.stopped_read s n h, decide_eq_true hshort]
        rw [src.read_add_short h hshort, dropLast_sum_lt_iff hshort]
        by_cases hempty : (src.read s n).1.length = 0
        · rw [src.readChunks_cons_empty h hempty]
          simp [hempty]
        · rw [src.readChunks_cons h (by omega), src.readChunks_stopped hstopped]
          simp [Nat.pos_of_ne_zero hempty]
      · have hcomplete : (src.read s n).1.length = n :=
          Nat.le_antisymm (src.read_length_le s n) (by omega)
        have hgoes := src.stopped_of_complete h (n := n) (by omega)
        rw [src.readChunks_cons h (by omega), src.read_add s n sizes.sum h, if_neg hshort,
          List.length_cons, List.length_cons, Nat.add_right_cancel_iff, ih hrest,
          and_iff_right hgoes, List.length_append, hcomplete]
        cases sizes with
        | nil =>
          apply iff_of_true (Or.inl rfl)
          rw [List.dropLast_singleton, List.sum_nil]
          omega
        | cons m sizes =>
          rw [List.dropLast_cons_of_ne_nil (List.cons_ne_nil m sizes), List.sum_cons]
          simp

end ChunkedSource

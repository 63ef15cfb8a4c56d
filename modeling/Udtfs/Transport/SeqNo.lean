import Udtfs.Lib.SerialNumber

/-!
# Sequence numbers of the transport

`common.h` and `core.cpp`: the numbers of packets, of messages and of acknowledgements. A packet has an
index, from the first one of the connection on and without bound; the number it carries is the index
wrapped around.
-/

namespace Udtfs

/-- `CSeqNo`: `m_iMaxSeqNo` and `m_iSeqNoTH`. -/
def CSeqNo : SerialNumber := ⟨0x7FFFFFFF, 0x3FFFFFFF⟩

/-- The threshold is half of the numbers. -/
theorem CSeqNo.valid : CSeqNo.Valid := ⟨by decide, by decide⟩

/-- `CAckNo::incack`. -/
def incack (ackno : ℤ) : ℤ := if ackno = 0x7FFFFFFF then 0 else ackno + 1

/-- `CSeqNo::seqcmp`. -/
def seqcmp (seq1 seq2 : ℤ) : ℤ := CSeqNo.cmp seq1 seq2

/-- `CSeqNo::seqlen`. -/
def seqlen (seq1 seq2 : ℤ) : ℤ := CSeqNo.len seq1 seq2

/-- `CSeqNo::seqoff`. -/
def seqoff (seq1 seq2 : ℤ) : ℤ := CSeqNo.off seq1 seq2

/-- `CSeqNo::incseq`. -/
def incseq (seq : ℤ) : ℤ := CSeqNo.inc seq

/-- `CSeqNo::decseq`. -/
def decseq (seq : ℤ) : ℤ := CSeqNo.dec seq

/-- The sequence number of the packet with an index. -/
def seqOf (index : ℤ) : ℤ := CSeqNo.wrap index

/-- The number of an ACK, where the first one has the index one. -/
def ackOf (n : ℕ) : ℤ := CSeqNo.wrap n

/-- Two indices are closer to each other than `m_iSeqNoTH`. -/
def Near (a b : ℤ) : Prop := |a - b| < CSeqNo.threshold

/-- Near indices, by their differences. -/
theorem near_iff {a b : ℤ} : Near a b ↔ a - b < 0x3FFFFFFF ∧ b - a < 0x3FFFFFFF := by
  unfold Near
  rw [abs_lt, show CSeqNo.threshold = 0x3FFFFFFF from rfl]
  omega

section
variable {a b : ℤ}

/-- Indices are near each other where they fit into less than the threshold. -/
theorem near_of_le {size : ℤ} (hsize : size < CSeqNo.threshold) (hab : a - b ≤ size) (hba : b - a ≤ size) :
    Near a b :=
  (abs_le.mpr ⟨by omega, hab⟩).trans_lt hsize

/-- Nearness has no direction. -/
theorem Near.symm (h : Near a b) : Near b a := by
  rwa [Near, abs_sub_comm] at h

/-- No packet has a negative number. -/
theorem seqOf_nonneg (n : ℤ) : 0 ≤ seqOf n := (SerialNumber.wrap_bounds CSeqNo.valid n).1

/-- The mark of an empty place is the number of no packet. -/
theorem seqOf_ne_neg_one (n : ℤ) : seqOf n ≠ -1 := by
  have hpos := seqOf_nonneg n
  omega

/-- Near indices have the same number only if they are the same. -/
theorem seqOf_inj (h : Near a b) : seqOf a = seqOf b ↔ a = b := by
  refine SerialNumber.wrap_inj CSeqNo.valid (le_of_lt (h.trans_le ?_))
  decide

/-- Numbers of near indices compare as the indices do: less. -/
theorem seqcmp_neg (h : Near a b) : seqcmp (seqOf a) (seqOf b) < 0 ↔ a < b :=
  SerialNumber.cmp_wrap_neg CSeqNo.valid h

/-- Numbers of near indices compare as the indices do: greater. -/
theorem seqcmp_pos (h : Near a b) : 0 < seqcmp (seqOf a) (seqOf b) ↔ b < a :=
  SerialNumber.cmp_wrap_pos CSeqNo.valid h

/-- Numbers of near indices compare as the indices do: at most. -/
theorem seqcmp_nonpos (h : Near a b) : seqcmp (seqOf a) (seqOf b) ≤ 0 ↔ a ≤ b := by
  rw [← not_lt, seqcmp_pos h, not_lt]

/-- Numbers of near indices compare as the indices do: at least. -/
theorem seqcmp_nonneg (h : Near a b) : 0 ≤ seqcmp (seqOf a) (seqOf b) ↔ b ≤ a := by
  rw [← not_lt, seqcmp_neg h, not_lt]

/-- The offset between near numbers is that between their indices. -/
theorem seqoff_seqOf (h : Near a b) : seqoff (seqOf a) (seqOf b) = b - a :=
  SerialNumber.off_wrap CSeqNo.valid h

/-- The length from one near number to another is that of the indices. -/
theorem seqlen_seqOf (hle : a ≤ b) (h : Near a b) : seqlen (seqOf a) (seqOf b) = b - a + 1 := by
  refine SerialNumber.len_wrap CSeqNo.valid hle ?_
  have hnear := near_iff.mp h
  rw [show CSeqNo.max = 0x7FFFFFFF from rfl]
  omega

/-- The next number is that of the next packet. -/
@[simp] theorem incseq_seqOf (n : ℤ) : incseq (seqOf n) = seqOf (n + 1) :=
  SerialNumber.inc_wrap CSeqNo.valid n

/-- The number before is that of the packet before. -/
@[simp] theorem decseq_seqOf (n : ℤ) : decseq (seqOf n) = seqOf (n - 1) :=
  SerialNumber.dec_wrap CSeqNo.valid n

/-- The next ACK has the next number. -/
@[simp] theorem incack_ackOf (n : ℕ) : incack (ackOf n) = ackOf (n + 1) :=
  SerialNumber.inc_wrap CSeqNo.valid n

/-- ACKs that are not a whole circle apart have different numbers. -/
theorem ackOf_inj {m n : ℕ} (hmn : (m : ℤ) - n ≤ 0x7FFFFFFF) (hnm : (n : ℤ) - m ≤ 0x7FFFFFFF) :
    ackOf m = ackOf n ↔ m = n := by
  rw [ackOf, ackOf, SerialNumber.wrap_inj CSeqNo.valid, Int.natCast_inj]
  exact abs_le.mpr ⟨by rw [show CSeqNo.max = 0x7FFFFFFF from rfl]; omega, hmn⟩

/-- The current number where the packets begin at `first` and `n` is the last one: `m_iISN - 1` at first. -/
def currSeq (first n : ℤ) : ℤ := if n < first then seqOf first - 1 else seqOf n

/-- Once a packet was sent, the current number is its own. -/
theorem currSeq_of_le {first n : ℤ} (h : first ≤ n) : currSeq first n = seqOf n := if_neg (not_lt.mpr h)

/-- The number behind the current one is that of the next packet. -/
@[simp] theorem incseq_currSeq {first n : ℤ} (h : first ≤ n + 1) : incseq (currSeq first n) = seqOf (n + 1) := by
  by_cases hn : n < first
  · have hbounds := SerialNumber.wrap_bounds CSeqNo.valid first
    rw [currSeq, if_pos hn, show n + 1 = first by omega, incseq, SerialNumber.inc, if_neg]
    · omega
    · rw [seqOf]
      omega
  · rw [currSeq_of_le (not_lt.mp hn), incseq_seqOf]

/-- Packets are compared with the current number as with any other one. -/
theorem seqcmp_currSeq {first n m : ℤ} (hn : first ≤ n + 1) (hm : first ≤ m) (h : Near m n) :
    0 < seqcmp (seqOf m) (currSeq first n) ↔ n < m := by
  by_cases hnone : n < first
  · have hnear := near_iff.mp h
    have hmax : CSeqNo.max = 0x7FFFFFFF := rfl
    have hthreshold : CSeqNo.threshold = 0x3FFFFFFF := rfl
    have hbounds := SerialNumber.wrap_bounds CSeqNo.valid first
    have hadd := SerialNumber.wrap_add CSeqNo.valid first (d := m - first) (by omega) (by omega)
    rw [add_sub_cancel] at hadd
    refine iff_of_true ?_ (by omega)
    rw [currSeq, if_pos hnone, seqcmp, SerialNumber.cmp, seqOf, seqOf, hthreshold]
    split at hadd
    · rw [abs_of_nonneg (by omega), if_pos (by omega)]
      omega
    · rw [abs_of_neg (by omega), if_neg (by omega)]
      omega
  · rw [currSeq_of_le (not_lt.mp hnone), seqcmp_pos h]

end

end Udtfs

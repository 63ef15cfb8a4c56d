import Mathlib.Data.Nat.Bitwise
import Udtfs.Transport.RcvLossList
import Udtfs.Transport.SndLossList

/-!
# Loss reports

A loss report (NAK) carries intervals of sequence numbers as 32 bit words: a single number as it is, and a
longer interval as its first number with the top bit set and its last number. `getLossArray` writes the
receiver's loss list into a packet, as far as it fits, and `processCtrl` inserts what it reads into the
sender's list.
-/

namespace Udtfs

open LinkedSlots Spans LossArrays

/-- A sequence number in a packet. -/
def seqWord (seqno : ℤ) : BitVec 32 := BitVec.ofInt 32 seqno

/-- `word |= 0x80000000`. -/
def markWord (w : BitVec 32) : BitVec 32 := w ||| 0x80000000#32

/-- `0 != (word & 0x80000000)`. -/
def isMarked (w : BitVec 32) : Bool := w &&& 0x80000000#32 != 0#32

/-- `word & 0x7FFFFFFF`. -/
def unmarkWord (w : BitVec 32) : BitVec 32 := w &&& 0x7FFFFFFF#32

/-- An interval in a loss report. -/
def spanWords (seqno1 seqno2 : ℤ) : List (BitVec 32) :=
  if seqno1 = seqno2 then [seqWord seqno2] else [markWord (seqWord seqno1), seqWord seqno2]

section
variable {n : ℤ}

/-- The word of a number, without a sign. -/
theorem toNat_seqWord (h₀ : 0 ≤ n) (h : n ≤ 0x7FFFFFFF) : (seqWord n).toNat = n.toNat := by
  rw [seqWord, BitVec.toNat_ofInt]
  omega

/-- The mark adds the top bit. -/
theorem toNat_markWord (h₀ : 0 ≤ n) (h : n ≤ 0x7FFFFFFF) :
    (markWord (seqWord n)).toNat = 2 ^ 31 + n.toNat := by
  have hlt : n.toNat < 2 ^ 31 := by omega
  have hor := Nat.two_pow_add_eq_or_of_lt hlt 1
  rw [Nat.mul_one] at hor
  rw [markWord, BitVec.toNat_or, toNat_seqWord h₀ h, Nat.or_comm, hor]
  rfl

/-- The word of a number is read back. -/
theorem toInt_seqWord (h₀ : 0 ≤ n) (h : n ≤ 0x7FFFFFFF) : (seqWord n).toInt = n := by
  rw [BitVec.toInt_eq_toNat_cond, toNat_seqWord h₀ h]
  split_ifs <;> omega

/-- The word of a number is not marked. -/
theorem isMarked_seqWord (h₀ : 0 ≤ n) (h : n ≤ 0x7FFFFFFF) : isMarked (seqWord n) = false := by
  have hlt : n.toNat < 2 ^ 31 := by omega
  have hand : (seqWord n &&& 0x80000000#32) = 0#32 := by
    apply BitVec.eq_of_toNat_eq
    rw [BitVec.toNat_and, toNat_seqWord h₀ h]
    change n.toNat &&& 2 ^ 31 = 0
    rw [Nat.and_two_pow, Nat.testBit_lt_two_pow hlt]
    rfl
  rw [isMarked, hand]
  rfl

/-- A marked word is marked. -/
theorem isMarked_markWord (h₀ : 0 ≤ n) (h : n ≤ 0x7FFFFFFF) : isMarked (markWord (seqWord n)) = true := by
  have hlt : n.toNat < 2 ^ 31 := by omega
  have hand : (markWord (seqWord n) &&& 0x80000000#32) ≠ 0#32 := by
    intro heq
    have hnat := congrArg BitVec.toNat heq
    rw [BitVec.toNat_and, toNat_markWord h₀ h] at hnat
    change (2 ^ 31 + n.toNat) &&& 2 ^ 31 = 0 at hnat
    rw [Nat.and_two_pow, Nat.testBit_two_pow_add_eq, Nat.testBit_lt_two_pow hlt] at hnat
    simp at hnat
  rw [isMarked, bne_iff_ne]
  exact hand

/-- A number is read back below its mark. -/
theorem toInt_unmarkWord (h₀ : 0 ≤ n) (h : n ≤ 0x7FFFFFFF) :
    (unmarkWord (markWord (seqWord n))).toInt = n := by
  have hlt : n.toNat < 2 ^ 31 := by omega
  have hnat : (unmarkWord (markWord (seqWord n))).toNat = n.toNat := by
    rw [unmarkWord, BitVec.toNat_and, toNat_markWord h₀ h]
    change (2 ^ 31 + n.toNat) &&& (2 ^ 31 - 1) = n.toNat
    rw [Nat.and_two_pow_sub_one_eq_mod]
    omega
  rw [BitVec.toInt_eq_toNat_cond, hnat]
  split_ifs <;> omega

end

/-- Numbers have no more than 31 bits. -/
theorem seqOf_le (n : ℤ) : seqOf n ≤ 0x7FFFFFFF := (SerialNumber.wrap_bounds CSeqNo.valid n).2

/-- The words of the interval at a place. -/
def RcvLossList.wordsAt (l : RcvLossList) (i : ℤ) : List (BitVec 32) :=
  if l.data2 i ≠ -1 then [markWord (seqWord (l.data1 i)), seqWord (l.data2 i)]
  else [seqWord (l.data1 i)]

/-- `getLossArray`, once the time for a report has come: the words, of which `limit` fit. -/
def RcvLossList.getLossArray (l : RcvLossList) (limit : ℤ) : Option (List (BitVec 32)) :=
  (whileLoop (fun s => (s.1.length : ℤ) < limit - 1 ∧ s.2 ≠ -1)
    (fun s => (s.1 ++ l.wordsAt s.2, l.next s.2)) l.size.toNat ([], l.head)).map Prod.fst

/-- `processCtrl` for a loss report: the sender's loss list, and whether the report is `secure`. A word
behind the end of the packet is none of it. -/
def processLossReport (sndLastAck sndCurrSeqNo : ℤ) :
    List (BitVec 32) → SndLossList → Option (SndLossList × Bool)
  | [], l => some (l, true)
  | w :: words, l =>
    if isMarked w then
      match words with
      | [] => none
      | last :: words =>
        if seqcmp (unmarkWord w).toInt last.toInt > 0 ∨ seqcmp last.toInt sndCurrSeqNo > 0 then
          some (l, false)
        else if seqcmp (unmarkWord w).toInt sndLastAck ≥ 0 then do
          let (l, _) ← l.insert (unmarkWord w).toInt last.toInt
          processLossReport sndLastAck sndCurrSeqNo words l
        else if seqcmp last.toInt sndLastAck ≥ 0 then do
          let (l, _) ← l.insert sndLastAck last.toInt
          processLossReport sndLastAck sndCurrSeqNo words l
        else processLossReport sndLastAck sndCurrSeqNo words l
    else if seqcmp w.toInt sndLastAck ≥ 0 then
      if seqcmp w.toInt sndCurrSeqNo > 0 then some (l, false)
      else do
        let (l, _) ← l.insert w.toInt w.toInt
        processLossReport sndLastAck sndCurrSeqNo words l
    else processLossReport sndLastAck sndCurrSeqNo words l

/-- The words of intervals of indices. -/
def reportOf (ns : List (ℤ × ℤ)) : List (BitVec 32) := ns.flatMap fun n => spanWords (seqOf n.1) (seqOf n.2)

/-- An interval takes one word or two. -/
theorem spanWords_length (seqno1 seqno2 : ℤ) :
    1 ≤ (spanWords seqno1 seqno2).length ∧ (spanWords seqno1 seqno2).length ≤ 2 := by
  unfold spanWords
  split_ifs <;> simp

/-- The report of two lists is one report behind the other. -/
theorem reportOf_append (ms ns : List (ℤ × ℤ)) : reportOf (ms ++ ns) = reportOf ms ++ reportOf ns :=
  List.flatMap_append

/-- A report begins with the words of its first interval. -/
theorem reportOf_cons (n : ℤ × ℤ) (ns : List (ℤ × ℤ)) :
    reportOf (n :: ns) = spanWords (seqOf n.1) (seqOf n.2) ++ reportOf ns :=
  rfl

/-- A report of some intervals has words. -/
theorem reportOf_ne_nil {ns : List (ℤ × ℤ)} (h : ns ≠ []) : reportOf ns ≠ [] := by
  obtain ⟨n, ms, rfl⟩ := List.exists_cons_of_ne_nil h
  have hpos := (spanWords_length (seqOf n.1) (seqOf n.2)).1
  rw [reportOf_cons]
  exact List.append_ne_nil_of_left_ne_nil (List.ne_nil_of_length_pos hpos) _

namespace RcvLossList

variable {l : RcvLossList} {c : ℤ} {ns : List (ℤ × ℤ)} {n : ℤ × ℤ}

/-- An interval of the list is written as one of a report. -/
theorem Layout.wordsAt (h : l.Layout c ns) (hn : n ∈ ns) :
    l.wordsAt (pos l.size c n) = spanWords (seqOf n.1) (seqOf n.2) := by
  have hends := h.ordered.nonempty n hn
  have hself := h.nodes.shape.within n hn n hn
  have hinj := seqOf_inj (near_of_le h.nodes.shape.size_le (a := n.1) (b := n.2) (by omega) (by omega))
  unfold RcvLossList.wordsAt spanWords
  rw [h.nodes.first.held n hn, h.nodes.last.held n hn]
  by_cases hsingle : n.2 = n.1
  · rw [finish_single hsingle, if_neg (by simp), if_pos (hinj.mpr hsingle.symm), hsingle]
  · rw [finish_ne (by omega), if_pos (seqOf_ne_neg_one n.2), if_neg (mt hinj.mp (by omega))]

/-- What the loop of `getLossArray` keeps: some intervals are written, and the place is that of the
next one. -/
def Writing (l : RcvLossList) (c limit : ℤ) (ns : List (ℤ × ℤ)) (r : ℕ) (s : List (BitVec 32) × ℤ) : Prop :=
  ∃ pre post, ns = pre ++ post ∧ s.1 = reportOf pre ∧ s.2 = headPos l.size c post ∧
    (s.1.length : ℤ) ≤ limit ∧ r = post.length

/-- `getLossArray` writes the first intervals of the list: all of them, or as many as fit. -/
theorem Layout.getLossArray {limit : ℤ} (h : l.Layout c ns) (hlimit : 0 ≤ limit) :
    ∃ pre post, ns = pre ++ post ∧ l.getLossArray limit = some (reportOf pre) ∧
      ((reportOf pre).length : ℤ) ≤ limit ∧ (post = [] ∨ limit - 1 ≤ (reportOf pre).length) := by
  have hstep : ∀ r s, Writing l c limit ns r s →
      decide ((s.1.length : ℤ) < limit - 1 ∧ s.2 ≠ -1) = true →
      ∃ r' < r, Writing l c limit ns r' (s.1 ++ l.wordsAt s.2, l.next s.2) := by
    intro r s ⟨pre, post, hsplit, hwords, hplace, hfits, hr⟩ hcond
    obtain ⟨hroom, hstop⟩ := of_decide_eq_true hcond
    cases post with
    | nil => exact absurd hplace hstop
    | cons n post =>
      have hn : n ∈ ns := by rw [hsplit]; simp
      have hlength := (spanWords_length (seqOf n.1) (seqOf n.2)).2
      have hat : l.wordsAt s.2 = spanWords (seqOf n.1) (seqOf n.2) := by
        rw [hplace]
        exact h.wordsAt hn
      refine ⟨post.length, by rw [hr]; exact Nat.lt_succ_self _, pre ++ [n], post, by rw [hsplit]; simp, ?_,
        ?_, ?_, rfl⟩
      · rw [hwords, hat, reportOf_append, reportOf_cons]
        simp [reportOf]
      · have hnodes := h.nodes
        rw [hsplit] at hnodes
        rw [hplace]
        exact hnodes.next_headPos
      · rw [hat, List.length_append]
        omega
  obtain ⟨s, r, hloop, ⟨pre, post, hsplit, hwords, hplace, hfits, -⟩, hcond⟩ := whileLoop_spec hstep
    (n := ns.length) (s := ([], l.head)) ⟨[], ns, rfl, rfl, h.nodes.head_headPos, by simpa using hlimit, rfl⟩
    h.nodes.shape.length_le
  refine ⟨pre, post, hsplit, ?_, by rwa [← hwords], ?_⟩
  · rw [RcvLossList.getLossArray, hloop, ← hwords]
    rfl
  · have hdone := of_decide_eq_false hcond
    rw [not_and_or, not_lt, hwords] at hdone
    rcases hdone with hfull | hstop
    · exact Or.inr hfull
    · cases post with
      | nil => exact Or.inl rfl
      | cons n post =>
        refine absurd ?_ hstop
        rw [hplace]
        exact h.pos_ne_stop (by rw [hsplit]; simp)

end RcvLossList

/-- An interval of a report that was sent: its numbers from the last acknowledged one on are inserted, if there
are any. -/
theorem processLossReport_spanWords {l : SndLossList} {a s : ℤ} {n : ℤ × ℤ} (hends : n.1 ≤ n.2) (hsent : n.2 ≤ s)
    (hfirst : Near n.1 a) (hlast : Near n.2 a) (hlong : Near n.1 n.2) (hcurr : Near n.2 s)
    (words : List (BitVec 32)) :
    processLossReport (seqOf a) (seqOf s) (spanWords (seqOf n.1) (seqOf n.2) ++ words) l =
      if a ≤ n.2 then do
        let (l, _) ← l.insert (seqOf (max a n.1)) (seqOf n.2)
        processLossReport (seqOf a) (seqOf s) words l
      else processLossReport (seqOf a) (seqOf s) words l := by
  have hvalue := toInt_seqWord (seqOf_nonneg n.2) (seqOf_le n.2)
  have hmark := isMarked_seqWord (seqOf_nonneg n.2) (seqOf_le n.2)
  by_cases hsingle : n.1 = n.2
  · have hsecure := mt (seqcmp_pos hcurr).mp (not_lt.mpr hsent)
    rw [spanWords, if_pos (congrArg seqOf hsingle), List.singleton_append, processLossReport.eq_def]
    simp only [hmark, Bool.false_eq_true, if_false, hvalue, ge_iff_le, seqcmp_nonneg hlast]
    by_cases hafter : a ≤ n.2
    · rw [if_pos hafter, if_neg hsecure, if_pos hafter, hsingle, max_eq_right hafter]
    · rw [if_neg hafter, if_neg hafter]
  · have hfirstValue := toInt_unmarkWord (seqOf_nonneg n.1) (seqOf_le n.1)
    have hfirstMark := isMarked_markWord (seqOf_nonneg n.1) (seqOf_le n.1)
    have hsecure : ¬ (seqcmp (seqOf n.1) (seqOf n.2) > 0 ∨ seqcmp (seqOf n.2) (seqOf s) > 0) := by
      rw [gt_iff_lt, gt_iff_lt, seqcmp_pos hlong, seqcmp_pos hcurr]
      omega
    rw [spanWords, if_neg (mt (seqOf_inj hlong).mp hsingle), List.cons_append, List.singleton_append,
      processLossReport.eq_def]
    simp only [hfirstMark, if_true, hfirstValue, hvalue, ge_iff_le, seqcmp_nonneg hfirst, seqcmp_nonneg hlast]
    rw [if_neg hsecure]
    by_cases hbegins : a ≤ n.1
    · rw [if_pos hbegins, if_pos (hbegins.trans hends), max_eq_right hbegins]
    · rw [if_neg hbegins, max_eq_left (not_le.mp hbegins).le]

/-- An interval that ends before the last acknowledged number adds nothing. -/
theorem covers_filter_skip {a : ℤ} {n : ℤ × ℤ} (h : n.2 < a) (ns : List (ℤ × ℤ)) :
    (covers (n :: ns)).filter (a ≤ ·) = (covers ns).filter (a ≤ ·) := by
  ext x
  simp only [Finset.mem_filter, mem_covers_cons]
  constructor
  · rintro ⟨hx | hx, hax⟩
    · omega
    · exact ⟨hx, hax⟩
  · exact fun hx => ⟨Or.inr hx.1, hx.2⟩

/-- Of any other interval the numbers from that one on are added. -/
theorem covers_filter_insert (S : Finset ℤ) (a : ℤ) (n : ℤ × ℤ) (ns : List (ℤ × ℤ)) :
    S ∪ (covers (n :: ns)).filter (a ≤ ·) = S ∪ interval (max a n.1) n.2 ∪ (covers ns).filter (a ≤ ·) := by
  ext x
  simp only [Finset.mem_union, Finset.mem_filter, mem_interval, mem_covers_cons, max_le_iff]
  tauto

/-- A report of intervals that have been sent is secure, and all of its numbers from the last
acknowledged one on are inserted. -/
theorem processLossReport_reportOf {l : SndLossList} {S : Finset ℤ} {d a s : ℤ} {ns : List (ℤ × ℤ)}
    (hl : l.Holds S) (hS : ∀ x ∈ S, d ≤ x ∧ x ≤ s) (hda : d ≤ a) (has : a ≤ s + 1) (hfits : s - d < l.size)
    (hsize : l.size < CSeqNo.threshold)
    (hns : ∀ n ∈ ns, (n.1 ≤ n.2 ∧ n.2 ≤ s) ∧ s + 1 - n.1 < 0x3FFFFFFF) :
    ∃ l', processLossReport (seqOf a) (seqOf s) (reportOf ns) l = some (l', true) ∧ l'.size = l.size ∧
      l'.Holds (S ∪ (covers ns).filter (a ≤ ·)) := by
  induction ns generalizing l S with
  | nil => exact ⟨l, rfl, rfl, by simpa using hl⟩
  | cons n ns ih =>
    obtain ⟨⟨hends, hsent⟩, hnear⟩ := hns n List.mem_cons_self
    have hrest : ∀ k ∈ ns, (k.1 ≤ k.2 ∧ k.2 ≤ s) ∧ s + 1 - k.1 < 0x3FFFFFFF :=
      fun k hk => hns k (List.mem_cons_of_mem n hk)
    change l.size < 0x3FFFFFFF at hsize
    rw [reportOf_cons, processLossReport_spanWords hends hsent (near_iff.mpr ⟨by omega, by omega⟩)
      (near_iff.mpr ⟨by omega, by omega⟩) (near_iff.mpr ⟨by omega, by omega⟩) (near_iff.mpr ⟨by omega, by omega⟩)]
    by_cases hreaches : a ≤ n.2
    · have hbounds : ∀ x ∈ S ∪ interval (max a n.1) n.2, d ≤ x ∧ x ≤ s := by
        intro x hx
        rcases Finset.mem_union.mp hx with hx | hx
        · exact hS x hx
        · rw [mem_interval, max_le_iff] at hx
          omega
      obtain ⟨l₁, hl₁, hsize₁, hholds⟩ := hl.insert (max_le hreaches hends) fun x hx y hy => by
        have hbx := hbounds x hx
        have hby := hbounds y hy
        omega
      obtain ⟨l', hl', hsize', hholds'⟩ := ih hholds hbounds (by rw [hsize₁]; exact hfits)
        (by rw [hsize₁]; exact hsize) hrest
      rw [if_pos hreaches, hl₁, covers_filter_insert]
      exact ⟨l', hl', hsize'.trans hsize₁, hholds'⟩
    · rw [if_neg hreaches, covers_filter_skip (not_le.mp hreaches)]
      exact ih hl hS hfits hsize hrest

/-- A report of the receiver's list reaches the sender's list: the first missing packets, as many as fit
into the packet, are to be sent again, unless they have been acknowledged. -/
theorem lossReport_roundTrip {r : RcvLossList} {l : SndLossList} {R S : Finset ℤ} {d a s limit : ℤ}
    (hr : r.Holds R) (hl : l.Holds S) (hR : ∀ x ∈ R, x ≤ s ∧ s + 1 - x < 0x3FFFFFFF)
    (hS : ∀ x ∈ S, d ≤ x ∧ x ≤ s) (hda : d ≤ a) (has : a ≤ s + 1) (hfits : s - d < l.size)
    (hsize : l.size < CSeqNo.threshold) (hlimit : 0 ≤ limit) :
    ∃ words reported l', r.getLossArray limit = some words ∧ (words.length : ℤ) ≤ limit ∧
      processLossReport (seqOf a) (seqOf s) words l = some (l', true) ∧
      l'.Holds (S ∪ reported.filter (a ≤ ·)) ∧ reported ⊆ R ∧
      (∀ x ∈ reported, ∀ y ∈ R, y < x → y ∈ reported) ∧
      (reported = R ∨ limit - 1 ≤ words.length) := by
  obtain ⟨c, ns, hlayout, rfl⟩ := hr
  obtain ⟨pre, post, rfl, hwords, hlength, hall⟩ := hlayout.getLossArray hlimit
  obtain ⟨hpre, -, hcross⟩ := ordered_append.mp hlayout.ordered
  obtain ⟨l', hl', -, hholds⟩ := processLossReport_reportOf hl hS hda has hfits hsize (show ∀ n ∈ pre, _ from fun n hn => by
    have hfst := hR n.1 (mem_covers_append.mpr (Or.inl (hpre.fst_mem hn)))
    have hsnd := hR n.2 (mem_covers_append.mpr (Or.inl (hpre.snd_mem hn)))
    exact ⟨⟨hpre.nonempty n hn, hsnd.1⟩, hfst.2⟩)
  refine ⟨reportOf pre, covers pre, l', hwords, hlength, hl', hholds,
    fun x hx => mem_covers_append.mpr (Or.inl hx), ?_, ?_⟩
  · intro x hx y hy hlt
    rcases mem_covers_append.mp hy with hy | hy
    · exact hy
    · obtain ⟨m, hm, -, hxm⟩ := mem_covers.mp hx
      obtain ⟨n, hn, hny, -⟩ := mem_covers.mp hy
      have hmn := hcross m hm n hn
      omega
  · rcases hall with rfl | hfull
    · exact Or.inl (by rw [List.append_nil])
    · exact Or.inr hfull

/-- Three missing packets behind an acknowledged one are reported. -/
theorem lossReport_roundTrip_three :
    ∃ words reported l', ((RcvLossList.init (fun _ => 0) (fun _ => 0) 8).insert (seqOf 5) (seqOf 7)).getLossArray 4 =
        some words ∧ (words.length : ℤ) ≤ 4 ∧
      processLossReport (seqOf 6) (seqOf 9) words (SndLossList.init (fun _ => 0) 8) = some (l', true) ∧
      l'.Holds (∅ ∪ reported.filter (6 ≤ ·)) ∧ reported ⊆ ∅ ∪ interval 5 7 ∧
      (∀ x ∈ reported, ∀ y ∈ ∅ ∪ interval 5 7, y < x → y ∈ reported) ∧
      (reported = ∅ ∪ interval 5 7 ∨ 4 - 1 ≤ (words.length : ℤ)) := by
  have hr := ((RcvLossList.holds_init (fun _ => 0) (fun _ => 0) (show 8 < CSeqNo.threshold by decide)).insert
    (a := 5) (b := 7) (by decide) (by simp) (by
      intro x hx y hy
      simp only [Finset.empty_union, mem_interval] at hx hy
      change y - x < 8
      omega)).2
  refine lossReport_roundTrip (d := 6) hr (SndLossList.holds_init (fun _ => 0) (show 8 < CSeqNo.threshold by decide)) ?_
    (by simp) le_rfl (by decide) (by decide) (by decide) (by decide)
  intro x hx
  simp only [Finset.empty_union, mem_interval] at hx
  omega

end Udtfs

import Udtfs.Lib.LinkedSlots
import Udtfs.Lib.Loop
import Udtfs.Lib.RingSlot
import Udtfs.Lib.Spans
import Udtfs.Transport.SeqNo

/-!
# The arrays of the loss lists

Both loss lists of `list.cpp` keep intervals of sequence numbers in arrays. An interval has its place at
the offset of its first number from that of the head, and the array `m_piNext` leads from each to the
next.
-/

namespace Udtfs

open LinkedSlots RingSlot Spans

/-- The fields that `CSndLossList` and `CRcvLossList` share. -/
structure LossArrays where
  /-- `m_piData1`: the first number of an interval, or -1 where there is none. -/
  data1 : ℤ → ℤ
  /-- `m_piData2`: the last number, or -1 if the interval has one number only. -/
  data2 : ℤ → ℤ
  next : ℤ → ℤ
  head : ℤ
  length : ℤ
  size : ℤ

namespace LossArrays

/-- The arrays of a new list. `m_piNext` is not initialised. -/
def init (next : ℤ → ℤ) (size : ℤ) : LossArrays := ⟨fun _ => -1, fun _ => -1, next, -1, 0, size⟩

/-- `m_piData1[loc] = seqno1; if (seqno2 != seqno1) m_piData2[loc] = seqno2;`. -/
def put (l : LossArrays) (loc seqno1 seqno2 : ℤ) : LossArrays :=
  { l with
    data1 := Function.update l.data1 loc seqno1
    data2 := if seqno2 ≠ seqno1 then Function.update l.data2 loc seqno2 else l.data2 }

/-- `m_piData1[loc] = seqno1; if (seqcmp(seqno2, seqno1) > 0) m_piData2[loc] = seqno2;`. -/
def putRest (l : LossArrays) (loc seqno1 seqno2 : ℤ) : LossArrays :=
  { l with
    data1 := Function.update l.data1 loc seqno1
    data2 := if seqcmp seqno2 seqno1 > 0 then Function.update l.data2 loc seqno2 else l.data2 }

/-- The place of a number, `(m_iHead + offset + m_iSize) % m_iSize`. -/
def place (l : LossArrays) (offset : ℤ) : ℤ := (l.head + offset + l.size).tmod l.size

/-- `while ((-1 != m_piNext[i]) && (seqcmp(m_piData1[m_piNext[i]], seqno) < 0)) i = m_piNext[i];`. -/
def searchPrior (l : LossArrays) (seqno i : ℤ) : Option ℤ :=
  whileLoop (fun i => l.next i ≠ -1 ∧ seqcmp (l.data1 (l.next i)) seqno < 0) l.next l.size.toNat i

/-! ## What the arrays hold -/

/-- The place of the interval that begins at an index, up to a rotation of the array. -/
def pos (size c : ℤ) (n : ℤ × ℤ) : ℤ := slot size c n.1

/-- What `m_piData2` holds for an interval. -/
def finish (n : ℤ × ℤ) : ℤ := if n.2 = n.1 then -1 else seqOf n.2

/-- Intervals of indices that begin in order and fit into the arrays together. -/
structure Shape (size : ℤ) (ns : List (ℤ × ℤ)) : Prop where
  size_le : size < CSeqNo.threshold
  starts : ns.Pairwise fun m n => m.1 < n.1
  ends : ∀ n ∈ ns, n.1 ≤ n.2
  within : ∀ m ∈ ns, ∀ n ∈ ns, n.2 - m.1 < size

/-- The arrays hold the intervals, in this order along the links, and their lengths add up to the
length. -/
structure Nodes (l : LossArrays) (c : ℤ) (ns : List (ℤ × ℤ)) : Prop where
  shape : Shape l.size ns
  first : Stores (pos l.size c) (fun n => seqOf n.1) (-1) l.data1 ns
  last : Stores (pos l.size c) finish (-1) l.data2 ns
  links : Links l.next (-1) l.head (ns.map (pos l.size c))
  length_eq : l.length = total ns

/-- The indices fit into arrays of a size. -/
def Fits (size : ℤ) (S : Finset ℤ) : Prop := ∀ x ∈ S, ∀ y ∈ S, y - x < size

section Shape

variable {size c : ℤ} {pre post ns : List (ℤ × ℤ)} {m n : ℤ × ℤ}

/-- Some of the intervals fit too. -/
theorem Shape.sublist (h : Shape size ns) {ms : List (ℤ × ℤ)} (hsub : ms.Sublist ns) :
    Shape size ms :=
  ⟨h.size_le, h.starts.sublist hsub, fun n hn => h.ends n (hsub.subset hn),
    fun m hm n hn => h.within m (hsub.subset hm) n (hsub.subset hn)⟩

/-- Where there is an interval, there is a place. -/
theorem Shape.size_pos (h : Shape size ns) (hn : n ∈ ns) : 0 < size := by
  have hends := h.ends n hn
  have hwithin := h.within n hn n hn
  omega

/-- Places of different indices that are closer than the size are different. -/
theorem pos_ne (hne : m.1 ≠ n.1) (hmn : m.1 - n.1 < size) (hnm : n.1 - m.1 < size) :
    pos size c m ≠ pos size c n :=
  slot_ne hne hmn hnm

/-- A place is not negative. -/
theorem pos_nonneg (hsize : 0 < size) : 0 ≤ pos size c n := slot_nonneg hsize

/-- No two intervals begin at one index. -/
theorem Shape.ne_of_mem (h : Shape size (pre ++ n :: post)) (hm : m ∈ pre ++ post) : m.1 ≠ n.1 := by
  obtain ⟨-, hpost, hcross⟩ := List.pairwise_append.mp h.starts
  rcases List.mem_append.mp hm with hm | hm
  · exact (hcross m hm n List.mem_cons_self).ne
  · exact ((List.pairwise_cons.mp hpost).1 m hm).ne'

/-- No other interval has the place of one. -/
theorem Shape.fresh (h : Shape size (pre ++ n :: post)) :
    pos size c n ∉ (pre ++ post).map (pos size c) := by
  intro hmem
  obtain ⟨m, hm, heq⟩ := List.mem_map.mp hmem
  have hm' : m ∈ pre ++ n :: post := by
    simp only [List.mem_append, List.mem_cons] at hm ⊢
    tauto
  have hn' : n ∈ pre ++ n :: post := List.mem_append_right pre List.mem_cons_self
  have hmends := h.ends m hm'
  have hnends := h.ends n hn'
  have hmn := h.within m hm' n hn'
  have hnm := h.within n hn' m hm'
  exact pos_ne (h.ne_of_mem hm) (by omega) (by omega) heq

/-- There are no more intervals than places. -/
theorem Shape.length_le (h : Shape size ns) : ns.length ≤ size.toNat := by
  have hcount : ∀ (ms : List (ℤ × ℤ)) (lo hi : ℤ), ms.Pairwise (fun m n => m.1 < n.1) →
      (∀ m ∈ ms, lo ≤ m.1 ∧ m.1 < hi) → lo ≤ hi → (ms.length : ℤ) ≤ hi - lo := by
    intro ms
    induction ms with
    | nil =>
      intro lo hi _ _ hle
      simpa using hle
    | cons m ms ih =>
      intro lo hi hpair hbounds hle
      obtain ⟨hfirst, hrest⟩ := List.pairwise_cons.mp hpair
      obtain ⟨hlow, hhigh⟩ := hbounds m List.mem_cons_self
      have hms := ih (m.1 + 1) hi hrest
        (fun n hn => ⟨hfirst n hn, (hbounds n (List.mem_cons_of_mem m hn)).2⟩) (by omega)
      rw [List.length_cons]
      omega
  cases ns with
  | nil => exact Nat.zero_le _
  | cons n ns =>
    have hsize := h.size_pos List.mem_cons_self
    have hle := hcount (n :: ns) n.1 (n.1 + size) h.starts ?_ (by omega)
    · omega
    · intro m hm
      have hends := h.ends m hm
      have hwithin := h.within n List.mem_cons_self m hm
      rcases List.mem_cons.mp hm with rfl | hm
      · omega
      · have hstart := (List.pairwise_cons.mp h.starts).1 m hm
        omega

end Shape

section Nodes

variable {l l' : LossArrays} {c : ℤ} {pre post ns : List (ℤ × ℤ)} {m n : ℤ × ℤ}

/-- A longer interval stores its last number. -/
theorem finish_ne (h : n.1 < n.2) : finish n = seqOf n.2 := if_neg h.ne'

/-- An interval of one number stores no other. -/
theorem finish_single (h : n.2 = n.1) : finish n = -1 := if_pos h

/-- An interval has one number only exactly if there is no second number. -/
theorem finish_eq_neg_one : finish n = -1 ↔ n.2 = n.1 := by
  unfold finish
  split_ifs with h
  · exact iff_of_true rfl h
  · exact iff_of_false (seqOf_ne_neg_one n.2) h

/-- At the place of a new interval no last number is stored. -/
theorem Nodes.fresh_last (h : Nodes l c (pre ++ post)) (hn : Shape l.size (pre ++ n :: post)) :
    l.data2 (pos l.size c n) = -1 :=
  h.last.empty _ hn.fresh

/-- A new interval in its place. -/
theorem Nodes.insert (h : Nodes l c (pre ++ post)) (hshape : Shape l.size (pre ++ n :: post))
    (hdata1 : l'.data1 = Function.update l.data1 (pos l.size c n) (seqOf n.1))
    (hdata2 : l'.data2 =
      if n.2 = n.1 then l.data2 else Function.update l.data2 (pos l.size c n) (seqOf n.2))
    (hlinks : Links l'.next (-1) l'.head ((pre ++ n :: post).map (pos l.size c)))
    (hsize : l'.size = l.size) (hlength : l'.length = l.length + (n.2 - n.1 + 1)) :
    Nodes l' c (pre ++ n :: post) := by
  have hlast : l'.data2 = Function.update l.data2 (pos l.size c n) (finish n) := by
    rw [hdata2]
    unfold finish
    split_ifs with hsingle
    · exact (Function.update_eq_self_iff.mpr (h.fresh_last hshape).symm).symm
    · rfl
  constructor
  · rwa [hsize]
  · rw [hsize, hdata1]
    exact h.first.insert hshape.fresh
  · rw [hsize, hlast]
    exact h.last.insert hshape.fresh
  · rwa [hsize]
  · rw [hlength, h.length_eq]
    simp only [total_append, total_cons]
    omega

/-- An interval is taken out. -/
theorem Nodes.erase (h : Nodes l c (pre ++ n :: post))
    (hdata1 : l'.data1 = Function.update l.data1 (pos l.size c n) (-1))
    (hdata2 : l'.data2 = Function.update l.data2 (pos l.size c n) (-1))
    (hlinks : Links l'.next (-1) l'.head ((pre ++ post).map (pos l.size c)))
    (hsize : l'.size = l.size) (hlength : l'.length = l.length - (n.2 - n.1 + 1)) :
    Nodes l' c (pre ++ post) := by
  constructor
  · rw [hsize]
    exact h.shape.sublist (List.Sublist.append_left (List.sublist_cons_self n post) pre)
  · rw [hsize, hdata1]
    exact h.first.erase h.shape.fresh
  · rw [hsize, hdata2]
    exact h.last.erase h.shape.fresh
  · rwa [hsize]
  · rw [hlength, h.length_eq]
    simp only [total_append, total_cons]
    omega

/-- The last number of an interval may be any that fits. -/
theorem Shape.setLast {size b : ℤ} (h : Shape size (pre ++ n :: post)) (hb : n.1 ≤ b)
    (hwithin : ∀ m ∈ pre ++ n :: post, b - m.1 < size) : Shape size (pre ++ (n.1, b) :: post) := by
  have hmem : ∀ m ∈ pre ++ (n.1, b) :: post, m = (n.1, b) ∨ m ∈ pre ++ n :: post := by
    intro m hm
    simp only [List.mem_append, List.mem_cons] at hm ⊢
    tauto
  have hn : n ∈ pre ++ n :: post := List.mem_append_right pre List.mem_cons_self
  constructor
  · exact h.size_le
  · have hstarts := h.starts
    rw [List.pairwise_append, List.pairwise_cons] at hstarts ⊢
    obtain ⟨hpre, hpost, hcross⟩ := hstarts
    refine ⟨hpre, hpost, fun m hm k hk => ?_⟩
    rcases List.mem_cons.mp hk with rfl | hk
    · exact hcross m hm n List.mem_cons_self
    · exact hcross m hm k (List.mem_cons_of_mem n hk)
  · intro m hm
    rcases hmem m hm with rfl | hm
    · exact hb
    · exact h.ends m hm
  · intro m hm k hk
    rcases hmem m hm with rfl | hm <;> rcases hmem k hk with rfl | hk
    · exact hwithin n hn
    · exact h.within n hn k hk
    · exact hwithin m hm
    · exact h.within m hm k hk

/-- An interval gets another last number. -/
theorem Nodes.setLast {b : ℤ} (h : Nodes l c (pre ++ n :: post)) (hb : n.1 ≤ b)
    (hwithin : ∀ m ∈ pre ++ n :: post, b - m.1 < l.size) (hdata1 : l'.data1 = l.data1)
    (hdata2 : l'.data2 = Function.update l.data2 (pos l.size c n) (finish (n.1, b)))
    (hnext : l'.next = l.next) (hhead : l'.head = l.head) (hsize : l'.size = l.size)
    (hlength : l'.length = l.length + (b - n.2)) : Nodes l' c (pre ++ (n.1, b) :: post) := by
  have hn : n ∈ pre ++ n :: post := List.mem_append_right pre List.mem_cons_self
  constructor
  · rw [hsize]
    exact h.shape.setLast hb hwithin
  · have hfirst := h.first.replace (m := (n.1, b)) h.shape.fresh rfl
    rwa [Function.update_eq_self_iff.mpr (h.first.held n hn).symm, ← hdata1, ← hsize] at hfirst
  · rw [hsize, hdata2]
    exact h.last.replace h.shape.fresh rfl
  · have hlinks := h.links
    rw [hsize, hnext, hhead]
    simp only [List.map_append, List.map_cons] at hlinks ⊢
    exact hlinks
  · rw [hlength, h.length_eq]
    simp only [total_append, total_cons]
    omega

/-- An interval that fits may be added where its beginning belongs. -/
theorem Shape.insert {size : ℤ} (h : Shape size (pre ++ post)) (hends : n.1 ≤ n.2)
    (hpre : ∀ m ∈ pre, m.1 < n.1) (hpost : ∀ m ∈ post, n.1 < m.1) (hself : n.2 - n.1 < size)
    (hwithin : ∀ m ∈ pre ++ post, n.2 - m.1 < size ∧ m.2 - n.1 < size) :
    Shape size (pre ++ n :: post) := by
  have hmem : ∀ m ∈ pre ++ n :: post, m = n ∨ m ∈ pre ++ post := by
    intro m hm
    simp only [List.mem_append, List.mem_cons] at hm ⊢
    tauto
  constructor
  · exact h.size_le
  · have hstarts := h.starts
    rw [List.pairwise_append] at hstarts ⊢
    refine ⟨hstarts.1, List.pairwise_cons.mpr ⟨hpost, hstarts.2.1⟩, fun m hm k hk => ?_⟩
    rcases List.mem_cons.mp hk with rfl | hk
    · exact hpre m hm
    · exact hstarts.2.2 m hm k hk
  · intro m hm
    rcases hmem m hm with rfl | hm
    · exact hends
    · exact h.ends m hm
  · intro m hm k hk
    rcases hmem m hm with rfl | hold <;> rcases hmem k hk with rfl | hold'
    · exact hself
    · exact (hwithin k hold').2
    · exact (hwithin m hold).1
    · exact h.within m hold k hold'

/-! ## Reading and writing at a place -/

/-- The place of an index at an offset from the head. -/
theorem Nodes.place_eq {a : ℤ} (h : Nodes l c (n :: post)) (hback : n.1 - a < l.size) (b : ℤ) :
    l.place (a - n.1) = pos l.size c (a, b) := by
  have hsize := h.shape.size_pos List.mem_cons_self
  have hpos := pos_nonneg (c := c) (n := n) hsize
  rw [LossArrays.place, h.links.head_eq]
  have hadd := @slot_add_size l.size c n.1 (a - n.1) (by
    change 0 ≤ pos l.size c n + (a - n.1) + l.size
    omega)
  rwa [show n.1 + (a - n.1) = a by omega] at hadd

/-- A number is stored as the first of an interval exactly if one begins with it. -/
theorem Nodes.data1_eq_iff {a b : ℤ} (h : Nodes l c ns) (hnear : ∀ n ∈ ns, Near n.1 a) :
    l.data1 (pos l.size c (a, b)) = seqOf a ↔ ∃ n ∈ ns, n.1 = a := by
  constructor
  · intro heq
    by_cases hmem : pos l.size c (a, b) ∈ ns.map (pos l.size c)
    · obtain ⟨n, hn, hpos⟩ := List.mem_map.mp hmem
      refine ⟨n, hn, ?_⟩
      rwa [← hpos, h.first.held n hn, seqOf_inj (hnear n hn)] at heq
    · rw [h.first.empty _ hmem] at heq
      exact absurd heq.symm (seqOf_ne_neg_one a)
  · intro ⟨n, hn, heq⟩
    have hpos : pos l.size c (a, b) = pos l.size c n := by rw [pos, pos, heq]
    rw [hpos, h.first.held n hn, heq]

/-- `put` stores an interval of indices that are near each other. -/
theorem put_data2 {a b : ℤ} (hnear : Near b a) (p : ℤ) :
    (l.put p (seqOf a) (seqOf b)).data2 =
      if b = a then l.data2 else Function.update l.data2 p (seqOf b) := by
  simp only [put, Ne, seqOf_inj hnear, ite_not]

/-- So does `putRest`. -/
theorem putRest_data2 {a b : ℤ} (hle : a ≤ b) (hnear : Near b a) (p : ℤ) :
    (l.putRest p (seqOf a) (seqOf b)).data2 =
      if b = a then l.data2 else Function.update l.data2 p (seqOf b) := by
  simp only [putRest, gt_iff_lt, seqcmp_pos hnear]
  split_ifs <;> first | rfl | omega

/-! ## Going along the links -/

/-- No place is the end mark. -/
theorem Nodes.stop_not_mem (h : Nodes l c ns) : (-1 : ℤ) ∉ ns.map (pos l.size c) := by
  intro hmem
  obtain ⟨n, hn, heq⟩ := List.mem_map.mp hmem
  have hpos := pos_nonneg (c := c) (n := n) (h.shape.size_pos hn)
  omega

/-- The head is the place of the first interval. -/
theorem Nodes.head_eq (h : Nodes l c (n :: post)) : l.head = pos l.size c n := h.links.head_eq

/-- The link of an interval leads to the next one. -/
theorem Nodes.next_eq (h : Nodes l c (pre ++ n :: m :: post)) :
    l.next (pos l.size c n) = pos l.size c m := by
  have hlinks := h.links
  rw [List.map_append, List.map_cons] at hlinks
  exact hlinks.tail.head_eq

/-- The last interval has no next one. -/
theorem Nodes.next_last (h : Nodes l c (pre ++ [n])) : l.next (pos l.size c n) = -1 := by
  have hlinks := h.links
  rw [List.map_append, List.map_cons] at hlinks
  exact hlinks.tail.of_nil

/-- The place of the first of some intervals, or the end mark. -/
def headPos (size c : ℤ) : List (ℤ × ℤ) → ℤ
  | [] => -1
  | n :: _ => pos size c n

/-- The next place is that of the interval behind. -/
theorem Nodes.next_headPos (h : Nodes l c (pre ++ n :: post)) :
    l.next (pos l.size c n) = headPos l.size c post := by
  cases post with
  | nil => exact h.next_last
  | cons m post => exact h.next_eq

/-- The same for the head, where the list may be empty. -/
theorem Nodes.head_headPos (h : Nodes l c ns) : l.head = headPos l.size c ns := by
  cases ns with
  | nil => exact h.links.of_nil
  | cons n ns => exact h.head_eq

/-- An interval before all others. -/
theorem Nodes.pushFront (h : Nodes l c post) (hshape : Shape l.size (n :: post))
    (hdata1 : l'.data1 = Function.update l.data1 (pos l.size c n) (seqOf n.1))
    (hdata2 : l'.data2 =
      if n.2 = n.1 then l.data2 else Function.update l.data2 (pos l.size c n) (seqOf n.2))
    (hnext : l'.next = Function.update l.next (pos l.size c n) l.head)
    (hhead : l'.head = pos l.size c n) (hsize : l'.size = l.size)
    (hlength : l'.length = l.length + (n.2 - n.1 + 1)) : Nodes l' c (n :: post) := by
  refine @Nodes.insert l l' c [] post n h hshape hdata1 hdata2 ?_ hsize hlength
  rw [hnext, hhead]
  exact h.links.insertFront (@Shape.fresh _ _ [] _ _ hshape)

/-- An interval behind another one. -/
theorem Nodes.insertNext (h : Nodes l c (pre ++ m :: post)) (hshape : Shape l.size (pre ++ m :: n :: post))
    (hdata1 : l'.data1 = Function.update l.data1 (pos l.size c n) (seqOf n.1))
    (hdata2 : l'.data2 =
      if n.2 = n.1 then l.data2 else Function.update l.data2 (pos l.size c n) (seqOf n.2))
    (hnext : l'.next = Function.update (Function.update l.next (pos l.size c n) (l.next (pos l.size c m)))
      (pos l.size c m) (pos l.size c n))
    (hhead : l'.head = l.head) (hsize : l'.size = l.size)
    (hlength : l'.length = l.length + (n.2 - n.1 + 1)) : Nodes l' c (pre ++ m :: n :: post) := by
  have hsplit : pre ++ m :: n :: post = (pre ++ [m]) ++ n :: post := by simp
  have hsplit' : pre ++ m :: post = (pre ++ [m]) ++ post := by simp
  have hn : pos l.size c n ∉ (pre ++ m :: post).map (pos l.size c) := by
    rw [hsplit']
    exact Shape.fresh (by rwa [← hsplit])
  have hm := h.shape.fresh (c := c)
  have hlinks := h.links
  rw [List.map_append, List.map_cons] at hlinks hn
  rw [List.map_append] at hm
  rw [hsplit]
  refine Nodes.insert (by rwa [← hsplit']) (by rwa [← hsplit]) hdata1 hdata2 ?_ hsize hlength
  rw [← hsplit, List.map_append, List.map_cons, List.map_cons, hhead, hnext]
  exact hlinks.insertNext hm hn

/-- The interval behind another one is taken out. -/
theorem Nodes.eraseNext (h : Nodes l c (pre ++ m :: n :: post))
    (hdata1 : l'.data1 = Function.update l.data1 (pos l.size c n) (-1))
    (hdata2 : l'.data2 = Function.update l.data2 (pos l.size c n) (-1))
    (hnext : l'.next = Function.update l.next (pos l.size c m) (l.next (pos l.size c n)))
    (hhead : l'.head = l.head) (hsize : l'.size = l.size)
    (hlength : l'.length = l.length - (n.2 - n.1 + 1)) : Nodes l' c (pre ++ m :: post) := by
  have hsplit : pre ++ m :: n :: post = (pre ++ [m]) ++ n :: post := by simp
  have hm := h.shape.fresh (c := c)
  have hlinks := h.links
  simp only [List.map_append, List.map_cons, List.mem_append, List.mem_cons, not_or] at hlinks hm
  rw [hsplit] at h
  have herased := @Nodes.erase l l' c (pre ++ [m]) post n h hdata1 hdata2 ?_ hsize hlength
  · rwa [List.append_assoc] at herased
  rw [List.append_assoc, List.singleton_append, List.map_append, List.map_cons, hhead, hnext]
  exact hlinks.eraseNext (by rw [List.mem_append, not_or]; exact ⟨hm.1, hm.2.2⟩)

/-- The first interval is taken out. -/
theorem Nodes.dropHead (h : Nodes l c (n :: post))
    (hdata1 : l'.data1 = Function.update l.data1 (pos l.size c n) (-1))
    (hdata2 : l'.data2 = Function.update l.data2 (pos l.size c n) (-1)) (hnext : l'.next = l.next)
    (hhead : l'.head = l.next (pos l.size c n)) (hsize : l'.size = l.size)
    (hlength : l'.length = l.length - (n.2 - n.1 + 1)) : Nodes l' c post := by
  refine @Nodes.erase l l' c [] post n h hdata1 hdata2 ?_ hsize hlength
  rw [hnext, hhead]
  exact h.links.2

/-- The place behind another one, `(loc + 1) % m_iSize`. -/
theorem pos_succ {size : ℤ} (hsize : 0 < size) (b : ℤ) :
    (pos size c n + 1).tmod size = pos size c (n.1 + 1, b) := by
  have hpos := slot_nonneg (c := c) (n := n.1) hsize
  exact slot_add (by omega)

/-- The place before another one, `(loc - 1 + m_iSize) % m_iSize`. -/
theorem pos_pred {size : ℤ} (hsize : 0 < size) (b : ℤ) :
    (pos size c n - 1 + size).tmod size = pos size c (n.1 - 1, b) := by
  have hpos := slot_nonneg (c := c) (n := n.1) hsize
  exact slot_add_size (d := -1) (by omega)

/-- Two parts of an interval fit as intervals of their own. -/
theorem Shape.split {size e f : ℤ} (h : Shape size (pre ++ n :: post)) (hpost : ∀ k ∈ post, n.2 < k.1)
    (he : n.1 ≤ e) (hef : e < f) (hf : f ≤ n.2) : Shape size (pre ++ (n.1, e) :: (f, n.2) :: post) := by
  have hn : n ∈ pre ++ n :: post := by simp
  have hcut := h.setLast he fun m hm => (sub_lt_sub_right (hef.trans_le hf) m.1).trans (h.within m hm n hn)
  have hsplit : ∀ post' : List (ℤ × ℤ), pre ++ (n.1, e) :: post' = (pre ++ [(n.1, e)]) ++ post' := by simp
  have hself := h.within n hn n hn
  have hcross := (List.pairwise_append.mp h.starts).2.2
  rw [hsplit] at hcut ⊢
  refine hcut.insert hf ?_ ?_ (by dsimp only; omega) ?_
  · intro m hm
    rcases List.mem_append.mp hm with hm | hm
    · have hlt := hcross m hm n List.mem_cons_self
      dsimp only
      omega
    · rw [List.mem_singleton.mp hm]
      dsimp only
      omega
  · intro m hm
    have hlt := hpost m hm
    dsimp only
    omega
  · intro m hm
    simp only [List.mem_append, List.mem_singleton] at hm
    rcases hm with (hm | rfl) | hm
    · have hmn := h.within m (by simp [hm]) n hn
      have hends := h.ends m (by simp [hm])
      have hlt := hcross m hm n List.mem_cons_self
      have hnm := h.within n hn m (by simp [hm])
      dsimp only
      omega
    · dsimp only
      omega
    · have hlt := hpost m hm
      have hmn := h.within m (by simp [hm]) n hn
      have hnm := h.within n hn m (by simp [hm])
      dsimp only
      omega

/-- An interval is split, and the numbers between its parts are taken out. -/
theorem Nodes.splitAt {e f : ℤ} (h : Nodes l c (pre ++ n :: post)) (hpost : ∀ k ∈ post, n.2 < k.1)
    (he : n.1 ≤ e) (hef : e < f) (hf : f ≤ n.2)
    (hdata1 : l'.data1 = Function.update l.data1 (pos l.size c (f, n.2)) (seqOf f))
    (hdata2 : l'.data2 = Function.update (if n.2 = f then l.data2 else
      Function.update l.data2 (pos l.size c (f, n.2)) (seqOf n.2)) (pos l.size c n) (finish (n.1, e)))
    (hnext : l'.next = Function.update (Function.update l.next (pos l.size c (f, n.2))
      (l.next (pos l.size c n))) (pos l.size c n) (pos l.size c (f, n.2)))
    (hhead : l'.head = l.head) (hsize : l'.size = l.size) (hlength : l'.length = l.length - (f - e - 1)) :
    Nodes l' c (pre ++ (n.1, e) :: (f, n.2) :: post) := by
  have hn : n ∈ pre ++ n :: post := by simp
  have hself := h.shape.within n hn n hn
  have hcut := @Nodes.setLast l
    { l with
      data2 := Function.update l.data2 (pos l.size c n) (finish (n.1, e))
      length := l.length + (e - n.2) } c pre post n e h he
    (fun m hm => (sub_lt_sub_right (hef.trans_le hf) m.1).trans (h.shape.within m hm n hn)) rfl rfl rfl rfl rfl rfl
  refine hcut.insertNext (n := (f, n.2)) (h.shape.split hpost he hef hf) hdata1 ?_ hnext hhead hsize ?_
  · have hne : pos l.size c n ≠ pos l.size c (f, n.2) :=
      pos_ne (by dsimp only; omega) (by dsimp only; omega) (by dsimp only; omega)
    rw [hdata2]
    split_ifs
    · rfl
    · exact (Function.update_comm hne _ _ _).symm
  · rw [hlength]
    dsimp only
    omega

/-- The first number of the first interval is taken out, and the rest moves to the next place. -/
theorem Nodes.moveHead (h : Nodes l c (n :: post)) (hpost : ∀ k ∈ post, n.2 < k.1) (hlt : n.1 < n.2)
    (hdata1 : l'.data1 = Function.update
      (Function.update l.data1 (pos l.size c (n.1 + 1, n.2)) (seqOf (n.1 + 1))) (pos l.size c n) (-1))
    (hdata2 : l'.data2 = Function.update (if n.2 = n.1 + 1 then l.data2 else
      Function.update l.data2 (pos l.size c (n.1 + 1, n.2)) (seqOf n.2)) (pos l.size c n) (-1))
    (hnext : l'.next = Function.update l.next (pos l.size c (n.1 + 1, n.2)) (l.next (pos l.size c n)))
    (hhead : l'.head = pos l.size c (n.1 + 1, n.2)) (hsize : l'.size = l.size)
    (hlength : l'.length = l.length - 1) : Nodes l' c ((n.1 + 1, n.2) :: post) := by
  have hself := h.shape.within n List.mem_cons_self n List.mem_cons_self
  have hne : pos l.size c n ≠ pos l.size c (n.1 + 1, n.2) :=
    pos_ne (by dsimp only; omega) (by dsimp only; omega) (by dsimp only; omega)
  have hdrop := @Nodes.dropHead l
    { l with
      data1 := Function.update l.data1 (pos l.size c n) (-1)
      data2 := Function.update l.data2 (pos l.size c n) (-1)
      head := l.next (pos l.size c n)
      length := l.length - (n.2 - n.1 + 1) } c post n h rfl rfl rfl rfl rfl rfl
  have hshape := (@Shape.split [] _ _ _ _ _ h.shape hpost le_rfl (Int.lt_succ n.1) hlt).sublist (List.sublist_cons_self _ _)
  refine hdrop.pushFront hshape ?_ ?_ hnext hhead hsize ?_
  · rw [hdata1, Function.update_comm hne]
  · rw [hdata2]
    split_ifs
    · rfl
    · exact Function.update_comm hne.symm _ _ _
  · rw [hlength]
    dsimp only
    omega

/-- The first number of an interval behind another one is taken out, and the rest moves to the next
place. -/
theorem Nodes.moveNext (h : Nodes l c (pre ++ m :: n :: post)) (hpost : ∀ k ∈ post, n.2 < k.1) (hlt : n.1 < n.2)
    (hdata1 : l'.data1 = Function.update
      (Function.update l.data1 (pos l.size c (n.1 + 1, n.2)) (seqOf (n.1 + 1))) (pos l.size c n) (-1))
    (hdata2 : l'.data2 = Function.update (if n.2 = n.1 + 1 then l.data2 else
      Function.update l.data2 (pos l.size c (n.1 + 1, n.2)) (seqOf n.2)) (pos l.size c n) (-1))
    (hnext : l'.next = Function.update (Function.update l.next (pos l.size c (n.1 + 1, n.2))
      (l.next (pos l.size c n))) (pos l.size c m) (pos l.size c (n.1 + 1, n.2)))
    (hhead : l'.head = l.head) (hsize : l'.size = l.size) (hlength : l'.length = l.length - 1) :
    Nodes l' c (pre ++ m :: (n.1 + 1, n.2) :: post) := by
  have hsplit : ∀ r : ℤ × ℤ, pre ++ m :: r :: post = (pre ++ [m]) ++ r :: post := by simp
  have hself := h.shape.within n (by simp) n (by simp)
  have hne : pos l.size c n ≠ pos l.size c (n.1 + 1, n.2) :=
    pos_ne (by dsimp only; omega) (by dsimp only; omega) (by dsimp only; omega)
  have hshape : Shape l.size (pre ++ m :: (n.1 + 1, n.2) :: post) := by
    have hparts := h.shape
    rw [hsplit] at hparts ⊢
    exact (hparts.split hpost le_rfl (Int.lt_succ n.1) hlt).sublist
      (List.Sublist.append_left (List.sublist_cons_self _ _) _)
  have hmove : pos l.size c m ≠ pos l.size c (n.1 + 1, n.2) := by
    rw [hsplit] at hshape
    refine fun heq => hshape.fresh (c := c) ?_
    rw [← heq]
    exact List.mem_map_of_mem (by simp)
  have herase := @Nodes.eraseNext l
    { l with
      data1 := Function.update l.data1 (pos l.size c n) (-1)
      data2 := Function.update l.data2 (pos l.size c n) (-1)
      next := Function.update l.next (pos l.size c m) (l.next (pos l.size c n))
      length := l.length - (n.2 - n.1 + 1) } c pre post m n h rfl rfl rfl rfl rfl rfl
  refine herase.insertNext hshape ?_ ?_ ?_ hhead hsize ?_
  · rw [hdata1, Function.update_comm hne]
  · rw [hdata2]
    split_ifs
    · rfl
    · exact Function.update_comm hne.symm _ _ _
  · rw [hnext]
    dsimp only
    rw [Function.update_self, Function.update_comm hmove, Function.update_idem]
  · rw [hlength]
    dsimp only
    omega

/-- Only an empty list has the length zero. -/
theorem Nodes.length_eq_zero (h : Nodes l c ns) : l.length = 0 ↔ ns = [] := by
  rw [h.length_eq]
  cases ns with
  | nil => simp [total]
  | cons n ns =>
    have hpos : ∀ ms : List (ℤ × ℤ), (∀ m ∈ ms, m.1 ≤ m.2) → 0 ≤ total ms := by
      intro ms
      induction ms with
      | nil => simp [total]
      | cons m ms ih =>
        intro hends
        have hm := hends m List.mem_cons_self
        have hms := ih fun k hk => hends k (List.mem_cons_of_mem m hk)
        rw [total_cons]
        omega
    have hn := h.shape.ends n List.mem_cons_self
    have hns := hpos ns fun m hm => h.shape.ends m (List.mem_cons_of_mem n hm)
    rw [total_cons]
    exact iff_of_false (by omega) (List.cons_ne_nil n ns)

/-- The search ends at the last interval that begins before a number. -/
theorem Nodes.searchPrior {a : ℤ} (h : Nodes l c (pre ++ m :: post)) (hm : m.1 < a)
    (hnear : ∀ n ∈ pre ++ m :: post, Near n.1 a) :
    ∃ pre' m' post', pre ++ m :: post = pre' ++ m' :: post' ∧ m'.1 < a ∧ (∀ n ∈ post', a ≤ n.1) ∧
      l.searchPrior (seqOf a) (pos l.size c m) = some (pos l.size c m') := by
  obtain ⟨i, k, hloop, ⟨pre', m', post', hsplit, hm', rfl, hk⟩, hcond⟩ := @whileLoop_spec _
    (fun i => l.next i ≠ -1 ∧ seqcmp (l.data1 (l.next i)) (seqOf a) < 0) l.next
    (fun k i => ∃ pre' m' post', pre ++ m :: post = pre' ++ m' :: post' ∧ m'.1 < a ∧
      i = pos l.size c m' ∧ k = post'.length)
    (fun k i ⟨pre', m', post', hsplit, hm', hi, hk⟩ hcond => by
      simp only [decide_eq_true_eq] at hcond
      rw [hsplit] at h hnear
      cases post' with
      | nil =>
        rw [hi, h.next_last] at hcond
        exact absurd rfl hcond.1
      | cons r post' =>
        have hr : r ∈ pre' ++ m' :: r :: post' := by simp
        rw [hi, h.next_eq, h.first.held r hr, seqcmp_neg (hnear r hr)] at hcond
        refine ⟨post'.length, by rw [hk]; exact Nat.lt_succ_self _, pre' ++ [m'], r, post', ?_, hcond.2, ?_,
          rfl⟩
        · rw [hsplit]
          simp
        · rw [hi, h.next_eq])
    post.length (pos l.size c m) ⟨pre, m, post, rfl, hm, rfl, rfl⟩ l.size.toNat (by
      have hlength := h.shape.length_le
      rw [List.length_append, List.length_cons] at hlength
      omega)
  refine ⟨pre', m', post', hsplit, hm', ?_, hloop⟩
  rw [hsplit] at h hnear
  have hcond' := of_decide_eq_false hcond
  cases post' with
  | nil => exact fun n hn => absurd hn List.not_mem_nil
  | cons r post' =>
    have hr : r ∈ pre' ++ m' :: r :: post' := by simp
    rw [h.next_eq, h.first.held r hr, seqcmp_neg (hnear r hr), not_and, not_lt] at hcond'
    have hle : a ≤ r.1 := hcond' fun heq => h.stop_not_mem (heq ▸ List.mem_map_of_mem hr)
    have hstarts := (List.pairwise_cons.mp (List.pairwise_append.mp h.shape.starts).2.1).2
    intro n hn
    rcases List.mem_cons.mp hn with rfl | hn
    · exact hle
    · exact hle.trans ((List.pairwise_cons.mp hstarts).1 n hn).le

end Nodes

end LossArrays

end Udtfs

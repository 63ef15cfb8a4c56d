import Udtfs.Lib.Calls
import Udtfs.Transport.LossArrays

/-!
# The loss list of the sender

`CSndLossList` of `list.cpp`: the packets to be sent again. Packets are inserted in any order, taken from
the front, and removed up to an acknowledged one.
-/

namespace Udtfs

open LinkedSlots Spans

/-- `CSndLossList`. -/
structure SndLossList extends LossArrays where
  /-- `m_iLastInsertPos`: where the search for a place begins. -/
  lastInsertPos : ℤ

namespace LossArrays

/-- An interval from `seqno1` on is stored at `loc`: up to `seqno2` it may become longer. Nothing where it
already reaches as far. -/
def lengthen (l : LossArrays) (loc seqno1 seqno2 : ℤ) : Option LossArrays :=
  if l.data2 loc = -1 then
    if seqno2 ≠ seqno1 then
      some { l with
        length := l.length + (seqlen seqno1 seqno2 - 1)
        data2 := Function.update l.data2 loc seqno2 }
    else some l
  else if seqcmp seqno2 (l.data2 loc) > 0 then
    some { l with
      length := l.length + (seqlen (l.data2 loc) seqno2 - 1)
      data2 := Function.update l.data2 loc seqno2 }
  else none

/-- One round of the loop that coalesces an interval with the next one. -/
def coalesceNext (loc : ℤ) (l : LossArrays) : LossArrays :=
  let i := l.next loc
  let merged :=
    if l.data2 i ≠ -1 then
      if seqcmp (l.data2 i) (l.data2 loc) > 0 then
        { l with
          length := if seqcmp (l.data2 loc) (l.data1 i) ≥ 0 then
            l.length - seqlen (l.data1 i) (l.data2 loc) else l.length
          data2 := Function.update l.data2 loc (l.data2 i) }
      else { l with length := l.length - seqlen (l.data1 i) (l.data2 i) }
    else if l.data1 i = incseq (l.data2 loc) then
      { l with data2 := Function.update l.data2 loc (l.data1 i) }
    else { l with length := l.length - 1 }
  { merged with
    data1 := Function.update merged.data1 i (-1)
    data2 := Function.update merged.data2 i (-1)
    next := Function.update merged.next loc (merged.next i) }

/-- The loop at the end of `insert`. -/
def coalesce (l : LossArrays) (loc : ℤ) : Option LossArrays :=
  whileLoop
    (fun l => (l.next loc ≠ -1 ∧ l.data2 loc ≠ -1) ∧
      seqcmp (l.data1 (l.next loc)) (incseq (l.data2 loc)) ≤ 0)
    (coalesceNext loc) l.size.toNat l

end LossArrays

namespace SndLossList

/-- The constructor. -/
def init (next : ℤ → ℤ) (size : ℤ) : SndLossList := ⟨LossArrays.init next size, -1⟩

/-- `insert` into a list that is not empty, up to the coalescing: the list, and the place of the interval
that has grown. No place where `insert` returns zero. -/
def insertNode (l : SndLossList) (seqno1 seqno2 : ℤ) : Option (SndLossList × Option ℤ) :=
  let offset := seqoff (l.data1 l.head) seqno1
  let loc := l.place offset
  if offset < 0 then
    let a := l.put loc seqno1 seqno2
    some (⟨{ a with
      next := Function.update a.next loc a.head
      head := loc
      length := a.length + seqlen seqno1 seqno2 }, loc⟩, some loc)
  else if offset > 0 then
    if seqno1 = l.data1 loc then
      match l.lengthen loc seqno1 seqno2 with
      | some a => some (⟨a, loc⟩, some loc)
      | none => some (⟨l.toLossArrays, loc⟩, none)
    else do
      let start := if l.lastInsertPos ≠ -1 ∧ seqcmp (l.data1 l.lastInsertPos) seqno1 < 0 then
        l.lastInsertPos else l.head
      let i ← l.searchPrior seqno1 start
      if l.data2 i = -1 ∨ seqcmp (l.data2 i) seqno1 < 0 then
        let a := l.put loc seqno1 seqno2
        some (⟨{ a with
          next := Function.update (Function.update a.next loc (a.next i)) i loc
          length := a.length + seqlen seqno1 seqno2 }, loc⟩, some loc)
      else if seqcmp (l.data2 i) seqno2 < 0 then
        some (⟨{ l.toLossArrays with
          length := l.length + (seqlen (l.data2 i) seqno2 - 1)
          data2 := Function.update l.data2 i seqno2 }, i⟩, some i)
      else some (⟨l.toLossArrays, i⟩, none)
  else if seqno2 ≠ seqno1 then
    match l.lengthen loc seqno1 seqno2 with
    | some a => some (⟨a, l.head⟩, some loc)
    | none => some (⟨l.toLossArrays, l.head⟩, none)
  else some (⟨l.toLossArrays, l.head⟩, none)

/-- `insert`: the list, and what it returns. -/
def insert (l : SndLossList) (seqno1 seqno2 : ℤ) : Option (SndLossList × ℤ) :=
  if l.length = 0 then
    let a := l.put 0 seqno1 seqno2
    let length := a.length + seqlen seqno1 seqno2
    some (⟨{ a with head := 0, next := Function.update a.next 0 (-1), length := length }, 0⟩, length)
  else do
    let (placed, loc) ← l.insertNode seqno1 seqno2
    match loc with
    | none => some (placed, 0)
    | some loc =>
      let joined ← placed.coalesce loc
      some ({ placed with toLossArrays := joined }, joined.length - l.length)

/-- One round of the loop of `remove` over the nodes before the new head. -/
def removeNode : SndLossList × ℤ → SndLossList × ℤ
  | (l, h) =>
    (⟨{ l.toLossArrays with
        length := if l.data2 h ≠ -1 then l.length - seqlen (l.data1 h) (l.data2 h) else l.length - 1
        data2 := if l.data2 h ≠ -1 then Function.update l.data2 h (-1) else l.data2
        data1 := Function.update l.data1 h (-1) },
      if l.lastInsertPos = h then -1 else l.lastInsertPos⟩, l.next h)

/-- `remove` of the first number of the head. -/
def removeHead (l : SndLossList) (seqno : ℤ) : SndLossList :=
  let a := l.toLossArrays
  let b :=
    if a.data2 a.head = -1 then { a with head := a.next a.head }
    else
      let loc := (a.place 0 + 1).tmod a.size
      let p := a.putRest loc (incseq seqno) (a.data2 a.head)
      { p with
        data2 := Function.update p.data2 a.head (-1)
        next := Function.update p.next loc (p.next a.head)
        head := loc }
  ⟨{ b with data1 := Function.update b.data1 a.head (-1), length := b.length - 1 },
    if l.lastInsertPos = a.head then -1 else l.lastInsertPos⟩

/-- `remove` of a number behind the head: the arrays with the new head, before the nodes in front of it
are removed. -/
def cutAt (a : LossArrays) (offset seqno : ℤ) : Option LossArrays :=
  let temp := a.place offset
  let loc := (temp + 1).tmod a.size
  if seqno = a.data1 temp then
    if a.data2 temp = -1 then some { a with head := a.next temp }
    else
      let p := a.putRest loc (incseq seqno) (a.data2 temp)
      some { p with
        head := loc
        next := Function.update (Function.update p.next loc (p.next temp)) temp loc
        data2 := Function.update p.data2 temp (-1) }
  else do
    let i ← a.searchPrior seqno a.head
    if a.data2 i = -1 then some { a with head := a.next i }
    else if seqcmp (a.data2 i) seqno > 0 then
      let p := a.putRest loc (incseq seqno) (a.data2 i)
      some { p with
        data2 := Function.update p.data2 i seqno
        next := Function.update (Function.update p.next loc (p.next i)) i loc
        head := loc }
    else some { a with head := a.next i }

/-- `remove`: all numbers up to one. -/
def remove (l : SndLossList) (seqno : ℤ) : Option SndLossList :=
  if l.length = 0 then some l
  else
    let offset := seqoff (l.data1 l.head) seqno
    if offset = 0 then some (l.removeHead seqno)
    else if offset > 0 then do
      let a ← cutAt l.toLossArrays offset seqno
      let (removed, _) ← whileLoop (fun s => s.2 ≠ s.1.head) removeNode a.size.toNat
        (⟨a, l.lastInsertPos⟩, l.head)
      some removed
    else some l

/-- `getLossLength`. -/
def getLossLength (l : SndLossList) : ℤ := l.length

/-- `getLostSeq`: the list, and the first number or -1. -/
def getLostSeq (l : SndLossList) : SndLossList × ℤ :=
  if l.length = 0 then (l, -1)
  else
    let a := l.toLossArrays
    let lastInsertPos := if l.lastInsertPos = a.head then -1 else l.lastInsertPos
    let seqno := a.data1 a.head
    let b :=
      if a.data2 a.head = -1 then
        { a with data1 := Function.update a.data1 a.head (-1), head := a.next a.head }
      else
        let loc := (a.head + 1).tmod a.size
        let p := a.putRest loc (incseq seqno) (a.data2 a.head)
        { p with
          data1 := Function.update p.data1 a.head (-1)
          data2 := Function.update p.data2 a.head (-1)
          next := Function.update p.next loc (p.next a.head)
          head := loc }
    (⟨{ b with length := b.length - 1 }, lastInsertPos⟩, seqno)

end SndLossList

/-! ## Coalescing -/

namespace LossArrays

variable {l l' : LossArrays} {c : ℤ} {pre post ns : List (ℤ × ℤ)} {m n : ℤ × ℤ}

/-- What the arrays hold at the place of an interval. -/
theorem Nodes.data1_pos (h : Nodes l c ns) (hn : n ∈ ns) : l.data1 (pos l.size c n) = seqOf n.1 :=
  h.first.held n hn

/-- An interval has its last number stored. -/
theorem Nodes.data2_pos (h : Nodes l c ns) (hn : n ∈ ns) : l.data2 (pos l.size c n) = finish n :=
  h.last.held n hn

/-- One round of the loop when the next interval ends behind an interval that reaches it. -/
theorem Nodes.coalesceNext_grow (h : Nodes l c (pre ++ m :: n :: post)) (hm : m.1 < m.2)
    (hn : n.1 ≤ m.2 + 1) (hgrow : m.2 < n.2) :
    l.coalesceNext (pos l.size c m) =
      { l with
        data1 := Function.update l.data1 (pos l.size c n) (-1)
        data2 := Function.update (Function.update l.data2 (pos l.size c m) (seqOf n.2)) (pos l.size c n) (-1)
        next := Function.update l.next (pos l.size c m) (l.next (pos l.size c n))
        length := l.length + (n.2 - m.2) - (n.2 - n.1 + 1) } := by
  have hmmem : m ∈ pre ++ m :: n :: post := by simp
  have hnmem : n ∈ pre ++ m :: n :: post := by simp
  have hstart : m.1 < n.1 :=
    (List.pairwise_cons.mp (List.pairwise_append.mp h.shape.starts).2.1).1 n List.mem_cons_self
  have hends := h.shape.ends n hnmem
  have hmn := h.shape.within m hmmem n hnmem
  have hd2m := h.data2_pos hmmem
  rw [finish_ne hm] at hd2m
  have hcmp : seqcmp (seqOf n.2) (seqOf m.2) > 0 :=
    (seqcmp_pos (near_of_le h.shape.size_le (by omega) (by omega))).mpr hgrow
  have hnear : Near m.2 n.1 := near_of_le h.shape.size_le (by omega) (by omega)
  simp only [LossArrays.coalesceNext, h.next_eq, h.data1_pos hnmem, h.data2_pos hnmem, hd2m,
    incseq_seqOf]
  by_cases hsingle : n.2 = n.1
  · have hfollows : n.1 = m.2 + 1 := by omega
    rw [finish_single hsingle, if_neg (by simp), if_pos (by rw [hfollows]), hsingle]
    congr 1
    dsimp only
    omega
  · rw [finish_ne (by omega), if_pos (seqOf_ne_neg_one n.2), if_pos hcmp]
    simp only [seqcmp_nonneg hnear]
    congr 1
    split_ifs with hreach
    · rw [seqlen_seqOf hreach (near_of_le h.shape.size_le (by omega) (by omega))]
      omega
    · omega

/-- One round of the loop when the next interval lies within. -/
theorem Nodes.coalesceNext_within (h : Nodes l c (pre ++ m :: n :: post)) (hm : m.1 < m.2)
    (hwithin : n.2 ≤ m.2) :
    l.coalesceNext (pos l.size c m) =
      { l with
        data1 := Function.update l.data1 (pos l.size c n) (-1)
        data2 := Function.update l.data2 (pos l.size c n) (-1)
        next := Function.update l.next (pos l.size c m) (l.next (pos l.size c n))
        length := l.length - (n.2 - n.1 + 1) } := by
  have hmmem : m ∈ pre ++ m :: n :: post := by simp
  have hnmem : n ∈ pre ++ m :: n :: post := by simp
  have hstart : m.1 < n.1 :=
    (List.pairwise_cons.mp (List.pairwise_append.mp h.shape.starts).2.1).1 n List.mem_cons_self
  have hends := h.shape.ends n hnmem
  have hmm := h.shape.within m hmmem m hmmem
  have hd2m := h.data2_pos hmmem
  rw [finish_ne hm] at hd2m
  have hcmp : ¬ seqcmp (seqOf n.2) (seqOf m.2) > 0 := by
    rw [gt_iff_lt, seqcmp_pos (near_of_le h.shape.size_le (by omega) (by omega)), not_lt]
    exact hwithin
  simp only [LossArrays.coalesceNext, h.next_eq, h.data1_pos hnmem, h.data2_pos hnmem, hd2m,
    incseq_seqOf]
  by_cases hsingle : n.2 = n.1
  · have hne : seqOf n.1 ≠ seqOf (m.2 + 1) := by
      rw [Ne, seqOf_inj (near_of_le h.shape.size_le (by omega) (by omega))]
      omega
    rw [finish_single hsingle, if_neg (by simp), if_neg hne]
    congr 1
    dsimp only
    omega
  · rw [finish_ne (by omega), if_pos (seqOf_ne_neg_one n.2), if_neg hcmp,
      seqlen_seqOf hends (near_of_le h.shape.size_le (by omega) (by omega))]

/-- One round of the loop: an interval that reaches the next one takes it in. -/
theorem Nodes.coalesceNext (h : Nodes l c (pre ++ m :: n :: post)) (hm : m.1 < m.2) (hn : n.1 ≤ m.2 + 1) :
    Nodes (l.coalesceNext (pos l.size c m)) c (pre ++ (m.1, max m.2 n.2) :: post) := by
  have hnmem : n ∈ pre ++ m :: n :: post := by simp
  by_cases hgrow : m.2 < n.2
  · have hgrown := @Nodes.setLast l
      { l with
        data2 := Function.update l.data2 (pos l.size c m) (finish (m.1, n.2))
        length := l.length + (n.2 - m.2) } c pre (n :: post) m n.2 h (by omega)
      (fun k hk => h.shape.within k hk n hnmem) rfl rfl rfl rfl rfl rfl
    rw [finish_ne (n := (m.1, n.2)) (hm.trans hgrow)] at hgrown
    rw [max_eq_right hgrow.le, h.coalesceNext_grow hm hn hgrow]
    exact hgrown.eraseNext rfl rfl rfl rfl rfl rfl
  · rw [max_eq_left (not_lt.mp hgrow), h.coalesceNext_within hm (not_lt.mp hgrow)]
    exact h.eraseNext rfl rfl rfl rfl rfl rfl

/-- Coalescing keeps the size. -/
@[simp] theorem coalesceNext_size (loc : ℤ) (l : LossArrays) : (l.coalesceNext loc).size = l.size := by
  simp only [LossArrays.coalesceNext]
  split_ifs <;> rfl

/-- An interval that reaches the next one and that one together cover what the longer of them covers. -/
theorem covers_join (hstart : m.1 ≤ n.1) (hn : n.1 ≤ m.2 + 1) :
    covers (pre ++ (m.1, max m.2 n.2) :: post) = covers (pre ++ m :: n :: post) := by
  ext x
  simp only [mem_covers_append, mem_covers_cons, le_max_iff]
  have hjoin : (m.1 ≤ x ∧ (x ≤ m.2 ∨ x ≤ n.2)) ↔ (m.1 ≤ x ∧ x ≤ m.2) ∨ (n.1 ≤ x ∧ x ≤ n.2) := by omega
  rw [hjoin, or_assoc]

/-- What the loop keeps: the interval at `m` has taken in some that follow it, and so many are left. -/
def Coalescing (l : LossArrays) (c : ℤ) (pre : List (ℤ × ℤ)) (m : ℤ × ℤ) (post : List (ℤ × ℤ)) (k : ℕ)
    (l' : LossArrays) : Prop :=
  ∃ b post', Nodes l' c (pre ++ (m.1, b) :: post') ∧ l'.size = l.size ∧ Ordered post' ∧
    covers (pre ++ (m.1, b) :: post') = covers (pre ++ m :: post) ∧ k = post'.length

/-- The condition of the loop, at an interval and the next one. -/
theorem Nodes.coalesce_cond (h : Nodes l c (pre ++ m :: n :: post)) :
    ((l.next (pos l.size c m) ≠ -1 ∧ l.data2 (pos l.size c m) ≠ -1) ∧
      seqcmp (l.data1 (l.next (pos l.size c m))) (incseq (l.data2 (pos l.size c m))) ≤ 0) ↔
      m.1 < m.2 ∧ n.1 ≤ m.2 + 1 := by
  have hmmem : m ∈ pre ++ m :: n :: post := by simp
  have hnmem : n ∈ pre ++ m :: n :: post := by simp
  have hstart : m.1 < n.1 :=
    (List.pairwise_cons.mp (List.pairwise_append.mp h.shape.starts).2.1).1 n List.mem_cons_self
  have hmends := h.shape.ends m hmmem
  have hnends := h.shape.ends n hnmem
  have hmn := h.shape.within m hmmem n hnmem
  have hmm := h.shape.within m hmmem m hmmem
  have hnext : pos l.size c n ≠ -1 := fun heq => h.stop_not_mem (heq ▸ List.mem_map_of_mem hnmem)
  rw [h.next_eq, h.data1_pos hnmem, h.data2_pos hmmem, Ne, Ne, finish_eq_neg_one, and_iff_right hnext]
  by_cases hsingle : m.2 = m.1
  · exact iff_of_false (fun hcond => hcond.1 hsingle) (by omega)
  · have hlt : m.1 < m.2 := by omega
    rw [finish_ne hlt, incseq_seqOf, seqcmp_nonpos (near_of_le h.shape.size_le (by omega) (by omega))]
    exact and_congr_left' (iff_of_true hsingle hlt)

/-- The loop at the end of `insert`: an interval takes in all that follow as long as it reaches them. -/
theorem Nodes.coalesce (h : Nodes l c (pre ++ m :: post)) (hpre : Ordered (pre ++ [m])) (hpost : Ordered post) :
    ∃ l' b post', l.coalesce (pos l.size c m) = some l' ∧ l'.size = l.size ∧
      Nodes l' c (pre ++ (m.1, b) :: post') ∧ Ordered (pre ++ (m.1, b) :: post') ∧
      covers (pre ++ (m.1, b) :: post') = covers (pre ++ m :: post) := by
  have hlength : post.length ≤ l.size.toNat := by
    have hlength := h.shape.length_le
    rw [List.length_append, List.length_cons] at hlength
    omega
  have hstep : ∀ k l', Coalescing l c pre m post k l' →
      decide ((l'.next (pos l.size c m) ≠ -1 ∧ l'.data2 (pos l.size c m) ≠ -1) ∧
        seqcmp (l'.data1 (l'.next (pos l.size c m))) (incseq (l'.data2 (pos l.size c m))) ≤ 0) = true →
      ∃ k' < k, Coalescing l c pre m post k' (l'.coalesceNext (pos l.size c m)) := by
    intro k l' ⟨b, post', hnodes, hsize, hordered, hcovers, hk⟩ hcond
    rw [← hsize] at hcond ⊢
    cases post' with
    | nil => exact absurd hnodes.next_last (of_decide_eq_true hcond).1.1
    | cons n post' =>
      obtain ⟨hb, hn⟩ := hnodes.coalesce_cond.mp (of_decide_eq_true hcond)
      refine ⟨post'.length, by rw [hk]; exact Nat.lt_succ_self _, max b n.2, post',
        hnodes.coalesceNext hb hn, by rw [coalesceNext_size, hsize], hordered.tail, ?_, rfl⟩
      have hstart : m.1 < n.1 :=
        (List.pairwise_cons.mp (List.pairwise_append.mp hnodes.shape.starts).2.1).1 n List.mem_cons_self
      rw [← hcovers]
      exact covers_join (m := (m.1, b)) hstart.le hn
  obtain ⟨l', k, hloop, ⟨b, post', hnodes, hsize, hordered, hcovers, -⟩, hcond⟩ :=
    whileLoop_spec hstep ⟨m.2, post, h, rfl, hpost, rfl, rfl⟩ hlength
  refine ⟨l', b, post', hloop, hsize, hnodes, ?_, hcovers⟩
  rw [← hsize] at hcond
  have hb := hnodes.shape.ends (m.1, b) (by simp)
  have happ := ordered_append.mp hpre
  refine ordered_append.mpr ⟨happ.1, ⟨?_, List.pairwise_cons.mpr ⟨?_, hordered.apart⟩⟩, ?_⟩
  · exact fun n hn => hnodes.shape.ends n (List.mem_append_right pre hn)
  · cases post' with
    | nil => exact fun n hn => absurd hn List.not_mem_nil
    | cons n post' =>
      have hstart : m.1 < n.1 :=
        (List.pairwise_cons.mp (List.pairwise_append.mp hnodes.shape.starts).2.1).1 n List.mem_cons_self
      have hnot := mt hnodes.coalesce_cond.mpr (of_decide_eq_false hcond)
      have hlt : b < n.1 := by
        dsimp only at hb hnot
        omega
      intro r hr
      rcases List.mem_cons.mp hr with rfl | hr
      · exact hlt
      · exact hlt.trans_le ((hordered.nonempty n List.mem_cons_self).trans
          ((List.pairwise_cons.mp hordered.apart).1 r hr).le)
  · intro r hr n hn
    have hlt := happ.2.2 r hr m List.mem_cons_self
    rcases List.mem_cons.mp hn with rfl | hn
    · exact hlt
    · exact hlt.trans ((List.pairwise_cons.mp (List.pairwise_append.mp hnodes.shape.starts).2.1).1 n hn)

/-- An interval that is stored becomes as long as it has to be, unless it is already. -/
theorem Nodes.lengthen {b : ℤ} (h : Nodes l c (pre ++ n :: post)) (hb : n.1 ≤ b)
    (hwithin : ∀ m ∈ pre ++ n :: post, b - m.1 < l.size) :
    (l.lengthen (pos l.size c n) (seqOf n.1) (seqOf b) = none ∧ b ≤ n.2) ∨
      ∃ l', l.lengthen (pos l.size c n) (seqOf n.1) (seqOf b) = some l' ∧ l'.size = l.size ∧
        Nodes l' c (pre ++ (n.1, max n.2 b) :: post) := by
  have hn : n ∈ pre ++ n :: post := by simp
  have hends := h.shape.ends n hn
  have hnn := h.shape.within n hn n hn
  have hbn := hwithin n hn
  have hnear : ∀ x y, n.1 ≤ x → x - n.1 < l.size → n.1 ≤ y → y - n.1 < l.size → Near x y :=
    fun x y _ _ _ _ => near_of_le h.shape.size_le (by omega) (by omega)
  have hset := fun l' => @Nodes.setLast l l' c pre post n b h hb hwithin
  unfold LossArrays.lengthen
  rw [h.data2_pos hn]
  by_cases hsingle : n.2 = n.1
  · have hinj := seqOf_inj (hnear b n.1 hb hbn le_rfl (by omega))
    rw [if_pos (finish_single hsingle)]
    refine Or.inr ?_
    by_cases hbeq : b = n.1
    · refine ⟨l, if_neg (not_not.mpr (hinj.mpr hbeq)), rfl, ?_⟩
      have hn' : (n.1, max n.2 b) = n := Prod.ext rfl (by dsimp only; omega)
      rwa [hn']
    · refine ⟨_, if_pos (mt hinj.mp hbeq), rfl, ?_⟩
      rw [max_eq_right (by omega)]
      refine hset _ rfl ?_ rfl rfl rfl ?_
      · rw [finish_ne (n := (n.1, b)) (by dsimp only; omega)]
      · rw [seqlen_seqOf hb (hnear n.1 b le_rfl (by omega) hb hbn), hsingle]
        dsimp only
        omega
  · have hne : finish n ≠ -1 := mt finish_eq_neg_one.mp hsingle
    have hcmp := seqcmp_pos (hnear b n.2 hb hbn hends hnn)
    rw [if_neg hne, finish_ne (by omega)]
    by_cases hlonger : n.2 < b
    · refine Or.inr ⟨_, if_pos (hcmp.mpr hlonger), rfl, ?_⟩
      rw [max_eq_right hlonger.le]
      refine hset _ rfl ?_ rfl rfl rfl ?_
      · rw [finish_ne (n := (n.1, b)) (by dsimp only; omega)]
      · rw [seqlen_seqOf hlonger.le (hnear n.2 b hends hnn hb hbn)]
        dsimp only
        omega
    · exact Or.inl ⟨if_neg (mt hcmp.mp hlonger), not_lt.mp hlonger⟩

end LossArrays

/-! ## Inserting -/

namespace SndLossList

open LossArrays

/-- The intervals of the list, in order and without overlap. -/
structure Layout (l : SndLossList) (c : ℤ) (ns : List (ℤ × ℤ)) : Prop where
  nodes : Nodes l.toLossArrays c ns
  ordered : Ordered ns
  lastInsert : l.lastInsertPos = -1 ∨ ∃ n ∈ ns, l.lastInsertPos = pos l.size c n

/-- The indices that a list holds: those of the packets to be sent again. -/
def Holds (l : SndLossList) (S : Finset ℤ) : Prop := ∃ c ns, l.Layout c ns ∧ covers ns = S

/-- What `insertNode` leads to: nothing to do, or an interval that may overlap those behind it. -/
def Placed (l : SndLossList) (c : ℤ) (ns : List (ℤ × ℤ)) (T : Finset ℤ) (r : SndLossList × Option ℤ) :
    Prop :=
  (r.2 = none ∧ r.1.toLossArrays = l.toLossArrays ∧ (∃ n ∈ ns, r.1.lastInsertPos = pos l.size c n) ∧
    covers ns = T) ∨
  ∃ pre m post, r.2 = some (pos l.size c m) ∧ r.1.lastInsertPos = pos l.size c m ∧ r.1.size = l.size ∧
    Nodes r.1.toLossArrays c (pre ++ m :: post) ∧ Ordered (pre ++ [m]) ∧ Ordered post ∧
      covers (pre ++ m :: post) = T

variable {l : SndLossList} {c a b : ℤ} {pre post ns : List (ℤ × ℤ)} {m n : ℤ × ℤ}

/-- New numbers before all others. -/
theorem Layout.insert_front (h : l.Layout c (n :: post)) (hab : a ≤ b)
    (hshape : Shape l.size ((a, b) :: n :: post)) :
    Placed l c (n :: post) (covers (n :: post) ∪ interval a b)
      (⟨{ l.put (pos l.size c (a, b)) (seqOf a) (seqOf b) with
        next := Function.update l.next (pos l.size c (a, b)) l.head
        head := pos l.size c (a, b)
        length := l.length + seqlen (seqOf a) (seqOf b) }, pos l.size c (a, b)⟩,
        some (pos l.size c (a, b))) := by
  have hself := hshape.within (a, b) (by simp) (a, b) (by simp)
  dsimp only at hself
  refine Or.inr ⟨[], (a, b), n :: post, rfl, rfl, rfl, ?_, ⟨by simpa using hab, by simp⟩, h.ordered, ?_⟩
  · refine h.nodes.pushFront hshape rfl (put_data2 ?_ _) rfl rfl rfl ?_
    · exact near_of_le hshape.size_le (by omega) (by omega)
    · rw [seqlen_seqOf hab (near_of_le hshape.size_le (by omega) (by omega))]
  · ext x
    simp only [List.nil_append, mem_covers_cons, Finset.mem_union, mem_interval]
    tauto

/-- An interval begins with the same number. -/
theorem Layout.insert_same (h : l.Layout c (pre ++ n :: post)) (hb : n.1 ≤ b)
    (hwithin : ∀ m ∈ pre ++ n :: post, b - m.1 < l.size) {loc : ℤ} (hloc : loc = pos l.size c n) :
    Placed l c (pre ++ n :: post) (covers (pre ++ n :: post) ∪ interval n.1 b)
      (match l.lengthen loc (seqOf n.1) (seqOf b) with
        | some a => (⟨a, loc⟩, some loc)
        | none => (⟨l.toLossArrays, loc⟩, none)) := by
  subst hloc
  obtain ⟨hpre, hpost, hcross⟩ := ordered_append.mp h.ordered
  have hends := h.ordered.nonempty n (by simp)
  rcases h.nodes.lengthen hb hwithin with ⟨hnone, hle⟩ | ⟨a, hsome, hsize, hnodes⟩
  · rw [hnone]
    refine Or.inl ⟨rfl, rfl, ⟨n, by simp, rfl⟩, ?_⟩
    ext x
    simp only [mem_covers_append, mem_covers_cons, Finset.mem_union, mem_interval]
    constructor
    · exact Or.inl
    · rintro (hx | ⟨hlow, hhigh⟩)
      · exact hx
      · exact Or.inr (Or.inl ⟨hlow, hhigh.trans hle⟩)
  · rw [hsome]
    refine Or.inr ⟨pre, (n.1, max n.2 b), post, rfl, rfl, hsize, hnodes, ?_, hpost.tail, ?_⟩
    · refine ordered_append.mpr ⟨hpre, ⟨by simpa using Or.inl hends, by simp⟩, fun m hm k hk => ?_⟩
      rw [List.mem_singleton.mp hk]
      exact hcross m hm n List.mem_cons_self
    · ext x
      simp only [mem_covers_append, mem_covers_cons, Finset.mem_union, mem_interval, le_max_iff]
      tauto

/-- New numbers behind an interval that they do not touch. -/
theorem Layout.insert_behind (h : l.Layout c (pre ++ m :: post)) (hab : a ≤ b) (hma : m.2 < a)
    (hshape : Shape l.size (pre ++ m :: (a, b) :: post)) :
    Placed l c (pre ++ m :: post) (covers (pre ++ m :: post) ∪ interval a b)
      (⟨{ l.put (pos l.size c (a, b)) (seqOf a) (seqOf b) with
        next := Function.update (Function.update l.next (pos l.size c (a, b)) (l.next (pos l.size c m)))
          (pos l.size c m) (pos l.size c (a, b))
        length := l.length + seqlen (seqOf a) (seqOf b) }, pos l.size c (a, b)⟩,
        some (pos l.size c (a, b))) := by
  have hself := hshape.within (a, b) (by simp) (a, b) (by simp)
  dsimp only at hself
  obtain ⟨hpre, hpost, hcross⟩ := ordered_append.mp h.ordered
  refine Or.inr ⟨pre ++ [m], (a, b), post, rfl, rfl, rfl, ?_, ?_, hpost.tail, ?_⟩
  · rw [List.append_assoc]
    refine h.nodes.insertNext hshape rfl (put_data2 ?_ _) rfl rfl rfl ?_
    · exact near_of_le hshape.size_le (by omega) (by omega)
    · rw [seqlen_seqOf hab (near_of_le hshape.size_le (by omega) (by omega))]
  · refine ordered_append.mpr ⟨?_, ⟨by simpa using hab, by simp⟩, fun k hk r hr => ?_⟩
    · refine ordered_append.mpr ⟨hpre, ⟨by simpa using hpost.nonempty m (by simp), by simp⟩, ?_⟩
      intro k hk r hr
      rw [List.mem_singleton.mp hr]
      exact hcross k hk m List.mem_cons_self
    · rw [List.mem_singleton.mp hr]
      rcases List.mem_append.mp hk with hk | hk
      · exact ((hcross k hk m List.mem_cons_self).trans_le (hpost.nonempty m List.mem_cons_self)).trans hma
      · rwa [List.mem_singleton.mp hk]
  · ext x
    simp only [List.append_assoc, List.singleton_append, mem_covers_append, mem_covers_cons,
      Finset.mem_union, mem_interval]
    tauto

/-- New numbers that begin within an interval and end behind it. -/
theorem Layout.insert_over (h : l.Layout c (pre ++ m :: post)) (hma : m.1 ≤ a) (ham : a ≤ m.2) (hmb : m.2 < b)
    (hwithin : ∀ k ∈ pre ++ m :: post, b - k.1 < l.size) :
    Placed l c (pre ++ m :: post) (covers (pre ++ m :: post) ∪ interval a b)
      (⟨{ l.toLossArrays with
        length := l.length + (seqlen (seqOf m.2) (seqOf b) - 1)
        data2 := Function.update l.data2 (pos l.size c m) (seqOf b) }, pos l.size c m⟩,
        some (pos l.size c m)) := by
  obtain ⟨hpre, hpost, hcross⟩ := ordered_append.mp h.ordered
  have hmb' := hwithin m (by simp)
  refine Or.inr ⟨pre, (m.1, b), post, rfl, rfl, rfl, ?_, ?_, hpost.tail, ?_⟩
  · refine h.nodes.setLast (by omega) hwithin rfl ?_ rfl rfl rfl ?_
    · rw [finish_ne (n := (m.1, b)) (by dsimp only; omega)]
    · rw [seqlen_seqOf hmb.le (near_of_le h.nodes.shape.size_le (by omega) (by omega))]
      dsimp only
      omega
  · refine ordered_append.mpr ⟨hpre, ⟨by simpa using (by omega : m.1 ≤ b), by simp⟩, fun k hk r hr => ?_⟩
    rw [List.mem_singleton.mp hr]
    exact hcross k hk m List.mem_cons_self
  · ext x
    simp only [mem_covers_append, mem_covers_cons, Finset.mem_union, mem_interval]
    have hjoin : m.1 ≤ x ∧ x ≤ b ↔ (m.1 ≤ x ∧ x ≤ m.2) ∨ (a ≤ x ∧ x ≤ b) := by omega
    rw [hjoin]
    tauto

/-- Where the search for a place begins: at an interval that begins before the number. -/
theorem Layout.search_start (h : l.Layout c (n :: post)) (hna : n.1 < a)
    (hnear : ∀ k ∈ n :: post, Near k.1 a) :
    ∃ m ∈ n :: post, m.1 < a ∧
      (if l.lastInsertPos ≠ -1 ∧ seqcmp (l.data1 l.lastInsertPos) (seqOf a) < 0 then l.lastInsertPos
        else l.head) = pos l.size c m := by
  split_ifs with hlast
  · rcases h.lastInsert with hnone | ⟨m, hm, hpos⟩
    · exact absurd hnone hlast.1
    · refine ⟨m, hm, ?_, hpos⟩
      have hcmp := hlast.2
      rwa [hpos, h.nodes.data1_pos hm, seqcmp_neg (hnear m hm)] at hcmp
  · exact ⟨n, List.mem_cons_self, hna, h.nodes.head_eq⟩

/-- New numbers behind the beginning of the list, where no interval begins with the first of them. -/
theorem Layout.insert_between (h : l.Layout c (n :: post)) (hab : a ≤ b) (hna : n.1 < a)
    (hne : ∀ k ∈ n :: post, k.1 ≠ a) (hfits : ∀ k ∈ n :: post, b - k.1 < l.size ∧ k.2 - a < l.size)
    (hself : b - a < l.size) :
    ∃ m pre post', n :: post = pre ++ m :: post' ∧ m.1 < a ∧ Shape l.size (pre ++ m :: (a, b) :: post') ∧
      l.searchPrior (seqOf a)
        (if l.lastInsertPos ≠ -1 ∧ seqcmp (l.data1 l.lastInsertPos) (seqOf a) < 0 then l.lastInsertPos
          else l.head) = some (pos l.size c m) := by
  have hnear : ∀ k ∈ n :: post, Near k.1 a := by
    intro k hk
    have hends := h.ordered.nonempty k hk
    have hk' := hfits k hk
    exact near_of_le h.nodes.shape.size_le (by omega) (by omega)
  obtain ⟨start, hstart, hsa, hpos⟩ := h.search_start hna hnear
  obtain ⟨pre₀, post₀, hsplit₀⟩ := List.append_of_mem hstart
  rw [hpos]
  have hnodes := h.nodes
  rw [hsplit₀] at hnodes hnear
  obtain ⟨pre, m, post', hsplit, hma, hpost, hsearch⟩ := hnodes.searchPrior hsa hnear
  rw [← hsplit₀] at hsplit
  refine ⟨m, pre, post', hsplit, hma, ?_, hsearch⟩
  have hshape := h.nodes.shape
  rw [hsplit] at hshape hne hfits
  have hsplit' : pre ++ m :: (a, b) :: post' = (pre ++ [m]) ++ (a, b) :: post' := by simp
  have hsplit'' : pre ++ m :: post' = (pre ++ [m]) ++ post' := by simp
  rw [hsplit']
  rw [hsplit''] at hshape hne hfits
  refine hshape.insert hab ?_ ?_ hself hfits
  · have hstarts := (List.pairwise_append.mp (List.pairwise_append.mp hshape.starts).1).2.2
    intro k hk
    rcases List.mem_append.mp hk with hk | hk
    · exact (hstarts k hk m List.mem_cons_self).trans hma
    · rwa [List.mem_singleton.mp hk]
  · intro k hk
    exact lt_of_le_of_ne (hpost k hk) (hne k (List.mem_append_right _ hk)).symm

/-- New numbers that begin behind the beginning of an interval and before the next one. -/
theorem Layout.insert_after (h : l.Layout c (pre ++ m :: post)) (hab : a ≤ b) (hma : m.1 < a)
    (hshape : Shape l.size (pre ++ m :: (a, b) :: post))
    (hwithin : ∀ k ∈ pre ++ m :: post, b - k.1 < l.size ∧ k.2 - a < l.size) :
    ∃ r, (do
        let i ← some (pos l.size c m)
        if l.data2 i = -1 ∨ seqcmp (l.data2 i) (seqOf a) < 0 then
          let p := l.put (pos l.size c (a, b)) (seqOf a) (seqOf b)
          some ((⟨{ p with
            next := Function.update (Function.update p.next (pos l.size c (a, b)) (p.next i)) i
              (pos l.size c (a, b))
            length := p.length + seqlen (seqOf a) (seqOf b) }, pos l.size c (a, b)⟩ : SndLossList),
              some (pos l.size c (a, b)))
        else if seqcmp (l.data2 i) (seqOf b) < 0 then
          some (⟨{ l.toLossArrays with
            length := l.length + (seqlen (l.data2 i) (seqOf b) - 1)
            data2 := Function.update l.data2 i (seqOf b) }, i⟩, some i)
        else some (⟨l.toLossArrays, i⟩, none)) = some r ∧
      Placed l c (pre ++ m :: post) (covers (pre ++ m :: post) ∪ interval a b) r := by
  have hm : m ∈ pre ++ m :: post := by simp
  have hends := h.ordered.nonempty m hm
  have hmself := h.nodes.shape.within m hm m hm
  have hm' := hwithin m hm
  have hnear : Near m.2 a := near_of_le h.nodes.shape.size_le (by omega) (by omega)
  have hnear' : Near m.2 b := near_of_le h.nodes.shape.size_le (by omega) (by omega)
  have hgap : (l.data2 (pos l.size c m) = -1 ∨ seqcmp (l.data2 (pos l.size c m)) (seqOf a) < 0) ↔
      m.2 < a := by
    rw [h.nodes.data2_pos hm, finish_eq_neg_one]
    by_cases hsingle : m.2 = m.1
    · exact iff_of_true (Or.inl hsingle) (by omega)
    · rw [finish_ne (by omega), seqcmp_neg hnear]
      exact or_iff_right hsingle
  simp only [Option.bind_eq_bind, Option.bind_some]
  by_cases hma2 : m.2 < a
  · rw [if_pos (hgap.mpr hma2)]
    exact ⟨_, rfl, h.insert_behind hab hma2 hshape⟩
  · rw [if_neg (mt hgap.mp hma2), h.nodes.data2_pos hm, finish_ne (by omega)]
    by_cases hmb : m.2 < b
    · rw [if_pos ((seqcmp_neg hnear').mpr hmb)]
      exact ⟨_, rfl, h.insert_over hma.le (not_lt.mp hma2) hmb fun k hk => (hwithin k hk).1⟩
    · rw [if_neg (mt (seqcmp_neg hnear').mp hmb)]
      refine ⟨_, rfl, Or.inl ⟨rfl, rfl, ⟨m, hm, rfl⟩, ?_⟩⟩
      refine (Finset.union_eq_left.mpr fun x hx => ?_).symm
      rw [mem_interval] at hx
      exact mem_covers.mpr ⟨m, hm, by omega, by omega⟩

/-- `insertNode` finds the place of new numbers. -/
theorem Layout.insertNode (h : l.Layout c (n :: post)) (hab : a ≤ b)
    (hfits : Fits l.size (covers (n :: post) ∪ interval a b)) :
    ∃ r, l.insertNode (seqOf a) (seqOf b) = some r ∧
      Placed l c (n :: post) (covers (n :: post) ∪ interval a b) r := by
  have ha : a ∈ covers (n :: post) ∪ interval a b :=
    Finset.mem_union_right _ (mem_interval.mpr ⟨le_rfl, hab⟩)
  have hb : b ∈ covers (n :: post) ∪ interval a b :=
    Finset.mem_union_right _ (mem_interval.mpr ⟨hab, le_rfl⟩)
  have hself := hfits a ha b hb
  have hwithin : ∀ k ∈ n :: post, b - k.1 < l.size ∧ k.2 - a < l.size := fun k hk =>
    ⟨hfits k.1 (Finset.mem_union_left _ (h.ordered.fst_mem hk)) b hb,
      hfits a ha k.2 (Finset.mem_union_left _ (h.ordered.snd_mem hk))⟩
  have hnear : ∀ k ∈ n :: post, Near k.1 a := by
    intro k hk
    have hends := h.ordered.nonempty k hk
    have hk' := hwithin k hk
    exact near_of_le h.nodes.shape.size_le (by omega) (by omega)
  have hn := hwithin n List.mem_cons_self
  have hnends := h.ordered.nonempty n List.mem_cons_self
  have hoff : seqoff (l.data1 l.head) (seqOf a) = a - n.1 := by
    rw [h.nodes.head_eq, h.nodes.data1_pos List.mem_cons_self, seqoff_seqOf (hnear n List.mem_cons_self)]
  have hloc : l.place (a - n.1) = pos l.size c (a, b) := h.nodes.place_eq (by omega) b
  unfold SndLossList.insertNode
  simp only [hoff, hloc]
  rcases lt_trichotomy a n.1 with hlt | heq | hgt
  · rw [if_pos (by omega)]
    refine ⟨_, rfl, h.insert_front hab ?_⟩
    exact @Shape.insert [] _ _ _ h.nodes.shape hab (by simp)
      (fun k hk => hlt.trans_le (h.ordered.fst_le_of_mem (h.ordered.fst_mem hk))) hself hwithin
  · subst heq
    have hpos : pos l.size c (n.1, b) = pos l.size c n := rfl
    rw [if_neg (by omega), if_neg (by omega), hpos, ← h.nodes.head_eq]
    by_cases hbn : b = n.1
    · rw [if_neg (by rw [hbn]; exact not_not.mpr rfl)]
      refine ⟨_, rfl, Or.inl ⟨rfl, rfl, ⟨n, List.mem_cons_self, h.nodes.head_eq⟩, ?_⟩⟩
      rw [hbn, interval_self]
      exact (Finset.union_eq_left.mpr
        (Finset.singleton_subset_iff.mpr (h.ordered.fst_mem List.mem_cons_self))).symm
    · have hbne : seqOf b ≠ seqOf n.1 :=
        mt (seqOf_inj (near_of_le h.nodes.shape.size_le (by omega) (by omega))).mp hbn
      have hplaced := @Layout.insert_same l c b [] post n h hab (fun k hk => (hwithin k hk).1) _ h.nodes.head_eq
      rw [if_pos hbne]
      cases hlen : l.lengthen l.head (seqOf n.1) (seqOf b) <;> rw [hlen] at hplaced <;>
        exact ⟨_, rfl, hplaced⟩
  · rw [if_neg (by omega), if_pos (by omega)]
    by_cases hstored : ∃ k ∈ n :: post, k.1 = a
    · rw [if_pos ((h.nodes.data1_eq_iff hnear).mpr hstored).symm]
      obtain ⟨k, hk, rfl⟩ := hstored
      obtain ⟨pre, post', hsplit⟩ := List.append_of_mem hk
      rw [hsplit] at h hwithin ⊢
      have hplaced := h.insert_same hab (fun k hk => (hwithin k hk).1)
        (show pos l.size c (k.1, b) = pos l.size c k from rfl)
      cases hlen : l.lengthen (pos l.size c (k.1, b)) (seqOf k.1) (seqOf b) <;>
        rw [hlen] at hplaced <;> exact ⟨_, rfl, hplaced⟩
    · rw [if_neg fun heq => hstored ((h.nodes.data1_eq_iff hnear).mp heq.symm)]
      obtain ⟨m, pre, post', hsplit, hma, hshape, hsearch⟩ := h.insert_between hab hgt
        (fun k hk heq => hstored ⟨k, hk, heq⟩) hwithin hself
      rw [hsearch]
      rw [hsplit] at h hwithin ⊢
      exact h.insert_after hab hma hshape hwithin

/-- An empty list begins anew at any number. -/
theorem Layout.insert_empty (h : l.Layout c []) (hab : a ≤ b) (hself : b - a < l.size) :
    ∃ l', l.insert (seqOf a) (seqOf b) = some (l', b - a + 1) ∧ l'.size = l.size ∧
      l'.Layout (-a) [(a, b)] := by
  have hzero := h.nodes.length_eq_zero.mpr rfl
  have hnear : Near b a := near_of_le h.nodes.shape.size_le (by omega) (by omega)
  have hnear' : Near a b := near_of_le h.nodes.shape.size_le (by omega) (by omega)
  have hnodes : Nodes l.toLossArrays (-a) [] :=
    ⟨h.nodes.shape, ⟨by simp, h.nodes.first.empty⟩, ⟨by simp, h.nodes.last.empty⟩, h.nodes.links,
      h.nodes.length_eq⟩
  have hshape : Shape l.size [(a, b)] :=
    @Shape.insert [] _ _ _ hnodes.shape hab (by simp) (by simp) hself (by simp)
  have hpos : pos l.size (-a) (a, b) = 0 := by simp [pos]
  have hlength : (l.put 0 (seqOf a) (seqOf b)).length + seqlen (seqOf a) (seqOf b) = b - a + 1 := by
    simp only [put, seqlen_seqOf hab hnear', hzero, zero_add]
  rw [insert, if_pos hzero]
  simp only [hlength]
  refine ⟨_, rfl, rfl, hnodes.pushFront (n := (a, b)) hshape ?_ ?_ ?_ hpos.symm rfl ?_, ?_, ?_⟩
  · rw [hpos]
    rfl
  · rw [hpos]
    exact put_data2 hnear 0
  · rw [hpos, h.nodes.links.of_nil]
    rfl
  · simp only [hzero, zero_add]
  · exact ⟨by simpa using hab, by simp⟩
  · exact Or.inr ⟨(a, b), by simp, hpos.symm⟩

/-- The length of a list is the number of indices that it holds. -/
theorem Layout.length_eq (h : l.Layout c ns) : l.length = (covers ns).card := by
  rw [h.ordered.card_covers, h.nodes.length_eq]

/-- `insert` adds the numbers of an interval and returns by how many the list has grown. -/
theorem Holds.insert {S : Finset ℤ} (h : l.Holds S) (hab : a ≤ b)
    (hfits : Fits l.size (S ∪ interval a b)) :
    ∃ l', l.insert (seqOf a) (seqOf b) = some (l', ((S ∪ interval a b).card : ℤ) - S.card) ∧
      l'.size = l.size ∧ l'.Holds (S ∪ interval a b) := by
  obtain ⟨c, ns, hl, rfl⟩ := h
  cases ns with
  | nil =>
    have hself := hfits a (by simpa using hab) b (by simpa using hab)
    obtain ⟨l', hinsert, hsize, hl'⟩ := hl.insert_empty hab hself
    refine ⟨l', ?_, hsize, _, _, hl', ?_⟩
    · rw [hinsert, covers_nil, Finset.empty_union, card_interval, Finset.card_empty]
      congr 2
      omega
    · simp [covers]
  | cons n post =>
    obtain ⟨⟨placed, loc⟩, hplaced, hr⟩ := hl.insertNode hab hfits
    have hne : ¬ l.length = 0 := mt hl.nodes.length_eq_zero.mp (List.cons_ne_nil n post)
    have hlength := hl.length_eq
    rw [SndLossList.insert, if_neg hne, hplaced]
    rcases hr with ⟨hloc, harrays, hlast, hcovers⟩ | ⟨pre, m, post', hloc, hlast, hsize, hnodes, hpre, hpost, hcovers⟩
    · dsimp only at hloc harrays hlast
      subst hloc
      refine ⟨placed, ?_, by rw [harrays], c, n :: post, ⟨?_, hl.ordered, Or.inr ?_⟩, hcovers⟩
      · rw [← hcovers, Int.sub_self]
        rfl
      · rw [harrays]
        exact hl.nodes
      · rw [harrays]
        exact hlast
    · dsimp only at hloc hsize hlast hnodes
      subst hloc
      rw [← hsize] at hlast ⊢
      obtain ⟨joined, e, post'', hjoined, hjsize, hjnodes, hjordered, hjcovers⟩ := hnodes.coalesce hpre hpost
      have hjl : Layout { placed with toLossArrays := joined } c (pre ++ (m.1, e) :: post'') :=
        ⟨hjnodes, hjordered, Or.inr ⟨(m.1, e), by simp, by rw [hjsize]; exact hlast⟩⟩
      refine ⟨{ placed with toLossArrays := joined }, ?_, hjsize, c, _, hjl, hjcovers.trans hcovers⟩
      have hjlength := hjl.length_eq
      rw [hjcovers, hcovers] at hjlength
      simp only [Option.bind_eq_bind, Option.bind_some, hjoined]
      rw [← hlength, ← hjlength]

/-! ## Taking the first number, and removing up to a number -/

/-- The place of the last insertion is forgotten with the interval there. -/
theorem Layout.lastInsert_drop (h : l.Layout c (n :: post)) :
    (if l.lastInsertPos = pos l.size c n then -1 else l.lastInsertPos) = -1 ∨
      ∃ k ∈ post, (if l.lastInsertPos = pos l.size c n then -1 else l.lastInsertPos) =
        pos l.size c k := by
  split_ifs with heq
  · exact Or.inl rfl
  · rcases h.lastInsert with hnone | ⟨k, hk, hpos⟩
    · exact Or.inl hnone
    · rcases List.mem_cons.mp hk with rfl | hk
      · exact absurd hpos heq
      · exact Or.inr ⟨k, hk, hpos⟩

/-- `getLostSeq` on a list that is not empty. -/
theorem Layout.getLostSeq (h : l.Layout c (n :: post)) :
    l.getLostSeq.2 = seqOf n.1 ∧ l.getLostSeq.1.size = l.size ∧
      l.getLostSeq.1.Layout c (without n n.1 ++ post) := by
  have hne : ¬ l.length = 0 := mt h.nodes.length_eq_zero.mp (List.cons_ne_nil n post)
  have hn : n ∈ n :: post := List.mem_cons_self
  have hends := h.ordered.nonempty n hn
  have hhead := h.nodes.head_eq
  have hdata1 := h.nodes.data1_pos hn
  have hdata2 := h.nodes.data2_pos hn
  have hlast := h.lastInsert_drop
  unfold SndLossList.getLostSeq
  rw [if_neg hne]
  simp only [hhead, hdata1, true_and]
  by_cases hsingle : n.2 = n.1
  · rw [finish_single hsingle] at hdata2
    rw [if_pos hdata2, without_single hsingle, List.nil_append]
    refine ⟨rfl, ?_, h.ordered.tail, hlast⟩
    refine h.nodes.dropHead rfl ?_ rfl rfl rfl ?_
    · exact (Function.update_eq_self_iff.mpr hdata2.symm).symm
    · dsimp only
      omega
  · have hlt : n.1 < n.2 := by omega
    rw [finish_ne hlt] at hdata2
    have hself := h.nodes.shape.within n hn n hn
    have hordered := @Ordered.without _ _ [] _ h.ordered le_rfl hends
    have hmove := @Nodes.moveHead _ ⟨_, _, _, _, _, _⟩ _ _ _ h.nodes (List.pairwise_cons.mp h.ordered.apart).1 hlt
      rfl rfl rfl rfl rfl rfl
    have hput := putRest_data2 (l := l.toLossArrays) (a := n.1 + 1) (b := n.2) (by omega)
      (near_of_le h.nodes.shape.size_le (by omega) (by omega)) (pos l.size c (n.1 + 1, n.2))
    rw [without_first hlt, List.nil_append, List.singleton_append] at hordered
    rw [if_neg (by rw [hdata2]; exact seqOf_ne_neg_one _), without_first hlt, List.singleton_append]
    simp only [pos_succ (h.nodes.shape.size_pos hn) n.2, incseq_seqOf, hdata2, hput]
    refine ⟨rfl, hmove, hordered, ?_⟩
    rcases hlast with hnone | ⟨k, hk, hpos⟩
    · exact Or.inl hnone
    · exact Or.inr ⟨k, List.mem_cons_of_mem _ hk, hpos⟩

/-- `getLostSeq` takes the least index, or reports that there is none. -/
theorem Holds.getLostSeq {S : Finset ℤ} (h : l.Holds S) :
    (S = ∅ ∧ l.getLostSeq = (l, -1)) ∨
      ∃ x ∈ S, (∀ y ∈ S, x ≤ y) ∧ ∃ l', l.getLostSeq = (l', seqOf x) ∧ l'.size = l.size ∧
        l'.Holds (S.erase x) := by
  obtain ⟨c, ns, hl, rfl⟩ := h
  cases ns with
  | nil =>
    refine Or.inl ⟨rfl, ?_⟩
    rw [SndLossList.getLostSeq, if_pos (hl.nodes.length_eq_zero.mpr rfl)]
  | cons n post =>
    obtain ⟨hseq, hsize, hl'⟩ := hl.getLostSeq
    exact Or.inr ⟨n.1, hl.ordered.fst_mem List.mem_cons_self, fun y hy => hl.ordered.fst_le_of_mem hy,
      l.getLostSeq.1, Prod.ext rfl hseq, hsize, c, _, hl',
      @Ordered.covers_without _ _ [] _ hl.ordered le_rfl (hl.ordered.nonempty n List.mem_cons_self)⟩

/-- The removal of the first number of the head does what `getLostSeq` does. -/
theorem Layout.removeHead_eq (h : l.Layout c (n :: post)) : l.removeHead (seqOf n.1) = l.getLostSeq.1 := by
  have hne : ¬ l.length = 0 := mt h.nodes.length_eq_zero.mp (List.cons_ne_nil n post)
  have hsize := h.nodes.shape.size_pos List.mem_cons_self
  have hplace : l.place 0 = l.head := by
    have hplace := h.nodes.place_eq (a := n.1) (by omega) n.2
    rwa [Int.sub_self, ← h.nodes.head_eq] at hplace
  have hdata1 := h.nodes.data1_pos List.mem_cons_self
  rw [← h.nodes.head_eq] at hdata1
  unfold SndLossList.removeHead SndLossList.getLostSeq
  rw [if_neg hne]
  simp only [hplace, hdata1]
  split_ifs <;> rfl

/-- The list as seen from a node that is to be removed. -/
def fromNode (l : SndLossList) (h : ℤ) : SndLossList :=
  ⟨{ l.toLossArrays with head := h }, l.lastInsertPos⟩

/-- One round of the removal: the first interval goes, whatever `m_iHead` is. -/
theorem Layout.removeNode {h : ℤ} (hl : (l.fromNode h).Layout c (n :: post)) :
    ((SndLossList.removeNode (l, h)).1.fromNode (SndLossList.removeNode (l, h)).2).Layout c post := by
  have hn : n ∈ n :: post := List.mem_cons_self
  have hends := hl.ordered.nonempty n hn
  have hself := hl.nodes.shape.within n hn n hn
  have hsize := hl.nodes.shape.size_le
  have hhead : h = pos l.size c n := hl.nodes.head_eq
  have hdata1 : l.data1 (pos l.size c n) = seqOf n.1 := hl.nodes.data1_pos hn
  have hdata2 : l.data2 (pos l.size c n) = finish n := hl.nodes.data2_pos hn
  have hlast := hl.lastInsert_drop
  subst hhead
  refine ⟨hl.nodes.dropHead rfl ?_ rfl rfl rfl ?_, hl.ordered.tail, hlast⟩
  · dsimp only [SndLossList.removeNode, fromNode]
    split_ifs with hsingle
    · rfl
    · exact (Function.update_eq_self_iff.mpr (not_not.mp hsingle).symm).symm
  · dsimp only [SndLossList.removeNode, fromNode]
    rw [hdata1, hdata2]
    by_cases hsingle : n.2 = n.1
    · rw [if_neg (not_not.mpr (finish_single hsingle))]
      omega
    · rw [if_pos (mt finish_eq_neg_one.mp hsingle), finish_ne (by omega),
        seqlen_seqOf hends (near_of_le hsize (by omega) (by omega))]

/-- What the removal keeps: the intervals to be kept, behind some that are to be removed. -/
def Removing (size c : ℤ) (kept : List (ℤ × ℤ)) (k : ℕ) (s : SndLossList × ℤ) : Prop :=
  ∃ pre, (s.1.fromNode s.2).Layout c (pre ++ kept) ∧ s.1.head = headPos size c kept ∧
    s.1.size = size ∧ k = pre.length

/-- A round of the removal leaves fewer intervals to be removed. -/
theorem Removing.step {size : ℤ} {kept : List (ℤ × ℤ)} {k : ℕ} {s : SndLossList × ℤ}
    (h : Removing size c kept k s) (hcond : decide (s.2 ≠ s.1.head) = true) :
    ∃ k' < k, Removing size c kept k' (SndLossList.removeNode s) := by
  obtain ⟨pre, hl, hhead, rfl, rfl⟩ := h
  cases pre with
  | nil =>
    refine absurd ?_ (of_decide_eq_true hcond)
    rw [hhead]
    exact hl.nodes.head_headPos
  | cons n pre => exact ⟨pre.length, Nat.lt_succ_self _, pre, Layout.removeNode hl, hhead, rfl, rfl⟩

/-- The removal ends with the intervals to be kept. -/
theorem Removing.done {size : ℤ} {kept : List (ℤ × ℤ)} {k : ℕ} {s : SndLossList × ℤ}
    (h : Removing size c kept k s) (hcond : decide (s.2 ≠ s.1.head) = false) :
    s.1.size = size ∧ s.1.Layout c kept := by
  obtain ⟨pre, hl, hhead, rfl, -⟩ := h
  have heq : s.2 = s.1.head := not_not.mp (of_decide_eq_false hcond)
  have hsame : s.1.fromNode s.2 = s.1 := by rw [heq]; rfl
  rw [hsame] at hl
  cases pre with
  | nil => exact ⟨rfl, hl⟩
  | cons n pre =>
    have hpos := hl.nodes.head_eq
    have hstop := hl.nodes.stop_not_mem
    have hfresh := @Shape.fresh _ c [] _ _ hl.nodes.shape
    rw [hhead] at hpos
    cases kept with
    | nil =>
      rw [List.map_append, List.map_cons] at hstop
      exact absurd (List.mem_append_left _ (hpos ▸ List.mem_cons_self)) hstop
    | cons m kept =>
      refine absurd ?_ hfresh
      rw [← hpos]
      exact List.mem_map_of_mem (by simp)

/-- The intervals of a list, cut into those up to a number and those behind it, with the arrays that
have the new head. -/
structure CutAt (l : SndLossList) (c z : ℤ) (ns : List (ℤ × ℤ)) (a : LossArrays) (pre kept : List (ℤ × ℤ)) :
    Prop where
  layout : (fromNode ⟨a, l.lastInsertPos⟩ l.head).Layout c (pre ++ kept)
  head_eq : a.head = headPos a.size c kept
  size_eq : a.size = l.size
  covers_eq : covers (pre ++ kept) = covers ns
  pre_le : ∀ x ∈ covers pre, x ≤ z
  lt_kept : ∀ x ∈ covers kept, z < x

/-- Nothing is split where an interval ends with the number or before it. -/
theorem Layout.cutAt_between {z : ℤ} (h : l.Layout c (pre ++ n :: post)) (hn : n.2 ≤ z)
    (hpost : ∀ k ∈ post, z < k.1) :
    CutAt l c z (pre ++ n :: post) { l.toLossArrays with head := l.next (pos l.size c n) }
      (pre ++ [n]) post := by
  refine ⟨?_, h.nodes.next_headPos, rfl, ?_, fun x hx => (h.ordered.le_of_mem_front hx).trans hn, fun x hx => ?_⟩
  · rw [List.append_assoc]
    exact h
  · rw [List.append_assoc, List.singleton_append]
  · obtain ⟨k, hk, hkx, -⟩ := mem_covers.mp hx
    exact (hpost k hk).trans_le hkx

/-- An interval that goes on behind the number is split. -/
theorem Layout.cutAt_within {z : ℤ} (h : l.Layout c (pre ++ n :: post)) (hn : n.1 ≤ z) (hz : z < n.2) :
    CutAt l c z (pre ++ n :: post)
      { l.putRest (pos l.size c (z + 1, n.2)) (seqOf (z + 1)) (seqOf n.2) with
        data2 := Function.update
          (l.putRest (pos l.size c (z + 1, n.2)) (seqOf (z + 1)) (seqOf n.2)).data2 (pos l.size c n)
          (finish (n.1, z))
        next := Function.update (Function.update l.next (pos l.size c (z + 1, n.2))
          (l.next (pos l.size c n))) (pos l.size c n) (pos l.size c (z + 1, n.2))
        head := pos l.size c (z + 1, n.2) }
      (pre ++ [(n.1, z)]) ((z + 1, n.2) :: post) := by
  obtain ⟨-, hafter, -⟩ := ordered_append.mp h.ordered
  have hpost := (List.pairwise_cons.mp hafter.apart).1
  have hmem : n ∈ pre ++ n :: post := by simp
  have hself := h.nodes.shape.within n hmem n hmem
  have hput := putRest_data2 (l := l.toLossArrays) (a := z + 1) (b := n.2) (by omega)
    (near_of_le h.nodes.shape.size_le (by omega) (by omega)) (pos l.size c (z + 1, n.2))
  have hsplit : (pre ++ [(n.1, z)]) ++ (z + 1, n.2) :: post = pre ++ (n.1, z) :: (z + 1, n.2) :: post := by
    simp
  have hordered := h.ordered.cut hn hz
  refine ⟨⟨?_, ?_, ?_⟩, rfl, rfl, ?_, fun x hx => hordered.le_of_mem_front hx, fun x hx => ?_⟩
  · rw [hsplit]
    refine h.nodes.splitAt hpost hn (Int.lt_succ z) hz rfl ?_ rfl rfl rfl ?_
    · dsimp only [fromNode]
      rw [hput]
    · dsimp only [fromNode, putRest]
      omega
  · rw [hsplit]
    exact hordered
  · rw [hsplit]
    rcases h.lastInsert with hnone | ⟨k, hk, hpos⟩
    · exact Or.inl hnone
    · refine Or.inr ?_
      simp only [List.mem_append, List.mem_cons] at hk
      rcases hk with hk | rfl | hk
      · exact ⟨k, by simp [hk], hpos⟩
      · exact ⟨(k.1, z), by simp, hpos⟩
      · exact ⟨k, by simp [hk], hpos⟩
  · rw [hsplit]
    exact covers_cut hn hz
  · exact (ordered_append.mp hordered).2.1.lt_of_mem hx

/-- `cutAt` finds an interval that begins with the number. -/
theorem Layout.cutAt_stored {k : ℤ × ℤ} (h : l.Layout c (n :: post)) (hnz : n.1 < k.1) (hk : k ∈ n :: post) :
    ∃ a pre kept, SndLossList.cutAt l.toLossArrays (k.1 - n.1) (seqOf k.1) = some a ∧
      CutAt l c k.1 (n :: post) a pre kept := by
  have hsize := h.nodes.shape.size_pos List.mem_cons_self
  have htemp : l.place (k.1 - n.1) = pos l.size c k := h.nodes.place_eq (by omega) k.2
  have hsucc : (pos l.size c k + 1).tmod l.size = pos l.size c (k.1 + 1, k.2) := pos_succ hsize k.2
  have hdata2 := h.nodes.data2_pos hk
  have hends := h.ordered.nonempty k hk
  have hfound : l.data1 (pos l.size c k) = seqOf k.1 := h.nodes.first.held k hk
  obtain ⟨pre, post', hsplit⟩ := List.append_of_mem hk
  have hcut := h
  rw [hsplit] at hcut ⊢
  have hpost := (List.pairwise_cons.mp (ordered_append.mp hcut.ordered).2.1.apart).1
  unfold SndLossList.cutAt
  simp only [htemp, hfound, incseq_seqOf, hsucc, if_true]
  by_cases hsingle : k.2 = k.1
  · rw [finish_single hsingle] at hdata2
    rw [if_pos hdata2]
    refine ⟨_, _, _, rfl, hcut.cutAt_between hsingle.le fun r hr => ?_⟩
    exact hsingle ▸ hpost r hr
  · rw [finish_ne (by omega)] at hdata2
    rw [if_neg (by rw [hdata2]; exact seqOf_ne_neg_one _)]
    have hwithin := hcut.cutAt_within (z := k.1) le_rfl (by omega)
    rw [finish_single (n := (k.1, k.1)) rfl] at hwithin
    simp only [hdata2]
    exact ⟨_, _, _, rfl, hwithin⟩

/-- Where none begins with the number, it finds the last one before it. -/
theorem Layout.cutAt_search {z : ℤ} (h : l.Layout c (n :: post)) (hnz : n.1 < z)
    (hnear : ∀ x ∈ covers (n :: post), Near x z) (hstored : ¬ ∃ k ∈ n :: post, k.1 = z) :
    ∃ a pre kept, SndLossList.cutAt l.toLossArrays (z - n.1) (seqOf z) = some a ∧
      CutAt l c z (n :: post) a pre kept := by
  have hsize := h.nodes.shape.size_pos List.mem_cons_self
  have hstarts : ∀ k ∈ n :: post, Near k.1 z := fun k hk => hnear k.1 (h.ordered.fst_mem hk)
  have hplace : ∀ b, l.place (z - n.1) = pos l.size c (z, b) := h.nodes.place_eq (by omega)
  have hloc : ∀ b, (l.place (z - n.1) + 1).tmod l.size = pos l.size c (z + 1, b) := by
    intro b
    rw [hplace b, pos_succ hsize b]
  obtain ⟨pre, m, post', hsplit, hmz, hpost, hsearch⟩ := @Nodes.searchPrior _ _ [] _ _ _ h.nodes hnz hstarts
  rw [List.nil_append] at hsplit
  have hm : m ∈ n :: post := by rw [hsplit]; simp
  have hpost' : ∀ k ∈ post', z < k.1 := by
    intro k hk
    refine lt_of_le_of_ne (hpost k hk) fun heq => hstored ⟨k, ?_, heq.symm⟩
    rw [hsplit]
    simp [hk]
  have hdata2 := h.nodes.data2_pos hm
  have hends := h.ordered.nonempty m hm
  have hcmp := seqcmp_pos (hnear m.2 (h.ordered.snd_mem hm))
  have hcut := h
  unfold SndLossList.cutAt
  simp only [incseq_seqOf]
  rw [if_neg (by rw [hplace 0]; exact fun heq => hstored ((h.nodes.data1_eq_iff hstarts).mp heq.symm))]
  rw [hsplit] at hcut ⊢
  rw [← h.nodes.head_eq] at hsearch
  simp only [hsearch, Option.bind_eq_bind, Option.bind_some, hloc m.2]
  by_cases hsingle : m.2 = m.1
  · rw [finish_single hsingle] at hdata2
    rw [if_pos hdata2]
    exact ⟨_, _, _, rfl, hcut.cutAt_between (by omega) hpost'⟩
  · rw [finish_ne (by omega)] at hdata2
    rw [if_neg (by rw [hdata2]; exact seqOf_ne_neg_one _)]
    by_cases hlonger : z < m.2
    · have hwithin := hcut.cutAt_within hmz.le hlonger
      rw [finish_ne (n := (m.1, z)) hmz] at hwithin
      rw [if_pos (by rw [hdata2]; exact hcmp.mpr hlonger)]
      simp only [hdata2]
      exact ⟨_, _, _, rfl, hwithin⟩
    · rw [if_neg (by rw [hdata2]; exact mt hcmp.mp hlonger)]
      exact ⟨_, _, _, rfl, hcut.cutAt_between (not_lt.mp hlonger) hpost'⟩

/-- `cutAt` finds the number, or the interval before it. -/
theorem Layout.cutAt {z : ℤ} (h : l.Layout c (n :: post)) (hnz : n.1 < z)
    (hnear : ∀ x ∈ covers (n :: post), Near x z) :
    ∃ a pre kept, SndLossList.cutAt l.toLossArrays (z - n.1) (seqOf z) = some a ∧
      CutAt l c z (n :: post) a pre kept := by
  by_cases hstored : ∃ k ∈ n :: post, k.1 = z
  · obtain ⟨k, hk, rfl⟩ := hstored
    exact h.cutAt_stored hnz hk
  · exact h.cutAt_search hnz hnear hstored

/-- `remove` keeps the indices behind the given one. -/
theorem Holds.remove {S : Finset ℤ} {z : ℤ} (h : l.Holds S) (hnear : ∀ x ∈ S, Near x z) :
    ∃ l', l.remove (seqOf z) = some l' ∧ l'.size = l.size ∧ l'.Holds (S.filter (z < ·)) := by
  obtain ⟨c, ns, hl, rfl⟩ := h
  unfold SndLossList.remove
  cases ns with
  | nil =>
    rw [if_pos (hl.nodes.length_eq_zero.mpr rfl)]
    exact ⟨l, rfl, rfl, c, [], hl, by simp⟩
  | cons n post =>
    have hn : n ∈ n :: post := List.mem_cons_self
    have hoff : seqoff (l.data1 l.head) (seqOf z) = z - n.1 := by
      rw [hl.nodes.head_eq, hl.nodes.data1_pos hn, seqoff_seqOf (hnear n.1 (hl.ordered.fst_mem hn))]
    rw [if_neg (mt hl.nodes.length_eq_zero.mp (List.cons_ne_nil n post))]
    simp only [hoff]
    rcases lt_trichotomy z n.1 with hlt | rfl | hgt
    · rw [if_neg (by omega), if_neg (by omega)]
      refine ⟨l, rfl, rfl, c, _, hl, (Finset.filter_true_of_mem fun x hx => ?_).symm⟩
      exact hlt.trans_le (hl.ordered.fst_le_of_mem hx)
    · rw [if_pos (Int.sub_self _)]
      obtain ⟨-, hsize, hl'⟩ := hl.getLostSeq
      refine ⟨_, rfl, ?_, c, without n n.1 ++ post, ?_, ?_⟩
      · rw [hl.removeHead_eq, hsize]
      · rw [hl.removeHead_eq]
        exact hl'
      · rw [show without n n.1 ++ post = [] ++ without n n.1 ++ post from rfl,
          @Ordered.covers_without _ _ [] _ hl.ordered le_rfl (hl.ordered.nonempty n hn)]
        ext x
        rw [Finset.mem_erase, Finset.mem_filter]
        refine ⟨fun hx => ⟨hx.2, ?_⟩, fun hx => ⟨hx.2.ne', hx.1⟩⟩
        exact lt_of_le_of_ne (hl.ordered.fst_le_of_mem hx.2) hx.1.symm
    · rw [if_neg (by omega), if_pos (by omega)]
      obtain ⟨a, pre, kept, hcutAt, hcut⟩ := hl.cutAt hgt hnear
      have hlength : pre.length ≤ a.size.toNat := by
        have hlength := hcut.layout.nodes.shape.length_le
        rw [List.length_append] at hlength
        exact (Nat.le_add_right _ _).trans hlength
      obtain ⟨s, k, hloop, hremoving, hcond⟩ := whileLoop_spec
        (I := Removing a.size c kept) (fun _ _ => Removing.step) (n := pre.length)
        (s := (⟨a, l.lastInsertPos⟩, l.head)) ⟨pre, hcut.layout, hcut.head_eq, rfl, rfl⟩ hlength
      obtain ⟨hsize, hl'⟩ := hremoving.done hcond
      refine ⟨s.1, ?_, by rw [hsize, hcut.size_eq], c, kept, hl', ?_⟩
      · rw [hcutAt]
        simp only [Option.bind_eq_bind, Option.bind_some, hloop]
      · rw [← hcut.covers_eq]
        ext x
        rw [Finset.mem_filter, mem_covers_append]
        constructor
        · exact fun hx => ⟨Or.inr hx, hcut.lt_kept x hx⟩
        · rintro ⟨hx | hx, hlt⟩
          · exact absurd (hcut.pre_le x hx) (not_le.mpr hlt)
          · exact hx

/-- The new list is empty. -/
theorem holds_init (next : ℤ → ℤ) {size : ℤ} (hsize : size < CSeqNo.threshold) :
    (init next size).Holds ∅ := by
  refine ⟨0, [], ⟨?_, ⟨by simp, by simp⟩, Or.inl rfl⟩, rfl⟩
  exact ⟨⟨hsize, by simp, by simp, by simp⟩, ⟨by simp, fun _ _ => rfl⟩, ⟨by simp, fun _ _ => rfl⟩, rfl, rfl⟩

/-- The length is the number of lost packets. -/
theorem Holds.getLossLength {S : Finset ℤ} (h : l.Holds S) : l.getLossLength = S.card := by
  obtain ⟨c, ns, hl, rfl⟩ := h
  exact hl.length_eq

end SndLossList

/-! ## Sequences of calls -/

/-- A call of the loss list, with the indices of the packets. -/
inductive LossCall
  | insert (first last : ℤ)
  | remove (index : ℤ)
  | getLostSeq
  deriving DecidableEq

namespace LossCall

/-- What a call does to the set of the lost packets, and what it returns. -/
def onSet (S : Finset ℤ) : LossCall → Finset ℤ × ℤ
  | .insert a b => (S ∪ interval a b, (S ∪ interval a b).card - S.card)
  | .remove z => (S.filter (z < ·), 0)
  | .getLostSeq => if h : S.Nonempty then (S.erase (least S h), seqOf (least S h)) else (S, -1)

/-- What it does to the list. -/
def onList (l : SndLossList) : LossCall → Option (SndLossList × ℤ)
  | .insert a b => l.insert (seqOf a) (seqOf b)
  | .remove z => (l.remove (seqOf z)).map fun l' => (l', 0)
  | .getLostSeq => some l.getLostSeq

/-- The calls that a sender makes: all lost packets fit into the window, and acknowledged ones are near
it. -/
def Admissible (size : ℤ) (S : Finset ℤ) : LossCall → Prop
  | .insert a b => a ≤ b ∧ LossArrays.Fits size (S ∪ interval a b)
  | .remove z => ∀ x ∈ S, Near x z
  | .getLostSeq => True

variable {l : SndLossList} {S : Finset ℤ}

/-- One call on the list does what it does to the set. -/
theorem onList_refines (call : LossCall) (h : l.Holds S) (hcall : call.Admissible l.size S) :
    ∃ l', call.onList l = some (l', (call.onSet S).2) ∧ l'.size = l.size ∧
      l'.Holds (call.onSet S).1 := by
  cases call with
  | insert a b => exact h.insert hcall.1 hcall.2
  | remove z =>
    obtain ⟨l', hremove, hsize, hl'⟩ := h.remove hcall
    exact ⟨l', by rw [onList, hremove]; rfl, hsize, hl'⟩
  | getLostSeq =>
    rcases h.getLostSeq with ⟨rfl, hnone⟩ | ⟨x, hx, hleast, l', hsome, hsize, hl'⟩
    · exact ⟨l, by rw [onList, hnone]; rfl, rfl, h⟩
    · have hmin : least S ⟨x, hx⟩ = x := least_eq hx hleast
      refine ⟨l', ?_, hsize, ?_⟩
      · rw [onList, hsome, onSet, dif_pos ⟨x, hx⟩, hmin]
      · rwa [onSet, dif_pos ⟨x, hx⟩, hmin]

end LossCall

/-- The list of a sender behaves as the set of the lost packets, whatever calls are made: every call
ends, returns what the set says, and the length is the number of lost packets. -/
theorem sndLossList_refines (next : ℤ → ℤ) {size : ℤ} (hsize : size < CSeqNo.threshold)
    (calls : List LossCall)
    (hcalls : Calls.Admissible LossCall.onSet (fun S call => call.Admissible size S) ∅ calls) :
    ∃ l, Calls.run LossCall.onList (SndLossList.init next size) calls =
        some (l, (Calls.specify LossCall.onSet ∅ calls).2) ∧
      l.Holds (Calls.specify LossCall.onSet ∅ calls).1 ∧
      l.getLossLength = (Calls.specify LossCall.onSet ∅ calls).1.card := by
  obtain ⟨l, hrun, -, hl⟩ := Calls.run_refines (R := fun (l : SndLossList) S => l.size = size ∧ l.Holds S)
    (fun l S call hl hcall => by
      obtain ⟨l', hresult, hsame, hl'⟩ := LossCall.onList_refines call hl.2 (by rw [hl.1]; exact hcall)
      exact ⟨l', hresult, hsame.trans hl.1, hl'⟩)
    ⟨rfl, SndLossList.holds_init next hsize⟩ calls hcalls
  exact ⟨l, hrun, hl, hl.getLossLength⟩

/-- Packets around the end of the sequence numbers are lost, sent again and acknowledged. -/
def lossAroundEnd : List LossCall :=
  [.insert 0x7FFFFFFE 0x80000001, .insert 0x80000003 0x80000003, .getLostSeq, .remove 0x80000000]

/-- So it is for these calls around the end of the sequence numbers. -/
theorem sndLossList_refines_around_end :
    ∃ l, Calls.run LossCall.onList (SndLossList.init (fun _ => 0) 8) lossAroundEnd =
        some (l, (Calls.specify LossCall.onSet ∅ lossAroundEnd).2) ∧
      l.Holds (Calls.specify LossCall.onSet ∅ lossAroundEnd).1 ∧
      l.getLossLength = (Calls.specify LossCall.onSet ∅ lossAroundEnd).1.card := by
  refine sndLossList_refines (fun _ => 0) (by decide) lossAroundEnd
    ⟨⟨by decide, ?_⟩, ⟨by decide, ?_⟩, trivial, ?_, trivial⟩
  · intro x hx y hy
    simp only [Finset.empty_union, mem_interval] at hx hy
    omega
  · intro x hx y hy
    simp only [LossCall.onSet, Finset.empty_union, Finset.mem_union, mem_interval] at hx hy
    omega
  · intro x hx
    have hsub : ∀ T : Finset ℤ, (LossCall.getLostSeq.onSet T).1 ⊆ T := by
      intro T
      rw [LossCall.onSet]
      split_ifs
      · exact Finset.erase_subset _ _
      · exact Finset.Subset.refl _
    have hmem : x ∈ interval (0x7FFFFFFE : ℤ) 0x80000001 ∪ interval 0x80000003 0x80000003 := by
      simpa [LossCall.onSet] using hsub _ hx
    simp only [Finset.mem_union, mem_interval] at hmem
    rw [near_iff]
    omega

end Udtfs

import Udtfs.Lib.Calls
import Udtfs.Transport.LossArrays

/-!
# The loss list of the receiver

`CRcvLossList` of `list.cpp`: the packets that are missing. Packets are inserted behind all others, and
any of them may be removed when it arrives. A second array leads back from each interval to the one
before.
-/

namespace Udtfs

open LinkedSlots Spans

/-- `CRcvLossList`. -/
structure RcvLossList extends LossArrays where
  /-- `m_piPrior`: the place of the interval before. -/
  prior : ℤ → ℤ
  tail : ℤ

namespace RcvLossList

/-- The constructor. `m_piNext` and `m_piPrior` are not initialised. -/
def init (next prior : ℤ → ℤ) (size : ℤ) : RcvLossList := ⟨LossArrays.init next size, prior, -1⟩

/-- `insert`. -/
def insert (l : RcvLossList) (seqno1 seqno2 : ℤ) : RcvLossList :=
  if l.length = 0 then
    let a := l.put 0 seqno1 seqno2
    ⟨{ a with
        head := 0
        next := Function.update a.next 0 (-1)
        length := a.length + seqlen seqno1 seqno2 },
      Function.update l.prior 0 (-1), 0⟩
  else
    let offset := seqoff (l.data1 l.head) seqno1
    let loc := (l.head + offset).tmod l.size
    if l.data2 l.tail ≠ -1 ∧ incseq (l.data2 l.tail) = seqno1 then
      { l with
        data2 := Function.update l.data2 l.tail seqno2
        length := l.length + seqlen seqno1 seqno2 }
    else
      let a := l.put loc seqno1 seqno2
      ⟨{ a with
          next := Function.update (Function.update a.next l.tail loc) loc (-1)
          length := a.length + seqlen seqno1 seqno2 },
        Function.update l.prior loc l.tail, loc⟩

/-- `remove` of an interval that has one number only. -/
def removeSingle (l : RcvLossList) (loc : ℤ) : RcvLossList :=
  let data1 := Function.update l.data1 loc (-1)
  if l.head = loc then
    let head := l.next l.head
    { l with
      data1 := data1
      head := head
      prior := if head ≠ -1 then Function.update l.prior head (-1) else l.prior
      length := l.length - 1 }
  else
    let next := Function.update l.next (l.prior loc) (l.next loc)
    { l with
      data1 := data1
      next := next
      prior := if next loc ≠ -1 then Function.update l.prior (next loc) (l.prior loc) else l.prior
      tail := if next loc ≠ -1 then l.tail else l.prior loc
      length := l.length - 1 }

/-- `remove` of the first number of an interval that has more: the rest moves to the next place. -/
def removeFirst (l : RcvLossList) (loc : ℤ) : RcvLossList :=
  let i := (loc + 1).tmod l.size
  let a := l.putRest i (incseq (l.data1 loc)) (l.data2 loc)
  let next := Function.update a.next i (a.next loc)
  let prior := Function.update l.prior i (l.prior loc)
  let next' := if l.head = loc then next else Function.update next (prior i) i
  ⟨{ a with
      data1 := Function.update a.data1 loc (-1)
      data2 := Function.update a.data2 loc (-1)
      next := next'
      head := if l.head = loc then i else l.head
      length := a.length - 1 },
    if l.tail = loc then prior else Function.update prior (next' i) i,
    if l.tail = loc then i else l.tail⟩

/-- The search for the interval before a place. -/
def searchBack (l : RcvLossList) (i : ℤ) : Option ℤ :=
  whileLoop (fun i => l.data1 i = -1) (fun i => (i - 1 + l.size).tmod l.size) l.size.toNat i

/-- `remove` of a number that is not the first one of the interval at `i`. -/
def removeInside (l : RcvLossList) (i loc seqno : ℤ) : RcvLossList :=
  let last := if seqno = incseq (l.data1 i) then -1 else decseq seqno
  if seqno = l.data2 i then
    { l with data2 := Function.update l.data2 i last, length := l.length - 1 }
  else
    let loc := (loc + 1).tmod l.size
    let a := l.putRest loc (incseq seqno) (l.data2 i)
    let next := Function.update (Function.update a.next loc (a.next i)) i loc
    let prior := Function.update l.prior loc i
    ⟨{ a with
        data2 := Function.update a.data2 i last
        next := next
        length := a.length - 1 },
      if l.tail = i then prior else Function.update prior (next loc) loc,
      if l.tail = i then loc else l.tail⟩

/-- `remove`: the list, and whether the number was in it. -/
def remove (l : RcvLossList) (seqno : ℤ) : Option (RcvLossList × Bool) :=
  if l.length = 0 then some (l, false)
  else
    let offset := seqoff (l.data1 l.head) seqno
    if offset < 0 then some (l, false)
    else
      let loc := (l.head + offset).tmod l.size
      if seqno = l.data1 loc then
        if l.data2 loc = -1 then some (l.removeSingle loc, true) else some (l.removeFirst loc, true)
      else do
        let i ← l.searchBack ((loc - 1 + l.size).tmod l.size)
        if l.data2 i = -1 ∨ seqcmp seqno (l.data2 i) > 0 then some (l, false)
        else some (l.removeInside i loc seqno, true)

/-- `getLossLength`. -/
def getLossLength (l : RcvLossList) : ℤ := l.length

/-- `getFirstLostSeq`. -/
def getFirstLostSeq (l : RcvLossList) : ℤ := if l.length = 0 then -1 else l.data1 l.head

/-! ## What the list holds -/

open LossArrays

/-- The intervals of the list, with the links back from the last one. -/
structure Layout (l : RcvLossList) (c : ℤ) (ns : List (ℤ × ℤ)) : Prop where
  nodes : Nodes l.toLossArrays c ns
  ordered : Ordered ns
  back : ns ≠ [] → Links l.prior (-1) l.tail (ns.map (pos l.size c)).reverse

/-- The indices of the missing packets. -/
def Holds (l : RcvLossList) (S : Finset ℤ) : Prop := ∃ c ns, l.Layout c ns ∧ covers ns = S

variable {l : RcvLossList} {c a b x : ℤ} {pre post ns : List (ℤ × ℤ)} {m n k : ℤ × ℤ}

/-- The tail is the place of the last interval. -/
theorem Layout.tail_eq (h : l.Layout c (pre ++ [n])) : l.tail = pos l.size c n := by
  have hback := h.back (by simp)
  rw [List.map_append, List.reverse_append] at hback
  exact hback.head_eq

/-- The links back, from the last interval to the one before, and from each to the one before. -/
theorem Layout.back_last (h : l.Layout c (pre ++ [n])) :
    Links l.prior (-1) (l.prior (pos l.size c n)) (pre.map (pos l.size c)).reverse := by
  have hback := h.back (by simp)
  rw [List.map_append, List.reverse_append] at hback
  exact hback.2

/-- The links back from the tail, around an interval. -/
theorem Layout.back_split (h : l.Layout c (pre ++ n :: post)) :
    Links l.prior (-1) l.tail ((post.map (pos l.size c)).reverse ++ pos l.size c n ::
      (pre.map (pos l.size c)).reverse) := by
  have hback := h.back (by simp)
  rwa [List.map_append, List.map_cons, List.reverse_append, List.reverse_cons, List.append_assoc,
    List.singleton_append] at hback

/-- The link back from an interval leads to the one before. -/
theorem Layout.prior_eq (h : l.Layout c (pre ++ m :: n :: post)) :
    l.prior (pos l.size c n) = pos l.size c m := by
  have hsplit : pre ++ m :: n :: post = (pre ++ [m]) ++ n :: post := by simp
  have hback := h
  rw [hsplit] at hback
  have hlinks := hback.back_split
  rw [List.map_append, List.reverse_append] at hlinks
  exact hlinks.tail.head_eq

/-- There is none before the first. -/
theorem Layout.prior_first (h : l.Layout c (n :: post)) : l.prior (pos l.size c n) = -1 :=
  (@Layout.back_split _ _ [] _ _ h).tail.of_nil

/-! ## Inserting -/

/-- New numbers behind all others, as an interval of their own. -/
theorem Layout.insert_behind (h : l.Layout c (pre ++ [m])) (hab : a ≤ b) (hma : m.2 < a)
    (hshape : Shape l.size (pre ++ [m, (a, b)])) :
    (⟨{ l.put (pos l.size c (a, b)) (seqOf a) (seqOf b) with
        next := Function.update (Function.update l.next l.tail (pos l.size c (a, b))) (pos l.size c (a, b)) (-1)
        length := l.length + seqlen (seqOf a) (seqOf b) },
      Function.update l.prior (pos l.size c (a, b)) l.tail, pos l.size c (a, b)⟩ : RcvLossList).Layout c
      (pre ++ [m, (a, b)]) := by
  have hsplit : pre ++ [m, (a, b)] = (pre ++ [m]) ++ [(a, b)] := by simp
  have hself := hshape.within (a, b) (by simp) (a, b) (by simp)
  have hends := h.ordered.nonempty m (by simp)
  have hbm := hshape.within m (by simp) (a, b) (by simp)
  have hmm := hshape.within m (by simp) m (by simp)
  have hlast : l.next (pos l.size c m) = -1 := h.nodes.next_last
  have htail := h.tail_eq
  have hne : pos l.size c m ≠ pos l.size c (a, b) :=
    pos_ne (by dsimp only; omega) (by dsimp only; omega) (by dsimp only at hbm ⊢; omega)
  dsimp only at hself
  refine ⟨?_, ?_, fun _ => ?_⟩
  · refine h.nodes.insertNext (n := (a, b)) hshape rfl (put_data2 ?_ _) ?_ rfl rfl ?_
    · exact near_of_le hshape.size_le (by omega) (by omega)
    · rw [hlast, htail]
      exact Function.update_comm hne _ _ _
    · rw [seqlen_seqOf hab (near_of_le hshape.size_le (by omega) (by omega))]
  · rw [hsplit]
    refine ordered_append.mpr ⟨h.ordered, ⟨by simpa using hab, by simp⟩, fun k hk r hr => ?_⟩
    rw [List.mem_singleton.mp hr]
    rcases List.mem_append.mp hk with hk | hk
    · have hlt := (ordered_append.mp h.ordered).2.2 k hk m List.mem_cons_self
      dsimp only
      omega
    · rwa [List.mem_singleton.mp hk]
  · have hback := h.back (by simp)
    have hfresh := @Shape.fresh _ c _ [] _ (by rwa [← hsplit])
    rw [List.append_nil, ← List.mem_reverse] at hfresh
    rw [hsplit, List.map_append, List.reverse_append]
    exact hback.insertFront hfresh

/-- New numbers that continue the last interval. -/
theorem Layout.insert_continue (h : l.Layout c (pre ++ [m])) (hm : m.1 < m.2) (hab : m.2 + 1 ≤ b)
    (hwithin : ∀ k ∈ pre ++ [m], b - k.1 < l.size) :
    ({ l with
      data2 := Function.update l.data2 l.tail (seqOf b)
      length := l.length + seqlen (seqOf (m.2 + 1)) (seqOf b) } : RcvLossList).Layout c (pre ++ [(m.1, b)]) := by
  have hbm := hwithin m (by simp)
  refine ⟨?_, ?_, fun _ => ?_⟩
  · refine h.nodes.setLast (by omega) hwithin rfl ?_ rfl rfl rfl ?_
    · rw [finish_ne (n := (m.1, b)) (by dsimp only; omega), h.tail_eq]
    · rw [seqlen_seqOf hab (near_of_le h.nodes.shape.size_le (by omega) (by omega))]
      dsimp only
      omega
  · have happ := ordered_append.mp h.ordered
    refine ordered_append.mpr ⟨happ.1, ⟨by simpa using (by omega : m.1 ≤ b), by simp⟩, fun k hk r hr => ?_⟩
    rw [List.mem_singleton.mp hr]
    exact happ.2.2 k hk m List.mem_cons_self
  · have hback := h.back (by simp)
    rw [List.map_append, List.map_cons] at hback ⊢
    exact hback

/-- The first interval goes to the first place. -/
theorem Layout.insert_empty (h : l.Layout c []) (hab : a ≤ b) (hself : b - a < l.size) :
    (l.insert (seqOf a) (seqOf b)).size = l.size ∧ (l.insert (seqOf a) (seqOf b)).Layout (-a) [(a, b)] := by
  have hzero := h.nodes.length_eq_zero.mpr rfl
  have hnear : Near b a := near_of_le h.nodes.shape.size_le (by omega) (by omega)
  have hnear' : Near a b := near_of_le h.nodes.shape.size_le (by omega) (by omega)
  have hnodes : Nodes l.toLossArrays (-a) [] :=
    ⟨h.nodes.shape, ⟨by simp, h.nodes.first.empty⟩, ⟨by simp, h.nodes.last.empty⟩, h.nodes.links,
      h.nodes.length_eq⟩
  have hshape : Shape l.size [(a, b)] :=
    @Shape.insert [] _ _ _ hnodes.shape hab (by simp) (by simp) hself (by simp)
  have hpos : pos l.size (-a) (a, b) = 0 := by simp [pos]
  rw [insert, if_pos hzero]
  refine ⟨rfl, hnodes.pushFront (n := (a, b)) hshape ?_ ?_ ?_ hpos.symm rfl ?_, ?_, fun _ => ?_⟩
  · rw [hpos]
    rfl
  · rw [hpos]
    exact put_data2 hnear 0
  · rw [hpos, h.nodes.links.of_nil]
    rfl
  · simp only [put, seqlen_seqOf hab hnear']
  · exact ⟨by simpa using hab, by simp⟩
  · exact ⟨hpos.symm, by
      change Function.update l.prior 0 (-1) (pos l.size (-a) (a, b)) = -1
      rw [hpos, Function.update_self]⟩

/-- The place of a number that is not before the head. -/
theorem Layout.place_eq (h : l.Layout c (n :: post)) (hx : n.1 ≤ x) (e : ℤ) :
    (l.head + (x - n.1)).tmod l.size = pos l.size c (x, e) := by
  have hplace := h.nodes.place_eq (a := x) (by
    have hsize := h.nodes.shape.size_pos List.mem_cons_self
    omega) e
  have hpos := pos_nonneg (c := c) (n := n) (h.nodes.shape.size_pos List.mem_cons_self)
  rw [← hplace, LossArrays.place, h.nodes.head_eq, Int.tmod_eq_emod_of_nonneg (by omega),
    Int.tmod_eq_emod_of_nonneg (by have := h.nodes.shape.size_pos List.mem_cons_self; omega),
    Int.add_emod_right]

/-- New numbers go on where the last interval ends, if that has more than one number. -/
theorem Layout.continues_iff (h : l.Layout c (pre ++ [m])) (hma : m.2 < a) (hfits : a - m.1 < l.size) :
    (l.data2 l.tail ≠ -1 ∧ incseq (l.data2 l.tail) = seqOf a) ↔ m.1 < m.2 ∧ a = m.2 + 1 := by
  have hm : m ∈ pre ++ [m] := by simp
  have hmends := h.ordered.nonempty m hm
  rw [h.tail_eq, h.nodes.last.held m hm, Ne, finish_eq_neg_one]
  by_cases hsingle : m.2 = m.1
  · exact iff_of_false (fun hcond => hcond.1 hsingle) (by omega)
  · rw [finish_ne (by omega), incseq_seqOf, seqOf_inj (near_of_le h.nodes.shape.size_le (by omega) (by omega))]
    omega

/-- The place of new numbers, counted from the head. -/
theorem Layout.place_behind (h : l.Layout c ns) (hne : ns ≠ []) (hbehind : ∀ k ∈ ns, k.2 < a)
    (hfits : ∀ k ∈ ns, a - k.1 < l.size) (b : ℤ) :
    (l.head + seqoff (l.data1 l.head) (seqOf a)).tmod l.size = pos l.size c (a, b) := by
  obtain ⟨n, post, rfl⟩ := List.exists_cons_of_ne_nil hne
  have hn : n ∈ n :: post := List.mem_cons_self
  have hends := h.ordered.nonempty n hn
  have hlt := hbehind n hn
  have hwithin := hfits n hn
  have hoff : seqoff (l.data1 l.head) (seqOf a) = a - n.1 := by
    rw [h.nodes.head_eq, h.nodes.first.held n hn,
      seqoff_seqOf (near_of_le h.nodes.shape.size_le (by omega) (by omega))]
  rw [hoff, h.place_eq (x := a) (by omega) b]

/-- `insert` adds numbers behind all others. -/
theorem Holds.insert {S : Finset ℤ} (h : l.Holds S) (hab : a ≤ b) (hbehind : ∀ y ∈ S, y < a)
    (hfits : Fits l.size (S ∪ interval a b)) :
    (l.insert (seqOf a) (seqOf b)).size = l.size ∧
      (l.insert (seqOf a) (seqOf b)).Holds (S ∪ interval a b) := by
  obtain ⟨c, ns, hl, rfl⟩ := h
  have ha : a ∈ covers ns ∪ interval a b := Finset.mem_union_right _ (mem_interval.mpr ⟨le_rfl, hab⟩)
  have hb : b ∈ covers ns ∪ interval a b := Finset.mem_union_right _ (mem_interval.mpr ⟨hab, le_rfl⟩)
  have hself := hfits a ha b hb
  rcases List.eq_nil_or_concat' ns with rfl | ⟨pre, m, rfl⟩
  · obtain ⟨hsize, hl'⟩ := hl.insert_empty hab hself
    exact ⟨hsize, _, _, hl', by simp [covers]⟩
  · have hm : m ∈ pre ++ [m] := by simp
    have hwithin : ∀ k ∈ pre ++ [m], b - k.1 < l.size ∧ k.2 - a < l.size := fun k hk =>
      ⟨hfits k.1 (Finset.mem_union_left _ (hl.ordered.fst_mem hk)) b hb,
        hfits a ha k.2 (Finset.mem_union_left _ (hl.ordered.snd_mem hk))⟩
    have hlt : ∀ k ∈ pre ++ [m], k.2 < a := fun k hk => hbehind k.2 (hl.ordered.snd_mem hk)
    have hma := hlt m hm
    have hmb := hwithin m hm
    have hcont := hl.continues_iff hma (by omega)
    unfold RcvLossList.insert
    rw [if_neg (mt hl.nodes.length_eq_zero.mp (by simp))]
    by_cases hcond : m.1 < m.2 ∧ a = m.2 + 1
    · rw [if_pos (hcont.mpr hcond), hcond.2]
      refine ⟨rfl, c, _, hl.insert_continue hcond.1 (by omega) fun k hk => (hwithin k hk).1, ?_⟩
      ext y
      simp only [mem_covers_append, mem_covers_cons, covers_nil, Finset.mem_union, mem_interval,
        Finset.notMem_empty, or_false]
      have hjoin : m.1 ≤ y ∧ y ≤ b ↔ (m.1 ≤ y ∧ y ≤ m.2) ∨ (m.2 + 1 ≤ y ∧ y ≤ b) := by omega
      rw [hjoin, or_assoc]
    · rw [if_neg (mt hcont.mp hcond)]
      have hsplit : pre ++ [m, (a, b)] = (pre ++ [m]) ++ [(a, b)] := by simp
      have hshape : Shape l.size (pre ++ [m, (a, b)]) := by
        rw [hsplit]
        refine Shape.insert (by rw [List.append_nil]; exact hl.nodes.shape) hab ?_ (by simp) hself ?_
        · intro k hk
          exact (hl.ordered.nonempty k hk).trans_lt (hlt k hk)
        · rw [List.append_nil]
          exact hwithin
      have hplace := hl.place_behind (by simp) hlt (fun k hk => by have hkb := hwithin k hk; omega) b
      simp only [hplace]
      refine ⟨rfl, c, _, hl.insert_behind hab hma hshape, ?_⟩
      ext y
      simp only [mem_covers_append, mem_covers_cons, covers_nil, Finset.mem_union, mem_interval,
        Finset.notMem_empty, or_false]
      rw [or_assoc]

/-! ## Removing -/

/-- No other interval has the place of this one. -/
theorem pos_notMem_others {l : LossArrays} (h : Nodes l c (pre ++ n :: post)) :
    pos l.size c n ∉ (post.map (pos l.size c)).reverse ++ (pre.map (pos l.size c)).reverse := by
  have hfresh := h.shape.fresh (c := c)
  rw [List.map_append, List.mem_append, not_or] at hfresh
  rw [List.mem_append, List.mem_reverse, List.mem_reverse, not_or]
  exact ⟨hfresh.2, hfresh.1⟩

/-- The links back without an interval that is not the last one. -/
theorem Layout.back_erase (h : l.Layout c (pre ++ n :: k :: post)) :
    Links (Function.update l.prior (pos l.size c k) (l.prior (pos l.size c n))) (-1) l.tail
      ((pre ++ k :: post).map (pos l.size c)).reverse := by
  have hsplit : pre ++ n :: k :: post = (pre ++ [n]) ++ k :: post := by simp
  have hfresh := pos_notMem_others (n := k) (by rw [← hsplit]; exact h.nodes)
  have hback := h.back_split
  simp only [List.map_append, List.map_cons, List.map_nil, List.reverse_append, List.reverse_cons,
    List.reverse_nil, List.append_assoc, List.singleton_append, List.nil_append, List.mem_append,
    List.mem_cons, not_or] at hback hfresh ⊢
  exact hback.eraseNext (by rw [List.mem_append, not_or]; exact ⟨hfresh.1, hfresh.2.2⟩)

/-- The only interval at the head is another one's place. -/
theorem Layout.head_ne (h : l.Layout c (pre ++ m :: n :: post)) : l.head ≠ pos l.size c n := by
  have hsplit : pre ++ m :: n :: post = (pre ++ [m]) ++ n :: post := by simp
  have hnodes := h.nodes
  rw [hsplit] at hnodes
  have hfresh := hnodes.shape.fresh (c := c)
  cases pre with
  | nil =>
    rw [h.nodes.head_eq]
    exact fun heq => hfresh (heq ▸ List.mem_map_of_mem (by simp))
  | cons r pre =>
    rw [@Nodes.head_eq _ _ (pre ++ m :: n :: post) _ h.nodes]
    exact fun heq => hfresh (heq ▸ List.mem_map_of_mem (by simp))

/-- A place is never the end mark. -/
theorem Layout.pos_ne_stop (h : l.Layout c ns) (hn : n ∈ ns) : pos l.size c n ≠ -1 :=
  fun heq => h.nodes.stop_not_mem (heq ▸ List.mem_map_of_mem hn)

/-- The first interval, of one number, is taken out. -/
theorem Layout.removeSingle_first (h : l.Layout c (n :: post)) (hsingle : n.2 = n.1) :
    (l.removeSingle (pos l.size c n)).Layout c post := by
  have hdata2 : l.data2 (pos l.size c n) = -1 := by
    rw [h.nodes.last.held n List.mem_cons_self, finish_single hsingle]
  have hsame : l.data2 = Function.update l.data2 (pos l.size c n) (-1) :=
    (Function.update_eq_self_iff.mpr hdata2.symm).symm
  have hhead : l.head = pos l.size c n := h.nodes.head_eq
  unfold RcvLossList.removeSingle
  rw [if_pos hhead]
  refine ⟨?_, h.ordered.tail, fun hne => ?_⟩
  · refine Nodes.dropHead h.nodes rfl hsame rfl (by rw [← hhead]) rfl ?_
    dsimp only
    omega
  · cases post with
    | nil => exact absurd rfl hne
    | cons k post =>
      have hnext : l.next l.head = pos l.size c k := by
        rw [hhead]
        exact @Nodes.next_eq _ _ [] _ _ _ h.nodes
      have hback := @Layout.back_erase _ _ [] _ _ _ h
      rw [Layout.prior_first h] at hback
      simp only [hnext]
      rwa [if_pos (h.pos_ne_stop (by simp))]

/-- So is a later one, whose neighbours are linked to each other. -/
theorem Layout.removeSingle_later (h : l.Layout c (pre ++ m :: n :: post)) (hsingle : n.2 = n.1) :
    (l.removeSingle (pos l.size c n)).Layout c (pre ++ m :: post) := by
  have hsplit : pre ++ m :: n :: post = (pre ++ [m]) ++ n :: post := by simp
  have hdata2 : l.data2 (pos l.size c n) = -1 := by
    rw [h.nodes.last.held n (by simp), finish_single hsingle]
  have hsame : l.data2 = Function.update l.data2 (pos l.size c n) (-1) :=
    (Function.update_eq_self_iff.mpr hdata2.symm).symm
  have hordered : Ordered (pre ++ m :: post) := by
    have hordered := h.ordered
    rw [hsplit] at hordered
    obtain ⟨hpre, hpost, hcross⟩ := ordered_append.mp hordered
    rw [List.append_cons]
    exact ordered_append.mpr ⟨hpre, hpost.tail, fun k hk r hr => hcross k hk r (List.mem_cons_of_mem n hr)⟩
  have hprior := h.prior_eq
  have hnodes := h.nodes
  rw [hsplit] at hnodes
  have hne : pos l.size c m ≠ pos l.size c n := by
    refine fun heq => hnodes.shape.fresh (c := c) ?_
    rw [← heq]
    exact List.mem_map_of_mem (by simp)
  unfold RcvLossList.removeSingle
  rw [if_neg h.head_ne]
  refine ⟨?_, hordered, fun _ => ?_⟩
  · refine h.nodes.eraseNext rfl hsame (by rw [← hprior]) rfl rfl ?_
    dsimp only
    omega
  · simp only [hprior, Function.update_of_ne hne.symm]
    cases post with
    | nil =>
      have hlast : l.next (pos l.size c n) = -1 := hnodes.next_last
      have hback := @Layout.back_last _ _ (pre ++ [m]) _ (by simpa using h)
      rw [hprior] at hback
      rw [if_neg (not_not.mpr hlast), if_neg (not_not.mpr hlast)]
      exact hback
    | cons k post =>
      have hnext : l.next (pos l.size c n) = pos l.size c k := hnodes.next_eq
      have hback := @Layout.back_erase _ _ (pre ++ [m]) _ _ _ (by simpa using h)
      rw [hprior] at hback
      rw [hnext, if_pos (h.pos_ne_stop (by simp)), if_pos (h.pos_ne_stop (by simp))]
      simpa using hback

/-- An interval of one number is taken out. -/
theorem Layout.removeSingle (h : l.Layout c (pre ++ n :: post)) (hsingle : n.2 = n.1) :
    (l.removeSingle (pos l.size c n)).Layout c (pre ++ post) := by
  rcases List.eq_nil_or_concat' pre with rfl | ⟨pre, m, rfl⟩
  · exact Layout.removeSingle_first h hsingle
  · rw [List.append_assoc, List.singleton_append] at h ⊢
    exact h.removeSingle_later hsingle

/-- Only the last interval is at the tail. -/
theorem Layout.tail_ne (h : l.Layout c (pre ++ n :: k :: post)) : l.tail ≠ pos l.size c n := by
  obtain ⟨post', r, hlast⟩ : ∃ post' r, k :: post = post' ++ [r] := by
    rcases List.eq_nil_or_concat' (k :: post) with hnil | ⟨post', r, hconcat⟩
    · exact absurd hnil (List.cons_ne_nil k post)
    · exact ⟨post', r, hconcat⟩
  have hfresh := h.nodes.shape.fresh (c := c)
  have htail := @Layout.tail_eq _ _ (pre ++ n :: post') r (by
    rw [hlast] at h
    simpa using h)
  rw [hlast] at hfresh
  rw [htail]
  refine fun heq => hfresh ?_
  rw [← heq]
  exact List.mem_map_of_mem (by simp)

/-- The links back when an interval moves to another place. -/
theorem Layout.back_move {i : ℤ} (h : l.Layout c (pre ++ n :: k :: post))
    (hi : i ∉ (pre ++ k :: post).map (pos l.size c)) :
    Links (Function.update (Function.update l.prior i (l.prior (pos l.size c n))) (pos l.size c k) i) (-1)
      l.tail ((post.map (pos l.size c)).reverse ++ pos l.size c k :: i :: (pre.map (pos l.size c)).reverse) := by
  have hsplit : pre ++ n :: k :: post = (pre ++ [n]) ++ k :: post := by simp
  have hfresh := pos_notMem_others (n := k) (by rw [← hsplit]; exact h.nodes)
  have hback := h.back_erase
  simp only [List.map_append, List.map_cons, List.map_nil, List.reverse_append, List.reverse_cons,
    List.reverse_nil, List.append_assoc, List.singleton_append, List.nil_append, List.mem_append,
    List.mem_cons, List.mem_reverse, not_or] at hback hfresh hi
  have hne : i ≠ pos l.size c k := hi.2.1
  have hinsert := hback.insertNext (r := i) (by simp [hfresh]) (by simp [hi])
  rwa [Function.update_self, Function.update_comm hne.symm, Function.update_idem] at hinsert

/-- The link back to an interval that moves, behind which there are others. -/
theorem removeFirst_prior {loc : ℤ} (h : l.tail ≠ loc) :
    (l.removeFirst loc).prior =
      Function.update (Function.update l.prior ((loc + 1).tmod l.size) (l.prior loc))
        ((l.removeFirst loc).next ((loc + 1).tmod l.size)) ((loc + 1).tmod l.size) := by
  simp only [RcvLossList.removeFirst, if_neg h]

/-- The first number of an interval that has more is taken out. -/
theorem Layout.removeFirst (h : l.Layout c (pre ++ n :: post)) (hlt : n.1 < n.2) :
    (l.removeFirst (pos l.size c n)).Layout c (pre ++ (n.1 + 1, n.2) :: post) := by
  have hn : n ∈ pre ++ n :: post := by simp
  have hdata1 := h.nodes.first.held n hn
  have hdata2 : l.data2 (pos l.size c n) = seqOf n.2 := by rw [h.nodes.last.held n hn, finish_ne hlt]
  have hself := h.nodes.shape.within n hn n hn
  have hi := pos_succ (c := c) (n := n) (h.nodes.shape.size_pos hn) n.2
  have hpost := (List.pairwise_cons.mp (ordered_append.mp h.ordered).2.1.apart).1
  have hput := putRest_data2 (l := l.toLossArrays) (a := n.1 + 1) (b := n.2) (by omega)
    (near_of_le h.nodes.shape.size_le (by omega) (by omega)) (pos l.size c (n.1 + 1, n.2))
  have hshape : Shape l.size (pre ++ (n.1 + 1, n.2) :: post) :=
    (h.nodes.shape.split hpost le_rfl (Int.lt_succ n.1) hlt).sublist
      (List.Sublist.append_left (List.sublist_cons_self _ _) _)
  have hfresh := hshape.fresh (c := c)
  have hordered : Ordered (pre ++ (n.1 + 1, n.2) :: post) := by
    have hordered := h.ordered.without le_rfl hlt.le
    rwa [without_first hlt, List.append_assoc, List.singleton_append] at hordered
  have hnodes : (l.removeFirst (pos l.size c n)).toLossArrays.Nodes c (pre ++ (n.1 + 1, n.2) :: post) := by
    unfold RcvLossList.removeFirst
    simp only [hi, hdata1, hdata2, incseq_seqOf, hput]
    rcases List.eq_nil_or_concat' pre with rfl | ⟨pre, m, rfl⟩
    · have hhead : l.head = pos l.size c n := h.nodes.head_eq
      rw [if_pos hhead, if_pos hhead]
      exact Nodes.moveHead h.nodes hpost hlt rfl rfl rfl rfl rfl rfl
    · rw [List.append_assoc, List.singleton_append] at h ⊢
      rw [if_neg h.head_ne, if_neg h.head_ne]
      refine h.nodes.moveNext hpost hlt rfl rfl ?_ rfl rfl rfl
      rw [Function.update_self, h.prior_eq]
      rfl
  refine ⟨hnodes, hordered, fun _ => ?_⟩
  cases post with
  | nil =>
    have htail := h.tail_eq
    have hback := h.back_last
    rw [List.append_nil, ← List.mem_reverse, List.map_reverse.symm] at hfresh
    unfold RcvLossList.removeFirst
    simp only [hi, if_pos htail]
    rw [List.map_append, List.reverse_append]
    exact hback.insertFront (by rwa [List.map_reverse] at hfresh)
  | cons k post =>
    have hback := h.back_move hfresh
    have hnext : (l.removeFirst (pos l.size c n)).next (pos l.size c (n.1 + 1, n.2)) = pos l.size c k :=
      hnodes.next_eq
    have hprior := removeFirst_prior h.tail_ne
    rw [hi, hnext] at hprior
    rw [hprior, show (l.removeFirst (pos l.size c n)).tail = l.tail from if_neg h.tail_ne]
    change Links _ (-1) l.tail ((pre ++ (n.1 + 1, n.2) :: k :: post).map (pos l.size c)).reverse
    simp only [List.map_append, List.map_cons, List.reverse_append, List.reverse_cons, List.append_assoc,
      List.singleton_append]
    exact hback

/-- The link back to an interval that is split, behind which there are others. -/
theorem removeInside_prior {i loc seqno : ℤ} (h : l.tail ≠ i) (hseq : seqno ≠ l.data2 i) :
    (l.removeInside i loc seqno).prior =
      Function.update (Function.update l.prior ((loc + 1).tmod l.size) i)
        ((l.removeInside i loc seqno).next ((loc + 1).tmod l.size)) ((loc + 1).tmod l.size) := by
  simp only [RcvLossList.removeInside, if_neg h, if_neg hseq]

/-- What is stored as the last number of an interval that ends before a number. -/
theorem Layout.last_before (h : l.Layout c (pre ++ n :: post)) (hx : n.1 < x) (hxn : x ≤ n.2) :
    (if seqOf x = incseq (l.data1 (pos l.size c n)) then -1 else decseq (seqOf x)) = finish (n.1, x - 1) := by
  have hn : n ∈ pre ++ n :: post := by simp
  have hself := h.nodes.shape.within n hn n hn
  have hinj := seqOf_inj (near_of_le h.nodes.shape.size_le (a := x) (b := n.1 + 1) (by omega) (by omega))
  rw [h.nodes.first.held n hn, incseq_seqOf, decseq_seqOf]
  unfold finish
  by_cases hnext : x = n.1 + 1
  · rw [if_pos (hinj.mpr hnext), if_pos (by dsimp only; omega)]
  · rw [if_neg (mt hinj.mp hnext), if_neg (by dsimp only; omega)]

/-- Which number of an interval is stored as its last one. -/
theorem Layout.seqOf_eq_data2_iff (h : l.Layout c (pre ++ n :: post)) (hx : n.1 < x) (hxn : x ≤ n.2) :
    seqOf x = l.data2 (pos l.size c n) ↔ x = n.2 := by
  have hn : n ∈ pre ++ n :: post := by simp
  have hself := h.nodes.shape.within n hn n hn
  rw [h.nodes.last.held n hn, finish_ne (by omega),
    seqOf_inj (near_of_le h.nodes.shape.size_le (by omega) (by omega))]

/-- The last number of an interval is taken out. -/
theorem Layout.removeLast (h : l.Layout c (pre ++ n :: post)) (hlt : n.1 < n.2) (loc : ℤ) :
    (l.removeInside (pos l.size c n) loc (seqOf n.2)).Layout c (pre ++ (n.1, n.2 - 1) :: post) := by
  have hn : n ∈ pre ++ n :: post := by simp
  have hself := h.nodes.shape.within n hn n hn
  have hordered := h.ordered.without hlt.le le_rfl
  rw [without, if_pos hlt, if_neg (lt_irrefl n.2), List.append_nil, List.append_assoc, List.singleton_append]
    at hordered
  unfold RcvLossList.removeInside
  simp only [h.last_before hlt le_rfl]
  rw [if_pos ((h.seqOf_eq_data2_iff hlt le_rfl).mpr rfl)]
  refine ⟨?_, hordered, fun _ => ?_⟩
  · refine h.nodes.setLast (by omega) (fun m hm => ?_) rfl rfl rfl rfl rfl ?_
    · have hwithin := h.nodes.shape.within m hm n hn
      omega
    · dsimp only
      omega
  · have hback := h.back (by simp)
    rw [List.map_append, List.map_cons] at hback ⊢
    exact hback

/-- The place of what is left behind a number is free. -/
theorem Layout.rest_fresh (h : l.Layout c (pre ++ n :: post)) (hx : n.1 < x) (hxn : x < n.2) :
    pos l.size c (x + 1, n.2) ∉ (pre ++ n :: post).map (pos l.size c) := by
  have hpost := (List.pairwise_cons.mp (ordered_append.mp h.ordered).2.1.apart).1
  have hshape := h.nodes.shape.split hpost (e := x - 1) (f := x + 1) (by omega) (by omega) (by omega)
  have hsplit : pre ++ (n.1, x - 1) :: (x + 1, n.2) :: post =
      (pre ++ [(n.1, x - 1)]) ++ (x + 1, n.2) :: post := by simp
  rw [hsplit] at hshape
  have hfresh := hshape.fresh (c := c)
  simpa [pos] using hfresh

/-- The arrays once an interval is split. -/
theorem Layout.nodes_split (h : l.Layout c (pre ++ n :: post)) (hx : n.1 < x) (hxn : x < n.2) (e : ℤ) :
    (l.removeInside (pos l.size c n) (pos l.size c (x, e)) (seqOf x)).toLossArrays.Nodes c
      (pre ++ (n.1, x - 1) :: (x + 1, n.2) :: post) := by
  have hn : n ∈ pre ++ n :: post := by simp
  have hself := h.nodes.shape.within n hn n hn
  have hpost := (List.pairwise_cons.mp (ordered_append.mp h.ordered).2.1.apart).1
  have hdata2 : l.data2 (pos l.size c n) = seqOf n.2 := by
    rw [h.nodes.last.held n hn, finish_ne (by omega)]
  have hi : (pos l.size c (x, e) + 1).tmod l.size = pos l.size c (x + 1, n.2) :=
    pos_succ (h.nodes.shape.size_pos hn) n.2
  have hput := putRest_data2 (l := l.toLossArrays) (a := x + 1) (b := n.2) (by omega)
    (near_of_le h.nodes.shape.size_le (by omega) (by omega)) (pos l.size c (x + 1, n.2))
  have hne : seqOf x ≠ seqOf n.2 := by
    rw [← hdata2]
    exact mt (h.seqOf_eq_data2_iff hx hxn.le).mp hxn.ne
  unfold RcvLossList.removeInside
  simp only [h.last_before hx hxn.le, hi, incseq_seqOf, hdata2, hput]
  rw [if_neg hne]
  refine h.nodes.splitAt hpost (by omega) (by omega) (by omega) rfl rfl rfl rfl rfl ?_
  dsimp only [putRest]
  omega

/-- The links back once the last interval is split. -/
theorem Layout.back_split_last (h : l.Layout c (pre ++ [n])) {i p : ℤ} (hi : (i + 1).tmod l.size = p)
    (hne : seqOf x ≠ l.data2 (pos l.size c n)) (hfresh : p ∉ (pre ++ [n]).map (pos l.size c)) :
    Links (l.removeInside (pos l.size c n) i (seqOf x)).prior (-1)
      (l.removeInside (pos l.size c n) i (seqOf x)).tail
      (p :: pos l.size c n :: (pre.map (pos l.size c)).reverse) := by
  have hback := h.back_split
  rw [List.map_nil, List.reverse_nil, List.nil_append, h.tail_eq] at hback
  unfold RcvLossList.removeInside
  rw [if_neg hne]
  simp only [hi, if_pos h.tail_eq]
  refine hback.insertFront ?_
  simp only [List.map_append, List.map_cons, List.map_nil, List.mem_append, List.mem_cons,
    List.mem_reverse] at hfresh ⊢
  tauto

/-- The links back once an interval is split that is not the last one. -/
theorem Layout.back_split_inside (h : l.Layout c (pre ++ n :: k :: post)) {i p : ℤ}
    (hi : (i + 1).tmod l.size = p) (hne : seqOf x ≠ l.data2 (pos l.size c n))
    (hfresh : p ∉ (pre ++ n :: k :: post).map (pos l.size c))
    (hnext : (l.removeInside (pos l.size c n) i (seqOf x)).next p = pos l.size c k) :
    Links (l.removeInside (pos l.size c n) i (seqOf x)).prior (-1)
      (l.removeInside (pos l.size c n) i (seqOf x)).tail
      ((post.map (pos l.size c)).reverse ++ pos l.size c k :: p :: pos l.size c n ::
        (pre.map (pos l.size c)).reverse) := by
  have hprior := @removeInside_prior l _ i _ h.tail_ne hne
  have htail : (l.removeInside (pos l.size c n) i (seqOf x)).tail = l.tail := by
    simp only [RcvLossList.removeInside, if_neg hne, if_neg h.tail_ne]
  have hk : pos l.size c k ∉ (post.map (pos l.size c)).reverse ++
      pos l.size c n :: (pre.map (pos l.size c)).reverse := by
    have hk := @pos_notMem_others _ (pre ++ [n]) _ k _ (by simpa using h.nodes)
    simpa using hk
  have hback := h.back_split
  rw [List.map_cons, List.reverse_cons, List.append_assoc, List.singleton_append] at hback
  have hinsert := hback.insertNext (r := p) hk (by
    simp only [List.map_append, List.map_cons, List.mem_append, List.mem_cons, List.mem_reverse] at hfresh ⊢
    tauto)
  rw [h.prior_eq] at hinsert
  rw [hi, hnext] at hprior
  rwa [hprior, htail]

/-- A number inside an interval is taken out, and the interval is split. -/
theorem Layout.splitInside (h : l.Layout c (pre ++ n :: post)) (hx : n.1 < x) (hxn : x < n.2) (e : ℤ) :
    (l.removeInside (pos l.size c n) (pos l.size c (x, e)) (seqOf x)).Layout c
      (pre ++ (n.1, x - 1) :: (x + 1, n.2) :: post) := by
  have hordered := h.ordered.without hx.le hxn.le
  rw [without, if_pos hx, if_pos hxn, List.singleton_append, List.append_assoc, List.cons_append,
    List.singleton_append] at hordered
  have hnodes := h.nodes_split hx hxn e
  have hfresh := h.rest_fresh hx hxn
  have hne := mt (h.seqOf_eq_data2_iff hx hxn.le).mp hxn.ne
  have hi : (pos l.size c (x, e) + 1).tmod l.size = pos l.size c (x + 1, n.2) :=
    pos_succ (h.nodes.shape.size_pos (n := n) (by simp)) n.2
  have hsame : (l.removeInside (pos l.size c n) (pos l.size c (x, e)) (seqOf x)).size = l.size := by
    unfold RcvLossList.removeInside
    rw [if_neg hne]
    rfl
  have hmap : ((pre ++ (n.1, x - 1) :: (x + 1, n.2) :: post).map (pos l.size c)).reverse =
      (post.map (pos l.size c)).reverse ++ pos l.size c (x + 1, n.2) :: pos l.size c n ::
        (pre.map (pos l.size c)).reverse := by
    simp [pos]
  refine ⟨hnodes, hordered, fun _ => ?_⟩
  rw [hsame, hmap]
  cases post with
  | nil => exact h.back_split_last hi hne hfresh
  | cons k post =>
    have hnext := @Nodes.next_eq _ _ (pre ++ [(n.1, x - 1)]) _ _ _ (by simpa using hnodes)
    rw [hsame] at hnext
    rw [List.map_cons, List.reverse_cons, List.append_assoc, List.singleton_append]
    exact h.back_split_inside hi hne hfresh hnext

/-- A number that is not the first one of its interval is taken out. -/
theorem Layout.removeInside (h : l.Layout c (pre ++ n :: post)) (hx : n.1 < x) (hxn : x ≤ n.2) (e : ℤ) :
    (l.removeInside (pos l.size c n) (pos l.size c (x, e)) (seqOf x)).Layout c
      (pre ++ without n x ++ post) := by
  rcases eq_or_lt_of_le hxn with rfl | hlt
  · have hlast := h.removeLast hx (pos l.size c (n.2, e))
    rwa [without, if_pos hx, if_neg (lt_irrefl n.2), List.append_nil, List.append_assoc, List.singleton_append]
  · have hsplit := h.splitInside hx hlt e
    rwa [without, if_pos hx, if_pos hlt, List.singleton_append, List.append_assoc, List.cons_append,
      List.singleton_append]

/-- The search backwards stops at an interval, at the latest at one that is before it. -/
theorem searchBack_spec {l : RcvLossList} {y : ℤ} (h : Nodes l.toLossArrays c ns) (hm : m ∈ ns)
    (hmy : m.1 ≤ y) (hy : y - m.1 < l.size) (e : ℤ) :
    ∃ k ∈ ns, ∃ z, m.1 ≤ z ∧ z ≤ y ∧ pos l.size c k = pos l.size c (z, e) ∧
      l.searchBack (pos l.size c (y, e)) = some (pos l.size c k) := by
  have hsize := h.shape.size_pos hm
  obtain ⟨i, r, hloop, ⟨z, hmz, hzy, rfl, -⟩, hcond⟩ := @whileLoop_spec _
    (fun i => l.data1 i = -1) (fun i => (i - 1 + l.size).tmod l.size)
    (fun r i => ∃ z, m.1 ≤ z ∧ z ≤ y ∧ i = pos l.size c (z, e) ∧ r = (z - m.1).toNat)
    (by
      intro r i ⟨z, hmz, hzy, hi, hr⟩ hcond
      have hne : z ≠ m.1 := by
        rintro rfl
        rw [hi] at hcond
        exact seqOf_ne_neg_one m.1 ((h.first.held m hm).symm.trans (of_decide_eq_true hcond))
      exact ⟨(z - 1 - m.1).toNat, by omega, z - 1, by omega, by omega, by rw [hi, pos_pred hsize e], rfl⟩)
    (y - m.1).toNat (pos l.size c (y, e)) ⟨y, hmy, le_rfl, rfl, rfl⟩ l.size.toNat (by omega)
  have hmem : pos l.size c (z, e) ∈ ns.map (pos l.size c) := by
    by_contra hnot
    exact of_decide_eq_false hcond (h.first.empty _ hnot)
  obtain ⟨k, hk, hpos⟩ := List.mem_map.mp hmem
  exact ⟨k, hk, z, hmz, hzy, hpos, by rw [hpos]; exact hloop⟩

/-- It finds the interval that contains a number, or one that ends before it: the place where the search
begins is less than once around ahead of the interval, and within the window the interval that is found
begins where the search stopped. -/
theorem Layout.searchBack_prior (h : l.Layout c (pre ++ m :: post)) (hm : m.1 < x)
    (hpost : ∀ k ∈ post, x < k.1) (e : ℤ) :
    ∃ k ∈ pre ++ [m], (x ≤ m.2 → k = m) ∧
      l.searchBack (pos l.size c (x - 1, e)) = some (pos l.size c k) := by
  have hmmem : m ∈ pre ++ m :: post := by simp
  have hsize := h.nodes.shape.size_pos hmmem
  obtain ⟨-, hafter, hcross⟩ := ordered_append.mp h.ordered
  have hfar := Int.emod_nonneg (x - 1 - m.1) (show l.size ≠ 0 by omega)
  have hnear := Int.emod_lt_of_pos (x - 1 - m.1) hsize
  have hplace : pos l.size c (x - 1, e) = pos l.size c (m.1 + (x - 1 - m.1) % l.size, e) := by
    have hslot := @RingSlot.slot_add_emod l.size c m.1 (x - 1 - m.1)
    rw [show m.1 + (x - 1 - m.1) = x - 1 by omega] at hslot
    exact hslot.symm
  obtain ⟨k, hk, z, hmz, hzy, hpos, hsearch⟩ := searchBack_spec h.nodes hmmem
    (y := m.1 + (x - 1 - m.1) % l.size) (by omega) (by omega) e
  have hkends := h.ordered.nonempty k hk
  have hmends := h.ordered.nonempty m hmmem
  have hkm := h.nodes.shape.within m hmmem k hk
  have hmk := h.nodes.shape.within k hk m hmmem
  have hfound : (z ≤ m.2 ∨ z < k.1) → k.1 = z := by
    intro hwindow
    by_contra hne
    exact pos_ne (m := k) (n := (z, e)) hne (by dsimp only; omega) (by dsimp only; omega) hpos
  rw [hplace]
  refine ⟨k, ?_, ?_, hsearch⟩
  · simp only [List.mem_append, List.mem_cons, List.not_mem_nil, or_false] at hk ⊢
    rcases hk with hk | hk | hk
    · exact Or.inl hk
    · exact Or.inr hk
    · have hxk := hpost k hk
      have hmod : (x - 1 - m.1) % l.size = x - 1 - m.1 := Int.emod_eq_of_lt (by omega) (by omega)
      have hz := hfound (Or.inr (by omega))
      omega
  · intro hxm
    have hmm := h.nodes.shape.within m hmmem m hmmem
    have hmod : (x - 1 - m.1) % l.size = x - 1 - m.1 := Int.emod_eq_of_lt (by omega) (by omega)
    have hz := hfound (Or.inl (by omega))
    simp only [List.mem_append, List.mem_cons] at hk
    rcases hk with hk | hk | hk
    · have hlt := hcross k hk m List.mem_cons_self
      omega
    · exact hk
    · have hlt := (List.pairwise_cons.mp hafter.apart).1 k hk
      omega

/-- `remove` of a number before all others. -/
theorem Layout.remove_before (h : l.Layout c (n :: post)) (hoff : seqoff (l.data1 l.head) (seqOf x) = x - n.1)
    (hx : x < n.1) : l.remove (seqOf x) = some (l, false) := by
  unfold RcvLossList.remove
  rw [if_neg (mt h.nodes.length_eq_zero.mp (List.cons_ne_nil n post))]
  simp only [hoff]
  rw [if_pos (by omega)]

/-- `remove` of any other number looks at its place first. -/
theorem Layout.remove_behind (h : l.Layout c (n :: post)) (hoff : seqoff (l.data1 l.head) (seqOf x) = x - n.1)
    (hx : n.1 ≤ x) :
    l.remove (seqOf x) =
      if seqOf x = l.data1 (pos l.size c (x, 0)) then
        if l.data2 (pos l.size c (x, 0)) = -1 then some (l.removeSingle (pos l.size c (x, 0)), true)
        else some (l.removeFirst (pos l.size c (x, 0)), true)
      else (l.searchBack ((pos l.size c (x, 0) - 1 + l.size).tmod l.size)).bind fun i =>
        if l.data2 i = -1 ∨ seqcmp (seqOf x) (l.data2 i) > 0 then some (l, false)
        else some (l.removeInside i (pos l.size c (x, 0)) (seqOf x), true) := by
  rw [RcvLossList.remove, if_neg (mt h.nodes.length_eq_zero.mp (List.cons_ne_nil n post))]
  simp only [hoff, h.place_eq hx 0]
  rw [if_neg (by omega)]
  rfl

/-- The first number of an interval is taken out. -/
theorem Layout.remove_first (h : l.Layout c (pre ++ k :: post)) :
    ∃ l', (if l.data2 (pos l.size c k) = -1 then some (l.removeSingle (pos l.size c k), true)
        else some (l.removeFirst (pos l.size c k), true)) = some (l', true) ∧ l'.size = l.size ∧
      l'.Holds ((covers (pre ++ k :: post)).erase k.1) := by
  have hk : k ∈ pre ++ k :: post := by simp
  have hends := h.ordered.nonempty k hk
  have hcovers := h.ordered.covers_without le_rfl hends
  rw [h.nodes.last.held k hk]
  by_cases hsingle : k.2 = k.1
  · rw [without_single hsingle, List.append_nil] at hcovers
    rw [if_pos (finish_single hsingle)]
    refine ⟨_, rfl, ?_, c, _, h.removeSingle hsingle, hcovers⟩
    unfold RcvLossList.removeSingle
    split_ifs <;> rfl
  · have hlt : k.1 < k.2 := by omega
    rw [without_first hlt, List.append_assoc, List.singleton_append] at hcovers
    rw [if_neg (mt finish_eq_neg_one.mp hsingle)]
    exact ⟨_, rfl, rfl, c, _, h.removeFirst hlt, hcovers⟩

/-- A number of an interval that begins before it is taken out. -/
theorem Layout.remove_inside (h : l.Layout c (pre ++ m :: post)) (hmx : m.1 < x) (hxm : x ≤ m.2)
    (hnear : Near x m.2) :
    ∃ l', (if l.data2 (pos l.size c m) = -1 ∨ seqcmp (seqOf x) (l.data2 (pos l.size c m)) > 0 then some (l, false)
        else some (l.removeInside (pos l.size c m) (pos l.size c (x, 0)) (seqOf x), true)) = some (l', true) ∧
      l'.size = l.size ∧ l'.Holds ((covers (pre ++ m :: post)).erase x) := by
  have hmissing : ¬ (finish m = -1 ∨ seqcmp (seqOf x) (finish m) > 0) := by
    rw [finish_ne (by omega), gt_iff_lt, seqcmp_pos hnear, not_or]
    exact ⟨seqOf_ne_neg_one _, not_lt.mpr hxm⟩
  rw [h.nodes.last.held m (by simp), if_neg hmissing]
  refine ⟨_, rfl, ?_, c, _, h.removeInside hmx hxm 0, h.ordered.covers_without hmx.le hxm⟩
  unfold RcvLossList.removeInside
  split_ifs <;> rfl

/-- A number between two intervals is in neither of them. -/
theorem Layout.not_mem_between (h : l.Layout c (pre ++ m :: post)) (hxm : m.2 < x) (hpost : ∀ k ∈ post, x < k.1) :
    x ∉ covers (pre ++ m :: post) := by
  intro hx
  obtain ⟨r, hr, hrx, hxr⟩ := mem_covers.mp hx
  obtain ⟨-, hafter, hcross⟩ := ordered_append.mp h.ordered
  have hends := h.ordered.nonempty m (by simp)
  simp only [List.mem_append, List.mem_cons] at hr
  rcases hr with hr | rfl | hr
  · have hlt := hcross r hr m List.mem_cons_self
    omega
  · omega
  · have hlt := hpost r hr
    omega

/-- `remove` of a number with which no interval begins. -/
theorem Layout.remove_search (h : l.Layout c (n :: post)) (hnx : n.1 < x)
    (hnear : ∀ y ∈ covers (n :: post), Near x y) (hnone : ∀ k ∈ n :: post, k.1 ≠ x) :
    ∃ l', ((l.searchBack ((pos l.size c (x, 0) - 1 + l.size).tmod l.size)).bind fun i =>
        if l.data2 i = -1 ∨ seqcmp (seqOf x) (l.data2 i) > 0 then some (l, false)
        else some (l.removeInside i (pos l.size c (x, 0)) (seqOf x), true)) =
          some (l', decide (x ∈ covers (n :: post))) ∧
      l'.size = l.size ∧ l'.Holds ((covers (n :: post)).erase x) := by
  obtain ⟨pre, m, post', hsplit, hmx, hpost, -⟩ := @Nodes.searchPrior _ _ [] _ _ _ h.nodes hnx
    fun k hk => (hnear k.1 (h.ordered.fst_mem hk)).symm
  rw [List.nil_append] at hsplit
  rw [hsplit] at h hnear hnone ⊢
  have hm : m ∈ pre ++ m :: post' := by simp
  have hbehind : ∀ k ∈ post', x < k.1 := fun k hk =>
    lt_of_le_of_ne (hpost k hk) (hnone k (by simp [hk])).symm
  obtain ⟨k, hk, hkm, hsearch⟩ := h.searchBack_prior hmx hbehind 0
  rw [pos_pred (h.nodes.shape.size_pos hm) 0, hsearch]
  simp only [Option.bind_some]
  by_cases hxm : x ≤ m.2
  · obtain rfl := hkm hxm
    rw [decide_eq_true (mem_covers.mpr ⟨k, hm, hmx.le, hxm⟩)]
    exact h.remove_inside hmx hxm (hnear k.2 (h.ordered.snd_mem hm))
  · have hnot := h.not_mem_between (not_le.mp hxm) hbehind
    obtain ⟨-, -, hcross⟩ := ordered_append.mp h.ordered
    have hmem : k ∈ pre ++ m :: post' ∧ k.2 < x := by
      simp only [List.mem_append, List.mem_cons, List.not_mem_nil, or_false] at hk ⊢
      rcases hk with hk | rfl
      · have hlt := hcross k hk m List.mem_cons_self
        exact ⟨Or.inl hk, by omega⟩
      · exact ⟨Or.inr (Or.inl rfl), not_le.mp hxm⟩
    have hmissing : finish k = -1 ∨ seqcmp (seqOf x) (finish k) > 0 := by
      by_cases hsingle : k.2 = k.1
      · exact Or.inl (finish_single hsingle)
      · have hends := h.ordered.nonempty k hmem.1
        rw [finish_ne (by omega)]
        exact Or.inr ((seqcmp_pos (hnear k.2 (h.ordered.snd_mem hmem.1))).mpr hmem.2)
    rw [h.nodes.last.held k hmem.1, if_pos hmissing, decide_eq_false hnot, Finset.erase_eq_of_notMem hnot]
    exact ⟨l, rfl, rfl, c, _, h, rfl⟩

/-- `remove` takes out a number and reports whether it was in the list. -/
theorem Holds.remove {S : Finset ℤ} (h : l.Holds S) (hnear : ∀ y ∈ S, Near y x) :
    ∃ l', l.remove (seqOf x) = some (l', decide (x ∈ S)) ∧ l'.size = l.size ∧ l'.Holds (S.erase x) := by
  obtain ⟨c, ns, hl, rfl⟩ := h
  cases ns with
  | nil =>
    rw [RcvLossList.remove, if_pos (hl.nodes.length_eq_zero.mpr rfl)]
    exact ⟨l, rfl, rfl, c, [], hl, by simp⟩
  | cons n post =>
    have hn : n ∈ n :: post := List.mem_cons_self
    have hstarts : ∀ k ∈ n :: post, Near k.1 x := fun k hk => hnear k.1 (hl.ordered.fst_mem hk)
    have hoff : seqoff (l.data1 l.head) (seqOf x) = x - n.1 := by
      rw [hl.nodes.head_eq, hl.nodes.first.held n hn, seqoff_seqOf (hstarts n hn)]
    by_cases hbefore : x < n.1
    · have hnot : x ∉ covers (n :: post) := fun hx => absurd (hl.ordered.fst_le_of_mem hx) (not_le.mpr hbefore)
      rw [hl.remove_before hoff hbefore, decide_eq_false hnot, Finset.erase_eq_of_notMem hnot]
      exact ⟨l, rfl, rfl, c, _, hl, rfl⟩
    · rw [hl.remove_behind hoff (not_lt.mp hbefore)]
      by_cases hstored : ∃ k ∈ n :: post, k.1 = x
      · rw [if_pos ((hl.nodes.data1_eq_iff hstarts).mpr hstored).symm]
        obtain ⟨k, hk, rfl⟩ := hstored
        rw [decide_eq_true (hl.ordered.fst_mem hk)]
        obtain ⟨pre, post', hsplit⟩ := List.append_of_mem hk
        rw [hsplit] at hl ⊢
        exact hl.remove_first
      · rw [if_neg fun heq => hstored ((hl.nodes.data1_eq_iff hstarts).mp heq.symm)]
        have hnone : ∀ k ∈ n :: post, k.1 ≠ x := fun k hk heq => hstored ⟨k, hk, heq⟩
        exact hl.remove_search (lt_of_le_of_ne (not_lt.mp hbefore) (hnone n hn)) (fun y hy => (hnear y hy).symm) hnone

/-! ## Reading -/

/-- The new list is empty. -/
theorem holds_init (next prior : ℤ → ℤ) {size : ℤ} (hsize : size < CSeqNo.threshold) :
    (init next prior size).Holds ∅ := by
  refine ⟨0, [], ⟨?_, ⟨by simp, by simp⟩, fun h => absurd rfl h⟩, rfl⟩
  exact ⟨⟨hsize, by simp, by simp, by simp⟩, ⟨by simp, fun _ _ => rfl⟩, ⟨by simp, fun _ _ => rfl⟩, rfl, rfl⟩

/-- The length is the number of missing packets. -/
theorem Holds.getLossLength {S : Finset ℤ} (h : l.Holds S) : l.getLossLength = S.card := by
  obtain ⟨c, ns, hl, rfl⟩ := h
  rw [RcvLossList.getLossLength, hl.nodes.length_eq, hl.ordered.card_covers]

/-- The first lost number is the least one. -/
theorem Holds.getFirstLostSeq {S : Finset ℤ} (h : l.Holds S) :
    (S = ∅ ∧ l.getFirstLostSeq = -1) ∨
      ∃ x ∈ S, (∀ y ∈ S, x ≤ y) ∧ l.getFirstLostSeq = seqOf x := by
  obtain ⟨c, ns, hl, rfl⟩ := h
  unfold RcvLossList.getFirstLostSeq
  cases ns with
  | nil => exact Or.inl ⟨rfl, if_pos (hl.nodes.length_eq_zero.mpr rfl)⟩
  | cons n post =>
    refine Or.inr ⟨n.1, hl.ordered.fst_mem List.mem_cons_self, fun y hy => hl.ordered.fst_le_of_mem hy, ?_⟩
    rw [if_neg (mt hl.nodes.length_eq_zero.mp (List.cons_ne_nil n post)), hl.nodes.head_eq,
      hl.nodes.first.held n List.mem_cons_self]

end RcvLossList

/-! ## Sequences of calls -/

/-- A call of the receiver's loss list, with the indices of the packets. -/
inductive RcvLossCall
  | insert (first last : ℤ)
  | remove (index : ℤ)
  | getFirstLostSeq
  deriving DecidableEq

namespace RcvLossCall

/-- What a call does to the set of the missing packets, and what it returns: whether a packet was
missing, or the first one that is. -/
def onSet (S : Finset ℤ) : RcvLossCall → Finset ℤ × (Bool × ℤ)
  | .insert a b => (S ∪ interval a b, (true, 0))
  | .remove x => (S.erase x, (decide (x ∈ S), 0))
  | .getFirstLostSeq => (S, (true, if h : S.Nonempty then seqOf (least S h) else -1))

/-- What it does to the list, and what it returns. -/
def onList (l : RcvLossList) : RcvLossCall → Option (RcvLossList × (Bool × ℤ))
  | .insert a b => some (l.insert (seqOf a) (seqOf b), (true, 0))
  | .remove x => (l.remove (seqOf x)).map fun (l', found) => (l', (found, 0))
  | .getFirstLostSeq => some (l, (true, l.getFirstLostSeq))

/-- The calls of a receiver: missing packets are behind all others and fit into the window with them. -/
def Admissible (size : ℤ) (S : Finset ℤ) : RcvLossCall → Prop
  | .insert a b => (a ≤ b ∧ ∀ y ∈ S, y < a) ∧ LossArrays.Fits size (S ∪ interval a b)
  | .remove x => ∀ y ∈ S, Near y x
  | .getFirstLostSeq => True

/-- One call on the list does what it does to the set. -/
theorem onList_refines {l : RcvLossList} {S : Finset ℤ} (call : RcvLossCall) (h : l.Holds S)
    (hcall : call.Admissible l.size S) :
    ∃ l', call.onList l = some (l', (call.onSet S).2) ∧ l'.size = l.size ∧
      l'.Holds (call.onSet S).1 := by
  cases call with
  | insert a b =>
    obtain ⟨hsize, hl'⟩ := h.insert hcall.1.1 hcall.1.2 hcall.2
    exact ⟨_, rfl, hsize, hl'⟩
  | remove x =>
    obtain ⟨l', hremove, hsize, hl'⟩ := h.remove hcall
    exact ⟨l', by rw [onList, hremove]; rfl, hsize, hl'⟩
  | getFirstLostSeq =>
    refine ⟨l, ?_, rfl, h⟩
    rcases h.getFirstLostSeq with ⟨rfl, hnone⟩ | ⟨x, hx, hleast, hsome⟩
    · rw [onList, hnone]
      rfl
    · have hmin : least S ⟨x, hx⟩ = x := least_eq hx hleast
      rw [onList, hsome, onSet, dif_pos ⟨x, hx⟩, hmin]

end RcvLossCall

/-- The list of a receiver behaves as the set of the missing packets, whatever calls are made. -/
theorem rcvLossList_refines (next prior : ℤ → ℤ) {size : ℤ} (hsize : size < CSeqNo.threshold)
    (calls : List RcvLossCall)
    (hcalls : Calls.Admissible RcvLossCall.onSet (fun S call => call.Admissible size S) ∅ calls) :
    ∃ l, Calls.run RcvLossCall.onList (RcvLossList.init next prior size) calls =
        some (l, (Calls.specify RcvLossCall.onSet ∅ calls).2) ∧
      l.Holds (Calls.specify RcvLossCall.onSet ∅ calls).1 ∧
      l.getLossLength = (Calls.specify RcvLossCall.onSet ∅ calls).1.card := by
  obtain ⟨l, hrun, -, hl⟩ := Calls.run_refines (R := fun (l : RcvLossList) S => l.size = size ∧ l.Holds S)
    (fun l S call hl hcall => by
      obtain ⟨l', hresult, hsame, hl'⟩ := RcvLossCall.onList_refines call hl.2 (by rw [hl.1]; exact hcall)
      exact ⟨l', hresult, hsame.trans hl.1, hl'⟩)
    ⟨rfl, RcvLossList.holds_init next prior hsize⟩ calls hcalls
  exact ⟨l, hrun, hl, hl.getLossLength⟩

/-- Packets are missing around the end of the sequence numbers, and one in their middle arrives. -/
def missingAroundEnd : List RcvLossCall :=
  [.insert 0x7FFFFFFE 0x80000001, .remove 0x7FFFFFFF, .insert 0x80000003 0x80000003, .getFirstLostSeq]

/-- So it is for these calls around the end of the sequence numbers. -/
theorem rcvLossList_refines_around_end :
    ∃ l, Calls.run RcvLossCall.onList (RcvLossList.init (fun _ => 0) (fun _ => 0) 8) missingAroundEnd =
        some (l, (Calls.specify RcvLossCall.onSet ∅ missingAroundEnd).2) ∧
      l.Holds (Calls.specify RcvLossCall.onSet ∅ missingAroundEnd).1 ∧
      l.getLossLength = (Calls.specify RcvLossCall.onSet ∅ missingAroundEnd).1.card := by
  refine rcvLossList_refines _ _ (by decide) missingAroundEnd
    ⟨⟨⟨by decide, by simp⟩, ?_⟩, ?_, ⟨⟨by decide, ?_⟩, ?_⟩, trivial, trivial⟩
  · intro x hx y hy
    simp only [Finset.empty_union, mem_interval] at hx hy
    omega
  · intro x hx
    simp only [RcvLossCall.onSet, Finset.empty_union, mem_interval] at hx
    rw [near_iff]
    omega
  · intro x hx
    simp only [RcvLossCall.onSet, Finset.empty_union, Finset.mem_erase, mem_interval] at hx
    omega
  · intro x hx y hy
    simp only [RcvLossCall.onSet, Finset.empty_union, Finset.mem_union, Finset.mem_erase, mem_interval] at hx hy
    omega

end Udtfs

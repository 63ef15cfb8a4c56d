import Mathlib.Data.Finset.Max
import Mathlib.Data.Int.Interval
import Mathlib.Algebra.BigOperators.Group.List.Basic

/-!
# Lists of intervals

A finite set of integers as a list of closed intervals. Where the intervals follow one another without
overlap, the sum of their lengths is the number of elements.
-/

namespace Spans

/-- The integers from one to another. The order is named, since instance search can also come upon one
that does not compute. -/
def interval (a b : ℤ) : Finset ℤ := @Finset.Icc ℤ Int.instLinearOrder.toPartialOrder.toPreorder _ a b

/-- The least of some integers. -/
def least (S : Finset ℤ) (h : S.Nonempty) : ℤ := @Finset.min' ℤ Int.instLinearOrder S h

/-- What an interval contains. -/
@[simp] theorem mem_interval {a b x : ℤ} : x ∈ interval a b ↔ a ≤ x ∧ x ≤ b := Finset.mem_Icc

/-- An interval with one end contains that. -/
@[simp] theorem interval_self (a : ℤ) : interval a a = {a} := Finset.Icc_self a

/-- An interval that ends before it begins is empty. -/
theorem interval_empty {a b : ℤ} (h : ¬ a ≤ b) : interval a b = ∅ := Finset.Icc_eq_empty h

/-- How many integers an interval contains. -/
theorem card_interval (a b : ℤ) : (interval a b).card = (b + 1 - a).toNat := Int.card_Icc a b

/-- An element that no other one is below is the least. -/
theorem least_eq {S : Finset ℤ} {x : ℤ} (hx : x ∈ S) (hleast : ∀ y ∈ S, x ≤ y) : least S ⟨x, hx⟩ = x :=
  le_antisymm (S.min'_le x hx) (S.le_min' _ x hleast)

/-- The integers that the intervals cover. -/
def covers : List (ℤ × ℤ) → Finset ℤ
  | [] => ∅
  | n :: ns => interval n.1 n.2 ∪ covers ns

/-- The lengths of the intervals, added up. -/
def total : List (ℤ × ℤ) → ℤ
  | [] => 0
  | n :: ns => n.2 - n.1 + 1 + total ns

/-- No interval is empty and each ends before the next one begins. -/
structure Ordered (ns : List (ℤ × ℤ)) : Prop where
  nonempty : ∀ n ∈ ns, n.1 ≤ n.2
  apart : ns.Pairwise fun m n => m.2 < n.1

/-- No interval covers nothing. -/
@[simp] theorem covers_nil : covers [] = ∅ := rfl

/-- The lengths of the intervals, with one more in front. -/
@[simp] theorem total_cons (n : ℤ × ℤ) (ns : List (ℤ × ℤ)) :
    total (n :: ns) = n.2 - n.1 + 1 + total ns := rfl

/-- Lengths of two lists add up. -/
@[simp] theorem total_append (ms ns : List (ℤ × ℤ)) : total (ms ++ ns) = total ms + total ns := by
  induction ms with
  | nil => simp [total]
  | cons m ms ih =>
    rw [List.cons_append, total_cons, total_cons, ih]
    omega

/-- What is covered is in the first interval or in a later one. -/
@[simp] theorem mem_covers_cons {n : ℤ × ℤ} {ns : List (ℤ × ℤ)} {x : ℤ} :
    x ∈ covers (n :: ns) ↔ (n.1 ≤ x ∧ x ≤ n.2) ∨ x ∈ covers ns := by
  rw [covers, Finset.mem_union, mem_interval]

/-- What two lists cover together, one of them covers. -/
@[simp] theorem mem_covers_append {ms ns : List (ℤ × ℤ)} {x : ℤ} :
    x ∈ covers (ms ++ ns) ↔ x ∈ covers ms ∨ x ∈ covers ns := by
  induction ms with
  | nil => simp
  | cons m ms ih => rw [List.cons_append, mem_covers_cons, mem_covers_cons, ih, or_assoc]

/-- What is covered is in one of the intervals. -/
theorem mem_covers {ns : List (ℤ × ℤ)} {x : ℤ} : x ∈ covers ns ↔ ∃ n ∈ ns, n.1 ≤ x ∧ x ≤ n.2 := by
  induction ns with
  | nil => simp
  | cons n ns ih => simp [ih]

/-- The beginning of an interval is covered. -/
theorem Ordered.fst_mem {ns : List (ℤ × ℤ)} {n : ℤ × ℤ} (h : Ordered ns) (hn : n ∈ ns) :
    n.1 ∈ covers ns :=
  mem_covers.mpr ⟨n, hn, le_rfl, h.nonempty n hn⟩

/-- The end of an interval is covered. -/
theorem Ordered.snd_mem {ns : List (ℤ × ℤ)} {n : ℤ × ℤ} (h : Ordered ns) (hn : n ∈ ns) :
    n.2 ∈ covers ns :=
  mem_covers.mpr ⟨n, hn, h.nonempty n hn, le_rfl⟩

/-- The later intervals are in order themselves. -/
theorem Ordered.tail {n : ℤ × ℤ} {ns : List (ℤ × ℤ)} (h : Ordered (n :: ns)) : Ordered ns :=
  ⟨fun m hm => h.nonempty m (List.mem_cons_of_mem n hm), (List.pairwise_cons.mp h.apart).2⟩

/-- Nothing that later intervals cover is in the first one. -/
theorem Ordered.lt_of_mem {n : ℤ × ℤ} {ns : List (ℤ × ℤ)} {x : ℤ} (h : Ordered (n :: ns))
    (hx : x ∈ covers ns) : n.2 < x := by
  obtain ⟨m, hm, hlow, -⟩ := mem_covers.mp hx
  exact ((List.pairwise_cons.mp h.apart).1 m hm).trans_le hlow

/-- Two lists are in order together if each is, and all of the first comes before the second. -/
theorem ordered_append {ms ns : List (ℤ × ℤ)} :
    Ordered (ms ++ ns) ↔ Ordered ms ∧ Ordered ns ∧ ∀ m ∈ ms, ∀ n ∈ ns, m.2 < n.1 := by
  constructor
  · intro h
    obtain ⟨hms, hns, hcross⟩ := List.pairwise_append.mp h.apart
    exact ⟨⟨fun m hm => h.nonempty m (List.mem_append_left ns hm), hms⟩,
      ⟨fun n hn => h.nonempty n (List.mem_append_right ms hn), hns⟩, hcross⟩
  · intro ⟨hms, hns, hcross⟩
    refine ⟨fun n hn => ?_, List.pairwise_append.mpr ⟨hms.apart, hns.apart, hcross⟩⟩
    rcases List.mem_append.mp hn with hn | hn
    · exact hms.nonempty n hn
    · exact hns.nonempty n hn

/-- There are as many elements as the lengths say. -/
theorem Ordered.card_covers {ns : List (ℤ × ℤ)} (h : Ordered ns) : ((covers ns).card : ℤ) = total ns := by
  induction ns with
  | nil => simp [total]
  | cons n ns ih =>
    have hdisjoint : Disjoint (interval n.1 n.2) (covers ns) := by
      refine Finset.disjoint_left.mpr fun x hx hmem => ?_
      have hlt := h.lt_of_mem hmem
      exact absurd (mem_interval.mp hx).2 (not_le.mpr hlt)
    have hne := h.nonempty n List.mem_cons_self
    rw [covers, Finset.card_union_of_disjoint hdisjoint, card_interval, Nat.cast_add, ih h.tail, total_cons]
    omega

/-- The least element is the beginning of the first interval. -/
theorem Ordered.fst_le_of_mem {n : ℤ × ℤ} {ns : List (ℤ × ℤ)} {x : ℤ} (h : Ordered (n :: ns))
    (hx : x ∈ covers (n :: ns)) : n.1 ≤ x := by
  rcases mem_covers_cons.mp hx with ⟨hle, -⟩ | hx
  · exact hle
  · exact ((h.nonempty n List.mem_cons_self).trans_lt (h.lt_of_mem hx)).le

section
variable {n : ℤ × ℤ} {pre post : List (ℤ × ℤ)} {z : ℤ}

/-- An interval that is cut in two covers what it covered. -/
theorem covers_cut (hn : n.1 ≤ z) (hz : z < n.2) :
    covers (pre ++ (n.1, z) :: (z + 1, n.2) :: post) = covers (pre ++ n :: post) := by
  ext x
  simp only [mem_covers_append, mem_covers_cons]
  have hjoin : (n.1 ≤ x ∧ x ≤ z) ∨ (z + 1 ≤ x ∧ x ≤ n.2) ↔ n.1 ≤ x ∧ x ≤ n.2 := by omega
  rw [← or_assoc (a := n.1 ≤ x ∧ x ≤ z), hjoin]

/-- The two parts are in order. -/
theorem Ordered.cut (h : Ordered (pre ++ n :: post)) (hn : n.1 ≤ z) (hz : z < n.2) :
    Ordered (pre ++ (n.1, z) :: (z + 1, n.2) :: post) := by
  obtain ⟨hpre, hafter, hcross⟩ := ordered_append.mp h
  have hpost := (List.pairwise_cons.mp hafter.apart).1
  refine ordered_append.mpr ⟨hpre, ⟨fun k hk => ?_, ?_⟩, fun k hk r hr => ?_⟩
  · simp only [List.mem_cons] at hk
    rcases hk with rfl | rfl | hk
    · exact hn
    · exact hz
    · exact hafter.nonempty k (List.mem_cons_of_mem n hk)
  · refine List.pairwise_cons.mpr ⟨fun k hk => ?_, List.pairwise_cons.mpr (List.pairwise_cons.mp hafter.apart)⟩
    rcases List.mem_cons.mp hk with rfl | hk
    · exact Int.lt_succ z
    · exact hz.trans (hpost k hk)
  · have hlt := hcross k hk n List.mem_cons_self
    simp only [List.mem_cons] at hr
    rcases hr with rfl | rfl | hr
    · exact hlt
    · dsimp only
      omega
    · exact hcross k hk r (List.mem_cons_of_mem n hr)

/-- All of an ordered list up to the end of an interval. -/
theorem Ordered.le_of_mem_front (h : Ordered (pre ++ n :: post)) {x : ℤ} (hx : x ∈ covers (pre ++ [n])) : x ≤ n.2 := by
  have hends := h.nonempty n (by simp)
  obtain ⟨-, -, hcross⟩ := ordered_append.mp h
  obtain ⟨k, hk, -, hxk⟩ := mem_covers.mp hx
  rcases List.mem_append.mp hk with hk | hk
  · exact (hxk.trans_lt (hcross k hk n List.mem_cons_self)).le.trans hends
  · rwa [List.mem_singleton.mp hk] at hxk

end

/-- What is left of an interval without one of its numbers. -/
def without (n : ℤ × ℤ) (x : ℤ) : List (ℤ × ℤ) :=
  (if n.1 < x then [(n.1, x - 1)] else []) ++ if x < n.2 then [(x + 1, n.2)] else []

variable {n m : ℤ × ℤ} {x y : ℤ} {pre post : List (ℤ × ℤ)}

/-- The two pieces that can be left of an interval. -/
theorem mem_without :
    m ∈ without n x ↔ (n.1 < x ∧ m = (n.1, x - 1)) ∨ (x < n.2 ∧ m = (x + 1, n.2)) := by
  unfold without
  split_ifs <;> simp [*]

/-- Nothing is left of a single number. -/
theorem without_single (h : n.2 = n.1) : without n n.1 = [] := by simp [without, h]

/-- Without its first number an interval begins at the next. -/
theorem without_first (h : n.1 < n.2) : without n n.1 = [(n.1 + 1, n.2)] := by simp [without, h]

/-- What is left covers all numbers of the interval but the one. -/
theorem mem_covers_without (hx : n.1 ≤ x) (hxn : x ≤ n.2) :
    y ∈ covers (without n x) ↔ y ≠ x ∧ n.1 ≤ y ∧ y ≤ n.2 := by
  rw [mem_covers]
  constructor
  · intro ⟨m, hm, hlow, hhigh⟩
    rcases mem_without.mp hm with ⟨hlt, rfl⟩ | ⟨hlt, rfl⟩
    · dsimp only at hlow hhigh
      omega
    · dsimp only at hlow hhigh
      omega
  · intro ⟨hne, hlow, hhigh⟩
    rcases lt_or_gt_of_ne hne with hlt | hgt
    · exact ⟨(n.1, x - 1), mem_without.mpr (Or.inl ⟨by omega, rfl⟩), hlow, by dsimp only; omega⟩
    · exact ⟨(x + 1, n.2), mem_without.mpr (Or.inr ⟨by omega, rfl⟩), by dsimp only; omega, hhigh⟩

/-- The intervals with one replaced by what is left of it cover all but the number. -/
theorem Ordered.covers_without (h : Ordered (pre ++ n :: post)) (hx : n.1 ≤ x) (hxn : x ≤ n.2) :
    covers (pre ++ without n x ++ post) = (covers (pre ++ n :: post)).erase x := by
  obtain ⟨-, hafter, hcross⟩ := ordered_append.mp h
  have hpre : ∀ y ∈ covers pre, y < n.1 := by
    intro y hy
    obtain ⟨m, hm, -, hym⟩ := mem_covers.mp hy
    exact hym.trans_lt (hcross m hm n List.mem_cons_self)
  have hpost : ∀ y ∈ covers post, n.2 < y := fun y hy => hafter.lt_of_mem hy
  ext y
  have hbefore := hpre y
  have hbehind := hpost y
  simp only [mem_covers_append, Finset.mem_erase, mem_covers_cons, mem_covers_without hx hxn]
  constructor
  · rintro ((hy | hy) | hy)
    · exact ⟨by have := hbefore hy; omega, Or.inl hy⟩
    · exact ⟨hy.1, Or.inr (Or.inl hy.2)⟩
    · exact ⟨by have := hbehind hy; omega, Or.inr (Or.inr hy)⟩
  · rintro ⟨hne, hy | hy | hy⟩
    · exact Or.inl (Or.inl hy)
    · exact Or.inl (Or.inr ⟨hne, hy⟩)
    · exact Or.inr hy

/-- They are in order. -/
theorem Ordered.without (h : Ordered (pre ++ n :: post)) (hx : n.1 ≤ x) (hxn : x ≤ n.2) :
    Ordered (pre ++ without n x ++ post) := by
  obtain ⟨hpre, hafter, hcross⟩ := ordered_append.mp h
  have hpost := (List.pairwise_cons.mp hafter.apart).1
  have hbounds : ∀ m ∈ Spans.without n x, n.1 ≤ m.1 ∧ m.1 ≤ m.2 ∧ m.2 ≤ n.2 := by
    intro m hm
    rcases mem_without.mp hm with ⟨hlt, rfl⟩ | ⟨hlt, rfl⟩
    · dsimp only
      omega
    · dsimp only
      omega
  have hapart : (Spans.without n x).Pairwise fun m k => m.2 < k.1 := by
    unfold Spans.without
    split_ifs
    · exact List.pairwise_pair.mpr (by dsimp only; omega)
    · exact List.pairwise_singleton _ _
    · exact List.pairwise_singleton _ _
    · exact List.Pairwise.nil
  rw [List.append_assoc]
  refine ordered_append.mpr ⟨hpre, ordered_append.mpr ⟨⟨fun m hm => (hbounds m hm).2.1, hapart⟩, hafter.tail,
    fun m hm k hk => (hbounds m hm).2.2.trans_lt (hpost k hk)⟩, fun m hm k hk => ?_⟩
  have hmn := hcross m hm n List.mem_cons_self
  rcases List.mem_append.mp hk with hk | hk
  · exact hmn.trans_le (hbounds k hk).1
  · exact hcross m hm k (List.mem_cons_of_mem n hk)

end Spans

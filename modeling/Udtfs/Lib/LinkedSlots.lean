import Mathlib.Data.List.Nodup
import Mathlib.Logic.Function.Iterate

/-!
# Lists kept in arrays

The elements of a list have slots in arrays. One array holds the slot that follows each, others hold
what is known about the element in a slot, and a default where there is none. Each change of the list is
the update of a few places.
-/

namespace LinkedSlots

variable {P V α : Type*}

/-- The links lead from a slot along the given ones to the end mark. -/
def Links (next : P → P) (stop : P) : P → List P → Prop
  | p, [] => p = stop
  | p, q :: ps => p = q ∧ Links next stop (next q) ps

/-- An array holds the value of every element in its slot and a default elsewhere. -/
structure Stores (slot : α → P) (value : α → V) (free : V) (f : P → V) (ns : List α) : Prop where
  held : ∀ n ∈ ns, f (slot n) = value n
  empty : ∀ p, p ∉ ns.map slot → f p = free

section Links

variable {next next' : P → P} {stop p q : P} {ps qs : List P}

/-- Only the links of the slots themselves matter. -/
theorem Links.congr (hsame : ∀ p ∈ ps, next' p = next p) (h : Links next stop q ps) :
    Links next' stop q ps := by
  induction ps generalizing q with
  | nil => exact h
  | cons p ps ih =>
    refine ⟨h.1, ?_⟩
    rw [hsame p List.mem_cons_self]
    exact ih (fun r hr => hsame r (List.mem_cons_of_mem p hr)) h.2

/-- What follows a slot. -/
theorem Links.tail (h : Links next stop q (ps ++ p :: qs)) : Links next stop (next p) qs := by
  induction ps generalizing q with
  | nil => exact h.2
  | cons r ps ih => exact ih h.2

/-- The slots after one are replaced by others, and its link is set to the first of them. -/
theorem Links.splice {rs : List P} {r : P} (h : Links next stop q (ps ++ p :: qs))
    (hps : ∀ s ∈ ps, next' s = next s) (hp : next' p = r) (hrs : Links next' stop r rs) :
    Links next' stop q (ps ++ p :: rs) := by
  induction ps generalizing q with
  | nil => exact ⟨h.1, by rwa [hp]⟩
  | cons s ps ih =>
    refine ⟨h.1, ?_⟩
    rw [hps s List.mem_cons_self]
    exact ih h.2 (fun t ht => hps t (List.mem_cons_of_mem s ht))

/-- Links that end where others begin. -/
theorem Links.append {r : P} (h : Links next r q ps) (hqs : Links next stop r qs) :
    Links next stop q (ps ++ qs) := by
  induction ps generalizing q with
  | nil => rwa [show q = r from h, List.nil_append]
  | cons p ps ih => exact ⟨h.1, ih h.2⟩

/-- The links lead to each slot and on from there. -/
theorem Links.split (h : Links next stop q (ps ++ p :: qs)) :
    Links next p q ps ∧ Links next stop p (p :: qs) := by
  induction ps generalizing q with
  | nil => exact ⟨h.1, rfl, h.2⟩
  | cons r ps ih => exact ⟨⟨h.1, (ih h.2).1⟩, (ih h.2).2⟩

/-- As many links as there are slots lead to the end mark. -/
theorem Links.iterate (h : Links next stop q ps) : next^[ps.length] q = stop := by
  induction ps generalizing q with
  | nil => exact h
  | cons p ps ih =>
    rw [List.length_cons, Function.iterate_succ_apply, h.1]
    exact ih h.2

/-- The first slot is where the links start. -/
theorem Links.head_eq (h : Links next stop q (p :: ps)) : q = p := h.1

/-- No link, no slots. -/
theorem Links.of_nil (h : Links next stop q []) : q = stop := h

variable [DecidableEq P] {r : P}

/-- A slot is put before all others. -/
theorem Links.insertFront (h : Links next stop q ps) (hr : r ∉ ps) :
    Links (Function.update next r q) stop r (r :: ps) := by
  refine ⟨rfl, ?_⟩
  rw [Function.update_self]
  exact h.congr fun s hs => Function.update_of_ne (ne_of_mem_of_not_mem hs hr) _ _

/-- A slot is put behind another one. -/
theorem Links.insertNext (h : Links next stop q (ps ++ p :: qs)) (hp : p ∉ ps ++ qs)
    (hr : r ∉ ps ++ p :: qs) :
    Links (Function.update (Function.update next r (next p)) p r) stop q (ps ++ p :: r :: qs) := by
  simp only [List.mem_append, List.mem_cons, not_or] at hp hr
  refine h.splice ?_ (Function.update_self _ _ _) ⟨rfl, ?_⟩
  · intro s hs
    rw [Function.update_of_ne (ne_of_mem_of_not_mem hs hp.1),
      Function.update_of_ne (ne_of_mem_of_not_mem hs hr.1)]
  · rw [Function.update_of_ne hr.2.1, Function.update_self]
    refine h.tail.congr fun s hs => ?_
    rw [Function.update_of_ne (ne_of_mem_of_not_mem hs hp.2),
      Function.update_of_ne (ne_of_mem_of_not_mem hs hr.2.2)]

/-- The slot behind another one is taken out. -/
theorem Links.eraseNext (h : Links next stop q (ps ++ p :: r :: qs)) (hp : p ∉ ps ++ qs) :
    Links (Function.update next p (next r)) stop q (ps ++ p :: qs) := by
  rw [List.mem_append, not_or] at hp
  refine h.splice ?_ (Function.update_self _ _ _) ?_
  · exact fun s hs => Function.update_of_ne (ne_of_mem_of_not_mem hs hp.1) _ _
  · refine h.tail.2.congr fun s hs => ?_
    exact Function.update_of_ne (ne_of_mem_of_not_mem hs hp.2) _ _

end Links

section Stores

variable [DecidableEq P] {slot : α → P} {value : α → V} {free : V} {f : P → V} {pre post : List α}
variable {n m : α}

/-- A new element in a slot that no other one has. -/
theorem Stores.insert (h : Stores slot value free f (pre ++ post)) (hn : slot n ∉ (pre ++ post).map slot) :
    Stores slot value free (Function.update f (slot n) (value n)) (pre ++ n :: post) := by
  constructor
  · intro m hm
    rcases eq_or_ne (slot m) (slot n) with heq | hne
    · have hmn : m = n := by
        by_contra hne
        have hmem : m ∈ pre ++ post := by
          simp only [List.mem_append, List.mem_cons] at hm ⊢
          tauto
        exact hn (heq ▸ List.mem_map_of_mem hmem)
      rw [hmn, Function.update_self]
    · rw [Function.update_of_ne hne]
      refine h.held m ?_
      simp only [List.mem_append, List.mem_cons] at hm ⊢
      rcases hm with hm | rfl | hm
      · exact Or.inl hm
      · exact absurd rfl hne
      · exact Or.inr hm
  · intro p hp
    simp only [List.map_append, List.map_cons, List.mem_append, List.mem_cons, not_or] at hp
    rw [Function.update_of_ne hp.2.1]
    refine h.empty p ?_
    rw [List.map_append, List.mem_append, not_or]
    exact ⟨hp.1, hp.2.2⟩

/-- An element is taken out of its slot. -/
theorem Stores.erase (h : Stores slot value free f (pre ++ n :: post))
    (hn : slot n ∉ (pre ++ post).map slot) :
    Stores slot value free (Function.update f (slot n) free) (pre ++ post) := by
  constructor
  · intro m hm
    have hne : slot m ≠ slot n := fun heq => hn (heq ▸ List.mem_map_of_mem hm)
    rw [Function.update_of_ne hne]
    refine h.held m ?_
    simp only [List.mem_append, List.mem_cons] at hm ⊢
    tauto
  · intro p hp
    rcases eq_or_ne p (slot n) with rfl | hne
    · rw [Function.update_self]
    · rw [Function.update_of_ne hne]
      refine h.empty p ?_
      simp only [List.map_append, List.map_cons, List.mem_append, List.mem_cons, not_or] at hp ⊢
      exact ⟨hp.1, hne, hp.2⟩

/-- The element in a slot is replaced by another one. -/
theorem Stores.replace (h : Stores slot value free f (pre ++ n :: post))
    (hn : slot n ∉ (pre ++ post).map slot) (hslot : slot m = slot n) :
    Stores slot value free (Function.update f (slot n) (value m)) (pre ++ m :: post) := by
  have herased := (h.erase hn).insert (n := m) (by rwa [hslot])
  rwa [hslot, Function.update_idem] at herased

end Stores

end LinkedSlots

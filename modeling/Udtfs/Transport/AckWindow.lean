import Mathlib.Data.Int.Notation
import Mathlib.Data.List.Basic
import Udtfs.Lib.Calls
import Udtfs.Lib.RingPosition

/-!
# Acknowledgements under way

`CACKWindow` of `window.cpp`: which packet each of the last ACKs acknowledged, in a ring that forgets the
oldest one when it is full. The acknowledgement of an ACK looks it up and forgets it and all older ones.
-/

namespace Udtfs

open RingPosition

/-- `CACKWindow`. -/
structure AckWindow where
  /-- `m_piACKSeqNo`. -/
  ackSeqNo : ℕ → ℤ
  /-- `m_piACK`. -/
  ack : ℕ → ℤ
  size : ℕ
  head : ℕ
  tail : ℕ

namespace AckWindow

/-- The constructor. The arrays are not initialized. -/
def init (ackSeqNo ack : ℕ → ℤ) (size : ℕ) : AckWindow := ⟨Function.update ackSeqNo 0 (-1), ack, size, 0, 0⟩

/-- `store`. -/
def store (w : AckWindow) (seq ack : ℤ) : AckWindow :=
  let head := (w.head + 1) % w.size
  { w with
    ackSeqNo := Function.update w.ackSeqNo w.head seq
    ack := Function.update w.ack w.head ack
    head := head
    tail := if head = w.tail then (w.tail + 1) % w.size else w.tail }

/-- The last ACK has been acknowledged. -/
def clear (w : AckWindow) : AckWindow :=
  { w with tail := 0, head := 0, ackSeqNo := Function.update w.ackSeqNo 0 (-1) }

/-- `acknowledge`: the acknowledged number, if the ACK is still there. -/
def acknowledge (w : AckWindow) (seq : ℤ) : Option (AckWindow × ℤ) :=
  if w.head ≥ w.tail then
    ((List.range' w.tail (w.head - w.tail)).find? fun i => seq = w.ackSeqNo i).map fun i =>
      (if i + 1 = w.head then w.clear else { w with tail := (i + 1) % w.size }, w.ack i)
  else
    ((List.range' w.tail (w.head + w.size - w.tail)).find? fun j => seq = w.ackSeqNo (j % w.size)).map fun j =>
      (if j % w.size = w.head then w.clear else { w with tail := (j % w.size + 1) % w.size }, w.ack (j % w.size))

/-- The ACKs in the ring, with what they acknowledged, from the oldest one on. -/
structure Holds (w : AckWindow) (entries : List (ℤ × ℤ)) : Prop where
  tail_lt : w.tail < w.size
  length_lt : entries.length < w.size
  head_eq : w.head = ahead w.size w.tail entries.length
  entry : ∀ i < entries.length,
    entries[i]? = some (w.ackSeqNo (ahead w.size w.tail i), w.ack (ahead w.size w.tail i))

/-- The last entries, as many as the ring has room for. -/
def newest (size : ℕ) (entries : List (ℤ × ℤ)) : List (ℤ × ℤ) := entries.drop (entries.length + 1 - size)

/-- The first entry with a number, and those behind it. -/
def lookup (seq : ℤ) : List (ℤ × ℤ) → Option (List (ℤ × ℤ) × ℤ)
  | [] => none
  | entry :: entries => if seq = entry.1 then some (entries, entry.2) else lookup seq entries

variable {w : AckWindow} {entries : List (ℤ × ℤ)}

/-- The new window holds nothing. -/
theorem holds_init (ackSeqNo ack : ℕ → ℤ) {size : ℕ} (hsize : 0 < size) : (init ackSeqNo ack size).Holds [] :=
  ⟨hsize, hsize, (ahead_zero hsize).symm, by simp⟩

/-- A place ahead, as it is computed with a remainder. -/
theorem mod_eq_ahead {n i k : ℕ} (hi : i < n) (hk : k < n) : (i + k) % n = ahead n i k := by
  unfold ahead
  split_ifs with hlt
  · exact Nat.mod_eq_of_lt hlt
  · rw [Nat.mod_eq_sub_mod (by omega), Nat.mod_eq_of_lt (by omega)]

/-- The place behind the last entry gets the new one. -/
theorem Holds.stored (h : w.Holds entries) (seq ack : ℤ) {i : ℕ} (hi : i < entries.length + 1) :
    (entries ++ [(seq, ack)])[i]? =
      some ((w.store seq ack).ackSeqNo (ahead w.size w.tail i), (w.store seq ack).ack (ahead w.size w.tail i)) := by
  have hlength := h.length_lt
  have hsame : ahead w.size w.tail i = ahead w.size w.tail entries.length ↔ i = entries.length :=
    ahead_eq_iff (by omega) hlength
  simp only [AckWindow.store, h.head_eq]
  rcases Nat.lt_succ_iff_lt_or_eq.mp hi with hlt | rfl
  · have hne : ahead w.size w.tail i ≠ ahead w.size w.tail entries.length := fun heq => by
      have heq' := hsame.mp heq
      omega
    rw [Function.update_of_ne hne, Function.update_of_ne hne, List.getElem?_append_left hlt]
    exact h.entry i hlt
  · rw [Function.update_self, Function.update_self, List.getElem?_concat_length]

/-- A new entry comes last; where the ring is full the oldest one goes. -/
theorem Holds.store (h : w.Holds entries) (hsize : 1 < w.size) (seq ack : ℤ) :
    (w.store seq ack).Holds (newest w.size (entries ++ [(seq, ack)])) := by
  have htail := h.tail_lt
  have hlength := h.length_lt
  have hlong : (entries ++ [(seq, ack)]).length = entries.length + 1 := by simp
  have hhead : (w.head + 1) % w.size = ahead w.size (ahead w.size w.tail entries.length) 1 := by
    rw [h.head_eq, mod_eq_ahead (ahead_lt htail hlength) hsize]
  rcases Nat.lt_or_ge (entries.length + 1) w.size with hroom | hfull
  · have hnext : (w.head + 1) % w.size = ahead w.size w.tail (entries.length + 1) :=
      hhead.trans (ahead_ahead htail hroom)
    have htail' : (w.store seq ack).tail = w.tail := by
      refine if_neg fun heq => ?_
      have hzero := (ahead_eq_iff (i := w.tail) hroom (by omega : 0 < w.size)).mp
        ((hnext.symm.trans heq).trans (ahead_zero htail).symm)
      omega
    have hall : newest w.size (entries ++ [(seq, ack)]) = entries ++ [(seq, ack)] := by
      rw [newest, hlong, show entries.length + 1 + 1 - w.size = 0 by omega, List.drop_zero]
    rw [hall]
    refine ⟨?_, ?_, ?_, fun i hi => ?_⟩
    · rwa [htail']
    · rwa [hlong]
    · rw [htail', hlong]
      exact hnext
    · rw [htail']
      exact h.stored seq ack (hlong ▸ hi)
  · have hback : (w.head + 1) % w.size = w.tail := by
      rw [hhead]
      unfold ahead
      split_ifs <;> omega
    have htail' : (w.store seq ack).tail = ahead w.size w.tail 1 := by
      rw [← mod_eq_ahead htail hsize]
      exact if_pos hback
    have hrest : newest w.size (entries ++ [(seq, ack)]) = (entries ++ [(seq, ack)]).drop 1 := by
      rw [newest, hlong, show entries.length + 1 + 1 - w.size = 1 by omega]
    have hdrop : ((entries ++ [(seq, ack)]).drop 1).length = entries.length := by
      rw [List.length_drop, hlong, Nat.add_sub_cancel]
    rw [hrest]
    refine ⟨?_, ?_, ?_, fun i hi => ?_⟩
    · rw [htail']
      exact ahead_lt htail hsize
    · rwa [hdrop]
    · rw [htail', hdrop]
      change (w.head + 1) % w.size = ahead w.size (ahead w.size w.tail 1) entries.length
      rw [hback]
      unfold ahead
      split_ifs <;> omega
    · rw [hdrop] at hi
      rw [htail', List.getElem?_drop, Nat.add_comm 1 i, h.stored seq ack (by omega)]
      rw [show (w.store seq ack).size = w.size from rfl, ahead_ahead htail (by omega), Nat.add_comm 1 i]

/-- Looking through places in turn is looking through the entries there. -/
theorem find_places {f : ℕ → ℤ} {seq : ℤ} (t : ℕ)
    (hf : ∀ i < entries.length, entries[i]?.map Prod.fst = some (f (t + i))) :
    ((List.range' t entries.length).find? (fun j => seq = f j) = none ∧ lookup seq entries = none) ∨
      ∃ i a, entries[i]? = some (seq, a) ∧
        (List.range' t entries.length).find? (fun j => seq = f j) = some (t + i) ∧
        lookup seq entries = some (entries.drop (i + 1), a) := by
  induction entries generalizing t with
  | nil => exact Or.inl ⟨rfl, rfl⟩
  | cons entry entries ih =>
    have hfirst := hf 0 (Nat.succ_pos _)
    rw [List.getElem?_cons_zero, Option.map_some, Option.some_inj, Nat.add_zero] at hfirst
    simp only [List.length_cons, List.range'_succ, List.find?_cons, ← hfirst, lookup]
    by_cases hseq : seq = entry.1
    · refine Or.inr ⟨0, entry.2, ?_, ?_, ?_⟩
      · rw [hseq]
        rfl
      · rw [decide_eq_true hseq]
        rfl
      · rw [if_pos hseq]
        rfl
    · rw [decide_eq_false hseq, if_neg hseq]
      have hlater : ∀ i < entries.length, entries[i]?.map Prod.fst = some (f (t + 1 + i)) := fun i hi => by
        have hnext := hf (i + 1) (Nat.succ_lt_succ hi)
        rwa [List.getElem?_cons_succ, Nat.add_comm i 1, ← Nat.add_assoc] at hnext
      rcases ih (t + 1) hlater with hnone | ⟨i, a, hi, hfind, hlookup⟩
      · exact Or.inl hnone
      · refine Or.inr ⟨i + 1, a, hi, ?_, hlookup⟩
        dsimp only
        rw [hfind, Nat.add_right_comm, Nat.add_assoc]

/-- The first entries are forgotten. -/
theorem Holds.drop (h : w.Holds entries) {k : ℕ} (hk : k ≤ entries.length) {t : ℕ} (ht : t = ahead w.size w.tail k) :
    Holds { w with tail := t } (entries.drop k) := by
  have htail := h.tail_lt
  have hlength := h.length_lt
  subst ht
  refine ⟨ahead_lt htail (by omega), ?_, ?_, fun i hi => ?_⟩
  · rw [List.length_drop]
    exact Nat.lt_of_le_of_lt (Nat.sub_le _ _) hlength
  · dsimp only
    rw [List.length_drop, ahead_ahead htail (by omega), Nat.add_sub_cancel' hk]
    exact h.head_eq
  · rw [List.length_drop] at hi
    dsimp only
    rw [List.getElem?_drop, ahead_ahead htail (by omega)]
    exact h.entry (k + i) (by omega)

/-- A cleared window holds nothing. -/
theorem Holds.clear (h : w.Holds entries) : w.clear.Holds [] := by
  have hsize : 0 < w.size := Nat.zero_lt_of_lt h.tail_lt
  exact ⟨hsize, hsize, (ahead_zero hsize).symm, by simp⟩

/-- An ACK is found if it has not been forgotten, and forgotten with all older ones. -/
theorem Holds.acknowledge (h : w.Holds entries) (seq : ℤ) :
    (lookup seq entries = none ∧ w.acknowledge seq = none) ∨
      ∃ rest a w', lookup seq entries = some (rest, a) ∧ w.acknowledge seq = some (w', a) ∧
        w'.size = w.size ∧ w'.Holds rest := by
  have htail := h.tail_lt
  have hlength := h.length_lt
  have hhead := h.head_eq
  have hnext : ∀ i < entries.length, (ahead w.size w.tail i + 1) % w.size = ahead w.size w.tail (i + 1) :=
    fun i hi => by
      rw [mod_eq_ahead (ahead_lt htail (by omega)) (by omega), ahead_ahead htail (by omega)]
  unfold AckWindow.acknowledge
  by_cases hplain : w.head ≥ w.tail
  · have hspan : w.head - w.tail = entries.length := by
      unfold ahead at hhead
      split_ifs at hhead <;> omega
    have hplace : ∀ i < entries.length, w.tail + i = ahead w.size w.tail i := fun i hi => by
      unfold ahead at hhead ⊢
      split_ifs at hhead ⊢ <;> omega
    have hf : ∀ i < entries.length, entries[i]?.map Prod.fst = some (w.ackSeqNo (w.tail + i)) := fun i hi => by
      rw [h.entry i hi, hplace i hi]
      rfl
    rw [if_pos hplain, hspan]
    rcases find_places w.tail hf with ⟨hfind, hlookup⟩ | ⟨i, a, hi, hfind, hlookup⟩
    · exact Or.inl ⟨hlookup, by rw [hfind]; rfl⟩
    · have hlt : i < entries.length := (List.getElem?_eq_some_iff.mp hi).1
      have hack : w.ack (w.tail + i) = a := by
        have hentry := h.entry i hlt
        rw [hi, Option.some_inj, Prod.mk.injEq] at hentry
        rw [hplace i hlt]
        exact hentry.2.symm
      rw [hfind, Option.map_some, hack]
      refine Or.inr ⟨_, a, _, hlookup, rfl, ?_⟩
      split_ifs with hlast
      · rw [List.drop_of_length_le (by omega)]
        exact ⟨rfl, h.clear⟩
      · exact ⟨rfl, h.drop hlt (by rw [hplace i hlt, hnext i hlt])⟩
  · have hspan : w.head + w.size - w.tail = entries.length := by
      unfold ahead at hhead
      split_ifs at hhead <;> omega
    have hplace : ∀ i < entries.length, (w.tail + i) % w.size = ahead w.size w.tail i := fun i hi =>
      mod_eq_ahead htail (by omega)
    have hf : ∀ i < entries.length, entries[i]?.map Prod.fst = some (w.ackSeqNo ((w.tail + i) % w.size)) :=
      fun i hi => by
        rw [h.entry i hi, hplace i hi]
        rfl
    rw [if_neg hplain, hspan]
    rcases find_places (f := fun j => w.ackSeqNo (j % w.size)) w.tail hf with
      ⟨hfind, hlookup⟩ | ⟨i, a, hi, hfind, hlookup⟩
    · exact Or.inl ⟨hlookup, by rw [hfind]; rfl⟩
    · have hlt : i < entries.length := (List.getElem?_eq_some_iff.mp hi).1
      have hentry := h.entry i hlt
      rw [hi, Option.some_inj, Prod.mk.injEq] at hentry
      have hne : ahead w.size w.tail i ≠ w.head := fun heq => by
        rw [hhead, ahead_eq_iff (by omega) hlength] at heq
        omega
      rw [hfind, Option.map_some, hplace i hlt, if_neg hne, hnext i hlt, ← hentry.2]
      exact Or.inr ⟨_, a, _, hlookup, rfl, rfl, h.drop hlt rfl⟩

/-- The last `j` of `total` entries, where `f` says what each of them is. -/
def latest (f : ℕ → ℤ × ℤ) (total j : ℕ) : List (ℤ × ℤ) := (List.range' (total + 1 - j) j).map f

variable {f : ℕ → ℤ × ℤ} {total j : ℕ}

/-- They are as many as asked for. -/
@[simp] theorem latest_length : (latest f total j).length = j := by simp [latest]

/-- They depend on the entries up to the last one only. -/
theorem latest_congr {f' : ℕ → ℤ × ℤ} (hj : j ≤ total) (h : ∀ n ≤ total, f' n = f n) :
    latest f' total j = latest f total j := by
  refine List.map_congr_left fun n hn => h n ?_
  rw [List.mem_range'_1] at hn
  omega

/-- The first of them are forgotten. -/
theorem latest_drop {k : ℕ} (hj : j ≤ total) (hk : k ≤ j) : (latest f total j).drop k = latest f total (j - k) := by
  rw [latest, ← List.map_drop, List.drop_range', latest, Nat.mul_one,
    show total + 1 - j + k = total + 1 - (j - k) by omega]

/-- The next one comes last. -/
theorem newest_latest {size : ℕ} (hj : j ≤ total) (hsize : j < size) :
    newest size (latest f total j ++ [f (total + 1)]) = latest f (total + 1) (min (j + 1) (size - 1)) := by
  have hnext : latest f total j ++ [f (total + 1)] = latest f (total + 1) (j + 1) := by
    rw [latest, latest, List.range'_concat, List.map_append, List.map_singleton,
      show total + 1 + 1 - (j + 1) = total + 1 - j by omega, show total + 1 - j + 1 * j = total + 1 by omega]
  rw [newest, hnext, latest_length, latest_drop (by omega) (by omega),
    show j + 1 - (j + 1 + 1 - size) = min (j + 1) (size - 1) by omega]

/-- What is found is an entry with the number, and those behind it are left. -/
theorem lookup_cases {seq a : ℤ} {rest : List (ℤ × ℤ)} (h : lookup seq entries = some (rest, a)) :
    ∃ i, entries[i]? = some (seq, a) ∧ rest = entries.drop (i + 1) := by
  induction entries with
  | nil => exact absurd h (by simp [lookup])
  | cons entry entries ih =>
    rw [lookup] at h
    split_ifs at h with hseq
    · obtain ⟨rfl, rfl⟩ := Prod.mk.inj (Option.some.inj h)
      exact ⟨0, by rw [hseq]; rfl, rfl⟩
    · obtain ⟨i, hi, hrest⟩ := ih h
      exact ⟨i + 1, hi, hrest⟩

/-- An entry that is there is found, or an earlier one with its number. -/
theorem lookup_ne_none {seq a : ℤ} (h : (seq, a) ∈ entries) : lookup seq entries ≠ none := by
  induction entries with
  | nil => exact absurd h List.not_mem_nil
  | cons entry entries ih =>
    rw [lookup]
    split_ifs with hseq
    · exact Option.some_ne_none _
    · rcases List.mem_cons.mp h with rfl | h
      · exact absurd rfl hseq
      · exact ih h

/-- What is found is one of them, and the later ones stay. -/
theorem lookup_latest {seq a : ℤ} {rest : List (ℤ × ℤ)} (hj : j ≤ total)
    (h : lookup seq (latest f total j) = some (rest, a)) :
    ∃ n, (total < n + j ∧ n ≤ total) ∧ f n = (seq, a) ∧ rest = latest f total (total - n) := by
  obtain ⟨i, hi, rfl⟩ := lookup_cases h
  have hlt : i < j := by
    have hbound := (List.getElem?_eq_some_iff.mp hi).1
    rwa [latest_length] at hbound
  refine ⟨total + 1 - j + i, by omega, ?_, ?_⟩
  · rw [latest, List.getElem?_map, List.getElem?_range' hlt, Option.map_some, Nat.one_mul] at hi
    exact Option.some.inj hi
  · rw [latest_drop hj hlt, show j - (i + 1) = total - (total + 1 - j + i) by omega]

/-- Each of the last entries is among them. -/
theorem mem_latest {n : ℕ} (hn : total < n + j) (hle : n ≤ total) : f n ∈ latest f total j := by
  refine List.mem_map_of_mem ?_
  rw [List.mem_range'_1]
  omega

end AckWindow

/-- A call of the window. -/
inductive AckCall
  | store (seq ack : ℤ)
  | acknowledge (seq : ℤ)
  deriving DecidableEq

namespace AckCall

/-- What a call does to the list of the last ACKs, and what it finds. -/
def onEntries (size : ℕ) (entries : List (ℤ × ℤ)) : AckCall → List (ℤ × ℤ) × Option ℤ
  | .store seq ack => (AckWindow.newest size (entries ++ [(seq, ack)]), none)
  | .acknowledge seq =>
    match AckWindow.lookup seq entries with
    | none => (entries, none)
    | some (rest, ack) => (rest, some ack)

/-- What it does to the window. -/
def onWindow (w : AckWindow) : AckCall → Option (AckWindow × Option ℤ)
  | .store seq ack => some (w.store seq ack, none)
  | .acknowledge seq =>
    match w.acknowledge seq with
    | none => some (w, none)
    | some (w', ack) => some (w', some ack)

/-- One call on the window does what it does to the list. -/
theorem onWindow_refines {w : AckWindow} {entries : List (ℤ × ℤ)} (call : AckCall) (h : w.Holds entries)
    (hsize : 1 < w.size) :
    ∃ w', call.onWindow w = some (w', (call.onEntries w.size entries).2) ∧ w'.size = w.size ∧
      w'.Holds (call.onEntries w.size entries).1 := by
  cases call with
  | store seq ack => exact ⟨_, rfl, rfl, h.store hsize seq ack⟩
  | acknowledge seq =>
    rcases h.acknowledge seq with ⟨hlookup, hnone⟩ | ⟨rest, ack, w', hlookup, hsome, hsame, hrest⟩
    · exact ⟨w, by simp only [onWindow, onEntries, hnone, hlookup], rfl, by simpa only [onEntries, hlookup] using h⟩
    · exact ⟨w', by simp only [onWindow, onEntries, hsome, hlookup], hsame, by
        simpa only [onEntries, hlookup] using hrest⟩

end AckCall

/-- The window behaves as the list of the last ACKs, whatever calls are made: an ACK that is still in it is
found once, with what it acknowledged, and the oldest one is forgotten when the ring is full. -/
theorem ackWindow_refines (ackSeqNo ack : ℕ → ℤ) {size : ℕ} (hsize : 1 < size) (calls : List AckCall) :
    ∃ w, Calls.run AckCall.onWindow (AckWindow.init ackSeqNo ack size) calls =
        some (w, (Calls.specify (AckCall.onEntries size) [] calls).2) ∧
      w.Holds (Calls.specify (AckCall.onEntries size) [] calls).1 := by
  have hstep : ∀ (w : AckWindow) entries (call : AckCall), (w.size = size ∧ w.Holds entries) → True →
      ∃ w', call.onWindow w = some (w', (call.onEntries size entries).2) ∧
        (w'.size = size ∧ w'.Holds (call.onEntries size entries).1) := by
    rintro w entries call ⟨rfl, hw⟩ -
    exact AckCall.onWindow_refines call hw hsize
  have hadmissible : Calls.Admissible (AckCall.onEntries size) (fun _ _ => True) [] calls :=
    Calls.admissible_of_forall (fun _ _ => trivial) [] calls
  obtain ⟨w, hrun, -, hw⟩ := Calls.run_refines hstep
    ⟨rfl, AckWindow.holds_init ackSeqNo ack (by omega)⟩ calls hadmissible
  exact ⟨w, hrun, hw⟩

/-- Three ACKs on a ring of three: the first one is forgotten, the others are found. -/
theorem ackWindow_refines_three :
    ∃ w, Calls.run AckCall.onWindow (AckWindow.init (fun _ => 0) (fun _ => 0) 3)
          [.store 1 10, .store 2 20, .store 3 30, .acknowledge 1, .acknowledge 3] =
        some (w, [none, none, none, none, some 30]) ∧ w.Holds [] :=
  ackWindow_refines (fun _ => 0) (fun _ => 0) (by decide) _

end Udtfs

import Mathlib.Data.Int.Interval
import Udtfs.CLibrary
import Udtfs.Lib.Pieces
import Udtfs.Lib.RingSlot

/-!
# The buffer of the receiver

`CRcvBuffer` of `buffer.cpp`: a ring of packets. Packets are stored at an offset from the acknowledged
position, in any order; acknowledging moves the position over packets that are all stored; reading takes
the bytes of acknowledged packets, and may stop within one.
-/

namespace Udtfs

open Pieces RingSlot

/-- `CRcvBuffer`. -/
structure RcvBuffer where
  /-- `m_pUnit`: the data of the packet in a slot, or NULL. -/
  unit : ℤ → Option Bytes
  size : ℤ
  startPos : ℤ
  lastAckPos : ℤ
  maxPos : ℤ
  /-- `m_iNotch`: how much of the first packet has been read. -/
  notch : ℕ

namespace RcvBuffer

/-- The constructor. -/
def init (bufsize : ℤ) : RcvBuffer := ⟨fun _ => none, bufsize, 0, 0, -1, 0⟩

/-- `addData`. -/
def addData (b : RcvBuffer) (data : Bytes) (offset : ℤ) : RcvBuffer × ℤ :=
  let pos := (b.lastAckPos + offset).tmod b.size
  let b := { b with maxPos := if offset > b.maxPos then offset else b.maxPos }
  if b.unit pos ≠ none then (b, -1)
  else ({ b with unit := Function.update b.unit pos (some data) }, 0)

/-- One round of the loop of `readBuffer`, at the packet `data`: what is left to read, and what has been
read. -/
def readUnit (b : RcvBuffer) (data : Bytes) (rs : ℕ) (out : Bytes) : RcvBuffer × ℕ × Bytes :=
  let unitsize := if data.length - b.notch > rs then rs else data.length - b.notch
  let out := out ++ (data.drop b.notch).take unitsize
  if rs > unitsize ∨ rs = data.length - b.notch then
    ({ b with
      unit := Function.update b.unit b.startPos none
      startPos := if b.startPos + 1 = b.size then 0 else b.startPos + 1
      notch := 0 }, rs - unitsize, out)
  else ({ b with notch := b.notch + rs }, rs - unitsize, out)

/-- The loop of `readBuffer`. A NULL packet is dereferenced. -/
def readLoop : ℕ → RcvBuffer → ℕ → Bytes → Option (RcvBuffer × Bytes)
  | 0, b, rs, out => if b.startPos ≠ b.lastAckPos ∧ rs > 0 then none else some (b, out)
  | fuel + 1, b, rs, out =>
    if b.startPos ≠ b.lastAckPos ∧ rs > 0 then
      match b.unit b.startPos with
      | none => none
      | some data => readLoop fuel (b.readUnit data rs out).1 (b.readUnit data rs out).2.1 (b.readUnit data rs out).2.2
    else some (b, out)

/-- `readBuffer`, and `readBufferToFile`: the bytes that are read. -/
def readBuffer (b : RcvBuffer) (len : ℕ) : Option (RcvBuffer × Bytes) := readLoop b.size.toNat b len []

/-- `ackData`. -/
def ackData (b : RcvBuffer) (len : ℤ) : RcvBuffer :=
  { b with
    lastAckPos := (b.lastAckPos + len).tmod b.size
    maxPos := if b.maxPos - len < 0 then 0 else b.maxPos - len }

/-- `getRcvDataSize`. -/
def getRcvDataSize (b : RcvBuffer) : ℤ :=
  if b.lastAckPos ≥ b.startPos then b.lastAckPos - b.startPos else b.size + b.lastAckPos - b.startPos

/-- `getAvailBufSize`: one slot stays empty. -/
def getAvailBufSize (b : RcvBuffer) : ℤ := b.size - b.getRcvDataSize - 1

/-- Adding a packet keeps the size. -/
@[simp] theorem addData_size (b : RcvBuffer) (data : Bytes) (offset : ℤ) : (b.addData data offset).1.size = b.size := by
  unfold addData
  dsimp only
  split_ifs <;> rfl

/-- It keeps what has been read of the first packet. -/
@[simp] theorem addData_notch (b : RcvBuffer) (data : Bytes) (offset : ℤ) :
    (b.addData data offset).1.notch = b.notch := by
  unfold addData
  dsimp only
  split_ifs <;> rfl

/-- The buffer holds the packets `T` of a stream `f`, whose first one has the index `o`. The packets from
`h` on are not read completely, those before `r` are acknowledged. -/
structure Layout (b : RcvBuffer) (o : ℤ) (f : ℤ → Bytes) (T : Finset ℤ) (h r : ℤ) : Prop where
  size_pos : 0 < b.size
  start_eq : b.startPos = slot b.size (-o) h
  ack_eq : b.lastAckPos = slot b.size (-o) r
  read_le : h ≤ r
  ack_lt : r < h + b.size
  bounds : ∀ n ∈ T, h ≤ n ∧ n < h + b.size - 1
  acked : ∀ n, h ≤ n → n < r → n ∈ T
  held : ∀ n ∈ T, b.unit (slot b.size (-o) n) = some (f n)
  empty : ∀ p, (∀ n ∈ T, slot b.size (-o) n ≠ p) → b.unit p = none
  notch_le : b.notch = 0 ∨ (h < r ∧ b.notch < (f h).length)

/-- The acknowledged bytes that have not been read. -/
def pending (b : RcvBuffer) (f : ℤ → Bytes) (h r : ℤ) : Bytes := (joined f h r).drop b.notch

variable {b : RcvBuffer} {o h r n k : ℤ} {f : ℤ → Bytes} {T : Finset ℤ}

/-- The new buffer holds nothing. -/
theorem layout_init {bufsize : ℤ} (hsize : 0 < bufsize) (o : ℤ) (f : ℤ → Bytes) :
    (init bufsize).Layout o f ∅ o o :=
  ⟨hsize, slot_origin.symm, slot_origin.symm, le_rfl, by change o < o + bufsize; omega, by simp,
    fun n hn hlt => absurd hlt (not_lt.mpr hn), by simp, fun _ _ => rfl, Or.inl rfl⟩

/-- The size of the data counts the acknowledged packets. -/
theorem Layout.getRcvDataSize (hb : b.Layout o f T h r) : b.getRcvDataSize = r - h := by
  rw [RcvBuffer.getRcvDataSize, hb.start_eq, hb.ack_eq,
    slot_sub (c := -o) hb.size_pos hb.read_le (by have := hb.ack_lt; omega)]

/-- The room reaches to one slot before the packets that have not been read. -/
theorem Layout.getAvailBufSize (hb : b.Layout o f T h r) : r + b.getAvailBufSize = h + b.size - 1 := by
  rw [RcvBuffer.getAvailBufSize, hb.getRcvDataSize]
  omega

/-- Only the packets in the buffer matter. -/
theorem Layout.congr {f' : ℤ → Bytes} (hb : b.Layout o f T h r) (hsame : ∀ n ∈ T, f' n = f n) :
    b.Layout o f' T h r ∧ b.pending f' h r = b.pending f h r := by
  have hread := hb.read_le
  refine ⟨{ hb with held := fun n hn => ?_, notch_le := ?_ }, ?_⟩
  · rw [hsame n hn]
    exact hb.held n hn
  · rcases hb.notch_le with hzero | ⟨hlt, hnotch⟩
    · exact Or.inl hzero
    · rw [hsame h (hb.acked h le_rfl hlt)]
      exact Or.inr ⟨hlt, hnotch⟩
  · rw [pending, pending, joined_congr fun n hhn hnr => hsame n (hb.acked n hhn hnr)]

/-- The slot of a packet within the buffer is only its own. -/
theorem Layout.slot_ne (hb : b.Layout o f T h r) (hn : h ≤ n ∧ n < h + b.size - 1) {m : ℤ} (hm : m ∈ T)
    (hne : m ≠ n) : slot b.size (-o) m ≠ slot b.size (-o) n := by
  have hbounds := hb.bounds m hm
  exact RingSlot.slot_ne hne (by omega) (by omega)

/-- A packet is stored unless there is one already. -/
theorem Layout.addData (hb : b.Layout o f T h r) (hrn : r ≤ n) (hn : n - r < b.getAvailBufSize) :
    (n ∈ T ∧ (b.addData (f n) (n - r)).2 = -1 ∧ (b.addData (f n) (n - r)).1.Layout o f T h r) ∨
      (n ∉ T ∧ (b.addData (f n) (n - r)).2 = 0 ∧
        (b.addData (f n) (n - r)).1.Layout o f (insert n T) h r) := by
  have havail := hb.getAvailBufSize
  have hread := hb.read_le
  have hwindow : h ≤ n ∧ n < h + b.size - 1 := by omega
  have hack := slot_nonneg (c := -o) (n := r) hb.size_pos
  have hpos : (b.lastAckPos + (n - r)).tmod b.size = slot b.size (-o) n := by
    rw [hb.ack_eq, slot_add (by omega)]
    congr 1
    omega
  unfold RcvBuffer.addData
  simp only [hpos]
  by_cases hmem : n ∈ T
  · rw [if_pos (by rw [hb.held n hmem]; exact Option.some_ne_none _)]
    exact Or.inl ⟨hmem, rfl, ⟨hb.size_pos, hb.start_eq, hb.ack_eq, hb.read_le, hb.ack_lt, hb.bounds, hb.acked,
      hb.held, hb.empty, hb.notch_le⟩⟩
  · have hfree : b.unit (slot b.size (-o) n) = none :=
      hb.empty _ fun m hm => hb.slot_ne hwindow hm (ne_of_mem_of_not_mem hm hmem)
    rw [if_neg (not_not.mpr hfree)]
    refine Or.inr ⟨hmem, rfl, ⟨hb.size_pos, hb.start_eq, hb.ack_eq, hb.read_le, hb.ack_lt, ?_, ?_, ?_, ?_,
      hb.notch_le⟩⟩
    · intro m hm
      rcases Finset.mem_insert.mp hm with rfl | hm
      · exact hwindow
      · exact hb.bounds m hm
    · exact fun m hm hlt => Finset.mem_insert_of_mem (hb.acked m hm hlt)
    · intro m hm
      rcases Finset.mem_insert.mp hm with rfl | hm
      · exact Function.update_self _ _ _
      · exact (Function.update_of_ne (hb.slot_ne hwindow hm (ne_of_mem_of_not_mem hm hmem)) _ _).trans
          (hb.held m hm)
    · intro p hp
      have hne := hp n (Finset.mem_insert_self n T)
      exact (Function.update_of_ne hne.symm _ _).trans
        (hb.empty p fun m hm => hp m (Finset.mem_insert_of_mem hm))

/-- Acknowledging packets that are all stored. -/
theorem Layout.ackData (hb : b.Layout o f T h r) (hrk : r ≤ k) (hstored : ∀ n, r ≤ n → n < k → n ∈ T) :
    (b.ackData (k - r)).Layout o f T h k := by
  have hack := slot_nonneg (c := -o) (n := r) hb.size_pos
  have hread := hb.read_le
  have hlt := hb.ack_lt
  refine ⟨hb.size_pos, hb.start_eq, ?_, hread.trans hrk, ?_, hb.bounds, ?_, hb.held, hb.empty, ?_⟩
  · rw [RcvBuffer.ackData]
    dsimp only
    rw [hb.ack_eq, slot_add (by omega)]
    congr 1
    omega
  · change k < h + b.size
    by_contra hge
    have hmem := hstored (k - 1) (by omega) (by omega)
    have hbounds := hb.bounds _ hmem
    omega
  · intro n hn hnk
    by_cases hnr : n < r
    · exact hb.acked n hn hnr
    · exact hstored n (by omega) hnk
  · rcases hb.notch_le with hzero | ⟨hhr, hnotch⟩
    · exact Or.inl hzero
    · exact Or.inr ⟨by omega, hnotch⟩

/-- What is acknowledged can be read behind the rest. -/
theorem Layout.pending_ack {b' : RcvBuffer} (hb : b.Layout o f T h r) (hrk : r ≤ k) (hnotch : b'.notch = b.notch) :
    b'.pending f h k = b.pending f h r ++ joined f r k := by
  have hlong : b.notch ≤ (joined f h r).length := by
    rcases hb.notch_le with hzero | ⟨hlt, hnotch⟩
    · omega
    · rw [joined_cons hlt, List.length_append]
      omega
  rw [pending, pending, hnotch, joined_append hb.read_le hrk, List.drop_append_of_le_length hlong]

/-- There is something to read exactly if a packet is acknowledged and not read completely. -/
theorem Layout.start_ne_ack (hb : b.Layout o f T h r) : b.startPos ≠ b.lastAckPos ↔ h < r := by
  have hread := hb.read_le
  have hlt := hb.ack_lt
  rw [hb.start_eq, hb.ack_eq, Ne, slot_inj (by omega) (by omega)]
  omega

/-- What can be read begins with what is left of the first packet. -/
theorem Layout.pending_eq (hb : b.Layout o f T h r) (hlt : h < r) :
    b.pending f h r = (f h).drop b.notch ++ joined f (h + 1) r := by
  have hnotch : b.notch ≤ (f h).length := by
    rcases hb.notch_le with hzero | ⟨-, hnotch⟩
    · omega
    · exact hnotch.le
  rw [pending, joined_cons hlt, List.drop_append_of_le_length hnotch]

/-- If an acknowledged packet has not been read, there are bytes to read. -/
theorem Layout.pending_ne_nil (hb : b.Layout o f T h r) (hlt : h < r) (hne : f h ≠ []) : b.pending f h r ≠ [] := by
  have hpos := List.length_pos_iff.mpr hne
  rw [hb.pending_eq hlt]
  refine List.append_ne_nil_of_left_ne_nil (List.length_pos_iff.mp ?_) _
  rw [List.length_drop]
  rcases hb.notch_le with hzero | ⟨-, hnotch⟩ <;> omega

/-- One round that ends within the first packet. -/
theorem Layout.readUnit_within (hb : b.Layout o f T h r) (hlt : h < r) {rs : ℕ}
    (hrs : rs < (f h).length - b.notch) (out : Bytes) :
    (b.readUnit (f h) rs out).1.Layout o f T h r ∧ (b.readUnit (f h) rs out).1.size = b.size ∧
      (b.readUnit (f h) rs out).1.pending f h r = (b.pending f h r).drop rs ∧
      (b.readUnit (f h) rs out).2 = (0, out ++ (b.pending f h r).take rs) := by
  have htake : ((f h).drop b.notch).take rs = (b.pending f h r).take rs := by
    rw [hb.pending_eq hlt, List.take_append_of_le_length (by rw [List.length_drop]; omega)]
  unfold RcvBuffer.readUnit
  simp only [if_pos hrs]
  rw [if_neg (by omega)]
  refine ⟨⟨hb.size_pos, hb.start_eq, hb.ack_eq, hb.read_le, hb.ack_lt, hb.bounds, hb.acked, hb.held, hb.empty,
    Or.inr ⟨hlt, ?_⟩⟩, rfl, ?_, ?_⟩
  · change b.notch + rs < (f h).length
    omega
  · rw [pending, pending, List.drop_drop]
  · rw [Nat.sub_self, htake]

/-- One round that takes the first packet out. -/
theorem Layout.readUnit_whole (hb : b.Layout o f T h r) (hlt : h < r) {rs : ℕ}
    (hrs : (f h).length - b.notch ≤ rs) (out : Bytes) :
    (b.readUnit (f h) rs out).1.Layout o f (T.erase h) (h + 1) r ∧
      (b.readUnit (f h) rs out).1.size = b.size ∧
      (b.readUnit (f h) rs out).1.pending f (h + 1) r = (b.pending f h r).drop ((f h).length - b.notch) ∧
      (b.readUnit (f h) rs out).2 =
        (rs - ((f h).length - b.notch), out ++ (b.pending f h r).take ((f h).length - b.notch)) := by
  have hlength : ((f h).drop b.notch).length = (f h).length - b.notch := List.length_drop
  have hmem := hb.acked h le_rfl hlt
  have hack := hb.ack_lt
  unfold RcvBuffer.readUnit
  simp only [if_neg (not_lt.mpr hrs)]
  rw [if_pos (by omega)]
  refine ⟨⟨hb.size_pos, ?_, hb.ack_eq, by omega, ?_, ?_, ?_, ?_, ?_, Or.inl rfl⟩, rfl, ?_, ?_⟩
  · dsimp only
    rw [hb.start_eq, slot_next hb.size_pos]
  · change r < h + 1 + b.size
    omega
  · intro n hn
    rw [Finset.mem_erase] at hn
    have hbounds := hb.bounds n hn.2
    dsimp only
    omega
  · exact fun n hn hnr => Finset.mem_erase.mpr ⟨by omega, hb.acked n (by omega) hnr⟩
  · intro n hn
    rw [Finset.mem_erase] at hn
    dsimp only
    rw [hb.start_eq, Function.update_of_ne (hb.slot_ne (hb.bounds h hmem) hn.2 hn.1)]
    exact hb.held n hn.2
  · intro p hp
    dsimp only
    rcases eq_or_ne p b.startPos with rfl | hne
    · exact Function.update_self _ _ _
    · rw [Function.update_of_ne hne]
      refine hb.empty p fun n hn => ?_
      rcases eq_or_ne n h with rfl | hnh
      · rw [← hb.start_eq]
        exact hne.symm
      · exact hp n (Finset.mem_erase.mpr ⟨hnh, hn⟩)
  · rw [hb.pending_eq hlt, List.drop_left' hlength]
    rfl
  · rw [hb.pending_eq hlt, List.take_left' hlength, ← hlength, List.take_length]

/-- Nothing is left to read. -/
theorem Layout.read_done (hb : b.Layout o f T h r) {rs : ℕ} (hend : ¬ (h < r ∧ rs > 0)) :
    b.Layout o f (T.filter (h ≤ ·)) h r ∧ b.pending f h r = (b.pending f h r).drop rs ∧
      (b.pending f h r).take rs = [] := by
  have hfilter : T.filter (h ≤ ·) = T := Finset.filter_true_of_mem fun n hn => (hb.bounds n hn).1
  rw [hfilter]
  rcases Nat.eq_zero_or_pos rs with rfl | hrs
  · exact ⟨hb, rfl, List.take_zero⟩
  · have hread := hb.read_le
    have hnone : b.pending f h r = [] := by
      rw [pending, show r = h by omega, joined_self, List.drop_nil]
    rw [hnone]
    exact ⟨hb, List.drop_nil.symm, List.take_nil⟩

/-- Nothing is read when nothing is asked for. -/
theorem readLoop_zero (fuel : ℕ) (b : RcvBuffer) (out : Bytes) : readLoop fuel b 0 out = some (b, out) := by
  cases fuel <;> simp [readLoop]

/-- The loop reads the next bytes, as many as there are, and dereferences no NULL packet. -/
theorem readLoop_spec {fuel : ℕ} (hb : b.Layout o f T h r) (hfuel : r - h ≤ fuel) (rs : ℕ) (out : Bytes) :
    ∃ b' h', readLoop fuel b rs out = some (b', out ++ (b.pending f h r).take rs) ∧ b'.size = b.size ∧
      h ≤ h' ∧ b'.Layout o f (T.filter (h' ≤ ·)) h' r ∧ b'.pending f h' r = (b.pending f h r).drop rs := by
  induction fuel generalizing b h rs out T with
  | zero =>
    have hend : ¬ (h < r ∧ rs > 0) := by omega
    obtain ⟨hlayout, hpending, hnone⟩ := hb.read_done hend
    rw [readLoop, if_neg (by rw [hb.start_ne_ack]; exact hend), hnone, List.append_nil]
    exact ⟨b, h, rfl, rfl, le_rfl, hlayout, hpending⟩
  | succ fuel ih =>
    by_cases hgo : h < r ∧ rs > 0
    · have hunit : b.unit b.startPos = some (f h) := by
        rw [hb.start_eq]
        exact hb.held h (hb.acked h le_rfl hgo.1)
      rw [readLoop, if_pos (by rw [hb.start_ne_ack]; exact hgo), hunit]
      dsimp only
      by_cases hrs : rs < (f h).length - b.notch
      · obtain ⟨hlayout, hsize, hpending, hout⟩ := hb.readUnit_within hgo.1 hrs out
        obtain ⟨hfilter, -, -⟩ := hlayout.read_done (show ¬(h < r ∧ 0 > 0) by simp)
        rw [hout]
        exact ⟨_, h, readLoop_zero _ _ _, hsize, le_rfl, hfilter, hpending⟩
      · obtain ⟨hlayout, hsize, hpending, hout⟩ := hb.readUnit_whole hgo.1 (not_lt.mp hrs) out
        obtain ⟨b', h', hloop, hsize', hle, hlayout', hpending'⟩ := ih hlayout (by omega)
          (rs - ((f h).length - b.notch)) (out ++ (b.pending f h r).take ((f h).length - b.notch))
        have hfilter : (T.erase h).filter (h' ≤ ·) = T.filter (h' ≤ ·) := by
          ext n
          simp only [Finset.mem_filter, Finset.mem_erase]
          exact ⟨fun hn => ⟨hn.1.2, hn.2⟩, fun hn => ⟨⟨by omega, hn.1⟩, hn.2⟩⟩
        rw [hfilter] at hlayout'
        refine ⟨b', h', ?_, hsize'.trans hsize, by omega, hlayout', ?_⟩
        · rw [hout, hloop, hpending, List.append_assoc, ← List.take_add,
            Nat.add_sub_cancel' (not_lt.mp hrs)]
        · rw [hpending', hpending, List.drop_drop, Nat.add_sub_cancel' (not_lt.mp hrs)]
    · obtain ⟨hlayout, hpending, hnone⟩ := hb.read_done hgo
      rw [readLoop, if_neg (by rw [hb.start_ne_ack]; exact hgo), hnone, List.append_nil]
      exact ⟨b, h, rfl, rfl, le_rfl, hlayout, hpending⟩

/-- `readBuffer` reads the next acknowledged bytes, as many as there are. -/
theorem Layout.readBuffer (hb : b.Layout o f T h r) (len : ℕ) :
    ∃ b' h', b.readBuffer len = some (b', (b.pending f h r).take len) ∧ b'.size = b.size ∧ h ≤ h' ∧
      b'.Layout o f (T.filter (h' ≤ ·)) h' r ∧ b'.pending f h' r = (b.pending f h r).drop len := by
  have hack := hb.ack_lt
  exact readLoop_spec hb (by omega) len []

end RcvBuffer

end Udtfs

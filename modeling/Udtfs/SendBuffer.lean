import Udtfs.Lib.RingPosition
import Udtfs.Lib.Run
import Udtfs.SegmentTransfer

/-!
# The accounting of the send buffer

`CSndBuffer` keeps its packets on a ring from `m_pFirstBlock` to `m_pLastBlock` and their number in
`m_iCount`. `addBufferFromFile` counts the packets that it plans, but moves `m_pLastBlock` past those
that it fills. The two differ when the file ends before the last packet begins, and the difference is
never given back.
-/

namespace Udtfs

open RingPosition Transition

/-! ## The buffer -/

/-- `CSndBuffer`. The blocks of the ring are numbered from `m_pBlock` on. -/
structure SndBuffer where
  /-- `m_iSize`: the number of blocks. -/
  size : ℕ
  firstBlock : ℕ
  currBlock : ℕ
  lastBlock : ℕ
  /-- `m_iCount`. -/
  count : ℤ
  deriving DecidableEq

/-- The size of the first physical buffer, by which the ring grows. -/
def unitsize : ℕ := 32

/-- The buffer of a new connection. -/
def SndBuffer.init : SndBuffer := ⟨unitsize, 0, 0, 0, 0⟩

/-- `getCurrBufSize`. -/
def SndBuffer.getCurrBufSize (b : SndBuffer) : ℤ := b.count

/-- `increase`: new blocks behind the last one. -/
def SndBuffer.increase (b : SndBuffer) : SndBuffer :=
  { b with
    size := b.size + unitsize
    firstBlock := inserted unitsize b.lastBlock b.firstBlock
    currBlock := inserted unitsize b.lastBlock b.currBlock }

/-- `while (size + m_iCount >= m_iSize) increase();`. -/
def SndBuffer.reserve (b : SndBuffer) (planned : ℕ) : SndBuffer :=
  if (b.size : ℤ) ≤ planned + b.count then b.increase.reserve planned else b
termination_by (planned + b.count + 1 - b.size).toNat
decreasing_by
  have hunit : unitsize = 32 := rfl
  simp only [SndBuffer.increase]
  omega

/-- The number of packets that `addBufferFromFile` fills. -/
def filledBlocks (mss : ℕ) (file : CFile) (len : ℕ) : ℕ :=
  (addBufferFromFile fileSource mss len file).1.length

/-- `addBufferFromFile`. -/
def SndBuffer.addBufferFromFile (mss : ℕ) (b : SndBuffer) (file : CFile) (len : ℕ) : SndBuffer :=
  let planned := plannedBlocks mss len
  let b := b.reserve planned
  { b with
    lastBlock := (next b.size)^[filledBlocks mss file len] b.lastBlock
    count := b.count + planned }

/-- `readData`: nothing when there is no data to read. -/
def SndBuffer.readData (b : SndBuffer) : SndBuffer :=
  if b.currBlock = b.lastBlock then b else { b with currBlock := next b.size b.currBlock }

/-- `ackData`. -/
def SndBuffer.ackData (b : SndBuffer) (offset : ℕ) : SndBuffer :=
  { b with firstBlock := (next b.size)^[offset] b.firstBlock, count := b.count - offset }

/-- The blocks from the first to the last along the ring. -/
def SndBuffer.blocks (b : SndBuffer) : ℕ := steps b.size b.firstBlock b.lastBlock

/-- Every queued block has been read and acknowledged. -/
def SndBuffer.Drained (b : SndBuffer) : Prop :=
  b.currBlock = b.lastBlock ∧ b.firstBlock = b.lastBlock

/-! ## Runs -/

/-- The calls that change the buffer. -/
inductive BufferEvent
  | add (file : CFile) (len : ℕ)
  | readData
  | ackData (offset : ℕ)
  deriving DecidableEq

/-- One call. Only blocks that have been read are acknowledged. -/
def SndBuffer.Step (mss : ℕ) (b : SndBuffer) : BufferEvent → SndBuffer → Prop
  | .add file len, b' => b' = b.addBufferFromFile mss file len
  | .readData, b' => b' = b.readData
  | .ackData offset, b' =>
    offset ≤ steps b.size b.firstBlock b.currBlock ∧ b' = b.ackData offset

/-- Calls of the sending and the acknowledging side; they go on while `sendfile` waits. -/
def BufferEvent.drains : BufferEvent → Bool
  | .add _ _ => false
  | .readData | .ackData _ => true

/-- The wait of `sendfile` for `m_iSndBufSize > getCurrBufSize()` never ends. -/
def SndBuffer.WaitsForever (mss : ℕ) (sndBufSize : ℤ) (b : SndBuffer) : Prop :=
  ∀ events t, Run (Guarded (fun _ e => e.drains = true) (SndBuffer.Step mss)) b events t →
    sndBufSize ≤ t.getCurrBufSize

/-- The count is the number of queued blocks, so that a drained buffer is empty and no wait for room
lasts forever. -/
structure SndBuffer.Accounted (mss : ℕ) (b : SndBuffer) : Prop where
  count_eq : b.getCurrBufSize = b.blocks
  drained : b.Drained → b.getCurrBufSize = 0
  wakes : ∀ sndBufSize, 0 < sndBufSize → ¬ b.WaitsForever mss sndBufSize

/-- The file reaches into every packet that is planned for it. -/
def BufferEvent.Complete (mss : ℕ) : BufferEvent → Prop
  | .add file len =>
    plannedBlocks mss len = 0 ∨
      (file.eof = false ∧ file.error = false) ∧
        (plannedBlocks mss len - 1) * mss < file.rest.length
  | .readData | .ackData _ => True

instance (mss : ℕ) : DecidablePred (BufferEvent.Complete mss)
  | .add file len => inferInstanceAs (Decidable (plannedBlocks mss len = 0 ∨
      (file.eof = false ∧ file.error = false) ∧
        (plannedBlocks mss len - 1) * mss < file.rest.length))
  | .readData | .ackData _ => inferInstanceAs (Decidable True)

/-! ## Planned and filled packets -/

section
variable (mss : ℕ)

/-- There are as many sizes as planned packets. -/
theorem packetSizes_length (len : ℕ) : (packetSizes mss len).length = plannedBlocks mss len := by
  rw [packetSizes, List.length_map, List.length_range]

/-- No more packets are filled than are planned. -/
theorem filled_le_planned (file : CFile) (len : ℕ) :
    filledBlocks mss file len ≤ plannedBlocks mss len := by
  rw [filledBlocks, addBufferFromFile, ← packetSizes_length]
  exact fileSource.readChunks_length_le (packetSizes mss len) file

variable {mss} (hmss : 0 < mss)

include hmss

/-- The bytes end in the last packet that is planned. -/
theorem plannedBlocks_pred {len : ℕ} (h : plannedBlocks mss len ≠ 0) :
    (plannedBlocks mss len - 1) * mss < len ∧ len ≤ (plannedBlocks mss len - 1) * mss + mss := by
  have hsplit := Nat.div_add_mod' len mss
  have hmod := Nat.mod_lt len hmss
  unfold plannedBlocks at h ⊢
  split
  · next hrest =>
    rw [Nat.add_sub_cancel]
    omega
  · next hwhole =>
    rw [if_neg hwhole] at h
    obtain ⟨k, hk⟩ := Nat.exists_eq_succ_of_ne_zero h
    rw [Nat.add_zero] at hk ⊢
    rw [hk, Nat.succ_mul] at hsplit
    rw [hk, Nat.succ_sub_one]
    omega

/-- Before the last packet all packets are full. -/
theorem packetSizes_dropLast_sum (len : ℕ) :
    (packetSizes mss len).dropLast.sum = (plannedBlocks mss len - 1) * mss := by
  by_cases hnone : plannedBlocks mss len = 0
  · rw [packetSizes, hnone]
    simp
  · have hpred := (plannedBlocks_pred hmss hnone).1
    obtain ⟨k, hk⟩ := Nat.exists_eq_succ_of_ne_zero hnone
    rw [hk, Nat.succ_sub_one] at hpred ⊢
    have hfull : ∀ i ∈ List.range k, min (len - i * mss) mss = mss := by
      intro i hi
      have hle : (i + 1) * mss ≤ k * mss := Nat.mul_le_mul_right mss (List.mem_range.mp hi)
      rw [Nat.succ_mul] at hle
      omega
    rw [packetSizes, hk, List.range_succ, List.map_append, List.map_singleton, List.dropLast_concat,
      List.map_congr_left hfull, List.map_const', List.length_range, List.sum_replicate]
    rfl

/-- The planned packets are all filled exactly if the file reaches into each of them. -/
theorem filled_eq_planned_iff (file : CFile) (len : ℕ) :
    filledBlocks mss file len = plannedBlocks mss len ↔ (BufferEvent.add file len).Complete mss := by
  have hread : (fileSource.read file len).1.length = min len file.rest.length := fread_length file len
  have hstopped : fileSource.stopped file = false ↔ file.eof = false ∧ file.error = false :=
    Bool.or_eq_false_iff
  rw [filledBlocks, addBufferFromFile, ← packetSizes_length,
    fileSource.readChunks_length_iff (packetSizes_pos hmss len), packetSizes_sum hmss,
    packetSizes_dropLast_sum hmss, ← List.length_eq_zero_iff, packetSizes_length, hread, hstopped,
    BufferEvent.Complete]
  by_cases hnone : plannedBlocks mss len = 0
  · exact iff_of_true (Or.inl hnone) (Or.inl hnone)
  · have hpred := (plannedBlocks_pred hmss hnone).1
    rw [or_iff_right hnone, or_iff_right hnone, lt_min_iff, and_iff_right hpred]

end

/-! ## The blocks of a request -/

section
variable {mss : ℕ} (hmss : 0 < mss)

include hmss

/-- The calls of `addBufferFromFile` that the block loop of `sendfile` makes. -/
def sendfileAdds (hmss : 0 < mss) (tosend : ℕ) (f : CFile) : List (CFile × ℕ) :=
  if _htosend : tosend = 0 then [] else
  if _h : fileSource.stopped f then [] else
    let added := addBufferFromFile fileSource mss (min tosend sendfileBlock) f
    (f, min tosend sendfileBlock) :: sendfileAdds hmss (tosend - added.1.flatten.length) added.2
termination_by 2 * tosend + (if fileSource.stopped f then 0 else 1)
decreasing_by exact addBufferFromFile_progress fileSource hmss sendfileBlock_pos _htosend _h

/-- The packets that `sendfile` queues are those of these calls. -/
theorem sendfileBlocks_adds (tosend : ℕ) (f : CFile) :
    (sendfileBlocks fileSource hmss sendfileBlock_pos tosend f).1 =
      (sendfileAdds hmss tosend f).flatMap fun add =>
        (addBufferFromFile fileSource mss add.2 add.1).1 := by
  fun_induction sendfileAdds hmss tosend f with
  | case1 f =>
    rw [sendfileBlocks]
    rfl
  | case2 tosend f htosend hstopped =>
    rw [sendfileBlocks_stopped fileSource hmss sendfileBlock_pos tosend hstopped]
    rfl
  | case3 tosend f htosend hgoes added ih =>
    rw [sendfileBlocks, dif_neg htosend, dif_neg hgoes, List.flatMap_cons, ← ih]

/-- A request inside the file reaches into each of its packets. -/
theorem sendfileAdds_complete (tosend : ℕ) (f : CFile) (hinside : tosend ≤ f.rest.length) :
    ∀ add ∈ sendfileAdds hmss tosend f, (BufferEvent.add add.1 add.2).Complete mss := by
  fun_induction sendfileAdds hmss tosend f with
  | case1 f => simp
  | case2 tosend f htosend hstopped => simp
  | case3 tosend f htosend hgoes added ih =>
    have hopen : f.eof = false ∧ f.error = false :=
      Bool.or_eq_false_iff.mp (eq_false_of_ne_true hgoes)
    have hread := addBufferFromFile_eq_read fileSource hmss (min tosend sendfileBlock)
      (eq_false_of_ne_true hgoes)
    have hbytes : added.1.flatten = (f.fread (min tosend sendfileBlock)).1 := congrArg Prod.fst hread
    have hafter : added.2 = (f.fread (min tosend sendfileBlock)).2 := congrArg Prod.snd hread
    have hlong : ¬ f.rest.length < min tosend sendfileBlock := by omega
    rw [List.forall_mem_cons]
    constructor
    · refine or_iff_not_imp_left.mpr fun hsome => ⟨hopen, ?_⟩
      have hpred := (plannedBlocks_pred hmss hsome).1
      dsimp only at hpred ⊢
      omega
    · apply ih
      rw [hbytes, hafter, CFile.fread, if_neg hlong]
      dsimp only
      rw [List.length_take, List.length_drop]
      omega

/-- A request at or behind the end of the file reaches into none of them. -/
theorem add_behind_end {f : CFile} (hend : f.rest = []) {len : ℕ} (hlen : 0 < len) :
    ¬ (BufferEvent.add f len).Complete mss := by
  rintro (hnone | ⟨-, hreaches⟩)
  · rw [plannedBlocks_of_pos hmss hlen] at hnone
    omega
  · rw [hend, List.length_nil] at hreaches
    omega

end

/-! ## The ring -/

/-- Of the `queued` blocks behind the first, `read` have been read, and the ring has room for all
that are counted. -/
structure SndBuffer.Layout (b : SndBuffer) (read queued : ℕ) : Prop where
  first_lt : b.firstBlock < b.size
  curr : b.currBlock = ahead b.size b.firstBlock read
  last : b.lastBlock = ahead b.size b.firstBlock queued
  read_le : read ≤ queued
  queued_le : (queued : ℤ) ≤ b.count
  count_lt : b.count < b.size

namespace SndBuffer.Layout

variable {b : SndBuffer} {read queued : ℕ}

/-- The new buffer holds nothing. -/
theorem init : SndBuffer.init.Layout 0 0 := ⟨by decide, by decide, by decide, le_rfl, by decide, by decide⟩

/-- The ring always has a free block. -/
theorem queued_lt (h : b.Layout read queued) : queued < b.size := by
  have hqueued := h.queued_le
  have hcount := h.count_lt
  omega

/-- The blocks along the ring are those that are queued. -/
theorem blocks_eq (h : b.Layout read queued) : b.blocks = queued := by
  rw [SndBuffer.blocks, h.last, steps_ahead h.queued_lt]

/-- The blocks that may be acknowledged are those that have been read. -/
theorem steps_curr (h : b.Layout read queued) : steps b.size b.firstBlock b.currBlock = read := by
  rw [h.curr, steps_ahead (h.read_le.trans_lt h.queued_lt)]

/-- All has been read when the read pointer has reached the last block. -/
theorem currBlock_eq_iff (h : b.Layout read queued) :
    b.currBlock = b.lastBlock ↔ read = queued := by
  rw [h.curr, h.last, ahead_eq_iff (h.read_le.trans_lt h.queued_lt) h.queued_lt]

/-- A buffer is drained exactly if nothing is queued. -/
theorem drained_iff (h : b.Layout read queued) : b.Drained ↔ queued = 0 := by
  have hsize : 0 < b.size := Nat.zero_lt_of_lt h.first_lt
  have hfirst : b.firstBlock = b.lastBlock ↔ queued = 0 := by
    conv_lhs => rw [← ahead_zero h.first_lt, h.last]
    rw [ahead_eq_iff hsize h.queued_lt, eq_comm]
  have hread := h.read_le
  rw [SndBuffer.Drained, h.currBlock_eq_iff, hfirst]
  omega

/-- New blocks come behind the last one, so none of the distances changes. -/
theorem increase (h : b.Layout read queued) : b.increase.Layout read queued where
  first_lt := inserted_lt unitsize b.lastBlock h.first_lt
  curr := by
    have hcurr := inserted_ahead unitsize h.queued_lt h.read_le (i := b.firstBlock)
    rw [← h.last, ← h.curr] at hcurr
    exact hcurr
  last := by
    have hlast := inserted_ahead unitsize h.queued_lt le_rfl (i := b.firstBlock)
    rw [← h.last, inserted_self] at hlast
    exact hlast
  read_le := h.read_le
  queued_le := h.queued_le
  count_lt := by
    have hcount := h.count_lt
    simp only [SndBuffer.increase]
    omega

/-- The ring grows until the planned blocks fit. -/
theorem reserve (planned : ℕ) (h : b.Layout read queued) :
    (b.reserve planned).Layout read queued ∧ (b.reserve planned).count = b.count ∧
      planned + b.count < (b.reserve planned).size := by
  fun_induction SndBuffer.reserve b planned with
  | case1 b hfull ih => exact ih h.increase
  | case2 b hfits => exact ⟨h, rfl, by omega⟩

/-- Adding to the buffer queues what is filled and counts what is planned. -/
theorem add (mss : ℕ) (h : b.Layout read queued) (file : CFile) (len : ℕ) :
    (b.addBufferFromFile mss file len).Layout read
        (queued + filledBlocks mss file len) ∧
      (b.addBufferFromFile mss file len).count = b.count + plannedBlocks mss len := by
  obtain ⟨hlayout, hcount, hroom⟩ := h.reserve (plannedBlocks mss len)
  have hfilled := filled_le_planned mss file len
  have hqueued := hlayout.queued_le
  refine ⟨⟨hlayout.first_lt, hlayout.curr, ?_, ?_, ?_, ?_⟩, by rw [← hcount]; rfl⟩
  · simp only [SndBuffer.addBufferFromFile]
    rw [hlayout.last, iterate_next (ahead_lt hlayout.first_lt hlayout.queued_lt) (by omega),
      ahead_ahead hlayout.first_lt (by omega)]
  · exact h.read_le.trans (Nat.le_add_right _ _)
  · simp only [SndBuffer.addBufferFromFile]
    omega
  · simp only [SndBuffer.addBufferFromFile]
    omega

/-- Reading goes one block on, if there is one. -/
theorem readData (h : b.Layout read queued) :
    b.readData.Layout (if read = queued then read else read + 1) queued ∧
      b.readData.count = b.count := by
  have hread := h.read_le
  have hlt := h.queued_lt
  rw [SndBuffer.readData]
  by_cases hall : read = queued
  · rw [if_pos (h.currBlock_eq_iff.mpr hall), if_pos hall]
    exact ⟨h, rfl⟩
  · rw [if_neg fun hcurr => hall (h.currBlock_eq_iff.mp hcurr), if_neg hall]
    refine ⟨⟨h.first_lt, ?_, h.last, by omega, h.queued_le, h.count_lt⟩, rfl⟩
    dsimp only
    rw [h.curr, next_eq_ahead (ahead_lt h.first_lt (by omega)), ahead_ahead h.first_lt (by omega)]

/-- Acknowledged blocks leave the buffer and the count. -/
theorem ackData (h : b.Layout read queued) {offset : ℕ} (hoffset : offset ≤ read) :
    (b.ackData offset).Layout (read - offset) (queued - offset) ∧
      (b.ackData offset).count = b.count - offset := by
  have hread := h.read_le
  have hlt := h.queued_lt
  have hqueued := h.queued_le
  have hcount := h.count_lt
  have hfirst : (b.ackData offset).firstBlock = ahead b.size b.firstBlock offset :=
    iterate_next h.first_lt (by omega)
  have hahead {k : ℕ} (hk : offset ≤ k) (hk' : k < b.size) :
      ahead b.size b.firstBlock k = ahead b.size (b.ackData offset).firstBlock (k - offset) := by
    rw [hfirst, ahead_ahead h.first_lt (by omega), Nat.add_sub_cancel' hk]
  refine ⟨⟨?_, ?_, ?_, by omega, ?_, ?_⟩, rfl⟩
  · rw [hfirst]
    exact ahead_lt h.first_lt (by omega)
  · exact h.curr.trans (hahead hoffset (by omega))
  · exact h.last.trans (hahead (by omega) hlt)
  · simp only [SndBuffer.ackData]
    omega
  · simp only [SndBuffer.ackData]
    omega

end SndBuffer.Layout

/-! ## Draining -/

section
variable (mss : ℕ) {b : SndBuffer} {read queued : ℕ}

/-- The blocks that are queued can be read one after the other. -/
theorem SndBuffer.Layout.reads (h : b.Layout read queued) (k : ℕ) (hk : read + k ≤ queued) :
    ∃ events t, Run (Guarded (fun _ e => e.drains = true) (SndBuffer.Step mss)) b events t ∧
      t.Layout (read + k) queued ∧ t.count = b.count := by
  induction k with
  | zero => exact ⟨[], b, Run.nil b, h, rfl⟩
  | succ k ih =>
    obtain ⟨events, t, hrun, hlayout, hcount⟩ := ih (by omega)
    obtain ⟨hnext, hsame⟩ := hlayout.readData
    rw [if_neg (show ¬ read + k = queued by omega)] at hnext
    have hstep : t.Step mss .readData t.readData := rfl
    exact ⟨events ++ [.readData], t.readData, hrun.snoc ⟨rfl, hstep⟩, hnext, hsame.trans hcount⟩

/-- Reading and acknowledging all queued blocks takes them, and only them, off the count. -/
theorem SndBuffer.Layout.drain (h : b.Layout read queued) :
    ∃ events t, Run (Guarded (fun _ e => e.drains = true) (SndBuffer.Step mss)) b events t ∧
      t.Layout 0 0 ∧ t.count = b.count - queued := by
  have hread := Nat.add_sub_cancel' h.read_le
  obtain ⟨events, t, hrun, hlayout, hcount⟩ := h.reads mss (queued - read) hread.le
  rw [hread] at hlayout
  obtain ⟨hempty, hless⟩ := hlayout.ackData le_rfl
  rw [Nat.sub_self] at hempty
  have hstep : t.Step mss (.ackData queued) (t.ackData queued) := ⟨hlayout.steps_curr.ge, rfl⟩
  exact ⟨events ++ [.ackData queued], t.ackData queued, hrun.snoc ⟨rfl, hstep⟩, hempty,
    by rw [hless, hcount]⟩

/-- Nothing changes a drained buffer until something is added to it. -/
theorem SndBuffer.Layout.drained_step (h : b.Layout 0 0) {e : BufferEvent} {t : SndBuffer}
    (hdrains : e.drains = true) (hstep : b.Step mss e t) : t = b := by
  cases e with
  | add file len => contradiction
  | readData =>
    obtain rfl : t = b.readData := hstep
    exact if_pos (h.currBlock_eq_iff.mpr rfl)
  | ackData offset =>
    obtain ⟨hoffset, rfl⟩ := hstep
    rw [h.steps_curr] at hoffset
    obtain rfl := Nat.le_zero.mp hoffset
    rw [SndBuffer.ackData, Function.iterate_zero_apply, Nat.cast_zero, sub_zero]

/-- On a drained buffer whose count is too high `sendfile` waits forever. -/
theorem SndBuffer.Layout.waitsForever (h : b.Layout 0 0) {sndBufSize : ℤ}
    (hfull : sndBufSize ≤ b.count) : b.WaitsForever mss sndBufSize := by
  intro events t hrun
  have hsame : t = b := by
    refine hrun.invariant (P := fun t => t = b) (fun s e u hs hstep => ?_) rfl
    subst hs
    exact h.drained_step mss hstep.1 hstep.2
  rwa [hsame]

end

/-- The count is the number of queued blocks. -/
def SndBuffer.Exact (b : SndBuffer) : Prop :=
  ∃ read queued : ℕ, b.Layout read queued ∧ b.count = queued

/-- The count of a new buffer is exact. -/
theorem SndBuffer.exact_init : SndBuffer.init.Exact := ⟨0, 0, SndBuffer.Layout.init, rfl⟩

/-- A buffer that counts what is queued is accounted for. -/
theorem SndBuffer.Exact.accounted {b : SndBuffer} (h : b.Exact) (mss : ℕ) : b.Accounted mss := by
  obtain ⟨read, queued, hlayout, hcount⟩ := h
  refine ⟨?_, fun hdrained => ?_, fun sndBufSize hpos hwaits => ?_⟩
  · rw [SndBuffer.getCurrBufSize, hcount, hlayout.blocks_eq]
  · rw [SndBuffer.getCurrBufSize, hcount, hlayout.drained_iff.mp hdrained, Nat.cast_zero]
  · obtain ⟨events, t, hrun, -, hleft⟩ := hlayout.drain mss
    have hfull : sndBufSize ≤ t.count := hwaits events t hrun
    omega

/-! ## Accounting over runs -/

section
variable {mss : ℕ} (hmss : 0 < mss)

include hmss

/-- A call that fills what it plans keeps the count exact. -/
theorem SndBuffer.Step.exact {b u : SndBuffer} {e : BufferEvent} (h : b.Step mss e u)
    (hexact : b.Exact) (hcomplete : e.Complete mss) : u.Exact := by
  obtain ⟨read, queued, hlayout, hcount⟩ := hexact
  cases e with
  | add file len =>
    obtain rfl : u = b.addBufferFromFile mss file len := h
    obtain ⟨hlayout', hcount'⟩ := hlayout.add mss file len
    have hfilled := (filled_eq_planned_iff hmss file len).mpr hcomplete
    exact ⟨read, _, hlayout', by rw [hcount', hcount, hfilled, Nat.cast_add]⟩
  | readData =>
    obtain rfl : u = b.readData := h
    obtain ⟨hlayout', hcount'⟩ := hlayout.readData
    exact ⟨_, queued, hlayout', hcount'.trans hcount⟩
  | ackData offset =>
    obtain ⟨hoffset, rfl⟩ := h
    rw [hlayout.steps_curr] at hoffset
    obtain ⟨hlayout', hcount'⟩ := hlayout.ackData hoffset
    have hread := hlayout.read_le
    exact ⟨_, _, hlayout', by rw [hcount', hcount, Nat.cast_sub (hoffset.trans hread)]⟩

/-- A call that does not makes the count wrong at once. -/
theorem SndBuffer.Step.complete {b u : SndBuffer} {e : BufferEvent} (h : b.Step mss e u)
    (hexact : b.Exact) (haccounted : u.Accounted mss) : e.Complete mss := by
  obtain ⟨read, queued, hlayout, hcount⟩ := hexact
  cases e with
  | add file len =>
    obtain rfl : u = b.addBufferFromFile mss file len := h
    obtain ⟨hlayout', hcount'⟩ := hlayout.add mss file len
    have heq := haccounted.count_eq
    rw [SndBuffer.getCurrBufSize, hlayout'.blocks_eq, hcount', hcount] at heq
    exact (filled_eq_planned_iff hmss file len).mp (by omega)
  | readData | ackData offset => trivial

/-- **Accounting.** In the states of a run the count is the number of queued blocks, a drained buffer
is empty and no wait for room lasts forever exactly if every file that was added reached into each of
the packets planned for it. -/
theorem accounted_run_iff (events : List BufferEvent) :
    (∀ before t, before <+: events → Run (SndBuffer.Step mss) SndBuffer.init before t →
        t.Accounted mss) ↔
      ∀ before e t u, before ++ [e] <+: events → Run (SndBuffer.Step mss) SndBuffer.init before t →
        t.Step mss e u → e.Complete mss := by
  apply forall_visited_iff_forall_taken SndBuffer.Exact
  · exact SndBuffer.exact_init
  · exact fun b hexact => hexact.accounted mss
  · exact fun b e u hexact hstep hcomplete => hstep.exact hmss hexact hcomplete
  · exact fun b e u hexact hstep haccounted => hstep.complete hmss hexact haccounted

omit hmss in
/-- A file of eight bytes, queued as two packets of four bytes of which one has been read, is accounted
for. -/
theorem accounted_run_eight :
    (SndBuffer.init.addBufferFromFile 4 (CFile.opened (ascii "12345678") 0) 8).readData.Accounted
      4 := by
  have hadd : SndBuffer.init.Step 4 (.add (CFile.opened (ascii "12345678") 0) 8)
      (SndBuffer.init.addBufferFromFile 4 (CFile.opened (ascii "12345678") 0) 8) := rfl
  have hread : (SndBuffer.init.addBufferFromFile 4 (CFile.opened (ascii "12345678") 0) 8).Step 4
      .readData (SndBuffer.init.addBufferFromFile 4 (CFile.opened (ascii "12345678") 0) 8).readData :=
    rfl
  have hcomplete : ∀ e ∈ [.add (CFile.opened (ascii "12345678") 0) 8, .readData],
      BufferEvent.Complete 4 e := by decide
  exact (accounted_run_iff (by decide) _).mpr
    (fun before e t u hpre _ _ => hcomplete e
      (hpre.subset (List.mem_append_right before (List.mem_singleton_self e))))
    _ _ List.prefix_rfl (((Run.nil SndBuffer.init).snoc hadd).snoc hread)

/-- **Short reads hang the server.** Any read that ends before its last packet, repeated often enough,
makes `sendfile` wait forever on a buffer in which nothing is left to send. -/
theorem short_reads_wait {file : CFile} {len : ℕ}
    (hshort : ¬ (BufferEvent.add file len).Complete mss) (sndBufSize : ℕ) :
    ∃ events t,
      Run (Guarded (fun _ e => e = .add file len ∨ e.drains = true) (SndBuffer.Step mss))
        SndBuffer.init events t ∧ t.Drained ∧ t.WaitsForever mss sndBufSize := by
  suffices hdrift : ∃ events t,
      Run (Guarded (fun _ e => e = .add file len ∨ e.drains = true) (SndBuffer.Step mss))
        SndBuffer.init events t ∧ t.Layout 0 0 ∧ (sndBufSize : ℤ) ≤ t.count by
    obtain ⟨events, t, hrun, hlayout, hfull⟩ := hdrift
    exact ⟨events, t, hrun, hlayout.drained_iff.mpr rfl, hlayout.waitsForever mss hfull⟩
  induction sndBufSize with
  | zero => exact ⟨[], SndBuffer.init, Run.nil _, SndBuffer.Layout.init, le_rfl⟩
  | succ n ih =>
    obtain ⟨events, t, hrun, hlayout, hfull⟩ := ih
    obtain ⟨hadded, hcount⟩ := hlayout.add mss file len
    obtain ⟨later, u, hlater, hempty, hleft⟩ := hadded.drain mss
    have hle := filled_le_planned mss file len
    have hne : filledBlocks mss file len ≠ plannedBlocks mss len := fun h =>
      hshort ((filled_eq_planned_iff hmss file len).mp h)
    have hstep : t.Step mss (.add file len) (t.addBufferFromFile mss file len) := rfl
    exact ⟨_, u, (hrun.snoc ⟨Or.inl rfl, hstep⟩).append
      (hlater.mono fun s e v h => ⟨Or.inr h.1, h.2⟩), hempty, by omega⟩

end

/-- Ten bytes asked of a file that has five, in packets of four bytes: three packets are counted and
two are queued. -/
theorem short_read_uncounted :
    ¬ ∀ events t, Run (SndBuffer.Step 4) SndBuffer.init events t → t.Accounted 4 := by
  intro h
  have hstep : SndBuffer.init.Step 4 (.add (CFile.opened (ascii "hello") 0) 10)
      (SndBuffer.init.addBufferFromFile 4 (CFile.opened (ascii "hello") 0) 10) := rfl
  have hcount := (h _ _ ((Run.nil SndBuffer.init).snoc hstep)).count_eq
  obtain ⟨hlayout, hadded⟩ :=
    SndBuffer.Layout.init.add 4 (CFile.opened (ascii "hello") 0) 10
  have hfilled : filledBlocks 4 (CFile.opened (ascii "hello") 0) 10 = 2 := by decide
  have hplanned : plannedBlocks 4 10 = 3 := by decide
  rw [SndBuffer.getCurrBufSize, hlayout.blocks_eq, hadded, hfilled, hplanned] at hcount
  contradiction

end Udtfs

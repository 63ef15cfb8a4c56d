import Udtfs.Lib.Calls
import Udtfs.Lib.LinkedSlots
import Udtfs.SendBuffer

/-!
# The data in the send buffer

`CSndBuffer` of `buffer.cpp` with the data of its blocks: a circular list in which the blocks from
`m_pFirstBlock` to before `m_pLastBlock` hold packets, those before `m_pCurrBlock` have been read once,
and the rest is free. The list grows behind the last block. Blocks are numbered as they are allocated.
-/

namespace Udtfs

open LinkedSlots Content

/-- `CSndBuffer` with the payload of its blocks. -/
structure SndBlocks where
  /-- `m_pNext` of a block. -/
  next : ℕ → ℕ
  /-- The first `m_iLength` bytes at `m_pcData`. -/
  data : ℕ → Bytes
  /-- `m_iSize`: the number of blocks. -/
  size : ℕ
  firstBlock : ℕ
  currBlock : ℕ
  lastBlock : ℕ
  /-- `m_iCount`. -/
  count : ℤ

namespace SndBlocks

/-- The constructor. -/
def init : SndBlocks :=
  ⟨fun i => if i + 1 = unitsize then 0 else i + 1, fun _ => [], unitsize, 0, 0, 0, 0⟩

/-- `increase`. -/
def increase (b : SndBlocks) : SndBlocks :=
  { b with
    next := fun i =>
      if i = b.lastBlock then b.size
      else if i < b.size then b.next i
      else if i + 1 = b.size + unitsize then b.next b.lastBlock
      else i + 1
    size := b.size + unitsize }

/-- `while (size + m_iCount >= m_iSize) increase();`. -/
def reserve (b : SndBlocks) (planned : ℕ) : SndBlocks :=
  if (b.size : ℤ) ≤ planned + b.count then b.increase.reserve planned else b
termination_by (planned + b.count + 1 - b.size).toNat
decreasing_by
  have hunit : unitsize = 32 := rfl
  simp only [SndBlocks.increase]
  omega

/-- The loop of the `addBuffer` functions over the packets. -/
def fill (b : SndBlocks) : List Bytes → SndBlocks
  | [] => b
  | packet :: packets =>
    fill { b with data := Function.update b.data b.lastBlock packet, lastBlock := b.next b.lastBlock } packets

/-- So many packets are planned and counted, and these are filled. -/
def addPackets (b : SndBlocks) (planned : ℕ) (packets : List Bytes) : SndBlocks :=
  let b := (b.reserve planned).fill packets
  { b with count := b.count + planned }

/-- The packets that `addBuffer` copies data into. -/
def dataPackets (mss : ℕ) (data : Bytes) : List Bytes :=
  (List.range (plannedBlocks mss data.length)).map fun i => slice data (i * mss) (min (data.length - i * mss) mss)

/-- `addBuffer`. -/
def addBuffer (mss : ℕ) (b : SndBlocks) (data : Bytes) : SndBlocks :=
  b.addPackets (plannedBlocks mss data.length) (dataPackets mss data)

/-- `addBufferFromFile`. -/
def addBufferFromFile (mss : ℕ) (b : SndBlocks) (file : CFile) (len : ℕ) : SndBlocks :=
  b.addPackets (plannedBlocks mss len) (Udtfs.addBufferFromFile fileSource mss len file).1

/-- `readData`: the block that is read. -/
def readData (b : SndBlocks) : Option (ℕ × SndBlocks) :=
  if b.currBlock = b.lastBlock then none else some (b.currBlock, { b with currBlock := b.next b.currBlock })

/-- `readData` at an offset, for a packet without a time to live: the block that is read. -/
def readDataAt (b : SndBlocks) (offset : ℕ) : ℕ := b.next^[offset] b.firstBlock

/-- `ackData`. -/
def ackData (b : SndBlocks) (offset : ℕ) : SndBlocks :=
  { b with firstBlock := b.next^[offset] b.firstBlock, count := b.count - offset }

/-! ## The ring -/

/-- The blocks along the ring: those that have been read, those that have not, the last one, and the
free ones. -/
structure Layout (b : SndBlocks) (sent unsent free : List ℕ) : Prop where
  ring : Links b.next b.firstBlock b.firstBlock (sent ++ unsent ++ b.lastBlock :: free)
  nodup : (sent ++ unsent ++ b.lastBlock :: free).Nodup
  bounds : ∀ i ∈ sent ++ unsent ++ b.lastBlock :: free, i < b.size
  length_eq : (sent ++ unsent ++ b.lastBlock :: free).length = b.size
  curr_eq : ∃ rest, unsent ++ [b.lastBlock] = b.currBlock :: rest

/-- The packets in the buffer, of which some have been read. All of them are counted. -/
structure Holds (b : SndBlocks) (queue : List Bytes) (read : ℕ) : Prop where
  blocks : ∃ sent unsent free, b.Layout sent unsent free ∧ sent.map b.data = queue.take read ∧
    unsent.map b.data = queue.drop read
  read_le : read ≤ queue.length
  count_le : (queue.length : ℤ) ≤ b.count

variable {b : SndBlocks} {sent unsent free : List ℕ} {queue packets : List Bytes} {read offset : ℕ}

/-- Numbers that follow one another are linked in turn. -/
theorem links_range' {next : ℕ → ℕ} {e : ℕ} (n m : ℕ)
    (h : ∀ i, m ≤ i → i < m + (n + 1) → next i = if i + 1 = m + (n + 1) then e else i + 1) :
    Links next e m (List.range' m (n + 1)) := by
  induction n generalizing m with
  | zero => exact ⟨rfl, by rw [h m le_rfl (by omega), if_pos rfl]; rfl⟩
  | succ n ih =>
    rw [List.range'_succ]
    refine ⟨rfl, ?_⟩
    rw [h m le_rfl (by omega), if_neg (by omega)]
    refine ih (m + 1) fun i hmi hin => ?_
    rw [h i (by omega) (by omega)]
    split_ifs <;> omega

/-- The blocks of the new buffer are all free. -/
theorem layout_init : init.Layout [] [] (List.range' 1 31) := by
  refine ⟨?_, ?_, ?_, rfl, ⟨[], rfl⟩⟩
  · have hlinks := @links_range' init.next 0 31 0 fun i _ hi => by
      change (if i + 1 = 32 then 0 else i + 1) = _
      split_ifs <;> omega
    rwa [List.range'_succ] at hlinks
  · exact List.nodup_range' (s := 0) (n := 32)
  · intro i hi
    have hmem : i ∈ List.range' 0 32 := hi
    rw [List.mem_range'_1] at hmem
    change i < 32
    omega

/-- The new buffer holds nothing. -/
theorem holds_init : init.Holds [] 0 := ⟨⟨[], [], _, layout_init, rfl, rfl⟩, le_rfl, le_rfl⟩

/-- The ring grows behind the last block. -/
theorem Layout.increase (h : b.Layout sent unsent free) :
    b.increase.Layout sent unsent (List.range' b.size unitsize ++ free) := by
  have hlast : b.lastBlock < b.size := h.bounds _ (by simp)
  have hnodup := h.nodup
  rw [List.nodup_append, List.nodup_cons] at hnodup
  obtain ⟨-, ⟨hnotfree, -⟩, hcross⟩ := hnodup
  have hold : ∀ i, i < b.size → i ≠ b.lastBlock → b.increase.next i = b.next i := fun i hi hne => by
    change (if _ then _ else _) = _
    rw [if_neg hne, if_pos hi]
  have hperm : (sent ++ unsent ++ b.lastBlock :: (List.range' b.size unitsize ++ free)).Perm
      (List.range' b.size unitsize ++ (sent ++ unsent ++ b.lastBlock :: free)) := by
    have hmoved := List.perm_append_comm_assoc (sent ++ unsent ++ [b.lastBlock])
      (List.range' b.size unitsize) free
    simpa using hmoved
  have hnew : ∀ i ∈ List.range' b.size unitsize, b.size ≤ i ∧ i < b.size + unitsize :=
    fun i hi => List.mem_range'_1.mp hi
  refine ⟨?_, ?_, ?_, ?_, h.curr_eq⟩
  · refine h.ring.splice (r := b.size) ?_ (if_pos rfl) (Links.append (r := b.next b.lastBlock) ?_ ?_)
    · intro s hs
      exact hold s (h.bounds s (List.mem_append_left _ hs)) (hcross s hs _ List.mem_cons_self)
    · refine links_range' 31 b.size fun i hbi hi => ?_
      change (if _ then _ else _) = _
      rw [if_neg (by omega), if_neg (by omega)]
      rfl
    · refine h.ring.tail.congr fun s hs => ?_
      exact hold s (h.bounds s (by simp [hs])) (ne_of_mem_of_not_mem hs hnotfree)
  · refine hperm.nodup_iff.mpr (List.nodup_append.mpr ⟨List.nodup_range', h.nodup, ?_⟩)
    intro i hi j hj
    exact ((h.bounds j hj).trans_le (hnew i hi).1).ne'
  · intro i hi
    change i < b.size + unitsize
    rcases List.mem_append.mp (hperm.mem_iff.mp hi) with hi | hi
    · exact (hnew i hi).2
    · exact Nat.lt_add_right _ (h.bounds i hi)
  · change _ = b.size + unitsize
    rw [show b.increase.lastBlock = b.lastBlock from rfl, hperm.length_eq, List.length_append,
      List.length_range', h.length_eq, Nat.add_comm]

/-- The ring grows until the planned packets fit. -/
theorem Layout.reserve (planned : ℕ) (h : b.Layout sent unsent free) :
    ∃ free', (b.reserve planned).Layout sent unsent free' ∧ (b.reserve planned).data = b.data ∧
      (b.reserve planned).count = b.count ∧ planned + b.count < (b.reserve planned).size := by
  fun_induction SndBlocks.reserve b planned generalizing free with
  | case1 b hfull ih => exact ih h.increase
  | case2 b hfits => exact ⟨free, h, rfl, rfl, by omega⟩

/-- The free block behind the last one is filled. -/
theorem Layout.fillOne {i : ℕ} (packet : Bytes) (h : b.Layout sent unsent (i :: free)) :
    Layout { b with
        data := Function.update b.data b.lastBlock packet
        lastBlock := b.next b.lastBlock } sent (unsent ++ [b.lastBlock]) free := by
  have hnext : b.next b.lastBlock = i := h.ring.tail.head_eq
  have hsame : sent ++ (unsent ++ [b.lastBlock]) ++ i :: free =
      sent ++ unsent ++ b.lastBlock :: i :: free := by simp
  obtain ⟨rest, hrest⟩ := h.curr_eq
  constructor <;> dsimp only <;> rw [hnext]
  · rw [hsame]
    exact h.ring
  · rw [hsame]
    exact h.nodup
  · rw [hsame]
    exact h.bounds
  · rw [hsame]
    exact h.length_eq
  · exact ⟨rest ++ [i], by rw [hrest, List.cons_append]⟩

/-- The blocks behind the last one are filled in turn. -/
theorem Layout.fill (packets : List Bytes) (h : b.Layout sent unsent free)
    (hroom : packets.length ≤ free.length) :
    ∃ added free', (b.fill packets).Layout sent (unsent ++ added) free' ∧
      added.map (b.fill packets).data = packets ∧
      (∀ i ∈ sent ++ unsent, (b.fill packets).data i = b.data i) ∧
      (b.fill packets).count = b.count := by
  induction packets generalizing b unsent free with
  | nil => exact ⟨[], free, by rwa [List.append_nil], rfl, fun _ _ => rfl, rfl⟩
  | cons packet packets ih =>
    cases free with
    | nil => exact absurd hroom (by simp)
    | cons i free =>
      have hnodup := h.nodup
      rw [List.nodup_append] at hnodup
      obtain ⟨added, free', hlayout, hadded, hkept, hcount⟩ :=
        ih (h.fillOne packet) (Nat.le_of_succ_le_succ hroom)
      refine ⟨b.lastBlock :: added, free', ?_, ?_, fun j hj => ?_, hcount⟩
      · rwa [List.append_assoc] at hlayout
      · rw [List.map_cons]
        congr 1
        exact (hkept b.lastBlock (by simp)).trans (Function.update_self _ _ _)
      · rw [← List.append_assoc] at hkept
        refine (hkept j (List.mem_append_left _ hj)).trans (Function.update_of_ne ?_ _ _)
        exact hnodup.2.2 j hj _ List.mem_cons_self

/-- The blocks that hold packets, in turn. -/
theorem Layout.readDataAt (h : b.Layout sent unsent free) (hoffset : offset < (sent ++ unsent).length) :
    b.readDataAt offset = (sent ++ unsent)[offset] := by
  have hring := h.ring
  rw [← List.take_append_drop offset (sent ++ unsent), List.drop_eq_getElem_cons hoffset,
    List.append_assoc, List.cons_append] at hring
  have hlead := hring.split.1.iterate
  rwa [List.length_take_of_le hoffset.le] at hlead

/-- There are as many blocks in use as packets. -/
theorem Holds.length_eq (hsent : sent.map b.data = queue.take read) (hunsent : unsent.map b.data = queue.drop read) :
    (sent ++ unsent).length = queue.length := by
  rw [← List.length_map b.data, List.map_append, hsent, hunsent, List.take_append_drop]

/-- What is added comes behind what is there, which stays in its blocks. -/
theorem Holds.addPackets (h : b.Holds queue read) {planned : ℕ} (packets : List Bytes)
    (hplanned : packets.length ≤ planned) :
    (b.addPackets planned packets).Holds (queue ++ packets) read ∧
      ∀ k < queue.length, (b.addPackets planned packets).readDataAt k = b.readDataAt k := by
  obtain ⟨⟨sent, unsent, free, hbefore, hsent, hunsent⟩, hread, hcount⟩ := h
  obtain ⟨free, hlayout, hdata, hcounted, hroom⟩ := hbefore.reserve planned
  have hused : (sent ++ unsent).length = queue.length := length_eq hsent hunsent
  have hlength := hlayout.length_eq
  rw [List.length_append, hused, List.length_cons] at hlength
  obtain ⟨added, free', hlayout, hadded, hkept, hsame⟩ := hlayout.fill packets (by omega)
  rw [hdata] at hkept
  have hafter : (b.addPackets planned packets).Layout sent (unsent ++ added) free' :=
    ⟨hlayout.ring, hlayout.nodup, hlayout.bounds, hlayout.length_eq, hlayout.curr_eq⟩
  refine ⟨⟨⟨sent, unsent ++ added, free', hafter, ?_, ?_⟩, ?_, ?_⟩, fun k hk => ?_⟩
  · rw [List.take_append_of_le_length hread, ← hsent]
    exact List.map_congr_left fun i hi => hkept i (List.mem_append_left _ hi)
  · rw [List.drop_append_of_le_length hread, ← hunsent, List.map_append]
    refine congrArg₂ _ (List.map_congr_left fun i hi => hkept i (List.mem_append_right _ hi)) hadded
  · rw [List.length_append]
    omega
  · change _ ≤ ((b.reserve planned).fill packets).count + planned
    rw [hsame, hcounted, List.length_append, Nat.cast_add]
    omega
  · rw [← hused] at hk
    have hlong : k < (sent ++ (unsent ++ added)).length := by
      rw [← List.append_assoc, List.length_append]
      omega
    rw [hafter.readDataAt hlong, hbefore.readDataAt hk]
    simp only [← List.append_assoc]
    exact List.getElem_append_left hk

/-- Growing changes no count. -/
theorem reserve_count (b : SndBlocks) (planned : ℕ) : (b.reserve planned).count = b.count := by
  fun_induction SndBlocks.reserve b planned with
  | case1 b hfull ih => exact ih
  | case2 b hfits => rfl

/-- Nor does filling. -/
theorem fill_count (b : SndBlocks) (packets : List Bytes) : (b.fill packets).count = b.count := by
  induction packets generalizing b with
  | nil => rfl
  | cons packet packets ih => exact ih _

/-- All packets that were planned are counted. -/
theorem addPackets_count (b : SndBlocks) (planned : ℕ) (packets : List Bytes) :
    (b.addPackets planned packets).count = b.count + planned := by
  rw [addPackets]
  dsimp only
  rw [fill_count, reserve_count]

/-- The first packet takes a full payload, or all data. -/
theorem dataPackets_of_pos {mss : ℕ} (hmss : 0 < mss) {data : Bytes} (hdata : 0 < data.length) :
    dataPackets mss data = data.take mss :: dataPackets mss (data.drop mss) := by
  rw [dataPackets, plannedBlocks_of_pos hmss hdata, List.range_succ_eq_map, List.map_cons, List.map_map,
    dataPackets, List.length_drop]
  congr 1
  · rw [slice, Nat.zero_mul, Nat.sub_zero, List.drop_zero, List.take_eq_take_iff]
    omega
  · apply List.map_congr_left
    intro i _
    rw [Function.comp_apply, slice, slice, List.drop_drop, Nat.succ_mul, Nat.add_comm mss, Nat.sub_sub,
      Nat.add_comm mss]

/-- The data make as many packets as are planned. -/
theorem dataPackets_length (mss : ℕ) (data : Bytes) :
    (dataPackets mss data).length = plannedBlocks mss data.length := by
  rw [dataPackets, List.length_map, List.length_range]

/-- The packets hold the data. -/
theorem dataPackets_flatten {mss : ℕ} (hmss : 0 < mss) (data : Bytes) : (dataPackets mss data).flatten = data := by
  induction hlength : data.length using Nat.strong_induction_on generalizing data with
  | h n ih =>
    subst hlength
    rcases Nat.eq_zero_or_pos data.length with hzero | hpos
    · rw [List.length_eq_zero_iff] at hzero
      rw [hzero, dataPackets, List.length_nil, plannedBlocks_zero]
      rfl
    · have hdrop : (data.drop mss).length < data.length := by
        rw [List.length_drop]
        omega
      rw [dataPackets_of_pos hmss hpos, List.flatten_cons, ih _ hdrop _ rfl, List.take_append_drop]

/-- No packet is longer than a block. -/
theorem dataPackets_length_le (mss : ℕ) (data : Bytes) : ∀ packet ∈ dataPackets mss data, packet.length ≤ mss := by
  intro packet hpacket
  obtain ⟨i, -, rfl⟩ := List.mem_map.mp hpacket
  rw [slice_length]
  omega

/-- A packet from a file has at most the bytes that were planned for it. -/
theorem addBufferFromFile_length_le (mss len : ℕ) (file : CFile) :
    ∀ packet ∈ (Udtfs.addBufferFromFile fileSource mss len file).1, packet.length ≤ mss := by
  intro packet hpacket
  obtain ⟨n, hn, hle⟩ := fileSource.readChunks_le _ _ packet hpacket
  obtain ⟨i, -, rfl⟩ := List.mem_map.mp hn
  omega

/-- No packet is empty. -/
theorem dataPackets_ne_nil {mss : ℕ} (hmss : 0 < mss) (data : Bytes) :
    ∀ packet ∈ dataPackets mss data, packet ≠ [] := by
  induction hlength : data.length using Nat.strong_induction_on generalizing data with
  | h n ih =>
    subst hlength
    rcases Nat.eq_zero_or_pos data.length with hzero | hpos
    · rw [dataPackets, hzero, plannedBlocks_zero]
      simp
    · have hdrop : (data.drop mss).length < data.length := by
        rw [List.length_drop]
        omega
      rw [dataPackets_of_pos hmss hpos, List.forall_mem_cons]
      refine ⟨?_, ih _ hdrop _ rfl⟩
      rw [← List.length_pos_iff, List.length_take]
      omega

/-- The blocks that have not been read are over exactly at the last one. -/
theorem Layout.currBlock_eq_iff (h : b.Layout sent unsent free) :
    b.currBlock = b.lastBlock ↔ unsent = [] := by
  obtain ⟨rest, hrest⟩ := h.curr_eq
  have hnodup := h.nodup
  rw [List.append_assoc, List.nodup_append] at hnodup
  cases unsent with
  | nil => exact iff_of_true (List.cons.inj hrest).1.symm rfl
  | cons i unsent =>
    obtain rfl : i = b.currBlock := (List.cons.inj hrest).1
    refine iff_of_false (fun heq => ?_) (List.cons_ne_nil _ _)
    have hnotin := (List.nodup_cons.mp hnodup.2.1).1
    exact hnotin (by simp [heq])

/-- Reading at an offset gets the packet there. -/
theorem Holds.readDataAt (h : b.Holds queue read) (hoffset : offset < queue.length) :
    b.data (b.readDataAt offset) = queue[offset] := by
  obtain ⟨⟨sent, unsent, free, hlayout, hsent, hunsent⟩, hread, hcount⟩ := h
  have hqueue : queue = (sent ++ unsent).map b.data := by
    rw [List.map_append, hsent, hunsent, List.take_append_drop]
  subst hqueue
  rw [List.length_map] at hoffset
  rw [hlayout.readDataAt hoffset, List.getElem_map]

/-- Reading takes the first packet that has not been read. -/
theorem Holds.readData (h : b.Holds queue read) (hsome : read < queue.length) :
    b.readData = some (b.readDataAt read, { b with currBlock := b.next b.currBlock }) ∧
      Holds { b with currBlock := b.next b.currBlock } queue (read + 1) := by
  obtain ⟨⟨sent, unsent, free, hlayout, hsent, hunsent⟩, hread, hcount⟩ := h
  have hlength : (sent ++ unsent).length = queue.length := length_eq hsent hunsent
  have hsentlength : sent.length = read := by
    rw [← List.length_map b.data, hsent, List.length_take_of_le hread]
  rw [List.drop_eq_getElem_cons hsome] at hunsent
  cases unsent with
  | nil => exact absurd hunsent (List.cons_ne_nil _ _).symm
  | cons i unsent =>
    obtain ⟨rest, hrest⟩ := hlayout.curr_eq
    obtain ⟨rfl, -⟩ := List.cons.inj hrest
    rw [List.map_cons] at hunsent
    obtain ⟨hfirst, hlater⟩ := List.cons.inj hunsent
    have hne : b.currBlock ≠ b.lastBlock := fun heq =>
      List.cons_ne_nil _ _ (hlayout.currBlock_eq_iff.mp heq)
    constructor
    · rw [SndBlocks.readData, if_neg hne, hlayout.readDataAt (by rwa [hlength])]
      simp [← hsentlength]
    · have hsame : sent ++ b.currBlock :: unsent = (sent ++ [b.currBlock]) ++ unsent := by simp
      have hring := hlayout.ring
      refine ⟨⟨sent ++ [b.currBlock], unsent, free, ?_, ?_, hlater⟩, hsome, hcount⟩
      · constructor <;> dsimp only
        · rw [← hsame]
          exact hlayout.ring
        · rw [← hsame]
          exact hlayout.nodup
        · rw [← hsame]
          exact hlayout.bounds
        · rw [← hsame]
          exact hlayout.length_eq
        · rw [List.append_assoc, List.cons_append] at hring
          cases unsent with
          | nil => exact ⟨[], by rw [hring.tail.head_eq]; rfl⟩
          | cons j unsent => exact ⟨unsent ++ [b.lastBlock], by rw [hring.tail.head_eq]; rfl⟩
      · rw [List.take_add_one, List.getElem?_eq_getElem hsome, List.map_append, hsent, List.map_singleton,
          hfirst, Option.toList_some]

/-- When all packets have been read there is no data to read. -/
theorem Holds.readData_none (h : b.Holds queue read) (hall : read = queue.length) : b.readData = none := by
  obtain ⟨⟨sent, unsent, free, hlayout, -, hunsent⟩, -⟩ := h
  rw [hall, List.drop_length, List.map_eq_nil_iff] at hunsent
  rw [SndBlocks.readData, if_pos (hlayout.currBlock_eq_iff.mpr hunsent)]

/-- An acknowledgement frees the first packets, which must have been read. -/
theorem Holds.ackData (h : b.Holds queue read) (hoffset : offset ≤ read) :
    (b.ackData offset).Holds (queue.drop offset) (read - offset) := by
  obtain ⟨⟨sent, unsent, free, hlayout, hsent, hunsent⟩, hread, hcount⟩ := h
  have hlength : sent.length = read := by
    rw [← List.length_map b.data, hsent, List.length_take_of_le hread]
  obtain ⟨p, rest, hrest⟩ : ∃ p rest, sent.drop offset ++ unsent ++ b.lastBlock :: free = p :: rest :=
    List.exists_cons_of_ne_nil (by simp)
  have hsplit : sent ++ unsent ++ b.lastBlock :: free = sent.take offset ++ p :: rest := by
    rw [← hrest, ← List.append_assoc, ← List.append_assoc, List.take_append_drop]
  have hturn : sent.drop offset ++ unsent ++ b.lastBlock :: (free ++ sent.take offset) =
      (p :: rest) ++ sent.take offset := by
    rw [← hrest]
    simp
  have hperm : ((p :: rest) ++ sent.take offset).Perm (sent ++ unsent ++ b.lastBlock :: free) := by
    rw [hsplit]
    exact List.perm_append_comm
  have hring := hlayout.ring
  rw [hsplit] at hring
  have hfirst : b.next^[offset] b.firstBlock = p := by
    have hlead := hring.split.1.iterate
    rwa [List.length_take_of_le (hlength ▸ hoffset)] at hlead
  refine ⟨⟨sent.drop offset, unsent, free ++ sent.take offset, ?_, ?_, ?_⟩, ?_, ?_⟩
  · constructor <;> dsimp only [SndBlocks.ackData] <;> try rw [hturn]
    · rw [hfirst]
      exact hring.split.2.append hring.split.1
    · exact hperm.nodup_iff.mpr hlayout.nodup
    · exact fun i hi => hlayout.bounds i (hperm.mem_iff.mp hi)
    · rw [hperm.length_eq, hlayout.length_eq]
    · exact hlayout.curr_eq
  · change (sent.drop offset).map b.data = _
    rw [List.map_drop, hsent, List.drop_take]
  · change unsent.map b.data = _
    rw [hunsent, List.drop_drop, Nat.add_sub_cancel' hoffset]
  · rw [List.length_drop]
    omega
  · change _ ≤ b.count - offset
    rw [List.length_drop]
    omega

/-- The blocks behind the acknowledged ones stay where they are. -/
theorem readDataAt_ackData (b : SndBlocks) (offset k : ℕ) :
    (b.ackData offset).readDataAt k = b.readDataAt (k + offset) :=
  (Function.iterate_add_apply b.next k offset b.firstBlock).symm

end SndBlocks

/-! ## Sequences of calls -/

/-- A call of the send buffer. -/
inductive SndCall
  | addBuffer (data : Bytes)
  | addBufferFromFile (file : CFile) (len : ℕ)
  | readData
  | readDataAt (offset : ℕ)
  | ackData (offset : ℕ)
  | getCurrBufSize
  deriving DecidableEq

/-- What a call brings. -/
inductive SndAnswer
  | nothing
  | packet (data : Bytes)
  | count (n : ℤ)
  deriving DecidableEq

/-- A packet, if there is one. -/
def SndAnswer.ofPacket : Option Bytes → SndAnswer
  | none => nothing
  | some data => packet data

/-- All packets that were ever added, how many were planned in the calls that added them, and how many of
them have been acknowledged and read. -/
structure SndLog where
  packets : List Bytes
  planned : ℕ
  acked : ℕ
  read : ℕ
  deriving DecidableEq

/-- Nothing has been added yet. -/
def SndLog.init : SndLog := ⟨[], 0, 0, 0⟩

namespace SndCall

/-- What a call does to the log, and what it brings. -/
def onLog (mss : ℕ) (t : SndLog) : SndCall → SndLog × SndAnswer
  | .addBuffer data =>
    ({ t with
        packets := t.packets ++ SndBlocks.dataPackets mss data
        planned := t.planned + plannedBlocks mss data.length }, .nothing)
  | .addBufferFromFile file len =>
    ({ t with
        packets := t.packets ++ (Udtfs.addBufferFromFile fileSource mss len file).1
        planned := t.planned + plannedBlocks mss len }, .nothing)
  | .readData => ({ t with read := min (t.read + 1) t.packets.length }, .ofPacket t.packets[t.read]?)
  | .readDataAt offset => (t, .ofPacket t.packets[t.acked + offset]?)
  | .ackData offset => ({ t with acked := t.acked + offset }, .nothing)
  | .getCurrBufSize => (t, .count (t.planned - t.acked))

/-- What it does to the buffer. -/
def onBuffer (mss : ℕ) (b : SndBlocks) : SndCall → Option (SndBlocks × SndAnswer)
  | .addBuffer data => some (b.addBuffer mss data, .nothing)
  | .addBufferFromFile file len => some (b.addBufferFromFile mss file len, .nothing)
  | .readData =>
    match b.readData with
    | none => some (b, .nothing)
    | some (block, b') => some (b', .packet (b.data block))
  | .readDataAt offset => some (b, .packet (b.data (b.readDataAt offset)))
  | .ackData offset => some (b.ackData offset, .nothing)
  | .getCurrBufSize => some (b, .count b.count)

/-- Only packets that have been read are sent again or acknowledged. -/
def Admissible (t : SndLog) : SndCall → Prop
  | .readDataAt offset => t.acked + offset < t.read
  | .ackData offset => t.acked + offset ≤ t.read
  | _ => True

instance (t : SndLog) : DecidablePred (Admissible t)
  | .addBuffer _ | .addBufferFromFile _ _ | .readData | .getCurrBufSize =>
    inferInstanceAs (Decidable True)
  | .readDataAt offset => inferInstanceAs (Decidable (t.acked + offset < t.read))
  | .ackData offset => inferInstanceAs (Decidable (t.acked + offset ≤ t.read))

/-- The buffer holds what has not been acknowledged, and counts what was planned and has not been
acknowledged. -/
structure Refines (b : SndBlocks) (t : SndLog) : Prop where
  holds : b.Holds (t.packets.drop t.acked) (t.read - t.acked)
  count_eq : b.count = t.planned - t.acked
  acked_le : t.acked ≤ t.read
  read_le : t.read ≤ t.packets.length

variable {mss : ℕ} {b : SndBlocks} {t : SndLog}

/-- Packets are added behind those that are there. -/
theorem Refines.add (h : Refines b t) {planned : ℕ} {packets : List Bytes}
    (hplanned : packets.length ≤ planned) :
    Refines (b.addPackets planned packets)
      { t with packets := t.packets ++ packets, planned := t.planned + planned } where
  holds := by
    rw [List.drop_append_of_le_length (h.acked_le.trans h.read_le)]
    exact (h.holds.addPackets packets hplanned).1
  count_eq := by
    rw [SndBlocks.addPackets_count, h.count_eq]
    push_cast
    omega
  acked_le := h.acked_le
  read_le := h.read_le.trans (by simp)

/-- The next packet is read. -/
theorem Refines.readData (h : Refines b t) (hsome : t.read < t.packets.length) :
    b.readData = some (b.readDataAt (t.read - t.acked), { b with currBlock := b.next b.currBlock }) ∧
      b.data (b.readDataAt (t.read - t.acked)) = t.packets[t.read] ∧
      Refines { b with currBlock := b.next b.currBlock } { t with read := t.read + 1 } := by
  have hacked := h.acked_le
  have hlength : (t.packets.drop t.acked).length = t.packets.length - t.acked := List.length_drop
  obtain ⟨hreads, hafter⟩ := h.holds.readData (by omega)
  have hdata := h.holds.readDataAt (show t.read - t.acked < _ by omega)
  rw [List.getElem_drop] at hdata
  simp only [Nat.add_sub_cancel' hacked] at hdata
  refine ⟨hreads, hdata, ?_, h.count_eq, Nat.le_succ_of_le hacked, hsome⟩
  dsimp only
  rwa [Nat.sub_add_comm hacked]

/-- The first packets are acknowledged. -/
theorem Refines.ackData (h : Refines b t) {offset : ℕ} (hle : t.acked + offset ≤ t.read) :
    Refines (b.ackData offset) { t with acked := t.acked + offset } where
  holds := by
    have hafter := h.holds.ackData (show offset ≤ _ by omega)
    rwa [List.drop_drop, Nat.sub_sub] at hafter
  count_eq := by
    have hcount := h.count_eq
    change b.count - offset = _
    push_cast
    omega
  acked_le := hle
  read_le := h.read_le

/-- One call on the buffer does what it does to the log. -/
theorem onBuffer_refines (call : SndCall) (h : Refines b t) (hcall : call.Admissible t) :
    ∃ b', call.onBuffer mss b = some (b', (call.onLog mss t).2) ∧ Refines b' (call.onLog mss t).1 := by
  cases call with
  | addBuffer data => exact ⟨_, rfl, h.add (SndBlocks.dataPackets_length mss data).le⟩
  | addBufferFromFile file len => exact ⟨_, rfl, h.add (filled_le_planned mss file len)⟩
  | readData =>
    rcases h.read_le.lt_or_eq with hsome | hall
    · obtain ⟨hreads, hdata, hafter⟩ := h.readData hsome
      refine ⟨{ b with currBlock := b.next b.currBlock }, ?_, ?_⟩
      · simp only [onBuffer, onLog, hreads, hdata, List.getElem?_eq_getElem hsome, SndAnswer.ofPacket]
      · simp only [onLog]
        rwa [min_eq_left (by omega)]
    · have hlength : (t.packets.drop t.acked).length = t.packets.length - t.acked := List.length_drop
      have hnone := h.holds.readData_none (by omega)
      refine ⟨b, ?_, ?_⟩
      · simp only [onBuffer, onLog, hnone, hall, List.getElem?_eq_none le_rfl, SndAnswer.ofPacket]
      · simp only [onLog]
        rw [min_eq_right (by omega), ← hall]
        exact h
  | readDataAt offset =>
    have hlt : t.acked + offset < t.read := hcall
    have hread := h.read_le
    have hlength : (t.packets.drop t.acked).length = t.packets.length - t.acked := List.length_drop
    refine ⟨b, ?_, h⟩
    simp only [onBuffer, onLog]
    rw [h.holds.readDataAt (by omega), List.getElem_drop, List.getElem?_eq_getElem (by omega),
      SndAnswer.ofPacket]
  | ackData offset => exact ⟨b.ackData offset, rfl, h.ackData hcall⟩
  | getCurrBufSize =>
    refine ⟨b, ?_, h⟩
    simp only [onBuffer, onLog, h.count_eq]

end SndCall

/-- The send buffer behaves as the log of all packets that were ever added, whatever calls are made: packets
are read in their order, each once, and sent again as they were, however the ring grows and turns, and the
count is the number of packets planned and not acknowledged. -/
theorem sndBuffer_refines (mss : ℕ) (calls : List SndCall)
    (hcalls : Calls.Admissible (SndCall.onLog mss) SndCall.Admissible SndLog.init calls) :
    ∃ b, Calls.run (SndCall.onBuffer mss) SndBlocks.init calls =
        some (b, (Calls.specify (SndCall.onLog mss) SndLog.init calls).2) ∧
      SndCall.Refines b (Calls.specify (SndCall.onLog mss) SndLog.init calls).1 :=
  Calls.run_refines (fun _ _ call h hcall => SndCall.onBuffer_refines call h hcall)
    ⟨SndBlocks.holds_init, rfl, le_rfl, le_rfl⟩ calls hcalls

/-- Two packets are sent, the second one once more after the first has been acknowledged. -/
theorem sndBuffer_refines_again :
    ∃ b, Calls.run (SndCall.onBuffer 4) SndBlocks.init
          [.addBuffer (ascii "hello"), .readData, .readData, .ackData 1, .readDataAt 0] =
        some (b, (Calls.specify (SndCall.onLog 4) SndLog.init
          [.addBuffer (ascii "hello"), .readData, .readData, .ackData 1, .readDataAt 0]).2) ∧
      SndCall.Refines b (Calls.specify (SndCall.onLog 4) SndLog.init
        [.addBuffer (ascii "hello"), .readData, .readData, .ackData 1, .readDataAt 0]).1 :=
  sndBuffer_refines 4 _ ⟨trivial, trivial, trivial, by decide, by decide, trivial⟩

/-- Of the three packets planned for a file with five bytes only two are filled, and all are counted. -/
example : Calls.specify (SndCall.onLog 4) SndLog.init
    [.addBufferFromFile (CFile.opened (ascii "hello") 0) 10, .getCurrBufSize] =
      (⟨[ascii "hell", ascii "o"], 3, 0, 0⟩, [.nothing, .count 3]) := by decide

end Udtfs

import Udtfs.Transport.LossReport
import Udtfs.Transport.SndBlocks

/-!
# The sending side

`CUDT` of `core.cpp` as far as it sends data. The application queues packets in `send` and `sendfile`, the
sending worker packs them in `packData`, and the receiving worker handles acknowledgements, loss reports
and the expiration timer. Where another thread may come in between, a function is cut into sections, and
the sender keeps where its threads stand.
-/

namespace Udtfs

open Spans LossArrays

/-- Where the sending worker stands in `packData`. -/
inductive Packing
  | idle
  /-- No packet is lost. -/
  | noLoss
  /-- A lost packet has been taken from the loss list. -/
  | lost (seqno : ℤ)
  /-- The windows allow a new packet. -/
  | allowed
  /-- A packet that points to a block of the send buffer is about to be sent. -/
  | packed (seqno : ℤ) (block : ℕ)
  deriving DecidableEq

/-- The sending side of `CUDT`. -/
structure Sender where
  /-- `m_iPayloadSize`. -/
  payloadSize : ℕ
  /-- `m_iSndBufSize`. -/
  sndBufSize : ℤ
  sndCurrSeqNo : ℤ
  sndLastAck : ℤ
  sndLastDataAck : ℤ
  sndLastAck2 : ℤ
  flowWindowSize : ℤ
  sndBuffer : SndBlocks
  sndLossList : SndLossList
  /-- `m_llSentTotal`: the packets that have been packed. -/
  sentTotal : ℕ
  /-- `m_bBroken`. -/
  broken : Bool
  packing : Packing
  /-- The number of an ACK that has not yet been passed on to the send buffer. -/
  acking : Option ℤ

namespace Sender

/-- The sender of a new connection. -/
def init (payloadSize : ℕ) (sndBufSize isn flowWindowSize : ℤ) (next : ℤ → ℤ) : Sender where
  payloadSize := payloadSize
  sndBufSize := sndBufSize
  sndCurrSeqNo := isn - 1
  sndLastAck := isn
  sndLastDataAck := isn
  sndLastAck2 := isn
  flowWindowSize := flowWindowSize
  sndBuffer := SndBlocks.init
  sndLossList := SndLossList.init next (flowWindowSize * 2)
  sentTotal := 0
  broken := false
  packing := .idle
  acking := none

/-- `send`, without waiting for room: the bytes that are queued. -/
def send (x : Sender) (data : Bytes) : Sender × Bytes :=
  if x.sndBufSize ≤ x.sndBuffer.count then (x, [])
  else
    let size := (x.sndBufSize - x.sndBuffer.count) * x.payloadSize
    let accepted := if size > data.length then data else data.take size.toNat
    ({ x with sndBuffer := x.sndBuffer.addBuffer x.payloadSize accepted }, accepted)

/-- A round of the loop in `sendfile`, once there is room: the bytes that are queued and the file
afterwards. -/
def sendfileRound (x : Sender) (file : CFile) (unitsize : ℕ) : Sender × Bytes × CFile :=
  let added := Udtfs.addBufferFromFile fileSource x.payloadSize unitsize file
  ({ x with sndBuffer := x.sndBuffer.addBufferFromFile x.payloadSize file unitsize }, added.1.flatten, added.2)

/-- The next section of `packData`, with the congestion window as it is. -/
def packData (cwnd : ℤ) (x : Sender) : Sender :=
  match x.packing with
  | .idle =>
    let lost := x.sndLossList.getLostSeq
    { x with sndLossList := lost.1, packing := if lost.2 ≥ 0 then .lost lost.2 else .noLoss }
  | .lost seqno =>
    -- under `m_AckLock`
    let offset := seqoff x.sndLastDataAck seqno
    if offset < 0 then { x with packing := .idle }
    else
      let block := x.sndBuffer.readDataAt offset.toNat
      if x.sndBuffer.data block = [] then { x with packing := .idle }
      else { x with packing := .packed seqno block, sentTotal := x.sentTotal + 1 }
  | .noLoss =>
    if min x.flowWindowSize cwnd ≥ seqlen x.sndLastAck (incseq x.sndCurrSeqNo) then { x with packing := .allowed }
    else { x with packing := .idle }
  | .allowed =>
    match x.sndBuffer.readData with
    | none => { x with packing := .idle }
    | some (block, b) =>
      if x.sndBuffer.data block = [] then { x with sndBuffer := b, packing := .idle }
      else
        { x with
          sndBuffer := b
          sndCurrSeqNo := incseq x.sndCurrSeqNo
          packing := .packed (incseq x.sndCurrSeqNo) block
          sentTotal := x.sentTotal + 1 }
  | .packed _ _ => x

/-- An acknowledgement of an acknowledgement is sent, late or to a repeated one. -/
def sendsAck2 (x : Sender) (late : Bool) (ackno : ℤ) : Bool := late || ackno = x.sndLastAck2

/-- `processCtrl` for an ACK, before it takes `m_AckLock`. -/
def processAck (x : Sender) (late : Bool) (ackno ack flowWindow : ℤ) : Sender :=
  let x := { x with sndLastAck2 := if x.sendsAck2 late ackno then ackno else x.sndLastAck2 }
  if seqcmp ack (incseq x.sndCurrSeqNo) > 0 then { x with broken := true }
  else if seqcmp ack x.sndLastAck ≥ 0 then
    { x with flowWindowSize := flowWindow, sndLastAck := ack, acking := some ack }
  else { x with acking := some ack }

/-- `processCtrl` for an ACK, under `m_AckLock`. -/
def acknowledge (x : Sender) (ack : ℤ) : Option Sender :=
  let offset := seqoff x.sndLastDataAck ack
  if offset ≤ 0 then some { x with acking := none }
  else do
    let l ← x.sndLossList.remove (decseq ack)
    some { x with
      sndBuffer := x.sndBuffer.ackData offset.toNat
      sndLastDataAck := ack
      sndLossList := l
      acking := none }

/-- `processCtrl` for a lite ACK. -/
def processLiteAck (x : Sender) (ack : ℤ) : Sender :=
  if seqcmp ack x.sndLastAck ≥ 0 then
    { x with flowWindowSize := x.flowWindowSize - seqoff x.sndLastAck ack, sndLastAck := ack }
  else x

/-- `processCtrl` for a loss report. -/
def processNak (x : Sender) (losslist : List (BitVec 32)) : Option Sender := do
  let (l, secure) ← processLossReport x.sndLastAck x.sndCurrSeqNo losslist x.sndLossList
  some { x with sndLossList := l, broken := x.broken || !secure }

/-- `checkTimers` when the expiration timer is over: all packets that are not acknowledged are lost. -/
def expire (x : Sender) : Option Sender :=
  if incseq x.sndCurrSeqNo ≠ x.sndLastAck then do
    let (l, _) ← x.sndLossList.insert x.sndLastAck x.sndCurrSeqNo
    some { x with sndLossList := l }
  else some x

/-! ## The payload size stays as it is -/

section
variable (x : Sender)

/-- Queueing keeps the payload size. -/
theorem send_payloadSize (data : Bytes) : (x.send data).1.payloadSize = x.payloadSize := by
  unfold Sender.send
  split <;> rfl

/-- So does packing. -/
theorem packData_payloadSize (cwnd : ℤ) : (x.packData cwnd).payloadSize = x.payloadSize := by
  unfold Sender.packData
  split
  · rfl
  · dsimp only
    split_ifs <;> rfl
  · split <;> rfl
  · split
    · rfl
    · split <;> rfl
  · rfl

/-- So does an ACK. -/
theorem processAck_payloadSize (late : Bool) (ackno ack flowWindow : ℤ) :
    (x.processAck late ackno ack flowWindow).payloadSize = x.payloadSize := by
  unfold Sender.processAck
  dsimp only
  split_ifs <;> rfl

/-- So does passing it on. -/
theorem acknowledge_payloadSize {x' : Sender} {ack : ℤ} (h : x.acknowledge ack = some x') :
    x'.payloadSize = x.payloadSize := by
  unfold Sender.acknowledge at h
  dsimp only at h
  split at h
  · obtain rfl := Option.some.inj h
    rfl
  · obtain ⟨l, -, hafter⟩ := Option.bind_eq_some_iff.mp h
    obtain rfl := Option.some.inj hafter
    rfl

/-- So does a lite ACK. -/
theorem processLiteAck_payloadSize (ack : ℤ) : (x.processLiteAck ack).payloadSize = x.payloadSize := by
  unfold Sender.processLiteAck
  split <;> rfl

/-- So does a loss report. -/
theorem processNak_payloadSize {x' : Sender} {losslist : List (BitVec 32)} (h : x.processNak losslist = some x') :
    x'.payloadSize = x.payloadSize := by
  obtain ⟨⟨l, secure⟩, -, hafter⟩ := Option.bind_eq_some_iff.mp h
  obtain rfl := Option.some.inj hafter
  rfl

/-- So does the expiration timer. -/
theorem expire_payloadSize {x' : Sender} (h : x.expire = some x') : x'.payloadSize = x.payloadSize := by
  unfold Sender.expire at h
  split at h
  · obtain ⟨l, -, hafter⟩ := Option.bind_eq_some_iff.mp h
    obtain rfl := Option.some.inj hafter
    rfl
  · obtain rfl := Option.some.inj h
    rfl

end

/-! ## What the variables mean -/

/-- The largest window for which the numbers in it and around it stay near each other. -/
def maxWindow : ℤ := 2 ^ 26

/-- The packet with an index, where the first one has the index `first`. -/
def packetAt (packets : List Bytes) (first n : ℤ) : Bytes := packets.getD (n - first).toNat []

/-- The acknowledged index, counting an ACK that has not yet been passed on. -/
def Acking (a d e : ℤ) : Option ℤ → Prop
  | none => e = d
  | some ack => ∃ k ≤ a, ack = seqOf k ∧ Near k d ∧ e = max d k

/-- What the sending worker holds is a packet of the window. -/
def Holding (b : SndBlocks) (W s d e : ℤ) : Packing → Prop
  | .idle | .noLoss => True
  | .lost seqno => ∃ i, seqno = seqOf i ∧ s + 1 - 2 * W ≤ i ∧ i ≤ s
  | .allowed => s + 2 ≤ e + W
  | .packed seqno block =>
    ∃ i, seqno = seqOf i ∧ s + 1 - 2 * W ≤ i ∧ i ≤ s ∧ (d ≤ i → block = b.readDataAt (i - d).toNat)

/-- The packets from `first` on are `packets`; `s` is the last one that has been sent, those before `a`
are acknowledged, those before `d` have left the buffer, and those in `S` are to be sent again. -/
structure Means (x : Sender) (W first : ℤ) (packets : List Bytes) (s a d e : ℤ) (S : Finset ℤ) : Prop where
  window : 2 ≤ W ∧ W ≤ maxWindow
  payload : 0 < x.payloadSize
  curr : x.sndCurrSeqNo = currSeq first s
  lastAck : x.sndLastAck = seqOf a
  lastDataAck : x.sndLastDataAck = seqOf d
  order : first ≤ d ∧ d ≤ a ∧ a ≤ s + 1
  sent_le : s + 1 - first ≤ packets.length
  nonempty : ∀ packet ∈ packets, packet ≠ []
  short : ∀ packet ∈ packets, packet.length ≤ x.payloadSize
  buffer : x.sndBuffer.Holds (packets.drop (d - first).toNat) (s + 1 - d).toNat
  lossList : x.sndLossList.Holds S
  lossSize : x.sndLossList.size = 2 * W
  lost : ∀ i ∈ S, d ≤ i ∧ i ≤ s
  acking : Acking a d e x.acking
  holding : Holding x.sndBuffer W s d e x.packing
  flow : a + x.flowWindowSize ≤ e + W
  room : s + 1 ≤ e + W
  behind : e ≤ d + W
  sound : x.broken = false

/-- The flow window, the number of packets that were packed and the sending worker stay as they are. -/
def SameWork (x x' : Sender) : Prop :=
  x'.flowWindowSize = x.flowWindowSize ∧ x'.sentTotal = x.sentTotal ∧ x'.packing = x.packing

/-- An ACK for the packets before `k` has been handled: a window that it has opened is open until the next one
comes. -/
def Confirmed (x : Sender) (a e k : ℤ) : Prop := k ≤ e ∧ (k < a ∨ k = a ∧ 2 ≤ x.flowWindowSize)

variable {x : Sender} {W first s a d e i k : ℤ} {packets : List Bytes} {S : Finset ℤ}

/-- This stays so while the window moves on. -/
theorem Confirmed.mono {x' : Sender} {a' e' : ℤ} (h : x.Confirmed a e k) (ha : a ≤ a') (he : e ≤ e')
    (hflow : a' = a → 2 ≤ x.flowWindowSize → 2 ≤ x'.flowWindowSize) : x'.Confirmed a' e' k := by
  refine ⟨h.1.trans he, ?_⟩
  rcases h.2 with hlt | ⟨rfl, hopen⟩
  · exact Or.inl (hlt.trans_le ha)
  · rcases ha.lt_or_eq with hlt | rfl
    · exact Or.inl hlt
    · exact Or.inr ⟨rfl, hflow rfl hopen⟩

/-- It stays one while the packets stay in their blocks and the window moves on. -/
theorem Holding.mono {b b' : SndBlocks} {d' e' : ℤ} {p : Packing} (h : Holding b W s d e p) (hd : d ≤ d')
    (he : e ≤ e') (hblocks : ∀ i, d' ≤ i → i ≤ s → b'.readDataAt (i - d').toNat = b.readDataAt (i - d).toNat) :
    Holding b' W s d' e' p := by
  cases p with
  | idle | noLoss => trivial
  | lost seqno => exact h
  | allowed =>
    have hroom : s + 2 ≤ e + W := h
    exact hroom.trans (by omega)
  | packed seqno block =>
    obtain ⟨i, hseqno, hlow, hhigh, hblock⟩ := h
    exact ⟨i, hseqno, hlow, hhigh, fun hdi => (hblock (hd.trans hdi)).trans (hblocks i hdi hhigh).symm⟩

/-- A new connection. -/
theorem means_init {payloadSize : ℕ} (hpayload : 0 < payloadSize) (sndBufSize first : ℤ) (hW : 2 ≤ W ∧ W ≤ maxWindow)
    (next : ℤ → ℤ) :
    (init payloadSize sndBufSize (seqOf first) W next).Means W first [] (first - 1) first first first ∅ where
  window := hW
  payload := hpayload
  curr := (if_pos (by omega)).symm
  lastAck := rfl
  lastDataAck := rfl
  order := ⟨le_rfl, le_rfl, by omega⟩
  sent_le := by simp
  nonempty := by simp
  short := by simp
  buffer := by
    rw [List.drop_nil, show (first - 1 + 1 - first).toNat = 0 by omega]
    exact SndBlocks.holds_init
  lossList := SndLossList.holds_init next (by
    rw [show CSeqNo.threshold = 0x3FFFFFFF from rfl]
    have hle := hW.2
    rw [maxWindow] at hle
    omega)
  lossSize := mul_comm W 2
  lost := by simp
  acking := rfl
  holding := trivial
  flow := le_rfl
  room := by omega
  behind := by omega
  sound := rfl

namespace Means

variable (h : x.Means W first packets s a d e S)

include h

/-- Between the packets that have left the buffer and those that have been acknowledged. -/
theorem e_bounds : d ≤ e ∧ e ≤ a := by
  have horder := h.order
  have hacking := h.acking
  cases hcase : x.acking with
  | none =>
    obtain rfl : e = d := by rwa [hcase] at hacking
    exact ⟨le_rfl, horder.2.1⟩
  | some ack =>
    rw [hcase] at hacking
    obtain ⟨k, hk, -, -, rfl⟩ := hacking
    exact ⟨le_max_left d k, max_le horder.2.1 hk⟩

/-- At most two windows have been sent and are still in the buffer. -/
theorem sent_bound : s + 1 ≤ d + 2 * W := by
  have hroom := h.room
  have hbehind := h.behind
  omega

/-- Indices around the window are near each other. -/
theorem near {m n : ℤ} (hm : s + 1 - 2 * W ≤ m ∧ m ≤ s + 1) (hn : s + 1 - 2 * W ≤ n ∧ n ≤ s + 1) : Near m n := by
  have hle := h.window.2
  rw [maxWindow] at hle
  rw [near_iff]
  omega

/-- The packets that have been sent and not acknowledged are in the buffer. -/
theorem data_readDataAt (hdi : d ≤ i) (his : i ≤ s) :
    x.sndBuffer.data (x.sndBuffer.readDataAt (i - d).toNat) = packetAt packets first i := by
  have horder := h.order
  have hsent := h.sent_le
  have hlength : (i - d).toNat < (packets.drop (d - first).toNat).length := by
    rw [List.length_drop]
    omega
  rw [h.buffer.readDataAt hlength, List.getElem_drop, packetAt, List.getD_eq_getElem?_getD,
    List.getElem?_eq_getElem (by omega), Option.getD_some]
  congr 1
  omega

/-- What has been sent is one of the packets. -/
theorem packetAt_mem (hfi : first ≤ i) (his : i ≤ s) : packetAt packets first i ∈ packets := by
  have hsent := h.sent_le
  have hlt : (i - first).toNat < packets.length := by omega
  rw [packetAt, List.getD_eq_getElem?_getD, List.getElem?_eq_getElem hlt, Option.getD_some]
  exact List.getElem_mem hlt

/-- A packet of the window is not empty. -/
theorem packetAt_ne_nil (hfi : first ≤ i) (his : i ≤ s) : packetAt packets first i ≠ [] :=
  h.nonempty _ (h.packetAt_mem hfi his)

/-! ## Queueing -/

/-- Packets are queued behind those that are there. -/
theorem addPackets {planned : ℕ} {added : List Bytes} (hplanned : added.length ≤ planned)
    (hadded : ∀ packet ∈ added, packet ≠ []) (hfits : ∀ packet ∈ added, packet.length ≤ x.payloadSize) :
    Means { x with sndBuffer := x.sndBuffer.addPackets planned added } W first (packets ++ added) s a d e S := by
  have horder := h.order
  have hsent := h.sent_le
  obtain ⟨hbuffer, hblocks⟩ := h.buffer.addPackets added hplanned
  refine { h with sent_le := ?_, nonempty := ?_, short := ?_, buffer := ?_, holding := ?_ }
  · rw [List.length_append, Nat.cast_add]
    omega
  · intro packet hpacket
    rcases List.mem_append.mp hpacket with hpacket | hpacket
    · exact h.nonempty packet hpacket
    · exact hadded packet hpacket
  · intro packet hpacket
    rcases List.mem_append.mp hpacket with hpacket | hpacket
    · exact h.short packet hpacket
    · exact hfits packet hpacket
  · rwa [List.drop_append_of_le_length (by omega)]
  · refine h.holding.mono le_rfl le_rfl fun i hdi his => hblocks _ ?_
    rw [List.length_drop]
    omega

/-- What `send` accepts is queued. -/
theorem send (data : Bytes) :
    ∃ added, (x.send data).1.Means W first (packets ++ added) s a d e S ∧ added.flatten = (x.send data).2 ∧
      x.SameWork (x.send data).1 := by
  unfold Sender.send
  split
  · exact ⟨[], by rwa [List.append_nil], rfl, rfl, rfl, rfl⟩
  · exact ⟨_, h.addPackets (SndBlocks.dataPackets_length _ _).le (SndBlocks.dataPackets_ne_nil h.payload _)
      (SndBlocks.dataPackets_length_le _ _), SndBlocks.dataPackets_flatten h.payload _, rfl, rfl, rfl⟩

/-- What a round of `sendfile` reads is queued. -/
theorem sendfileRound (file : CFile) (unitsize : ℕ) :
    ∃ added, (x.sendfileRound file unitsize).1.Means W first (packets ++ added) s a d e S ∧
      added.flatten = (x.sendfileRound file unitsize).2.1 ∧ x.SameWork (x.sendfileRound file unitsize).1 :=
  ⟨_, h.addPackets (filled_le_planned _ _ _) (fileSource.readChunks_ne_nil _ _) (SndBlocks.addBufferFromFile_length_le _ _ _),
    rfl, rfl, rfl, rfl⟩

/-! ## Packing -/

/-- The first lost packet is taken from the loss list, if there is one. -/
theorem packData_idle (hpacking : x.packing = .idle) (cwnd : ℤ) :
    (S = ∅ ∧ x.packData cwnd = { x with packing := .noLoss }) ∨
      ∃ i l, i ∈ S ∧ (∀ n ∈ S, i ≤ n) ∧ x.packData cwnd = { x with sndLossList := l, packing := .lost (seqOf i) } ∧
        (x.packData cwnd).Means W first packets s a d e (S.erase i) := by
  have hW := h.window.1
  have hbound := h.sent_bound
  unfold Sender.packData
  rw [hpacking]
  rcases h.lossList.getLostSeq with ⟨rfl, hnone⟩ | ⟨i, hi, hleast, l, hsome, hsize, hl⟩
  · simp only [hnone]
    exact Or.inl ⟨trivial, rfl⟩
  · simp only [hsome, ge_iff_le, if_pos (seqOf_nonneg i)]
    have hmem := h.lost i hi
    exact Or.inr ⟨i, l, hi, hleast, rfl, { h with
      lossList := hl
      lossSize := hsize.trans h.lossSize
      lost := fun n hn => h.lost n (Finset.mem_of_mem_erase hn)
      holding := ⟨i, rfl, by omega, hmem.2⟩ }⟩

/-- A lost packet is packed unless it has left the buffer. -/
theorem packData_lost (hpacking : x.packing = .lost (seqOf i)) (hlow : s + 1 - 2 * W ≤ i) (hhigh : i ≤ s) (cwnd : ℤ) :
    x.packData cwnd =
      if i < d then { x with packing := .idle }
      else { x with
        packing := .packed (seqOf i) (x.sndBuffer.readDataAt (i - d).toNat)
        sentTotal := x.sentTotal + 1 } := by
  have hbound := h.sent_bound
  have horder := h.order
  have hoffset : seqoff x.sndLastDataAck (seqOf i) = i - d := by
    rw [h.lastDataAck, seqoff_seqOf (h.near (by omega) (by omega))]
  unfold Sender.packData
  rw [hpacking]
  simp only [hoffset]
  by_cases hid : i < d
  · rw [if_pos (by omega), if_pos hid]
  · rw [if_neg (by omega), if_neg hid, if_neg]
    rw [h.data_readDataAt (by omega) hhigh]
    exact h.packetAt_ne_nil (by omega) hhigh

/-- The windows are asked for room. -/
theorem packData_noLoss (hpacking : x.packing = .noLoss) (cwnd : ℤ) :
    x.packData cwnd =
      { x with packing := if s + 2 - a ≤ min x.flowWindowSize cwnd then .allowed else .idle } := by
  have hW := h.window.1
  have hbound := h.sent_bound
  have horder := h.order
  have hlen : seqlen x.sndLastAck (incseq x.sndCurrSeqNo) = s + 2 - a := by
    rw [h.lastAck, h.curr, incseq_currSeq (by omega), seqlen_seqOf (by omega) (h.near (by omega) (by omega))]
    omega
  unfold Sender.packData
  rw [hpacking]
  simp only [hlen, ge_iff_le]
  split_ifs <;> rfl

/-- The next packet of the queue is packed, if there is one. -/
theorem packData_allowed (hpacking : x.packing = .allowed) (cwnd : ℤ) :
    (s + 1 - first = packets.length ∧ x.packData cwnd = { x with packing := .idle }) ∨
      s + 1 - first < packets.length ∧
        (∃ b block, x.packData cwnd = { x with
          sndBuffer := b
          sndCurrSeqNo := seqOf (s + 1)
          packing := .packed (seqOf (s + 1)) block
          sentTotal := x.sentTotal + 1 }) ∧
        (x.packData cwnd).Means W first packets (s + 1) a d e S := by
  have hW := h.window.1
  have horder := h.order
  have hholding := h.holding
  rw [hpacking] at hholding
  have hallowed : s + 2 ≤ e + W := hholding
  have hlength : (packets.drop (d - first).toNat).length = packets.length - (d - first).toNat :=
    List.length_drop
  have hsent := h.sent_le
  have hcurr : incseq x.sndCurrSeqNo = seqOf (s + 1) := by rw [h.curr, incseq_currSeq (by omega)]
  unfold Sender.packData
  rw [hpacking]
  rcases h.buffer.read_le.lt_or_eq with hsome | hall
  · obtain ⟨hread, hbuffer⟩ := h.buffer.readData hsome
    have hdata := h.buffer.readDataAt hsome
    have hmem := h.nonempty _ (List.mem_of_mem_drop (List.getElem_mem hsome))
    rw [hlength] at hsome
    simp only [hread]
    rw [hdata, if_neg hmem, hcurr]
    refine Or.inr ⟨by omega, ⟨_, _, rfl⟩, { h with
      curr := (currSeq_of_le (by omega)).symm
      order := ⟨horder.1, horder.2.1, by omega⟩
      sent_le := by omega
      buffer := ?_
      lost := fun i hi => ⟨(h.lost i hi).1, by have := (h.lost i hi).2; omega⟩
      holding := ⟨s + 1, rfl, by omega, le_rfl, fun _ => rfl⟩
      room := by omega }⟩
    rwa [show (s + 1 + 1 - d).toNat = (s + 1 - d).toNat + 1 by omega]
  · rw [h.buffer.readData_none hall]
    exact Or.inl ⟨by omega, rfl⟩

/-- Each section of `packData` keeps the meaning; what it packs is counted. -/
theorem packData (cwnd : ℤ) :
    ∃ s' S', (x.packData cwnd).Means W first packets s' a d e S' ∧
      (s ≤ s' ∧ s' - s ≤ (x.packData cwnd).sentTotal - x.sentTotal) ∧
      (x.packData cwnd).flowWindowSize = x.flowWindowSize := by
  have hholding := h.holding
  cases hpacking : x.packing with
  | idle =>
    rcases h.packData_idle hpacking cwnd with ⟨rfl, hresult⟩ | ⟨i, l, -, -, hresult, hmeans⟩
    · rw [hresult]
      exact ⟨s, ∅, { h with holding := trivial }, ⟨le_rfl, by simp⟩, rfl⟩
    · exact ⟨s, S.erase i, hmeans, ⟨le_rfl, by rw [hresult]; simp⟩, by rw [hresult]⟩
  | noLoss =>
    have hflow := h.flow
    rw [h.packData_noLoss hpacking cwnd]
    refine ⟨s, S, { h with holding := ?_ }, ⟨le_rfl, by simp⟩, rfl⟩
    dsimp only
    split_ifs with hopen
    · have hallowed : s + 2 ≤ e + W := by omega
      exact hallowed
    · trivial
  | lost seqno =>
    rw [hpacking] at hholding
    obtain ⟨i, rfl, hlow, hhigh⟩ := hholding
    rw [h.packData_lost hpacking hlow hhigh cwnd]
    split_ifs
    · exact ⟨s, S, { h with holding := trivial }, ⟨le_rfl, by simp⟩, rfl⟩
    · exact ⟨s, S, { h with holding := ⟨i, rfl, hlow, hhigh, fun _ => rfl⟩ }, ⟨le_rfl, by simp⟩, rfl⟩
  | allowed =>
    rcases h.packData_allowed hpacking cwnd with ⟨-, hresult⟩ | ⟨-, ⟨b, block, hresult⟩, hmeans⟩
    · rw [hresult]
      exact ⟨s, S, { h with holding := trivial }, ⟨le_rfl, by simp⟩, rfl⟩
    · exact ⟨s + 1, S, hmeans, ⟨by omega, by rw [hresult]; simp⟩, by rw [hresult]⟩
  | packed seqno block =>
    have hresult : x.packData cwnd = x := by
      unfold Sender.packData
      rw [hpacking]
    rw [hresult]
    exact ⟨s, S, h, ⟨le_rfl, by simp⟩, rfl⟩

/-- The packet that is sent is the one that its number says, unless it has left the buffer. -/
theorem transmit {seqno : ℤ} {block : ℕ} (hpacking : x.packing = .packed seqno block) :
    Means { x with packing := .idle } W first packets s a d e S ∧
      ∃ i, seqno = seqOf i ∧ s + 1 - 2 * W ≤ i ∧ i ≤ s ∧
        (0 ≤ seqoff x.sndLastDataAck seqno ↔ d ≤ i) ∧
        (d ≤ i → x.sndBuffer.data block = packetAt packets first i) := by
  have hbound := h.sent_bound
  have horder := h.order
  have hholding := h.holding
  rw [hpacking] at hholding
  obtain ⟨i, rfl, hlow, hhigh, hblock⟩ := hholding
  refine ⟨{ h with holding := trivial }, i, rfl, hlow, hhigh, ?_, fun hdi => ?_⟩
  · rw [h.lastDataAck, seqoff_seqOf (h.near (by omega) (by omega)), sub_nonneg]
  · rw [hblock hdi, h.data_readDataAt hdi hhigh]

/-! ## Acknowledgements and losses -/

/-- An ACK of what has been sent is no attack. -/
theorem processAck (late : Bool) (ackno : ℤ) {v : ℤ} (hnone : x.acking = none) (hks : k ≤ s + 1) (hfk : first ≤ k)
    (hnear : ∀ n, s + 1 - 2 * W ≤ n → n ≤ s + 1 → Near k n) (hv : v ≤ W) :
    (x.processAck late ackno (seqOf k) v).Means W first packets s (max a k) d (max e k) S ∧
      (x.processAck late ackno (seqOf k) v).sentTotal = x.sentTotal ∧
      (x.processAck late ackno (seqOf k) v).packing = x.packing ∧
      (x.processAck late ackno (seqOf k) v).acking = some (seqOf k) ∧
      (x.processAck late ackno (seqOf k) v).flowWindowSize = if a ≤ k then v else x.flowWindowSize := by
  have hbound := h.sent_bound
  have horder := h.order
  have hroom := h.room
  have hbehind := h.behind
  have hflow := h.flow
  have hacking := h.acking
  rw [hnone] at hacking
  obtain rfl : e = d := hacking
  have hvalid : ¬ seqcmp (seqOf k) (incseq x.sndCurrSeqNo) > 0 := by
    rw [h.curr, incseq_currSeq (by omega), gt_iff_lt, seqcmp_pos (hnear _ (by omega) (by omega))]
    omega
  have hnew : seqcmp (seqOf k) x.sndLastAck ≥ 0 ↔ a ≤ k := by
    rw [h.lastAck, ge_iff_le, seqcmp_nonneg (hnear _ (by omega) (by omega))]
  unfold Sender.processAck
  rw [if_neg hvalid]
  by_cases hak : a ≤ k
  · rw [if_pos (hnew.mpr hak), if_pos hak, max_eq_right hak]
    refine ⟨{ h with
      lastAck := rfl
      order := ⟨horder.1, by omega, hks⟩
      acking := ⟨k, le_rfl, rfl, hnear _ (by omega) (by omega), rfl⟩
      holding := h.holding.mono le_rfl (le_max_left e k) fun _ _ _ => rfl
      flow := by dsimp only; omega
      room := by omega
      behind := by omega }, rfl, rfl, rfl, rfl⟩
  · rw [if_neg fun hge => hak (hnew.mp hge), if_neg hak, max_eq_left (not_le.mp hak).le]
    refine ⟨{ h with
      acking := ⟨k, by omega, rfl, hnear _ (by omega) (by omega), rfl⟩
      holding := h.holding.mono le_rfl (le_max_left e k) fun _ _ _ => rfl
      flow := by dsimp only; omega
      room := by omega
      behind := by omega }, rfl, rfl, rfl, rfl⟩

/-- What is acknowledged leaves the buffer. -/
theorem acknowledge {ack : ℤ} (hsome : x.acking = some ack) :
    ∃ x' S', x.acknowledge ack = some x' ∧ x'.Means W first packets s a e e S' ∧ x.SameWork x' ∧ x'.acking = none := by
  have hW := h.window.1
  have hbound := h.sent_bound
  have horder := h.order
  have hacking := h.acking
  rw [hsome] at hacking
  obtain ⟨k, hka, rfl, hnear, he⟩ := hacking
  have hoffset : seqoff x.sndLastDataAck (seqOf k) = k - d := by
    rw [h.lastDataAck, seqoff_seqOf]
    rw [near_iff] at hnear ⊢
    omega
  unfold Sender.acknowledge
  simp only [hoffset]
  by_cases hkd : k - d ≤ 0
  · rw [if_pos hkd]
    obtain rfl : e = d := by omega
    exact ⟨_, S, rfl, { h with acking := rfl }, ⟨rfl, rfl, rfl⟩, rfl⟩
  · obtain rfl : e = k := by omega
    rw [if_neg hkd, decseq_seqOf]
    have hmem : ∀ i ∈ S, Near i (e - 1) := fun i hi => by
      have hlost := h.lost i hi
      exact h.near (by omega) (by omega)
    obtain ⟨l, hremove, hsize, hl⟩ := h.lossList.remove hmem
    rw [hremove]
    refine ⟨_, S.filter (e - 1 < ·), rfl, { h with
      lastDataAck := rfl
      order := ⟨by omega, hka, horder.2.2⟩
      buffer := ?_
      lossList := hl
      lossSize := hsize.trans h.lossSize
      lost := ?_
      acking := rfl
      holding := ?_
      behind := by omega }, ⟨rfl, rfl, rfl⟩, rfl⟩
    · have hbuffer := h.buffer.ackData (show (e - d).toNat ≤ (s + 1 - d).toNat by omega)
      rwa [List.drop_drop, show (d - first).toNat + (e - d).toNat = (e - first).toNat by omega,
        show (s + 1 - d).toNat - (e - d).toNat = (s + 1 - e).toNat by omega] at hbuffer
    · intro i hi
      rw [Finset.mem_filter] at hi
      have hlost := h.lost i hi.1
      omega
    · refine h.holding.mono (by omega) le_rfl fun i hei _ => ?_
      rw [SndBlocks.readDataAt_ackData]
      congr 1
      omega

/-- A lite ACK moves the window without changing its end. -/
theorem processLiteAck (hks : k ≤ s + 1) (hnear : ∀ n, s + 1 - 2 * W ≤ n → n ≤ s + 1 → Near k n) :
    (x.processLiteAck (seqOf k)).Means W first packets s (max a k) d e S ∧
      (x.processLiteAck (seqOf k)).sentTotal = x.sentTotal ∧
      (x.processLiteAck (seqOf k)).flowWindowSize = x.flowWindowSize - (max a k - a) := by
  have hbound := h.sent_bound
  have horder := h.order
  have hflow := h.flow
  have hka := hnear a (by omega) (by omega)
  unfold Sender.processLiteAck
  rw [h.lastAck]
  by_cases hak : a ≤ k
  · rw [if_pos ((seqcmp_nonneg hka).mpr hak), seqoff_seqOf hka.symm, max_eq_right hak]
    refine ⟨{ h with
      lastAck := rfl
      order := ⟨horder.1, by omega, hks⟩
      acking := ?_
      flow := by dsimp only; omega }, rfl, rfl⟩
    have hacking := h.acking
    cases hcase : x.acking with
    | none => rwa [hcase] at hacking
    | some ack =>
      rw [hcase] at hacking
      obtain ⟨n, hna, hrest⟩ := hacking
      exact ⟨n, hna.trans hak, hrest⟩
  · rw [if_neg fun hge => hak ((seqcmp_nonneg hka).mp hge), max_eq_left (not_le.mp hak).le]
    exact ⟨h, rfl, by omega⟩

/-- Indices between the buffer's first packet and the last one that was sent fit into the loss list. -/
theorem fits {T : Finset ℤ} (hT : ∀ i ∈ T, d ≤ i ∧ i ≤ s) : Fits x.sndLossList.size T := by
  have hbound := h.sent_bound
  intro i hi j hj
  have hlow := hT i hi
  have hhigh := hT j hj
  rw [h.lossSize]
  omega

/-- A loss report about packets that were sent is no attack. -/
theorem processNak {ns : List (ℤ × ℤ)} (hfs : first ≤ s)
    (hns : ∀ n ∈ ns, (n.1 ≤ n.2 ∧ n.2 ≤ s) ∧ s + 1 - n.1 < 0x3FFFFFFF) :
    ∃ x', x.processNak (reportOf ns) = some x' ∧
      x'.Means W first packets s a d e (S ∪ (covers ns).filter (a ≤ ·)) ∧ x.SameWork x' := by
  have hW := h.window.2
  rw [maxWindow] at hW
  have hbound := h.sent_bound
  have horder := h.order
  have hsize := h.lossSize
  have hthreshold : CSeqNo.threshold = 0x3FFFFFFF := rfl
  obtain ⟨l, hreport, hsame, hl⟩ := processLossReport_reportOf h.lossList h.lost horder.2.1 horder.2.2 (by omega)
    (by omega) hns
  rw [← currSeq_of_le hfs, ← h.curr, ← h.lastAck] at hreport
  unfold Sender.processNak
  rw [hreport]
  refine ⟨_, rfl, { h with
    lossList := hl
    lossSize := hsame.trans hsize
    lost := ?_
    sound := by rw [h.sound]; rfl }, rfl, rfl, rfl⟩
  intro i hi
  rw [Finset.mem_union, Finset.mem_filter, mem_covers] at hi
  rcases hi with hi | ⟨⟨n, hn, -, hin⟩, hai⟩
  · exact h.lost i hi
  · have hlast := (hns n hn).1.2
    omega

/-- When the timer expires all packets that were sent and not acknowledged are lost. -/
theorem expire :
    ∃ x', x.expire = some x' ∧ x'.Means W first packets s a d e (S ∪ interval a s) ∧ x.SameWork x' ∧
      x'.acking = x.acking := by
  have hbound := h.sent_bound
  have horder := h.order
  have hW := h.window.1
  have hsame : incseq x.sndCurrSeqNo = x.sndLastAck ↔ s + 1 = a := by
    rw [h.curr, incseq_currSeq (by omega), h.lastAck, seqOf_inj (h.near (by omega) (by omega))]
  unfold Sender.expire
  by_cases hall : s + 1 = a
  · rw [if_neg (not_not.mpr (hsame.mpr hall)), interval_empty (by omega), Finset.union_empty]
    exact ⟨x, rfl, h, ⟨rfl, rfl, rfl⟩, rfl⟩
  · rw [if_pos fun heq => hall (hsame.mp heq)]
    have hunion : ∀ i ∈ S ∪ interval a s, d ≤ i ∧ i ≤ s := by
      intro i hi
      rw [Finset.mem_union, mem_interval] at hi
      rcases hi with hi | hi
      · exact h.lost i hi
      · omega
    obtain ⟨l, hinsert, hsize, hl⟩ := h.lossList.insert (a := a) (b := s) (by omega) (h.fits hunion)
    rw [← h.lastAck, ← currSeq_of_le (show first ≤ s by omega), ← h.curr] at hinsert
    rw [hinsert]
    exact ⟨_, rfl, { h with lossList := hl, lossSize := hsize.trans h.lossSize, lost := hunion },
      ⟨rfl, rfl, rfl⟩, rfl⟩

end Means

end Sender

end Udtfs

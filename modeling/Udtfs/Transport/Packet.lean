import Udtfs.Lib.ByteOrder
import Udtfs.Transport.Handshake

/-!
# Packets on the wire

`CPacket` of `packet.cpp` and its way through `CChannel` of `channel.cpp`. A packet that one machine sends is read
as the same packet by any other, whatever the byte orders of the two; and every packet that is in the network of
a connection has such a form and fits into the buffer of the receiver.
-/

namespace Udtfs

open Transition ByteOrder

/-- `CPacket`: the four words of the header, and the payload or control information. -/
structure CPacket where
  /-- `m_nHeader[0]`, of which `m_iSeqNo` is an alias. -/
  seqNo : BitVec 32
  /-- `m_nHeader[1]`, of which `m_iMsgNo` is an alias. -/
  msgNo : BitVec 32
  timeStamp : BitVec 32
  id : BitVec 32
  data : Bytes
  deriving DecidableEq

namespace CPacket

/-- `getFlag`. -/
def getFlag (p : CPacket) : BitVec 32 := p.seqNo >>> 31

/-- `getType`. -/
def getType (p : CPacket) : BitVec 32 := (p.seqNo >>> 16) &&& 0x7FFF

/-- `getAckSeqNo`. -/
def getAckSeqNo (p : CPacket) : ℤ := p.msgNo.toInt

/-- `__pad`: `writev` does not allow an empty control information. -/
def pad : Bytes := [0, 0, 0, 0]

/-- `pack`; `none` when it uses a null pointer. What `rparam` points to is given as bytes. -/
def pack (p : CPacket) (pkttype : BitVec 32) (lparam : Option (BitVec 32)) (rparam : Option Bytes) : Option CPacket :=
  let p := { p with seqNo := 0x80000000 ||| (pkttype <<< 16) }
  match pkttype.toNat with
  | 2 => rparam.map fun info => { p with msgNo := lparam.getD p.msgNo, data := info }
  | 6 => lparam.map fun ackno => { p with msgNo := ackno, data := pad }
  | 0 | 3 => rparam.map fun info => { p with data := info }
  | 1 | 4 | 5 => some { p with data := pad }
  | 7 => lparam.bind fun msgno => rparam.map fun info => { p with msgNo := msgno, data := info }
  | 32767 => lparam.map fun extended => { p with seqNo := p.seqNo ||| extended, data := rparam.getD pad }
  | _ => some p

/-- The conversion of the header words. -/
def convertHeader (o : ByteOrder) (p : CPacket) : CPacket :=
  { p with
    seqNo := o.htonl p.seqNo
    msgNo := o.htonl p.msgNo
    timeStamp := o.htonl p.timeStamp
    id := o.htonl p.id }

/-- That of the control information. -/
def convertInfo (o : ByteOrder) (p : CPacket) : CPacket :=
  if p.getFlag ≠ 0 then { p with data := o.convert o.htonl p.data } else p

/-- The header in memory. -/
def header (o : ByteOrder) (p : CPacket) : Bytes := o.storeAll [p.seqNo, p.msgNo, p.timeStamp, p.id]

/-- `CChannel::sendto`: the datagram, and the packet afterwards. -/
def sendto (o : ByteOrder) (p : CPacket) : Bytes × CPacket :=
  let q := (p.convertInfo o).convertHeader o
  (q.header o ++ q.data, (q.convertHeader o).convertInfo o)

/-- `CChannel::recvfrom` into a packet with a buffer of the size `capacity`; `none` where the worker drops what has
come, because there is nothing behind the header. -/
def recvfrom (o : ByteOrder) (capacity : ℕ) (datagram : Bytes) : Option CPacket :=
  match o.words (datagram.take 16) with
  | [seqNo, msgNo, timeStamp, id] =>
    let data := (datagram.drop 16).take capacity
    if data = [] then none
    else some ((CPacket.mk seqNo msgNo timeStamp id data).convertHeader o |>.convertInfo o)
  | _ => none

variable {p q : CPacket} (o o' : ByteOrder)

/-! ## What `pack` has packed -/

/-- The flag of a control packet is set. -/
theorem flag_control (w : BitVec 32) : (0x80000000 ||| w) >>> 31 = 1 := by
  have hle : 2 ^ 31 ≤ (0x80000000 ||| w).toNat := by
    rw [BitVec.toNat_or]
    exact Nat.left_le_or
  have hlt := (0x80000000 ||| w).isLt
  apply BitVec.eq_of_toNat_eq
  rw [BitVec.toNat_ushiftRight, Nat.shiftRight_eq_div_pow]
  change _ / _ = 1
  omega

/-- The type of a control packet can be read back. -/
theorem type_control {t : BitVec 32} (ht : t.toNat < 2 ^ 15) : ((0x80000000 ||| (t <<< 16)) >>> 16) &&& 0x7FFF = t := by
  have hshift : (t <<< 16).toNat = t.toNat * 2 ^ 16 := by
    rw [BitVec.toNat_shiftLeft, Nat.shiftLeft_eq, Nat.mod_eq_of_lt (by omega)]
  have hword : (0x80000000 ||| (t <<< 16)).toNat = 2 ^ 31 + t.toNat * 2 ^ 16 := by
    rw [BitVec.toNat_or, hshift]
    exact (Nat.two_pow_add_eq_or_of_lt (show t.toNat * 2 ^ 16 < 2 ^ 31 by omega) 1).symm
  apply BitVec.eq_of_toNat_eq
  rw [BitVec.toNat_and, BitVec.toNat_ushiftRight, hword, Nat.shiftRight_eq_div_pow]
  change (2 ^ 31 + t.toNat * 2 ^ 16) / 2 ^ 16 &&& 2 ^ 15 - 1 = t.toNat
  rw [Nat.and_two_pow_sub_one_eq_mod]
  omega

/-- Extended information leaves a type of ones as it is. -/
theorem type_extended (e : BitVec 32) : ((0x80000000 ||| (0x7FFF <<< 16) ||| e) >>> 16) &&& 0x7FFF = (0x7FFF : BitVec 32) := by
  have habsorb (w m : BitVec 32) : m ||| (w &&& m) = m := by
    ext i hi
    simp
  rw [BitVec.ushiftRight_or_distrib, BitVec.and_or_distrib_right]
  exact habsorb _ _

/-- A control packet tells its type. -/
theorem pack_type {pkttype : BitVec 32} {lparam : Option (BitVec 32)} {rparam : Option Bytes}
    (htype : pkttype.toNat < 2 ^ 15) (h : p.pack pkttype lparam rparam = some q) :
    q.getFlag = 1 ∧ q.getType = pkttype := by
  have hplain : q.seqNo = 0x80000000 ||| (pkttype <<< 16) → q.getFlag = 1 ∧ q.getType = pkttype := fun hseqNo => by
    rw [getFlag, getType, hseqNo]
    exact ⟨flag_control _, type_control htype⟩
  unfold pack at h
  dsimp only at h
  split at h
  case h_9 hcode =>
    obtain ⟨e, -, rfl⟩ := Option.map_eq_some_iff.mp h
    obtain rfl : pkttype = 0x7FFF := BitVec.eq_of_toNat_eq hcode
    refine ⟨?_, type_extended e⟩
    rw [getFlag, BitVec.or_assoc]
    exact flag_control _
  case h_8 =>
    obtain ⟨msgno, -, hinfo⟩ := Option.bind_eq_some_iff.mp h
    obtain ⟨info, -, rfl⟩ := Option.map_eq_some_iff.mp hinfo
    exact hplain rfl
  case h_1 | h_2 | h_3 | h_4 =>
    obtain ⟨_, -, rfl⟩ := Option.map_eq_some_iff.mp h
    exact hplain rfl
  all_goals
    obtain rfl := Option.some.inj h
    exact hplain rfl

/-! ## The channel -/

/-- Converting the header twice changes nothing. -/
@[simp] theorem convertHeader_convertHeader (p : CPacket) : (p.convertHeader o).convertHeader o = p := by
  simp [convertHeader]

/-- Converting the control information keeps the flag. -/
theorem convertInfo_flag (p : CPacket) : (p.convertInfo o).getFlag = p.getFlag := by
  unfold convertInfo
  split <;> rfl

/-- Converting it twice changes nothing. -/
@[simp] theorem convertInfo_convertInfo (p : CPacket) : (p.convertInfo o).convertInfo o = p := by
  rw [convertInfo, convertInfo_flag]
  unfold convertInfo
  split
  · simp [convert_convert]
  · rfl

/-- Sending restores the packet. -/
theorem sendto_packet (p : CPacket) : (p.sendto o).2 = p := by
  simp [sendto]

/-- A converted header is in network byte order. -/
theorem header_convertHeader (p : CPacket) : (p.convertHeader o).header o = big.storeAll [p.seqNo, p.msgNo, p.timeStamp, p.id] :=
  storeAll_htonl o [p.seqNo, p.msgNo, p.timeStamp, p.id]

/-- The control information is all that is converted, and its length stays. -/
theorem convertInfo_header (p : CPacket) :
    (p.convertInfo o).seqNo = p.seqNo ∧ (p.convertInfo o).msgNo = p.msgNo ∧ (p.convertInfo o).timeStamp = p.timeStamp ∧
      (p.convertInfo o).id = p.id ∧ (p.convertInfo o).data.length = p.data.length := by
  unfold convertInfo
  split
  · exact ⟨rfl, rfl, rfl, rfl, convert_length o _ _⟩
  · exact ⟨rfl, rfl, rfl, rfl, rfl⟩

/-- The datagram is the same, whatever the order of the machine. -/
theorem sendto_datagram (p : CPacket) :
    (p.sendto o).1 = big.storeAll [p.seqNo, p.msgNo, p.timeStamp, p.id] ++ (p.convertInfo o).data := by
  obtain ⟨hseqNo, hmsgNo, htime, hid, -⟩ := convertInfo_header o p
  change ((p.convertInfo o).convertHeader o).header o ++ (p.convertInfo o).data = _
  rw [header_convertHeader, hseqNo, hmsgNo, htime, hid]

/-- **The wire.** A packet with something behind its header that fits into the buffer of the receiver arrives as it
was sent: the header and a payload unchanged, control information as the same words in the order of the receiver. -/
theorem recvfrom_sendto {capacity : ℕ} (hdata : p.data ≠ []) (hfits : p.data.length ≤ capacity) :
    ∃ q, recvfrom o' capacity (p.sendto o).1 = some q ∧
      (q.seqNo = p.seqNo ∧ q.msgNo = p.msgNo ∧ q.timeStamp = p.timeStamp ∧ q.id = p.id) ∧
      (p.getFlag = 0 → q.data = p.data) ∧
      (p.getFlag ≠ 0 → o'.words q.data = o.words p.data ∧ q.data.length = p.data.length) := by
  have hlength := (convertInfo_header o p).2.2.2.2
  have hheader : (big.storeAll [p.seqNo, p.msgNo, p.timeStamp, p.id]).length = 16 := storeAll_length big _
  have hsome : (p.convertInfo o).data ≠ [] := by
    rw [← List.length_pos_iff, hlength, List.length_pos_iff]
    exact hdata
  have htake : (p.convertInfo o).data.take capacity = (p.convertInfo o).data :=
    List.take_of_length_le (hlength.trans_le hfits)
  rw [sendto_datagram, recvfrom, List.take_left' hheader, List.drop_left' hheader, words_storeAll_big, htake]
  simp only [List.map_cons, List.map_nil, if_neg hsome, convertHeader, htonl_htonl]
  refine ⟨_, rfl, ?_, fun hflag => ?_, fun hflag => ?_⟩
  · obtain ⟨hseqNo, hmsgNo, htime, hid, -⟩ :=
      convertInfo_header o' ⟨p.seqNo, p.msgNo, p.timeStamp, p.id, (p.convertInfo o).data⟩
    exact ⟨hseqNo, hmsgNo, htime, hid⟩
  · have hplain : p.convertInfo o = p := if_neg (not_not.mpr hflag)
    rw [hplain]
    exact congrArg CPacket.data (if_neg (not_not.mpr hflag))
  · have hconvert : p.convertInfo o = { p with data := o.convert o.htonl p.data } := if_pos hflag
    have hback : convertInfo o' ⟨p.seqNo, p.msgNo, p.timeStamp, p.id, (p.convertInfo o).data⟩ =
        ⟨p.seqNo, p.msgNo, p.timeStamp, p.id, o'.convert o'.htonl (p.convertInfo o).data⟩ := if_pos hflag
    rw [hback, hconvert]
    refine ⟨words_convert_convert o o' p.data, ?_⟩
    rw [convert_length, convert_length]

/-- What the receiving worker makes of a packet, in `processData` and `processCtrl`. -/
def interpret (o : ByteOrder) (p : CPacket) : Option NetPacket :=
  if p.getFlag = 0 then some (.data p.seqNo.toInt p.data)
  else
    let word (i : ℕ) := ((o.words p.data).getD i 0).toInt
    match p.getType.toNat with
    | 2 => some (if p.data.length = 4 then .liteAck (word 0) else .ack ⟨p.getAckSeqNo, word 0, word 3⟩)
    | 3 => some (.nak (o.words p.data))
    | 6 => some (.ack2 p.getAckSeqNo)
    | _ => none

end CPacket

/-! ## The packets of a connection -/

/-- What the packets carry that the connection does not depend on. -/
structure Unmodelled where
  /-- A packet before it is packed. -/
  fresh : CPacket
  peerId : BitVec 32
  timeStamp : BitVec 32
  rtt : BitVec 32
  rttVar : BitVec 32
  /-- The packet arrival speed and the bandwidth, where an ACK reports them. -/
  rates : Option (BitVec 32 × BitVec 32)

namespace NetPacket

/-- How `packData` and `sendCtrl` pack what is sent. -/
def pack (o : ByteOrder) (x : Unmodelled) : NetPacket → Option CPacket
  | .data seqno payload =>
    some { x.fresh with seqNo := seqWord seqno, timeStamp := x.timeStamp, id := x.peerId, data := payload }
  | .ack info =>
    let rates := match x.rates with
      | none => []
      | some (speed, bandwidth) => [speed, bandwidth]
    let data := [seqWord info.ack, x.rtt, x.rttVar, seqWord info.flowWindow] ++ rates
    (x.fresh.pack 2 (some (seqWord info.ackno)) (some (o.storeAll data))).map fun p => { p with id := x.peerId }
  | .liteAck seqno => (x.fresh.pack 2 none (some (o.storeAll [seqWord seqno]))).map fun p => { p with id := x.peerId }
  | .nak losslist => (x.fresh.pack 3 none (some (o.storeAll losslist))).map fun p => { p with id := x.peerId }
  | .ack2 ackno => (x.fresh.pack 6 (some (seqWord ackno)) none).map fun p => { p with id := x.peerId }

/-- A number that is not negative in 32 bits. -/
def InRange (n : ℤ) : Prop := 0 ≤ n ∧ n ≤ 0x7FFFFFFF

/-- A packet has something behind the header, which fits into a buffer. -/
def Fits (capacity : ℕ) : NetPacket → Prop
  | .data seqno payload => InRange seqno ∧ payload ≠ [] ∧ payload.length ≤ capacity
  | .ack info => InRange info.ackno ∧ InRange info.ack ∧ InRange info.flowWindow
  | .liteAck seqno => InRange seqno
  | .nak losslist => losslist ≠ [] ∧ 4 * losslist.length ≤ capacity
  | .ack2 ackno => InRange ackno

variable {o o' : ByteOrder} {capacity : ℕ}

/-- The highest bit of a sequence number is not set. -/
theorem flag_seqWord {n : ℤ} (h : InRange n) : seqWord n >>> 31 = 0 := by
  have hword := toNat_seqWord h.1 h.2
  have hle := h.2
  apply BitVec.eq_of_toNat_eq
  rw [BitVec.toNat_ushiftRight, hword, Nat.shiftRight_eq_div_pow]
  change _ / _ = 0
  omega

/-- Control information that is packed on one machine arrives as the same words on another. -/
theorem control_wire {fresh p : CPacket} {pkttype : BitVec 32} {lparam : Option (BitVec 32)} {rparam : Option Bytes}
    (htype : pkttype.toNat < 2 ^ 15) (hpack : fresh.pack pkttype lparam rparam = some p) (id : BitVec 32)
    (hdata : p.data ≠ []) (hfits : p.data.length ≤ capacity) :
    ∃ q, CPacket.recvfrom o' capacity (CPacket.sendto o { p with id := id }).1 = some q ∧ q.id = id ∧ q.getFlag ≠ 0 ∧
      q.getType = pkttype ∧ q.getAckSeqNo = p.msgNo.toInt ∧ o'.words q.data = o.words p.data ∧
      q.data.length = p.data.length := by
  obtain ⟨hflag, htype⟩ := CPacket.pack_type htype hpack
  have hcontrol : p.getFlag ≠ 0 := by
    rw [hflag]
    decide
  obtain ⟨q, hq, ⟨hseqNo, hmsgNo, -, hid⟩, -, hwords⟩ :=
    CPacket.recvfrom_sendto o o' (p := { p with id := id }) hdata hfits
  have hsame : q.getFlag = p.getFlag ∧ q.getType = p.getType := by
    rw [CPacket.getFlag, CPacket.getFlag, CPacket.getType, CPacket.getType, hseqNo]
    exact ⟨rfl, rfl⟩
  exact ⟨q, hq, hid, hsame.1 ▸ hcontrol, hsame.2.trans htype, congrArg BitVec.toInt hmsgNo, hwords hcontrol⟩

/-- The words of a report arrive. -/
theorem report_wire {fresh p : CPacket} {pkttype : BitVec 32} {lparam : Option (BitVec 32)} {ws : List (BitVec 32)}
    (htype : pkttype.toNat < 2 ^ 15) (hpack : fresh.pack pkttype lparam (some (o.storeAll ws)) = some p)
    (hdata : p.data = o.storeAll ws) (id : BitVec 32) (hsome : ws ≠ []) (hfits : 4 * ws.length ≤ capacity) :
    ∃ q, CPacket.recvfrom o' capacity (CPacket.sendto o { p with id := id }).1 = some q ∧ q.id = id ∧ q.getFlag ≠ 0 ∧
      q.getType = pkttype ∧ q.getAckSeqNo = p.msgNo.toInt ∧ o'.words q.data = ws ∧ q.data.length = 4 * ws.length := by
  have hlength : p.data.length = 4 * ws.length := by rw [hdata, storeAll_length]
  have hpos := List.length_pos_iff.mpr hsome
  obtain ⟨q, hq, hid, hcontrol, htype, hackno, hwords, hsize⟩ := @control_wire o o' capacity _ _ _ _ _ htype hpack id
    (List.ne_nil_of_length_pos (by omega)) (hlength.trans_le hfits)
  exact ⟨q, hq, hid, hcontrol, htype, hackno, by rw [hwords, hdata, words_storeAll], hsize.trans hlength⟩

/-- **What is sent is what arrives**: each packet of a connection that fits is packed, carried and read as itself,
whatever the byte orders of the two machines. -/
theorem wire {packet : NetPacket} (hfits : packet.Fits capacity) (hcapacity : 24 ≤ capacity) (x : Unmodelled) :
    ∃ p q, packet.pack o x = some p ∧ CPacket.recvfrom o' capacity (p.sendto o).1 = some q ∧ q.id = x.peerId ∧
      q.interpret o' = some packet := by
  cases packet with
  | data seqno payload =>
    obtain ⟨hseqno, hsome, hle⟩ := hfits
    obtain ⟨q, hq, ⟨hseqNo, -, -, hid⟩, hdata, -⟩ := @CPacket.recvfrom_sendto
      { x.fresh with seqNo := seqWord seqno, timeStamp := x.timeStamp, id := x.peerId, data := payload } o o' capacity
      hsome hle
    have hflag : q.getFlag = 0 := by
      rw [CPacket.getFlag, hseqNo]
      exact flag_seqWord hseqno
    refine ⟨_, q, rfl, hq, hid, ?_⟩
    rw [CPacket.interpret, if_pos hflag, hseqNo, hdata (flag_seqWord hseqno)]
    dsimp only
    rw [toInt_seqWord hseqno.1 hseqno.2]
  | ack info =>
    obtain ⟨hackno, hack, hflow⟩ := hfits
    obtain ⟨rates, hrates, hpack⟩ : ∃ rates : List (BitVec 32), rates.length ≤ 2 ∧ pack o x (.ack info) =
        (x.fresh.pack 2 (some (seqWord info.ackno))
          (some (o.storeAll ([seqWord info.ack, x.rtt, x.rttVar, seqWord info.flowWindow] ++ rates)))).map
            fun p => { p with id := x.peerId } := by
      cases hcase : x.rates with
      | none => exact ⟨[], Nat.zero_le 2, by rw [pack, hcase]⟩
      | some rates => exact ⟨[rates.1, rates.2], le_rfl, by rw [pack, hcase]⟩
    obtain ⟨q, hq, hid, hcontrol, htype, hackSeqNo, hwords, hsize⟩ :=
      @report_wire o o' capacity x.fresh _ 2 (some (seqWord info.ackno))
        ([seqWord info.ack, x.rtt, x.rttVar, seqWord info.flowWindow] ++ rates) (by decide) rfl rfl x.peerId
        (List.cons_ne_nil _ _) (by simp only [List.cons_append, List.nil_append, List.length_cons]; omega)
    refine ⟨_, q, hpack, hq, hid, ?_⟩
    have hlong : ¬ q.data.length = 4 := by
      simp only [hsize, List.cons_append, List.nil_append, List.length_cons]
      omega
    rw [CPacket.interpret, if_neg hcontrol, htype, hwords, hackSeqNo]
    change some (if q.data.length = 4 then _ else NetPacket.ack ⟨(seqWord info.ackno).toInt, (seqWord info.ack).toInt,
      (seqWord info.flowWindow).toInt⟩) = _
    rw [if_neg hlong, toInt_seqWord hackno.1 hackno.2, toInt_seqWord hack.1 hack.2, toInt_seqWord hflow.1 hflow.2]
  | liteAck seqno =>
    obtain ⟨q, hq, hid, hcontrol, htype, -, hwords, hsize⟩ := @report_wire o o' capacity x.fresh _ 2 none
      [seqWord seqno] (by decide) rfl rfl x.peerId (List.cons_ne_nil _ _) ((by decide : 4 ≤ 24).trans hcapacity)
    refine ⟨_, q, rfl, hq, hid, ?_⟩
    rw [CPacket.interpret, if_neg hcontrol, htype, hwords]
    change some (if q.data.length = 4 then NetPacket.liteAck (seqWord seqno).toInt else _) = _
    rw [if_pos (show q.data.length = 4 from hsize), toInt_seqWord hfits.1 hfits.2]
  | nak losslist =>
    obtain ⟨q, hq, hid, hcontrol, htype, -, hwords, -⟩ := @report_wire o o' capacity x.fresh _ 3 none
      losslist (by decide) rfl rfl x.peerId hfits.1 hfits.2
    refine ⟨_, q, rfl, hq, hid, ?_⟩
    rw [CPacket.interpret, if_neg hcontrol, htype, hwords]
    rfl
  | ack2 ackno =>
    obtain ⟨q, hq, hid, hcontrol, htype, hackSeqNo, -, -⟩ := @control_wire o o' capacity x.fresh _ 6
      (some (seqWord ackno)) none (by decide) rfl x.peerId (List.cons_ne_nil _ _) ((by decide : 4 ≤ 24).trans hcapacity)
    refine ⟨_, q, rfl, hq, hid, ?_⟩
    rw [CPacket.interpret, if_neg hcontrol, htype, hackSeqNo]
    change some (NetPacket.ack2 (seqWord ackno).toInt) = _
    rw [toInt_seqWord hfits.1 hfits.2]

end NetPacket

namespace Connection

variable {c c' : Connection} {W V first : ℤ} {event : ConnEvent} {k : ℕ}

/-- How long a packet is, and that an acknowledgement of an ACK has the number of one. -/
def Bounded (k : ℕ) : NetPacket → Prop
  | .data _ payload => payload ≠ [] ∧ payload.length ≤ k
  | .nak losslist => 4 * losslist.length ≤ k
  | .ack2 ackno => NetPacket.InRange ackno
  | _ => True

/-- Both sides have the payload size `k`, and no packet is longer. -/
structure Sized (k : ℕ) (c : Connection) : Prop where
  snd : c.snd.payloadSize = k
  rcv : c.rcv.payloadSize = k
  net : ∀ m ∈ c.net, Bounded k m.packet

/-- A packet that is not too long can be sent. -/
theorem Sized.post {packet : NetPacket} (hc : Sized k c) (hpacket : Bounded k packet) : Sized k (c.post packet) where
  snd := hc.snd
  rcv := hc.rcv
  net m hm := by
    rcases List.mem_cons.mp hm with rfl | hm
    · exact hpacket
    · exact hc.net m hm

/-- So can a reply. -/
theorem Sized.reply {packet : Option NetPacket} (hc : Sized k c) (hpacket : ∀ p ∈ packet, Bounded k p) :
    Sized k (c.reply packet) := by
  cases packet with
  | none => exact hc
  | some packet => exact hc.post (hpacket packet rfl)

/-- What the sender is told changes nothing of this. -/
theorem Sized.snd_step {x : Sender} {queued : Bytes} (hc : Sized k c) (hx : x.payloadSize = c.snd.payloadSize) :
    Sized k { c with snd := x, queued := queued } :=
  ⟨hx.trans hc.snd, hc.rcv, hc.net⟩

/-- The receiver may go on with its payload size. -/
theorem Sized.rcv_step {y : Receiver} {delivered : Bytes} (hc : Sized k c) (hy : y.payloadSize = c.rcv.payloadSize) :
    Sized k { c with rcv := y, delivered := delivered } :=
  ⟨hc.snd, hy.trans hc.rcv, hc.net⟩

/-- The numbers in what is sent. -/
theorem Inv.inRange (hc : Inv W V first c) {m : InFlight} (hm : m ∈ c.net) :
    match m.packet with
    | .data seqno _ => NetPacket.InRange seqno
    | .ack info => NetPacket.InRange info.ackno ∧ NetPacket.InRange info.ack ∧ NetPacket.InRange info.flowWindow
    | .liteAck seqno => NetPacket.InRange seqno
    | .nak losslist => losslist ≠ []
    | .ack2 _ => True := by
  obtain ⟨packets, s, a, d, e, S, r, q, h, T, R, g, j, hlinked⟩ := hc
  obtain ⟨t, -, -, -, hsays⟩ := hlinked.net m hm
  have hseq : ∀ n, NetPacket.InRange (seqOf n) := SerialNumber.wrap_bounds CSeqNo.valid
  have hwindow := hlinked.snd.window.2
  rw [Sender.maxWindow] at hwindow
  cases hpacket : m.packet with
  | data seqno payload =>
    rw [hpacket] at hsays
    obtain ⟨i, rfl, -⟩ := hsays
    exact hseq i
  | ack info =>
    rw [hpacket] at hsays
    obtain ⟨hackno, hack, -, hlow, hhigh⟩ := hsays
    exact ⟨hackno ▸ SerialNumber.wrap_bounds CSeqNo.valid _, hack ▸ hseq _, by omega, by omega⟩
  | liteAck seqno =>
    rw [hpacket] at hsays
    obtain ⟨n, rfl, -⟩ := hsays
    exact hseq n
  | nak losslist =>
    rw [hpacket] at hsays
    obtain ⟨ns, rfl, hne, -⟩ := hsays
    exact reportOf_ne_nil hne
  | ack2 ackno => trivial

/-- An arrival keeps it. -/
theorem Sized.receive {m : InFlight} {late : Bool} {rtt : ℤ} (hc : Sized k c) (hinv : Inv W V first c) (hk : 32 ≤ k)
    (hm : m ∈ c.net) (hact : c.receive m.packet late rtt = some c') : Sized k c' := by
  simp only [Connection.receive] at hact
  split at hact
  · obtain ⟨⟨y, report⟩, hy, hafter⟩ := Option.bind_eq_some_iff.mp hact
    obtain rfl := Option.some.inj hafter
    obtain ⟨hsize, hlength⟩ := Receiver.processData_payloadSize _ hy
    refine Sized.reply (hc.rcv_step hsize) fun p hp => ?_
    obtain ⟨words, hwords, rfl⟩ := Option.map_eq_some_iff.mp hp
    have htwo := hlength words hwords
    change 4 * words.length ≤ k
    omega
  · next info hpacket =>
    obtain rfl := Option.some.inj hact
    have hackno := hinv.inRange hm
    rw [hpacket] at hackno
    split
    · exact Sized.post (hc.snd_step (Sender.processAck_payloadSize _ _ _ _ _)) hackno.1
    · exact hc.snd_step (Sender.processAck_payloadSize _ _ _ _ _)
  · obtain rfl := Option.some.inj hact
    exact hc.snd_step (Sender.processLiteAck_payloadSize _ _)
  · obtain ⟨x, hx, hafter⟩ := Option.bind_eq_some_iff.mp hact
    obtain rfl := Option.some.inj hafter
    exact hc.snd_step (Sender.processNak_payloadSize _ hx)
  · obtain rfl := Option.some.inj hact
    exact hc.rcv_step (Receiver.processAck2_payloadSize _ _ _)

/-- Each step keeps it. -/
theorem Sized.step (hc : Sized k c) (hinv : Inv W V first c) (hk : 32 ≤ k) (hstep : c.Step event c') : Sized k c' := by
  obtain ⟨henabled, hact⟩ := hstep
  cases event with
  | send data =>
    obtain rfl := Option.some.inj hact
    exact hc.snd_step (Sender.send_payloadSize _ _)
  | sendfile file unitsize =>
    obtain rfl := Option.some.inj hact
    exact hc.snd_step rfl
  | packData cwnd =>
    obtain rfl := Option.some.inj hact
    exact hc.snd_step (Sender.packData_payloadSize _ _)
  | transmit payload =>
    obtain ⟨seqno, block, hpacking, hpayload, -⟩ := henabled
    simp only [Connection.act, hpacking] at hact
    obtain rfl := Option.some.inj hact
    exact Sized.post (hc.snd_step rfl) (by rwa [hc.snd] at hpayload)
  | acknowledge =>
    simp only [Connection.act] at hact
    split at hact
    · obtain rfl := Option.some.inj hact
      exact hc
    · obtain ⟨x, hx, rfl⟩ := Option.map_eq_some_iff.mp hact
      exact hc.snd_step (Sender.acknowledge_payloadSize _ hx)
  | expire =>
    obtain ⟨x, hx, rfl⟩ := Option.map_eq_some_iff.mp hact
    exact hc.snd_step (Sender.expire_payloadSize _ hx)
  | sendAck old =>
    obtain rfl := Option.some.inj hact
    refine Sized.reply (hc.rcv_step (Receiver.sendAck_payloadSize _ _)) fun p hp => ?_
    obtain ⟨info, -, rfl⟩ := Option.map_eq_some_iff.mp hp
    trivial
  | sendLiteAck =>
    obtain rfl := Option.some.inj hact
    refine hc.reply fun p hp => ?_
    obtain ⟨seqno, -, rfl⟩ := Option.map_eq_some_iff.mp hp
    trivial
  | sendNak =>
    obtain ⟨report, hreport, rfl⟩ := Option.map_eq_some_iff.mp hact
    refine hc.reply fun p hp => ?_
    obtain ⟨words, hwords, rfl⟩ := Option.map_eq_some_iff.mp hp
    obtain ⟨packets, s, a, d, e, S, r, q, h, T, R, g, j, hlinked⟩ := hinv
    obtain ⟨report', hresult, hspec⟩ := hlinked.rcv.sendNak
    obtain rfl := Option.some.inj (hreport.symm.trans hresult)
    have hlength := (hspec words hwords).1
    rwa [hc.rcv] at hlength
  | recv len =>
    obtain ⟨⟨y, out⟩, hy, rfl⟩ := Option.map_eq_some_iff.mp hact
    exact hc.rcv_step (Receiver.recv_payloadSize _ hy)
  | deliver m late rtt => exact hc.receive hinv hk henabled.1 hact

/-- So every packet in the network fits. -/
theorem Sized.fits (hc : Sized k c) (hinv : Inv W V first c) {m : InFlight} (hm : m ∈ c.net) : m.packet.Fits k := by
  have hbounded := hc.net m hm
  have hrange := hinv.inRange hm
  cases hpacket : m.packet with
  | data | nak =>
    rw [hpacket] at hbounded hrange
    exact ⟨hrange, hbounded⟩
  | ack | liteAck =>
    rw [hpacket] at hrange
    exact hrange
  | ack2 =>
    rw [hpacket] at hbounded
    exact hbounded

/-- **The network carries what it is taken to carry.** In every run of a connection each packet that was ever sent is
built by `pack`, fits into the units of the receiver, and comes out of `recvfrom` as itself, for the socket that
it is meant for, whatever the byte orders of the two machines. -/
theorem packets_arrive {client server : Options} {isn : ℤ} {events : List ConnEvent}
    (h : Established client server isn c) (hclient : client.Valid) (hserver : server.Valid)
    (hisn : 0 ≤ isn ∧ isn ≤ 0x7FFFFFFF) (hrun : Run Step c events c') :
    ∀ m ∈ c'.net, ∀ (o o' : ByteOrder) (x : Unmodelled), ∃ p q, m.packet.pack o x = some p ∧
      CPacket.recvfrom o' c'.rcv.payloadSize (p.sendto o).1 = some q ∧ q.id = x.peerId ∧
        q.interpret o' = some m.packet := by
  obtain ⟨payloadSize, sndBufSize, W, V, flightFlagSize, m, rfl, hpayload, ⟨hV, hVW, hW⟩, hflight, hsize⟩ :=
    h.opened hclient hserver hisn
  have hstart := inv_opened (show 0 < payloadSize by omega) sndBufSize isn m hV hVW hW hflight hsize
  have hsized : Sized payloadSize (Connection.opened payloadSize sndBufSize W V flightFlagSize (seqOf isn) m) :=
    ⟨rfl, rfl, by simp [Connection.opened]⟩
  obtain ⟨hinv, hafter⟩ := @Run.invariant _ _ Step (fun c => Inv W V isn c ∧ Sized payloadSize c)
    (fun _ _ _ hc hstep => ⟨hc.1.step hstep, hc.2.step hc.1 hpayload hstep⟩) _ _ _ hrun ⟨hstart, hsized⟩
  intro m hm o o' x
  rw [hafter.rcv]
  exact NetPacket.wire (hafter.fits hinv hm) (by omega) x

/-- So do those of the run above. -/
theorem packets_arrive_hello :
    ∃ c', Run Step helloStart helloEvents c' ∧ c'.net ≠ [] ∧
      ∀ m ∈ c'.net, ∀ (o o' : ByteOrder) (x : Unmodelled), ∃ p q, m.packet.pack o x = some p ∧
        CPacket.recvfrom o' c'.rcv.payloadSize (p.sendto o).1 = some q ∧ q.id = x.peerId ∧
          q.interpret o' = some m.packet := by
  obtain ⟨c', hrun, -, -, -, hnet⟩ := hello_run
  have hsteps := hrun.mono fun _ _ _ hstep => hstep.1
  exact ⟨c', hsteps, hnet, packets_arrive hello_established default_valid default_valid (by decide) hsteps⟩

end Connection

end Udtfs

import Udtfs.Transport.AckWindow
import Udtfs.Transport.LossReport
import Udtfs.Transport.RcvBuffer

/-!
# The receiving side

`CUDT` of `core.cpp` as far as it receives data. The receiving worker stores packets in `processData`,
answers with acknowledgements and loss reports in `sendCtrl`, and handles acknowledgements of
acknowledgements; the application reads in `recv`.
-/

namespace Udtfs

open Spans LossArrays

/-- The receiving side of `CUDT`. -/
structure Receiver where
  /-- `m_iPayloadSize`. -/
  payloadSize : ℕ
  rcvLastAck : ℤ
  rcvLastAckAck : ℤ
  rcvCurrSeqNo : ℤ
  /-- `m_iAckSeqNo`. -/
  ackSeqNo : ℤ
  /-- `m_iSentACKTotal`. -/
  sentAckTotal : ℕ
  rcvBuffer : RcvBuffer
  rcvLossList : RcvLossList
  ackWindow : AckWindow

namespace Receiver

/-- The receiver of a new connection. The arrays of the lists are not initialized. -/
def init (payloadSize : ℕ) (rcvBufSize flightFlagSize isn : ℤ) (next prior : ℤ → ℤ) (seqs acks : ℕ → ℤ) :
    Receiver where
  payloadSize := payloadSize
  rcvLastAck := isn
  rcvLastAckAck := isn
  rcvCurrSeqNo := isn - 1
  ackSeqNo := 0
  sentAckTotal := 0
  rcvBuffer := RcvBuffer.init rcvBufSize
  rcvLossList := RcvLossList.init next prior flightFlagSize
  ackWindow := AckWindow.init seqs acks 4096

/-- `processData`: the receiver afterwards and the loss report that is sent at once. -/
def processData (y : Receiver) (seqno : ℤ) (data : Bytes) : Option (Receiver × Option (List (BitVec 32))) :=
  let offset := seqoff y.rcvLastAck seqno
  if offset < 0 ∨ offset ≥ y.rcvBuffer.getAvailBufSize then some (y, none)
  else
    let added := y.rcvBuffer.addData data offset
    if added.2 < 0 then some ({ y with rcvBuffer := added.1 }, none)
    else
      let lost := incseq y.rcvCurrSeqNo
      let gap := seqcmp seqno lost > 0
      let l := if gap then y.rcvLossList.insert lost (decseq seqno) else y.rcvLossList
      let report := if gap then some (spanWords lost (decseq seqno)) else none
      if seqcmp seqno y.rcvCurrSeqNo > 0 then
        some ({ y with rcvBuffer := added.1, rcvLossList := l, rcvCurrSeqNo := seqno }, report)
      else do
        let (l, _) ← l.remove seqno
        some ({ y with rcvBuffer := added.1, rcvLossList := l }, report)

/-- The number up to which all packets have been received. -/
def ackNumber (y : Receiver) : ℤ :=
  if y.rcvLossList.getLossLength = 0 then incseq y.rcvCurrSeqNo else y.rcvLossList.getFirstLostSeq

/-- What an ACK carries: its own number, the acknowledged number and the flow window. -/
structure AckInfo where
  ackno : ℤ
  ack : ℤ
  flowWindow : ℤ
  deriving DecidableEq

/-- The end of `sendCtrl` for an ACK: it is sent unless the sender has received it before. -/
def reportAck (y : Receiver) : Receiver × Option AckInfo :=
  if seqcmp y.rcvLastAck y.rcvLastAckAck > 0 then
    let ackno := incack y.ackSeqNo
    let avail := y.rcvBuffer.getAvailBufSize
    ({ y with
      ackSeqNo := ackno
      sentAckTotal := y.sentAckTotal + 1
      ackWindow := y.ackWindow.store ackno y.rcvLastAck },
      some ⟨ackno, y.rcvLastAck, if avail < 2 then 2 else avail⟩)
  else (y, none)

/-- `sendCtrl` for an ACK; one that says nothing new is only repeated when the last one is `old` enough. -/
def sendAck (y : Receiver) (old : Bool) : Receiver × Option AckInfo :=
  let ack := y.ackNumber
  if ack = y.rcvLastAckAck then (y, none)
  else if seqcmp ack y.rcvLastAck > 0 then
    reportAck { y with rcvLastAck := ack, rcvBuffer := y.rcvBuffer.ackData (seqoff y.rcvLastAck ack) }
  else if ack = y.rcvLastAck then if old then y.reportAck else (y, none)
  else (y, none)

/-- `sendCtrl` for a lite ACK. -/
def sendLiteAck (y : Receiver) : Option ℤ := if y.ackNumber = y.rcvLastAckAck then none else some y.ackNumber

/-- `sendCtrl` for a loss report from the loss list. -/
def sendNak (y : Receiver) : Option (Option (List (BitVec 32))) :=
  if y.rcvLossList.getLossLength > 0 then do
    let words ← y.rcvLossList.getLossArray (y.payloadSize / 4 : ℕ)
    some (if words.length > 0 then some words else none)
  else some none

/-- `processCtrl` for an acknowledgement of an ACK, which took the time `rtt`. -/
def processAck2 (y : Receiver) (ackno rtt : ℤ) : Receiver :=
  match y.ackWindow.acknowledge ackno with
  | none => y
  | some (w, ack) =>
    if rtt ≤ 0 then { y with ackWindow := w }
    else { y with ackWindow := w, rcvLastAckAck := if seqcmp ack y.rcvLastAckAck > 0 then ack else y.rcvLastAckAck }

/-- `recv`, without waiting for data. -/
def recv (y : Receiver) (len : ℕ) : Option (Receiver × Bytes) :=
  if y.rcvBuffer.getRcvDataSize = 0 then some (y, [])
  else do
    let (b, out) ← y.rcvBuffer.readBuffer len
    some ({ y with rcvBuffer := b }, out)

/-! ## The payload size stays as it is -/

section
variable (y : Receiver)

/-- A packet is answered with one interval at most. -/
theorem processData_payloadSize {y' : Receiver} {seqno : ℤ} {data : Bytes} {report : Option (List (BitVec 32))}
    (h : y.processData seqno data = some (y', report)) :
    y'.payloadSize = y.payloadSize ∧ ∀ words ∈ report, words.length ≤ 2 := by
  have hreport : ∀ (gap : Prop) [Decidable gap] (m n : ℤ),
      ∀ words ∈ (if gap then some (spanWords m n) else none), words.length ≤ 2 := by
    intro gap _ m n words hwords
    split at hwords
    · obtain rfl := Option.some.inj hwords
      exact (spanWords_length m n).2
    · contradiction
  unfold Receiver.processData at h
  dsimp only at h
  split at h
  · obtain ⟨rfl, rfl⟩ := Prod.mk.inj (Option.some.inj h)
    exact ⟨rfl, fun _ hmem => absurd hmem (by simp)⟩
  · split at h
    · obtain ⟨rfl, rfl⟩ := Prod.mk.inj (Option.some.inj h)
      exact ⟨rfl, fun _ hmem => absurd hmem (by simp)⟩
    · split at h
      · obtain ⟨rfl, rfl⟩ := Prod.mk.inj (Option.some.inj h)
        exact ⟨rfl, hreport _ _ _⟩
      · obtain ⟨⟨l, removed⟩, -, hafter⟩ := Option.bind_eq_some_iff.mp h
        obtain ⟨rfl, rfl⟩ := Prod.mk.inj (Option.some.inj hafter)
        exact ⟨rfl, hreport _ _ _⟩

/-- An ACK keeps the payload size. -/
theorem reportAck_payloadSize : y.reportAck.1.payloadSize = y.payloadSize := by
  unfold Receiver.reportAck
  split <;> rfl

/-- So does the decision about one. -/
theorem sendAck_payloadSize (old : Bool) : (y.sendAck old).1.payloadSize = y.payloadSize := by
  unfold Receiver.sendAck
  dsimp only
  split_ifs <;> first | rfl | exact reportAck_payloadSize _

/-- So does an acknowledgement of an ACK. -/
theorem processAck2_payloadSize (ackno rtt : ℤ) : (y.processAck2 ackno rtt).payloadSize = y.payloadSize := by
  unfold Receiver.processAck2
  split
  · rfl
  · split <;> rfl

/-- So does reading. -/
theorem recv_payloadSize {y' : Receiver} {len : ℕ} {out : Bytes} (h : y.recv len = some (y', out)) :
    y'.payloadSize = y.payloadSize := by
  unfold Receiver.recv at h
  split at h
  · obtain ⟨rfl, -⟩ := Prod.mk.inj (Option.some.inj h)
    rfl
  · obtain ⟨⟨b, out'⟩, -, hafter⟩ := Option.bind_eq_some_iff.mp h
    obtain ⟨rfl, -⟩ := Prod.mk.inj (Option.some.inj hafter)
    rfl

end

/-! ## What the variables mean -/

/-- The receiver knows of the same ACKs. -/
def SameAcks (y y' : Receiver) : Prop :=
  y'.rcvLastAckAck = y.rcvLastAckAck ∧ y'.sentAckTotal = y.sentAckTotal

/-- The number of an ACK and what it acknowledges: the packets before `g n`. -/
def ackEntry (g : ℕ → ℤ) (n : ℕ) : ℤ × ℤ := (ackOf n, seqOf (g n))

/-- What is known of the ACKs afterwards: `sent` has been sent, if anything, and acknowledges the packets before
`r`. -/
def Reported (y y' : Receiver) (sent : Option AckInfo) (W r : ℤ) (g g' : ℕ → ℤ) (j j' : ℕ) : Prop :=
  y'.rcvLastAckAck = y.rcvLastAckAck ∧
    match sent with
    | none => y'.sentAckTotal = y.sentAckTotal ∧ g' = g ∧ j' = j
    | some info =>
      y'.sentAckTotal = y.sentAckTotal + 1 ∧ g' = Function.update g (y.sentAckTotal + 1) r ∧ (0 < j' ∧ j' ≤ j + 1) ∧
        info.ackno = ackOf y'.sentAckTotal ∧ info.ack = seqOf r ∧ 2 ≤ info.flowWindow ∧ info.flowWindow ≤ W

/-- Of the packets `f`, from `first` on, those before `r` are acknowledged and those before `h` have been
read; `q` is the last one that has been received. The buffer holds those in `T`, and those in `R` are
missing. The `n`-th ACK has acknowledged the packets before `g n`, and the last `j` of them are remembered. -/
structure Means (y : Receiver) (W first : ℤ) (f : ℤ → Bytes) (r q h : ℤ) (T R : Finset ℤ) (g : ℕ → ℤ) (j : ℕ) :
    Prop where
  window : 2 ≤ W ∧ W ≤ 2 ^ 26
  lastAck : y.rcvLastAck = seqOf r
  curr : y.rcvCurrSeqNo = currSeq first q
  buffer : y.rcvBuffer.Layout first f T h r
  bufferSize : y.rcvBuffer.size = W
  lossList : y.rcvLossList.Holds R
  lossSize : W ≤ y.rcvLossList.size
  missing : ∀ n, n ∈ R ↔ (r ≤ n ∧ n ≤ q) ∧ n ∉ T
  stored_le : ∀ n ∈ T, n ≤ q
  first_le : first ≤ h
  ack_le : r ≤ q + 1
  curr_lt : q < h + W
  ackSeqNo : y.ackSeqNo = ackOf y.sentAckTotal
  ackWindow : y.ackWindow.Holds (AckWindow.latest (ackEntry g) y.sentAckTotal j)
  ackSize : y.ackWindow.size = 4096
  latest_le : j ≤ y.sentAckTotal
  acked : ∀ m n, m ≤ n → n ≤ y.sentAckTotal → g m ≤ g n
  acked_bounds : g 0 = first ∧ g y.sentAckTotal ≤ r

variable {y : Receiver} {W first r q h n k p : ℤ} {f : ℤ → Bytes} {T R : Finset ℤ} {g : ℕ → ℤ} {j : ℕ} {data : Bytes}

/-- A new connection. -/
theorem means_init (payloadSize : ℕ) {flightFlagSize : ℤ} (first : ℤ) (f : ℤ → Bytes) (next prior : ℤ → ℤ)
    (seqs acks : ℕ → ℤ) (hW : 2 ≤ W ∧ W ≤ 2 ^ 26) (hflight : W ≤ flightFlagSize)
    (hsize : flightFlagSize < CSeqNo.threshold) :
    (init payloadSize W flightFlagSize (seqOf first) next prior seqs acks).Means W first f first (first - 1) first
      ∅ ∅ (fun _ => first) 0 where
  window := hW
  lastAck := rfl
  curr := (if_pos (by omega)).symm
  buffer := RcvBuffer.layout_init (by omega) first f
  bufferSize := rfl
  lossList := RcvLossList.holds_init next prior hsize
  lossSize := hflight
  missing n := by
    refine iff_of_false (Finset.notMem_empty n) ?_
    omega
  stored_le := by simp
  first_le := le_rfl
  ack_le := by omega
  curr_lt := by omega
  ackSeqNo := rfl
  ackWindow := AckWindow.holds_init seqs acks (by decide)
  ackSize := rfl
  latest_le := le_rfl
  acked _ _ _ _ := le_rfl
  acked_bounds := ⟨rfl, le_rfl⟩

namespace Means

variable (hy : y.Means W first f r q h T R g j)

include hy

/-- Indices around the buffer are near each other. -/
theorem near {m n : ℤ} (hm : h - W ≤ m ∧ m ≤ h + W) (hn : h - W ≤ n ∧ n ≤ h + W) : Near m n := by
  have hle := hy.window.2
  rw [near_iff]
  omega

/-- What is acknowledged has been received. -/
theorem order : (first ≤ h ∧ h ≤ r) ∧ (r ≤ q + 1 ∧ r < h + W) := by
  have hlt := hy.buffer.ack_lt
  rw [hy.bufferSize] at hlt
  exact ⟨⟨hy.first_le, hy.buffer.read_le⟩, hy.ack_le, hlt⟩

/-- The room in the buffer. -/
theorem avail : r + y.rcvBuffer.getAvailBufSize = h + W - 1 := by
  rw [hy.buffer.getAvailBufSize, hy.bufferSize]

/-- The missing packets fit into the loss list, as all do that the buffer has room for. -/
theorem fits {U : Finset ℤ} (hU : ∀ i ∈ U, r ≤ i ∧ i < h + W) : Fits y.rcvLossList.size U := by
  have horder := hy.order
  have hsize := hy.lossSize
  intro i hi j hj
  have hlow := hU i hi
  have hhigh := hU j hj
  omega

/-! ## Storing packets -/

/-- A new packet behind all others: those in between are missing. -/
theorem missing_gap (hqn : q < n) (m : ℤ) :
    m ∈ R ∪ interval (q + 1) (n - 1) ↔ (r ≤ m ∧ m ≤ n) ∧ m ∉ insert n T := by
  have hack := hy.ack_le
  have hmissing := hy.missing m
  have hstored := hy.stored_le m
  rw [Finset.mem_union, mem_interval, hmissing, Finset.mem_insert, not_or]
  constructor
  · rintro (⟨hm, hmem⟩ | hm)
    · exact ⟨by omega, by omega, hmem⟩
    · exact ⟨by omega, by omega, fun hmem => by have hle := hstored hmem; omega⟩
  · rintro ⟨hm, hne, hmem⟩
    by_cases hmq : m ≤ q
    · exact Or.inl ⟨by omega, hmem⟩
    · exact Or.inr (by omega)

/-- A packet that was missing is not any more. -/
theorem missing_erase (m : ℤ) : m ∈ R.erase n ↔ (r ≤ m ∧ m ≤ q) ∧ m ∉ insert n T := by
  rw [Finset.mem_erase, hy.missing m, Finset.mem_insert, not_or]
  tauto

/-- A packet behind all others is stored, and those in between are missing. -/
theorem store_behind {b : RcvBuffer} {l : RcvLossList} (hb : b.Layout first f (insert n T) h r) (hbsize : b.size = W)
    (hl : l.Holds (R ∪ interval (q + 1) (n - 1))) (hlsize : l.size = y.rcvLossList.size) (hqn : q < n)
    (hn : n < h + W) :
    Means { y with rcvBuffer := b, rcvLossList := l, rcvCurrSeqNo := seqOf n } W first f r n h (insert n T)
      (R ∪ interval (q + 1) (n - 1)) g j := by
  have horder := hy.order
  refine { hy with
    curr := (currSeq_of_le (by omega)).symm
    buffer := hb
    bufferSize := hbsize
    lossList := hl
    lossSize := hlsize.symm ▸ hy.lossSize
    missing := hy.missing_gap hqn
    stored_le := fun m hm => ?_
    ack_le := by omega
    curr_lt := hn }
  rcases Finset.mem_insert.mp hm with rfl | hm
  · exact le_rfl
  · exact (hy.stored_le m hm).trans hqn.le

/-- A packet that was missing is stored. -/
theorem store_missing {b : RcvBuffer} {l : RcvLossList} (hb : b.Layout first f (insert n T) h r) (hbsize : b.size = W)
    (hl : l.Holds (R.erase n)) (hlsize : l.size = y.rcvLossList.size) (hnq : n ≤ q) :
    Means { y with rcvBuffer := b, rcvLossList := l } W first f r q h (insert n T) (R.erase n) g j := by
  refine { hy with
    buffer := hb
    bufferSize := hbsize
    lossList := hl
    lossSize := hlsize.symm ▸ hy.lossSize
    missing := hy.missing_erase
    stored_le := fun m hm => ?_ }
  rcases Finset.mem_insert.mp hm with rfl | hm
  · exact hnq
  · exact hy.stored_le m hm

/-- A packet is stored where there is room for it, and what is missing before it is reported. -/
theorem processData (hnear : Near r n) (hdata : r ≤ n → data = f n) :
    ∃ y' report q' T' R', y.processData (seqOf n) data = some (y', report) ∧
      y'.Means W first f r q' h T' R' g j ∧ (q ≤ q' ∧ q' ≤ max q n) ∧
      (y'.rcvBuffer.notch = y.rcvBuffer.notch ∧ y.SameAcks y') ∧ (T ⊆ T' ∧ (r ≤ n → n + 1 < h + W → n ∈ T')) ∧
      (report = none ∨ report = some (reportOf [(q + 1, n - 1)]) ∧ q + 1 ≤ n - 1 ∧ n ≤ q') := by
  have horder := hy.order
  have havail := hy.avail
  have hoffset : seqoff y.rcvLastAck (seqOf n) = n - r := by rw [hy.lastAck, seqoff_seqOf hnear]
  have hlost : incseq y.rcvCurrSeqNo = seqOf (q + 1) := by rw [hy.curr, incseq_currSeq (by omega)]
  unfold Receiver.processData
  simp only [hoffset]
  by_cases hroom : n - r < 0 ∨ n - r ≥ y.rcvBuffer.getAvailBufSize
  · rw [if_pos hroom]
    exact ⟨y, none, q, T, R, rfl, hy, ⟨le_rfl, le_max_left q n⟩, ⟨rfl, rfl, rfl⟩,
      ⟨Finset.Subset.refl T, fun hrn hn => by omega⟩, Or.inl rfl⟩
  · rw [if_neg hroom]
    rw [not_or, not_lt, not_le] at hroom
    obtain rfl := hdata (by omega)
    have hcurr_lt := hy.curr_lt
    have hbsize : (y.rcvBuffer.addData (f n) (n - r)).1.size = W :=
      (RcvBuffer.addData_size _ _ _).trans hy.bufferSize
    have hnotch : (y.rcvBuffer.addData (f n) (n - r)).1.notch = y.rcvBuffer.notch :=
      RcvBuffer.addData_notch _ _ _
    have hgap : seqcmp (seqOf n) (seqOf (q + 1)) > 0 ↔ q + 1 < n :=
      seqcmp_pos (hy.near (by omega) (by omega))
    have hnext : seqcmp (seqOf n) y.rcvCurrSeqNo > 0 ↔ q < n := by
      rw [hy.curr]
      exact seqcmp_currSeq (by omega) (by omega) (hy.near (by omega) (by omega))
    have hinsert : T ⊆ insert n T ∧ (r ≤ n → n + 1 < h + W → n ∈ insert n T) :=
      ⟨Finset.subset_insert n T, fun _ _ => Finset.mem_insert_self n T⟩
    rcases hy.buffer.addData (f := f) (by omega) hroom.2 with ⟨hstored, hresult, hlayout⟩ | ⟨-, hresult, hlayout⟩
    · rw [if_pos (by rw [hresult]; decide)]
      exact ⟨_, none, q, T, R, rfl, { hy with buffer := hlayout, bufferSize := hbsize }, ⟨le_rfl, le_max_left q n⟩,
        ⟨hnotch, rfl, rfl⟩, ⟨Finset.Subset.refl T, fun _ _ => hstored⟩, Or.inl rfl⟩
    · rw [if_neg (by rw [hresult]; decide), hlost, decseq_seqOf]
      by_cases hqn : q < n
      · rw [if_pos (hnext.mpr hqn)]
        by_cases hbehind : q + 1 < n
        · obtain ⟨hlsize, hl⟩ := hy.lossList.insert (a := q + 1) (b := n - 1) (by omega)
            (fun m hm => by have hmq := ((hy.missing m).mp hm).1.2; omega)
            (hy.fits fun m hm => by
              rw [Finset.mem_union, mem_interval, hy.missing m] at hm
              omega)
          rw [if_pos (hgap.mpr hbehind), if_pos (hgap.mpr hbehind)]
          refine ⟨_, _, n, _, _, rfl, hy.store_behind hlayout hbsize hl hlsize hqn (by omega),
            ⟨hqn.le, le_max_right q n⟩, ⟨hnotch, rfl, rfl⟩, hinsert, Or.inr ⟨?_, by omega, le_rfl⟩⟩
          rw [reportOf_cons, reportOf, List.flatMap_nil, List.append_nil]
        · have hl : y.rcvLossList.Holds (R ∪ interval (q + 1) (n - 1)) := by
            rw [interval_empty (by omega), Finset.union_empty]
            exact hy.lossList
          rw [if_neg fun hgt => hbehind (hgap.mp hgt), if_neg fun hgt => hbehind (hgap.mp hgt)]
          exact ⟨_, none, n, _, _, rfl, hy.store_behind hlayout hbsize hl rfl hqn (by omega),
            ⟨hqn.le, le_max_right q n⟩, ⟨hnotch, rfl, rfl⟩, hinsert, Or.inl rfl⟩
      · have hnogap : ¬ seqcmp (seqOf n) (seqOf (q + 1)) > 0 := fun hgt => by
          have hlt := hgap.mp hgt
          omega
        obtain ⟨l, hremove, hlsize, hl⟩ := hy.lossList.remove (x := n) fun m hm => by
          have hbounds := ((hy.missing m).mp hm).1
          exact hy.near (by omega) (by omega)
        rw [if_neg fun hgt => hqn (hnext.mp hgt), if_neg hnogap, if_neg hnogap, hremove]
        exact ⟨_, none, q, _, _, rfl, hy.store_missing hlayout hbsize hl hlsize (by omega),
          ⟨le_rfl, le_max_left q n⟩, ⟨hnotch, rfl, rfl⟩, hinsert, Or.inl rfl⟩

/-- More packets follow. -/
theorem congr {f' : ℤ → Bytes} (hsame : ∀ n ∈ T, f' n = f n) :
    y.Means W first f' r q h T R g j ∧ y.rcvBuffer.pending f' h r = y.rcvBuffer.pending f h r := by
  obtain ⟨hlayout, hpending⟩ := hy.buffer.congr hsame
  exact ⟨{ hy with buffer := hlayout }, hpending⟩

/-! ## Acknowledging -/

/-- One more ACK is sent. -/
theorem acked_update :
    ∀ m n, m ≤ n → n ≤ y.sentAckTotal + 1 →
      Function.update g (y.sentAckTotal + 1) r m ≤ Function.update g (y.sentAckTotal + 1) r n := by
  intro m n hmn hn
  rcases Nat.le_or_eq_of_le_succ hn with hn | rfl
  · rw [Function.update_of_ne (by omega), Function.update_of_ne (by omega)]
    exact hy.acked m n hmn hn
  · rw [Function.update_self]
    rcases Nat.le_or_eq_of_le_succ hmn with hm | rfl
    · rw [Function.update_of_ne (by omega)]
      exact (hy.acked m _ hm le_rfl).trans hy.acked_bounds.2
    · rw [Function.update_self]

omit hy in
/-- A new ACK leaves the entries of the others as they are. -/
theorem ackEntry_update {total m : ℕ} (hm : m ≤ total) :
    ackEntry (Function.update g (total + 1) r) m = ackEntry g m := by
  rw [ackEntry, ackEntry, Function.update_of_ne (by omega)]

/-- Storing a new ACK keeps the last ones in the window. -/
theorem ackWindow_store :
    (y.ackWindow.store (incack y.ackSeqNo) y.rcvLastAck).Holds
      (AckWindow.latest (ackEntry (Function.update g (y.sentAckTotal + 1) r)) (y.sentAckTotal + 1)
        (min (j + 1) 4095)) := by
  have hlength := hy.ackWindow.length_lt
  rw [AckWindow.latest_length, hy.ackSize] at hlength
  have hsame := AckWindow.latest_congr hy.latest_le fun n hn => ackEntry_update (g := g) (r := r) hn
  have hentry : ackEntry (Function.update g (y.sentAckTotal + 1) r) (y.sentAckTotal + 1) =
      (incack y.ackSeqNo, y.rcvLastAck) := by
    rw [ackEntry, Function.update_self, hy.ackSeqNo, incack_ackOf, hy.lastAck]
  have hstore := hy.ackWindow.store (by rw [hy.ackSize]; decide) (incack y.ackSeqNo) y.rcvLastAck
  rwa [hy.ackSize, ← hsame, ← hentry, AckWindow.newest_latest hy.latest_le hlength] at hstore

/-- All packets before the acknowledged number have been received. -/
theorem ackNumber :
    ∃ k, y.ackNumber = seqOf k ∧ (r ≤ k ∧ k ≤ q + 1) ∧ (∀ n, r ≤ n → n < k → n ∈ T) ∧ k ∉ T ∧ ∀ n ∈ R, k ≤ n := by
  have hack := hy.ack_le
  unfold Receiver.ackNumber
  rcases hy.lossList.getFirstLostSeq with ⟨rfl, -⟩ | ⟨k, hk, hleast, hfirst⟩
  · rw [hy.lossList.getLossLength, Finset.card_empty, if_pos Nat.cast_zero, hy.curr, incseq_currSeq]
    · refine ⟨q + 1, rfl, ⟨hack, le_rfl⟩, fun n hrn hnq => ?_, fun hmem => ?_, by simp⟩
      · by_contra hmem
        exact Finset.notMem_empty n ((hy.missing n).mpr ⟨⟨hrn, by omega⟩, hmem⟩)
      · have hle := hy.stored_le _ hmem
        omega
    · have horder := hy.order
      omega
  · have hcard : R.card ≠ 0 := Finset.card_ne_zero_of_mem hk
    rw [hy.lossList.getLossLength, if_neg (by exact_mod_cast hcard), hfirst]
    have hbounds := ((hy.missing k).mp hk).1
    refine ⟨k, rfl, ⟨hbounds.1, by omega⟩, fun n hrn hnk => ?_, ((hy.missing k).mp hk).2, hleast⟩
    by_contra hmem
    have hle := hleast n ((hy.missing n).mpr ⟨⟨hrn, by omega⟩, hmem⟩)
    omega

/-- An ACK carries its own number, the acknowledged number and the room in the buffer, and is remembered. -/
theorem reportAck :
    ∃ g' j', y.reportAck.1.Means W first f r q h T R g' j' ∧ y.reportAck.1.rcvBuffer = y.rcvBuffer ∧
      Reported y y.reportAck.1 y.reportAck.2 W r g g' j j' ∧
      (y.reportAck.2 = none → ¬ seqcmp y.rcvLastAck y.rcvLastAckAck > 0) := by
  have hW := hy.window.1
  have horder := hy.order
  have havail := hy.avail
  unfold Receiver.reportAck
  split
  · refine ⟨Function.update g (y.sentAckTotal + 1) r, min (j + 1) 4095, { hy with
      ackSeqNo := by rw [hy.ackSeqNo, incack_ackOf]
      ackWindow := hy.ackWindow_store
      ackSize := hy.ackSize
      latest_le := ?_
      acked := hy.acked_update
      acked_bounds := ?_ }, rfl, ⟨rfl, rfl, rfl, ?_, ?_, ?_, ?_⟩, fun hnone => absurd hnone (Option.some_ne_none _)⟩
    · have hle := hy.latest_le
      dsimp only
      omega
    · rw [Function.update_of_ne (by omega), Function.update_self]
      exact ⟨hy.acked_bounds.1, le_rfl⟩
    · omega
    · rw [hy.ackSeqNo, incack_ackOf]
    · exact hy.lastAck
    · dsimp only
      split_ifs <;> omega
  · next hseen => exact ⟨g, j, hy, rfl, ⟨rfl, rfl, rfl, rfl⟩, fun _ => hseen⟩

/-- `sendAck` acknowledges only what has been received, and up to the first packet that has not if the last
ACK is old enough. -/
theorem sendAck (old : Bool) :
    ∃ r' g' j', (y.sendAck old).1.Means W first f r' q h T R g' j' ∧ (r ≤ r' ∧ r' ≤ q + 1) ∧
      (∀ n, r ≤ n → n < r' → n ∈ T) ∧ (y.sendAck old).1.rcvBuffer.notch = y.rcvBuffer.notch ∧
      Reported y (y.sendAck old).1 (y.sendAck old).2 W r' g g' j j' ∧
      (old = true → ∀ p ≤ r, y.rcvLastAckAck = seqOf p → q + 1 - p < 0x3FFFFFFF →
        r' ∉ T ∧ ((y.sendAck old).2 = none → r' = p)) := by
  have horder := hy.order
  have hcurr_lt := hy.curr_lt
  obtain ⟨k, hk, hbounds, hreceived, hnext, hmissing⟩ := hy.ackNumber
  have hnear : Near k r := hy.near (by omega) (by omega)
  have hseen : ∀ p ≤ r, q + 1 - p < 0x3FFFFFFF → Near k p := fun p hpr hpq => by
    rw [near_iff]
    omega
  unfold Receiver.sendAck
  simp only [hk]
  split
  · next hsame =>
    refine ⟨r, g, j, hy, ⟨le_rfl, horder.2.1⟩, fun n hrn hnr => absurd hnr (not_lt.mpr hrn), rfl, ⟨rfl, rfl, rfl, rfl⟩,
      fun _ p hpr hp hpq => ?_⟩
    rw [hp, seqOf_inj (hseen p hpr hpq)] at hsame
    obtain rfl : r = k := by omega
    exact ⟨hnext, fun _ => hsame⟩
  · next hnew =>
    by_cases hrk : r < k
    · rw [hy.lastAck, if_pos ((seqcmp_pos hnear).mpr hrk), seqoff_seqOf hnear.symm]
      have hacked := hy.buffer.ackData hbounds.1 hreceived
      have hafter : Means { y with rcvLastAck := seqOf k, rcvBuffer := y.rcvBuffer.ackData (k - r) } W first f k q h T
          R g j :=
        { hy with
          lastAck := rfl
          buffer := hacked
          bufferSize := hy.bufferSize
          missing := fun n => by
            rw [hy.missing n]
            refine ⟨fun hn => ⟨⟨hmissing n ((hy.missing n).mpr hn), hn.1.2⟩, hn.2⟩, fun hn => ?_⟩
            exact ⟨⟨by omega, hn.1.2⟩, hn.2⟩
          ack_le := hbounds.2
          acked_bounds := ⟨hy.acked_bounds.1, hy.acked_bounds.2.trans hbounds.1⟩ }
      obtain ⟨g', j', hmeans, hbuffer, hreported, hsilent⟩ := hafter.reportAck
      refine ⟨k, g', j', hmeans, hbounds, hreceived, by rw [hbuffer]; rfl, hreported, fun _ p hpr hp hpq =>
        ⟨hnext, fun hnone => absurd ?_ (hsilent hnone)⟩⟩
      rw [hp, gt_iff_lt, seqcmp_pos (hseen p hpr hpq)]
      omega
    · obtain rfl : r = k := by omega
      rw [hy.lastAck, if_neg fun hgt => hrk ((seqcmp_pos hnear).mp hgt), if_pos rfl]
      split
      · obtain ⟨g', j', hmeans, hbuffer, hreported, hsilent⟩ := hy.reportAck
        refine ⟨r, g', j', hmeans, hbounds, hreceived, by rw [hbuffer], hreported, fun _ p hpr hp hpq =>
          ⟨hnext, fun hnone => ?_⟩⟩
        have hle := hsilent hnone
        rw [hy.lastAck, hp, gt_iff_lt, seqcmp_pos (hseen p hpr hpq)] at hle
        omega
      · next hold =>
        exact ⟨r, g, j, hy, hbounds, hreceived, rfl, ⟨rfl, rfl, rfl, rfl⟩, fun htrue => absurd htrue hold⟩

/-- So does a lite ACK. -/
theorem sendLiteAck :
    ∀ ack ∈ y.sendLiteAck, ∃ k, ack = seqOf k ∧ (r ≤ k ∧ k ≤ q + 1) ∧ ∀ n, r ≤ n → n < k → n ∈ T := by
  obtain ⟨k, hk, hbounds, hreceived, -⟩ := hy.ackNumber
  unfold Receiver.sendLiteAck
  rw [hk]
  intro ack hack
  split at hack
  · exact absurd hack (by simp)
  · obtain rfl := Option.some.inj hack
    exact ⟨k, rfl, hbounds, hreceived⟩

/-- A loss report names packets that are missing. -/
theorem sendNak :
    ∃ report, y.sendNak = some report ∧
      ∀ words ∈ report, 4 * words.length ≤ y.payloadSize ∧
        ∃ ns, words = reportOf ns ∧ ns ≠ [] ∧ ∀ n ∈ ns, n.1 ≤ n.2 ∧ r ≤ n.1 ∧ n.2 ≤ q := by
  unfold Receiver.sendNak
  split
  · obtain ⟨c, ns, hl, hcovers⟩ := hy.lossList
    obtain ⟨pre, post, rfl, hwords, hlength, -⟩ := hl.getLossArray (Int.natCast_nonneg (y.payloadSize / 4))
    rw [hwords]
    refine ⟨_, rfl, fun words hmem => ?_⟩
    split at hmem
    · next hpos =>
      obtain rfl := Option.some.inj hmem
      refine ⟨by omega, pre, rfl, ?_, fun n hn => ?_⟩
      · rintro rfl
        simp [reportOf] at hpos
      · have hn' : n ∈ pre ++ post := List.mem_append_left post hn
        have hle := hl.ordered.nonempty n hn'
        have hfirst := (hy.missing n.1).mp (hcovers ▸ mem_covers.mpr ⟨n, hn', le_rfl, hle⟩)
        have hlast := (hy.missing n.2).mp (hcovers ▸ mem_covers.mpr ⟨n, hn', hle, le_rfl⟩)
        exact ⟨hle, hfirst.1.1, hlast.1.2⟩
    · exact absurd hmem (by simp)
  · exact ⟨none, rfl, by simp⟩

/-- An ACK has been acknowledged: it is forgotten with all older ones. -/
theorem forget {w : AckWindow} {n : ℕ} (hw : w.Holds (AckWindow.latest (ackEntry g) y.sentAckTotal (y.sentAckTotal - n)))
    (hsize : w.size = y.ackWindow.size) (z : ℤ) :
    Means { y with ackWindow := w, rcvLastAckAck := z } W first f r q h T R g (y.sentAckTotal - n) :=
  { hy with
    ackWindow := hw
    ackSize := hsize.trans hy.ackSize
    latest_le := Nat.sub_le _ _ }

/-- The acknowledgement of an ACK that is remembered says what the sender knows of, unless it took no time. -/
theorem processAck2 (ackno rtt : ℤ) :
    (y.processAck2 ackno rtt = y ∧ ∀ n, y.sentAckTotal < n + j → n ≤ y.sentAckTotal → ackno ≠ ackOf n) ∨
      ∃ n w, (y.sentAckTotal < n + j ∧ n ≤ y.sentAckTotal) ∧ ackno = ackOf n ∧
        w.Holds (AckWindow.latest (ackEntry g) y.sentAckTotal (y.sentAckTotal - n)) ∧ w.size = y.ackWindow.size ∧
        y.processAck2 ackno rtt =
          if rtt ≤ 0 then { y with ackWindow := w }
          else { y with
            ackWindow := w
            rcvLastAckAck := if seqcmp (seqOf (g n)) y.rcvLastAckAck > 0 then seqOf (g n) else y.rcvLastAckAck } := by
  unfold Receiver.processAck2
  rcases hy.ackWindow.acknowledge ackno with ⟨hlookup, hnone⟩ | ⟨rest, a, w, hlookup, hsome, hsize, hw⟩
  · rw [hnone]
    refine Or.inl ⟨rfl, fun n hn hle heq => ?_⟩
    exact AckWindow.lookup_ne_none (AckWindow.mem_latest hn hle) (heq ▸ hlookup)
  · obtain ⟨n, hn, hentry, rfl⟩ := AckWindow.lookup_latest hy.latest_le hlookup
    obtain ⟨rfl, rfl⟩ := Prod.mk.inj hentry
    rw [hsome]
    exact Or.inr ⟨n, w, hn, rfl, hw, hsize, rfl⟩

/-! ## Reading -/

/-- The application gets the next bytes that are acknowledged. -/
theorem recv (len : ℕ) :
    ∃ y' h', y.recv len = some (y', (y.rcvBuffer.pending f h r).take len) ∧
      y'.Means W first f r q h' (T.filter (h' ≤ ·)) R g j ∧ (h ≤ h' ∧ y.SameAcks y') ∧
      y'.rcvBuffer.pending f h' r = (y.rcvBuffer.pending f h r).drop len := by
  have hread := hy.buffer.read_le
  have hfirst := hy.first_le
  have hcurr_lt := hy.curr_lt
  unfold Receiver.recv
  by_cases hnone : y.rcvBuffer.getRcvDataSize = 0
  · rw [hy.buffer.getRcvDataSize] at hnone
    obtain ⟨hlayout, hpending, hout⟩ := hy.buffer.read_done (show ¬(h < r ∧ len > 0) by omega)
    have hfilter : T.filter (h ≤ ·) = T :=
      Finset.filter_true_of_mem fun n hn => (hy.buffer.bounds n hn).1
    rw [if_pos (by rwa [hy.buffer.getRcvDataSize]), hout]
    exact ⟨y, h, rfl, by rwa [hfilter], ⟨le_rfl, rfl, rfl⟩, hpending⟩
  · obtain ⟨b, h', hbuffer, hsize, hle, hlayout, hpending⟩ := hy.buffer.readBuffer len
    have hread' := hlayout.read_le
    rw [if_neg hnone, hbuffer]
    refine ⟨_, h', rfl, { hy with
      buffer := hlayout
      bufferSize := hsize.trans hy.bufferSize
      missing := fun n => ?_
      stored_le := fun n hn => hy.stored_le n (Finset.mem_of_mem_filter n hn)
      first_le := by omega
      curr_lt := by omega }, ⟨hle, rfl, rfl⟩, hpending⟩
    rw [hy.missing n, Finset.mem_filter]
    refine and_congr_right fun hn => not_congr ?_
    rw [and_iff_left (by omega)]

end Means

end Receiver

end Udtfs

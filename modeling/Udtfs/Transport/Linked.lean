import Udtfs.Transport.Connection

/-!
# Both sides of a connection

What the variables of the two sides and the packets between them mean together, in indices that do not
wrap, and that every step keeps it.
-/

namespace Udtfs

open Spans LossArrays Pieces Receiver

namespace Connection

/-! ## What the network carries -/

/-- What a packet says that was sent when `t` was the last packet of the sender and `acks` the last ACK of the
receiver. -/
def Says (W first : ℤ) (packets : List Bytes) (g : ℕ → ℤ) (t : ℤ) (acks : ℕ) (r q : ℤ) (T : Finset ℤ) :
    NetPacket → Prop
  | .data seqno payload =>
    ∃ i, seqno = seqOf i ∧ (t + 1 - 2 * W ≤ i ∧ i ≤ t) ∧ (r ≤ i → payload = Sender.packetAt packets first i)
  | .ack info =>
    info.ackno = ackOf acks ∧ info.ack = seqOf (g acks) ∧ t + 1 - 2 * W ≤ g acks ∧ 2 ≤ info.flowWindow ∧
      info.flowWindow ≤ W
  | .liteAck ack =>
    ∃ k, ack = seqOf k ∧ (first ≤ k ∧ t + 1 - 2 * W ≤ k ∧ k ≤ q + 1) ∧ ∀ n, r ≤ n → n < k → n ∈ T
  | .nak losslist =>
    ∃ ns, losslist = reportOf ns ∧ ns ≠ [] ∧ ∀ n ∈ ns, n.1 ≤ n.2 ∧ (first ≤ n.1 ∧ t + 1 - 2 * W ≤ n.1) ∧ n.2 ≤ q
  | .ack2 _ => True

/-- It was sent when the sender had sent the packets up to `t`, and as many packets were packed since as its
stamp says. -/
def Carried (W first : ℤ) (packets : List Bytes) (g : ℕ → ℤ) (total : ℕ) (s : ℤ) (acks : ℕ) (r q : ℤ) (T : Finset ℤ)
    (m : InFlight) : Prop :=
  ∃ t ≤ s, s - t ≤ total - m.stamp ∧ m.acks ≤ acks ∧ Says W first packets g t m.acks r q T m.packet

/-- The state of a connection in terms of indices, with the window `W` of the sender and the buffer `V` of the
receiver. -/
structure Linked (c : Connection) (W V first : ℤ) (packets : List Bytes) (s a d e : ℤ) (S : Finset ℤ) (r q h : ℤ)
    (T R : Finset ℤ) (g : ℕ → ℤ) (j : ℕ) : Prop where
  snd : c.snd.Means W first packets s a d e S
  rcv : c.rcv.Means V first (Sender.packetAt packets first) r q h T R g j
  queued : packets.flatten = c.queued
  delivered : c.delivered ++ c.rcv.rcvBuffer.pending (Sender.packetAt packets first) h r =
    joined (Sender.packetAt packets first) first r
  narrow : V ≤ W
  acked : e ≤ r ∧ ∀ n, r ≤ n → n < a → n ∈ T
  received : q ≤ s
  net : ∀ m ∈ c.net, Carried W first packets g c.snd.sentTotal s c.rcv.sentAckTotal r q T m

/-- What the receiver has been told: the sender has handled an ACK for the packets before `p`, and each
acknowledgement of an ACK in the network is one of an ACK that it has handled. -/
structure Told (c : Connection) (a e : ℤ) (g : ℕ → ℤ) (j : ℕ) (p : ℤ) : Prop where
  lastAckAck : c.rcv.rcvLastAckAck = seqOf p
  later : ∀ n, c.rcv.sentAckTotal < n + j → n ≤ c.rcv.sentAckTotal → p ≤ g n
  confirmed : c.snd.Confirmed a e p
  net : ∀ m ∈ c.net, ∀ ackno, m.packet = .ack2 ackno →
    ∃ n, (n ≤ m.acks ∧ m.acks ≤ n + lifetime ∧ m.acks ≤ c.rcv.sentAckTotal) ∧ ackno = ackOf n ∧
      c.snd.Confirmed a e (g n)

/-- An ACK or an acknowledgement of one that is delivered is not too old in terms of ACKs either. -/
def Timely (c : Connection) : ConnEvent → Prop
  | .deliver m _ _ => m.packet.namesAck = true → c.rcv.sentAckTotal ≤ m.acks + lifetime
  | _ => True

/-- The receiver has been told of an ACK that is not too old. -/
def Confirming (c : Connection) : Prop := seqoff c.rcv.rcvLastAckAck c.rcv.rcvLastAck ≤ lifetime

instance (c : Connection) : Decidable c.Confirming := inferInstanceAs (Decidable (_ ≤ _))

/-- A step in which no ACK and no acknowledgement of one comes too late. -/
def TimelyStep (c : Connection) (event : ConnEvent) (c' : Connection) : Prop :=
  c.Step event c' ∧ c.Timely event ∧ c'.Confirming

variable {c c' : Connection} {W V first s a d e r q h t p : ℤ} {packets : List Bytes} {S T R : Finset ℤ}
  {g : ℕ → ℤ} {j total acks : ℕ} {m : InFlight}

/-- What a packet says stays true. -/
theorem Says.mono {added : List Bytes} {g' : ℕ → ℤ} {r' q' : ℤ} {T' : Finset ℤ} {packet : NetPacket}
    (hp : Says W first packets g t acks r q T packet) (hlength : t + 1 - first ≤ packets.length) (hfirst : first ≤ r)
    (hg : g' acks = g acks) (hr : r ≤ r') (hq : q ≤ q') (hT : ∀ n, r' ≤ n → n ∈ T → n ∈ T') :
    Says W first (packets ++ added) g' t acks r' q' T' packet := by
  cases packet with
  | data seqno payload =>
    obtain ⟨i, hseqno, hi, hpayload⟩ := hp
    refine ⟨i, hseqno, hi, fun hri => ?_⟩
    rw [hpayload (hr.trans hri), Sender.packetAt, Sender.packetAt, List.getD_append _ _ _ _ (by omega)]
  | ack info => rwa [Says, hg]
  | liteAck ack =>
    obtain ⟨k, hack, hk, hreceived⟩ := hp
    exact ⟨k, hack, ⟨hk.1, hk.2.1, by omega⟩, fun n hn hnk => hT n hn (hreceived n (hr.trans hn) hnk)⟩
  | nak losslist =>
    obtain ⟨ns, hlist, hne, hns⟩ := hp
    exact ⟨ns, hlist, hne, fun n hn => ⟨(hns n hn).1, (hns n hn).2.1, (hns n hn).2.2.trans hq⟩⟩
  | ack2 ackno => trivial

/-- It stays so when the sender has sent more, and the receiver has received and acknowledged more. -/
theorem Carried.mono {added : List Bytes} {g' : ℕ → ℤ} {total' acks' : ℕ} {s' r' q' : ℤ} {T' : Finset ℤ}
    (hm : Carried W first packets g total s acks r q T m) (hlength : s + 1 - first ≤ packets.length)
    (hfirst : first ≤ r) (hs : s ≤ s') (htotal : s' - s ≤ total' - total) (hacks : acks ≤ acks')
    (hg : ∀ n ≤ acks, g' n = g n) (hr : r ≤ r') (hq : q ≤ q') (hT : ∀ n, r' ≤ n → n ∈ T → n ∈ T') :
    Carried W first (packets ++ added) g' total' s' acks' r' q' T' m := by
  obtain ⟨t, hts, hstamp, hle, hmeant⟩ := hm
  exact ⟨t, hts.trans hs, by omega, hle.trans hacks, hmeant.mono (by omega) hfirst (hg m.acks hle) hr hq hT⟩

/-- The pieces of the stream, joined, are what was queued first. -/
theorem joined_packetAt {n : ℤ} (hlength : n - first ≤ packets.length) :
    joined (Sender.packetAt packets first) first n = (packets.take (n - first).toNat).flatten := by
  unfold joined
  congr 1
  refine List.ext_getElem (by simp; omega) fun i hi hi' => ?_
  simp only [List.length_map, List.length_range] at hi
  rw [List.getElem_map, List.getElem_range, List.getElem_take, Sender.packetAt, List.getD_eq_getElem?_getD,
    show (first + (i : ℤ) - first).toNat = i by omega, List.getElem?_eq_getElem (by omega), Option.getD_some]

/-! ## What the receiver has been told -/

/-- A step of the sender, or one of the receiver that has nothing to do with ACKs. -/
theorem Told.mono {a' e' : ℤ} (ht : c.Told a e g j p) (ha : a ≤ a') (he : e ≤ e')
    (hflow : a' = a → 2 ≤ c.snd.flowWindowSize → 2 ≤ c'.snd.flowWindowSize) (hrcv : c.rcv.SameAcks c'.rcv)
    (hnet : c'.net = c.net) : c'.Told a' e' g j p where
  lastAckAck := hrcv.1.trans ht.lastAckAck
  later := by
    rw [hrcv.2]
    exact ht.later
  confirmed := ht.confirmed.mono ha he hflow
  net := by
    rw [hnet, hrcv.2]
    intro m hm ackno hpacket
    obtain ⟨n, hn, hackno, hconfirmed⟩ := ht.net m hm ackno hpacket
    exact ⟨n, hn, hackno, hconfirmed.mono ha he hflow⟩

/-- A packet is sent that is no acknowledgement of an ACK. -/
theorem Told.post {packet : NetPacket} (ht : c.Told a e g j p) (hpacket : ∀ ackno, packet ≠ .ack2 ackno) :
    (c.post packet).Told a e g j p := by
  refine { ht with net := fun m hm ackno hack2 => ?_ }
  rcases List.mem_cons.mp hm with rfl | hm
  · exact absurd hack2 (hpacket ackno)
  · exact ht.net m hm ackno hack2

/-- A reply that acknowledges no ACK tells the receiver nothing. -/
theorem Told.reply {packet : Option NetPacket} (ht : c.Told a e g j p)
    (hpacket : ∀ ackno, packet ≠ some (.ack2 ackno)) : (c.reply packet).Told a e g j p := by
  cases packet with
  | none => exact ht
  | some packet => exact ht.post fun ackno heq => hpacket ackno (congrArg some heq)

/-- An ACK is sent, or none. -/
theorem Told.report {y : Receiver} {sent : Option AckInfo} {r' : ℤ} {g' : ℕ → ℤ} {j' : ℕ} (ht : c.Told a e g j p)
    (hreported : Reported c.rcv y sent W r' g g' j j') (hpr : p ≤ r') :
    (Connection.reply { c with rcv := y } (sent.map .ack)).Told a e g' j' p := by
  obtain ⟨hsame, hsent⟩ := hreported
  cases sent with
  | none =>
    obtain ⟨htotal, rfl, rfl⟩ := hsent
    exact ht.mono le_rfl le_rfl (fun _ hflow => hflow) ⟨hsame, htotal⟩ rfl
  | some info =>
    obtain ⟨htotal, rfl, hj, -⟩ := hsent
    refine Told.post ⟨hsame.trans ht.lastAckAck, fun n hn hle => ?_, ht.confirmed, fun m hm ackno hpacket => ?_⟩
      fun ackno heq => NetPacket.noConfusion heq
    · dsimp only at hn hle
      rcases Nat.lt_or_ge c.rcv.sentAckTotal n with hlt | hold
      · obtain rfl : n = c.rcv.sentAckTotal + 1 := by omega
        rwa [Function.update_self]
      · rw [Function.update_of_ne (by omega)]
        exact ht.later n (by omega) hold
    · obtain ⟨n, hn, hackno, hconfirmed⟩ := ht.net m hm ackno hpacket
      refine ⟨n, ⟨hn.1, hn.2.1, by dsimp only; omega⟩, hackno, ?_⟩
      rw [Function.update_of_ne (by omega)]
      exact hconfirmed

namespace Linked

variable (hc : c.Linked W V first packets s a d e S r q h T R g j)

include hc

/-- An index that came out of the network in time is near those of the window. -/
theorem near {k n : ℤ} (hst : s - t ≤ lifetime) (hk : t + 1 - 2 * W ≤ k ∧ k ≤ s + 1)
    (hn : s + 1 - 2 * W ≤ n ∧ n ≤ s + 1) : Near k n := by
  have hW := hc.snd.window.2
  rw [Sender.maxWindow] at hW
  have hlifetime : (lifetime : ℤ) = 2 ^ 29 := rfl
  rw [near_iff]
  omega

/-- What the receiver has acknowledged is not far behind. -/
theorem order : (first ≤ h ∧ h ≤ r) ∧ (d ≤ r ∧ r ≤ q + 1) ∧ (s + 1 ≤ d + 2 * W ∧ s + 1 - first ≤ packets.length) := by
  have hrcv := hc.rcv.order
  have he := hc.snd.e_bounds
  have hbound := hc.snd.sent_bound
  have hacked := hc.acked.1
  have hsent := hc.snd.sent_le
  omega

/-- What the `n`-th ACK has acknowledged. -/
theorem acked_bounds {n : ℕ} (hn : n ≤ c.rcv.sentAckTotal) : first ≤ g n ∧ g n ≤ r := by
  have hbounds := hc.rcv.acked_bounds
  have hlow := hc.rcv.acked 0 n (Nat.zero_le n) hn
  have hhigh := hc.rcv.acked n _ hn le_rfl
  omega

/-- The sender has moved on. -/
theorem snd_step {x : Sender} {s' a' d' e' : ℤ} {S' : Finset ℤ} (hx : x.Means W first packets s' a' d' e' S')
    (hs : s ≤ s') (htotal : s' - s ≤ x.sentTotal - c.snd.sentTotal)
    (hacked : e' ≤ r ∧ ∀ n, r ≤ n → n < a' → n ∈ T) :
    Linked { c with snd := x } W V first packets s' a' d' e' S' r q h T R g j := by
  have horder := hc.order
  refine { hc with snd := hx, acked := hacked, received := hc.received.trans hs, net := fun m hm => ?_ }
  rw [← List.append_nil packets]
  exact (hc.net m hm).mono horder.2.2.2 (by omega) hs htotal le_rfl (fun _ _ => rfl) le_rfl le_rfl fun _ _ hn => hn

/-- More packets are queued. -/
theorem queue_step {x : Sender} {added : List Bytes} (hx : x.Means W first (packets ++ added) s a d e S)
    (htotal : x.sentTotal = c.snd.sentTotal) :
    Linked { c with snd := x, queued := c.queued ++ added.flatten } W V first (packets ++ added) s a d e S r q h T
      R g j := by
  have horder := hc.order
  have hreceived := hc.received
  have hsame : ∀ n, first ≤ n → n ≤ s →
      Sender.packetAt (packets ++ added) first n = Sender.packetAt packets first n := fun n hfn hns => by
    rw [Sender.packetAt, Sender.packetAt, List.getD_append _ _ _ _ (by omega)]
  obtain ⟨hrcv, hpending⟩ := hc.rcv.congr fun n hn =>
    hsame n (horder.1.1.trans (hc.rcv.buffer.bounds n hn).1) ((hc.rcv.stored_le n hn).trans hreceived)
  refine { hc with snd := hx, rcv := hrcv, queued := ?_, delivered := ?_, net := fun m hm => ?_ }
  · rw [List.flatten_append, hc.queued]
  · dsimp only
    rw [hpending, hc.delivered]
    exact joined_congr fun n hfn hnr => (hsame n hfn (by omega)).symm
  · rw [htotal]
    exact (hc.net m hm).mono horder.2.2.2 (by omega) le_rfl (by omega) le_rfl (fun _ _ => rfl) le_rfl le_rfl
      fun _ _ hn => hn

/-- The receiver has moved on. -/
theorem rcv_step {y : Receiver} {r' q' : ℤ} {T' R' : Finset ℤ} {g' : ℕ → ℤ} {j' : ℕ}
    (hy : y.Means V first (Sender.packetAt packets first) r' q' h T' R' g' j') (hr : r ≤ r') (hq : q ≤ q')
    (hs : q' ≤ s) (hnotch : y.rcvBuffer.notch = c.rcv.rcvBuffer.notch) (hT : ∀ n, r' ≤ n → n ∈ T → n ∈ T')
    (htotal : c.rcv.sentAckTotal ≤ y.sentAckTotal) (hg : ∀ n ≤ c.rcv.sentAckTotal, g' n = g n) :
    Linked { c with rcv := y } W V first packets s a d e S r' q' h T' R' g' j' := by
  have horder := hc.order
  have hacked := hc.acked
  refine { hc with
    rcv := hy
    delivered := ?_
    acked := ⟨by omega, fun n hn hna => hT n hn (hacked.2 n (hr.trans hn) hna)⟩
    received := hs
    net := fun m hm => ?_ }
  · dsimp only
    rw [hc.rcv.buffer.pending_ack hr hnotch, ← List.append_assoc, hc.delivered,
      ← joined_append (by omega) hr]
  · rw [← List.append_nil packets]
    exact (hc.net m hm).mono horder.2.2.2 (by omega) le_rfl
      (show s - s ≤ (c.snd.sentTotal : ℤ) - c.snd.sentTotal by omega) htotal hg hr hq hT

/-- What is sent is carried. -/
theorem post {packet : NetPacket} (hp : Says W first packets g s c.rcv.sentAckTotal r q T packet) :
    (c.post packet).Linked W V first packets s a d e S r q h T R g j := by
  refine { hc with net := fun m hm => ?_ }
  rcases List.mem_cons.mp hm with rfl | hm
  · exact ⟨s, le_rfl, by simp [Connection.post], le_rfl, hp⟩
  · exact hc.net m hm

/-- A reply that says what is true keeps the sides linked. -/
theorem reply {packet : Option NetPacket}
    (hp : ∀ packet' ∈ packet, Says W first packets g s c.rcv.sentAckTotal r q T packet') :
    (c.reply packet).Linked W V first packets s a d e S r q h T R g j := by
  cases packet with
  | none => exact hc
  | some packet => exact hc.post (hp packet rfl)

/-! ## Steps of the sender -/

/-- The packet in hand is sent. -/
theorem transmit {seqno : ℤ} {block : ℕ} {payload : Bytes} (hpacking : c.snd.packing = .packed seqno block)
    (hpayload : 0 ≤ seqoff c.snd.sndLastDataAck seqno → payload = c.snd.sndBuffer.data block) :
    Linked (Connection.post { c with snd := { c.snd with packing := .idle } } (.data seqno payload)) W V first packets s
      a d e S r q h T R g j := by
  have horder := hc.order
  obtain ⟨hidle, i, hseqno, hlow, hhigh, hoffset, hdata⟩ := hc.snd.transmit hpacking
  have hafter := hc.snd_step hidle le_rfl (by simp) hc.acked
  refine hafter.post ⟨i, hseqno, ⟨hlow, hhigh⟩, fun hri => ?_⟩
  have hdi : d ≤ i := by omega
  rw [hpayload (hoffset.mpr hdi), hdata hdi]

/-- What is acknowledged leaves the buffer. -/
theorem acknowledge {ack : ℤ} (hack : c.snd.acking = some ack) :
    ∃ x S', c.act .acknowledge = some { c with snd := x } ∧
      Linked { c with snd := x } W V first packets s a e e S' r q h T R g j ∧ c.snd.SameWork x ∧ x.acking = none := by
  obtain ⟨x, S', hresult, hx, hsame, hnone⟩ := hc.snd.acknowledge hack
  refine ⟨x, S', ?_, hc.snd_step hx le_rfl (by rw [hsame.2.1]; omega) hc.acked, hsame, hnone⟩
  simp only [Connection.act, hack, hresult, Option.map_some]

/-- The packets that are not acknowledged are to be sent again. -/
theorem expire :
    ∃ x, c.act .expire = some { c with snd := x } ∧
      Linked { c with snd := x } W V first packets s a d e (S ∪ interval a s) r q h T R g j ∧ c.snd.SameWork x ∧
      x.acking = c.snd.acking := by
  obtain ⟨x, hresult, hx, hsame, hacking⟩ := hc.snd.expire
  refine ⟨x, ?_, hc.snd_step hx le_rfl (by rw [hsame.2.1]; omega) hc.acked, hsame, hacking⟩
  simp only [Connection.act, hresult, Option.map_some]

/-! ## Steps of the receiver -/

/-- An ACK is sent, or none. -/
theorem sendAck (old : Bool) :
    ∃ r' g' j',
      Linked (Connection.reply { c with rcv := (c.rcv.sendAck old).1 } ((c.rcv.sendAck old).2.map .ack)) W V first
        packets s a d e S r' q h T R g' j' ∧
      (r ≤ r' ∧ r' ≤ q + 1) ∧ Reported c.rcv (c.rcv.sendAck old).1 (c.rcv.sendAck old).2 V r' g g' j j' ∧
      (old = true → ∀ p ≤ r, c.rcv.rcvLastAckAck = seqOf p → q + 1 - p < 0x3FFFFFFF →
        r' ∉ T ∧ ((c.rcv.sendAck old).2 = none → r' = p)) := by
  have horder := hc.order
  have hreceived := hc.received
  obtain ⟨r', g', j', hy, hr', hstored, hnotch, hreported, hold⟩ := hc.rcv.sendAck old
  have htotal : c.rcv.sentAckTotal ≤ (c.rcv.sendAck old).1.sentAckTotal := by
    obtain ⟨-, hsent⟩ := hreported
    cases hcase : (c.rcv.sendAck old).2 <;> rw [hcase] at hsent <;> omega
  have hg : ∀ n ≤ c.rcv.sentAckTotal, g' n = g n := fun n hn => by
    obtain ⟨-, hsent⟩ := hreported
    cases hcase : (c.rcv.sendAck old).2 with
    | none =>
      rw [hcase] at hsent
      rw [hsent.2.1]
    | some info =>
      rw [hcase] at hsent
      rw [hsent.2.1, Function.update_of_ne (by omega)]
  have hafter := hc.rcv_step hy hr'.1 le_rfl hreceived hnotch (fun _ _ hn => hn) htotal hg
  refine ⟨r', g', j', hafter.reply fun packet hmem => ?_, hr', hreported, hold⟩
  obtain ⟨info, hinfo, rfl⟩ := Option.map_eq_some_iff.mp hmem
  obtain ⟨-, hsent⟩ := hreported
  rw [hinfo] at hsent
  obtain ⟨hnumber, rfl, -, hackno, hack, hwindow⟩ := hsent
  have hself : Function.update g (c.rcv.sentAckTotal + 1) r' (c.rcv.sendAck old).1.sentAckTotal = r' := by
    rw [hnumber, Function.update_self]
  refine ⟨hackno, ?_, ?_, hwindow.1, hwindow.2.trans hc.narrow⟩
  · rw [hself]
    exact hack
  · rw [hself]
    omega

/-- The application gets the next bytes. -/
theorem recv (len : ℕ) :
    ∃ y h', c.act (.recv len) = some { c with
        rcv := y
        delivered := c.delivered ++ (c.rcv.rcvBuffer.pending (Sender.packetAt packets first) h r).take len } ∧
      Linked { c with
        rcv := y
        delivered := c.delivered ++ (c.rcv.rcvBuffer.pending (Sender.packetAt packets first) h r).take len } W V first
        packets s a d e S r q h' (T.filter (h' ≤ ·)) R g j ∧
      c.rcv.SameAcks y ∧
      y.rcvBuffer.pending (Sender.packetAt packets first) h' r =
        (c.rcv.rcvBuffer.pending (Sender.packetAt packets first) h r).drop len := by
  have horder := hc.order
  obtain ⟨y, h', hresult, hy, ⟨hh', hsame⟩, hpending⟩ := hc.rcv.recv len
  have hread := hy.order
  have hT : ∀ n, r ≤ n → n ∈ T → n ∈ T.filter (h' ≤ ·) := fun n hrn hn =>
    Finset.mem_filter.mpr ⟨hn, by omega⟩
  refine ⟨y, h', ?_, { hc with rcv := hy, delivered := ?_, acked := ?_, net := fun m hm => ?_ }, hsame, hpending⟩
  · simp only [Connection.act, hresult, Option.map_some]
  · dsimp only
    rw [hpending, List.append_assoc, List.take_append_drop, hc.delivered]
  · exact ⟨hc.acked.1, fun n hrn hna => hT n hrn (hc.acked.2 n hrn hna)⟩
  · rw [← List.append_nil packets]
    exact (hc.net m hm).mono horder.2.2.2 (by omega) le_rfl
      (show s - s ≤ (c.snd.sentTotal : ℤ) - c.snd.sentTotal by omega) hsame.2.ge (fun _ _ => rfl) le_rfl le_rfl hT

/-! ## Packets that arrive -/

/-- A packet is stored where there is room for it. -/
theorem receiveData {i : ℤ} {payload : Bytes} (hnear : Near r i) (his : i ≤ s)
    (hpayload : r ≤ i → payload = Sender.packetAt packets first i) (late : Bool) (rtt : ℤ) :
    ∃ (y : Receiver) (report : Option (List (BitVec 32))) (q' : ℤ) (T' R' : Finset ℤ),
      c.receive (.data (seqOf i) payload) late rtt = some (Connection.reply { c with rcv := y } (report.map .nak)) ∧
      Linked (Connection.reply { c with rcv := y } (report.map .nak)) W V first packets s a d e S r q' h T' R' g j ∧
      c.rcv.SameAcks y ∧ (r ≤ i → i + 1 < h + V → i ∈ T') := by
  have horder := hc.order
  have hreceived := hc.received
  have hbound := hc.acked.1
  obtain ⟨y, report, q', T', R', hresult, hy, hq', ⟨hnotch, hsame⟩, hstored, hreport⟩ :=
    hc.rcv.processData hnear hpayload
  have hafter := hc.rcv_step hy le_rfl hq'.1 (by omega) hnotch (fun _ _ hn => hstored.1 hn) hsame.2.ge
    fun _ _ => rfl
  refine ⟨y, report, q', T', R', ?_, hafter.reply fun packet hmem => ?_, hsame, hstored.2⟩
  · simp only [Connection.receive, hresult]
    rfl
  · rcases hreport with rfl | ⟨rfl, hgap, hiq⟩
    · exact absurd hmem (by simp)
    · obtain rfl : NetPacket.nak (reportOf [(q + 1, i - 1)]) = packet := by simpa using hmem
      refine ⟨_, rfl, by simp, fun n hn => ?_⟩
      obtain rfl := List.mem_singleton.mp hn
      dsimp only
      omega

/-- An ACK is handled. -/
theorem receiveAck {k v : ℤ} (hnone : c.snd.acking = none) (hk : first ≤ k ∧ k ≤ r)
    (hnear : ∀ n, s + 1 - 2 * W ≤ n → n ≤ s + 1 → Near k n) (hv : v ≤ W) (late : Bool) (ackno : ℤ) :
    Linked { c with snd := c.snd.processAck late ackno (seqOf k) v } W V first packets s (max a k) d (max e k) S r q h
      T R g j := by
  have horder := hc.order
  have hreceived := hc.received
  have hacked := hc.acked
  obtain ⟨hx, htotal, -⟩ := hc.snd.processAck late ackno hnone (by omega) hk.1 hnear hv
  refine hc.snd_step hx le_rfl (by rw [htotal]; omega) ⟨by omega, fun n hrn hn => hacked.2 n hrn ?_⟩
  rcases lt_max_iff.mp hn with hna | hnk
  · exact hna
  · omega

end Linked

/-- The sender has handled an ACK. -/
theorem Told.receiveAck {k v : ℤ} {x : Sender} (ht : c.Told a e g j p) (hv : 2 ≤ v)
    (hflow : x.flowWindowSize = if a ≤ k then v else c.snd.flowWindowSize) :
    Told { c with snd := x } (max a k) (max e k) g j p ∧ x.Confirmed (max a k) (max e k) k := by
  constructor
  · refine ht.mono (le_max_left a k) (le_max_left e k) (fun _ hopen => ?_) ⟨rfl, rfl⟩ rfl
    dsimp only
    rw [hflow]
    split_ifs
    · exact hv
    · exact hopen
  · refine ⟨le_max_right e k, ?_⟩
    rcases lt_or_ge k a with hlt | hge
    · exact Or.inl (hlt.trans_le (le_max_left a k))
    · rw [max_eq_right hge, hflow, if_pos hge]
      exact Or.inr ⟨rfl, hv⟩

/-- It acknowledges the ACK. -/
theorem Told.postAck2 {n : ℕ} (ht : c.Told a e g j p) (hn : n ≤ c.rcv.sentAckTotal)
    (htimely : c.rcv.sentAckTotal ≤ n + lifetime) (hconfirmed : c.snd.Confirmed a e (g n)) :
    (c.post (.ack2 (ackOf n))).Told a e g j p := by
  refine { ht with net := fun m hm ackno hack2 => ?_ }
  rcases List.mem_cons.mp hm with rfl | hm
  · obtain rfl := NetPacket.ack2.inj hack2
    exact ⟨n, ⟨hn, htimely, le_rfl⟩, rfl, hconfirmed⟩
  · exact ht.net m hm ackno hack2

namespace Linked

variable (hc : c.Linked W V first packets s a d e S r q h T R g j)

include hc

/-- The acknowledgement of an ACK is handled. -/
theorem receiveAck2 (ackno rtt : ℤ) :
    ∃ j', Linked { c with rcv := c.rcv.processAck2 ackno rtt } W V first packets s a d e S r q h T R g j' ∧
      ∀ p, c.Told a e g j p → r - p < 0x3FFFFFFF →
        (∀ n ≤ c.rcv.sentAckTotal, c.rcv.sentAckTotal < n + 4096 → ackno = ackOf n → c.snd.Confirmed a e (g n)) →
        ∃ p', p ≤ p' ∧ Told { c with rcv := c.rcv.processAck2 ackno rtt } a e g j' p' ∧
          (0 < rtt → 0 < j → ackno = ackOf c.rcv.sentAckTotal → p' = g c.rcv.sentAckTotal) := by
  have hreceived := hc.received
  have hlength := hc.rcv.ackWindow.length_lt
  rw [AckWindow.latest_length, hc.rcv.ackSize] at hlength
  rcases hc.rcv.processAck2 ackno rtt with ⟨hresult, hunknown⟩ | ⟨n, w, hn, rfl, hw, hsize, hresult⟩
  · rw [hresult]
    exact ⟨j, hc, fun p ht _ _ => ⟨p, le_rfl, ht, fun _ hj heq =>
      absurd heq (hunknown c.rcv.sentAckTotal (by omega) le_rfl)⟩⟩
  · have hsame : ∀ z, Linked { c with rcv := { c.rcv with ackWindow := w, rcvLastAckAck := z } } W V first packets s a d
        e S r q h T R g (c.rcv.sentAckTotal - n) := fun z =>
      hc.rcv_step (hc.rcv.forget hw hsize z) le_rfl le_rfl hreceived rfl (fun _ _ hm => hm) le_rfl fun _ _ => rfl
    have hlater : ∀ i, c.rcv.sentAckTotal < i + (c.rcv.sentAckTotal - n) → i ≤ c.rcv.sentAckTotal → g n ≤ g i :=
      fun i hi hle => hc.rcv.acked n i (by omega) hle
    refine ⟨c.rcv.sentAckTotal - n, ?_, fun p ht hpr hconfirmed => ?_⟩
    · rw [hresult]
      split_ifs
      · exact hsame c.rcv.rcvLastAckAck
      · exact hsame (seqOf (g n))
      · exact hsame c.rcv.rcvLastAckAck
    · have hpn := ht.later n hn.1 hn.2
      have hnr := (hc.acked_bounds hn.2).2
      have hnear : Near (g n) p := by
        rw [near_iff]
        omega
      rw [hresult]
      by_cases hrtt : rtt ≤ 0
      · rw [if_pos hrtt]
        exact ⟨p, le_rfl, { ht with later := fun i hi hle => hpn.trans (hlater i hi hle) },
          fun hpos => absurd hrtt (not_le.mpr hpos)⟩
      · rw [if_neg hrtt]
        refine ⟨g n, hpn, { ht with
          lastAckAck := ?_
          later := hlater
          confirmed := hconfirmed n hn.2 (by omega) rfl }, fun _ _ heq => ?_⟩
        · dsimp only
          rw [ht.lastAckAck]
          split_ifs with hlt
          · rfl
          · rw [le_antisymm hpn (not_lt.mp (mt (seqcmp_pos hnear).mpr hlt))]
        · rw [ackOf_inj (by omega) (by omega)] at heq
          rw [heq]

end Linked

/-- What a step leads to: the sides are linked, the receiver has gone on by no more than its window, and if what is
delivered is timely, the receiver has been told of all that it had been told of. -/
def Goes (c : Connection) (W V first a e r : ℤ) (g : ℕ → ℤ) (j : ℕ) (timely : Prop) (c' : Connection) : Prop :=
  ∃ packets' s' a' d' e' S' r' q' h' T' R' g' j',
    c'.Linked W V first packets' s' a' d' e' S' r' q' h' T' R' g' j' ∧ (r ≤ r' ∧ r' ≤ r + V) ∧
      ∀ p, c.Told a e g j p → timely → r - p < 0x3FFFFFFF → ∃ p', p ≤ p' ∧ c'.Told a' e' g' j' p'

/-- What follows from what is timely. -/
theorem Goes.mono {timely timely' : Prop} (h : c.Goes W V first a e r g j timely c') (htimely : timely' → timely) :
    c.Goes W V first a e r g j timely' c' := by
  obtain ⟨packets', s', a', d', e', S', r', q', h', T', R', g', j', hlinked, hbounds, htold⟩ := h
  exact ⟨packets', s', a', d', e', S', r', q', h', T', R', g', j', hlinked, hbounds,
    fun p ht hnow => htold p ht (htimely hnow)⟩

namespace Linked

variable (hc : c.Linked W V first packets s a d e S r q h T R g j) {timely : Prop}

include hc

/-- A step that changes nothing of what the receiver has been told. -/
theorem goes {packets' : List Bytes} {s' d' h' q' : ℤ} {S' T' R' : Finset ℤ}
    (hc' : c'.Linked W V first packets' s' a d' e S' r q' h' T' R' g j)
    (htold : ∀ p, c.Told a e g j p → c'.Told a e g j p) : c.Goes W V first a e r g j timely c' := by
  have hV := hc.rcv.window.1
  exact ⟨packets', s', a, d', e, S', r, q', h', T', R', g, j, hc', ⟨le_rfl, by omega⟩,
    fun p ht _ _ => ⟨p, le_rfl, htold p ht⟩⟩

/-- A step of the sender that has nothing to do with ACKs. -/
theorem goes_snd {x : Sender} {queued delivered : Bytes} {packets' : List Bytes} {s' d' : ℤ} {S' : Finset ℤ}
    (hc' : Linked ⟨x, c.rcv, c.net, queued, delivered⟩ W V first packets' s' a d' e S' r q h T R g j)
    (hflow : x.flowWindowSize = c.snd.flowWindowSize) :
    c.Goes W V first a e r g j timely ⟨x, c.rcv, c.net, queued, delivered⟩ :=
  hc.goes hc' fun _ ht => ht.mono le_rfl le_rfl (fun _ hopen => hopen.trans hflow.ge) ⟨rfl, rfl⟩ rfl

/-- A packet is sent, or none, that is no acknowledgement of an ACK. -/
theorem goes_reply {α : Type} {content : Option α} {packet : α → NetPacket}
    (hmeant : ∀ x, content = some x → Says W first packets g s c.rcv.sentAckTotal r q T (packet x))
    (hpacket : ∀ x ackno, packet x ≠ .ack2 ackno) :
    c.Goes W V first a e r g j timely (c.reply (content.map packet)) := by
  refine hc.goes (hc.reply fun p hmem => ?_) fun p ht => ht.reply ?_
  · obtain ⟨x, hsent, rfl⟩ := Option.map_eq_some_iff.mp hmem
    exact hmeant x hsent
  · rintro ackno hack2
    obtain ⟨x, -, heq⟩ := Option.map_eq_some_iff.mp hack2
    exact hpacket x ackno heq

/-- A data packet arrives. -/
theorem goes_data {seqno : ℤ} {payload : Bytes} (hmeant : Says W first packets g t acks r q T (.data seqno payload))
    (htime : t ≤ s ∧ s - t ≤ lifetime) (late : Bool) (rtt : ℤ) :
    ∃ c', c.receive (.data seqno payload) late rtt = some c' ∧ c.Goes W V first a e r g j timely c' := by
  have horder := hc.order
  have hreceived := hc.received
  obtain ⟨i, rfl, hi, hpayload⟩ := hmeant
  have hnear : Near i r := hc.near htime.2 ⟨hi.1, by omega⟩ ⟨by omega, by omega⟩
  obtain ⟨y, report, q', T', R', hresult, hafter, hsame, -⟩ := hc.receiveData hnear.symm (by omega) hpayload late rtt
  refine ⟨_, hresult, hc.goes hafter fun p ht => Told.reply ?_ ?_⟩
  · exact ht.mono le_rfl le_rfl (fun _ hflow => hflow) hsame rfl
  · rintro ackno hack2
    obtain ⟨_, -, heq⟩ := Option.map_eq_some_iff.mp hack2
    exact NetPacket.noConfusion heq

/-- An ACK arrives. -/
theorem goes_ack {info : AckInfo} (hmeant : Says W first packets g t acks r q T (.ack info))
    (htime : t ≤ s ∧ s - t ≤ lifetime) (hacks : acks ≤ c.rcv.sentAckTotal) (hnone : c.snd.acking = none)
    (late : Bool) (rtt : ℤ) :
    ∃ c', c.receive (.ack info) late rtt = some c' ∧
      c.Goes W V first a e r g j (c.rcv.sentAckTotal ≤ acks + lifetime) c' := by
  have horder := hc.order
  have hacked := hc.acked
  have hreceived := hc.received
  have hV := hc.rcv.window.1
  obtain ⟨hackno, hack, hlow, hopen, hwindow⟩ := hmeant
  have hbounds := hc.acked_bounds hacks
  have hnear : ∀ n, s + 1 - 2 * W ≤ n → n ≤ s + 1 → Near (g acks) n := fun n hnlow hnhigh =>
    hc.near htime.2 ⟨hlow, by omega⟩ ⟨hnlow, hnhigh⟩
  have hafter := hc.receiveAck hnone hbounds hnear hwindow late info.ackno
  obtain ⟨-, -, -, -, hflow⟩ := hc.snd.processAck late info.ackno hnone (by omega) hbounds.1 hnear hwindow
  simp only [Connection.receive, hack]
  refine ⟨_, rfl, packets, s, max a (g acks), d, max e (g acks), S, r, q, h, T, R, g, j, ?_, ⟨le_rfl, by omega⟩,
    fun p ht htimely _ => ⟨p, le_rfl, ?_⟩⟩
  · split_ifs
    · exact hafter.post trivial
    · exact hafter
  · obtain ⟨htold, hconfirmed⟩ := ht.receiveAck hopen hflow
    split_ifs
    · rw [hackno] at htold hconfirmed ⊢
      exact htold.postAck2 hacks htimely hconfirmed
    · exact htold

/-- A short acknowledgement arrives. -/
theorem goes_liteAck {ack : ℤ} (hmeant : Says W first packets g t acks r q T (.liteAck ack))
    (htime : t ≤ s ∧ s - t ≤ lifetime) :
    c.Goes W V first a e r g j timely { c with snd := c.snd.processLiteAck ack } := by
  have horder := hc.order
  have hV := hc.rcv.window.1
  have hreceived := hc.received
  obtain ⟨k, rfl, hk, hstored⟩ := hmeant
  obtain ⟨hx, htotal, hflow⟩ := hc.snd.processLiteAck (k := k) (by omega)
    (fun n hnlow hnhigh => hc.near htime.2 ⟨hk.2.1, by omega⟩ ⟨hnlow, hnhigh⟩)
  have hacked : ∀ n, r ≤ n → n < max a k → n ∈ T := fun n hrn hn => by
    rcases lt_max_iff.mp hn with hna | hnk
    · exact hc.acked.2 n hrn hna
    · exact hstored n hrn hnk
  refine ⟨packets, s, max a k, d, e, S, r, q, h, T, R, g, j,
    hc.snd_step hx le_rfl (by rw [htotal]; omega) ⟨hc.acked.1, hacked⟩, ⟨le_rfl, by omega⟩,
    fun p ht _ _ => ⟨p, le_rfl, ht.mono (le_max_left a k) le_rfl (fun hsame hopen => ?_) ⟨rfl, rfl⟩ rfl⟩⟩
  dsimp only
  rw [hflow, hsame]
  omega

/-- A loss report arrives. -/
theorem goes_nak {losslist : List (BitVec 32)} (hmeant : Says W first packets g t acks r q T (.nak losslist))
    (htime : t ≤ s ∧ s - t ≤ lifetime) (late : Bool) (rtt : ℤ) :
    ∃ c', c.receive (.nak losslist) late rtt = some c' ∧ c.Goes W V first a e r g j timely c' := by
  have horder := hc.order
  have hreceived := hc.received
  obtain ⟨ns, rfl, hne, hns⟩ := hmeant
  obtain ⟨n, hn⟩ := List.exists_mem_of_ne_nil ns hne
  have hW := hc.snd.window.2
  rw [Sender.maxWindow] at hW
  have hlifetime : (lifetime : ℤ) = 2 ^ 29 := rfl
  have hfirst := hns n hn
  obtain ⟨x, hresult, hx, hsame⟩ := hc.snd.processNak (show first ≤ s by omega)
    (show ∀ n ∈ ns, _ from fun n hn => by have hbounds := hns n hn; omega)
  simp only [Connection.receive, hresult]
  exact ⟨_, rfl, hc.goes_snd (hc.snd_step hx le_rfl (by rw [hsame.2.1]; omega) hc.acked) hsame.1⟩

/-- A packet that arrives in time is taken for what it is. -/
theorem receive (hm : m ∈ c.net) (hfresh : c.snd.sentTotal ≤ m.stamp + lifetime)
    (hnone : m.packet.toSender = true → c.snd.acking = none) (late : Bool) (rtt : ℤ) :
    ∃ c', c.receive m.packet late rtt = some c' ∧
      c.Goes W V first a e r g j (m.packet.namesAck = true → c.rcv.sentAckTotal ≤ m.acks + lifetime) c' := by
  obtain ⟨t, hts, hstamp, hacks, hmeant⟩ := hc.net m hm
  have hst : s - t ≤ lifetime := by omega
  cases hpacket : m.packet with
  | data seqno payload =>
    rw [hpacket] at hmeant
    exact hc.goes_data hmeant ⟨hts, hst⟩ late rtt
  | ack info =>
    rw [hpacket] at hmeant hnone
    obtain ⟨c', hresult, hgoes⟩ := hc.goes_ack hmeant ⟨hts, hst⟩ hacks (hnone rfl) late rtt
    exact ⟨c', hresult, hgoes.mono fun htimely => htimely rfl⟩
  | liteAck ack =>
    rw [hpacket] at hmeant
    exact ⟨_, rfl, hc.goes_liteAck hmeant ⟨hts, hst⟩⟩
  | nak losslist =>
    rw [hpacket] at hmeant
    exact hc.goes_nak hmeant ⟨hts, hst⟩ late rtt
  | ack2 ackno =>
    have hV := hc.rcv.window.1
    obtain ⟨j', hafter, htold⟩ := hc.receiveAck2 ackno rtt
    refine ⟨_, rfl, packets, s, a, d, e, S, r, q, h, T, R, g, j', hafter, ⟨le_rfl, by omega⟩,
      fun p ht htimely hpr => ?_⟩
    obtain ⟨n', hn', rfl, hconfirmed⟩ := ht.net m hm ackno hpacket
    have htimely' := htimely rfl
    have hlifetime : lifetime = 2 ^ 29 := rfl
    have hremembered : ∀ n ≤ c.rcv.sentAckTotal, c.rcv.sentAckTotal < n + 4096 → ackOf n' = ackOf n →
        c.snd.Confirmed a e (g n) := fun n hn hlast heq => by
      rw [ackOf_inj (by omega) (by omega)] at heq
      rwa [← heq]
    obtain ⟨p', hpp', htold', -⟩ := htold p ht hpr hremembered
    exact ⟨p', hpp', htold'⟩

/-- Every step that can be taken is defined and keeps the sides linked, and what the receiver has been told stays
so if the packets are timely. -/
theorem act {event : ConnEvent} (henabled : c.Enabled event) :
    ∃ c', c.act event = some c' ∧ c.Goes W V first a e r g j (c.Timely event) c' := by
  cases event with
  | send data =>
    obtain ⟨added, hx, hflatten, hsame⟩ := hc.snd.send data
    have hafter := hc.queue_step hx hsame.2.1
    rw [hflatten] at hafter
    exact ⟨_, rfl, hc.goes_snd hafter hsame.1⟩
  | sendfile file unitsize =>
    obtain ⟨added, hx, hflatten, hsame⟩ := hc.snd.sendfileRound file unitsize
    have hafter := hc.queue_step hx hsame.2.1
    rw [hflatten] at hafter
    exact ⟨_, rfl, hc.goes_snd hafter hsame.1⟩
  | packData cwnd =>
    obtain ⟨s', S', hx, hs, hflow⟩ := hc.snd.packData cwnd
    exact ⟨_, rfl, hc.goes_snd (hc.snd_step hx hs.1 hs.2 hc.acked) hflow⟩
  | transmit payload =>
    obtain ⟨seqno, block, hpacking, -, hpayload⟩ := henabled
    refine ⟨_, ?_, hc.goes (hc.transmit hpacking hpayload) fun p ht =>
      Told.post ?_ fun ackno heq => NetPacket.noConfusion heq⟩
    · simp only [Connection.act, hpacking]
    · exact ht.mono le_rfl le_rfl (fun _ hflow => hflow) ⟨rfl, rfl⟩ rfl
  | acknowledge =>
    obtain ⟨ack, hack⟩ := Option.ne_none_iff_exists'.mp henabled
    obtain ⟨x, S', hresult, hafter, hsame, -⟩ := hc.acknowledge hack
    exact ⟨_, hresult, hc.goes_snd hafter hsame.1⟩
  | expire =>
    obtain ⟨x, hresult, hafter, hsame, -⟩ := hc.expire
    exact ⟨_, hresult, hc.goes_snd hafter hsame.1⟩
  | sendAck old =>
    have horder := hc.order
    have hcurr := hc.rcv.curr_lt
    have hacked := hc.acked.1
    obtain ⟨r', g', j', hafter, hr', hreported, -⟩ := hc.sendAck old
    refine ⟨_, rfl, packets, s, a, d, e, S, r', q, h, T, R, g', j', hafter, ⟨hr'.1, by omega⟩,
      fun p ht _ _ => ⟨p, le_rfl, ht.report hreported ?_⟩⟩
    have hpe := ht.confirmed.1
    omega
  | sendLiteAck =>
    refine ⟨_, rfl, hc.goes_reply (fun ack hsent => ?_) fun _ _ heq => NetPacket.noConfusion heq⟩
    obtain ⟨k, rfl, hk, hstored⟩ := hc.rcv.sendLiteAck ack hsent
    have horder := hc.order
    exact ⟨k, rfl, by omega, hstored⟩
  | sendNak =>
    obtain ⟨report, hresult, hreport⟩ := hc.rcv.sendNak
    refine ⟨c.reply (report.map .nak), ?_, hc.goes_reply (fun words hsent => ?_)
      fun _ _ heq => NetPacket.noConfusion heq⟩
    · simp only [Connection.act, hresult, Option.map_some]
    · obtain ⟨-, ns, rfl, hne, hns⟩ := hreport words hsent
      have horder := hc.order
      exact ⟨ns, rfl, hne, fun n hn => by have hbounds := hns n hn; omega⟩
  | recv len =>
    obtain ⟨y, h', hresult, hafter, hsame, -⟩ := hc.recv len
    exact ⟨_, hresult, hc.goes hafter fun _ ht => ht.mono le_rfl le_rfl (fun _ hflow => hflow) hsame rfl⟩
  | deliver m late rtt => exact hc.receive henabled.1 henabled.2.1 henabled.2.2 late rtt

end Linked

/-- What holds in every state of a connection. -/
def Inv (W V first : ℤ) (c : Connection) : Prop :=
  ∃ packets s a d e S r q h T R g j, c.Linked W V first packets s a d e S r q h T R g j

/-- A connection before anything is sent: the sender has been told the window `W`, and the receiver has a
buffer of the size `V`. -/
def opened (payloadSize : ℕ) (sndBufSize W V flightFlagSize isn : ℤ) (m : Memory) : Connection where
  snd := Sender.init payloadSize sndBufSize isn W m.sndNext
  rcv := Receiver.init payloadSize V flightFlagSize isn m.rcvNext m.rcvPrior m.ackSeqNo m.ack
  net := []
  queued := []
  delivered := []

section
variable {payloadSize : ℕ} (hpayload : 0 < payloadSize) (sndBufSize : ℤ) {flightFlagSize : ℤ} (first : ℤ) (m : Memory)
  (hV : 2 ≤ V) (hVW : V ≤ W) (hW : W ≤ Sender.maxWindow) (hflight : V ≤ flightFlagSize)
  (hsize : flightFlagSize < CSeqNo.threshold)

include hpayload hV hVW hW hflight hsize

/-- The sides of a new connection are linked. -/
theorem linked_opened :
    Linked (opened payloadSize sndBufSize W V flightFlagSize (seqOf first) m) W V first [] (first - 1) first first first
      ∅ first (first - 1) first ∅ ∅ (fun _ => first) 0 where
  snd := Sender.means_init hpayload sndBufSize first ⟨hV.trans hVW, hW⟩ m.sndNext
  rcv := Receiver.means_init payloadSize first _ m.rcvNext m.rcvPrior m.ackSeqNo m.ack ⟨hV, hVW.trans hW⟩ hflight
    hsize
  queued := rfl
  delivered := by
    rw [joined_self, RcvBuffer.pending, joined_self, List.drop_nil]
    rfl
  narrow := hVW
  acked := ⟨le_rfl, fun n hn hna => absurd hna (not_lt.mpr hn)⟩
  received := le_rfl
  net := by simp [opened]

/-- So the invariant holds at the start. -/
theorem inv_opened : Inv W V first (opened payloadSize sndBufSize W V flightFlagSize (seqOf first) m) :=
  ⟨_, _, _, _, _, _, _, _, _, _, _, _, _, linked_opened hpayload sndBufSize first m hV hVW hW hflight hsize⟩

end

/-- At first the receiver is taken to have been told of the first number. -/
theorem told_opened (payloadSize : ℕ) (sndBufSize V flightFlagSize first : ℤ) (m : Memory) (hW : 2 ≤ W) :
    Told (opened payloadSize sndBufSize W V flightFlagSize (seqOf first) m) first first (fun _ => first) 0 first where
  lastAckAck := rfl
  later _ _ _ := le_rfl
  confirmed := ⟨le_rfl, Or.inr ⟨rfl, hW⟩⟩
  net := by simp [opened]

/-- One step keeps it. -/
theorem Inv.step {event : ConnEvent} {c' : Connection} (hc : Inv W V first c) (hstep : c.Step event c') : Inv W V first c' := by
  obtain ⟨packets, s, a, d, e, S, r, q, h, T, R, g, j, hlinked⟩ := hc
  obtain ⟨c'', hact, packets', s', a', d', e', S', r', q', h', T', R', g', j', hlinked', -⟩ := hlinked.act hstep.1
  obtain rfl : c'' = c' := Option.some.inj (hact.symm.trans hstep.2)
  exact ⟨packets', s', a', d', e', S', r', q', h', T', R', g', j', hlinked'⟩

/-- No step goes wrong. -/
theorem Inv.defined (hc : Inv W V first c) {event : ConnEvent} (henabled : c.Enabled event) : (c.act event).isSome = true := by
  obtain ⟨packets, s, a, d, e, S, r, q, h, T, R, g, j, hlinked⟩ := hc
  obtain ⟨c', hact, -⟩ := hlinked.act henabled
  rw [hact]
  rfl

/-- The sender is not broken. -/
theorem Inv.sound (hc : Inv W V first c) : c.snd.broken = false := by
  obtain ⟨packets, s, a, d, e, S, r, q, h, T, R, g, j, hlinked⟩ := hc
  exact hlinked.snd.sound

/-- A packet has room for data. -/
theorem Inv.payload (hc : Inv W V first c) : 0 < c.snd.payloadSize := by
  obtain ⟨packets, s, a, d, e, S, r, q, h, T, R, g, j, hlinked⟩ := hc
  exact hlinked.snd.payload

/-- No more is received than was asked for. -/
theorem Inv.recv_length_le (hc : Inv W V first c) {len : ℕ} {y : Receiver} {out : Bytes}
    (hrecv : c.rcv.recv len = some (y, out)) : out.length ≤ len := by
  obtain ⟨packets, s, a, d, e, S, r, q, h, T, R, g, j, hlinked⟩ := hc
  obtain ⟨y', h', hresult, -⟩ := hlinked.rcv.recv len
  obtain ⟨-, rfl⟩ := Prod.mk.inj (Option.some.inj (hrecv.symm.trans hresult))
  exact List.length_take_le _ _

/-- What has been received is the beginning of what was queued. -/
theorem Inv.delivered (hc : Inv W V first c) : c.delivered <+: c.queued := by
  obtain ⟨packets, s, a, d, e, S, r, q, h, T, R, g, j, hlinked⟩ := hc
  have horder := hlinked.order
  have hreceived := hlinked.received
  have hstream := hlinked.delivered
  rw [joined_packetAt (by omega)] at hstream
  rw [← hlinked.queued]
  refine List.IsPrefix.trans ⟨_, hstream⟩ ?_
  conv_rhs => rw [← List.take_append_drop (r - first).toNat packets, List.flatten_append]
  exact List.prefix_append _ _

/-- Once the send buffer is empty, the receiver has everything. -/
theorem Inv.drained (hc : Inv W V first c) (hempty : c.snd.sndBuffer.count ≤ 0) {len : ℕ}
    (hlen : c.queued.length ≤ len) :
    ∃ y out, c.rcv.recv len = some (y, out) ∧ c.delivered ++ out = c.queued := by
  obtain ⟨packets, s, a, d, e, S, r, q, h, T, R, g, j, hlinked⟩ := hc
  have horder := hlinked.order
  have hsnd := hlinked.snd.order
  have hreceived := hlinked.received
  have hcount := hlinked.snd.buffer.count_le
  rw [List.length_drop] at hcount
  have hstream := hlinked.delivered
  rw [joined_packetAt (by omega), List.take_of_length_le (by omega), hlinked.queued] at hstream
  obtain ⟨y, h', hresult, -⟩ := hlinked.rcv.recv len
  refine ⟨y, _, hresult, ?_⟩
  rw [List.take_of_length_le, hstream]
  rw [← hstream, List.length_append] at hlen
  omega

end Connection

end Udtfs

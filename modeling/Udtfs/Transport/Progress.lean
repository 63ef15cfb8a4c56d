import Udtfs.Transport.Handshake

/-!
# A connection can always finish

From every state that a connection can be in, a run of its own leads to one in which everything that was queued has
been received and acknowledged. That the windows never close for good rests on the smallest flow window that
`sendCtrl` reports, two packets, and on what the sender knows when the receiver thinks that an ACK need not be
repeated.
-/

namespace Udtfs

open Transition Spans Receiver

namespace Connection

variable {window : Connection → ℤ} {c c' c'' : Connection} {W V first s a d e r q h p w : ℤ} {packets : List Bytes} {S T R : Finset ℤ}
  {g : ℕ → ℤ} {j : ℕ}

/-! ## Runs that go on -/

/-- A step under a congestion window that each state prescribes. -/
def StepUnder (window : Connection → ℤ) (c : Connection) (event : ConnEvent) (c' : Connection) : Prop :=
  c.Step event c' ∧ ∀ cwnd, event = .packData cwnd → cwnd = window c

/-- A run leads from one state to the other, in which the application queues nothing. -/
def Leads (window : Connection → ℤ) (c c' : Connection) : Prop :=
  (∃ events, Run (StepUnder window) c events c') ∧ c'.queued = c.queued

/-- Nothing need happen. -/
theorem Leads.refl (c : Connection) : Leads window c c := ⟨⟨[], Run.nil c⟩, rfl⟩

/-- One run goes on with another. -/
theorem Leads.trans (h : Leads window c c') (h' : Leads window c' c'') : Leads window c c'' := by
  obtain ⟨⟨events, hrun⟩, hqueued⟩ := h
  obtain ⟨⟨later, hlater⟩, hqueued'⟩ := h'
  exact ⟨⟨events ++ later, hrun.append hlater⟩, hqueued'.trans hqueued⟩

/-- A step is a run. -/
theorem Leads.step (event : ConnEvent) (henabled : c.Enabled event) (hact : c.act event = some c')
    (hqueued : c'.queued = c.queued) (hcwnd : ∀ cwnd, event = .packData cwnd → cwnd = window c) :
    Leads window c c' :=
  ⟨⟨_, (Run.nil c).snoc ⟨⟨henabled, hact⟩, hcwnd⟩⟩, hqueued⟩

/-- The packet that was sent last arrives. -/
theorem Leads.deliver {packet : NetPacket} {net : List InFlight} (late : Bool) (rtt : ℤ)
    (hnet : c.net = ⟨c.snd.sentTotal, c.rcv.sentAckTotal, packet⟩ :: net) (hnone : c.snd.acking = none)
    (hact : c.receive packet late rtt = some c') (hqueued : c'.queued = c.queued) : Leads window c c' := by
  refine Leads.step (.deliver ⟨c.snd.sentTotal, c.rcv.sentAckTotal, packet⟩ late rtt) ⟨?_, ?_, fun _ => hnone⟩
    hact hqueued nofun
  · rw [hnet]
    exact List.mem_cons_self
  · exact Nat.le_add_right _ _

/-- A reply queues nothing. -/
@[simp] theorem reply_queued (c : Connection) (packet : Option NetPacket) : (c.reply packet).queued = c.queued := by
  cases packet <;> rfl

/-- A reply does not concern the sender of the data. -/
@[simp] theorem reply_snd (c : Connection) (packet : Option NetPacket) : (c.reply packet).snd = c.snd := by
  cases packet <;> rfl

/-- The workers of the sender have nothing in hand. -/
def AtRest (c : Connection) : Prop := c.snd.packing = .idle ∧ c.snd.acking = none

/-- A packet has been packed and is sent. -/
def sent (c : Connection) (seqno : ℤ) (payload : Bytes) : Connection :=
  post { c with snd := { c.snd with packing := .idle } } (.data seqno payload)

/-- A packed packet can be sent. -/
theorem leads_sent {payload : Bytes} (henabled : c.Enabled (.transmit payload)) {seqno : ℤ} {block : ℕ}
    (hpacking : c.snd.packing = .packed seqno block) : Leads window c (c.sent seqno payload) := by
  refine Leads.step (.transmit payload) henabled ?_ rfl nofun
  simp only [Connection.act, hpacking]
  rfl

/-- A section of `packData` is executed. -/
theorem leads_packData (window : Connection → ℤ) (c : Connection) :
    ∃ cwnd, Leads window c { c with snd := c.snd.packData cwnd } ∧ cwnd = window c :=
  ⟨window c, Leads.step (.packData (window c)) trivial rfl rfl fun _ heq => (ConnEvent.packData.inj heq).symm, rfl⟩

namespace Linked

variable (hc : c.Linked W V first packets s a d e S r q h T R g j) (ht : c.Told a e g j p)

include hc ht

/-! ## Coming to rest -/

/-- Sending what has been packed keeps the sides linked. -/
theorem sent {seqno : ℤ} {block : ℕ} {payload : Bytes} (hpacking : c.snd.packing = .packed seqno block)
    (hpayload : 0 ≤ seqoff c.snd.sndLastDataAck seqno → payload = c.snd.sndBuffer.data block) :
    (c.sent seqno payload).Linked W V first packets s a d e S r q h T R g j ∧
      (c.sent seqno payload).Told a e g j p := by
  refine ⟨hc.transmit hpacking hpayload, Told.post ?_ fun ackno heq => NetPacket.noConfusion heq⟩
  exact ht.mono le_rfl le_rfl (fun _ hflow => hflow) ⟨rfl, rfl⟩ rfl

omit ht in
/-- What is sent: the packet in hand if it is still in the buffer, and anything else of a possible length if not. -/
theorem packed_enabled {seqno : ℤ} {block : ℕ} (hpacking : c.snd.packing = .packed seqno block) :
    ∃ payload, c.Enabled (.transmit payload) ∧
      (0 ≤ seqoff c.snd.sndLastDataAck seqno → payload = c.snd.sndBuffer.data block) := by
  have horder := hc.snd.order
  obtain ⟨-, i, -, hlow, hhigh, hoffset, hdata⟩ := hc.snd.transmit hpacking
  by_cases hgone : 0 ≤ seqoff c.snd.sndLastDataAck seqno
  · have hdi := hoffset.mp hgone
    have hmem := hc.snd.packetAt_mem (show first ≤ i by omega) hhigh
    rw [← hdata hdi] at hmem
    exact ⟨_, ⟨seqno, block, hpacking, ⟨hc.snd.nonempty _ hmem, hc.snd.short _ hmem⟩, fun _ => rfl⟩, fun _ => rfl⟩
  · exact ⟨[0], ⟨seqno, block, hpacking, ⟨List.cons_ne_nil 0 [], hc.snd.payload⟩, fun h => absurd h hgone⟩,
      fun h => absurd h hgone⟩

/-- A section of `packData` keeps the sides linked. -/
theorem packing_step (cwnd : ℤ) :
    ∃ s' S', Linked { c with snd := c.snd.packData cwnd } W V first packets s' a d e S' r q h T R g j ∧
      Told { c with snd := c.snd.packData cwnd } a e g j p := by
  obtain ⟨s', S', hx, hs, hflow⟩ := hc.snd.packData cwnd
  exact ⟨s', S', hc.snd_step hx hs.1 hs.2 hc.acked,
    ht.mono le_rfl le_rfl (fun _ hopen => hopen.trans hflow.ge) ⟨rfl, rfl⟩ rfl⟩

/-- The packet in hand is sent. -/
theorem rest_packed {seqno : ℤ} {block : ℕ} (hpacking : c.snd.packing = .packed seqno block)
    (hnone : c.snd.acking = none) :
    ∃ c', Leads window c c' ∧ c'.Linked W V first packets s a d e S r q h T R g j ∧ c'.Told a e g j p ∧ c'.AtRest := by
  obtain ⟨payload, henabled, hpayload⟩ := hc.packed_enabled hpacking
  obtain ⟨hafter, htold⟩ := hc.sent ht hpacking hpayload
  exact ⟨_, leads_sent henabled hpacking, hafter, htold, rfl, hnone⟩

/-- A packet that the window allows is packed and sent, if there is one. -/
theorem rest_allowed (hpacking : c.snd.packing = .allowed) (hnone : c.snd.acking = none) :
    ∃ c' s' S', Leads window c c' ∧ c'.Linked W V first packets s' a d e S' r q h T R g j ∧ c'.Told a e g j p ∧
      c'.AtRest := by
  obtain ⟨cwnd, hlead, -⟩ := leads_packData window c
  obtain ⟨s', S', hafter, htold⟩ := hc.packing_step ht cwnd
  rcases hc.snd.packData_allowed hpacking cwnd with ⟨-, hresult⟩ | ⟨-, ⟨b, block, hresult⟩, -⟩
  · exact ⟨_, s', S', hlead, hafter, htold, by rw [hresult], by rw [hresult]; exact hnone⟩
  · obtain ⟨c', hlead', hrest⟩ := hafter.rest_packed htold (by rw [hresult]) (by rw [hresult]; exact hnone)
    exact ⟨c', s', S', hlead.trans hlead', hrest⟩

/-- The section of `packData` that was begun comes to an end. -/
theorem rest_packing (hnone : c.snd.acking = none) :
    ∃ c' s' S', Leads window c c' ∧ c'.Linked W V first packets s' a d e S' r q h T R g j ∧ c'.Told a e g j p ∧
      c'.AtRest := by
  have hholding := hc.snd.holding
  have horder := hc.snd.order
  obtain ⟨cwnd, hlead, -⟩ := leads_packData window c
  obtain ⟨s', S', hafter, htold⟩ := hc.packing_step ht cwnd
  cases hpacking : c.snd.packing with
  | idle => exact ⟨c, s, S, Leads.refl c, hc, ht, hpacking, hnone⟩
  | noLoss =>
    have hresult := hc.snd.packData_noLoss hpacking cwnd
    by_cases hallowed : s + 2 - a ≤ min c.snd.flowWindowSize cwnd
    · rw [if_pos hallowed] at hresult
      obtain ⟨c', s'', S'', hlead', hrest⟩ := hafter.rest_allowed htold (by rw [hresult]) (by rw [hresult]; exact hnone)
      exact ⟨c', s'', S'', hlead.trans hlead', hrest⟩
    · rw [if_neg hallowed] at hresult
      exact ⟨_, s', S', hlead, hafter, htold, by rw [hresult], by rw [hresult]; exact hnone⟩
  | lost seqno =>
    rw [hpacking] at hholding
    obtain ⟨i, rfl, hlow, hhigh⟩ := hholding
    have hresult := hc.snd.packData_lost hpacking hlow hhigh cwnd
    split_ifs at hresult
    · exact ⟨_, s', S', hlead, hafter, htold, by rw [hresult], by rw [hresult]; exact hnone⟩
    · obtain ⟨c', hlead', hrest⟩ := hafter.rest_packed htold (by rw [hresult]) (by rw [hresult]; exact hnone)
      exact ⟨c', s', S', hlead.trans hlead', hrest⟩
  | allowed => exact hc.rest_allowed ht hpacking hnone
  | packed seqno block =>
    obtain ⟨c', hlead', hrest⟩ := hc.rest_packed ht hpacking hnone
    exact ⟨c', s, S, hlead', hrest⟩

/-- Then both workers have nothing in hand. -/
theorem rest :
    ∃ c' s' d' S', Leads window c c' ∧ c'.Linked W V first packets s' a d' e S' r q h T R g j ∧ c'.Told a e g j p ∧
      c'.AtRest := by
  cases hacking : c.snd.acking with
  | none =>
    obtain ⟨c', s', S', hrest⟩ := hc.rest_packing ht hacking
    exact ⟨c', s', d, S', hrest⟩
  | some ack =>
    obtain ⟨x, S', hact, hafter, hsame, hnone⟩ := hc.acknowledge hacking
    have htold : Told { c with snd := x } a e g j p :=
      ht.mono le_rfl le_rfl (fun _ hopen => hopen.trans hsame.1.ge) ⟨rfl, rfl⟩ rfl
    obtain ⟨c', s', S'', hlead, hrest⟩ := hafter.rest_packing htold hnone
    refine ⟨c', s', e, S'', Leads.trans (Leads.step .acknowledge ?_ hact rfl nofun) hlead, hrest⟩
    exact fun heq => Option.some_ne_none ack (hacking.symm.trans heq)

/-! ## Coming to an agreement -/

/-- The application reads all that is acknowledged. -/
theorem readAll (window : Connection → ℤ) :
    ∃ c', Leads window c c' ∧ c'.Linked W V first packets s a d e S r q r (T.filter (r ≤ ·)) R g j ∧ c'.Told a e g j p ∧
      c'.snd = c.snd ∧ c'.net = c.net ∧ c'.rcv.sentAckTotal = c.rcv.sentAckTotal := by
  obtain ⟨y, h', hact, hafter, hsame, hpending⟩ :=
    hc.recv (c.rcv.rcvBuffer.pending (Sender.packetAt packets first) h r).length
  rw [List.drop_length] at hpending
  have horder := hafter.order
  have hreceived := hafter.received
  obtain rfl : h' = r := by
    by_contra hne
    exact hafter.rcv.buffer.pending_ne_nil (by omega) (hc.snd.packetAt_ne_nil (by omega) (by omega)) hpending
  exact ⟨_, Leads.step (.recv _) trivial hact rfl nofun, hafter,
    ht.mono le_rfl le_rfl (fun _ hflow => hflow) hsame rfl, rfl, rfl, hsame.2⟩

end Linked

/-- Everything before `w` has been received, read, acknowledged and confirmed, and no worker has anything in hand. -/
structure Settled (c : Connection) (W V first : ℤ) (packets : List Bytes) (s : ℤ) (S : Finset ℤ) (q : ℤ)
    (T R : Finset ℤ) (g : ℕ → ℤ) (j : ℕ) (w : ℤ) : Prop where
  linked : c.Linked W V first packets s w w w S w q w T R g j
  told : c.Told w w g j w
  rest : c.AtRest
  missing : w ∉ T

namespace Linked

variable (hc : c.Linked W V first packets s a d e S w q w T R g j) (ht : c.Told a e g j p)

include hc ht

omit ht in
/-- What the sender takes for acknowledged has been received, so it is not ahead of a missing packet. -/
theorem le_of_missing (hw : w ∉ T) : a ≤ w := by
  by_contra hlt
  exact hw (hc.acked.2 w le_rfl (not_le.mp hlt))

/-- The ACK that was sent last arrives, and is acknowledged. -/
theorem confirm_ack {info : AckInfo} {net : List InFlight} (hrest : c.AtRest) (hw : w ∉ T)
    (hnet : c.net = ⟨c.snd.sentTotal, c.rcv.sentAckTotal, .ack info⟩ :: net) (hg : g c.rcv.sentAckTotal = w) :
    ∃ c', Leads window c c' ∧ c'.Linked W V first packets s w d w S w q w T R g j ∧ c'.Told w w g j p ∧
      (c'.snd.packing = .idle ∧ c'.snd.acking = some (seqOf w)) ∧ c'.snd.Confirmed w w w ∧ c'.rcv = c.rcv ∧
      c'.net = ⟨c'.snd.sentTotal, c'.rcv.sentAckTotal, .ack2 (ackOf c.rcv.sentAckTotal)⟩ :: c.net := by
  have horder := hc.order
  have hreceived := hc.received
  have hbound := hc.snd.sent_bound
  obtain ⟨t, -, -, -, hackno, hack, -, hopen, hwindow⟩ := hc.net _ (hnet ▸ List.mem_cons_self)
  dsimp only at hackno hack
  rw [hg] at hack
  have haw := hc.le_of_missing hw
  have hnear : ∀ n, s + 1 - 2 * W ≤ n → n ≤ s + 1 → Near w n := fun n hlow hhigh =>
    hc.snd.near (by omega) ⟨hlow, hhigh⟩
  obtain ⟨-, -, hpacking, hacking, hflow⟩ :=
    hc.snd.processAck true info.ackno hrest.2 (by omega) (by omega) hnear hwindow
  have hafter := hc.receiveAck hrest.2 ⟨by omega, le_rfl⟩ hnear hwindow true info.ackno
  obtain ⟨htold, hconfirmed⟩ := ht.receiveAck hopen hflow
  rw [max_eq_right haw, max_eq_right hc.acked.1] at hafter htold hconfirmed
  refine ⟨Connection.post { c with snd := c.snd.processAck true info.ackno (seqOf w) info.flowWindow }
    (.ack2 (ackOf c.rcv.sentAckTotal)), Leads.deliver true 0 hnet hrest.2 ?_ rfl, hafter.post trivial,
    htold.postAck2 le_rfl (Nat.le_add_right _ _) ?_, ⟨hpacking.trans hrest.1, hacking⟩, hconfirmed, rfl, rfl⟩
  · simp only [Connection.receive, hack, hackno]
    rfl
  · dsimp only
    rwa [hg]

/-- The acknowledgement of the last ACK arrives. -/
theorem confirm_ack2 {net : List InFlight} (hrest : c.AtRest) (hpw : w - p < 0x3FFFFFFF)
    (hnet : c.net = ⟨c.snd.sentTotal, c.rcv.sentAckTotal, .ack2 (ackOf c.rcv.sentAckTotal)⟩ :: net)
    (hg : g c.rcv.sentAckTotal = w) (hconfirmed : c.snd.Confirmed a e w) (hj : 0 < j) :
    ∃ c' j', Leads window c c' ∧ c'.Linked W V first packets s a d e S w q w T R g j' ∧ c'.Told a e g j' w ∧ c'.AtRest := by
  obtain ⟨j', hafter, htold⟩ := hc.receiveAck2 (ackOf c.rcv.sentAckTotal) 1
  obtain ⟨p', -, htold', hlast⟩ := htold p ht hpw fun n hn hnew heq => by
    rw [ackOf_inj (by omega) (by omega)] at heq
    rwa [← heq, hg]
  obtain rfl : p' = w := (hlast Int.one_pos hj rfl).trans hg
  exact ⟨_, j', Leads.deliver false 1 hnet hrest.2 rfl rfl, hafter, htold', hrest⟩

/-- Both sides agree after the last ACK and its acknowledgement. -/
theorem confirm {info : AckInfo} {net : List InFlight} (hrest : c.AtRest) (hw : w ∉ T) (hpw : w - p < 0x3FFFFFFF)
    (hnet : c.net = ⟨c.snd.sentTotal, c.rcv.sentAckTotal, .ack info⟩ :: net) (hg : g c.rcv.sentAckTotal = w)
    (hj : 0 < j) :
    ∃ c' S' j', Leads window c c' ∧ c'.Settled W V first packets s S' q T R g j' w := by
  obtain ⟨c₁, hlead₁, hc₁, ht₁, ⟨hidle, hacking⟩, hconfirmed, hrcv, hnet₁⟩ := hc.confirm_ack ht hrest hw hnet hg
  obtain ⟨x, S', hact, hc₂, hsame, hnone⟩ := hc₁.acknowledge hacking
  have ht₂ : Told { c₁ with snd := x } w w g j p :=
    ht₁.mono le_rfl le_rfl (fun _ hflow => hflow.trans hsame.1.ge) ⟨rfl, rfl⟩ rfl
  have hlead₂ : Leads window c₁ { c₁ with snd := x } :=
    Leads.step .acknowledge (fun heq => Option.some_ne_none _ (hacking.symm.trans heq)) hact rfl nofun
  have hnet₂ : c₁.net = ⟨x.sentTotal, c₁.rcv.sentAckTotal, .ack2 (ackOf c₁.rcv.sentAckTotal)⟩ :: c.net := by
    rw [hnet₁, hsame.2.1, hrcv]
  obtain ⟨c₃, j', hlead₃, hc₃, ht₃, hrest₃⟩ := hc₂.confirm_ack2 ht₂ ⟨hsame.2.2.trans hidle, hnone⟩ hpw hnet₂
    (by rw [← hg, hrcv]) (hconfirmed.mono le_rfl le_rfl fun _ hflow => hflow.trans hsame.1.ge) hj
  exact ⟨c₃, S', j', (hlead₁.trans hlead₂).trans hlead₃, hc₃, ht₃, hrest₃, hw⟩

end Linked

/-- From a state in which no worker has anything in hand an ACK settles all that has been received without a gap. -/
theorem Linked.settle (hc : c.Linked W V first packets s a d e S r q h T R g j) (ht : c.Told a e g j p)
    (hrest : c.AtRest) (hpr : r - p ≤ lifetime) :
    ∃ c' S' T' g' j' w, Leads window c c' ∧ c'.Settled W V first packets s S' q T' R g' j' w ∧ r ≤ w ∧
      (r ∈ T → r < w) := by
  have horder := hc.order
  have hcurr := hc.rcv.curr_lt
  have hV := hc.rcv.window.2
  have hpe := ht.confirmed.1
  have hacked := hc.acked.1
  have hlifetime : (lifetime : ℤ) = 2 ^ 29 := rfl
  obtain ⟨w, g', j', hc₁, hw, hreported, hold⟩ := hc.sendAck true
  obtain ⟨hmissing, hsilent⟩ := hold rfl p (by omega) ht.lastAckAck (by omega)
  have ht₁ := ht.report hreported (show p ≤ w by omega)
  obtain ⟨c₂, hlead₂, hc₂, ht₂, hsnd, hnet, htotal⟩ := hc₁.readAll ht₁ window
  have hlead₁ : Leads window c (Connection.reply { c with rcv := (c.rcv.sendAck true).1 }
      ((c.rcv.sendAck true).2.map .ack)) :=
    Leads.step (.sendAck true) trivial rfl (reply_queued _ _) nofun
  have hgap : w ∉ T.filter (w ≤ ·) := fun hmem => hmissing (Finset.mem_of_mem_filter w hmem)
  have hrest₂ : c₂.AtRest := by
    rw [AtRest, hsnd, reply_snd]
    exact hrest
  have hrw : r ≤ w ∧ (r ∈ T → r < w) :=
    ⟨hw.1, fun hmem => lt_of_le_of_ne hw.1 fun heq => hmissing (heq ▸ hmem)⟩
  obtain ⟨-, hsent⟩ := hreported
  cases hcase : (c.rcv.sendAck true).2 with
  | none =>
    obtain rfl := hsilent hcase
    have haw := hc₂.le_of_missing hgap
    have hd := hc₂.snd.e_bounds
    have hacking := hc₂.snd.acking
    rw [hrest₂.2] at hacking
    obtain rfl : e = d := hacking
    obtain rfl : e = w := by omega
    obtain rfl : a = e := by omega
    exact ⟨c₂, S, _, g', j', a, hlead₁.trans hlead₂, ⟨hc₂, ht₂, hrest₂, hgap⟩, hrw⟩
  | some info =>
    rw [hcase] at hsent hnet hsnd htotal
    obtain ⟨hnumber, rfl, hj, -⟩ := hsent
    have hnet₂ : c₂.net = ⟨c₂.snd.sentTotal, c₂.rcv.sentAckTotal, .ack info⟩ :: c.net := by
      rw [hnet, hsnd, htotal]
      rfl
    have hlast : Function.update g (c.rcv.sentAckTotal + 1) w c₂.rcv.sentAckTotal = w := by
      rw [htotal]
      change Function.update g (c.rcv.sentAckTotal + 1) w (c.rcv.sendAck true).1.sentAckTotal = w
      rw [hnumber, Function.update_self]
    obtain ⟨c₃, S', j'', hlead₃, hsettled⟩ := hc₂.confirm ht₂ hrest₂ hgap (by omega) hnet₂ hlast hj.1
    exact ⟨c₃, S', _, _, j'', w, (hlead₁.trans hlead₂).trans hlead₃, hsettled, hrw⟩

/-! ## The next packet -/

namespace Settled

variable (hc : c.Settled W V first packets s S q T R g j w)

include hc

/-- The first packet that is missing is packed and sent, and it arrives. -/
theorem carry {x : Sender} {s' : ℤ} {S' : Finset ℤ} {block : ℕ} (hx : x.Means W first packets s' w w w S')
    (hs : s ≤ s' ∧ s' - s ≤ x.sentTotal - c.snd.sentTotal) (hws : w ≤ s') (hpacking : x.packing = .packed (seqOf w) block)
    (hnone : x.acking = none) (hflow : x.flowWindowSize = c.snd.flowWindowSize) :
    ∃ c' q' T' R', Leads window { c with snd := x } c' ∧ c'.Linked W V first packets s' w w w S' w q' w T' R' g j ∧
      c'.Told w w g j w ∧ c'.AtRest ∧ w ∈ T' := by
  have hV := hc.linked.rcv.window
  have hbound := hx.sent_bound
  have hc₁ := hc.linked.snd_step hx hs.1 hs.2 hc.linked.acked
  have ht₁ : Told { c with snd := x } w w g j w :=
    hc.told.mono le_rfl le_rfl (fun _ hopen => hopen.trans hflow.ge) ⟨rfl, rfl⟩ rfl
  obtain ⟨payload, henabled, hpayload⟩ := hc₁.packed_enabled hpacking
  obtain ⟨hc₂, ht₂⟩ := hc₁.sent ht₁ hpacking hpayload
  obtain ⟨-, i, hseqno, hlow, hhigh, hoffset, hdata⟩ := hx.transmit hpacking
  obtain rfl : w = i := (seqOf_inj (hx.near ⟨by omega, by omega⟩ ⟨hlow, by omega⟩)).mp hseqno
  have hcontent : w ≤ w → payload = Sender.packetAt packets first w := fun hww =>
    (hpayload (hoffset.mpr hww)).trans (hdata hww)
  obtain ⟨y, report, q', T', R', hresult, hc₃, hsame, hstored⟩ :=
    hc₂.receiveData (hx.near ⟨by omega, by omega⟩ ⟨by omega, by omega⟩) hws hcontent false 0
  refine ⟨_, q', T', R', (leads_sent henabled hpacking).trans (Leads.deliver false 0 rfl hnone hresult (reply_queued _ _)), hc₃,
    Told.reply ?_ ?_, ?_, hstored le_rfl (by omega)⟩
  · exact ht₂.mono le_rfl le_rfl (fun _ hopen => hopen) hsame rfl
  · rintro ackno hack2
    obtain ⟨_, -, heq⟩ := Option.map_eq_some_iff.mp hack2
    exact NetPacket.noConfusion heq
  · rw [AtRest, reply_snd]
    exact ⟨rfl, hnone⟩

/-- It has been sent before, and is sent again. -/
theorem again (hws : w ≤ s) :
    ∃ c' S' q' T' R', Leads window c c' ∧ c'.Linked W V first packets s w w w S' w q' w T' R' g j ∧
      c'.Told w w g j w ∧ c'.AtRest ∧ w ∈ T' := by
  have hbound := hc.linked.snd.sent_bound
  obtain ⟨x₁, hact, hc₁, hsame, hacking⟩ := hc.linked.expire
  have hx₁ := hc₁.snd
  have hmem : w ∈ S ∪ interval w s := Finset.mem_union_right S (mem_interval.mpr ⟨le_rfl, hws⟩)
  obtain ⟨cwnd₁, hlead₁, -⟩ := leads_packData window { c with snd := x₁ }
  obtain ⟨cwnd₂, hlead₂, -⟩ := leads_packData window { c with snd := x₁.packData cwnd₁ }
  rcases hx₁.packData_idle (hsame.2.2.trans hc.rest.1) cwnd₁ with ⟨hempty, -⟩ | ⟨i, l, hi, hleast, hresult₂, hx₂⟩
  · exact absurd (hempty ▸ hmem) (Finset.notMem_empty w)
  · obtain rfl : i = w := le_antisymm (hleast w hmem) (hx₁.lost i hi).1
    have hresult₃ := hx₂.packData_lost (by rw [hresult₂]) (by omega) hws cwnd₂
    rw [if_neg (lt_irrefl i)] at hresult₃
    have hx₃ : ((x₁.packData cwnd₁).packData cwnd₂).Means W first packets s i i i ((S ∪ interval i s).erase i) := by
      rw [hresult₃]
      exact { hx₂ with holding := ⟨i, rfl, by omega, hws, fun _ => rfl⟩ }
    obtain ⟨c', q', T', R', hlead, hcarried⟩ := hc.carry hx₃
      ⟨le_rfl, by rw [hresult₃, hresult₂]; dsimp only; rw [hsame.2.1]; omega⟩ hws (by rw [hresult₃])
      (by rw [hresult₃, hresult₂]; exact hacking.trans hc.rest.2) (by rw [hresult₃, hresult₂]; exact hsame.1)
    have hexpire : Leads window c { c with snd := x₁ } := Leads.step .expire hc.rest.2 hact rfl nofun
    exact ⟨c', _, q', T', R', ((hexpire.trans hlead₁).trans hlead₂).trans hlead, hcarried⟩

/-- It is the next one of the queue. -/
theorem next (hwindow : ∀ c, 1 ≤ window c) (hws : w = s + 1) (hqueued : w - first < packets.length) :
    ∃ c' S' q' T' R', Leads window c c' ∧ c'.Linked W V first packets (s + 1) w w w S' w q' w T' R' g j ∧
      c'.Told w w g j w ∧ c'.AtRest ∧ w ∈ T' := by
  have hx := hc.linked.snd
  have hW := hx.window.1
  have hopen : 2 ≤ c.snd.flowWindowSize := by
    rcases hc.told.confirmed.2 with hlt | ⟨-, hopen⟩
    · exact absurd hlt (lt_irrefl w)
    · exact hopen
  obtain ⟨cwnd₁, hlead₁, -⟩ := leads_packData window c
  obtain ⟨cwnd₂, hlead₂, heq₂⟩ := leads_packData window { c with snd := c.snd.packData cwnd₁ }
  obtain ⟨cwnd₃, hlead₃, -⟩ := leads_packData window { c with snd := (c.snd.packData cwnd₁).packData cwnd₂ }
  have hcwnd : 1 ≤ cwnd₂ := by
    rw [heq₂]
    exact hwindow _
  rcases hx.packData_idle hc.rest.1 cwnd₁ with ⟨rfl, hresult₁⟩ | ⟨i, l, hi, -⟩
  · have hx₁ : (c.snd.packData cwnd₁).Means W first packets s w w w ∅ := by
      rw [hresult₁]
      exact { hx with holding := trivial }
    have hresult₂ := hx₁.packData_noLoss (by rw [hresult₁]) cwnd₂
    have hallowed : s + 2 - w ≤ min (c.snd.packData cwnd₁).flowWindowSize cwnd₂ := by
      rw [hresult₁]
      exact le_min (by dsimp only; omega) (by omega)
    rw [if_pos hallowed] at hresult₂
    have hx₂ : ((c.snd.packData cwnd₁).packData cwnd₂).Means W first packets s w w w ∅ := by
      rw [hresult₂]
      exact { hx₁ with holding := (by omega : s + 2 ≤ w + W) }
    rcases hx₂.packData_allowed (by rw [hresult₂]) cwnd₃ with ⟨hall, -⟩ | ⟨-, ⟨b, block, hresult₃⟩, hx₃⟩
    · omega
    · obtain ⟨c', q', T', R', hlead, hcarried⟩ := hc.carry hx₃
        ⟨by omega, by rw [hresult₃, hresult₂, hresult₁]; dsimp only; omega⟩ hws.le (by rw [hresult₃, hws])
        (by rw [hresult₃, hresult₂, hresult₁]; exact hc.rest.2) (by rw [hresult₃, hresult₂, hresult₁])
      exact ⟨c', _, q', T', R', ((hlead₁.trans hlead₂).trans hlead₃).trans hlead, hcarried⟩
  · have hlost := hx.lost i hi
    omega

/-- So one more packet is settled. -/
theorem advance (hwindow : ∀ c, 1 ≤ window c) (hqueued : w - first < packets.length) :
    ∃ c' s' S' q' T' R' g' j' w', Leads window c c' ∧ c'.Settled W V first packets s' S' q' T' R' g' j' w' ∧ w < w' := by
  have horder := hc.linked.order
  have hreceived := hc.linked.received
  have hsent : ∃ c' s' S' q' T' R', Leads window c c' ∧ c'.Linked W V first packets s' w w w S' w q' w T' R' g j ∧
      c'.Told w w g j w ∧ c'.AtRest ∧ w ∈ T' := by
    rcases le_or_gt w s with hws | hsw
    · obtain ⟨c', S', q', T', R', h⟩ := hc.again hws
      exact ⟨c', s, S', q', T', R', h⟩
    · obtain ⟨c', S', q', T', R', h⟩ := hc.next hwindow (by omega) hqueued
      exact ⟨c', s + 1, S', q', T', R', h⟩
  obtain ⟨c', s', S', q', T', R', hlead, hc', ht', hrest', hstored⟩ := hsent
  obtain ⟨c'', S'', T'', g', j', w', hlead', hsettled, -, hlt⟩ := hc'.settle ht' hrest' (by rw [sub_self]; decide)
  exact ⟨c'', s', S'', q', T'', R', g', j', w', hlead.trans hlead', hsettled, hlt hstored⟩

/-- And in the end all of them are. -/
theorem finish (hwindow : ∀ c, 1 ≤ window c) :
    ∃ c' s' S' q' T' R' g' j', Leads window c c' ∧
      c'.Settled W V first packets s' S' q' T' R' g' j' (first + packets.length) := by
  obtain ⟨k, hk⟩ : ∃ k : ℕ, w - first + k = packets.length := by
    have horder := hc.linked.order
    have hreceived := hc.linked.received
    exact ⟨(packets.length - (w - first)).toNat, by omega⟩
  induction k using Nat.strong_induction_on generalizing c s S q T R g j w with
  | _ k ih =>
    rcases Nat.eq_zero_or_pos k with rfl | hpos
    · obtain rfl : w = first + packets.length := by omega
      exact ⟨c, s, S, q, T, R, g, j, Leads.refl c, hc⟩
    · obtain ⟨c', s', S', q', T', R', g', j', w', hlead, hc', hlt⟩ := hc.advance hwindow (by omega)
      have horder := hc'.linked.order
      have hreceived := hc'.linked.received
      obtain ⟨c'', s'', S'', q'', T'', R'', g'', j'', hlead', hdone⟩ :=
        ih (packets.length - (w' - first)).toNat (by omega) hc' (by omega)
      exact ⟨c'', s'', S'', q'', T'', R'', g'', j'', hlead.trans hlead', hdone⟩

end Settled

/-- Everything that was queued has been received, and all that was sent is acknowledged and has left the buffer. -/
structure Finished (c : Connection) : Prop where
  delivered : c.delivered = c.queued
  acknowledged : c.snd.sndLastDataAck = incseq c.snd.sndCurrSeqNo
  nothing : c.snd.sndBuffer.readData = none

/-- So it is when all packets are settled. -/
theorem Settled.finished (hc : c.Settled W V first packets s S q T R g j (first + packets.length)) : c.Finished := by
  have horder := hc.linked.order
  have hreceived := hc.linked.received
  have hdrop : (packets.drop (first + packets.length - first).toNat).length = 0 := by
    rw [List.length_drop]
    omega
  constructor
  · have hstream := hc.linked.delivered
    rw [joined_packetAt (by omega), List.take_of_length_le (by omega), hc.linked.queued, RcvBuffer.pending,
      Pieces.joined_self, List.drop_nil, List.append_nil] at hstream
    exact hstream
  · rw [hc.linked.snd.lastDataAck, hc.linked.snd.curr, incseq_currSeq (by omega)]
    congr 1
    omega
  · have hread := hc.linked.snd.buffer.read_le
    exact hc.linked.snd.buffer.readData_none (by omega)

/-! ## From any state -/

/-- What holds in every state of a connection whose ACKs come in time. -/
def Live (W V first : ℤ) (c : Connection) : Prop :=
  ∃ packets s a d e S r q h T R g j p, c.Linked W V first packets s a d e S r q h T R g j ∧ c.Told a e g j p ∧
    r - p ≤ lifetime

/-- Timely steps keep what holds in every state. -/
theorem Live.step {event : ConnEvent} (hc : Live W V first c) (hstep : c.TimelyStep event c') : Live W V first c' := by
  obtain ⟨packets, s, a, d, e, S, r, q, h, T, R, g, j, p, hlinked, htold, hpr⟩ := hc
  obtain ⟨⟨henabled, hact⟩, htimely, hconfirming⟩ := hstep
  obtain ⟨c'', hact', packets', s', a', d', e', S', r', q', h', T', R', g', j', hlinked', hrr', htold'⟩ :=
    hlinked.act henabled
  obtain rfl : c'' = c' := Option.some.inj (hact'.symm.trans hact)
  have hlifetime : (lifetime : ℤ) = 2 ^ 29 := rfl
  have hV := hlinked.rcv.window.2
  obtain ⟨p', hpp', ht'⟩ := htold' p htold htimely (by omega)
  refine ⟨packets', s', a', d', e', S', r', q', h', T', R', g', j', p', hlinked', ht', ?_⟩
  have hpe := ht'.confirmed.1
  have her := hlinked'.acked.1
  rw [Confirming, ht'.lastAckAck, hlinked'.rcv.lastAck, seqoff_seqOf (by rw [near_iff]; omega)] at hconfirming
  exact hconfirming

/-- A connection can finish from every such state. -/
theorem Live.finish (hwindow : ∀ c, 1 ≤ window c) (hc : Live W V first c) : ∃ c', Leads window c c' ∧ c'.Finished := by
  obtain ⟨packets, s, a, d, e, S, r, q, h, T, R, g, j, p, hlinked, htold, hpr⟩ := hc
  obtain ⟨c₁, s₁, d₁, S₁, hlead₁, hlinked₁, htold₁, hrest⟩ := hlinked.rest htold
  obtain ⟨c₂, S₂, T₂, g₂, j₂, w, hlead₂, hsettled, -⟩ := hlinked₁.settle htold₁ hrest hpr
  obtain ⟨c₃, s₃, S₃, q₃, T₃, R₃, g₃, j₃, hlead₃, hdone⟩ := hsettled.finish hwindow
  exact ⟨c₃, (hlead₁.trans hlead₂).trans hlead₃, hdone.finished⟩

/-- It holds when a connection is established. -/
theorem Established.live {client server : Options} {isn : ℤ} (h : Established client server isn c)
    (hclient : client.Valid) (hserver : server.Valid) (hisn : 0 ≤ isn ∧ isn ≤ 0x7FFFFFFF) :
    ∃ W V, Live W V isn c := by
  obtain ⟨payloadSize, sndBufSize, W, V, flightFlagSize, m, rfl, hpayload, ⟨hV, hVW, hW⟩, hflight, hsize⟩ :=
    h.opened hclient hserver hisn
  refine ⟨W, V, _, _, _, _, _, _, _, _, _, _, _, _, _, _, linked_opened (by omega) sndBufSize isn m hV hVW hW hflight hsize,
    told_opened payloadSize sndBufSize V flightFlagSize isn m (hV.trans hVW), ?_⟩
  rw [sub_self]
  decide

end Connection

end Udtfs

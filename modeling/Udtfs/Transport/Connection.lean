import Udtfs.Transport.Receiver
import Udtfs.Transport.Sender

/-!
# A connection

One direction of a connection: a sender, a receiver, and everything that was ever sent between them. The
network loses, repeats and reorders what it carries as it likes, but delivers nothing that is too old: a
packet no longer arrives once the sender has packed `lifetime` more packets since it was sent.
-/

namespace Udtfs

/-- What is carried between the two sides. -/
inductive NetPacket
  | data (seqno : ℤ) (payload : Bytes)
  | ack (info : Receiver.AckInfo)
  | liteAck (ack : ℤ)
  | nak (losslist : List (BitVec 32))
  | ack2 (ackno : ℤ)
  deriving DecidableEq

/-- Acknowledgements and loss reports go to the sender. -/
def NetPacket.toSender : NetPacket → Bool
  | .ack _ | .liteAck _ | .nak _ => true
  | .data _ _ | .ack2 _ => false

/-- The packets that name an ACK by its number. -/
def NetPacket.namesAck : NetPacket → Bool
  | .ack _ | .ack2 _ => true
  | .data _ _ | .liteAck _ | .nak _ => false

/-- A packet in the network, and how many packets the sender had packed and how many ACKs the receiver had
sent by then. -/
structure InFlight where
  stamp : ℕ
  acks : ℕ
  packet : NetPacket
  deriving DecidableEq

/-- A sender, a receiver, and the network between them. -/
structure Connection where
  snd : Sender
  rcv : Receiver
  /-- All that was ever sent. -/
  net : List InFlight
  /-- The bytes that the application has queued. -/
  queued : Bytes
  /-- The bytes that the other application has received. -/
  delivered : Bytes

/-- Arrays that are allocated and not initialized. -/
structure Memory where
  sndNext : ℤ → ℤ
  rcvNext : ℤ → ℤ
  rcvPrior : ℤ → ℤ
  ackSeqNo : ℕ → ℤ
  ack : ℕ → ℤ

/-- Steps of the threads on both sides and of the network. -/
inductive ConnEvent
  | send (data : Bytes)
  | sendfile (file : CFile) (unitsize : ℕ)
  | packData (cwnd : ℤ)
  | transmit (payload : Bytes)
  | acknowledge
  | expire
  | sendAck (old : Bool)
  | sendLiteAck
  | sendNak
  | recv (len : ℕ)
  | deliver (m : InFlight) (late : Bool) (rtt : ℤ)

namespace Connection

/-- After so many more packets nothing is delivered any more. -/
def lifetime : ℕ := 2 ^ 29

/-- A packet goes into the network. -/
def post (c : Connection) (packet : NetPacket) : Connection :=
  { c with net := ⟨c.snd.sentTotal, c.rcv.sentAckTotal, packet⟩ :: c.net }

/-- The same where there may be none. -/
def reply (c : Connection) : Option NetPacket → Connection
  | none => c
  | some packet => c.post packet

/-- A packet arrives. -/
def receive (c : Connection) (packet : NetPacket) (late : Bool) (rtt : ℤ) : Option Connection :=
  match packet with
  | .data seqno payload => do
    let (y, report) ← c.rcv.processData seqno payload
    some ({ c with rcv := y }.reply (report.map .nak))
  | .ack info =>
    let c' := { c with snd := c.snd.processAck late info.ackno info.ack info.flowWindow }
    some (if c.snd.sendsAck2 late info.ackno then c'.post (.ack2 info.ackno) else c')
  | .liteAck ack => some { c with snd := c.snd.processLiteAck ack }
  | .nak losslist => do
    let x ← c.snd.processNak losslist
    some { c with snd := x }
  | .ack2 ackno => some { c with rcv := c.rcv.processAck2 ackno rtt }

/-- What the code does; `none` where it goes wrong. -/
def act (c : Connection) : ConnEvent → Option Connection
  | .send data => some { c with snd := (c.snd.send data).1, queued := c.queued ++ (c.snd.send data).2 }
  | .sendfile file unitsize =>
    some { c with
      snd := (c.snd.sendfileRound file unitsize).1
      queued := c.queued ++ (c.snd.sendfileRound file unitsize).2.1 }
  | .packData cwnd => some { c with snd := c.snd.packData cwnd }
  | .transmit payload =>
    match c.snd.packing with
    | .packed seqno _ => some ({ c with snd := { c.snd with packing := .idle } }.post (.data seqno payload))
    | _ => some c
  | .acknowledge =>
    match c.snd.acking with
    | none => some c
    | some ack => (c.snd.acknowledge ack).map fun x => { c with snd := x }
  | .expire => c.snd.expire.map fun x => { c with snd := x }
  | .sendAck old => some (reply { c with rcv := (c.rcv.sendAck old).1 } ((c.rcv.sendAck old).2.map .ack))
  | .sendLiteAck => some (c.reply (c.rcv.sendLiteAck.map .liteAck))
  | .sendNak => c.rcv.sendNak.map fun report => c.reply (report.map .nak)
  | .recv len => (c.rcv.recv len).map fun r => { c with rcv := r.1, delivered := c.delivered ++ r.2 }
  | .deliver m late rtt => c.receive m.packet late rtt

/-- When a step can be taken. What has left the buffer may have been overwritten when it is sent, but the packet
keeps its length; the receiving worker handles one packet after another. -/
def Enabled (c : Connection) : ConnEvent → Prop
  | .sendfile _ _ => c.snd.sndBuffer.count < c.snd.sndBufSize
  | .transmit payload =>
    ∃ seqno block, c.snd.packing = .packed seqno block ∧ (payload ≠ [] ∧ payload.length ≤ c.snd.payloadSize) ∧
      (0 ≤ seqoff c.snd.sndLastDataAck seqno → payload = c.snd.sndBuffer.data block)
  | .acknowledge => c.snd.acking ≠ none
  | .expire => c.snd.acking = none
  | .deliver m _ _ =>
    m ∈ c.net ∧ c.snd.sentTotal ≤ m.stamp + lifetime ∧ (m.packet.toSender = true → c.snd.acking = none)
  | _ => True

/-- A step of the connection. -/
def Step (c : Connection) (event : ConnEvent) (c' : Connection) : Prop :=
  c.Enabled event ∧ c.act event = some c'

end Connection

end Udtfs

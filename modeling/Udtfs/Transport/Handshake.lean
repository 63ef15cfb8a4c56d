import Udtfs.Lib.Run
import Udtfs.Transport.Linked

/-!
# From the handshake to the end of a connection

`connect` of `core.cpp` on both sides, and what holds in every run of the connections that it opens. The
answer to a repeated request, from `newConnection` of `api.cpp`, offers the whole flight window instead of the
receive buffer, which may be smaller.
-/

namespace Udtfs

open Transition

/-- The options of a socket that both sides must agree on. -/
structure Options where
  /-- `m_iMSS`. -/
  mss : ℤ
  /-- `m_iFlightFlagSize`. -/
  flightFlagSize : ℤ
  /-- `m_iSndBufSize`. -/
  sndBufSize : ℤ
  /-- `m_iRcvBufSize`. -/
  rcvBufSize : ℤ
  deriving DecidableEq

/-- What `CHandShake` carries about them. -/
structure HandShake where
  isn : ℤ
  mss : ℤ
  flightFlagSize : ℤ
  deriving DecidableEq

namespace Options

/-- The options that are not set. -/
def default : Options := ⟨1500, 25600, 8192, 8192⟩

/-- What `setOpt` is to ensure: there is room for a handshake in a packet, and the receive buffer is no larger
than the flight window. -/
structure Valid (o : Options) : Prop where
  mss : 28 + 48 ≤ o.mss
  rcvBuf : 32 ≤ o.rcvBufSize
  rcvBuf_le : o.rcvBufSize ≤ o.flightFlagSize
  flight : o.flightFlagSize ≤ Sender.maxWindow

/-- The window that is offered to the peer. -/
def window (o : Options) : ℤ := if o.rcvBufSize < o.flightFlagSize then o.rcvBufSize else o.flightFlagSize

/-- The request of a client. -/
def request (o : Options) (isn : ℤ) : HandShake := ⟨isn, o.mss, o.window⟩

/-- `connect` of a server that gets a request: its options and its answer. -/
def accept (o : Options) (hs : HandShake) : Options × HandShake :=
  let mss := if hs.mss > o.mss then o.mss else hs.mss
  ({ o with mss := mss }, ⟨hs.isn, mss, o.window⟩)

/-- The answer to a repeated request. -/
def acceptAgain (o : Options) (hs : HandShake) : Options × HandShake :=
  let o := (o.accept hs).1
  (o, ⟨hs.isn, o.mss, o.flightFlagSize⟩)

/-- `m_iPayloadSize`. -/
def payloadSize (mss : ℤ) : ℕ := (mss - 28 - 16).toNat

end Options

namespace Connection

/-- The direction from the client to the server. -/
def upload (client server : Options) (isn : ℤ) (again : Bool) (m : Memory) : Connection :=
  let hs := client.request isn
  let (server, res) := if again then server.acceptAgain hs else server.accept hs
  opened (Options.payloadSize res.mss) client.sndBufSize res.flightFlagSize server.rcvBufSize server.flightFlagSize
    res.isn m

/-- The direction from the server to the client. -/
def download (client server : Options) (isn : ℤ) (m : Memory) : Connection :=
  let hs := client.request isn
  let (server, res) := server.accept hs
  opened (Options.payloadSize server.mss) server.sndBufSize hs.flightFlagSize client.rcvBufSize client.flightFlagSize
    res.isn m

/-- The connections that a handshake opens. -/
inductive Established (client server : Options) (isn : ℤ) : Connection → Prop
  | upload (again : Bool) (m : Memory) : Established client server isn (upload client server isn again m)
  | download (m : Memory) : Established client server isn (download client server isn m)

variable {client server : Options} {isn : ℤ} {c c' : Connection} {events : List ConnEvent}

/-- Every window that is offered covers the receive buffer, and a packet has room for a handshake. -/
theorem Established.opened (h : Established client server isn c) (hclient : client.Valid) (hserver : server.Valid)
    (hisn : 0 ≤ isn ∧ isn ≤ 0x7FFFFFFF) :
    ∃ payloadSize sndBufSize W V flightFlagSize m,
      c = Connection.opened payloadSize sndBufSize W V flightFlagSize (seqOf isn) m ∧ 32 ≤ payloadSize ∧
        (2 ≤ V ∧ V ≤ W ∧ W ≤ Sender.maxWindow) ∧ V ≤ flightFlagSize ∧ flightFlagSize < CSeqNo.threshold := by
  have hseq : seqOf isn = isn := SerialNumber.wrap_of_bounds hisn.1 hisn.2
  have hmax : Sender.maxWindow = 2 ^ 26 := rfl
  have hthreshold : CSeqNo.threshold = 0x3FFFFFFF := rfl
  obtain ⟨hcmss, hcbuf, hcle, hcflight⟩ := hclient
  obtain ⟨hsmss, hsbuf, hsle, hsflight⟩ := hserver
  have hpayload : 32 ≤ Options.payloadSize (server.accept (client.request isn)).1.mss := by
    simp only [Options.accept, Options.request, Options.payloadSize]
    split_ifs <;> omega
  have hwindow : ∀ o : Options, o.rcvBufSize ≤ o.flightFlagSize →
      o.rcvBufSize ≤ o.window ∧ o.window ≤ o.flightFlagSize := fun o hle => by
    unfold Options.window
    split_ifs <;> omega
  rw [hseq]
  cases h with
  | upload again m =>
    have hoffer := hwindow server hsle
    cases again with
    | true =>
      exact ⟨_, _, server.flightFlagSize, server.rcvBufSize, server.flightFlagSize, m, rfl, hpayload, by omega, hsle,
        by omega⟩
    | false =>
      exact ⟨_, _, server.window, server.rcvBufSize, server.flightFlagSize, m, rfl, hpayload, by omega, hsle, by omega⟩
  | download m =>
    have hoffer := hwindow client hcle
    exact ⟨_, _, client.window, client.rcvBufSize, client.flightFlagSize, m, rfl, hpayload, by omega, hcle, by omega⟩

/-- The invariant holds in every run. -/
theorem Established.run_inv (h : Established client server isn c) (hclient : client.Valid) (hserver : server.Valid)
    (hisn : 0 ≤ isn ∧ isn ≤ 0x7FFFFFFF) (hrun : Run Step c events c') : ∃ W V, Inv W V isn c' := by
  obtain ⟨payloadSize, sndBufSize, W, V, flightFlagSize, m, rfl, hpayload, ⟨hV, hVW, hW⟩, hflight, hsize⟩ :=
    h.opened hclient hserver hisn
  exact ⟨W, V, hrun.invariant (fun _ _ _ hc hstep => hc.step hstep)
    (inv_opened (by omega) sndBufSize isn m hV hVW hW hflight hsize)⟩

/-- The options that are not set are valid. -/
theorem default_valid : Options.default.Valid := ⟨by decide, by decide, by decide, by decide⟩

/-- The start of an upload with the default options. -/
def helloStart : Connection :=
  upload Options.default Options.default 5 false
    ⟨fun _ => 0, fun _ => 0, fun _ => 0, fun _ => 0, fun _ => 0⟩

/-- Three bytes are queued, packed, carried, acknowledged and partly read; then the ACK arrives. -/
def helloEvents : List ConnEvent :=
  [.send [1, 2, 3], .packData 16, .packData 16, .packData 16, .transmit [1, 2, 3],
    .deliver ⟨1, 0, .data 5 [1, 2, 3]⟩ false 0, .sendAck false, .recv 2,
    .deliver ⟨1, 1, .ack ⟨1, 6, 8190⟩⟩ true 0, .acknowledge]

/-- The first of these steps, in a ring that need not grow. -/
theorem hello_send :
    helloStart.act (.send [1, 2, 3]) = some { helloStart with
      snd := { helloStart.snd with sndBuffer := { SndBlocks.init.fill [[1, 2, 3]] with count := 1 } }
      queued := [1, 2, 3] } := by
  have hreserve : SndBlocks.init.reserve (plannedBlocks 1456 3) = SndBlocks.init := by
    rw [SndBlocks.reserve, if_neg (by decide)]
  have hadd : SndBlocks.init.addBuffer 1456 [1, 2, 3] = { SndBlocks.init.fill [[1, 2, 3]] with count := 1 } := by
    rw [SndBlocks.addBuffer, SndBlocks.addPackets, List.length_cons, List.length_cons, List.length_singleton,
      hreserve]
    rfl
  rw [← hadd]
  rfl

/-- The events make a run in which two of three bytes are delivered. -/
theorem hello_run :
    ∃ c', Run TimelyStep helloStart helloEvents c' ∧ c'.delivered = [1, 2] ∧ c'.queued = [1, 2, 3] ∧
      c'.snd.sndBuffer.count = 0 ∧ c'.net ≠ [] := by
  refine ⟨_, ((((((((((Run.nil _).snoc ⟨⟨trivial, hello_send⟩, trivial, by decide⟩).snoc
    ⟨⟨trivial, rfl⟩, trivial, by decide⟩).snoc ⟨⟨trivial, rfl⟩, trivial, by decide⟩).snoc
    ⟨⟨trivial, rfl⟩, trivial, by decide⟩).snoc ⟨⟨⟨5, 0, rfl, by decide, fun _ => rfl⟩, rfl⟩, trivial, by decide⟩).snoc
    ⟨⟨⟨List.mem_cons_self, by decide, fun _ => rfl⟩, rfl⟩, fun _ => by decide, by decide⟩).snoc
    ⟨⟨trivial, rfl⟩, trivial, by decide⟩).snoc ⟨⟨trivial, rfl⟩, trivial, by decide⟩).snoc
    ⟨⟨⟨List.mem_cons_self, by decide, fun _ => rfl⟩, rfl⟩, fun _ => by decide, by decide⟩).snoc
    ⟨⟨fun h => Option.some_ne_none _ h, rfl⟩, trivial, by decide⟩, rfl, rfl, rfl, List.cons_ne_nil _ _⟩

/-- Its start is that of an upload. -/
theorem hello_established : Established Options.default Options.default 5 helloStart := .upload false _

/-- **Reliable delivery.** Whatever the network loses, repeats and reorders, and however the threads of both sides
take turns, the receiving application gets the bytes that the sending one has queued, in their order and
each once. -/
theorem delivered_prefix (h : Established client server isn c) (hclient : client.Valid) (hserver : server.Valid)
    (hisn : 0 ≤ isn ∧ isn ≤ 0x7FFFFFFF) (hrun : Run Step c events c') : c'.delivered <+: c'.queued := by
  obtain ⟨W, V, hinv⟩ := h.run_inv hclient hserver hisn hrun
  exact hinv.delivered

/-- So it is in the run above. -/
theorem delivered_prefix_hello : ∃ c', Run Step helloStart helloEvents c' ∧ c'.delivered <+: c'.queued := by
  obtain ⟨c', hrun, -⟩ := hello_run
  have hsteps := hrun.mono fun _ _ _ hstep => hstep.1
  exact ⟨c', hsteps, delivered_prefix hello_established default_valid default_valid (by decide) hsteps⟩

/-- **No attack is seen where there is none**, no NULL packet is used and no list is followed for ever: every step
that can be taken is defined, and neither an ACK nor a loss report breaks the connection. -/
theorem never_broken (h : Established client server isn c) (hclient : client.Valid) (hserver : server.Valid)
    (hisn : 0 ≤ isn ∧ isn ≤ 0x7FFFFFFF) (hrun : Run Step c events c') :
    c'.snd.broken = false ∧ ∀ event, c'.Enabled event → (c'.act event).isSome = true := by
  obtain ⟨W, V, hinv⟩ := h.run_inv hclient hserver hisn hrun
  exact ⟨hinv.sound, fun event henabled => hinv.defined henabled⟩

/-- It breaks nothing. -/
theorem never_broken_hello :
    ∃ c', Run Step helloStart helloEvents c' ∧ c'.snd.broken = false ∧
      ∀ event, c'.Enabled event → (c'.act event).isSome = true := by
  obtain ⟨c', hrun, -⟩ := hello_run
  have hsteps := hrun.mono fun _ _ _ hstep => hstep.1
  exact ⟨c', hsteps, never_broken hello_established default_valid default_valid (by decide) hsteps⟩

/-- **A close that has waited loses nothing.** When the count of the send buffer has gone down to zero, which
`close` waits for, the receiver has all bytes that were queued: reading on yields the rest. -/
theorem drained_received (h : Established client server isn c) (hclient : client.Valid) (hserver : server.Valid)
    (hisn : 0 ≤ isn ∧ isn ≤ 0x7FFFFFFF) (hrun : Run Step c events c') (hempty : c'.snd.sndBuffer.count ≤ 0)
    {len : ℕ} (hlen : c'.queued.length ≤ len) :
    ∃ y out, c'.rcv.recv len = some (y, out) ∧ c'.delivered ++ out = c'.queued := by
  obtain ⟨W, V, hinv⟩ := h.run_inv hclient hserver hisn hrun
  exact hinv.drained hempty hlen

/-- What has left the buffer of its sender can be received. -/
theorem drained_received_hello :
    ∃ c', Run Step helloStart helloEvents c' ∧
      ∃ y out, c'.rcv.recv 3 = some (y, out) ∧ c'.delivered ++ out = c'.queued := by
  obtain ⟨c', hrun, -, hqueued, hcount, -⟩ := hello_run
  have hsteps := hrun.mono fun _ _ _ hstep => hstep.1
  exact ⟨c', hsteps, drained_received hello_established default_valid default_valid (by decide) hsteps hcount.le
    (by rw [hqueued]; decide)⟩

end Connection

end Udtfs

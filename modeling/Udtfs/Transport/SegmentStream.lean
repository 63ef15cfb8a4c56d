import Udtfs.Framing
import Udtfs.Lib.ChangingContent
import Udtfs.Transport.Handshake

/-!
# Segments over a connection

`server_sendsegment` and `client_recvsegment` at the two ends of a UDT connection, step by step and interleaved with
everything that the threads and the network do. The requests come over TCP, in their order. A segment is queued
round by round, first from the file and then from `/dev/zero`, and received in pieces. Each round reads the file
when there is room for it, and others can change the file meanwhile; each fetch gets what was read for it.
-/

namespace Udtfs

open Transition Content

/-- The arguments of a request for a segment. -/
structure SegmentRequest where
  filename : Bytes
  offset : ℤ
  len : ℕ

/-- A request whose file has been opened. -/
structure OpenedSegment where
  request : SegmentRequest
  /-- All contents that the file has had since it was opened, up to its closing. -/
  contents : List Bytes
  /-- What has been queued for the request. -/
  queued : Bytes

namespace OpenedSegment

/-- The position at which the segment begins. -/
def start (o : OpenedSegment) : ℕ := fseeko o.request.offset

/-- What `sendfile` returns when so many bytes are left of its size. -/
def sent (o : OpenedSegment) (tosend : ℕ) : ℤ := (toInt64 o.request.len).toNat - tosend

end OpenedSegment

/-- Where `server_sendsegment` stands: in the loop of the first `sendfile`, with the file at a position and perhaps
found to end, in that of the second one, or in neither. The loops have `tosend` bytes left. -/
inductive Sending
  | idle
  | file (o : OpenedSegment) (position : ℕ) (eof : Bool) (tosend : ℕ)
  | zeros (o : OpenedSegment) (tosend : ℕ)

namespace Sending

/-- The first loop is begun; a size that is no `int64_t` sends nothing. -/
def begin (request : SegmentRequest) (content : Bytes) : Sending :=
  .file ⟨request, [content], []⟩ (fseeko request.offset) false (toInt64 request.len).toNat

/-- The file that is open, if any, has another content now. -/
def change (content : Bytes) : Sending → Sending
  | .file o position eof tosend => .file { o with contents := content :: o.contents } position eof tosend
  | sending => sending

/-- The request that is being served. -/
def current : Sending → Option OpenedSegment
  | .idle => none
  | .file o _ _ _ => some o
  | .zeros o _ => some o

/-- How far a request is served: what has been queued for it was read from its file, and how much is left. -/
def Progress : Sending → Prop
  | .idle => True
  | .file o position eof tosend =>
    o.queued.length + tosend = o.request.len ∧ position = o.start + o.queued.length ∧
      ReadUpTo o.contents o.start o.queued o.queued.length ∧ (eof = true → Ends o.contents position)
  | .zeros o tosend =>
    o.queued.length + tosend = o.request.len ∧
      ∃ k, ReadUpTo o.contents o.start o.queued k ∧ Ends o.contents (o.start + k)

/-- What has been queued for the present request was read from its file. -/
theorem Progress.readFrom {sending : Sending} (h : sending.Progress) {o : OpenedSegment}
    (ho : sending.current = some o) : o.queued.length ≤ o.request.len ∧ ReadFrom o.contents o.start o.queued := by
  cases sending with
  | idle => contradiction
  | file o' position eof tosend =>
    obtain rfl := Option.some.inj ho
    obtain ⟨hlength, -, hread, -⟩ := h
    exact ⟨by omega, hread.readFrom⟩
  | zeros o' tosend =>
    obtain rfl := Option.some.inj ho
    obtain ⟨hlength, k, hread, hends⟩ := h
    exact ⟨by omega, k, hread, fun _ => hends⟩

/-- Another content of the open file is one more that can be read. -/
theorem Progress.change {sending : Sending} (h : sending.Progress) (content : Bytes) :
    (sending.change content).Progress := by
  cases sending with
  | idle | zeros => exact h
  | file o position eof tosend =>
    obtain ⟨hlength, hposition, hread, heof⟩ := h
    have hsub : o.contents ⊆ content :: o.contents := List.subset_cons_self _ _
    exact ⟨hlength, hposition, hread.mono hsub, fun hend => (heof hend).mono hsub⟩

/-- The request stays the same, with what has been queued for it. -/
theorem change_current (sending : Sending) (content : Bytes) :
    (sending.change content).current.toList.map OpenedSegment.request =
        sending.current.toList.map OpenedSegment.request ∧
      (sending.change content).current.toList.map OpenedSegment.queued =
        sending.current.toList.map OpenedSegment.queued := by
  cases sending <;> exact ⟨rfl, rfl⟩

end Sending

/-- A request has been served: all bytes are queued, and they were read from its file. -/
def OpenedSegment.Served (o : OpenedSegment) : Prop :=
  o.queued.length = o.request.len ∧ ReadFrom o.contents o.start o.queued

/-- A file that is not at its end, as far as a round reads it. -/
def CFile.shown (bytes : Bytes) : CFile := ⟨bytes, false, false, false⟩

/-- `/dev/zero`, as far as a round reads it. -/
def zeroFile (unitsize : ℕ) : CFile := .shown (List.replicate unitsize 0)

/-- Both ends and the connection between them. -/
structure SegmentStream where
  conn : Connection
  fs : ServerFs
  /-- The requests that the client has sent. -/
  asked : List SegmentRequest
  /-- Those that the server has served. -/
  served : List OpenedSegment
  sending : Sending
  /-- What the complete fetches of the client have received. -/
  fetched : List Bytes
  /-- What the present one has. -/
  received : Bytes

/-- What happens at the two ends and between them. -/
inductive SegmentEvent
  /-- Others change the files, and the one that is open to a content. -/
  | change (fs : ServerFs) (content : Bytes)
  | ask (request : SegmentRequest)
  | openFile
  | round
  | fill
  | recv
  | finish
  | transport (event : ConnEvent)

/-- The steps that the two applications leave to the threads below. -/
def ConnEvent.below : ConnEvent → Bool
  | .send _ | .sendfile _ _ | .recv _ => false
  | _ => true

namespace SegmentStream

/-- The requests whose file has been opened, in their order. -/
def opened (s : SegmentStream) : List OpenedSegment := s.served ++ s.sending.current.toList

/-- A step: of other sessions on the files, of the client and the server, or of the transport. Only requests whose
offset `fseeko` accepts are served here. -/
inductive Step (s : SegmentStream) : SegmentEvent → SegmentStream → Prop
  | change (fs : ServerFs) (content : Bytes) :
      Step s (.change fs content) { s with fs := fs, sending := s.sending.change content }
  | ask (request : SegmentRequest) (hcarried : (Request.read request.filename request.offset request.len).Carried) :
      Step s (.ask request) { s with asked := s.asked ++ [request] }
  | openFile {request : SegmentRequest} {content : Bytes} (hidle : s.sending = .idle)
      (hnext : s.asked[s.served.length]? = some request) (hopen : s.fs.fopenRead request.filename = some content)
      (hseek : request.offset ≤ s.fs.maxSize) : Step s .openFile { s with sending := .begin request content }
  | fileRound {o : OpenedSegment} {position tosend : ℕ} {bytes : Bytes} {c : Connection}
      (hsending : s.sending = .file o position false tosend) (htosend : tosend ≠ 0)
      (hread : OnceRead o.contents position (min tosend sendfileBlock) bytes)
      (hround : s.conn.Step (.sendfile (.shown bytes) (min tosend sendfileBlock)) c) :
      Step s .round
        { s with
          conn := c
          sending :=
            let added := s.conn.snd.sendfileRound (.shown bytes) (min tosend sendfileBlock)
            .file { o with queued := o.queued ++ added.2.1 } (position + added.2.1.length)
              (fileSource.stopped added.2.2) (tosend - added.2.1.length) }
  /-- The first loop has ended with less than was asked for. -/
  | fill {o : OpenedSegment} {position tosend : ℕ} {eof : Bool} (hsending : s.sending = .file o position eof tosend)
      (hends : tosend = 0 ∨ eof = true) (hshort : toSizeT (o.sent tosend) < o.request.len) :
      Step s .fill { s with sending := .zeros o (toInt64 (o.request.len - o.sent tosend)).toNat }
  | fileDone {o : OpenedSegment} {position tosend : ℕ} {eof : Bool} (hsending : s.sending = .file o position eof tosend)
      (hends : tosend = 0 ∨ eof = true) (hall : ¬ toSizeT (o.sent tosend) < o.request.len) :
      Step s .fill { s with served := s.served ++ [o], sending := .idle }
  | zeroRound {o : OpenedSegment} {tosend : ℕ} {c : Connection} (hsending : s.sending = .zeros o tosend)
      (htosend : tosend ≠ 0)
      (hround : s.conn.Step (.sendfile (zeroFile (min tosend sendfileBlock)) (min tosend sendfileBlock)) c) :
      Step s .round
        { s with
          conn := c
          sending :=
            let added := s.conn.snd.sendfileRound (zeroFile (min tosend sendfileBlock)) (min tosend sendfileBlock)
            .zeros { o with queued := o.queued ++ added.2.1 } (tosend - added.2.1.length) }
  | zerosDone {o : OpenedSegment} (hsending : s.sending = .zeros o 0) :
      Step s .fill { s with served := s.served ++ [o], sending := .idle }
  | recv {request : SegmentRequest} {y : Receiver} {out : Bytes}
      (hfetch : s.asked[s.fetched.length]? = some request) (hremain : s.received.length < request.len)
      (hrecv : s.conn.rcv.recv (request.len - s.received.length) = some (y, out)) :
      Step s .recv
        { s with
          conn := { s.conn with rcv := y, delivered := s.conn.delivered ++ out }
          received := s.received ++ out }
  | finish {request : SegmentRequest} (hfetch : s.asked[s.fetched.length]? = some request)
      (hremain : request.len ≤ s.received.length) :
      Step s .finish { s with fetched := s.fetched ++ [s.received], received := [] }
  | transport {event : ConnEvent} {c : Connection} (hbelow : event.below = true) (hstep : s.conn.Step event c) :
      Step s (.transport event) { s with conn := c }

variable {s s' : SegmentStream} {event : SegmentEvent} {W V first : ℤ}

/-! ## Steps of the connection -/

/-- What the two ends do are steps of the connection. -/
theorem Step.conn_step (h : s.Step event s') : s'.conn = s.conn ∨ ∃ event, s.conn.Step event s'.conn := by
  cases h with
  | change | ask | openFile | fill | fileDone | zerosDone | finish => exact Or.inl rfl
  | fileRound hsending htosend hread hround => exact Or.inr ⟨_, hround⟩
  | zeroRound hsending htosend hround => exact Or.inr ⟨_, hround⟩
  | @recv request y out hfetch hremain hrecv =>
    refine Or.inr ⟨.recv (request.len - s.received.length), trivial, ?_⟩
    simp only [Connection.act, hrecv, Option.map_some]
  | transport hbelow hstep => exact Or.inr ⟨_, hstep⟩

/-- The threads below queue nothing and deliver nothing. -/
theorem below_streams {c c' : Connection} {event : ConnEvent} (hbelow : event.below = true) (hact : c.act event = some c') :
    c'.queued = c.queued ∧ c'.delivered = c.delivered := by
  have hreply : ∀ (c : Connection) packet, (c.reply packet).queued = c.queued ∧ (c.reply packet).delivered = c.delivered := by
    rintro c (_ | packet) <;> exact ⟨rfl, rfl⟩
  cases event with
  | send | sendfile | recv => contradiction
  | packData cwnd =>
    obtain rfl := Option.some.inj hact
    exact ⟨rfl, rfl⟩
  | transmit payload =>
    simp only [Connection.act] at hact
    split at hact <;> obtain rfl := Option.some.inj hact <;> exact ⟨rfl, rfl⟩
  | acknowledge =>
    simp only [Connection.act] at hact
    split at hact
    · obtain rfl := Option.some.inj hact
      exact ⟨rfl, rfl⟩
    · obtain ⟨x, -, rfl⟩ := Option.map_eq_some_iff.mp hact
      exact ⟨rfl, rfl⟩
  | expire =>
    obtain ⟨x, -, rfl⟩ := Option.map_eq_some_iff.mp hact
    exact ⟨rfl, rfl⟩
  | sendAck old =>
    obtain rfl := Option.some.inj hact
    exact hreply _ _
  | sendLiteAck =>
    obtain rfl := Option.some.inj hact
    exact hreply _ _
  | sendNak =>
    obtain ⟨report, -, rfl⟩ := Option.map_eq_some_iff.mp hact
    exact hreply _ _
  | deliver m late rtt =>
    simp only [Connection.act, Connection.receive] at hact
    split at hact
    · obtain ⟨⟨y, report⟩, -, hafter⟩ := Option.bind_eq_some_iff.mp hact
      obtain rfl := Option.some.inj hafter
      exact hreply _ _
    · obtain rfl := Option.some.inj hact
      split <;> exact ⟨rfl, rfl⟩
    · obtain rfl := Option.some.inj hact
      exact ⟨rfl, rfl⟩
    · obtain ⟨x, -, hafter⟩ := Option.bind_eq_some_iff.mp hact
      obtain rfl := Option.some.inj hafter
      exact ⟨rfl, rfl⟩
    · obtain rfl := Option.some.inj hact
      exact ⟨rfl, rfl⟩

/-! ## Queueing a segment -/

/-- A round queues what it is shown, and finds the end if that is less than it asks for. -/
theorem shown_round {mss : ℕ} (hmss : 0 < mss) {bytes : Bytes} {unitsize : ℕ} (hle : bytes.length ≤ unitsize) :
    (addBufferFromFile fileSource mss unitsize (.shown bytes)).1.flatten = bytes ∧
      fileSource.stopped (addBufferFromFile fileSource mss unitsize (.shown bytes)).2 =
        decide (bytes.length < unitsize) := by
  have hgoes : fileSource.stopped (.shown bytes) = false := rfl
  have hadded := addBufferFromFile_eq_read fileSource hmss unitsize hgoes
  have hbytes := congrArg Prod.fst hadded
  have hafter := congrArg Prod.snd hadded
  have hread : (fileSource.read (.shown bytes) unitsize).1 = bytes := by
    change ((CFile.shown bytes).fread unitsize).1 = bytes
    rw [CFile.fread]
    split
    · rfl
    · exact List.take_of_length_le hle
  dsimp only at hbytes hafter
  rw [hbytes, hafter, fileSource.stopped_read _ _ hgoes, hread]
  exact ⟨rfl, rfl⟩

/-- Chunks of `/dev/zero`. -/
theorem readChunks_zeroSource {sizes : List ℕ} (hsizes : ∀ n ∈ sizes, 0 < n) :
    (zeroSource.readChunks sizes ()).1 = sizes.map fun n => List.replicate n 0 := by
  induction sizes with
  | nil => rfl
  | cons n sizes ih =>
    obtain ⟨hn, hrest⟩ := List.forall_mem_cons.mp hsizes
    have hsome : 0 < (zeroSource.read () n).1.length := by
      change 0 < (List.replicate n (0 : UInt8)).length
      rwa [List.length_replicate]
    rw [zeroSource.readChunks_cons rfl hsome]
    exact congrArg _ (ih hrest)

/-- The same chunks of a file of zeros. -/
theorem readChunks_zeroFile {sizes : List ℕ} {n : ℕ} (hsizes : ∀ n ∈ sizes, 0 < n) (hsum : sizes.sum ≤ n) :
    (fileSource.readChunks sizes (zeroFile n)).1 = sizes.map fun n => List.replicate n 0 := by
  induction sizes generalizing n with
  | nil => rfl
  | cons k sizes ih =>
    obtain ⟨hk, hrest⟩ := List.forall_mem_cons.mp hsizes
    rw [List.sum_cons] at hsum
    have hread : fileSource.read (zeroFile n) k = (List.replicate k 0, zeroFile (n - k)) := by
      change (zeroFile n).fread k = _
      rw [CFile.fread, zeroFile, CFile.shown]
      dsimp only
      rw [List.length_replicate, if_neg (by omega), List.take_replicate, List.drop_replicate,
        Nat.min_eq_left (by omega)]
      rfl
    rw [fileSource.readChunks_cons rfl (by rw [hread, List.length_replicate]; exact hk), hread]
    exact congrArg _ (ih hrest (by omega))

/-- A round on `/dev/zero` queues the packets of a file of zeros. -/
theorem zeroRound_packets {mss : ℕ} (hmss : 0 < mss) (unitsize : ℕ) :
    (addBufferFromFile fileSource mss unitsize (zeroFile unitsize)).1 =
      (addBufferFromFile zeroSource mss unitsize ()).1 :=
  (readChunks_zeroFile (packetSizes_pos hmss unitsize) (packetSizes_sum hmss unitsize).le).trans
    (readChunks_zeroSource (packetSizes_pos hmss unitsize)).symm

/-- So it queues zeros. -/
theorem zeroRound_queued {mss : ℕ} (hmss : 0 < mss) (unitsize : ℕ) :
    (addBufferFromFile fileSource mss unitsize (zeroFile unitsize)).1.flatten = List.replicate unitsize 0 := by
  rw [zeroRound_packets hmss]
  exact congrArg Prod.fst (addBufferFromFile_eq_read zeroSource hmss unitsize rfl)

/-! ## What holds in every state -/

/-- All that has been queued belongs to the requests, in their order, and was read from their files; the fetches
have cut the stream at the lengths that were asked for. -/
structure Inv (W V first : ℤ) (s : SegmentStream) : Prop where
  conn : s.conn.Inv W V first
  carried : ∀ request ∈ s.asked, (Request.read request.filename request.offset request.len).Carried
  opened : s.opened.map OpenedSegment.request <+: s.asked
  served : ∀ o ∈ s.served, o.Served
  sending : s.sending.Progress
  queued : s.conn.queued = (s.opened.map OpenedSegment.queued).flatten
  fetched : s.fetched.map List.length <+: s.asked.map SegmentRequest.len
  delivered : s.conn.delivered = s.fetched.flatten ++ s.received
  received : ∀ request, s.asked[s.fetched.length]? = some request → s.received.length ≤ request.len
  none : s.asked.length ≤ s.fetched.length → s.received = []

/-- The next of some numbered things. -/
theorem concat_prefix {α β : Type*} {f : α → β} {l : List α} {later : List β} {a : α} {b : β} (h : l.map f <+: later)
    (hnext : later[l.length]? = some b) (hab : f a = b) : (l ++ [a]).map f <+: later := by
  obtain ⟨rest, rfl⟩ := h
  rw [List.getElem?_append_right (by rw [List.length_map]), List.length_map, Nat.sub_self] at hnext
  obtain ⟨rest, rfl⟩ : ∃ later, rest = b :: later := by
    cases rest with
    | nil => simp at hnext
    | cons c rest =>
      obtain rfl := Option.some.inj hnext
      exact ⟨rest, rfl⟩
  rw [List.map_append, List.map_singleton, hab]
  exact ⟨rest, by rw [List.append_assoc, List.singleton_append]⟩

/-- The requests in service are among those that were sent. -/
theorem Inv.current_carried (hs : Inv W V first s) {o : OpenedSegment} (ho : s.sending.current = some o) :
    (Request.read o.request.filename o.request.offset o.request.len).Carried := by
  refine hs.carried _ (hs.opened.subset (List.mem_map_of_mem ?_))
  rw [SegmentStream.opened, ho]
  simp

/-- Others change the files. -/
theorem Inv.change (hs : Inv W V first s) (fs : ServerFs) (content : Bytes) :
    Inv W V first { s with fs := fs, sending := s.sending.change content } := by
  obtain ⟨hrequests, hqueued⟩ := s.sending.change_current content
  refine { hs with opened := ?_, sending := hs.sending.change content, queued := ?_ }
  · have hopened := hs.opened
    rw [SegmentStream.opened, List.map_append] at hopened ⊢
    rwa [hrequests]
  · rw [hs.queued, SegmentStream.opened, SegmentStream.opened, List.map_append, List.map_append, hqueued]

/-- The client asks for one more segment. -/
theorem Inv.ask (hs : Inv W V first s) {request : SegmentRequest}
    (hcarried : (Request.read request.filename request.offset request.len).Carried) :
    Inv W V first { s with asked := s.asked ++ [request] } where
  conn := hs.conn
  carried := List.forall_mem_append.mpr ⟨hs.carried, List.forall_mem_singleton.mpr hcarried⟩
  opened := hs.opened.trans (List.prefix_append _ _)
  served := hs.served
  sending := hs.sending
  queued := hs.queued
  fetched := by
    rw [List.map_append]
    exact hs.fetched.trans (List.prefix_append _ _)
  delivered := hs.delivered
  received r hr := by
    rcases Nat.lt_or_ge s.fetched.length s.asked.length with hlt | hge
    · exact hs.received r ((List.getElem?_append_left hlt).symm.trans hr)
    · rw [hs.none hge]
      exact Nat.zero_le _
  none hle := by
    dsimp only at hle
    rw [List.length_append] at hle
    exact hs.none (by omega)

/-- The server opens the file of the next request. -/
theorem Inv.openFile (hs : Inv W V first s) {request : SegmentRequest} (content : Bytes)
    (hidle : s.sending = .idle) (hnext : s.asked[s.served.length]? = some request) :
    Inv W V first { s with sending := .begin request content } := by
  obtain ⟨-, -, hlen⟩ := hs.carried request (List.mem_of_getElem? hnext)
  have hint : toInt64 request.len = request.len := toInt64_of_range (by omega) (by omega)
  have hopened := hs.opened
  have hqueued := hs.queued
  rw [SegmentStream.opened, hidle, Sending.current, Option.toList_none, List.append_nil] at hopened hqueued
  refine { hs with opened := ?_, sending := ?_, queued := ?_ }
  · exact concat_prefix hopened hnext rfl
  · refine ⟨?_, rfl, readUpTo_nil, fun h => absurd h Bool.false_ne_true⟩
    rw [hint, Int.toNat_natCast, List.length_nil, Nat.zero_add]
  · rw [hqueued, SegmentStream.opened, List.map_append, List.flatten_append]
    simp [Sending.begin, Sending.current]

/-- What is queued for the present request comes behind what has been queued. -/
theorem queued_current (sending : Sending) {o : OpenedSegment} (hs : Inv W V first s)
    (ho : s.sending.current = some o) (bytes : Bytes)
    (hafter : sending.current = some { o with queued := o.queued ++ bytes }) :
    s.conn.queued ++ bytes = ((s.served ++ sending.current.toList).map OpenedSegment.queued).flatten ∧
      (s.served ++ sending.current.toList).map OpenedSegment.request <+: s.asked := by
  have hopened := hs.opened
  rw [SegmentStream.opened, ho] at hopened
  rw [hs.queued, SegmentStream.opened, ho, hafter]
  constructor
  · simp
  · simpa using hopened

/-- A round of the first loop. -/
theorem Inv.fileRound (hs : Inv W V first s) {o : OpenedSegment} {position tosend : ℕ} {bytes : Bytes} {c : Connection}
    (hsending : s.sending = .file o position false tosend)
    (hread : OnceRead o.contents position (min tosend sendfileBlock) bytes) (hconn : c.Inv W V first)
    (hround : s.conn.act (.sendfile (.shown bytes) (min tosend sendfileBlock)) = some c) :
    let added := s.conn.snd.sendfileRound (.shown bytes) (min tosend sendfileBlock)
    Inv W V first { s with
      conn := c
      sending := .file { o with queued := o.queued ++ added.2.1 } (position + added.2.1.length)
        (fileSource.stopped added.2.2) (tosend - added.2.1.length) } := by
  obtain rfl := Option.some.inj hround
  obtain ⟨hqueues, hstops⟩ := shown_round hs.conn.payload hread.length_le
  have hle := hread.length_le
  have hprogress := hs.sending
  rw [hsending] at hprogress
  obtain ⟨hlength, rfl, hupTo, -⟩ := hprogress
  simp only [Sender.sendfileRound, hqueues, hstops] at hconn ⊢
  obtain ⟨hqueued, hopened⟩ := queued_current (.file { o with queued := o.queued ++ bytes }
    (o.start + o.queued.length + bytes.length) (decide (bytes.length < min tosend sendfileBlock))
    (tosend - bytes.length)) hs (congrArg Sending.current hsending) bytes rfl
  refine { hs with conn := hconn, opened := hopened, sending := ⟨?_, ?_, ?_, fun hend => ?_⟩, queued := hqueued }
  · dsimp only
    rw [List.length_append]
    omega
  · rw [List.length_append, Nat.add_assoc]
    rfl
  · exact hupTo.append_read hread.value
  · exact hread.ends (of_decide_eq_true hend)

/-- A round of the second loop. -/
theorem Inv.zeroRound (hs : Inv W V first s) {o : OpenedSegment} {tosend : ℕ} {c : Connection}
    (hsending : s.sending = .zeros o tosend) (hconn : c.Inv W V first)
    (hround : s.conn.act (.sendfile (zeroFile (min tosend sendfileBlock)) (min tosend sendfileBlock)) = some c) :
    let added := s.conn.snd.sendfileRound (zeroFile (min tosend sendfileBlock)) (min tosend sendfileBlock)
    Inv W V first { s with
      conn := c
      sending := .zeros { o with queued := o.queued ++ added.2.1 } (tosend - added.2.1.length) } := by
  obtain rfl := Option.some.inj hround
  have hzeros := zeroRound_queued hs.conn.payload (min tosend sendfileBlock)
  have hprogress := hs.sending
  rw [hsending] at hprogress
  obtain ⟨hlength, k, hupTo, hends⟩ := hprogress
  simp only [Sender.sendfileRound, hzeros, List.length_replicate] at hconn ⊢
  obtain ⟨hqueued, hopened⟩ := queued_current (.zeros
    { o with queued := o.queued ++ List.replicate (min tosend sendfileBlock) 0 }
    (tosend - min tosend sendfileBlock)) hs (congrArg Sending.current hsending)
    (List.replicate (min tosend sendfileBlock) 0) rfl
  refine { hs with conn := hconn, opened := hopened, sending := ⟨?_, k, hupTo.append_zeros _, hends⟩, queued := hqueued }
  dsimp only
  rw [List.length_append, List.length_replicate]
  omega

/-- What is left of the size when the first loop ends. -/
theorem sent_eq {o : OpenedSegment} {tosend : ℕ} (hlen : o.request.len < 2 ^ 63)
    (hlength : o.queued.length + tosend = o.request.len) :
    toSizeT (o.sent tosend) = o.queued.length ∧
      toInt64 (o.request.len - o.sent tosend) = tosend := by
  have hint {n : ℕ} (hn : n < 2 ^ 63) : toInt64 n = n := toInt64_of_range (by omega) (by omega)
  have hsent : o.sent tosend = (o.queued.length : ℤ) := by
    rw [OpenedSegment.sent, hint hlen, Int.toNat_natCast]
    omega
  have hleft : (o.request.len : ℤ) - (o.queued.length : ℤ) = (tosend : ℤ) := by omega
  rw [hsent, hleft, hint (by omega)]
  exact ⟨toSizeT_natCast (by omega), rfl⟩

/-- The file has ended, and zeros are to follow. -/
theorem Inv.fill (hs : Inv W V first s) {o : OpenedSegment} {position tosend : ℕ} {eof : Bool}
    (hsending : s.sending = .file o position eof tosend) (hends : tosend = 0 ∨ eof = true)
    (hshort : toSizeT (o.sent tosend) < o.request.len) :
    Inv W V first { s with sending := .zeros o (toInt64 (o.request.len - o.sent tosend)).toNat } := by
  have hcurrent := congrArg Sending.current hsending
  obtain ⟨-, -, hlen⟩ := hs.current_carried hcurrent
  have hprogress := hs.sending
  rw [hsending] at hprogress
  obtain ⟨hlength, rfl, hupTo, heof⟩ := hprogress
  obtain ⟨hsize, hleft⟩ := sent_eq hlen hlength
  rw [hsize] at hshort
  have hend : eof = true := hends.resolve_left (by omega)
  have hsame : s.opened = s.served ++ (Sending.zeros o tosend).current.toList := by
    rw [SegmentStream.opened, hcurrent]
    rfl
  rw [hleft, Int.toNat_natCast]
  refine { hs with opened := ?_, sending := ⟨hlength, _, hupTo, heof hend⟩, queued := ?_ }
  · have hopened := hs.opened
    rwa [hsame] at hopened
  · rw [hs.queued, hsame]
    rfl

/-- A request for which everything has been queued is done. -/
theorem Inv.done (hs : Inv W V first s) {o : OpenedSegment} (hcurrent : s.sending.current = some o)
    (hlength : o.queued.length = o.request.len) :
    Inv W V first { s with served := s.served ++ [o], sending := .idle } := by
  have hsame : s.opened = (s.served ++ [o]) ++ Sending.idle.current.toList := by
    rw [SegmentStream.opened, hcurrent]
    simp [Sending.current]
  have hserved := List.forall_mem_append.mpr
    ⟨hs.served, List.forall_mem_singleton.mpr ⟨hlength, (hs.sending.readFrom hcurrent).2⟩⟩
  refine { hs with opened := ?_, served := hserved, sending := trivial, queued := ?_ }
  · have hopened := hs.opened
    rwa [hsame] at hopened
  · rw [hs.queued, hsame]
    rfl

/-- The client receives some bytes. -/
theorem Inv.recv (hs : Inv W V first s) {request : SegmentRequest} {y : Receiver} {out : Bytes}
    (hfetch : s.asked[s.fetched.length]? = some request) (hremain : s.received.length < request.len)
    (hrecv : s.conn.rcv.recv (request.len - s.received.length) = some (y, out))
    (hconn : ({ s.conn with rcv := y, delivered := s.conn.delivered ++ out } : Connection).Inv W V first) :
    Inv W V first { s with
      conn := { s.conn with rcv := y, delivered := s.conn.delivered ++ out }
      received := s.received ++ out } := by
  have hlength := hs.conn.recv_length_le hrecv
  refine { hs with
    conn := hconn
    delivered := ?_
    received := fun r hr => ?_
    none := fun hle => ?_ }
  · rw [← List.append_assoc, ← hs.delivered]
  · obtain rfl := Option.some.inj (hfetch.symm.trans hr)
    rw [List.length_append]
    omega
  · exact absurd (List.getElem?_eq_some_iff.mp hfetch).1 (not_lt.mpr hle)

/-- A fetch has all its bytes. -/
theorem Inv.finish (hs : Inv W V first s) {request : SegmentRequest}
    (hfetch : s.asked[s.fetched.length]? = some request) (hremain : request.len ≤ s.received.length) :
    Inv W V first { s with fetched := s.fetched ++ [s.received], received := [] } := by
  have hfull := le_antisymm (hs.received request hfetch) hremain
  refine { hs with
    fetched := ?_
    delivered := ?_
    received := fun _ _ => Nat.zero_le _
    none := fun _ => rfl }
  · refine concat_prefix hs.fetched ?_ hfull
    rw [List.getElem?_map, hfetch, Option.map_some]
  · rw [List.flatten_append, List.flatten_singleton, List.append_nil, hs.delivered]

/-- Each step keeps it. -/
theorem Inv.step (hs : Inv W V first s) (hstep : s.Step event s') : Inv W V first s' := by
  have hconn : s'.conn.Inv W V first := by
    rcases hstep.conn_step with heq | ⟨event, hstep⟩
    · rw [heq]
      exact hs.conn
    · exact hs.conn.step hstep
  cases hstep with
  | change fs content => exact hs.change fs content
  | ask request hcarried => exact hs.ask hcarried
  | openFile hidle hnext hopen hseek => exact hs.openFile _ hidle hnext
  | fileRound hsending htosend hread hround => exact hs.fileRound hsending hread hconn hround.2
  | fill hsending hends hshort => exact hs.fill hsending hends hshort
  | @fileDone o position tosend eof hsending hends hall =>
    have hcurrent := congrArg Sending.current hsending
    obtain ⟨-, -, hlen⟩ := hs.current_carried hcurrent
    have hprogress := hs.sending
    rw [hsending] at hprogress
    have hlength := hprogress.1
    rw [(sent_eq hlen hlength).1] at hall
    exact hs.done hcurrent (by omega)
  | zeroRound hsending htosend hround => exact hs.zeroRound hsending hconn hround.2
  | @zerosDone o hsending =>
    have hprogress := hs.sending
    rw [hsending] at hprogress
    exact hs.done (congrArg Sending.current hsending) hprogress.1
  | recv hfetch hremain hrecv => exact hs.recv hfetch hremain hrecv hconn
  | finish hfetch hremain => exact hs.finish hfetch hremain
  | transport hbelow hact =>
    obtain ⟨hqueued, hdelivered⟩ := below_streams hbelow hact.2
    refine { hs with conn := hconn, queued := ?_, delivered := ?_ }
    · rw [hqueued]
      exact hs.queued
    · rw [hdelivered]
      exact hs.delivered

/-- Both ends at the start of a connection. -/
def start (c : Connection) (fs : ServerFs) : SegmentStream := ⟨c, fs, [], [], .idle, [], []⟩

/-- It holds at the start. -/
theorem Inv.start {c : Connection} (hc : c.Inv W V first) (fs : ServerFs) (hqueued : c.queued = [])
    (hdelivered : c.delivered = []) : Inv W V first (start c fs) where
  conn := hc
  carried _ h := absurd h List.not_mem_nil
  opened := List.prefix_rfl
  served _ h := absurd h List.not_mem_nil
  sending := trivial
  queued := hqueued
  fetched := List.prefix_rfl
  delivered := by simp [SegmentStream.start, hdelivered]
  received _ h := absurd h (by simp [SegmentStream.start])
  none _ := rfl

/-- What was queued for a request was read from its file. -/
theorem Inv.readFrom (hs : Inv W V first s) {o : OpenedSegment} (ho : o ∈ s.opened) :
    ReadFrom o.contents o.start o.queued := by
  rcases List.mem_append.mp ho with ho | ho
  · exact (hs.served o ho).2
  · exact (hs.sending.readFrom (Option.mem_toList.mp ho)).2

/-- The first of the opened requests are served; the last one may be incomplete. -/
theorem Inv.pieces (hs : Inv W V first s) :
    (s.served.map OpenedSegment.queued).map List.length <+: s.asked.map SegmentRequest.len ∧
      ∀ k, (s.asked.map SegmentRequest.len)[s.served.length]? = some k →
        ((s.sending.current.map OpenedSegment.queued).getD []).length ≤ k := by
  have hopened := hs.opened.map SegmentRequest.len
  rw [SegmentStream.opened, List.map_append, List.map_append] at hopened
  have hlengths : (s.served.map OpenedSegment.queued).map List.length =
      (s.served.map OpenedSegment.request).map SegmentRequest.len := by
    rw [List.map_map, List.map_map]
    exact List.map_congr_left fun o ho => (hs.served o ho).1
  refine ⟨hlengths ▸ (List.prefix_append _ _).trans hopened, fun k hk => ?_⟩
  cases hcurrent : s.sending.current with
  | none => exact Nat.zero_le k
  | some o =>
    obtain ⟨later, hlater⟩ := hopened
    rw [hcurrent, Option.toList_some, List.map_singleton, List.map_singleton] at hlater
    rw [← hlater, List.append_assoc, List.getElem?_append_right (by simp)] at hk
    simp only [List.length_map, Nat.sub_self, List.singleton_append, List.getElem?_cons_zero] at hk
    obtain rfl := Option.some.inj hk
    exact (hs.sending.readFrom hcurrent).1

/-- What the fetches get. -/
theorem Inv.segments (hs : Inv W V first s) :
    (∀ (i : ℕ) bytes, s.fetched[i]? = some bytes → bytes = (s.opened[i]?.map OpenedSegment.queued).getD []) ∧
      (s.fetched.length < s.asked.length →
        s.received <+: (s.opened[s.fetched.length]?.map OpenedSegment.queued).getD []) := by
  obtain ⟨hpieces, hlast⟩ := hs.pieces
  have hopened (i : ℕ) : (s.opened[i]?.map OpenedSegment.queued).getD [] =
      (s.served.map OpenedSegment.queued ++ [(s.sending.current.map OpenedSegment.queued).getD []])[i]?.getD [] := by
    rw [← List.getElem?_map, SegmentStream.opened, List.map_append]
    cases s.sending.current with
    | some o => rfl
    | none =>
      rcases Nat.lt_trichotomy i (s.served.map OpenedSegment.queued).length with hlt | rfl | hgt
      · rw [List.getElem?_append_left hlt, List.getElem?_append_left hlt]
      · simp
      · rw [List.getElem?_eq_none (by simpa using hgt.le), List.getElem?_eq_none (by simpa using hgt)]
  have hstream : s.fetched.flatten ++ s.received <+: (s.served.map OpenedSegment.queued).flatten ++
      (s.sending.current.map OpenedSegment.queued).getD [] := by
    have hprefix := hs.conn.delivered
    rw [hs.delivered, hs.queued, SegmentStream.opened, List.map_append, List.flatten_append] at hprefix
    cases hcurrent : s.sending.current with
    | none => simpa [hcurrent] using hprefix
    | some o => simpa [hcurrent] using hprefix
  have hcut := Pieces.cut_eq hpieces (fun k hk => hlast k (by simpa using hk)) hs.fetched (fun k hk => ?_) hstream
  · simp only [hopened]
    simpa only [List.length_map] using hcut
  · rw [List.getElem?_map, Option.map_eq_some_iff] at hk
    obtain ⟨request, hrequest, rfl⟩ := hk
    exact hs.received request hrequest

/-! ## The contents of an opened file -/

/-- In a run a file was opened for a request, and these are contents that it had from then on: the first is that
under its name when it was opened, the others come from changes after that. -/
def Had (s₀ : SegmentStream) (events : List SegmentEvent) (request : SegmentRequest) (contents : List Bytes) : Prop :=
  ∃ before later t content, before ++ .openFile :: later = events ∧ Run Step s₀ before t ∧
    t.fs.fopenRead request.filename = some content ∧
      ∀ c ∈ contents, c = content ∨ ∃ fs, .change fs c ∈ later

/-- It stays so. -/
theorem Had.snoc {s₀ : SegmentStream} {events : List SegmentEvent} {request : SegmentRequest} {contents : List Bytes}
    (h : Had s₀ events request contents) (event : SegmentEvent) : Had s₀ (events ++ [event]) request contents := by
  obtain ⟨before, later, t, content, rfl, hrun, hopen, hcontents⟩ := h
  refine ⟨before, later ++ [event], t, content, by simp, hrun, hopen, fun c hc => ?_⟩
  exact (hcontents c hc).imp_right fun ⟨fs, hmem⟩ => ⟨fs, List.mem_append_left _ hmem⟩

/-- A change adds its content. -/
theorem Had.change {s₀ : SegmentStream} {events : List SegmentEvent} {request : SegmentRequest} {contents : List Bytes}
    (h : Had s₀ events request contents) (fs : ServerFs) (content : Bytes) :
    Had s₀ (events ++ [.change fs content]) request (content :: contents) := by
  obtain ⟨before, later, t, opened, rfl, hrun, hopen, hcontents⟩ := h
  refine ⟨before, later ++ [.change fs content], t, opened, by simp, hrun, hopen, ?_⟩
  refine List.forall_mem_cons.mpr ⟨.inr ⟨fs, by simp⟩, fun c hc => ?_⟩
  exact (hcontents c hc).imp_right fun ⟨fs, hmem⟩ => ⟨fs, List.mem_append_left _ hmem⟩

/-- So it is for all files that have been opened. -/
theorem opened_had {s₀ : SegmentStream} {events : List SegmentEvent} (hrun : Run Step s₀ events s)
    (hnone : s₀.opened = []) : ∀ o ∈ s.opened, Had s₀ events o.request o.contents := by
  induction hrun with
  | nil =>
    rw [hnone]
    exact fun o ho => absurd ho List.not_mem_nil
  | @snoc t u events event hrun hlast ih =>
    have hserved : ∀ o ∈ t.served, Had s₀ (events ++ [event]) o.request o.contents :=
      fun o ho => (ih o (List.mem_append_left _ ho)).snoc event
    have hcurrent {o : OpenedSegment} (ho : t.sending.current = some o) : Had s₀ events o.request o.contents :=
      ih o (List.mem_append_right _ (Option.mem_toList.mpr ho))
    have hopened {served : List OpenedSegment} {sending : Sending}
        (hserved : ∀ o ∈ served, Had s₀ (events ++ [event]) o.request o.contents)
        (hnow : ∀ o, sending.current = some o → Had s₀ (events ++ [event]) o.request o.contents) :
        ∀ o ∈ served ++ sending.current.toList, Had s₀ (events ++ [event]) o.request o.contents :=
      List.forall_mem_append.mpr ⟨hserved, fun o ho => hnow o (Option.mem_toList.mp ho)⟩
    cases hlast with
    | change fs content =>
      refine hopened hserved fun o ho => ?_
      cases hsending : t.sending with
      | idle =>
        rw [hsending] at ho
        contradiction
      | zeros o' tosend =>
        rw [hsending] at ho
        exact (hcurrent ((congrArg Sending.current hsending).trans ho)).snoc _
      | file o' position eof tosend =>
        rw [hsending] at ho
        obtain rfl := Option.some.inj ho
        exact (hcurrent (congrArg Sending.current hsending)).change fs content
    | ask | recv | finish | transport =>
      exact hopened hserved fun o ho => (hcurrent ho).snoc _
    | @openFile request content hidle hnext hopen hseek =>
      refine hopened hserved fun o ho => ?_
      obtain rfl := Option.some.inj ho
      exact ⟨events, [], t, content, rfl, hrun, hopen, List.forall_mem_singleton.mpr (.inl rfl)⟩
    | fileRound hsending | zeroRound hsending | fill hsending =>
      refine hopened hserved fun o ho => ?_
      obtain rfl := Option.some.inj ho
      have hfile := hcurrent (congrArg Sending.current hsending)
      exact hfile.snoc _
    | fileDone hsending | zerosDone hsending =>
      refine hopened (List.forall_mem_append.mpr ⟨hserved, List.forall_mem_singleton.mpr ?_⟩) fun o ho => ?_
      · exact (hcurrent (congrArg Sending.current hsending)).snoc _
      · contradiction

/-- What is in a prefix is at the same place in the whole. -/
theorem getElem?_of_isPrefix {α : Type*} {l later : List α} {i : ℕ} {a : α} (h : l <+: later) (ha : l[i]? = some a) :
    later[i]? = some a := by
  obtain ⟨hi, rfl⟩ := List.getElem?_eq_some_iff.mp ha
  exact List.prefix_iff_getElem?.mp h i hi

/-- What was opened for a request is that request. -/
theorem Inv.opened_request (hs : Inv W V first s) {i : ℕ} {o : OpenedSegment} (ho : s.opened[i]? = some o) :
    s.asked[i]? = some o.request :=
  getElem?_of_isPrefix hs.opened (by rw [List.getElem?_map, ho, Option.map_some])

/-- A complete fetch has as many bytes as were asked for. -/
theorem Inv.fetched_length (hs : Inv W V first s) {i : ℕ} {bytes : Bytes} (hbytes : s.fetched[i]? = some bytes) :
    ∃ request, s.asked[i]? = some request ∧ bytes.length = request.len := by
  have hlength : (s.asked.map SegmentRequest.len)[i]? = some bytes.length :=
    getElem?_of_isPrefix hs.fetched (by rw [List.getElem?_map, hbytes, Option.map_some])
  rw [List.getElem?_map, Option.map_eq_some_iff] at hlength
  obtain ⟨request, hrequest, hlen⟩ := hlength
  exact ⟨request, hrequest, hlen.symm⟩

/-- Bytes that a fetch has got were read for its request from the request's file. -/
theorem Inv.fetch (hs : Inv W V first s) {i : ℕ} {bytes : Bytes} (hsome : bytes ≠ [])
    (hfirst : bytes <+: (s.opened[i]?.map OpenedSegment.queued).getD []) :
    ∃ o ∈ s.opened, s.asked[i]? = some o.request ∧ ReadFrom o.contents o.request.offset.toNat bytes := by
  cases ho : s.opened[i]? with
  | none =>
    rw [ho] at hfirst
    exact absurd (List.prefix_nil.mp hfirst) hsome
  | some o =>
    rw [ho] at hfirst
    have hmem := List.mem_of_getElem? ho
    have hrequest := hs.opened_request ho
    obtain ⟨-, hoffset, -⟩ := hs.carried o.request (List.mem_of_getElem? hrequest)
    have hstart : o.start = o.request.offset.toNat := by
      rw [OpenedSegment.start, fseeko, if_neg (by omega)]
    exact ⟨o, hmem, hrequest, hstart ▸ (hs.readFrom hmem).of_isPrefix hfirst⟩

/-- **Each fetch gets its own segment.** In every run over a connection that a handshake opens, whatever its
network loses, repeats and reorders, a fetch that is complete has as many bytes as were asked for, and they were read
from the file of its request while that was open: each is a byte that the file had at its position at some time since
it was opened, up to where the file was found to end, and zeros follow. So are those of a fetch that is not yet
complete. -/
theorem fetches_segments {client server : Options} {isn : ℤ} (hclient : client.Valid) (hserver : server.Valid)
    (hisn : 0 ≤ isn ∧ isn ≤ 0x7FFFFFFF) (m : Memory) (fs : ServerFs) {events : List SegmentEvent}
    (hrun : Run Step (start (Connection.download client server isn m) fs) events s) :
    (∀ (i : ℕ) bytes, s.fetched[i]? = some bytes → ∃ request, s.asked[i]? = some request ∧
      bytes.length = request.len ∧ (bytes ≠ [] → ∃ contents,
        Had (start (Connection.download client server isn m) fs) events request contents ∧
          ReadFrom contents request.offset.toNat bytes)) ∧
    (s.received ≠ [] → ∃ request contents, s.asked[s.fetched.length]? = some request ∧
      Had (start (Connection.download client server isn m) fs) events request contents ∧
        ReadFrom contents request.offset.toNat s.received) := by
  obtain ⟨W, V, hconn⟩ := (Connection.Established.download m).run_inv hclient hserver hisn (Run.nil _)
  have hs : Inv W V isn s :=
    hrun.invariant (fun _ _ _ hs hstep => hs.step hstep) (Inv.start hconn fs rfl rfl)
  obtain ⟨hcomplete, hpresent⟩ := hs.segments
  constructor
  · intro i bytes hbytes
    obtain ⟨request, hrequest, hlen⟩ := hs.fetched_length hbytes
    refine ⟨request, hrequest, hlen, fun hsome => ?_⟩
    obtain ⟨o, hmem, ho, hread⟩ := hs.fetch (i := i) hsome (by rw [← hcomplete i bytes hbytes])
    obtain rfl := Option.some.inj (hrequest.symm.trans ho)
    exact ⟨o.contents, opened_had hrun rfl o hmem, hread⟩
  · intro hsome
    have hlt : s.fetched.length < s.asked.length := by
      by_contra hge
      exact hsome (hs.none (not_lt.mp hge))
    obtain ⟨o, hmem, ho, hread⟩ := hs.fetch hsome (hpresent hlt)
    exact ⟨o.request, o.contents, ho, opened_had hrun rfl o hmem, hread⟩

/-- If nothing changes the files, a complete fetch is the segment of the content that the file had when it was
opened. -/
theorem fetches_padded {client server : Options} {isn : ℤ} (hclient : client.Valid) (hserver : server.Valid)
    (hisn : 0 ≤ isn ∧ isn ≤ 0x7FFFFFFF) (m : Memory) (fs : ServerFs) {events : List SegmentEvent}
    (hrun : Run Step (start (Connection.download client server isn m) fs) events s)
    (hstill : ∀ fs' content, .change fs' content ∉ events) {i : ℕ} {bytes : Bytes} (hbytes : s.fetched[i]? = some bytes)
    (hsome : bytes ≠ []) :
    ∃ request content, s.asked[i]? = some request ∧
      (∃ before t, before <+: events ∧
        Run Step (start (Connection.download client server isn m) fs) before t ∧
          t.fs.fopenRead request.filename = some content) ∧
      bytes = padded content request.offset.toNat request.len := by
  obtain ⟨request, hrequest, hlen, hfetch⟩ := (fetches_segments hclient hserver hisn m fs hrun).1 i bytes hbytes
  obtain ⟨contents, ⟨before, later, t, content, rfl, hbefore, hopen, hcontents⟩, hread⟩ := hfetch hsome
  refine ⟨request, content, hrequest, ⟨before, t, List.prefix_append _ _, hbefore, hopen⟩, ?_⟩
  have hsub : contents ⊆ [content] := fun c hc => by
    refine List.mem_singleton.mpr ((hcontents c hc).resolve_right ?_)
    rintro ⟨fs', hchange⟩
    exact hstill fs' c (by simp [hchange])
  rw [← hlen]
  exact (hread.mono hsub).eq_padded

/-! ## A run -/

/-- A download with the default options. -/
def helloDownload : Connection :=
  Connection.download Options.default Options.default 5 ⟨fun _ => 0, fun _ => 0, fun _ => 0, fun _ => 0, fun _ => 0⟩

/-- A shared directory with one file. -/
def helloFiles : ServerFs := ServerFs.ofFiles [(ascii "a", File.plain (ascii "hello"))]

/-- A round of `sendfile` in a ring that need not grow. -/
theorem hello_round :
    helloDownload.Step (.sendfile (.shown (ascii "llo")) 3) { helloDownload with
      snd := { helloDownload.snd with sndBuffer := { SndBlocks.init.fill [ascii "llo"] with count := 1 } }
      queued := ascii "llo" } := by
  have hreserve : SndBlocks.init.reserve (plannedBlocks 1456 3) = SndBlocks.init := by
    rw [SndBlocks.reserve, if_neg (by decide)]
  have hadd : SndBlocks.init.addBufferFromFile 1456 (.shown (ascii "llo")) 3 =
      { SndBlocks.init.fill [ascii "llo"] with count := 1 } := by
    rw [SndBlocks.addBufferFromFile, SndBlocks.addPackets, hreserve]
    rfl
  refine ⟨show _ < _ by decide, ?_⟩
  rw [← hadd]
  rfl

/-- Three bytes from the position 2, in one packet that arrives; the file is emptied after it has been read. -/
def helloEvents : List SegmentEvent :=
  [.ask ⟨ascii "a", 2, 3⟩, .openFile, .round, .change (ServerFs.ofFiles [(ascii "a", File.plain [])]) [], .fill,
    .transport (.packData 16), .transport (.packData 16), .transport (.packData 16),
    .transport (.transmit (ascii "llo")), .transport (.deliver ⟨1, 0, .data 5 (ascii "llo")⟩ false 0),
    .transport (.sendAck false), .recv, .finish]

/-- The events make a run, and the fetch gets the end of the file as it was read. -/
theorem hello_run :
    ∃ s, Run Step (start helloDownload helloFiles) helloEvents s ∧ s.fetched = [ascii "llo"] := by
  have hcarried : (Request.read (ascii "a") 2 3).Carried := ⟨⟨by decide, by decide⟩, by decide, by decide⟩
  have hopen : helloFiles.fopenRead (ascii "a") = some (ascii "hello") := by decide
  have hread : OnceRead [ascii "hello"] 2 3 (ascii "llo") := onceRead_slice (ascii "hello") 2 3
  exact ⟨_, (((((((((((((Run.nil _).snoc (.ask ⟨ascii "a", 2, 3⟩ hcarried)).snoc
    (.openFile rfl rfl hopen (by decide))).snoc (.fileRound rfl (Nat.succ_ne_zero 2) hread hello_round)).snoc
    (.change _ _)).snoc (.fileDone rfl (Or.inl rfl) (by decide))).snoc
    (.transport rfl ⟨trivial, rfl⟩)).snoc (.transport rfl ⟨trivial, rfl⟩)).snoc
    (.transport rfl ⟨trivial, rfl⟩)).snoc (.transport rfl ⟨⟨5, 0, rfl, by decide, fun _ => rfl⟩, rfl⟩)).snoc
    (.transport rfl ⟨⟨List.mem_cons_self, by decide, fun _ => rfl⟩, rfl⟩)).snoc
    (.transport rfl ⟨trivial, rfl⟩)).snoc (.recv rfl (Nat.succ_pos 2) rfl)).snoc (.finish rfl le_rfl), rfl⟩

end SegmentStream

end Udtfs

import Udtfs.Framing
import Udtfs.ServerFiles

/-!
# Replies

What a handler does to the files and what it sends back, and how the client reads it. Attributes
and directory entries come as strings on the TCP stream, the bytes of a segment on the UDT stream.
A request that changes a file gets no reply at all.
-/

namespace Udtfs

open NulString Content

/-- What `server_senddir` sends: every entry but the two self references, then the end marker. -/
def senddirReply (entries : Option (List Bytes)) : Bytes :=
  match entries with
  | none => frames [reservedStrTerm]
  | some entries =>
    frames (entries.filter (fun name => name ≠ ascii ".." ∧ name ≠ ascii ".") ++ [reservedStrTerm])

/-- The values that `server_sendattr` sends, in its order. -/
def Stat.values (st : Stat) : List ℤ :=
  [st.stSize, st.stMode, st.stCtime, st.stAtime, st.stMtime, st.stNlink, st.stDev, st.stRdev]

/-- What `server_sendattr` sends. -/
def sendattrReply (st : Option Stat) : Bytes :=
  match st with
  | none => frames [reservedStrTerm]
  | some st => frames (st.values.map printLu)

/-- The position that `fseeko` sets in a file just opened: a negative offset is refused. That an offset can
be refused for being too large is left out here. -/
def fseeko (offset : ℤ) : ℕ := if offset < 0 then 0 else offset.toNat

/-- The bytes that `UDT::sendfile` delivers. -/
def udtSendfile (content : Bytes) (offset size : ℤ) : Bytes :=
  if size ≤ 0 then [] else slice content (fseeko offset) size.toNat

/-- What `server_sendsegment` sends: the bytes of the file, then zeros for what lies beyond its
end. -/
def sendsegmentReply (content : Bytes) (offset : ℤ) (len : ℕ) : Bytes :=
  let sent := udtSendfile content offset (toInt64 len)
  if sent.length < len then
    sent ++ List.replicate (toInt64 ((len - sent.length : ℕ) : ℤ)).toNat 0
  else sent

/-- The outcome of a handler: the files and the bytes sent on the two connections. -/
structure Outcome (σ : Type*) where
  fs : σ
  tcp : Bytes
  udt : Bytes

/-- The outcome on the shared tree. -/
abbrev Answer := Outcome ServerFs

/-- What the handler of a request does once it has its arguments; `none` when it uses the null
pointer of a failed `fopen`. `shell` is the effect of a command line on the files. -/
def ServerFs.act (shell : Bytes → ServerFs → ServerFs) (fs : ServerFs) : Request → Option Answer
  | .dir path => some ⟨fs, senddirReply (fs.opendir (pathToLocal path)), []⟩
  | .getattr path => some ⟨fs, sendattrReply (fs.stat (pathToLocal path)), []⟩
  | .read filename offset len =>
    (fs.fopenRead filename).map fun content => ⟨fs, [], sendsegmentReply content offset len⟩
  | .truncate path newsize => some ⟨fs.truncate path newsize, [], []⟩
  | .write path data _ _ => (fs.fopenAppend path data).map fun fs => ⟨fs, [], []⟩
  | .rename path newpath => some ⟨fs.rename (pathToLocal path) (pathToLocal newpath), [], []⟩
  | .unlink path => some ⟨fs.unlink (pathToLocal path), [], []⟩
  | .utime path => some ⟨shell ((ascii "touch " ++ pathToLocal path).take 255) fs, [], []⟩

/-- One request on an idle connection: sent whole, received by the command loop, acted on. `none`
when the server does not consume exactly the bytes of the request, or fails. -/
def exchange (stale : ℕ → Bytes) (shell : Bytes → ServerFs → ServerFs) (fs : ServerFs)
    (r : Request) : Option Answer :=
  match handleCommand stale ⟨r.wire, .closed⟩ with
  | some (.handled q, ⟨[], _⟩) => fs.act shell q
  | _ => none

/-- `client_recvdirentry`: no entry when the receive fails or the end marker arrives. -/
def clientRecvdirentry (stale : ℕ → Bytes) (s : TcpStream) : Option Bytes × TcpStream :=
  let r := recvStr s (mMaxPath + mMaxFile - 1)
  let filename := r.string (stale r.rest.bytes.length)
  if r.ret < 1 then (none, r.rest) else
  if strncasecmp filename reservedStrTerm reservedStrTerm.length then (none, r.rest) else
    (some filename, r.rest)

/-- An entry is taken from the stream. -/
theorem clientRecvdirentry_shrinks (stale : ℕ → Bytes) {s rest : TcpStream} {entry : Bytes}
    (h : clientRecvdirentry stale s = (some entry, rest)) : rest.bytes.length < s.bytes.length := by
  unfold clientRecvdirentry at h
  dsimp only at h
  split at h
  · simp at h
  · next hret =>
    split at h
    · simp at h
    · obtain ⟨-, rfl⟩ := Prod.mk.inj h
      exact recvStr_shrinks s (by decide) (by omega)

/-- The receive loop of `udtfs_readdir`. -/
def readdirLoop (stale : ℕ → Bytes) (s : TcpStream) : List Bytes × TcpStream :=
  match _h : clientRecvdirentry stale s with
  | (none, rest) => ([], rest)
  | (some entry, rest) =>
    let later := readdirLoop stale rest
    (entry :: later.1, later.2)
termination_by s.bytes.length
decreasing_by exact clientRecvdirentry_shrinks stale _h

/-- Conversion to an unsigned type of `w` bits. -/
def toUnsigned (w : ℕ) (x : ℤ) : ℤ := x % 2 ^ w

/-- The assignments of `client_reqattr` in its order, each with the conversion to the field. -/
def Stat.assignments : List (Stat → ℤ → Stat) :=
  [fun st x => { st with stSize := toInt64 x }, fun st x => { st with stMode := toUnsigned 32 x },
    fun st x => { st with stCtime := toInt64 x }, fun st x => { st with stAtime := toInt64 x },
    fun st x => { st with stMtime := toInt64 x },
    fun st x => { st with stNlink := toUnsigned 64 x },
    fun st x => { st with stDev := toUnsigned 64 x },
    fun st x => { st with stRdev := toUnsigned 64 x }]

/-- Store a received value: `if ((s != NULL) && (n > 0))`. -/
def storeValue (assign : Stat → ℤ → Stat) (st : Stat) (r : RecvStr) (info : Bytes) : Stat :=
  if 0 < r.ret then assign st (atoll info) else st

/-- Receive and store one value after the other. -/
def recvValues (stale : ℕ → Bytes) :
    List (Stat → ℤ → Stat) → Stat → TcpStream → Stat × TcpStream
  | [], st, s => (st, s)
  | assign :: assigns, st, s =>
    let r := recvStr s (mMaxVal - 1)
    recvValues stale assigns (storeValue assign st r (r.string (stale r.rest.bytes.length))) r.rest

/-- What `client_reqattr` returns and leaves behind. -/
structure RecvAttr where
  ret : ℤ
  stat : Stat
  rest : TcpStream

/-- The receiving part of `client_reqattr`. -/
def clientReqattrReply (stale : ℕ → Bytes) (st : Stat) (s : TcpStream) : RecvAttr :=
  let r := recvStr s (mMaxVal - 1)
  let info := r.string (stale r.rest.bytes.length)
  if strncasecmp info reservedStrTerm reservedStrTerm.length then ⟨-1, st, r.rest⟩ else
    match Stat.assignments with
    | [] => ⟨0, st, r.rest⟩
    | assign :: assigns =>
      let received := recvValues stale assigns (storeValue assign st r info) r.rest
      ⟨0, received.1, received.2⟩

/-- `client_recvsegment`: exactly `len` bytes of the UDT stream go to the front of the buffer;
`none` while fewer have arrived. -/
def clientRecvsegment (udt : Bytes) (len : ℕ) (buf : ℕ → UInt8) : Option ((ℕ → UInt8) × Bytes) :=
  if len ≤ udt.length then
    some (fun i => if i < len then byteAt udt i else buf i, udt.drop len)
  else none

/-- On an idle connection a request within the limits is acted on as issued. -/
theorem exchange_carried {r : Request} (h : r.Carried) (stale : ℕ → Bytes)
    (shell : Bytes → ServerFs → ServerFs) (fs : ServerFs) :
    exchange stale shell fs r = fs.act shell r := by
  have hhandle := h.handle stale [] .closed
  rw [List.append_nil] at hhandle
  rw [exchange, hhandle]

/-- A segment has exactly the requested length: the bytes of the file, then zeros. -/
theorem sendsegmentReply_eq (content : Bytes) {offset : ℤ} (hoffset : 0 ≤ offset) {len : ℕ}
    (hlen : len < 2 ^ 63) :
    sendsegmentReply content offset len = padded content offset.toNat len := by
  have hint {n : ℕ} (h : n < 2 ^ 63) : toInt64 n = n :=
    toInt64_of_range (by omega) (by omega)
  have hsent : udtSendfile content offset (toInt64 len) = slice content offset.toNat len := by
    rw [udtSendfile, hint hlen, fseeko, if_neg (show ¬ offset < 0 by omega), Int.toNat_natCast]
    split
    · next hzero => simp [slice, show len = 0 by omega]
    · rfl
  rw [sendsegmentReply, hsent, padded]
  split
  · rw [hint (by omega), Int.toNat_natCast]
  · next h => rw [Nat.sub_eq_zero_of_le (by omega), List.replicate_zero, List.append_nil]

/-- At most the requested bytes are taken from a file. -/
theorem udtSendfile_length_le (content : Bytes) (offset size : ℤ) :
    (udtSendfile content offset size).length ≤ size.toNat := by
  rw [udtSendfile]
  split
  · exact Nat.zero_le _
  · rw [slice_length]
    exact Nat.min_le_left _ _

/-- A segment has the requested length, whatever the offset is. -/
theorem sendsegmentReply_length (content : Bytes) (offset : ℤ) {len : ℕ} (hlen : len < 2 ^ 63) :
    (sendsegmentReply content offset len).length = len := by
  have hint {n : ℕ} (h : n < 2 ^ 63) : toInt64 n = n := toInt64_of_range (by omega) (by omega)
  have hsent := udtSendfile_length_le content offset (toInt64 len)
  rw [hint hlen, Int.toNat_natCast] at hsent
  rw [sendsegmentReply, hint hlen]
  split
  · rw [List.length_append, List.length_replicate, hint (by omega), Int.toNat_natCast]
    omega
  · omega

/-- The client receives a segment whole and leaves what follows it. -/
theorem clientRecvsegment_append (segment later : Bytes) (buf : ℕ → UInt8) :
    clientRecvsegment (segment ++ later) segment.length buf =
      some (fun i => if i < segment.length then byteAt segment i else buf i, later) := by
  have hbyte : ∀ i, i < segment.length → byteAt (segment ++ later) i = byteAt segment i := by
    intro i hi
    rw [byteAt_of_lt hi, byteAt_of_lt (by rw [List.length_append]; omega),
      List.getElem_append_left hi]
  rw [clientRecvsegment, if_pos (by rw [List.length_append]; omega), List.drop_left]
  congr 2
  funext i
  split
  · next hi => exact hbyte i hi
  · rfl

/-- A string that begins with a digit is not the end marker. -/
theorem strncasecmp_digit {b : UInt8} (hb : Decimal.IsDigit b) (s : Bytes) :
    strncasecmp (b :: s) reservedStrTerm reservedStrTerm.length = false := by
  have hlower : tolower b = b := by
    obtain ⟨-, h⟩ := hb
    rw [tolower, if_neg (by omega)]
  have hne : b ≠ 45 := by
    rintro rfl
    exact absurd hb (by decide)
  have hterm : reservedStrTerm = 45 :: ascii "-TERM--" := by decide
  rw [hterm, strncasecmp, strcasecmp, beq_eq_false_iff_ne]
  intro heq
  have hhead := congrArg List.head? heq
  rw [List.length_cons, List.take_succ_cons, List.take_succ_cons, List.map_cons, List.map_cons,
    List.head?_cons, List.head?_cons, hlower] at hhead
  exact hne (Option.some.inj hhead)

/-- A numeral is not the end marker. -/
theorem strncasecmp_printLu (x : ℤ) :
    strncasecmp (printLu x) reservedStrTerm reservedStrTerm.length = false := by
  obtain ⟨b, s, hs, hb⟩ := print_head (toSizeT x)
  rw [printLu, hs, strncasecmp_digit hb]

/-- Printed values are received one by one, each read back by `atoll`. -/
theorem recvValues_printed (stale : ℕ → Bytes) (rest : Bytes) (ending : RecvEnd)
    (assigns : List (Stat → ℤ → Stat)) (values : List ℤ) (hlen : assigns.length = values.length)
    (st : Stat) :
    recvValues stale assigns st ⟨frames (values.map printLu) ++ rest, ending⟩ =
      ((assigns.zip values).foldl (fun st av => av.1 st (atoll (printLu av.2))) st,
        ⟨rest, ending⟩) := by
  induction assigns generalizing values st with
  | nil =>
    obtain rfl : values = [] := List.length_eq_zero_iff.mp hlen.symm
    rfl
  | cons assign assigns ih =>
    cases values with
    | nil => simp at hlen
    | cons x values =>
      have hpos : (0 : ℤ) < ((printLu x).length + 1 : ℕ) := by omega
      rw [recvValues, List.map_cons, frames_cons, List.append_assoc, List.cons_append,
        recvStr_frame (printLu_nulFree x) _ _ (printLu_short x)]
      simp only [string_frame (printLu_nulFree x), storeValue, hpos, if_true]
      rw [ih values (by simpa using hlen)]
      rfl

/-- The attributes of an existing file are received whole and successfully. -/
theorem clientReqattrReply_some (stale : ℕ → Bytes) (st₀ st : Stat) (rest : Bytes)
    (ending : RecvEnd) :
    clientReqattrReply stale st₀ ⟨sendattrReply (some st) ++ rest, ending⟩ =
      ⟨0, (Stat.assignments.zip st.values).foldl (fun st av => av.1 st (atoll (printLu av.2))) st₀,
        ⟨rest, ending⟩⟩ := by
  have hpos : (0 : ℤ) < ((printLu st.stSize).length + 1 : ℕ) := by omega
  rw [clientReqattrReply, sendattrReply, Stat.values, List.map_cons, frames_cons,
    List.append_assoc, List.cons_append, recvStr_frame (printLu_nulFree _) _ _ (printLu_short _)]
  simp only [string_frame (printLu_nulFree _), strncasecmp_printLu, Stat.assignments, storeValue,
    hpos, if_true, if_false, Bool.false_eq_true]
  rw [recvValues_printed stale rest ending _ _ rfl]
  rfl

/-- The end marker in place of the attributes is a failure that leaves the record as it was. -/
theorem clientReqattrReply_none (stale : ℕ → Bytes) (st₀ : Stat) (rest : Bytes)
    (ending : RecvEnd) :
    clientReqattrReply stale st₀ ⟨sendattrReply none ++ rest, ending⟩ =
      ⟨-1, st₀, ⟨rest, ending⟩⟩ := by
  have hterm : NulFree reservedStrTerm := by decide
  have hself : strncasecmp reservedStrTerm reservedStrTerm reservedStrTerm.length = true := by
    decide
  rw [clientReqattrReply, sendattrReply, frames_cons, frames_nil, List.append_assoc,
    List.cons_append, List.nil_append, recvStr_frame hterm _ _ (by decide)]
  simp only [string_frame hterm, hself, if_true]

end Udtfs

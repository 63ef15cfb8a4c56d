import Udtfs.HandlerPrograms

/-!
# Incomplete requests

A receive fails when the peer has closed the connection or `recv` reports an error, at any byte of the
string. A handler that meets a failed receive should return without having done anything. The read
handler keeps the results in a `size_t`, where an error counts as success, so that only a closed
connection stops it.
-/

namespace Udtfs

open NulString

/-- What one call of `recv` for a single byte reports. -/
inductive Arrival where
  | byte (b : UInt8)
  | ended (how : RecvEnd)

/-- What the calls of `recv` report in order, and how many have been made. An error may be followed by
more bytes. -/
structure Socket where
  arrivals : ℕ → Arrival
  taken : ℕ

/-- What one call of `recv_str` on a socket leaves behind. -/
structure SocketRecv where
  ret : ℤ
  stored : Bytes
  rest : Socket

namespace Socket

/-- The socket after one more `recv`. -/
def next (s : Socket) : Socket := { s with taken := s.taken + 1 }

/-- The receive loop of `recv_str`. -/
def recvStrLoop : (room nrx : ℕ) → Socket → SocketRecv
  | 0, nrx, s => ⟨nrx, [], s⟩
  | room + 1, nrx, s =>
    match s.arrivals s.taken with
    | .ended how => ⟨how.value, [], s.next⟩
    | .byte b =>
      if b = 0 then ⟨(nrx + 1 : ℕ), [b], s.next⟩ else
        let later := recvStrLoop room (nrx + 1) s.next
        { later with stored := b :: later.stored }

/-- `recv_str(fd, buf, maxlen, 0)`. -/
def recvStr (s : Socket) (maxlen : ℕ) : SocketRecv := recvStrLoop maxlen 0 s

/-- `recv_str` with the string in the buffer. `stale n` is what lies behind the stored bytes after `n`
calls of `recv`. -/
def receipt (stale : ℕ → Bytes) (s : Socket) (maxlen : ℕ) : Receipt Socket :=
  let r := s.recvStr maxlen
  ⟨r.ret, if r.stored = [] then [] else cstr (r.stored ++ stale r.rest.taken), r.rest⟩

/-- The receive returns the number of bytes, zero or minus one. -/
theorem recvStrLoop_ret (room nrx : ℕ) (s : Socket) :
    -1 ≤ (recvStrLoop room nrx s).ret ∧ (recvStrLoop room nrx s).ret ≤ nrx + room := by
  induction room generalizing nrx s with
  | zero =>
    simp only [recvStrLoop]
    omega
  | succ room ih =>
    have hlater := ih (nrx + 1) s.next
    rw [recvStrLoop]
    cases s.arrivals s.taken with
    | ended how =>
      cases how <;> simp only [RecvEnd.value] <;> omega
    | byte b =>
      dsimp only
      split
      · dsimp only
        omega
      · dsimp only
        omega

end Socket

/-- What the `i`th `recv` on a stream reports: an error once, and then that the connection is closed. -/
def TcpStream.arrival (t : TcpStream) (i : ℕ) : Arrival :=
  match t.bytes[i]? with
  | some b => .byte b
  | none => .ended (if i = t.bytes.length then t.ending else .closed)

/-- The socket reports the stream from here on. -/
def Socket.Shows (s : Socket) (t : TcpStream) : Prop := ∀ i, s.arrivals (s.taken + i) = t.arrival i

/-- After the first byte of a stream the socket reports the other ones. -/
theorem Socket.Shows.next {s : Socket} {b : UInt8} {bytes : Bytes} {ending : RecvEnd}
    (h : s.Shows ⟨b :: bytes, ending⟩) : s.next.Shows ⟨bytes, ending⟩ := by
  intro i
  have hi := h (i + 1)
  have hlater : (⟨b :: bytes, ending⟩ : TcpStream).arrival (i + 1) =
      (⟨bytes, ending⟩ : TcpStream).arrival i := by
    simp only [TcpStream.arrival, List.getElem?_cons_succ, List.length_cons, Nat.add_right_cancel_iff]
  rw [← Nat.add_assoc, Nat.add_right_comm, hlater] at hi
  exact hi

/-- Behind the end of a stream the socket reports that the connection is closed. -/
theorem Socket.Shows.ended {s : Socket} {ending : RecvEnd} (h : s.Shows ⟨[], ending⟩) :
    s.next.Shows ⟨[], .closed⟩ := by
  intro i
  have hi := h (i + 1)
  have hlater : (⟨[], ending⟩ : TcpStream).arrival (i + 1) =
      (⟨[], .closed⟩ : TcpStream).arrival i := by
    simp [TcpStream.arrival]
  rw [← Nat.add_assoc, Nat.add_right_comm, hlater] at hi
  exact hi

/-- The loop on a socket is the loop on the stream that the socket reports. -/
theorem Socket.recvStrLoop_shows {ending : RecvEnd} (room nrx : ℕ) {s : Socket} {bytes : Bytes}
    (h : s.Shows ⟨bytes, ending⟩) :
    (recvStrLoop room nrx s).ret = (Udtfs.recvStrLoop ending room nrx bytes).ret ∧
      (recvStrLoop room nrx s).stored = (Udtfs.recvStrLoop ending room nrx bytes).stored ∧
      (recvStrLoop room nrx s).rest.Shows (Udtfs.recvStrLoop ending room nrx bytes).rest := by
  induction room generalizing nrx s bytes with
  | zero => exact ⟨rfl, rfl, h⟩
  | succ room ih =>
    cases bytes with
    | nil =>
      have hfirst : s.arrivals s.taken = .ended ending := h 0
      rw [recvStrLoop, hfirst]
      exact ⟨rfl, rfl, h.ended⟩
    | cons b bytes =>
      have hfirst : s.arrivals s.taken = .byte b := h 0
      rw [recvStrLoop, hfirst, Udtfs.recvStrLoop]
      dsimp only
      split
      · exact ⟨rfl, rfl, h.next⟩
      · obtain ⟨hret, hstored, hrest⟩ := ih (nrx + 1) h.next
        exact ⟨hret, congrArg (b :: ·) hstored, hrest⟩

/-- Receives on a socket are receives on the stream that it reports. -/
theorem Socket.recvStr_shows {s : Socket} {t : TcpStream} (h : s.Shows t) (maxlen : ℕ) :
    (s.recvStr maxlen).ret = (Udtfs.recvStr t maxlen).ret ∧
      (s.recvStr maxlen).stored = (Udtfs.recvStr t maxlen).stored ∧
      (s.recvStr maxlen).rest.Shows (Udtfs.recvStr t maxlen).rest :=
  recvStrLoop_shows maxlen 0 h

section
variable {σ τ : Type*}

/-- The handler has returned `-1` without a call. -/
def Handling.GivesUp (st : σ) (h : Handling σ τ) : Prop :=
  h.ret = some (-1) ∧ h.calls = [] ∧ h.state = st

/-- A failed receive has no effect. -/
def Handling.Harmless (st : σ) (h : Handling σ τ) : Prop := (∃ n ∈ h.receives, n ≤ 0) → h.GivesUp st

/-- A handler that gives up after a receive gives up. -/
theorem Handling.GivesUp.received {st : σ} {h : Handling σ τ} (hgives : h.GivesUp st) (n : ℤ) :
    (h.received n).GivesUp st := hgives

/-- A handler that has made a call is harmless only if it has received everything. -/
theorem Handling.harmless_iff_of_calls {st : σ} {h : Handling σ τ} (hcalls : h.calls ≠ []) :
    h.Harmless st ↔ ∀ n ∈ h.receives, 0 < n := by
  constructor
  · intro hharmless n hn
    by_contra hneg
    exact hcalls (hharmless ⟨n, hn, by omega⟩).2.1
  · rintro hpos ⟨n, hn, hle⟩
    exact absurd (hpos n hn) (by omega)

/-- A handler that has received nothing has not failed to receive anything. -/
theorem Handling.harmless_of_receives {st : σ} {h : Handling σ τ} (hnone : h.receives = []) :
    h.Harmless st := by
  rintro ⟨n, hn, -⟩
  rw [hnone] at hn
  exact absurd hn List.not_mem_nil

/-- A successful receive changes nothing. -/
theorem Handling.harmless_received {st : σ} {h : Handling σ τ} {n : ℤ} (hn : 0 < n) :
    (h.received n).Harmless st ↔ h.Harmless st := by
  have hfailed : (∃ m ∈ (h.received n).receives, m ≤ 0) ↔ ∃ m ∈ h.receives, m ≤ 0 := by
    rw [Handling.received, List.exists_mem_cons_iff, or_iff_right (by omega)]
  exact imp_congr_left hfailed

variable (receipt : τ → ℕ → Receipt τ) (perform : σ → (c : ServerCall) → Option (c.Result × σ))

/-- A receive that gives up on every failure is harmless if what follows is. -/
theorem Handler.harmless_receive {next : Bytes → Handler} {st : σ}
    (h : ∀ string s, ((next string).run receipt perform st s).Harmless st) (maxlen : ℕ) (s : τ) :
    ((Handler.receive maxlen next).run receipt perform st s).Harmless st := by
  by_cases hret : (receipt s maxlen).ret ≤ 0
  · rw [Handler.run_receive_failed receipt perform hret]
    exact fun _ => ⟨rfl, rfl, rfl⟩
  · rw [Handler.run_receive_done receipt perform hret, Handling.harmless_received (by omega)]
    exact h _ _

/-- So is what a handler does once it has its arguments. -/
theorem Request.harmless_acting (r : Request) (st : σ) (s : τ) :
    (r.acting.run receipt perform st s).Harmless st :=
  Handling.harmless_of_receives (r.callsOnly_acting.run receipt perform st s).1

/-- All handlers but one are harmless. -/
theorem Command.harmless_program {c : Command} (hc : c ≠ .read) (st : σ) (s : τ) :
    (c.program.run receipt perform st s).Harmless st := by
  have hacting (r : Request) (s : τ) := r.harmless_acting receipt perform st s
  have hlast (maxlen : ℕ) (r : Bytes → Request) (s : τ) :
      ((Handler.receive maxlen fun string => (r string).acting).run receipt perform st s).Harmless st :=
    Handler.harmless_receive receipt perform (fun _ => hacting _) maxlen s
  cases c with
  | read => exact absurd rfl hc
  | dir => exact hlast _ .dir s
  | getattr => exact hlast _ .getattr s
  | unlink => exact hlast _ .unlink s
  | utime => exact hlast _ .utime s
  | truncate | rename =>
    exact Handler.harmless_receive receipt perform (fun path => hlast _ _) _ s
  | write =>
    exact Handler.harmless_receive receipt perform (fun path =>
      Handler.harmless_receive receipt perform (fun data =>
        Handler.harmless_receive receipt perform (fun size => hlast _ _) _) _) _ s

end

/-- In a `size_t` an error is the largest number. -/
theorem toSizeT_nonpos_iff {n : ℤ} (h₀ : -1 ≤ n) (h : n < 2 ^ 64) : toSizeT n ≤ 0 ↔ n = 0 := by
  unfold toSizeT
  omega

section
variable {σ : Type*} (stale : ℕ → Bytes) (perform : σ → (c : ServerCall) → Option (c.Result × σ))

/-- The results of the receives that the read handler has to make. -/
def Socket.readReceives (s : Socket) : List ℤ :=
  let filename := s.recvStr (mMaxVal - 1)
  let offset := filename.rest.recvStr (mMaxVal - 1)
  let len := offset.rest.recvStr (mMaxVal - 1)
  [filename.ret, offset.ret, len.ret]

/-- A closed connection stops the handler at a receive into a `size_t`. -/
theorem Handler.givesUp_receiveSizeT {maxlen : ℕ} {s : Socket} (h : (s.recvStr maxlen).ret = 0)
    (next : Bytes → Handler) (st : σ) :
    ((Handler.receiveSizeT maxlen next).run (Socket.receipt stale) perform st s).GivesUp st := by
  have hret : toSizeT (s.receipt stale maxlen).ret ≤ 0 := (congrArg toSizeT h).le
  rw [Handler.run_receiveSizeT_failed (Socket.receipt stale) perform hret]
  exact ⟨rfl, rfl, rfl⟩

/-- Nothing else does. -/
theorem Handler.run_receiveSizeT_open {maxlen : ℕ} (hmax : maxlen < 2 ^ 64) {s : Socket}
    (h : (s.recvStr maxlen).ret ≠ 0) (next : Bytes → Handler) (st : σ) :
    (Handler.receiveSizeT maxlen next).run (Socket.receipt stale) perform st s =
      ((next (s.receipt stale maxlen).string).run (Socket.receipt stale) perform st
        (s.recvStr maxlen).rest).received (s.recvStr maxlen).ret := by
  have hrange : -1 ≤ (s.recvStr maxlen).ret ∧ (s.recvStr maxlen).ret ≤ (0 : ℕ) + (maxlen : ℤ) :=
    Socket.recvStrLoop_ret maxlen 0 s
  have hret : ¬ toSizeT (s.receipt stale maxlen).ret ≤ 0 :=
    mt (toSizeT_nonpos_iff hrange.1 (by omega)).mp h
  exact Handler.run_receiveSizeT_done (Socket.receipt stale) perform hret next st

/-- A read that has its arguments opens the file. -/
theorem Request.calls_read (filename : Bytes) (offset : ℤ) (len : ℕ) (st : σ) (s : Socket) :
    ((Request.read filename offset len).acting.run (Socket.receipt stale) perform st s).calls ≠ [] := by
  obtain ⟨later, hcalls⟩ := Handler.calls_run_call (Socket.receipt stale) perform
    (.fopen filename (ascii "rb")) _ st s
  rw [Request.acting, hcalls]
  exact List.cons_ne_nil _ later

/-- The read handler is harmless exactly if the connection closes before it has its arguments, or if it
receives all of them. -/
theorem Command.harmless_read_iff (st : σ) (s : Socket) :
    (Command.read.program.run (Socket.receipt stale) perform st s).Harmless st ↔
      0 ∈ s.readReceives ∨ ∀ n ∈ s.readReceives, 0 < n := by
  have hmax : mMaxVal - 1 < 2 ^ 64 := by decide
  have hgivesUp {h : Handling σ Socket} (hzero : 0 ∈ s.readReceives) (hgives : h.GivesUp st) :
      h.Harmless st ↔ 0 ∈ s.readReceives ∨ ∀ n ∈ s.readReceives, 0 < n :=
    iff_of_true (fun _ => hgives) (.inl hzero)
  rw [Command.program, Handler.serverSendsegment]
  by_cases hfilename : (s.recvStr (mMaxVal - 1)).ret = 0
  · apply hgivesUp
    · rw [Socket.readReceives, hfilename]
      exact List.mem_cons_self
    · exact Handler.givesUp_receiveSizeT stale perform hfilename _ st
  rw [Handler.run_receiveSizeT_open stale perform hmax hfilename]
  by_cases hoffset : ((s.recvStr (mMaxVal - 1)).rest.recvStr (mMaxVal - 1)).ret = 0
  · apply hgivesUp
    · rw [Socket.readReceives, hoffset]
      exact List.mem_cons_of_mem _ List.mem_cons_self
    · exact (Handler.givesUp_receiveSizeT stale perform hoffset _ st).received _
  rw [Handler.run_receiveSizeT_open stale perform hmax hoffset]
  by_cases hlen : (((s.recvStr (mMaxVal - 1)).rest.recvStr (mMaxVal - 1)).rest.recvStr
      (mMaxVal - 1)).ret = 0
  · apply hgivesUp
    · rw [Socket.readReceives, hlen]
      exact List.mem_cons_of_mem _ (List.mem_cons_of_mem _ List.mem_cons_self)
    · exact ((Handler.givesUp_receiveSizeT stale perform hlen _ st).received _).received _
  rw [Handler.run_receiveSizeT_open stale perform hmax hlen]
  have hopen : 0 ∉ s.readReceives := by
    simp [Socket.readReceives, Ne.symm hfilename, Ne.symm hoffset, Ne.symm hlen]
  have hreceives (r : Request) (t : Socket) :
      (r.acting.run (Socket.receipt stale) perform st t).receives = [] :=
    (r.callsOnly_acting.run (Socket.receipt stale) perform st t).1
  rw [or_iff_right hopen,
    Handling.harmless_iff_of_calls (by exact Request.calls_read stale perform _ _ _ _ _)]
  simp only [Handling.received, hreceives, Socket.readReceives]

/-- **Incomplete requests.** On every socket a failed receive has no effect exactly if the handler is not
that of a read, or if the read's connection closes at one of the three receives, or if none of them
fails. -/
theorem incompleteRequest_iff (c : Command) (st : σ) (s : Socket) :
    (c.program.run (Socket.receipt stale) perform st s).Harmless st ↔
      (c = .read → 0 ∈ s.readReceives ∨ ∀ n ∈ s.readReceives, 0 < n) := by
  by_cases hc : c = .read
  · rw [hc, imp_iff_right rfl]
    exact Command.harmless_read_iff stale perform st s
  · exact iff_of_true (Command.harmless_program (Socket.receipt stale) perform hc st s)
      fun hread => absurd hread hc

end

/-- The socket that reports a stream. -/
def TcpStream.socket (t : TcpStream) : Socket := ⟨t.arrival, 0⟩

/-- A read request whose connection is reset after the offset opens the file and returns zero. -/
theorem reset_read_opens :
    ¬ ∀ (c : Command) (t : TcpStream),
      (c.program.run (Socket.receipt fun _ => []) (Answer.perform fun _ fs => fs)
        ⟨ServerFs.ofFiles [(ascii "a", File.plain (ascii "x"))], [], []⟩ t.socket).Harmless
          ⟨ServerFs.ofFiles [(ascii "a", File.plain (ascii "x"))], [], []⟩ := by
  intro h
  have hrun := h .read ⟨frames [ascii "a", ascii "0"], .error⟩ ⟨-1, by decide, by decide⟩
  exact absurd hrun.1 (by decide)

end Udtfs

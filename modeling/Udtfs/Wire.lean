import Udtfs.CLibrary

/-!
# The TCP command stream

Requests travel as NUL-terminated strings with no length prefix. `recvStr` reads one byte at
a time up to a zero or up to the receive limit, whichever comes first, so a string that does
not fit is cut and its remainder is what the next receive sees.

The stream is the list of bytes that still arrive, followed by what `recv` reports once they
are used up. An error is reported once, and from then on the connection is closed.
-/

namespace Udtfs

open NulString

/-- `M_MAX_PATH`. -/
def mMaxPath : ℕ := 512

/-- `M_MAX_FILE`. -/
def mMaxFile : ℕ := 128

/-- `M_MAX_VAL`. -/
def mMaxVal : ℕ := 128

/-- `RESERVED_STR_TERM`. -/
def reservedStrTerm : Bytes := ascii "--TERM--"

/-- How `recv` reports the end of the incoming bytes. -/
inductive RecvEnd where
  | closed
  | error
  deriving DecidableEq

/-- The return value of the last `recv`. -/
def RecvEnd.value : RecvEnd → ℤ
  | .closed => 0
  | .error => -1

/-- One direction of a TCP connection as its reader sees it. -/
structure TcpStream where
  bytes : Bytes
  ending : RecvEnd
  deriving DecidableEq

/-- What one call of `recv_str` leaves behind. -/
structure RecvStr where
  /-- The returned `n`. -/
  ret : ℤ
  /-- The bytes written to the buffer from its first index on, a received zero included. -/
  stored : Bytes
  /-- The bytes that remain on the stream. -/
  rest : TcpStream
  deriving DecidableEq

/-- The receive loop of `recv_str` with room for `room` more bytes and `nrx` bytes received. -/
def recvStrLoop (ending : RecvEnd) : (room nrx : ℕ) → Bytes → RecvStr
  | 0, nrx, bytes => ⟨nrx, [], ⟨bytes, ending⟩⟩
  | _ + 1, _, [] => ⟨ending.value, [], ⟨[], .closed⟩⟩
  | room + 1, nrx, b :: bytes =>
    if b = 0 then ⟨(nrx + 1 : ℕ), [b], ⟨bytes, ending⟩⟩ else
      let later := recvStrLoop ending room (nrx + 1) bytes
      { later with stored := b :: later.stored }

/-- `recv_str(fd, buf, maxlen, 0)`. -/
def recvStr (s : TcpStream) (maxlen : ℕ) : RecvStr := recvStrLoop s.ending maxlen 0 s.bytes

/-- The C string in the buffer after the call. `stale` is the memory behind the stored bytes;
the call clears the first byte before it receives anything. -/
def RecvStr.string (r : RecvStr) (stale : Bytes) : Bytes :=
  if r.stored = [] then [] else cstr (r.stored ++ stale)

/-- `send_cmd`: an empty command is not sent. -/
def sendCmd (str : Bytes) : List Bytes := if (cstr str).length ≤ 0 then [] else [cstr str]

/-- `path_to_local`: an absolute path is made relative to the shared directory. The array `np`
admits at most 639 bytes of it. -/
def pathToLocal (p : Bytes) : Bytes :=
  if p.head? = some 47 then 46 :: p.take (mMaxPath + mMaxFile - 1) else p

/-- A printed value is far shorter than the buffers that receive it. -/
theorem printLu_short (x : ℤ) : (printLu x).length < mMaxVal - 1 :=
  (printLu_length_le x).trans_lt (by decide)

/-- A string of at most 126 bytes fits the small buffers with its terminator. -/
theorem length_lt_val {s : Bytes} (hs : s.length ≤ 126) : s.length < mMaxVal - 1 :=
  hs.trans_lt (by decide)

/-- A string of at most 638 bytes fits the path buffers with its terminator. -/
theorem length_lt_path {s : Bytes} (hs : s.length ≤ 638) : s.length < mMaxPath + mMaxFile - 1 :=
  hs.trans_lt (by decide)

/-- A string that fits is received with its zero. -/
theorem recvStrLoop_frame (ending : RecvEnd) {s : Bytes} (hs : NulFree s) (rest : Bytes)
    {room : ℕ} (hroom : s.length < room) (nrx : ℕ) :
    recvStrLoop ending room nrx (s ++ 0 :: rest) =
      ⟨(nrx + s.length + 1 : ℕ), s ++ [0], ⟨rest, ending⟩⟩ := by
  induction s generalizing room nrx with
  | nil =>
    obtain ⟨room, rfl⟩ : ∃ k, room = k + 1 := ⟨room - 1, by simp at hroom; omega⟩
    simp [recvStrLoop]
  | cons b s ih =>
    obtain ⟨hb, hs⟩ := (nulFree_cons b s).mp hs
    obtain ⟨room, rfl⟩ : ∃ k, room = k + 1 := ⟨room - 1, by simp at hroom; omega⟩
    have hroom : s.length < room := by simpa using hroom
    simp only [List.cons_append, recvStrLoop, if_neg hb, ih hs hroom, List.length_cons]
    congr 2
    omega

/-- Of a longer one as much is received as there is room. -/
theorem recvStrLoop_full (ending : RecvEnd) {s : Bytes} (hs : NulFree s) (rest : Bytes)
    {room : ℕ} (hroom : room ≤ s.length) (nrx : ℕ) :
    recvStrLoop ending room nrx (s ++ rest) =
      ⟨(nrx + room : ℕ), s.take room, ⟨s.drop room ++ rest, ending⟩⟩ := by
  induction room generalizing s nrx with
  | zero => simp [recvStrLoop]
  | succ room ih =>
    cases s with
    | nil => simp at hroom
    | cons b s =>
      obtain ⟨hb, hs⟩ := (nulFree_cons b s).mp hs
      have hroom : room ≤ s.length := by simpa using hroom
      simp only [List.cons_append, recvStrLoop, if_neg hb, ih hs hroom, List.take_succ_cons,
        List.drop_succ_cons]
      congr 2
      omega

/-- A string that is cut off ends the receive. -/
theorem recvStrLoop_cut (ending : RecvEnd) {s : Bytes} (hs : NulFree s) {room : ℕ}
    (hroom : s.length < room) (nrx : ℕ) :
    recvStrLoop ending room nrx s = ⟨ending.value, s, ⟨[], .closed⟩⟩ := by
  induction s generalizing room nrx with
  | nil =>
    obtain ⟨room, rfl⟩ : ∃ k, room = k + 1 := ⟨room - 1, by simp at hroom; omega⟩
    rfl
  | cons b s ih =>
    obtain ⟨hb, hs⟩ := (nulFree_cons b s).mp hs
    obtain ⟨room, rfl⟩ : ∃ k, room = k + 1 := ⟨room - 1, by simp at hroom; omega⟩
    have hroom : s.length < room := by simpa using hroom
    simp only [recvStrLoop, if_neg hb, ih hs hroom]

/-- A string below the limit is received with its terminator and nothing more. -/
theorem recvStr_frame {s : Bytes} (hs : NulFree s) (rest : Bytes) (ending : RecvEnd) {maxlen : ℕ}
    (h : s.length < maxlen) :
    recvStr ⟨s ++ 0 :: rest, ending⟩ maxlen = ⟨(s.length + 1 : ℕ), s ++ [0], ⟨rest, ending⟩⟩ := by
  simpa [recvStr] using recvStrLoop_frame ending hs rest h 0

/-- A string at or above the limit is cut there, and its remainder stays on the stream. -/
theorem recvStr_full {s : Bytes} (hs : NulFree s) (rest : Bytes) (ending : RecvEnd) {maxlen : ℕ}
    (h : maxlen ≤ s.length) :
    recvStr ⟨s ++ rest, ending⟩ maxlen =
      ⟨maxlen, s.take maxlen, ⟨s.drop maxlen ++ rest, ending⟩⟩ := by
  simpa [recvStr] using recvStrLoop_full ending hs rest h 0

/-- A stream that ends inside a string makes the call fail with the value of the last `recv`. -/
theorem recvStr_cut {s : Bytes} (hs : NulFree s) (ending : RecvEnd) {maxlen : ℕ}
    (h : s.length < maxlen) :
    recvStr ⟨s, ending⟩ maxlen = ⟨ending.value, s, ⟨[], .closed⟩⟩ :=
  recvStrLoop_cut ending hs h 0

/-- What is stored comes from the front of the stream. -/
theorem recvStrLoop_append (ending : RecvEnd) (room nrx : ℕ) (bytes : Bytes) :
    (recvStrLoop ending room nrx bytes).stored ++
      (recvStrLoop ending room nrx bytes).rest.bytes = bytes := by
  induction room generalizing nrx bytes with
  | zero => simp [recvStrLoop]
  | succ room ih =>
    cases bytes with
    | nil => simp [recvStrLoop]
    | cons b bytes =>
      by_cases hb : b = 0
      · simp [recvStrLoop, hb]
      · simp only [recvStrLoop, if_neg hb, List.cons_append, ih (nrx + 1) bytes]

/-- Every byte of the stream is either stored or still to come. -/
theorem recvStr_append (s : TcpStream) (maxlen : ℕ) :
    (recvStr s maxlen).stored ++ (recvStr s maxlen).rest.bytes = s.bytes :=
  recvStrLoop_append s.ending maxlen 0 s.bytes

/-- So no byte is lost between the buffer and the rest. -/
theorem recvStr_length (s : TcpStream) (maxlen : ℕ) :
    (recvStr s maxlen).rest.bytes.length + (recvStr s maxlen).stored.length = s.bytes.length := by
  rw [← recvStr_append s maxlen, List.length_append, Nat.add_comm]

/-- No more is received than there is room for. -/
theorem recvStrLoop_ret_le (ending : RecvEnd) (room nrx : ℕ) (bytes : Bytes) :
    (recvStrLoop ending room nrx bytes).ret ≤ nrx + room := by
  induction room generalizing nrx bytes with
  | zero =>
    simp only [recvStrLoop]
    omega
  | succ room ih =>
    cases bytes with
    | nil =>
      cases ending <;> simp only [recvStrLoop, RecvEnd.value] <;> omega
    | cons b bytes =>
      have hlater := ih (nrx + 1) bytes
      rw [recvStrLoop]
      split
      · dsimp only
        omega
      · dsimp only
        omega

/-- The result is at most the limit. -/
theorem recvStr_ret_le (s : TcpStream) (maxlen : ℕ) : (recvStr s maxlen).ret ≤ maxlen := by
  have hle := recvStrLoop_ret_le s.ending maxlen 0 s.bytes
  rw [recvStr]
  omega

/-- A successful receive makes progress. -/
theorem recvStr_shrinks (s : TcpStream) {maxlen : ℕ} (hmax : 0 < maxlen)
    (h : 0 < (recvStr s maxlen).ret) :
    (recvStr s maxlen).rest.bytes.length < s.bytes.length := by
  obtain ⟨room, rfl⟩ : ∃ k, maxlen = k + 1 := ⟨maxlen - 1, by omega⟩
  obtain ⟨bytes, ending⟩ := s
  cases bytes with
  | nil => cases ending <;> simp [recvStr, recvStrLoop, RecvEnd.value] at h
  | cons b bytes =>
    have hlength := recvStr_length ⟨b :: bytes, ending⟩ (room + 1)
    have hstored : 0 < (recvStr ⟨b :: bytes, ending⟩ (room + 1)).stored.length := by
      by_cases hb : b = 0 <;> simp [recvStr, recvStrLoop, hb]
    simp only at hlength ⊢
    omega

/-- The buffer holds exactly the string of a complete frame, whatever lay behind it. -/
theorem string_frame {s : Bytes} (hs : NulFree s) (ret : ℤ) (rest : TcpStream) (stale : Bytes) :
    RecvStr.string ⟨ret, s ++ [0], rest⟩ stale = s := by
  simp [RecvStr.string, cstr_append_zero hs]

end Udtfs

import Udtfs.Framing

/-!
# Receives into the handlers' buffers

All arguments but the path of a `getattr` or `dir` request are received into 128-byte buffers, at
most 127 bytes at a time. A sequence of strings is consumed by as many receives exactly if every
string is shorter than that.
-/

namespace Udtfs

open NulString

section
variable (stale : ℕ → Bytes) (ending : RecvEnd)

/-- The stream behind one receive. -/
def skip (s : TcpStream) : TcpStream := (recvStr s (mMaxVal - 1)).rest

/-- The string that one receive puts into the buffer. -/
def argument (s : TcpStream) : Bytes :=
  (recvStr s (mMaxVal - 1)).string (stale (skip s).bytes.length)

/-- The next receives all succeed. -/
def Receivable : ℕ → TcpStream → Prop
  | 0, _ => True
  | k + 1, s => 0 < (recvStr s (mMaxVal - 1)).ret ∧ Receivable k (skip s)

/-- A successful receive hands on its string and the stream behind it. -/
theorem receiving_of_pos {s : TcpStream} (h : 0 < (recvStr s (mMaxVal - 1)).ret)
    (next : Bytes → TcpStream → Received) :
    receiving stale (mMaxVal - 1) s next = next (argument stale s) (skip s) := by
  unfold receiving
  rw [if_neg (by omega)]
  rfl

/-- In a `size_t` a successful receive is a success as well. -/
theorem receivingSizeT_of_pos {s : TcpStream} (h : 0 < (recvStr s (mMaxVal - 1)).ret)
    (next : Bytes → TcpStream → Received) :
    receivingSizeT stale (mMaxVal - 1) s next = next (argument stale s) (skip s) := by
  have hle : (recvStr s (mMaxVal - 1)).ret ≤ (127 : ℕ) := recvStr_ret_le s (mMaxVal - 1)
  have hpos : ¬ toSizeT (recvStr s (mMaxVal - 1)).ret ≤ 0 := by
    rw [toSizeT_of_nonneg h.le (by omega)]
    omega
  rw [receivingSizeT, if_neg hpos]
  rfl

/-- The write handler performs four receives whatever it is given. -/
theorem serverWrite_of_receivable {s : TcpStream} (h : Receivable 4 s) :
    ∃ data size offset, serverWrite stale s =
      ⟨some (.write (argument stale s) data size offset), skip^[4] s⟩ := by
  obtain ⟨h1, h2, h3, h4, -⟩ := h
  unfold serverWrite
  rw [receiving_of_pos stale h1, receiving_of_pos stale h2, receiving_of_pos stale h3,
    receiving_of_pos stale h4]
  exact ⟨_, _, _, rfl⟩

/-- A string below the limit is consumed by one receive. -/
theorem skip_frame {s : Bytes} (hs : NulFree s) (h : s.length < 127) (rest : Bytes) :
    skip ⟨s ++ 0 :: rest, ending⟩ = ⟨rest, ending⟩ := by
  rw [skip, recvStr_frame hs rest ending (by exact h)]

/-- A longer string loses its first 127 bytes. -/
theorem skip_full {s : Bytes} (hs : NulFree s) (h : 127 ≤ s.length) (rest : Bytes) :
    skip ⟨s ++ 0 :: rest, ending⟩ = ⟨s.drop 127 ++ 0 :: rest, ending⟩ := by
  rw [skip, recvStr_full hs _ ending (by exact h)]
  rfl

/-- A string below the limit is the argument. -/
theorem argument_frame {s : Bytes} (hs : NulFree s) (h : s.length < 127) (rest : Bytes) :
    argument stale ⟨s ++ 0 :: rest, ending⟩ = s := by
  rw [argument, recvStr_frame hs rest ending (by exact h), string_frame hs]

/-- Of a longer string the first 127 bytes are the argument, followed by old memory. -/
theorem argument_full {s : Bytes} (hs : NulFree s) (h : 127 ≤ s.length) (rest : Bytes) :
    argument stale ⟨s ++ 0 :: rest, ending⟩ =
      s.take 127 ++ cstr (stale (s.drop 127 ++ 0 :: rest).length) := by
  have hstored : s.take 127 ≠ [] := by
    rw [Ne, List.take_eq_nil_iff]
    rintro (hzero | rfl)
    · contradiction
    · simp at h
  rw [argument, skip_full ending hs h, recvStr_full hs (0 :: rest) ending (by exact h),
    RecvStr.string]
  exact (if_neg hstored).trans (cstr_append_of_nulFree (hs.of_isPrefix (List.take_prefix 127 _)) _)

/-- A string occupies one receive for every 127 bytes begun; if it occupies all of them, the
remainder stays on the stream. -/
theorem skip_iterate (k : ℕ) {s : Bytes} (hs : NulFree s) (rest : Bytes) :
    skip^[k] ⟨s ++ 0 :: rest, ending⟩ =
      if s.length < 127 * k then skip^[k - (s.length / 127 + 1)] ⟨rest, ending⟩
      else ⟨s.drop (127 * k) ++ 0 :: rest, ending⟩ := by
  induction k generalizing s with
  | zero => simp
  | succ k ih =>
    rw [Function.iterate_succ_apply]
    by_cases hshort : s.length < 127
    · rw [skip_frame ending hs hshort, if_pos (by omega), Nat.div_eq_of_lt hshort]
      simp
    · have hdiv : (s.length - 127) / 127 + 1 = s.length / 127 := by omega
      rw [skip_full ending hs (by omega), ih (hs.drop 127), List.length_drop, hdiv, List.drop_drop]
      by_cases hfit : s.length < 127 * (k + 1)
      · rw [if_pos (by omega), if_pos hfit, Nat.add_sub_add_right]
      · rw [if_neg (by omega), if_neg hfit]
        congr 3
        ring

/-- Receives that meet only short strings consume one string each. -/
theorem skip_iterate_frames (k : ℕ) (strings : List Bytes)
    (h : ∀ s ∈ strings, NulFree s ∧ s.length < 127) (hk : k ≤ strings.length) (rest : Bytes) :
    skip^[k] ⟨frames strings ++ rest, ending⟩ = ⟨frames (strings.drop k) ++ rest, ending⟩ := by
  induction k generalizing strings with
  | zero => rfl
  | succ k ih =>
    cases strings with
    | nil => simp at hk
    | cons s strings =>
      obtain ⟨hs, hlen⟩ := h s List.mem_cons_self
      have hk : k ≤ strings.length := by simpa using hk
      rw [Function.iterate_succ_apply, frames_cons, List.append_assoc, List.cons_append,
        skip_frame ending hs hlen, ih strings (fun t ht => h t (List.mem_cons_of_mem s ht)) hk,
        List.drop_succ_cons]

/-- A stream with `k` terminated strings admits `k` receives. -/
theorem receivable_frames (k : ℕ) (strings : List Bytes) (h : ∀ s ∈ strings, NulFree s)
    (hk : k ≤ strings.length) (rest : Bytes) :
    Receivable k ⟨frames strings ++ rest, ending⟩ := by
  induction k generalizing strings with
  | zero => trivial
  | succ k ih =>
    cases strings with
    | nil => simp at hk
    | cons s strings =>
      have hs := h s List.mem_cons_self
      have htail := fun t ht => h t (List.mem_cons_of_mem s ht)
      have hk : k ≤ strings.length := by simpa using hk
      rw [frames_cons, List.append_assoc, List.cons_append]
      by_cases hshort : s.length < 127
      · refine ⟨?_, ?_⟩
        · rw [recvStr_frame hs _ ending (by exact hshort)]
          dsimp only
          omega
        · rw [skip_frame ending hs hshort]
          exact ih strings htail hk
      · refine ⟨?_, ?_⟩
        · rw [recvStr_full hs _ ending (by simp only [mMaxVal]; omega)]
          exact (by decide : (0 : ℤ) < (mMaxVal - 1 : ℕ))
        · have hrest := ih (s.drop 127 :: strings)
            (List.forall_mem_cons.mpr ⟨hs.drop 127, htail⟩) (by rw [List.length_cons]; omega)
          rw [skip_full ending hs (by omega)]
          rwa [frames_cons, List.append_assoc, List.cons_append] at hrest

/-- A write request calls its handler, which performs four receives on the arguments. -/
theorem handleCommand_write {path data : Bytes} (hpath : NulFree path) (hdata : NulFree data)
    (size : ℕ) (offset : ℤ) (rest : Bytes) :
    ∃ data' size' offset', handleCommand stale
        ⟨(Request.write path data size offset).wire ++ rest, ending⟩ =
      some (.handled (.write (argument stale
          ⟨frames [path, data, printLu size, printLu offset] ++ rest, ending⟩) data' size' offset'),
        skip^[4] ⟨frames [path, data, printLu size, printLu offset] ++ rest, ending⟩) := by
  have hreceivable := receivable_frames ending 4 [path, data, printLu size, printLu offset]
    (by simp [hpath, hdata, printLu_nulFree]) le_rfl rest
  obtain ⟨data', size', offset', hwrite⟩ := serverWrite_of_receivable stale hreceivable
  have hpass := handleCommand_frame stale (s := ascii "write") (by decide) (by decide)
    (frames [path, data, printLu size, printLu offset] ++ rest) ending
  rw [dispatch, show commandOf (ascii "write") = some .write by decide] at hpass
  simp only [Command.receive, hwrite] at hpass
  refine ⟨data', size', offset', ?_⟩
  rw [Request.wire_eq, Request.arguments, clientReqwrite, cstr_of_nulFree hpath,
    cstr_of_nulFree hdata, List.append_assoc]
  exact hpass

/-- A truncate request calls its handler, which performs two receives on the arguments. -/
theorem handleCommand_truncate {path : Bytes} (hpath : NulFree path) (newsize : ℤ) (rest : Bytes) :
    handleCommand stale ⟨(Request.truncate path newsize).wire ++ rest, ending⟩ =
      some (.handled (.truncate
          (argument stale ⟨frames [path, printLu newsize] ++ rest, ending⟩)
          (atoll (argument stale (skip ⟨frames [path, printLu newsize] ++ rest, ending⟩)))),
        skip^[2] ⟨frames [path, printLu newsize] ++ rest, ending⟩) := by
  obtain ⟨hfirst, hsecond, -⟩ := receivable_frames ending 2 [path, printLu newsize]
    (by simp [hpath, printLu_nulFree]) le_rfl rest
  have hpass := handleCommand_frame stale (s := ascii "truncate") (by decide) (by decide)
    (frames [path, printLu newsize] ++ rest) ending
  rw [dispatch, show commandOf (ascii "truncate") = some .truncate by decide] at hpass
  simp only [Command.receive, serverTruncate, receiving_of_pos stale hfirst,
    receiving_of_pos stale hsecond] at hpass
  rw [Request.wire_eq, Request.arguments, clientReqtruncate, cstr_of_nulFree hpath,
    List.append_assoc]
  exact hpass

/-- One receive takes at most one zero from the stream. -/
theorem recvStrLoop_zeros (room nrx : ℕ) (bytes : Bytes) :
    bytes.count 0 ≤ (recvStrLoop ending room nrx bytes).rest.bytes.count 0 + 1 := by
  induction room generalizing nrx bytes with
  | zero => simp [recvStrLoop]
  | succ room ih =>
    cases bytes with
    | nil => simp
    | cons b bytes =>
      by_cases hb : b = 0
      · simp [recvStrLoop, hb]
      · have hloop := ih (nrx + 1) bytes
        rw [List.count_cons_of_ne hb]
        simp only [recvStrLoop, if_neg hb]
        exact hloop

/-- Several receives take at most as many zeros. -/
theorem skip_iterate_zeros (k : ℕ) (s : TcpStream) :
    s.bytes.count 0 ≤ (skip^[k] s).bytes.count 0 + k := by
  induction k generalizing s with
  | zero => simp
  | succ k ih =>
    have hfirst : s.bytes.count 0 ≤ (skip s).bytes.count 0 + 1 :=
      recvStrLoop_zeros s.ending (mMaxVal - 1) 0 s.bytes
    have hrest := ih (skip s)
    rw [Function.iterate_succ_apply]
    omega

/-- Every frame ends with its only zero. -/
theorem count_frames {strings : List Bytes} (h : ∀ s ∈ strings, NulFree s) :
    (frames strings).count 0 = strings.length := by
  induction strings with
  | nil => rfl
  | cons s strings ih =>
    obtain ⟨hs, hstrings⟩ := List.forall_mem_cons.mp h
    rw [frames_cons, List.count_append, List.count_cons_self, ih hstrings,
      List.count_eq_zero_of_not_mem hs, List.length_cons, Nat.zero_add]

/-- As many receives as strings consume exactly these strings if and only if every one of them fits: what
is left of a longer one keeps its zero, and no receive takes more than one. -/
theorem skip_frames_iff {strings : List Bytes} (h : ∀ s ∈ strings, NulFree s) (rest : Bytes) :
    skip^[strings.length] ⟨frames strings ++ rest, ending⟩ = ⟨rest, ending⟩ ↔
      ∀ s ∈ strings, s.length < 127 := by
  induction strings with
  | nil => simp
  | cons s strings ih =>
    obtain ⟨hs, hstrings⟩ := List.forall_mem_cons.mp h
    rw [List.length_cons, Function.iterate_succ_apply, frames_cons, List.append_assoc,
      List.cons_append, List.forall_mem_cons]
    by_cases hshort : s.length < 127
    · rw [skip_frame ending hs hshort, ih hstrings, and_iff_right hshort]
    · apply iff_of_false
      · intro hskip
        have hzeros := skip_iterate_zeros strings.length
          ⟨s.drop 127 ++ 0 :: (frames strings ++ rest), ending⟩
        rw [← skip_full ending hs (by omega), hskip, skip_full ending hs (by omega)] at hzeros
        simp only [List.count_append, List.count_cons_self, count_frames hstrings,
          List.count_eq_zero_of_not_mem (hs.drop 127)] at hzeros
        omega
      · exact fun hall => hshort hall.1

end

end Udtfs

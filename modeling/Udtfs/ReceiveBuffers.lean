import Udtfs.Wire

/-!
# The buffers behind `recv_str`

`recv_str` stops at its limit without storing a terminator. A buffer one byte larger than the limit
then ends in whatever its last byte held before, and the `rcvbuf` of `client_handler`, which is no
larger than the limit, has no room for a terminator at all. Every later use of the buffer as a
string rests on a zero that the peer has to send in time.
-/

namespace Udtfs

open NulString

/-- The arrays that `recv_str` fills, with the functions they belong to. -/
inductive Buffer where
  /-- `portstr` of `client_connect_udt`. -/
  | clientConnectUdtPortstr
  /-- `str` of `exchange_versions`. -/
  | exchangeVersionsStr
  /-- `str` of `server_senddir`. -/
  | serverSenddirStr
  /-- `filename` of `client_recvdirentry`. -/
  | clientRecvdirentryFilename
  /-- `pathstr` of `server_sendattr`. -/
  | serverSendattrPathstr
  /-- `info` of `client_reqattr`. -/
  | clientReqattrInfo
  /-- `path` of `server_utime`. -/
  | serverUtimePath
  /-- `path` of `server_unlink`. -/
  | serverUnlinkPath
  /-- `path` of `server_rename`. -/
  | serverRenamePath
  /-- `newpath` of `server_rename`. -/
  | serverRenameNewpath
  /-- `path` of `server_truncate`. -/
  | serverTruncatePath
  /-- `info` of `server_truncate`. -/
  | serverTruncateInfo
  /-- `path` of `server_write`. -/
  | serverWritePath
  /-- `data` of `server_write`. -/
  | serverWriteData
  /-- `info` of `server_write`. -/
  | serverWriteInfo
  /-- `filename` of `server_sendsegment`. -/
  | serverSendsegmentFilename
  /-- `info` of `server_sendsegment`. -/
  | serverSendsegmentInfo
  /-- `rcvbuf` of `client_handler`. -/
  | clientHandlerRcvbuf
  deriving DecidableEq

/-- The size of the array. -/
def Buffer.size : Buffer → ℕ
  | .clientConnectUdtPortstr => 24
  | .serverSenddirStr | .clientRecvdirentryFilename | .serverSendattrPathstr => mMaxPath + mMaxFile
  | .clientHandlerRcvbuf => 512
  | _ => mMaxVal

/-- The limit that the caller passes. For `data` it is computed from the size of `path`. -/
def Buffer.maxlen : Buffer → ℕ
  | .clientHandlerRcvbuf => Buffer.clientHandlerRcvbuf.size
  | .serverWriteData => Buffer.serverWritePath.size - 1
  | b => b.size - 1

/-- The caller hands the string to `path_to_local`. -/
def Buffer.isLocal : Buffer → Bool
  | .serverSenddirStr | .serverSendattrPathstr | .serverUtimePath | .serverUnlinkPath
  | .serverRenamePath | .serverRenameNewpath => true
  | _ => false

/-- Every limit is positive, and the array has at most one byte more. -/
theorem Buffer.maxlen_bounds (b : Buffer) :
    0 < b.maxlen ∧ b.maxlen ≤ b.size ∧ b.size ≤ b.maxlen + 1 := by
  cases b <;> decide

/-- The memory from the buffer on after the call, given the memory before. The first byte is cleared
before anything is received. -/
def RecvStr.memory (r : RecvStr) (old : Bytes) : Bytes :=
  if r.stored = [] then 0 :: old.tail else r.stored ++ old.drop r.stored.length

/-- The bytes that the call takes from the stream. -/
def consumed (s : TcpStream) (maxlen : ℕ) : Bytes :=
  s.bytes.take (s.bytes.length - (recvStr s maxlen).rest.bytes.length)

/-- What is taken is stored. -/
theorem consumed_eq_stored (s : TcpStream) (maxlen : ℕ) :
    consumed s maxlen = (recvStr s maxlen).stored := by
  have happend := recvStr_append s maxlen
  have hlength := recvStr_length s maxlen
  rw [consumed, show s.bytes.length - (recvStr s maxlen).rest.bytes.length =
    (recvStr s maxlen).stored.length by omega]
  conv_lhs => rw [← happend]
  exact List.take_left

/-- A string ends within the limit, or the stream ends before both, or the limit comes first. -/
theorem recvStr_trichotomy (bytes : Bytes) (maxlen : ℕ) :
    (∃ s rest, NulFree s ∧ s.length < maxlen ∧ bytes = s ++ 0 :: rest) ∨
      (NulFree bytes ∧ bytes.length < maxlen) ∨
      (NulFree (bytes.take maxlen) ∧ maxlen ≤ bytes.length) := by
  by_cases hzero : (0 : UInt8) ∈ bytes.take maxlen
  · left
    obtain ⟨s, rest, hsplit, hs⟩ := List.eq_append_cons_of_mem hzero
    refine ⟨s, rest ++ bytes.drop maxlen, hs, ?_, ?_⟩
    · have hlength := congrArg List.length hsplit
      rw [List.length_take, List.length_append, List.length_cons] at hlength
      omega
    · have hbytes := List.take_append_drop maxlen bytes
      rw [hsplit, List.append_assoc, List.cons_append] at hbytes
      exact hbytes.symm
  · right
    by_cases hlong : maxlen ≤ bytes.length
    · exact Or.inr ⟨hzero, hlong⟩
    · rw [List.take_of_length_le (by omega)] at hzero
      exact Or.inl ⟨hzero, by omega⟩

/-- The string in a buffer ends inside it, and `path_to_local` has room for its copy. -/
structure Buffer.Terminated (b : Buffer) (s : TcpStream) (old : Bytes) : Prop where
  /-- A zero inside the buffer follows the bytes that were received before one. -/
  zero : ∃ i < b.size, ((recvStr s b.maxlen).memory old)[i]? = some 0 ∧
    ((recvStr s b.maxlen).memory old).take i = cstr (consumed s b.maxlen)
  strlen : (cstr ((recvStr s b.maxlen).memory old)).length < b.size
  /-- The bound of the array `np`. -/
  np : b.isLocal = true →
    (cstr ((recvStr s b.maxlen).memory old)).length + 2 ≤ mMaxPath + mMaxFile

/-- Of an absolute path, `path_to_local` writes no byte behind `np` exactly if the string respects the
bound. -/
theorem pathToLocal_inside_iff {p : Bytes} (hslash : p.head? = some 47) :
    (pathToLocal p ++ [0]).length ≤ mMaxPath + mMaxFile ↔ p.length + 2 ≤ mMaxPath + mMaxFile := by
  rw [pathToLocal, if_pos hslash, List.length_append, List.length_cons, List.length_take,
    List.length_singleton]
  have hpath : mMaxPath + mMaxFile = 640 := rfl
  omega

section
variable {b : Buffer} {s : TcpStream} {old : Bytes}

/-- A string in front of a zero that is short enough. -/
theorem Buffer.terminated_of_zero {str later : Bytes} (hstr : NulFree str)
    (hmemory : (recvStr s b.maxlen).memory old = str ++ 0 :: later)
    (hconsumed : cstr (consumed s b.maxlen) = str) (hsize : str.length < b.size)
    (hlocal : b.isLocal = true → str.length + 2 ≤ mMaxPath + mMaxFile) : b.Terminated s old where
  zero := by
    refine ⟨str.length, hsize, ?_, ?_⟩
    · rw [hmemory, List.getElem?_append_right le_rfl, Nat.sub_self]
      rfl
    · rw [hmemory, List.take_left, hconsumed]
  strlen := by rwa [hmemory, cstr_append_zero hstr]
  np := by rwa [hmemory, cstr_append_zero hstr]

/-- A terminator within the limit is enough. -/
theorem Buffer.terminated_of_frame {str rest : Bytes} (hstr : NulFree str)
    (hlen : str.length < b.maxlen) (hbytes : s.bytes = str ++ 0 :: rest) : b.Terminated s old := by
  obtain ⟨bytes, ending⟩ := s
  obtain rfl : bytes = str ++ 0 :: rest := hbytes
  obtain ⟨-, hmax, -⟩ := b.maxlen_bounds
  have hrecv := recvStr_frame hstr rest ending hlen
  apply Buffer.terminated_of_zero hstr
  · rw [hrecv, RecvStr.memory, if_neg (by simp), List.append_assoc]
    rfl
  · rw [consumed_eq_stored, hrecv, cstr_append_zero hstr]
  · omega
  · intro hlocal
    have hpath : b.maxlen + 1 ≤ mMaxPath + mMaxFile := by
      revert hlocal
      cases b <;> decide
    omega

variable (old) in
/-- What a full receive leaves behind. -/
theorem memory_full (hstr : NulFree (s.bytes.take b.maxlen)) (hlen : b.maxlen ≤ s.bytes.length) :
    (recvStr s b.maxlen).ret = b.maxlen ∧ consumed s b.maxlen = s.bytes.take b.maxlen ∧
      (recvStr s b.maxlen).memory old = s.bytes.take b.maxlen ++ old.drop b.maxlen := by
  obtain ⟨hpos, -, -⟩ := b.maxlen_bounds
  have hlength : (s.bytes.take b.maxlen).length = b.maxlen := List.length_take_of_le hlen
  have hrecv := recvStr_full hstr (s.bytes.drop b.maxlen) s.ending hlength.ge
  rw [List.take_append_drop, List.take_of_length_le hlength.le] at hrecv
  have hstored : s.bytes.take b.maxlen ≠ [] := by
    rw [← List.length_pos_iff, hlength]
    exact hpos
  refine ⟨?_, ?_, ?_⟩
  · rw [show s = ⟨s.bytes, s.ending⟩ from rfl, hrecv]
  · rw [consumed_eq_stored, show s = ⟨s.bytes, s.ending⟩ from rfl, hrecv]
  · rw [show s = ⟨s.bytes, s.ending⟩ from rfl, hrecv, RecvStr.memory]
    dsimp only
    rw [if_neg hstored, hlength]

/-- Without a terminator only an old zero in the last byte of the buffer can end the string, and it
ends it too late for `path_to_local` if the buffer is as large as `np`. -/
theorem Buffer.terminated_full_iff (hstr : NulFree (s.bytes.take b.maxlen))
    (hlen : b.maxlen ≤ s.bytes.length) :
    b.Terminated s old ↔
      b.maxlen < b.size ∧ old[b.maxlen]? = some 0 ∧
        (b.isLocal = true → b.maxlen + 2 ≤ mMaxPath + mMaxFile) := by
  obtain ⟨-, -, hsize⟩ := b.maxlen_bounds
  obtain ⟨-, hconsumed, hmemory⟩ := memory_full old hstr hlen
  have hlength : (s.bytes.take b.maxlen).length = b.maxlen := List.length_take_of_le hlen
  constructor
  · rintro ⟨⟨i, hi, hzero, -⟩, -, hnp⟩
    rw [hmemory] at hzero hnp
    have hbehind : b.maxlen ≤ i := by
      by_contra hbefore
      rw [List.getElem?_append_left (by omega)] at hzero
      exact hstr (List.mem_of_getElem? hzero)
    obtain rfl : i = b.maxlen := by omega
    rw [List.getElem?_append_right hlength.le, hlength, Nat.sub_self, List.getElem?_drop,
      Nat.add_zero] at hzero
    refine ⟨hi, hzero, fun hlocal => ?_⟩
    have hbound := hnp hlocal
    rw [cstr_append_of_nulFree hstr, List.length_append, hlength] at hbound
    omega
  · rintro ⟨hroom, hzero, hlocal⟩
    obtain ⟨hinside, hget⟩ := List.getElem?_eq_some_iff.mp hzero
    apply Buffer.terminated_of_zero hstr
    · rw [hmemory, List.drop_eq_getElem_cons hinside, hget]
    · rw [hconsumed, cstr_of_nulFree hstr]
    · rwa [hlength]
    · rwa [hlength]

end

/-- **Termination.** A successful receive leaves a terminated string exactly if the terminator is
among the bytes up to the limit, or the byte of the buffer behind them happens to be zero already
and is not too late for `path_to_local`. -/
theorem terminated_iff (b : Buffer) (s : TcpStream) (old : Bytes) :
    (0 < (recvStr s b.maxlen).ret → b.Terminated s old) ↔
      (b.maxlen ≤ s.bytes.length →
        0 ∈ s.bytes.take b.maxlen ∨
          b.maxlen < b.size ∧ old[b.maxlen]? = some 0 ∧
            (b.isLocal = true → b.maxlen + 2 ≤ mMaxPath + mMaxFile)) := by
  rcases recvStr_trichotomy s.bytes b.maxlen with ⟨str, rest, hstr, hlen, hbytes⟩ | ⟨hstr, hlen⟩ |
    ⟨hstr, hlen⟩
  · apply iff_of_true
    · exact fun _ => Buffer.terminated_of_frame hstr hlen hbytes
    · intro _
      left
      obtain ⟨k, hk⟩ : ∃ k, b.maxlen - str.length = k + 1 := ⟨b.maxlen - str.length - 1, by omega⟩
      rw [hbytes, List.take_append, hk, List.take_succ_cons]
      exact List.mem_append_right _ List.mem_cons_self
  · apply iff_of_true
    · intro hpos
      have hcut := recvStr_cut hstr s.ending hlen
      rw [show s = ⟨s.bytes, s.ending⟩ from rfl, hcut] at hpos
      cases hend : s.ending <;> simp [hend, RecvEnd.value] at hpos
    · intro hfull
      omega
  · have hret := (memory_full old hstr hlen).1
    rw [imp_iff_right (by rw [hret]; exact_mod_cast b.maxlen_bounds.1), imp_iff_right hlen,
      or_iff_right hstr]
    exact Buffer.terminated_full_iff hstr hlen

/-- A `getattr` request for a path of 639 bytes. In a cleared buffer its string ends in the last byte,
one byte too late for `np`. -/
theorem getattr_639_overflows :
    ¬ ∀ (b : Buffer) (s : TcpStream) (old : Bytes),
      0 < (recvStr s b.maxlen).ret → b.Terminated s old := by
  intro h
  have hfree : NulFree (47 :: List.replicate 638 97) := by
    rw [nulFree_cons]
    exact ⟨by decide, nulFree_replicate (by decide) 638⟩
  have hterminated := (terminated_iff .serverSendattrPathstr
    ⟨frame (47 :: List.replicate 638 97), .closed⟩ (List.replicate 640 0)).mp (h _ _ _)
  have hlen : Buffer.serverSendattrPathstr.maxlen ≤ (47 :: List.replicate 638 (97 : UInt8)).length := by
    rw [List.length_cons, List.length_replicate]
    exact (by decide : 639 ≤ 639)
  rcases hterminated (by rw [frame, List.length_append]; omega) with hzero | ⟨-, -, hlocal⟩
  · rw [frame, List.take_append_of_le_length hlen] at hzero
    exact hfree.of_isPrefix (List.take_prefix _ _) hzero
  · exact absurd (hlocal rfl) (by decide)

end Udtfs

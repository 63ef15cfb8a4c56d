import Udtfs.SegmentTransfer

/-!
# The two overloads of `sendfile`

The project's `sendfile` for a `FILE*` is a copy of the one for an `fstream`. Both read blocks of
packets until the amount is sent or the source has stopped, and notice the end of the file by a short
read. They differ in the positioning: an `fstream` that cannot be positioned has failed and sends
nothing, while the result of `fseeko` is not looked at, and the file is sent from where a rejected
`fseeko` leaves it.
-/

namespace Udtfs

open NulString Content

/-- An `fstream` on a file. -/
structure FStream where
  content : Bytes
  position : ℕ
  eof : Bool
  fail : Bool
  bad : Bool
  deriving DecidableEq

/-- A stream that has just been opened. -/
def FStream.opened (content : Bytes) : FStream := ⟨content, 0, false, false, false⟩

/-- The positions that can be set, up to the largest one that the file system admits. -/
def seekAccepts (limit offset : ℤ) : Bool := 0 ≤ offset ∧ offset ≤ limit

/-- `seekg`: the mark of the end is cleared first; a stream that has failed stays where it is, and one
that cannot be positioned fails. -/
def FStream.seekg (limit : ℤ) (f : FStream) (offset : ℤ) : FStream :=
  if f.fail || f.bad then { f with eof := false } else
  if seekAccepts limit offset then { f with position := offset.toNat, eof := false } else
    { f with eof := false, fail := true }

/-- `read` with `gcount`: the bytes read and the stream afterwards. A stream that is not good fails; a
short read marks the end and fails too. -/
def FStream.read (f : FStream) (n : ℕ) : Bytes × FStream :=
  if f.bad || f.fail || f.eof then ([], { f with fail := true }) else
  if (f.content.drop f.position).length < n then
    (f.content.drop f.position, { f with position := f.content.length, eof := true, fail := true })
  else ((f.content.drop f.position).take n, { f with position := f.position + n })

/-- A good stream reads what it is asked for, or all that is left. -/
theorem FStream.read_good {f : FStream} (h : (f.bad || f.fail || f.eof) = false) (n : ℕ) :
    f.read n =
      if (f.content.drop f.position).length < n then
        (f.content.drop f.position, { f with position := f.content.length, eof := true, fail := true })
      else ((f.content.drop f.position).take n, { f with position := f.position + n }) := by
  rw [FStream.read, if_neg (by rw [h]; decide)]

/-- An `fstream` as a source of bytes. -/
def streamSource : ChunkedSource FStream UInt8 where
  stopped f := f.bad || f.fail || f.eof
  read := FStream.read
  read_zero f h := by simp [FStream.read_good h]
  read_length_le f n := by
    unfold FStream.read
    split
    · exact Nat.zero_le n
    · split
      · dsimp only
        omega
      · exact List.length_take_le n _
  stopped_read f n h := by
    rw [FStream.read_good h]
    split
    · next hshort => rw [decide_eq_true hshort, Bool.or_true]
    · next hlong =>
      dsimp only
      rw [h, List.length_take_of_le (by omega), decide_eq_false (Nat.lt_irrefl n)]
  read_add f m n h := by
    rw [FStream.read_good h, FStream.read_good h]
    by_cases hshort : (f.content.drop f.position).length < m
    · rw [if_pos hshort, if_pos (by omega), if_pos hshort]
    · have hlength : ((f.content.drop f.position).take m).length = m := List.length_take_of_le (by omega)
      have hafter := FStream.read_good (f := { f with position := f.position + m }) h n
      rw [if_neg hshort, hlength, if_neg (Nat.lt_irrefl m), hafter]
      dsimp only
      rw [← List.drop_drop]
      have hrest : ((f.content.drop f.position).drop m).length =
          (f.content.drop f.position).length - m := List.length_drop
      by_cases hend : (f.content.drop f.position).length < m + n
      · rw [if_pos hend, if_pos (by omega), List.take_append_drop]
      · rw [if_neg hend, if_neg (by omega), List.take_add, Nat.add_assoc]

section
variable {mss : ℕ} (hmss : 0 < mss) {block : ℕ} (hblock : 0 < block) (limit : ℤ)
  (rejected : Bytes → ℤ → ℕ)

/-- A file behind `fseeko`, whose result is ignored. A rejected offset leaves the file at a position that
the C library chooses. -/
def CFile.seeked (content : Bytes) (offset : ℤ) : CFile :=
  CFile.opened content (if seekAccepts limit offset then offset.toNat else rejected content offset)

/-- `CUDT::sendfile(FILE*)` on a file just opened: the packets and the returned amount. -/
def sendfileFile (content : Bytes) (offset size : ℤ) : List Bytes × ℤ :=
  sendfile fileSource hmss hblock size (CFile.seeked limit rejected content offset)

/-- `CUDT::sendfile(fstream&)` on a file just opened. -/
def sendfileFstream (content : Bytes) (offset size : ℤ) : List Bytes × ℤ :=
  sendfile streamSource hmss hblock size ((FStream.opened content).seekg limit offset)

/-- The `FILE*` overload sends from the position at which `fseeko` leaves the file. -/
theorem sendfileFile_eq (content : Bytes) (offset size : ℤ) :
    (sendfileFile hmss hblock limit rejected content offset size).1.flatten =
        slice content (if seekAccepts limit offset then offset.toNat else rejected content offset)
          size.toNat ∧
      (sendfileFile hmss hblock limit rejected content offset size).2 =
        (slice content (if seekAccepts limit offset then offset.toNat else rejected content offset)
          size.toNat).length := by
  rw [sendfileFile, CFile.seeked, ← fread_opened]
  exact sendfile_eq_read fileSource hmss hblock size rfl

/-- A stream that has stopped sends nothing. -/
theorem sendfile_stopped {σ : Type*} (src : ChunkedSource σ UInt8) (size : ℤ) {s : σ}
    (h : src.stopped s = true) : sendfile src hmss hblock size s = ([], 0) := by
  rw [sendfile, sendfileBlocks_stopped src hmss hblock _ h]
  split
  · rfl
  · next hsome =>
    dsimp only
    rw [Int.toNat_of_nonneg (by omega), sub_self]

/-- The `fstream` overload sends from the offset, or nothing if the offset is rejected. -/
theorem sendfileFstream_eq (content : Bytes) (offset size : ℤ) :
    (sendfileFstream hmss hblock limit content offset size).1.flatten =
        (if seekAccepts limit offset then slice content offset.toNat size.toNat else []) ∧
      (sendfileFstream hmss hblock limit content offset size).2 =
        (if seekAccepts limit offset then slice content offset.toNat size.toNat else []).length := by
  have hopened : ((FStream.opened content).fail || (FStream.opened content).bad) = false := rfl
  rw [sendfileFstream, FStream.seekg, hopened, if_neg (by decide)]
  cases haccepts : seekAccepts limit offset with
  | true =>
    have hread : (FStream.read ⟨content, offset.toNat, false, false, false⟩ size.toNat).1 =
        slice content offset.toNat size.toNat := by
      rw [FStream.read_good rfl]
      split
      · next hshort => exact (List.take_of_length_le hshort.le).symm
      · rfl
    rw [if_pos rfl, if_pos rfl, ← hread]
    exact sendfile_eq_read streamSource hmss hblock size rfl
  | false =>
    rw [if_neg (by decide), if_neg (by decide), sendfile_stopped hmss hblock streamSource size rfl]
    exact ⟨rfl, rfl⟩

/-- With its default block and an offset that is accepted, the `FILE*` overload is the `sendfile` of the
transfer of a segment. -/
theorem sendfileFile_of_accepted (content : Bytes) {offset : ℤ} (h : seekAccepts limit offset = true)
    (size : ℤ) :
    sendfileFile hmss sendfileBlock_pos limit rejected content offset size =
      sendfile fileSource hmss sendfileBlock_pos size (CFile.opened content (fseeko offset)) := by
  have hnonneg : 0 ≤ offset := (of_decide_eq_true h).1
  rw [sendfileFile, CFile.seeked, if_pos h, fseeko, if_neg (by omega)]

/-- **Agreement.** The overloads return the same amount and queue the same bytes exactly if nothing is
asked for, or the offset is accepted, or a rejected `fseeko` leaves the file at or behind its end. -/
theorem sendfile_agree_iff (content : Bytes) (offset size : ℤ) :
    ((sendfileFile hmss hblock limit rejected content offset size).2 =
          (sendfileFstream hmss hblock limit content offset size).2 ∧
        (sendfileFile hmss hblock limit rejected content offset size).1.flatten =
          (sendfileFstream hmss hblock limit content offset size).1.flatten) ↔
      size ≤ 0 ∨ seekAccepts limit offset = true ∨ content.length ≤ rejected content offset := by
  obtain ⟨hfile, hfileSent⟩ := sendfileFile_eq hmss hblock limit rejected content offset size
  obtain ⟨hstream, hstreamSent⟩ := sendfileFstream_eq hmss hblock limit content offset size
  rw [hfile, hfileSent, hstream, hstreamSent]
  cases haccepts : seekAccepts limit offset with
  | true => simp
  | false =>
    have hnothing : slice content (rejected content offset) size.toNat = [] ↔
        size ≤ 0 ∨ content.length ≤ rejected content offset := by
      rw [slice, List.take_eq_nil_iff, List.drop_eq_nil_iff]
      omega
    have hcount : ((slice content (rejected content offset) size.toNat).length : ℤ) =
        (([] : Bytes).length : ℤ) ↔ slice content (rejected content offset) size.toNat = [] := by
      rw [List.length_nil, Int.natCast_inj, List.length_eq_zero_iff]
    rw [if_neg (by decide), if_neg (by decide), hcount, hnothing, and_self,
      or_iff_right (by decide : ¬ false = true)]

end

/-- Behind an accepted offset the overloads agree at the end of the file. -/
theorem sendfile_agree_hello :
    (sendfileFile (by decide : 0 < 2) (by decide : 0 < 3) (2 ^ 63 - 1) (fun _ _ => 0)
          (ascii "hello") 2 10).2 =
        (sendfileFstream (by decide : 0 < 2) (by decide : 0 < 3) (2 ^ 63 - 1) (ascii "hello") 2 10).2 ∧
      (sendfileFile (by decide : 0 < 2) (by decide : 0 < 3) (2 ^ 63 - 1) (fun _ _ => 0)
          (ascii "hello") 2 10).1.flatten =
        (sendfileFstream (by decide : 0 < 2) (by decide : 0 < 3) (2 ^ 63 - 1)
          (ascii "hello") 2 10).1.flatten :=
  (sendfile_agree_iff (by decide) (by decide) (2 ^ 63 - 1) (fun _ _ => 0) (ascii "hello") 2 10).mpr
    (Or.inr (Or.inl (by decide)))

/-- A negative offset leaves the file at its beginning. There the `FILE*` overload sends the beginning of
the file and the `fstream` overload nothing. -/
theorem sendfile_differs_negative :
    ¬ ∀ (content : Bytes) (offset size : ℤ),
      (sendfileFile (by decide : 0 < 1456) sendfileBlock_pos (2 ^ 63 - 1) (fun _ _ => 0)
            content offset size).2 =
          (sendfileFstream (by decide : 0 < 1456) sendfileBlock_pos (2 ^ 63 - 1) content offset size).2 ∧
        (sendfileFile (by decide : 0 < 1456) sendfileBlock_pos (2 ^ 63 - 1) (fun _ _ => 0)
            content offset size).1.flatten =
          (sendfileFstream (by decide : 0 < 1456) sendfileBlock_pos (2 ^ 63 - 1)
            content offset size).1.flatten := by
  intro h
  have hagree := (h (ascii "hello") (-1) 5).1
  rw [(sendfileFile_eq (by decide) sendfileBlock_pos (2 ^ 63 - 1) (fun _ _ => 0) (ascii "hello")
      (-1) 5).2,
    (sendfileFstream_eq (by decide) sendfileBlock_pos (2 ^ 63 - 1) (ascii "hello") (-1) 5).2] at hagree
  exact absurd hagree (by decide)

end Udtfs

import Udtfs.Replies
import Udtfs.Lib.ChunkedSource

/-!
# The transfer of a segment

`UDT::sendfile` reads the file in blocks and each block in packets, and notices the end of the file
only after a short read. `server_sendsegment` sends zeros from `/dev/zero` for what the file did not
have. The client receives the bytes in pieces of any size. All these loops together deliver exactly
the segment that was asked for.
-/

namespace Udtfs

open NulString Content

/-! ## Files and devices -/

/-- An open file, as far as it is still to be read. -/
structure CFile where
  /-- The bytes from the present position on that can be read. -/
  rest : Bytes
  /-- Reading behind these bytes is an error, not the end of the file. -/
  breaks : Bool
  /-- `feof`. -/
  eof : Bool
  /-- `ferror`. -/
  error : Bool
  deriving DecidableEq

/-- A file after `fopen` and a successful `fseeko`. -/
def CFile.opened (content : Bytes) (position : ℕ) : CFile :=
  ⟨content.drop position, false, false, false⟩

/-- `fread(buf, 1, n, file)`: the bytes read and the file afterwards. Only a read that gets less than
it asks for meets the end of the file. -/
def CFile.fread (f : CFile) (n : ℕ) : Bytes × CFile :=
  if f.rest.length < n then
    (f.rest, { f with rest := [], eof := f.eof || !f.breaks, error := f.error || f.breaks })
  else (f.rest.take n, { f with rest := f.rest.drop n })

/-- A file as a source of bytes. -/
def fileSource : ChunkedSource CFile UInt8 where
  stopped f := f.eof || f.error
  read := CFile.fread
  read_zero f _ := by simp [CFile.fread]
  read_length_le f n := by
    unfold CFile.fread
    split
    · dsimp only
      omega
    · exact List.length_take_le n f.rest
  stopped_read f n h := by
    obtain ⟨heof, herror⟩ := Bool.or_eq_false_iff.mp h
    unfold CFile.fread
    split
    · next hshort => simp [heof, herror, hshort]
    · next hlong => simp [heof, herror, Nat.not_lt.mp hlong]
  read_add f m n h := by
    obtain ⟨heof, herror⟩ := Bool.or_eq_false_iff.mp h
    unfold CFile.fread
    by_cases hshort : f.rest.length < m
    · rw [if_pos hshort, if_pos (by omega), if_pos hshort]
    · have hlength : (f.rest.take m).length = m := List.length_take_of_le (by omega)
      rw [if_neg hshort]
      dsimp only
      rw [hlength, if_neg (Nat.lt_irrefl m), List.length_drop]
      by_cases hend : f.rest.length < m + n
      · rw [if_pos hend, if_pos (by omega), List.take_append_drop]
      · rw [if_neg hend, if_neg (by omega), List.take_add, List.drop_drop]

/-- `/dev/zero` as a source of bytes. -/
def zeroSource : ChunkedSource Unit UInt8 where
  stopped _ := false
  read _ n := (List.replicate n 0, ())
  read_zero _ _ := rfl
  read_length_le _ n := List.length_replicate.le
  stopped_read _ n _ := by simp
  read_add _ m n _ := by
    dsimp only
    rw [List.length_replicate, if_neg (Nat.lt_irrefl m), List.replicate_add]

/-- What one read of a fresh file gets. -/
theorem fread_opened (content : Bytes) (position n : ℕ) :
    ((CFile.opened content position).fread n).1 = slice content position n := by
  rw [CFile.fread]
  split
  · next hshort => exact (List.take_of_length_le hshort.le).symm
  · rfl

/-- A read gets what it asks for, or all that is left. -/
theorem fread_length (f : CFile) (n : ℕ) : (f.fread n).1.length = min n f.rest.length := by
  rw [CFile.fread]
  split
  · dsimp only
    omega
  · exact List.length_take

/-! ## Packets -/

section
variable {σ : Type*} (src : ChunkedSource σ UInt8) (mss : ℕ)

/-- The number of packets that `addBufferFromFile` plans for `len` bytes. -/
def plannedBlocks (len : ℕ) : ℕ := len / mss + if len % mss ≠ 0 then 1 else 0

/-- The sizes of these packets. -/
def packetSizes (len : ℕ) : List ℕ :=
  (List.range (plannedBlocks mss len)).map fun i => min (len - i * mss) mss

/-- `CSndBuffer::addBufferFromFile`: the packets put into the send buffer and the source
afterwards. -/
def addBufferFromFile (len : ℕ) (s : σ) : List Bytes × σ := src.readChunks (packetSizes mss len) s

/-- Without bytes there is nothing to plan. -/
theorem plannedBlocks_zero : plannedBlocks mss 0 = 0 := by simp [plannedBlocks]

/-- Nothing needs no packet. -/
theorem packetSizes_zero : packetSizes mss 0 = [] := by
  rw [packetSizes, plannedBlocks_zero]
  rfl

variable {mss} (hmss : 0 < mss)

include hmss

/-- The first packet takes a full payload, or all bytes. -/
theorem plannedBlocks_of_pos {len : ℕ} (hlen : 0 < len) :
    plannedBlocks mss len = plannedBlocks mss (len - mss) + 1 := by
  unfold plannedBlocks
  by_cases hlong : mss ≤ len
  · obtain ⟨rest, rfl⟩ : ∃ rest, len = rest + mss := ⟨len - mss, by omega⟩
    rw [Nat.add_sub_cancel, Nat.add_div_right rest hmss, Nat.add_mod_right]
    omega
  · rw [Nat.div_eq_of_lt (by omega), Nat.mod_eq_of_lt (by omega), Nat.sub_eq_zero_of_le (by omega),
      if_pos (by omega)]
    simp

/-- The packets behind the first are those of the remaining bytes. -/
theorem packetSizes_of_pos {len : ℕ} (hlen : 0 < len) :
    packetSizes mss len = min len mss :: packetSizes mss (len - mss) := by
  rw [packetSizes, plannedBlocks_of_pos hmss hlen, List.range_succ_eq_map, List.map_cons,
    List.map_map, packetSizes]
  congr 1
  · simp
  · apply List.map_congr_left
    intro i _
    simp only [Function.comp_apply, Nat.succ_mul]
    congr 1
    omega

/-- No packet is empty. -/
theorem packetSizes_pos (len : ℕ) : ∀ n ∈ packetSizes mss len, 0 < n := by
  induction len using Nat.strong_induction_on with
  | h len ih =>
    rcases Nat.eq_zero_or_pos len with rfl | hlen
    · rw [packetSizes_zero]
      simp
    · rw [packetSizes_of_pos hmss hlen, List.forall_mem_cons]
      exact ⟨by omega, ih (len - mss) (by omega)⟩

/-- The packets have room for exactly the bytes. -/
theorem packetSizes_sum (len : ℕ) : (packetSizes mss len).sum = len := by
  induction len using Nat.strong_induction_on with
  | h len ih =>
    rcases Nat.eq_zero_or_pos len with rfl | hlen
    · rw [packetSizes_zero, List.sum_nil]
    · rw [packetSizes_of_pos hmss hlen, List.sum_cons, ih (len - mss) (by omega)]
      omega

/-- A block gets what one read of it would get. -/
theorem addBufferFromFile_eq_read (len : ℕ) {s : σ} (h : src.stopped s = false) :
    ((addBufferFromFile src mss len s).1.flatten, (addBufferFromFile src mss len s).2) =
      src.read s len := by
  rw [addBufferFromFile, src.readChunks_eq_read (packetSizes_pos hmss len) h, packetSizes_sum hmss]

/-! ## Blocks -/

/-- The default block of `UDT::sendfile`. -/
def sendfileBlock : ℕ := 364000

omit hmss in
/-- The default block is not empty. -/
theorem sendfileBlock_pos : 0 < sendfileBlock := by decide

/-- A block that brings no bytes stops the source, any other one is progress. -/
theorem addBufferFromFile_progress {block : ℕ} (hblock : 0 < block) {tosend : ℕ} {s : σ}
    (htosend : tosend ≠ 0) (h : ¬ src.stopped s = true) :
    2 * (tosend - (addBufferFromFile src mss (min tosend block) s).1.flatten.length) +
        (if src.stopped (addBufferFromFile src mss (min tosend block) s).2 then 0 else 1) <
      2 * tosend + (if src.stopped s then 0 else 1) := by
  have hgoes : src.stopped s = false := by simpa using h
  have hunit : 0 < min tosend block := by omega
  have hread := addBufferFromFile_eq_read src hmss (min tosend block) hgoes
  have hbytes := congrArg Prod.fst hread
  have hafter := congrArg Prod.snd hread
  have hstopped := src.stopped_read s (min tosend block) hgoes
  dsimp only at hbytes hafter
  rw [hbytes, hafter, hgoes, hstopped]
  by_cases hnone : (src.read s (min tosend block)).1.length = 0
  · simp only [hnone, hunit, decide_true, if_true, Bool.false_eq_true, if_false]
    omega
  · split_ifs <;> omega

/-- The block loop of `CUDT::sendfile` with blocks of any size, as long as there is room in the send
buffer: the packets that are queued and the amount left to send. -/
def sendfileBlocks (hmss : 0 < mss) {block : ℕ} (hblock : 0 < block) (tosend : ℕ) (s : σ) :
    List Bytes × ℕ :=
  if _htosend : tosend = 0 then ([], 0) else
  if _h : src.stopped s then ([], tosend) else
    let added := addBufferFromFile src mss (min tosend block) s
    let later := sendfileBlocks hmss hblock (tosend - added.1.flatten.length) added.2
    (added.1 ++ later.1, later.2)
termination_by 2 * tosend + (if src.stopped s then 0 else 1)
decreasing_by exact addBufferFromFile_progress src hmss hblock _htosend _h

/-- Nothing is queued from a source that has stopped. -/
theorem sendfileBlocks_stopped {block : ℕ} (hblock : 0 < block) (tosend : ℕ) {s : σ}
    (h : src.stopped s = true) : sendfileBlocks src hmss hblock tosend s = ([], tosend) := by
  rw [sendfileBlocks, dif_pos h]
  split
  · next hzero => rw [hzero]
  · rfl

/-- The blocks together get what one read of the whole amount would get. -/
theorem sendfileBlocks_eq_read {block : ℕ} (hblock : 0 < block) (tosend : ℕ) {s : σ}
    (h : src.stopped s = false) :
    (sendfileBlocks src hmss hblock tosend s).1.flatten = (src.read s tosend).1 ∧
      (sendfileBlocks src hmss hblock tosend s).2 = tosend - (src.read s tosend).1.length := by
  fun_induction sendfileBlocks src hmss hblock tosend s with
  | case1 s => simp [src.read_zero s h]
  | case2 tosend s htosend hstopped =>
    rw [hstopped] at h
    contradiction
  | case3 tosend s htosend hstopped added later ih =>
    have hread := addBufferFromFile_eq_read src hmss (min tosend block) h
    have hbytes : added.1.flatten = (src.read s (min tosend block)).1 := congrArg Prod.fst hread
    have hafter : added.2 = (src.read s (min tosend block)).2 := congrArg Prod.snd hread
    have hlater : later = sendfileBlocks src hmss hblock (tosend - added.1.flatten.length) added.2 :=
      rfl
    obtain ⟨rest, hrest⟩ : ∃ rest, tosend = min tosend block + rest :=
      ⟨tosend - min tosend block, by omega⟩
    clear_value added later
    generalize min tosend block = unitsize at *
    rw [List.flatten_append]
    by_cases hshort : (src.read s unitsize).1.length < unitsize
    · have hend : src.stopped added.2 = true := by
        rw [hafter, src.stopped_read s unitsize h, decide_eq_true hshort]
      rw [hlater, sendfileBlocks_stopped src hmss hblock _ hend, hbytes, hrest,
        src.read_add_short h hshort]
      simp
    · have hgoes : src.stopped added.2 = false := by
        rw [hafter]
        exact src.stopped_of_complete h (by omega)
      have hlength : (src.read s unitsize).1.length = unitsize :=
        le_antisymm (src.read_length_le s unitsize) (by omega)
      obtain ⟨hflatten, hleft⟩ := ih hgoes
      have hsplit := src.read_add s unitsize rest h
      rw [if_neg hshort, ← hrest] at hsplit
      have hamount : tosend - added.1.flatten.length = rest := by
        rw [hbytes]
        omega
      rw [← hlater, hamount, hafter] at hflatten hleft
      rw [hbytes, hsplit]
      constructor
      · exact congrArg _ hflatten
      · rw [List.length_append, hlength]
        dsimp only
        rw [hleft]
        omega

/-- `CUDT::sendfile` from the present position of a source: the packets and the returned amount. -/
def sendfile (hmss : 0 < mss) {block : ℕ} (hblock : 0 < block) (size : ℤ) (s : σ) :
    List Bytes × ℤ :=
  if size ≤ 0 then ([], 0) else
    let sent := sendfileBlocks src hmss hblock size.toNat s
    (sent.1, size - sent.2)

/-- The packets hold what one read would get, and their bytes are counted. -/
theorem sendfile_eq_read {block : ℕ} (hblock : 0 < block) (size : ℤ) {s : σ}
    (h : src.stopped s = false) :
    (sendfile src hmss hblock size s).1.flatten = (src.read s size.toNat).1 ∧
      (sendfile src hmss hblock size s).2 = (src.read s size.toNat).1.length := by
  rw [sendfile]
  split
  · next hnone =>
    rw [Int.toNat_of_nonpos hnone, src.read_zero s h]
    exact ⟨rfl, rfl⟩
  · next hsome =>
    obtain ⟨hflatten, hleft⟩ := sendfileBlocks_eq_read src hmss hblock size.toNat h
    have hle := src.read_length_le s size.toNat
    refine ⟨hflatten, ?_⟩
    dsimp only
    rw [hleft]
    omega

end

section
variable {mss : ℕ} (hmss : 0 < mss)

/-- The packets that `server_sendsegment` sends once it has its arguments. -/
def sendsegmentPackets (content : Bytes) (offset : ℤ) (len : ℕ) : List Bytes :=
  let file := sendfile fileSource hmss sendfileBlock_pos (toInt64 len) (CFile.opened content (fseeko offset))
  if file.2 < 0 then file.1 else
  if toSizeT file.2 < len then
    file.1 ++ (sendfile zeroSource hmss sendfileBlock_pos (toInt64 (len - file.2)) ()).1
  else file.1

/-- `server_sendsegment`: nothing is sent unless all arguments are received; `none` when it uses the
null pointer of a failed `fopen`. -/
def serverSendsegmentPackets (stale : ℕ → Bytes) (fs : ServerFs) (s : TcpStream) :
    Option (List Bytes) × TcpStream :=
  match serverSendsegment stale s with
  | ⟨some (.read filename offset len), rest⟩ =>
    ((fs.fopenRead filename).map fun content => sendsegmentPackets hmss content offset len, rest)
  | ⟨_, rest⟩ => (some [], rest)

/-- From a file `UDT::sendfile` sends the part of the content that exists. -/
theorem sendfile_file (content : Bytes) (offset size : ℤ) :
    (sendfile fileSource hmss sendfileBlock_pos size (CFile.opened content (fseeko offset))).1.flatten =
        udtSendfile content offset size ∧
      (sendfile fileSource hmss sendfileBlock_pos size (CFile.opened content (fseeko offset))).2 =
        (udtSendfile content offset size).length := by
  have hread : (fileSource.read (CFile.opened content (fseeko offset)) size.toNat).1 =
      udtSendfile content offset size := by
    rw [udtSendfile]
    split
    · next hnone =>
      rw [Int.toNat_of_nonpos hnone]
      exact congrArg Prod.fst (fileSource.read_zero _ rfl)
    · exact fread_opened content (fseeko offset) size.toNat
  have hsent := sendfile_eq_read fileSource hmss sendfileBlock_pos size
    (s := CFile.opened content (fseeko offset)) rfl
  rwa [hread] at hsent

/-- From `/dev/zero` it sends zeros. -/
theorem sendfile_zeros (size : ℤ) :
    (sendfile zeroSource hmss sendfileBlock_pos size ()).1.flatten = List.replicate size.toNat 0 :=
  (sendfile_eq_read zeroSource hmss sendfileBlock_pos size rfl).1

/-- Block by block and packet by packet, the handler sends the reply to the request. -/
theorem sendsegmentPackets_flatten (content : Bytes) (offset : ℤ) {len : ℕ} (hlen : len < 2 ^ 63) :
    (sendsegmentPackets hmss content offset len).flatten = sendsegmentReply content offset len := by
  obtain ⟨hbytes, hsent⟩ := sendfile_file hmss content offset (toInt64 len)
  have hint : toInt64 len = len := toInt64_of_range (by omega) (by omega)
  have hle : (udtSendfile content offset (toInt64 len)).length ≤ len := by
    rw [udtSendfile, hint]
    split
    · exact Nat.zero_le len
    · rw [slice_length]
      omega
  rw [sendsegmentPackets, sendsegmentReply]
  simp only [hsent]
  rw [if_neg (by omega), toSizeT_natCast (by omega)]
  by_cases hshort : (udtSendfile content offset (toInt64 len)).length < len
  · rw [if_pos hshort, if_pos hshort, List.flatten_append, hbytes, sendfile_zeros, ← Nat.cast_sub hle]
  · rw [if_neg hshort, if_neg hshort, hbytes]

/-- A request that is received is answered with the bytes of the reply. -/
theorem serverSendsegmentPackets_act (stale : ℕ → Bytes) (shell : Bytes → ServerFs → ServerFs)
    (fs : ServerFs) {s rest : TcpStream} {filename : Bytes} {offset : ℤ} {len : ℕ}
    (hlen : len < 2 ^ 63)
    (h : serverSendsegment stale s = ⟨some (.read filename offset len), rest⟩) :
    (serverSendsegmentPackets hmss stale fs s).1.map List.flatten =
      (fs.act shell (.read filename offset len)).map Outcome.udt := by
  rw [serverSendsegmentPackets, h, ServerFs.act, Option.map_map, Option.map_map]
  apply Option.map_congr
  intro content _
  rw [Function.comp_apply, Function.comp_apply, sendsegmentPackets_flatten hmss content offset hlen]

end

/-! ## Receiving -/

/-- What `client_recvsegment` returns and leaves behind. -/
structure RecvSegment where
  ret : ℤ
  buf : ℕ → UInt8
  rest : Bytes

/-- The number of bytes that `UDT::recv` hands out: at least one, at most what is asked for and what
there is. -/
def udtRecvSize (chunk : ℕ → ℕ) (remain available : ℕ) : ℕ :=
  max 1 (min (chunk remain) (min remain available))

/-- Store bytes in a buffer from a position on. -/
def storeAt (buf : ℕ → UInt8) (pos : ℕ) (bytes : Bytes) : ℕ → UInt8 :=
  fun i => if pos ≤ i ∧ i < pos + bytes.length then byteAt bytes (i - pos) else buf i

/-- The receive loop of `client_recvsegment`; `none` when it waits for bytes that never come. -/
def recvsegmentLoop (chunk : ℕ → ℕ) (remain pos : ℕ) (udt : Bytes) (buf : ℕ → UInt8) :
    Option RecvSegment :=
  if _h : remain = 0 then some ⟨0, buf, udt⟩ else
  if udt = [] then none else
    let n := udtRecvSize chunk remain udt.length
    recvsegmentLoop chunk (remain - n) (pos + n) (udt.drop n) (storeAt buf pos (udt.take n))
termination_by remain
decreasing_by
  have hone : 1 ≤ udtRecvSize chunk remain udt.length := le_max_left _ _
  omega

/-- Without bytes nothing is stored. -/
theorem storeAt_nil (buf : ℕ → UInt8) (pos : ℕ) : storeAt buf pos [] = buf := by
  funext i
  rw [storeAt, List.length_nil, if_neg (by omega)]

/-- Bytes stored one behind the other are stored as one piece. -/
theorem storeAt_append (buf : ℕ → UInt8) (pos : ℕ) (bytes later : Bytes) :
    storeAt (storeAt buf pos bytes) (pos + bytes.length) later =
      storeAt buf pos (bytes ++ later) := by
  funext i
  rw [storeAt, storeAt, storeAt, List.length_append]
  by_cases hlow : i < pos + bytes.length
  · rw [if_neg (by omega)]
    by_cases hpos : pos ≤ i
    · rw [if_pos ⟨hpos, hlow⟩, if_pos (by omega), byteAt, byteAt, List.getD_append _ _ _ _ (by omega)]
    · rw [if_neg (by omega), if_neg (by omega)]
  · by_cases hin : i < pos + bytes.length + later.length
    · rw [if_pos (by omega), if_pos (by omega), byteAt, byteAt,
        List.getD_append_right _ _ _ _ (by omega), Nat.sub_sub]
    · rw [if_neg (by omega), if_neg (by omega), if_neg (by omega)]

/-- However the stream is split, the loop stores exactly the bytes that remain. -/
theorem recvsegmentLoop_eq (chunk : ℕ → ℕ) (remain pos : ℕ) (udt : Bytes) (buf : ℕ → UInt8) :
    recvsegmentLoop chunk remain pos udt buf =
      if remain ≤ udt.length then some ⟨0, storeAt buf pos (udt.take remain), udt.drop remain⟩
      else none := by
  fun_induction recvsegmentLoop chunk remain pos udt buf with
  | case1 pos udt buf => rw [if_pos (Nat.zero_le _), List.take_zero, storeAt_nil, List.drop_zero]
  | case2 remain pos buf h => rw [List.length_nil, if_neg (by omega)]
  | case3 remain pos udt buf h hsome n ih =>
    have hpos : 0 < udt.length := List.length_pos_iff.mpr hsome
    have hn : n ≤ remain ∧ n ≤ udt.length := by
      have hdef : n = max 1 (min (chunk remain) (min remain udt.length)) := rfl
      omega
    have htaken : (udt.take n).length = n := List.length_take_of_le hn.2
    have hsplit : udt.take remain = udt.take n ++ (udt.drop n).take (remain - n) := by
      rw [← List.take_add, Nat.add_sub_cancel' hn.1]
    have hstore := storeAt_append buf pos (udt.take n) ((udt.drop n).take (remain - n))
    rw [htaken, ← hsplit] at hstore
    rw [ih, hstore, List.length_drop, List.drop_drop, Nat.add_sub_cancel' hn.1]
    by_cases henough : remain ≤ udt.length
    · rw [if_pos (by omega), if_pos henough]
    · rw [if_neg (by omega), if_neg henough]

/-- What is stored at the beginning of a buffer, byte by byte. -/
theorem storeAt_zero (buf : ℕ → UInt8) (bytes : Bytes) :
    storeAt buf 0 bytes = fun i => if i < bytes.length then byteAt bytes i else buf i := by
  funext i
  simp only [storeAt, Nat.zero_le, true_and, Nat.zero_add, Nat.sub_zero]

/-- The loop receives a segment as a whole. -/
theorem recvsegmentLoop_eq_clientRecvsegment (chunk : ℕ → ℕ) (udt : Bytes) (len : ℕ)
    (buf : ℕ → UInt8) :
    recvsegmentLoop chunk len 0 udt buf =
      (clientRecvsegment udt len buf).map fun r => ⟨0, r.1, r.2⟩ := by
  rw [recvsegmentLoop_eq, clientRecvsegment]
  split
  · next henough =>
    rw [Option.map_some]
    congr 2
    rw [storeAt_zero, List.length_take_of_le henough]
    funext i
    dsimp only
    by_cases hin : i < len
    · rw [if_pos hin, if_pos hin, byteAt, byteAt, List.getD_eq_getElem?_getD,
        List.getD_eq_getElem?_getD, List.getElem?_take_of_lt hin]
    · rw [if_neg hin, if_neg hin]
  · rfl

/-! ## The whole transfer -/

/-- **Segment transfer.** A request for a segment of a readable file, whose name fits the handler's
buffer, puts exactly the bytes asked for on the UDT stream, those of the file followed by zeros. The
client stores them, and only them, and stops at the next segment, however the stream is split. -/
theorem segment_transfer {mss : ℕ} (hmss : 0 < mss) (stale : ℕ → Bytes) {fs : ServerFs}
    {filename : Bytes} (hname : NulFree filename) (hfits : filename.length < mMaxVal - 1) {f : File}
    (hfile : fs.lookup filename = some (.file f)) (hreadable : f.readable = true) {offset : ℤ}
    (hoffset : 0 ≤ offset) (hseek : offset < 2 ^ 63) {len : ℕ} (hlen : len < 2 ^ 31)
    (requests : Bytes) (ending : RecvEnd) :
    ∃ packets,
      serverSendsegmentPackets hmss stale fs
          ⟨frames (clientReqsegment filename offset len) ++ requests, ending⟩ =
        (some packets, ⟨requests, ending⟩) ∧
      packets.flatten = padded f.content offset.toNat len ∧ packets.flatten.length = len ∧
      ∀ (chunk : ℕ → ℕ) (segments : Bytes) (buf : ℕ → UInt8),
        recvsegmentLoop chunk len 0 (packets.flatten ++ segments) buf =
          some ⟨0, fun i => if i < len then byteAt (padded f.content offset.toNat len) i else buf i,
            segments⟩ := by
  have hcarried : (Request.read filename offset len).Carried :=
    ⟨⟨hname, Nat.le_of_lt_succ hfits⟩, ⟨hoffset, hseek⟩, by omega⟩
  have hreceived : serverSendsegment stale
      ⟨frames (clientReqsegment filename offset len) ++ requests, ending⟩ =
        ⟨some (.read filename offset len), ⟨requests, ending⟩⟩ :=
    hcarried.receive stale requests ending
  have hopen : fs.fopenRead filename = some f.content := by
    rw [ServerFs.fopenRead, hfile]
    exact if_pos hreadable
  have hbytes : (sendsegmentPackets hmss f.content offset len).flatten =
      padded f.content offset.toNat len := by
    rw [sendsegmentPackets_flatten hmss f.content offset (by omega),
      sendsegmentReply_eq f.content hoffset (by omega)]
  have hlength : (padded f.content offset.toNat len).length = len := padded_length _ _ _
  refine ⟨sendsegmentPackets hmss f.content offset len, ?_, hbytes, ?_, fun chunk segments buf => ?_⟩
  · rw [serverSendsegmentPackets, hreceived]
    dsimp only
    rw [hopen, Option.map_some]
  · rw [hbytes, hlength]
  · have hall : len ≤ (padded f.content offset.toNat len ++ segments).length := by
      rw [List.length_append, hlength]
      omega
    rw [hbytes, recvsegmentLoop_eq, if_pos hall, List.take_left' hlength, List.drop_left' hlength,
      storeAt_zero, hlength]

/-- Ten bytes from position 2 of a five-byte file, in packets of four bytes. -/
theorem segment_transfer_hello :
    ∃ packets,
      serverSendsegmentPackets (show 0 < 4 by decide) (fun _ => [])
          (ServerFs.ofFiles [(ascii "a", File.plain (ascii "hello"))])
          ⟨frames (clientReqsegment (ascii "a") 2 10) ++ [], .closed⟩ =
        (some packets, ⟨[], .closed⟩) ∧
      packets.flatten = padded (ascii "hello") 2 10 ∧ packets.flatten.length = 10 ∧
      ∀ (chunk : ℕ → ℕ) (segments : Bytes) (buf : ℕ → UInt8),
        recvsegmentLoop chunk 10 0 (packets.flatten ++ segments) buf =
          some ⟨0, fun i => if i < 10 then byteAt (padded (ascii "hello") 2 10) i else buf i,
            segments⟩ := by
  have hfile : (ServerFs.ofFiles [(ascii "a", File.plain (ascii "hello"))]).lookup (ascii "a") =
      some (.file (File.plain (ascii "hello"))) := by decide
  exact segment_transfer (by decide) (fun _ => []) (by decide) (by decide) hfile rfl (by decide)
    (by decide) (by decide) [] .closed

end Udtfs

import Udtfs.Replies

/-!
# The client's callbacks

The state that the file system process keeps between callbacks, and the callbacks that read or
write it, one at a time and with all sends and receives succeeding. Only one file can be open. Its
name, its attributes at the time of opening and one window of its content are remembered; every
request about an open file carries the remembered name, not the path of the callback.
-/

namespace Udtfs

open NulString Content

/-- `MAX_CACHE_SIZE`. -/
def maxCacheSize : ℕ := 32 * 1024 * 1024

/-- `ENOENT`. -/
def eNoent : ℤ := 2

/-- `EIO`. -/
def eIo : ℤ := 5

/-- A cleared `struct stat`. -/
def Stat.zero : Stat := ⟨0, 0, 0, 0, 0, 0, 0, 0⟩

/-- The globals of the client. -/
structure Client where
  /-- `_file_is_open`. -/
  fileIsOpen : Bool
  /-- The `M_MAX_VAL` bytes of `_file_name`. -/
  fileName : Bytes
  /-- `_file_stats`. -/
  fileStats : Stat
  /-- The memory that `_cache` points to, of which `maxCacheSize` bytes are allocated. -/
  cache : ℕ → UInt8
  /-- `_cache_len`. -/
  cacheLen : ℕ
  /-- `_cache_offset`. -/
  cacheOffset : ℤ

/-- The globals after `main` has set up the cache, whatever the allocated memory holds. -/
def Client.init (cache : ℕ → UInt8) : Client :=
  ⟨false, List.replicate mMaxVal 0, Stat.zero, cache, 0, 0⟩

/-- `if (path[0]=='/') { path++; }`. -/
def stripSlash (path : Bytes) : Bytes := if path.head? = some 47 then path.tail else path

/-- `_file_name` read as a C string; `beyond` is the memory behind the array. -/
def Client.openName (c : Client) (beyond : Bytes) : Bytes := cstr (c.fileName ++ beyond)

/-- `udtfs_getattr` on the reply that arrives. -/
def udtfsGetattr (stale : ℕ → Bytes) (reply : TcpStream) : RecvAttr :=
  let received := clientReqattrReply stale Stat.zero reply
  if received.ret ≠ 0 then { received with ret := -eNoent } else received

/-- `udtfs_open` on the reply to its `getattr` request: the return value and the globals. A failed
request has already overwritten the remembered attributes. -/
def udtfsOpen (stale : ℕ → Bytes) (c : Client) (path : Bytes) (reply : TcpStream) : ℤ × Client :=
  if c.fileIsOpen then (-eIo, c) else
  let path := stripSlash path
  let attr := udtfsGetattr stale reply
  let c := { c with fileStats := attr.stat }
  if attr.ret ≠ 0 then (-eNoent, c) else
    (0, { c with fileName := strncpy path mMaxVal, fileIsOpen := true })

/-- `udtfs_release`. -/
def udtfsRelease (c : Client) (path : Bytes) : Client :=
  if c.fileIsOpen then
    if strncmp (stripSlash path) c.fileName mMaxVal then
      { c with fileIsOpen := false, cacheOffset := 0, cacheLen := 0 }
    else c
  else c

/-- The crop at the end of the file, a subtraction of signed values that is compared and stored
as `size_t`. -/
def Client.actualsize (c : Client) (size : ℕ) (offset : ℤ) : ℕ :=
  let left := toSizeT (c.fileStats.stSize - offset)
  if left < size then left else size

/-- The test whether the cache lacks a part of the range. -/
def Client.needsRefill (c : Client) (actualsize : ℕ) (offset : ℤ) : Bool :=
  offset < c.cacheOffset || toSizeT (offset + actualsize) > toSizeT (c.cacheOffset + c.cacheLen)

/-- How much a refill asks for. -/
def Client.fetchsize (c : Client) : ℕ :=
  if c.fileStats.stSize < maxCacheSize then toSizeT c.fileStats.stSize else maxCacheSize

/-- The request of a refill. -/
def Client.refillRequest (c : Client) (beyond : Bytes) (offset : ℤ) : Request :=
  .read (c.openName beyond) offset c.fetchsize

/-- The refill with the bytes that arrive on the UDT stream; `none` while they are too few or
when they exceed the allocated cache. -/
def Client.refill (c : Client) (offset : ℤ) (udt : Bytes) : Option Client :=
  if c.fetchsize ≤ maxCacheSize then
    (clientRecvsegment udt c.fetchsize c.cache).map fun received =>
      { c with cache := received.1, cacheOffset := offset, cacheLen := c.fetchsize }
  else none

/-- What a read returns to its caller. -/
structure ReadResult where
  /-- The return value. -/
  ret : ℤ
  /-- The first index of the range that is copied from the cache. -/
  start : ℤ
  /-- The bytes copied to `buf`. -/
  buf : Bytes
  /-- The globals afterwards. -/
  client : Client

/-- The copy out of the cache; `none` when it leaves the allocated memory. -/
def Client.copyOut (c : Client) (actualsize : ℕ) (offset : ℤ) : Option ReadResult :=
  let start := offset - c.cacheOffset
  if 0 ≤ start ∧ start + actualsize ≤ maxCacheSize then
    some ⟨toInt actualsize, start,
      (List.range actualsize).map fun i => c.cache (start.toNat + i), c⟩
  else none

/-- `udtfs_read`, with the UDT bytes that a request brings. -/
def udtfsRead (c : Client) (beyond : Bytes) (size : ℕ) (offset : ℤ)
    (serve : Request → Option Bytes) : Option ReadResult :=
  let actualsize := c.actualsize size offset
  if actualsize ≤ 0 then some ⟨0, 0, [], c⟩ else
  let cached :=
    if c.needsRefill actualsize offset then
      (serve (c.refillRequest beyond offset)).bind fun udt => c.refill offset udt
    else some c
  cached.bind fun c => c.copyOut actualsize offset

/-- A refill leaves everything but the cache as it is. -/
theorem refill_globals {c c' : Client} {offset : ℤ} {udt : Bytes}
    (h : c.refill offset udt = some c') :
    c'.fileIsOpen = c.fileIsOpen ∧ c'.fileName = c.fileName ∧ c'.fileStats = c.fileStats := by
  unfold Client.refill at h
  split at h
  · obtain ⟨received, -, rfl⟩ := Option.map_eq_some_iff.mp h
    exact ⟨rfl, rfl, rfl⟩
  · contradiction

/-- A copy out of the cache stays inside the allocated memory, returns that many bytes and changes no
global. -/
theorem copyOut_some {c : Client} {actualsize : ℕ} {offset : ℤ} {r : ReadResult}
    (h : c.copyOut actualsize offset = some r) :
    0 ≤ offset - c.cacheOffset ∧ offset - c.cacheOffset + actualsize ≤ maxCacheSize ∧
      r = ⟨toInt actualsize, offset - c.cacheOffset,
        (List.range actualsize).map fun i => c.cache ((offset - c.cacheOffset).toNat + i), c⟩ := by
  unfold Client.copyOut at h
  dsimp only at h
  split at h
  · next hinside => exact ⟨hinside.1, hinside.2, (Option.some.inj h).symm⟩
  · contradiction

/-- A read leaves everything but the cache as it is, whatever the server sends. -/
theorem udtfsRead_globals {c : Client} {beyond : Bytes} {size : ℕ} {offset : ℤ}
    {serve : Request → Option Bytes} {r : ReadResult}
    (h : udtfsRead c beyond size offset serve = some r) :
    r.client.fileIsOpen = c.fileIsOpen ∧ r.client.fileName = c.fileName ∧
      r.client.fileStats = c.fileStats := by
  unfold udtfsRead at h
  dsimp only at h
  split at h
  · rw [← Option.some.inj h]
    exact ⟨rfl, rfl, rfl⟩
  · obtain ⟨cached, hcached, hcopy⟩ := Option.bind_eq_some_iff.mp h
    obtain ⟨-, -, rfl⟩ := copyOut_some hcopy
    split at hcached
    · obtain ⟨udt, -, hrefill⟩ := Option.bind_eq_some_iff.mp hcached
      exact refill_globals hrefill
    · rw [← Option.some.inj hcached]
      exact ⟨rfl, rfl, rfl⟩

/-- What a callback returns without waiting for the server, and the request it sends. -/
structure Sent where
  ret : ℤ
  request : Request

/-- `udtfs_truncate`. -/
def udtfsTruncate (c : Client) (beyond : Bytes) (_path : Bytes) (newsize : ℤ) : Sent :=
  ⟨toInt newsize, .truncate (c.openName beyond) newsize⟩

/-- `udtfs_write`. The payload is sent up to the first zero in it or in the memory behind it. -/
def udtfsWrite (c : Client) (beyond : Bytes) (_path data dataBeyond : Bytes) (offset : ℤ) : Sent :=
  ⟨toInt data.length, .write (c.openName beyond) (data ++ dataBeyond) data.length offset⟩

/-- `udtfs_rename`. -/
def udtfsRename (path newpath : Bytes) : Sent := ⟨0, .rename path newpath⟩

/-- `udtfs_unlink`. -/
def udtfsUnlink (path : Bytes) : Sent := ⟨0, .unlink path⟩

/-- `udtfs_utimens`. -/
def udtfsUtimens (path : Bytes) : Sent := ⟨0, .utime path⟩

/-- The string that is sent for a payload: up to the first zero in it or in the memory behind. -/
def sentPayload (data dataBeyond : Bytes) : Bytes := cstr (data ++ dataBeyond)

/-- The request does not depend on the memory behind the string that is sent. -/
theorem wire_sentPayload (name data dataBeyond : Bytes) (size : ℕ) (offset : ℤ) :
    (Request.write name (data ++ dataBeyond) size offset).wire =
      (Request.write name (sentPayload data dataBeyond) size offset).wire := by
  simp only [Request.wire_eq, Request.command, Request.arguments, clientReqwrite, sentPayload,
    cstr_of_nulFree (cstr_nulFree _)]

/-- A client that has opened the file of a name. -/
def Client.opened (name : Bytes) : Client :=
  { Client.init (fun _ => 0) with fileIsOpen := true, fileName := strncpy name mMaxVal }

/-- The attributes that the client stores for those that the server sends. -/
def Stat.received (st : Stat) : Stat :=
  (Stat.assignments.zip st.values).foldl (fun st av => av.1 st (atoll (printLu av.2))) Stat.zero

/-- A size in range is stored as it is. -/
theorem received_stSize {st : Stat} (h₀ : 0 ≤ st.stSize) (h : st.stSize < 2 ^ 63) :
    st.received.stSize = st.stSize := by
  have hsize : st.received.stSize = toInt64 (atoll (printLu st.stSize)) := rfl
  rw [hsize, atoll_printLu h₀ h, toInt64_of_range (by omega) h]

/-- The attributes of an existing file arrive. -/
theorem udtfsGetattr_some (stale : ℕ → Bytes) (st : Stat) (ending : RecvEnd) :
    udtfsGetattr stale ⟨sendattrReply (some st), ending⟩ = ⟨0, st.received, ⟨[], ending⟩⟩ := by
  have hreply := clientReqattrReply_some stale Stat.zero st [] ending
  rw [List.append_nil] at hreply
  rw [udtfsGetattr, hreply]
  rfl

/-- An open succeeds when no file is open and the attributes arrive. -/
theorem udtfsOpen_some (stale : ℕ → Bytes) {c : Client} (hclosed : c.fileIsOpen = false)
    (path : Bytes) (st : Stat) (ending : RecvEnd) :
    udtfsOpen stale c path ⟨sendattrReply (some st), ending⟩ =
      (0, { c with
        fileStats := st.received
        fileName := strncpy (stripSlash path) mMaxVal
        fileIsOpen := true }) := by
  rw [udtfsOpen, hclosed, udtfsGetattr_some]
  rfl

/-- An open fails when the end marker arrives instead, but the attributes have been cleared. -/
theorem udtfsOpen_none (stale : ℕ → Bytes) {c : Client} (hclosed : c.fileIsOpen = false)
    (path : Bytes) (ending : RecvEnd) :
    udtfsOpen stale c path ⟨sendattrReply none, ending⟩ =
      (-eNoent, { c with fileStats := Stat.zero }) := by
  have hreply := clientReqattrReply_none stale Stat.zero [] ending
  rw [List.append_nil] at hreply
  have hattr : udtfsGetattr stale ⟨sendattrReply none, ending⟩ =
      ⟨-eNoent, Stat.zero, ⟨[], ending⟩⟩ := by
    rw [udtfsGetattr, hreply]
    rfl
  rw [udtfsOpen, hclosed, hattr]
  rfl

/-- The name array after an open: copied from the path on success, unchanged otherwise. -/
theorem udtfsOpen_fileName (stale : ℕ → Bytes) (c : Client) (path : Bytes) (reply : TcpStream) :
    (udtfsOpen stale c path reply).2.fileName =
      if (udtfsOpen stale c path reply).1 = 0 then strncpy (stripSlash path) mMaxVal
      else c.fileName := by
  unfold udtfsOpen
  dsimp only
  split
  · rw [if_neg (show ¬ -eIo = 0 by decide)]
  · split
    · rw [if_neg (show ¬ -eNoent = 0 by decide)]
    · rw [if_pos rfl]

/-- A name that fits is remembered with its terminator. -/
theorem openName_of_strncpy {c : Client} {name : Bytes} (hc : c.fileName = strncpy name mMaxVal)
    (hname : NulFree name) (hlen : name.length < mMaxVal) (beyond : Bytes) :
    c.openName beyond = name := by
  rw [Client.openName, hc, cstr_strncpy hname hlen]

/-- A name that fits is what the requests about the open file carry. -/
theorem openName_eq {c : Client} {p : FusePath} (hc : c.fileName = strncpy p.name mMaxVal)
    (hlen : p.name.length ≤ 126) (beyond : Bytes) : c.openName beyond = p.name :=
  openName_of_strncpy hc p.name_nulFree (hlen.trans_lt (by decide)) beyond

/-- The comparison of `udtfs_release` recognizes a remembered name that fits, and no other. -/
theorem strncmp_strncpy_iff {name : Bytes} (hname : NulFree name) (hlen : name.length < mMaxVal)
    (path : Bytes) : strncmp path (strncpy name mMaxVal) mMaxVal = true ↔ path = name := by
  have hlength : (strncpy name mMaxVal).length = mMaxVal := by
    rw [strncpy, List.length_append, List.length_take, List.length_replicate]
    omega
  have hstring : cstr (strncpy name mMaxVal) = name := by
    have h := cstr_strncpy hname hlen []
    rwa [List.append_nil] at h
  rw [strncmp, List.take_of_length_le hlength.le, hstring, beq_iff_eq]
  constructor
  · intro htake
    have hshort := congrArg List.length htake
    rw [List.length_take] at hshort
    rwa [List.take_of_length_le (by omega)] at htake
  · rintro rfl
    exact List.take_of_length_le hlen.le

/-- A string without zeros has none when its slash is gone. -/
theorem nulFree_stripSlash {path : Bytes} (h : NulFree path) : NulFree (stripSlash path) := by
  unfold stripSlash
  split
  · exact fun hmem => h (List.mem_of_mem_tail hmem)
  · exact h

namespace FusePath

/-- Stripping the leading slash leaves the name. -/
theorem stripSlash_bytes (p : FusePath) : stripSlash p.bytes = p.name := rfl

end FusePath

/-- The release of the remembered name frees the slot. -/
theorem udtfsRelease_remembered {c : Client} {p : FusePath} (hopen : c.fileIsOpen = true)
    (hname : c.fileName = strncpy p.name mMaxVal) (hlen : p.name.length < mMaxVal) :
    udtfsRelease c p.bytes = { c with fileIsOpen := false, cacheOffset := 0, cacheLen := 0 } := by
  rw [udtfsRelease, if_pos hopen, p.stripSlash_bytes, hname,
    if_pos ((strncmp_strncpy_iff p.name_nulFree hlen p.name).mpr rfl)]

/-- Another path than the remembered one does not release the slot. -/
theorem udtfsRelease_other {c : Client} {p : FusePath} (hname : c.fileName = strncpy p.name mMaxVal)
    (hlen : p.name.length < mMaxVal) {q : FusePath} (hother : q.components ≠ p.components) :
    udtfsRelease c q.bytes = c := by
  have hdiffers : ¬ strncmp q.name (strncpy p.name mMaxVal) mMaxVal = true := fun hsame =>
    hother (FusePath.components_of_name ((strncmp_strncpy_iff p.name_nulFree hlen q.name).mp hsame))
  rw [udtfsRelease, q.stripSlash_bytes, hname, if_neg hdiffers, ite_self]

end Udtfs

import Udtfs.Client

/-!
# Attributes on the wire

The server prints every attribute as an unsigned number of 64 bits, and the client reads it with a
parser for signed ones, which stops at the largest value of its type. So the upper half of the
range is lost: negative sizes and times, and link counts and device numbers with the top bit set.
-/

namespace Udtfs

open NulString

/-- The fields are values of their types. -/
structure Stat.Typed (st : Stat) : Prop where
  size : -2 ^ 63 ≤ st.stSize ∧ st.stSize < 2 ^ 63
  mode : 0 ≤ st.stMode ∧ st.stMode < 2 ^ 32
  ctime : -2 ^ 63 ≤ st.stCtime ∧ st.stCtime < 2 ^ 63
  atime : -2 ^ 63 ≤ st.stAtime ∧ st.stAtime < 2 ^ 63
  mtime : -2 ^ 63 ≤ st.stMtime ∧ st.stMtime < 2 ^ 63
  nlink : 0 ≤ st.stNlink ∧ st.stNlink < 2 ^ 64
  dev : 0 ≤ st.stDev ∧ st.stDev < 2 ^ 64
  rdev : 0 ≤ st.stRdev ∧ st.stRdev < 2 ^ 64

/-- The fields lie in the range that the types of both sides share. -/
structure Stat.Shared (st : Stat) : Prop where
  size : 0 ≤ st.stSize
  ctime : 0 ≤ st.stCtime
  atime : 0 ≤ st.stAtime
  mtime : 0 ≤ st.stMtime
  nlink : st.stNlink < 2 ^ 63
  dev : st.stDev < 2 ^ 63
  rdev : st.stRdev < 2 ^ 63

/-- Attributes arrive unchanged, a failure is reported and leaves the record as it was, and no
printed value looks like the failure marker. -/
structure AttributesArrive (stale : ℕ → Bytes) (st₀ st : Stat) (later : Bytes) (ending : RecvEnd) :
    Prop where
  success : clientReqattrReply stale st₀ ⟨sendattrReply (some st) ++ later, ending⟩ =
    ⟨0, st, ⟨later, ending⟩⟩
  failure : clientReqattrReply stale st₀ ⟨sendattrReply none ++ later, ending⟩ =
    ⟨-1, st₀, ⟨later, ending⟩⟩
  marker : ∀ x ∈ st.values,
    strncasecmp (printLu x) reservedStrTerm reservedStrTerm.length = false

/-- What the parser makes of a printed value: the upper half becomes the largest `long long`. -/
theorem atoll_printLu_eq (x : ℤ) : atoll (printLu x) = min (x % 2 ^ 64) (2 ^ 63 - 1) := by
  rw [printLu, atoll_print, toSizeT]
  omega

/-- A signed 64-bit field survives exactly if it is not negative. -/
theorem signed_survives_iff {x : ℤ} (h : -2 ^ 63 ≤ x ∧ x < 2 ^ 63) :
    toInt64 (atoll (printLu x)) = x ↔ 0 ≤ x := by
  rw [atoll_printLu_eq, toInt64_of_range (by omega) (by omega)]
  omega

/-- An unsigned 64-bit field survives exactly if its top bit is clear. -/
theorem unsigned_survives_iff {x : ℤ} (h : 0 ≤ x ∧ x < 2 ^ 64) :
    toUnsigned 64 (atoll (printLu x)) = x ↔ x < 2 ^ 63 := by
  rw [atoll_printLu_eq, toUnsigned]
  omega

/-- The mode has only 32 bits and always survives. -/
theorem mode_survives {x : ℤ} (h : 0 ≤ x ∧ x < 2 ^ 32) :
    toUnsigned 32 (atoll (printLu x)) = x := by
  rw [atoll_printLu_eq, toUnsigned]
  omega

/-- Every field of the record is overwritten. -/
theorem clientReqattrReply_received (stale : ℕ → Bytes) (st₀ st : Stat) (later : Bytes)
    (ending : RecvEnd) :
    clientReqattrReply stale st₀ ⟨sendattrReply (some st) ++ later, ending⟩ =
      ⟨0, st.received, ⟨later, ending⟩⟩ :=
  clientReqattrReply_some stale st₀ st later ending

/-- The attributes that the client stores are those of the server exactly if they lie in the shared
range. -/
theorem received_eq_iff {st : Stat} (h : st.Typed) : st.received = st ↔ st.Shared := by
  obtain ⟨size, mode, ctime, atime, mtime, nlink, dev, rdev⟩ := st
  have hreceived : (⟨size, mode, ctime, atime, mtime, nlink, dev, rdev⟩ : Stat).received =
      ⟨toInt64 (atoll (printLu size)), toUnsigned 32 (atoll (printLu mode)),
        toInt64 (atoll (printLu ctime)), toInt64 (atoll (printLu atime)),
        toInt64 (atoll (printLu mtime)), toUnsigned 64 (atoll (printLu nlink)),
        toUnsigned 64 (atoll (printLu dev)), toUnsigned 64 (atoll (printLu rdev))⟩ := rfl
  rw [hreceived, Stat.mk.injEq, signed_survives_iff h.size, signed_survives_iff h.ctime,
    signed_survives_iff h.atime, signed_survives_iff h.mtime, unsigned_survives_iff h.nlink,
    unsigned_survives_iff h.dev, unsigned_survives_iff h.rdev]
  constructor
  · rintro ⟨hsize, -, hctime, hatime, hmtime, hnlink, hdev, hrdev⟩
    exact ⟨hsize, hctime, hatime, hmtime, hnlink, hdev, hrdev⟩
  · intro hshared
    exact ⟨hshared.size, mode_survives h.mode, hshared.ctime, hshared.atime, hshared.mtime,
      hshared.nlink, hshared.dev, hshared.rdev⟩

/-- Attributes make the round trip exactly if no size or time is negative and no link count or
device number has its top bit set. -/
theorem attributesArrive_iff (stale : ℕ → Bytes) (st₀ : Stat) {st : Stat} (h : st.Typed)
    (later : Bytes) (ending : RecvEnd) :
    AttributesArrive stale st₀ st later ending ↔ st.Shared := by
  have hreply := clientReqattrReply_received stale st₀ st later ending
  rw [← received_eq_iff h]
  constructor
  · intro harrive
    exact congrArg RecvAttr.stat (hreply.symm.trans harrive.success)
  · intro hreceived
    rw [hreceived] at hreply
    exact ⟨hreply, clientReqattrReply_none stale st₀ later ending,
      fun x _ => strncasecmp_printLu x⟩

/-- The attributes of an ordinary file arrive. -/
theorem attributesArrive_file :
    AttributesArrive (fun _ => []) Stat.zero ⟨5, 33188, 1000, 2000, 3000, 1, 2049, 0⟩ [] .closed := by
  have htyped : (⟨5, 33188, 1000, 2000, 3000, 1, 2049, 0⟩ : Stat).Typed :=
    ⟨by decide, by decide, by decide, by decide, by decide, by decide, by decide, by decide⟩
  exact (attributesArrive_iff (fun _ => []) Stat.zero htyped [] .closed).mpr
    ⟨by decide, by decide, by decide, by decide, by decide, by decide, by decide⟩

/-- A file last modified before 1970 seems to be from the far future. -/
theorem old_mtime_lost :
    ¬ ∀ st : Stat, st.Typed → AttributesArrive (fun _ => []) Stat.zero st [] .closed := by
  intro h
  have htyped : (⟨0, 0, 0, 0, -1, 0, 0, 0⟩ : Stat).Typed :=
    ⟨by decide, by decide, by decide, by decide, by decide, by decide, by decide, by decide⟩
  have hreply := clientReqattrReply_received (fun _ => []) Stat.zero ⟨0, 0, 0, 0, -1, 0, 0, 0⟩ []
    .closed
  have hreceived := congrArg RecvAttr.stat (hreply.symm.trans (h _ htyped).success)
  exact absurd ((received_eq_iff htyped).mp hreceived).mtime (by decide)

end Udtfs

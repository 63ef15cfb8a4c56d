import Udtfs.Replies

/-!
# Directory listings

The end of a listing is marked by a reserved string among the entries themselves, recognized up to
case and by its first eight bytes. A listing therefore arrives whole exactly if no listed name
looks like the marker; otherwise it ends there, and what follows on the stream is taken for the
next reply.
-/

namespace Udtfs

open NulString

/-- The name of a directory entry. -/
structure EntryName where
  bytes : Bytes
  nonempty : bytes ≠ []
  short : bytes.length ≤ 255
  nulFree : NulFree bytes
  noSlash : 47 ∉ bytes
  deriving DecidableEq

/-- The entries other than the directory itself and its parent. -/
def listed (entries : List EntryName) : List EntryName :=
  entries.filter fun name => name.bytes ≠ ascii ".." ∧ name.bytes ≠ ascii "."

/-- A name that the client takes for the end of the listing. -/
def EntryName.LooksReserved (name : EntryName) : Prop :=
  strncasecmp name.bytes reservedStrTerm reservedStrTerm.length = true

instance (name : EntryName) : Decidable name.LooksReserved :=
  inferInstanceAs (Decidable (_ = true))

/-- A listing on the stream: the listed names, each with its terminator, and the end marker. -/
theorem senddirReply_some (entries : List EntryName) :
    senddirReply (some (entries.map EntryName.bytes)) =
      frames ((listed entries).map EntryName.bytes ++ [reservedStrTerm]) := by
  rw [senddirReply, List.filter_map]
  rfl

section
variable (stale : ℕ → Bytes) (ending : RecvEnd)

/-- A name arrives as an entry unless it looks like the end marker. -/
theorem clientRecvdirentry_frame {s : Bytes} (hs : NulFree s)
    (hlen : s.length < mMaxPath + mMaxFile - 1) (rest : Bytes) :
    clientRecvdirentry stale ⟨s ++ 0 :: rest, ending⟩ =
      (if strncasecmp s reservedStrTerm reservedStrTerm.length then none else some s,
        ⟨rest, ending⟩) := by
  have hret : ¬ ((s.length + 1 : ℕ) : ℤ) < 1 := by omega
  rw [clientRecvdirentry, recvStr_frame hs rest ending hlen]
  simp only [hret, if_false, string_frame hs]
  split <;> rfl

/-- The loop stops behind a string that looks like the end marker. -/
theorem readdirLoop_stop {s : Bytes} (hs : NulFree s) (hlen : s.length < mMaxPath + mMaxFile - 1)
    (hterm : strncasecmp s reservedStrTerm reservedStrTerm.length = true) (rest : Bytes) :
    readdirLoop stale ⟨s ++ 0 :: rest, ending⟩ = ([], ⟨rest, ending⟩) := by
  have h := clientRecvdirentry_frame stale ending hs hlen rest
  rw [if_pos hterm] at h
  rw [readdirLoop]
  split
  · next heq =>
    rw [h] at heq
    rw [(Prod.mk.inj heq).2]
  · next heq =>
    rw [h] at heq
    simp at heq

/-- The loop takes every other string as an entry. -/
theorem readdirLoop_entry {s : Bytes} (hs : NulFree s) (hlen : s.length < mMaxPath + mMaxFile - 1)
    (hterm : strncasecmp s reservedStrTerm reservedStrTerm.length = false) (rest : Bytes) :
    readdirLoop stale ⟨s ++ 0 :: rest, ending⟩ =
      (s :: (readdirLoop stale ⟨rest, ending⟩).1, (readdirLoop stale ⟨rest, ending⟩).2) := by
  have h := clientRecvdirentry_frame stale ending hs hlen rest
  rw [hterm, if_neg (by decide)] at h
  rw [readdirLoop]
  split
  · next heq =>
    rw [h] at heq
    simp at heq
  · next heq =>
    rw [h] at heq
    obtain ⟨hentry, rfl⟩ := Prod.mk.inj heq
    obtain rfl := Option.some.inj hentry
    rfl

/-- The client takes the names up to the first that looks reserved, and leaves everything behind
that name on the stream. -/
theorem readdirLoop_frames (names : List EntryName) (later : Bytes) :
    readdirLoop stale ⟨frames (names.map EntryName.bytes ++ [reservedStrTerm]) ++ later, ending⟩ =
      ((names.takeWhile fun name => ¬ name.LooksReserved).map EntryName.bytes,
        ⟨frames ((names.map EntryName.bytes ++ [reservedStrTerm]).drop
          ((names.takeWhile fun name => ¬ name.LooksReserved).length + 1)) ++ later, ending⟩) := by
  induction names with
  | nil =>
    rw [List.map_nil, List.nil_append, frames_cons, List.append_assoc, List.cons_append,
      readdirLoop_stop stale ending (by decide) (by decide) (by decide)]
    rfl
  | cons name names ih =>
    have hlen : name.bytes.length < mMaxPath + mMaxFile - 1 := name.short.trans_lt (by decide)
    rw [List.map_cons, List.cons_append, frames_cons, List.append_assoc, List.cons_append]
    by_cases hreserved : name.LooksReserved
    · rw [readdirLoop_stop stale ending name.nulFree hlen hreserved, List.takeWhile_cons,
        if_neg (by simpa using hreserved)]
      rfl
    · have hentry : strncasecmp name.bytes reservedStrTerm reservedStrTerm.length = false := by
        simpa [EntryName.LooksReserved] using hreserved
      rw [readdirLoop_entry stale ending name.nulFree hlen hentry,
        ih, List.takeWhile_cons, if_pos (by simpa using hreserved)]
      rfl

/-- A listing arrives whole, and the stream stands at the next reply, exactly if no listed name
begins with the end marker up to case. -/
theorem listing_iff (entries : List EntryName) (later : Bytes) :
    readdirLoop stale ⟨senddirReply (some (entries.map EntryName.bytes)) ++ later, ending⟩ =
        ((listed entries).map EntryName.bytes, ⟨later, ending⟩) ↔
      ∀ name ∈ listed entries, ¬ name.LooksReserved := by
  rw [senddirReply_some, readdirLoop_frames]
  constructor
  · intro h
    have hnames := congrArg List.length (Prod.mk.inj h).1
    rw [List.length_map, List.length_map] at hnames
    have hall : (listed entries).takeWhile (fun name => ¬ name.LooksReserved) = listed entries :=
      (List.takeWhile_prefix _).eq_of_length hnames
    intro name hname
    simpa using List.takeWhile_eq_self_iff.mp hall name hname
  · intro h
    have hall : (listed entries).takeWhile (fun name => ¬ name.LooksReserved) = listed entries :=
      List.takeWhile_eq_self_iff.mpr fun name hname => by simpa using h name hname
    rw [hall, List.drop_eq_nil_of_le (by simp), frames_nil, List.nil_append]

end

/-- A file that a user named like the end marker in lower case. -/
def markerLikeName : EntryName where
  bytes := ascii "--term--x"
  nonempty := by decide
  short := by decide
  nulFree := by decide
  noSlash := by decide

/-- The listing of a directory with that file stops before it, and the marker stays on the
stream. -/
theorem listing_cut :
    ¬ ∀ (stale : ℕ → Bytes) (entries : List EntryName),
      readdirLoop stale ⟨senddirReply (some (entries.map EntryName.bytes)), .closed⟩ =
        ((listed entries).map EntryName.bytes, ⟨[], .closed⟩) := by
  intro h
  have hwhole := h (fun _ => []) [markerLikeName]
  rw [senddirReply_some, ← List.append_nil (frames _), readdirLoop_frames] at hwhole
  have hnames := (Prod.mk.inj hwhole).1
  revert hnames
  decide

end Udtfs

import Udtfs.Client
import Udtfs.Listing

/-!
# Replies that are cut off

When the connection ends inside a reply, the client goes on as if the rest had been received: the
missing attributes stay as they are, and a listing ends where the stream does. The only error that
is noticed is the failure marker, which is compared with the receive buffer whatever the receive
returned, old memory behind the received bytes included.
-/

namespace Udtfs

open NulString

/-- `udtfs_readdir` on the reply that arrives: the return value and the entries that are filled
in. -/
def udtfsReaddir (stale : ℕ → Bytes) (reply : TcpStream) : ℤ × List Bytes :=
  (0, (readdirLoop stale reply).1)

/-- A reply of the server on the TCP stream. -/
inductive Reply where
  | attributes (st : Option Stat)
  | listing (entries : Option (List EntryName))

/-- The bytes of a reply. -/
def Reply.bytes : Reply → Bytes
  | .attributes st => sendattrReply st
  | .listing entries => senddirReply (entries.map (List.map EntryName.bytes))

/-- What the callback that waits for a reply returns when this stream arrives. -/
def Reply.returned (stale : ℕ → Bytes) (s : TcpStream) : Reply → ℤ
  | .attributes _ => (udtfsGetattr stale s).ret
  | .listing _ => (udtfsReaddir stale s).1

/-- A beginning of the failure marker that the memory behind it continues up to case. -/
def LooksFailed (cut memory : Bytes) : Prop :=
  cut ≠ [] ∧ strncasecmp memory (reservedStrTerm.drop cut.length)
    (reservedStrTerm.drop cut.length).length = true

/-- The reply is the failure marker, and enough of it seems to have arrived. -/
def Reply.Noticed (cut memory : Bytes) : Reply → Prop
  | .attributes none => LooksFailed cut memory
  | .attributes (some _) | .listing _ => False

section
variable (stale : ℕ → Bytes) (ending : RecvEnd)

/-- `udtfs_getattr` reports an error exactly if the first string looks like the failure marker. -/
theorem udtfsGetattr_ret (s : TcpStream) :
    (udtfsGetattr stale s).ret < 0 ↔
      strncasecmp ((recvStr s (mMaxVal - 1)).string
        (stale (recvStr s (mMaxVal - 1)).rest.bytes.length)) reservedStrTerm
        reservedStrTerm.length = true := by
  rw [udtfsGetattr, clientReqattrReply]
  split
  · next hfailed => simp [hfailed, eNoent]
  · next hnot => simp [hnot, Stat.assignments]

/-- What is in the buffer after a string was cut off. -/
theorem string_cut {s : Bytes} (hs : NulFree s) (hlen : s.length < mMaxVal - 1) :
    (recvStr ⟨s, ending⟩ (mMaxVal - 1)).string
        (stale (recvStr ⟨s, ending⟩ (mMaxVal - 1)).rest.bytes.length) =
      if s = [] then [] else s ++ cstr (stale 0) := by
  rw [recvStr_cut hs ending hlen, RecvStr.string]
  split
  · rfl
  · exact cstr_append_of_nulFree hs _

/-- No part of the attributes looks like the failure marker. -/
theorem returned_attributes_some (st : Stat) {cut : Bytes} (hcut : cut <+: sendattrReply (some st)) :
    ¬ (udtfsGetattr stale ⟨cut, ending⟩).ret < 0 := by
  rw [udtfsGetattr_ret, Bool.not_eq_true]
  rw [sendattrReply, Stat.values, List.map_cons, frames_cons] at hcut
  rcases prefix_frame hcut with hfirst | ⟨later, -, rfl⟩
  · have hfree := (printLu_nulFree st.stSize).of_isPrefix hfirst
    have hlen := hfirst.length_le.trans_lt (printLu_short st.stSize)
    rw [string_cut stale ending hfree hlen]
    cases cut with
    | nil =>
      rw [if_pos rfl]
      decide
    | cons b cut =>
      have hdigit : Decimal.IsDigit b :=
        Decimal.print_isDigit _ b (hfirst.subset List.mem_cons_self)
      rw [if_neg (List.cons_ne_nil b cut), List.cons_append, strncasecmp_digit hdigit]
  · rw [recvStr_frame (printLu_nulFree _) _ _ (printLu_short _),
      string_frame (printLu_nulFree _), strncasecmp_printLu]

/-- A part of the failure marker is recognized if the memory behind it continues the marker. -/
theorem returned_attributes_none {cut : Bytes} (hcut : cut <+: sendattrReply none)
    (hproper : cut ≠ sendattrReply none) :
    (udtfsGetattr stale ⟨cut, ending⟩).ret < 0 ↔ LooksFailed cut (stale 0) := by
  have hterm : NulFree reservedStrTerm := by decide
  rw [sendattrReply, frames_cons, frames_nil] at hcut hproper
  have hfirst : cut <+: reservedStrTerm := by
    rcases prefix_frame hcut with hfirst | ⟨later, hlater, rfl⟩
    · exact hfirst
    · rw [List.prefix_nil.mp hlater] at hproper
      exact absurd rfl hproper
  have hfree := hterm.of_isPrefix hfirst
  have hlen : cut.length < mMaxVal - 1 := hfirst.length_le.trans_lt (by decide)
  obtain ⟨missing, hmissing⟩ := hfirst
  have hdrop : reservedStrTerm.drop cut.length = missing := by rw [← hmissing, List.drop_left]
  have hmissingFree : NulFree missing := hdrop ▸ hterm.drop cut.length
  rw [udtfsGetattr_ret, string_cut stale ending hfree hlen, LooksFailed, hdrop]
  split
  · next hnil =>
    apply iff_of_false
    · decide
    · exact fun h => h.1 hnil
  · next hne =>
    have hlength : reservedStrTerm.length = cut.length + missing.length := by
      rw [← hmissing, List.length_append]
    rw [and_iff_right hne, hlength, ← hmissing, strncasecmp_append, strncasecmp_cstr hmissingFree]

/-- When the stream ends inside a reply, the callback reports an error exactly if the reply is the
failure marker, some of it has arrived, and the old memory in the receive buffer continues it. -/
theorem cutReply_noticed_iff (reply : Reply) {cut : Bytes} (hcut : cut <+: reply.bytes)
    (hproper : cut ≠ reply.bytes) :
    reply.returned stale ⟨cut, ending⟩ < 0 ↔ reply.Noticed cut (stale 0) := by
  cases reply with
  | attributes st =>
    cases st with
    | none => exact returned_attributes_none stale ending hcut hproper
    | some st => exact iff_of_false (returned_attributes_some stale ending st hcut) id
  | listing entries => exact iff_of_false (lt_irrefl 0) id

end

/-- Without its terminator the failure marker is still recognized. -/
theorem cutReply_noticed_marker :
    (Reply.attributes none).returned (fun _ => []) ⟨reservedStrTerm, .closed⟩ < 0 :=
  (cutReply_noticed_iff (fun _ => []) .closed (.attributes none)
    ⟨[0], rfl⟩ (by decide)).mpr ⟨by decide, by decide⟩

/-- A listing of which nothing arrives is taken for that of an empty directory. -/
theorem cut_listing_unnoticed :
    ¬ ∀ (stale : ℕ → Bytes) (ending : RecvEnd) (reply : Reply) (cut : Bytes), cut <+: reply.bytes →
      cut ≠ reply.bytes → reply.returned stale ⟨cut, ending⟩ < 0 := by
  intro h
  exact lt_irrefl 0 (h (fun _ => []) .closed (.listing none) [] List.nil_prefix (by decide))

end Udtfs

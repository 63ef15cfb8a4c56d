import Udtfs.CachedRead
import Udtfs.OpenSlot
import Udtfs.ReturnValues

/-!
# Long paths

A path of up to 638 bytes arrives whole with a `getattr` or a `dir` request. All other requests are
received into 128-byte buffers, and the name of the open file is kept in an array of 128 bytes. No
callback refuses a path that is too long for these, so the server receives a part of it and takes the
remainder for the next argument or the next command.
-/

namespace Udtfs

open NulString

/-- The stream behind one argument. -/
def Command.skip (c : Command) (s : TcpStream) : TcpStream := (recvStr s c.limit).rest

section
variable (stale : ℕ → Bytes) (ending : RecvEnd) (later : Bytes)

/-- A path travels whole as an argument of a request: the handler acts on exactly this path, and what
follows the path on the stream is the next argument from its first byte on. -/
structure Request.Carries (r : Request) (position : ℕ) (path : Bytes) : Prop where
  handled : ∃ q rest, handleCommand stale ⟨r.wire ++ later, ending⟩ = some (.handled q, rest) ∧
    q.command = r.command ∧ q.paths[position]? = some path
  next : r.command.skip^[position + 1] ⟨frames r.arguments ++ later, ending⟩ =
    ⟨frames (r.arguments.drop (position + 1)) ++ later, ending⟩

/-- The next arguments are received from their first bytes on exactly if the ones before them fit. -/
theorem skip_iterate_iff {strings : List Bytes} (h : ∀ s ∈ strings, NulFree s) {k : ℕ}
    (hk : k ≤ strings.length) :
    skip^[k] ⟨frames strings ++ later, ending⟩ = ⟨frames (strings.drop k) ++ later, ending⟩ ↔
      ∀ s ∈ strings.take k, s.length < 127 := by
  have hfree : ∀ s ∈ strings.take k, NulFree s := fun s hs => h s (List.mem_of_mem_take hs)
  have hfirst := skip_frames_iff ending hfree (frames (strings.drop k) ++ later)
  rwa [List.length_take_of_le hk, ← List.append_assoc, ← frames_append, List.take_append_drop]
    at hfirst

/-- Requests for one command have the same number of paths. -/
theorem Request.length_paths {q r : Request} (h : q.command = r.command) :
    q.paths.length = r.paths.length := by
  cases q <;> cases r <;> first | rfl | contradiction

/-- The small buffers all skip alike. -/
theorem Command.skip_eq {c : Command} (hlimit : c.limit = mMaxVal - 1) : c.skip = Udtfs.skip := by
  funext s
  rw [Command.skip, hlimit]
  rfl

/-- A path travels whole to a handler with small buffers exactly if it is among the arguments and fits, and
so do the arguments before it. -/
theorem Request.carries_iff {r : Request} (hlimit : r.command.limit = mMaxVal - 1)
    {position : ℕ} (hposition : position < r.paths.length) (path : Bytes) :
    r.Carries stale ending later position path ↔
      (∀ s ∈ r.arguments.take (position + 1), s.length < 127) ∧ r.arguments[position]? = some path := by
  obtain ⟨hframed, hlength⟩ := r.arguments_framed
  have hpaths : r.paths.length ≤ r.arguments.length := by
    rw [hlength]
    cases r <;> simp [Request.paths, Command.receives, Request.command]
  have hnext := skip_iterate_iff ending later hframed (show position + 1 ≤ _ by omega)
  obtain ⟨q, rest, hpass, hcommand, hq⟩ := r.handle_paths stale ending later hlimit
  have hargument (hfits : ∀ s ∈ r.arguments.take (position + 1), s.length < 127) :
      q.paths[position]? = r.arguments[position]? := by
    have hlt : position < r.arguments.length := by omega
    have hskip := (skip_iterate_iff ending later hframed hlt.le).mpr
      fun s hs => hfits s (List.take_subset_take_left _ (Nat.le_succ position) hs)
    have hfit : r.arguments[position].length < 127 := by
      apply hfits
      rw [List.take_succ_eq_append_getElem hlt]
      exact List.mem_append_right _ List.mem_cons_self
    rw [hq position (by rw [Request.length_paths hcommand]; exact hposition), hskip,
      List.drop_eq_getElem_cons hlt, frames_cons, List.append_assoc, List.cons_append,
      argument_frame stale ending (hframed _ (List.getElem_mem hlt)) hfit, List.getElem?_eq_getElem hlt]
  constructor
  · rintro ⟨⟨q', rest', hpass', -, hpath⟩, hrest⟩
    rw [Command.skip_eq hlimit] at hrest
    have hfits := hnext.mp hrest
    rw [hpass] at hpass'
    obtain ⟨hhandled, -⟩ := Prod.mk.inj (Option.some.inj hpass')
    rw [← Served.handled.inj hhandled, hargument hfits] at hpath
    exact ⟨hfits, hpath⟩
  · rintro ⟨hfits, hpath⟩
    refine ⟨⟨q, rest, hpass, hcommand, (hargument hfits).trans hpath⟩, ?_⟩
    rw [Command.skip_eq hlimit]
    exact hnext.mpr hfits

/-- A long path does not travel whole to a handler with small buffers. -/
theorem Request.not_carries_long {r : Request} (hlimit : r.command.limit = mMaxVal - 1)
    {position : ℕ} (hposition : position < r.paths.length) {path : Bytes} (hlong : 126 < path.length) :
    ¬ r.Carries stale ending later position path := by
  rw [r.carries_iff stale ending later hlimit hposition]
  rintro ⟨hfits, hpath⟩
  have hshort : path.length < 127 := by
    apply hfits
    rw [List.take_add_one, hpath]
    exact List.mem_append_right _ List.mem_cons_self
  omega

/-- The first argument of a request for a handler with small buffers travels whole exactly if it fits. -/
theorem Request.carries_first_iff {r : Request} (hlimit : r.command.limit = mMaxVal - 1) {name : Bytes}
    (hname : r.arguments.head? = some name) (path : Bytes) :
    r.Carries stale ending later 0 path ↔ name = path ∧ path.length ≤ 126 := by
  have hposition : 0 < r.paths.length := by cases r <;> simp [Request.paths]
  obtain ⟨others, harguments⟩ := List.head?_eq_some_iff.mp hname
  rw [r.carries_iff stale ending later hlimit hposition, harguments, List.take_succ_cons,
    List.take_zero, List.forall_mem_singleton, List.getElem?_cons_zero, Option.some.injEq]
  constructor
  · rintro ⟨hfits, rfl⟩
    exact ⟨rfl, by omega⟩
  · rintro ⟨rfl, hfits⟩
    exact ⟨by omega, rfl⟩

/-- A path of at most 638 bytes travels whole with a `getattr` request. -/
theorem Request.carries_getattr {path : Bytes} (hpath : NulFree path) (hlen : path.length ≤ 638) :
    (Request.getattr path).Carries stale ending later 0 path := by
  have hcarried : (Request.getattr path).Carried := ⟨hpath, hlen⟩
  refine ⟨⟨_, _, hcarried.handle stale later ending, rfl, rfl⟩, ?_⟩
  have hframe := recvStr_frame hpath later ending (length_lt_path hlen)
  rw [Request.arguments, clientReqattr, cstr_of_nulFree hpath, frames_cons, frames_nil,
    List.append_assoc, List.cons_append]
  exact congrArg RecvStr.rest hframe

end

/-- The calls of the callbacks about a path, with the state and the other arguments they use. An open
comes with the reply to its `getattr` request. -/
inductive PathCall where
  /-- `udtfs_open` and `udtfs_read`. -/
  | read (c : Client) (reply : TcpStream) (size : ℕ) (offset : ℤ)
  /-- `udtfs_open` and `udtfs_write`. -/
  | write (c : Client) (reply : TcpStream) (data dataBeyond : Bytes) (offset : ℤ)
  | truncate (c : Client) (newsize : ℤ)
  | renameFrom (newpath : Bytes)
  | renameTo (oldpath : Bytes)
  | unlink
  | utimens

/-- A request with the place of the path among its arguments and the path as the callback names it. -/
structure PathRequest where
  request : Request
  position : ℕ
  path : Bytes

section
variable (stale : ℕ → Bytes) (beyond : Bytes)

/-- The request of `udtfs_open`. It sends none when a file is open. -/
def openRequests (c : Client) (path : Bytes) : List PathRequest :=
  if c.fileIsOpen then [] else [⟨.getattr (stripSlash path), 0, stripSlash path⟩]

/-- The requests that the callbacks send. Those about a file to be opened name it without the slash. -/
def PathCall.requests (path : Bytes) : PathCall → List PathRequest
  | .read c reply size offset =>
    let opened := udtfsOpen stale c path reply
    openRequests c path ++
      if opened.1 = 0 ∧ opened.2.Refills size offset then
        [⟨opened.2.refillRequest beyond offset, 0, stripSlash path⟩]
      else []
  | .write c reply data dataBeyond offset =>
    let opened := udtfsOpen stale c path reply
    openRequests c path ++
      if opened.1 = 0 then
        [⟨(udtfsWrite opened.2 beyond path data dataBeyond offset).request, 0, stripSlash path⟩]
      else []
  | .truncate c newsize => [⟨(udtfsTruncate c beyond path newsize).request, 0, stripSlash path⟩]
  | .renameFrom newpath => [⟨(udtfsRename path newpath).request, 0, path⟩]
  | .renameTo oldpath => [⟨(udtfsRename oldpath path).request, 1, path⟩]
  | .unlink => [⟨(udtfsUnlink path).request, 0, path⟩]
  | .utimens => [⟨(udtfsUtimens path).request, 0, path⟩]

/-- Whatever the server's memory holds and whatever follows on the stream, every request that is sent
carries the path whole. -/
def PathCall.CarriesWhole (path : Bytes) (call : PathCall) : Prop :=
  ∀ sent ∈ call.requests stale beyond path, ∀ (serverStale : ℕ → Bytes) (ending : RecvEnd)
    (later : Bytes), sent.request.Carries serverStale ending later sent.position sent.path

/-- An open succeeds. -/
def Client.Opens (c : Client) (reply : TcpStream) : Prop :=
  c.fileIsOpen = false ∧ (udtfsGetattr stale reply).ret = 0

/-- The name of the file fits the small buffers. -/
def PathCall.Fits (path : Bytes) : PathCall → Prop
  | .read c reply size offset =>
    c.Opens stale reply → (udtfsOpen stale c path reply).2.Refills size offset →
      (stripSlash path).length ≤ 126
  | .write c reply _ _ _ => c.Opens stale reply → (stripSlash path).length ≤ 126
  | .truncate c _ => c.openName beyond = stripSlash path ∧ (stripSlash path).length ≤ 126
  | .renameFrom _ | .renameTo _ | .unlink | .utimens => False

variable {stale} in
/-- An open returns zero exactly if it succeeds. -/
theorem udtfsOpen_eq_zero_iff {c : Client} {path : Bytes} {reply : TcpStream} :
    (udtfsOpen stale c path reply).1 = 0 ↔ c.Opens stale reply := by
  rw [Client.Opens, udtfsOpen]
  cases c.fileIsOpen with
  | true => exact iff_of_false (show ¬ -eIo = 0 by decide) (by simp)
  | false =>
    dsimp only
    rw [if_neg (by decide)]
    by_cases hret : (udtfsGetattr stale reply).ret = 0
    · simp [hret]
    · simp [hret, eNoent]

/-- The name of the open file as it is sent. -/
theorem cstr_openName (c : Client) : cstr (c.openName beyond) = c.openName beyond :=
  cstr_of_nulFree (cstr_nulFree _)

variable {stale} in
/-- The request of an open carries every path of at most 638 bytes. -/
theorem openRequests_carries {c : Client} {path : Bytes} (hpath : NulFree path)
    (hlen : path.length ≤ 638) {sent : PathRequest} (hsent : sent ∈ openRequests c path)
    (ending : RecvEnd) (later : Bytes) :
    sent.request.Carries stale ending later sent.position sent.path := by
  have hstrip : (stripSlash path).length ≤ 638 := by
    unfold stripSlash
    split
    · rw [List.length_tail]
      omega
    · exact hlen
  unfold openRequests at hsent
  split at hsent
  · exact absurd hsent List.not_mem_nil
  · rw [List.mem_singleton.mp hsent]
    exact Request.carries_getattr stale ending later (nulFree_stripSlash hpath) hstrip

/-- After an open the name of the file travels whole exactly if it fits. -/
theorem carries_opened_iff {c : Client} {path : Bytes} (hpath : NulFree path)
    (hname : c.fileName = strncpy (stripSlash path) mMaxVal) {r : Request}
    (hlimit : r.command.limit = mMaxVal - 1) (hfirst : r.arguments.head? = some (c.openName beyond))
    (serverStale : ℕ → Bytes)
    (ending : RecvEnd) (later : Bytes) :
    r.Carries serverStale ending later 0 (stripSlash path) ↔ (stripSlash path).length ≤ 126 := by
  rw [Request.carries_first_iff serverStale ending later hlimit hfirst, and_iff_right_iff_imp]
  exact fun hlen => openName_of_strncpy hname (nulFree_stripSlash hpath) (hlen.trans_lt (by decide)) beyond

/-- **Long paths.** A NUL-free path of more than 126 and at most 638 bytes is carried whole by every request
of a callback exactly if the callback is about the open file and the name of that file, the path without
its slash, is not longer than 126 bytes. -/
theorem longPath_carried_iff {path : Bytes} (hpath : NulFree path) (hlong : 126 < path.length)
    (hshort : path.length ≤ 638) (call : PathCall) :
    call.CarriesWhole stale beyond path ↔ call.Fits stale beyond path := by
  have hsingle (r : Request) (position : ℕ) (name : Bytes) :
      (∀ sent ∈ [(⟨r, position, name⟩ : PathRequest)], ∀ serverStale ending later,
        sent.request.Carries serverStale ending later sent.position sent.path) ↔
      ∀ serverStale ending later, r.Carries serverStale ending later position name :=
    List.forall_mem_singleton
  have halways {r : Request} {position : ℕ} {name : Bytes} {fits : Prop}
      (h : ∀ serverStale ending later, r.Carries serverStale ending later position name ↔ fits) :
      (∀ serverStale ending later, r.Carries serverStale ending later position name) ↔ fits :=
    ⟨fun hall => (h _ _ _).mp (hall (fun _ => []) .closed []),
      fun hfits serverStale ending later => (h serverStale ending later).mpr hfits⟩
  have hlongName {r : Request} (hlimit : r.command.limit = mMaxVal - 1)
      {position : ℕ} (hposition : position < r.paths.length) :
      (∀ serverStale ending later, r.Carries serverStale ending later position path) ↔ False :=
    halways fun serverStale ending later =>
      iff_false_intro (r.not_carries_long serverStale ending later hlimit hposition hlong)
  have hopen {c : Client} : ∀ sent ∈ openRequests c path, ∀ serverStale ending later,
      sent.request.Carries serverStale ending later sent.position sent.path :=
    fun _ hsent _ ending later => openRequests_carries hpath hshort hsent ending later
  have hopened {c : Client} (hname : c.fileName = strncpy (stripSlash path) mMaxVal) {r : Request}
      (hlimit : r.command.limit = mMaxVal - 1)
      (hfirst : r.arguments.head? = some (c.openName beyond)) :
      (∀ serverStale ending later, r.Carries serverStale ending later 0 (stripSlash path)) ↔
        (stripSlash path).length ≤ 126 :=
    halways (carries_opened_iff beyond hpath hname hlimit hfirst)
  cases call with
  | renameFrom newpath =>
    exact (hsingle _ _ _).trans (hlongName rfl (Nat.zero_lt_succ 1))
  | renameTo oldpath => exact (hsingle _ _ _).trans (hlongName rfl (Nat.lt_succ_self 1))
  | unlink => exact (hsingle _ _ _).trans (hlongName rfl (Nat.lt_succ_self 0))
  | utimens => exact (hsingle _ _ _).trans (hlongName rfl (Nat.lt_succ_self 0))
  | truncate c newsize =>
    have hname : (Request.truncate (c.openName beyond) newsize).arguments.head? =
        some (c.openName beyond) := congrArg some (cstr_openName beyond c)
    exact (hsingle _ _ _).trans (halways fun serverStale ending later =>
      Request.carries_first_iff serverStale ending later rfl hname (stripSlash path))
  | read c reply size offset =>
    rw [PathCall.CarriesWhole, PathCall.requests, List.forall_mem_append, and_iff_right hopen]
    by_cases hsends : (udtfsOpen stale c path reply).1 = 0 ∧
        (udtfsOpen stale c path reply).2.Refills size offset
    · rw [if_pos hsends, hsingle]
      refine (hopened (udtfsOpen_success stale hsends.1).1 rfl ?_).trans ?_
      · exact congrArg some (cstr_openName beyond _)
      · exact ⟨fun h _ _ => h, fun h => h (udtfsOpen_eq_zero_iff.mp hsends.1) hsends.2⟩
    · rw [if_neg hsends]
      exact iff_of_true (fun _ h => absurd h List.not_mem_nil)
        fun hopens hrefills => absurd ⟨udtfsOpen_eq_zero_iff.mpr hopens, hrefills⟩ hsends
  | write c reply data dataBeyond offset =>
    rw [PathCall.CarriesWhole, PathCall.requests, List.forall_mem_append, and_iff_right hopen]
    by_cases hsends : (udtfsOpen stale c path reply).1 = 0
    · rw [if_pos hsends, hsingle]
      refine (hopened (udtfsOpen_success stale hsends).1 rfl ?_).trans ?_
      · exact congrArg some (cstr_openName beyond _)
      · exact ⟨fun h _ => h, fun h => h (udtfsOpen_eq_zero_iff.mp hsends)⟩
    · rw [if_neg hsends]
      exact iff_of_true (fun _ h => absurd h List.not_mem_nil)
        fun hopens => absurd (udtfsOpen_eq_zero_iff.mpr hopens) hsends

end

/-- The path of a file with a name of 126 bytes in the shared directory. -/
def path127 : Bytes := 47 :: List.replicate 126 97

/-- It has no zero in it. -/
theorem path127_nulFree : NulFree path127 :=
  (nulFree_cons 47 _).mpr ⟨by decide, fun h => absurd (List.eq_of_mem_replicate h) (by decide)⟩

/-- A write to this file is carried whole. -/
theorem write_path127_carried :
    (udtfsOpen (fun _ => []) (Client.init fun _ => 0) path127
        ⟨sendattrReply (some Stat.zero), .closed⟩).1 = 0 ∧
      (PathCall.write (Client.init fun _ => 0) ⟨sendattrReply (some Stat.zero), .closed⟩ (ascii "x") []
        0).CarriesWhole (fun _ => []) [] path127 := by
  constructor
  · rw [udtfsOpen_some (fun _ => []) rfl]
  · exact (longPath_carried_iff (fun _ => []) [] path127_nulFree (by simp [path127])
      (by simp [path127]) _).mpr fun _ => by simp [stripSlash, path127]

/-- An unlink of it is not. -/
theorem unlink_path127_not_carried :
    ¬ ∀ (call : PathCall) (path : Bytes), NulFree path → 126 < path.length → path.length ≤ 638 →
      call.CarriesWhole (fun _ => []) [] path := by
  intro h
  have hcarried := h .unlink path127 path127_nulFree (by simp [path127]) (by simp [path127]) _
    List.mem_cons_self (fun _ => []) .closed []
  exact Request.not_carries_long (fun _ => []) .closed [] rfl (Nat.lt_succ_self 0)
    (by simp [path127]) hcarried

end Udtfs

import Udtfs.Handlers

/-!
# Framing of requests

Every request within the receive limits is consumed exactly, so a stream of such requests is
dispatched one by one and nothing is left over. The limits are 638 bytes for the path of a
`getattr` or `dir` request and 126 bytes for every other string.
-/

namespace Udtfs

open NulString

section
variable (stale : ℕ → Bytes)

/-! ## One argument -/

/-- An argument below the limit is handed on whole. -/
theorem receiving_frame {s : Bytes} (hs : NulFree s) (rest : Bytes) (ending : RecvEnd)
    {maxlen : ℕ} (h : s.length < maxlen) (next : Bytes → TcpStream → Received) :
    receiving stale maxlen ⟨s ++ 0 :: rest, ending⟩ next = next s ⟨rest, ending⟩ := by
  have hret : ¬ ((s.length + 1 : ℕ) : ℤ) ≤ 0 := by omega
  rw [receiving, recvStr_frame hs rest ending h]
  simp only [hret, if_false, string_frame hs]

/-- The unsigned count of a complete argument is not zero either. -/
theorem receivingSizeT_frame {s : Bytes} (hs : NulFree s) (rest : Bytes) (ending : RecvEnd)
    {maxlen : ℕ} (h : s.length < maxlen) (hmax : maxlen < 2 ^ 64)
    (next : Bytes → TcpStream → Received) :
    receivingSizeT stale maxlen ⟨s ++ 0 :: rest, ending⟩ next = next s ⟨rest, ending⟩ := by
  have hret : ¬ toSizeT ((s.length + 1 : ℕ) : ℤ) ≤ 0 := by
    rw [toSizeT_natCast (by omega)]
    omega
  rw [receivingSizeT, recvStr_frame hs rest ending h]
  simp only [hret, if_false, string_frame hs]

/-- An argument at or above the limit is cut, and its remainder becomes the next string. -/
theorem receiving_full {s : Bytes} (hs : NulFree s) (rest : Bytes) (ending : RecvEnd)
    {maxlen : ℕ} (hmax : 0 < maxlen) (h : maxlen ≤ s.length)
    (next : Bytes → TcpStream → Received) :
    receiving stale maxlen ⟨s ++ rest, ending⟩ next =
      next (s.take maxlen ++ cstr (stale (s.drop maxlen ++ rest).length))
        ⟨s.drop maxlen ++ rest, ending⟩ := by
  have hret : ¬ (maxlen : ℤ) ≤ 0 := by omega
  have hstored : s.take maxlen ≠ [] := by
    rw [Ne, List.take_eq_nil_iff]
    rintro (hzero | rfl)
    · omega
    · simp at h
      omega
  rw [receiving, recvStr_full hs rest ending h]
  simp only [hret, if_false, RecvStr.string, if_neg hstored,
    cstr_append_of_nulFree (hs.of_isPrefix (List.take_prefix maxlen _))]

/-- A stream that closes before the terminator makes the handler give up. -/
theorem receiving_cut {s : Bytes} (hs : NulFree s) (ending : RecvEnd) {maxlen : ℕ}
    (h : s.length < maxlen) (next : Bytes → TcpStream → Received) :
    receiving stale maxlen ⟨s, ending⟩ next = ⟨none, ⟨[], .closed⟩⟩ := by
  have hret : ending.value ≤ 0 := by cases ending <;> decide
  rw [receiving, recvStr_cut hs ending h]
  simp only [hret, if_true]

/-- Receiving an argument never puts bytes back on the stream. -/
theorem receiving_length (maxlen : ℕ) (s : TcpStream) (next : Bytes → TcpStream → Received)
    (hnext : ∀ string t, (next string t).rest.bytes.length ≤ t.bytes.length) :
    (receiving stale maxlen s next).rest.bytes.length ≤ s.bytes.length := by
  have h := recvStr_length s maxlen
  unfold receiving
  dsimp only
  split
  · dsimp only
    omega
  · exact (hnext _ _).trans (by omega)

/-- The unsigned variant consumes in the same way. -/
theorem receivingSizeT_length (maxlen : ℕ) (s : TcpStream) (next : Bytes → TcpStream → Received)
    (hnext : ∀ string t, (next string t).rest.bytes.length ≤ t.bytes.length) :
    (receivingSizeT stale maxlen s next).rest.bytes.length ≤ s.bytes.length := by
  have h := recvStr_length s maxlen
  unfold receivingSizeT
  dsimp only
  split
  · dsimp only
    omega
  · exact (hnext _ _).trans (by omega)

/-- No handler lengthens the stream. -/
theorem receive_length (c : Command) (s : TcpStream) :
    (c.receive stale s).rest.bytes.length ≤ s.bytes.length := by
  cases c <;>
    simp only [Command.receive, serverSenddir, serverSendattr, serverSendsegment, serverTruncate,
      serverWrite, serverRename, serverUnlink, serverUtime]
  case read =>
    exact receivingSizeT_length stale _ _ _ fun _ _ => receivingSizeT_length stale _ _ _ fun _ _ =>
      receivingSizeT_length stale _ _ _ fun _ _ => le_rfl
  case write =>
    exact receiving_length stale _ _ _ fun _ _ => receiving_length stale _ _ _ fun _ _ =>
      receiving_length stale _ _ _ fun _ _ => receiving_length stale _ _ _ fun _ _ => le_rfl
  case truncate | rename =>
    exact receiving_length stale _ _ _ fun _ _ => receiving_length stale _ _ _ fun _ _ => le_rfl
  all_goals exact receiving_length stale _ _ _ fun _ _ => le_rfl

/-! ## The command loop -/

/-- Every pass through the loop consumes at least one byte. -/
theorem handleCommand_shrinks {s rest : TcpStream} {served : Served}
    (h : handleCommand stale s = some (served, rest)) : rest.bytes.length < s.bytes.length := by
  unfold handleCommand at h
  dsimp only at h
  split at h
  · contradiction
  · next hret =>
    have hshrink : (recvStr s rcvbufSize).rest.bytes.length < s.bytes.length :=
      recvStr_shrinks s (by decide) (by omega)
    have hrest := (Option.some.inj h).symm
    unfold dispatch at hrest
    split at hrest
    · obtain ⟨-, rfl⟩ := Prod.mk.inj hrest
      exact hshrink
    · next c _ =>
      have hreceive := receive_length stale c (recvStr s rcvbufSize).rest
      split at hrest <;>
      · next heq =>
        obtain ⟨-, rfl⟩ := Prod.mk.inj hrest
        rw [heq] at hreceive
        exact hreceive.trans_lt hshrink

/-- What the command loop did until it ended. -/
structure HandlerRun where
  served : List Served
  /-- The bytes received after the last command, when the loop ended. -/
  tail : Bytes
  deriving DecidableEq

/-- `client_handler` from the start of its command loop on. -/
def clientHandler (s : TcpStream) : HandlerRun :=
  match _h : handleCommand stale s with
  | none => ⟨[], (recvStr s rcvbufSize).stored⟩
  | some (served, rest) =>
    let later := clientHandler rest
    ⟨served :: later.served, later.tail⟩
termination_by s.bytes.length
decreasing_by exact handleCommand_shrinks stale _h

/-- A pass that serves a command is the first of the run. -/
theorem clientHandler_some {s rest : TcpStream} {served : Served}
    (h : handleCommand stale s = some (served, rest)) :
    clientHandler stale s =
      ⟨served :: (clientHandler stale rest).served, (clientHandler stale rest).tail⟩ := by
  rw [clientHandler]
  split
  · next hnone => rw [h] at hnone; contradiction
  · next hsome =>
    obtain ⟨rfl, rfl⟩ := Prod.mk.inj (Option.some.inj (h.symm.trans hsome))
    rfl

/-- The loop ends as soon as a command cannot be received. -/
theorem clientHandler_none {s : TcpStream} (h : handleCommand stale s = none) :
    clientHandler stale s = ⟨[], (recvStr s rcvbufSize).stored⟩ := by
  rw [clientHandler]
  split
  · rfl
  · next hsome => rw [h] at hsome; contradiction

/-- At the end of the stream no command is received. -/
theorem handleCommand_nil (ending : RecvEnd) : handleCommand stale ⟨[], ending⟩ = none := by
  cases ending <;> rfl

/-- At the end of the stream the loop ends with nothing received. -/
@[simp] theorem clientHandler_nil (ending : RecvEnd) :
    clientHandler stale ⟨[], ending⟩ = ⟨[], []⟩ := by
  have hrecv : recvStr ⟨[], ending⟩ rcvbufSize = ⟨ending.value, [], ⟨[], .closed⟩⟩ :=
    recvStr_cut nulFree_nil ending (by decide)
  rw [clientHandler_none stale (handleCommand_nil stale ending), hrecv]

/-- A complete command string is dispatched, and its arguments follow on the stream. -/
theorem handleCommand_frame {s : Bytes} (hs : NulFree s) (h : s.length < rcvbufSize)
    (rest : Bytes) (ending : RecvEnd) :
    handleCommand stale ⟨s ++ 0 :: rest, ending⟩ = some (dispatch stale s ⟨rest, ending⟩) := by
  have hret : ¬ ((s.length + 1 : ℕ) : ℤ) ≤ 0 := by omega
  rw [handleCommand, recvStr_frame hs rest ending h]
  simp only [hret, if_false, string_frame hs]

end

/-! ## Commands -/

/-- A command's own string selects its handler. -/
@[simp] theorem commandOf_name (c : Command) : commandOf c.name = some c := by
  cases c <;> decide

/-- Command strings are nonempty C strings, far below the receive limit. -/
theorem name_framed (c : Command) : NulFree c.name ∧ 3 ≤ c.name.length ∧ c.name.length ≤ 8 := by
  cases c <;> decide

/-- The command is what `send_cmd` sends, since no command string is empty. -/
theorem sendCmd_name (c : Command) : sendCmd c.name = [c.name] := by
  cases c <;> decide

/-- A string that selects a handler equals its command up to case. -/
theorem strcasecmp_of_commandOf {rcvbuf : Bytes} {c : Command} (h : commandOf rcvbuf = some c) :
    strcasecmp rcvbuf c.name = true := by
  unfold commandOf at h
  repeat' split at h
  all_goals first
    | contradiction
    | (obtain rfl := Option.some.inj h; assumption)

/-! ## Requests within the limits -/

/-- The arguments fit the receive limits: 639 bytes with the terminator for the path of a
`getattr` or `dir`, 127 for every other string; integers are nonnegative `long long`s. -/
def Request.Carried : Request → Prop
  | .dir path | .getattr path => NulFree path ∧ path.length ≤ 638
  | .read filename offset len =>
    (NulFree filename ∧ filename.length ≤ 126) ∧ (0 ≤ offset ∧ offset < 2 ^ 63) ∧ len < 2 ^ 63
  | .truncate path newsize =>
    (NulFree path ∧ path.length ≤ 126) ∧ 0 ≤ newsize ∧ newsize < 2 ^ 63
  | .write path data size offset =>
    (NulFree path ∧ path.length ≤ 126) ∧ (NulFree data ∧ data.length ≤ 126) ∧ size < 2 ^ 63 ∧
      0 ≤ offset ∧ offset < 2 ^ 63
  | .rename path newpath =>
    (NulFree path ∧ path.length ≤ 126) ∧ NulFree newpath ∧ newpath.length ≤ 126
  | .unlink path | .utime path => NulFree path ∧ path.length ≤ 126

/-- A size below `2 ^ 63` survives the wire as a `size_t`. -/
theorem toSizeT_atoll_printLu {n : ℕ} (h : n < 2 ^ 63) : toSizeT (atoll (printLu n)) = n := by
  rw [atoll_printLu (by omega) (by omega), toSizeT_natCast (by omega)]

/-- The handler receives the arguments of its request and leaves the stream behind them. -/
theorem Request.Carried.receive {r : Request} (h : r.Carried) (stale : ℕ → Bytes) (rest : Bytes)
    (ending : RecvEnd) :
    r.command.receive stale ⟨frames r.arguments ++ rest, ending⟩ = ⟨some r, ⟨rest, ending⟩⟩ := by
  cases r with
  | dir path | getattr path =>
    obtain ⟨hp, hlen⟩ := h
    simp only [Request.command, Command.receive, serverSenddir, serverSendattr, Request.arguments,
      clientReqdir, clientReqattr, cstr_of_nulFree hp, frames_cons, frames_nil, List.append_assoc,
      List.cons_append, List.nil_append, receiving_frame stale hp _ _ (length_lt_path hlen)]
  | read filename offset len =>
    obtain ⟨⟨hf, hlen⟩, ⟨h0, h1⟩, h2⟩ := h
    simp only [Request.command, Command.receive, serverSendsegment, Request.arguments,
      clientReqsegment, cstr_of_nulFree hf, frames_cons, frames_nil, List.append_assoc,
      List.cons_append, List.nil_append, receivingSizeT_frame stale hf _ _ (length_lt_val hlen) (by decide),
      receivingSizeT_frame stale (printLu_nulFree _) _ _ (printLu_short _) (by decide),
      atoll_printLu h0 h1, toSizeT_atoll_printLu h2]
  | truncate path newsize =>
    obtain ⟨⟨hp, hlen⟩, h0, h1⟩ := h
    simp only [Request.command, Command.receive, serverTruncate, Request.arguments,
      clientReqtruncate, cstr_of_nulFree hp, frames_cons, frames_nil, List.append_assoc,
      List.cons_append, List.nil_append, receiving_frame stale hp _ _ (length_lt_val hlen),
      receiving_frame stale (printLu_nulFree _) _ _ (printLu_short _), atoll_printLu h0 h1]
  | write path data size offset =>
    obtain ⟨⟨hp, hlen⟩, ⟨hd, hdlen⟩, hsize, h0, h1⟩ := h
    simp only [Request.command, Command.receive, serverWrite, Request.arguments,
      clientReqwrite, cstr_of_nulFree hp, cstr_of_nulFree hd, frames_cons, frames_nil,
      List.append_assoc, List.cons_append, List.nil_append,
      receiving_frame stale hp _ _ (length_lt_val hlen), receiving_frame stale hd _ _ (length_lt_val hdlen),
      receiving_frame stale (printLu_nulFree _) _ _ (printLu_short _), atoll_printLu h0 h1,
      toSizeT_atoll_printLu hsize]
  | rename path newpath =>
    obtain ⟨⟨hp, hlen⟩, hn, hnlen⟩ := h
    simp only [Request.command, Command.receive, serverRename, Request.arguments,
      clientReqrename, cstr_of_nulFree hp, cstr_of_nulFree hn, frames_cons, frames_nil,
      List.append_assoc, List.cons_append, List.nil_append,
      receiving_frame stale hp _ _ (length_lt_val hlen), receiving_frame stale hn _ _ (length_lt_val hnlen)]
  | unlink path | utime path =>
    obtain ⟨hp, hlen⟩ := h
    simp only [Request.command, Command.receive, serverUnlink, serverUtime, Request.arguments,
      clientRequnlink, clientRequtime, cstr_of_nulFree hp, frames_cons, frames_nil,
      List.append_assoc, List.cons_append, List.nil_append,
      receiving_frame stale hp _ _ (length_lt_val hlen)]

/-- A request begins with its command string. -/
theorem Request.wire_eq (r : Request) : r.wire = r.command.name ++ 0 :: frames r.arguments := by
  rw [Request.wire, Request.strings, sendCmd_name, List.singleton_append, frames_cons]

/-- One pass of the loop serves a request within the limits and stops behind its last byte. -/
theorem Request.Carried.handle {r : Request} (h : r.Carried) (stale : ℕ → Bytes) (rest : Bytes)
    (ending : RecvEnd) :
    handleCommand stale ⟨r.wire ++ rest, ending⟩ = some (.handled r, ⟨rest, ending⟩) := by
  obtain ⟨hname, -, hlen⟩ := name_framed r.command
  rw [Request.wire_eq, List.append_assoc, List.cons_append,
    handleCommand_frame stale hname (hlen.trans_lt (by decide)), dispatch, commandOf_name]
  simp only [h.receive stale rest ending]

/-- With some of its arguments on a closed stream a receive gives up, or hands on the first of them
and leaves the others. -/
theorem receiving_arrived (stale : ℕ → Bytes) {s : Bytes} {strings arrived later : List Bytes}
    (hsplit : s :: strings = arrived ++ later) (hs : NulFree s) {maxlen : ℕ} (h : s.length < maxlen)
    {next : Bytes → TcpStream → Received}
    (hnext : ∀ arrived, strings = arrived ++ later →
      next s ⟨frames arrived, .closed⟩ = ⟨none, ⟨[], .closed⟩⟩) :
    receiving stale maxlen ⟨frames arrived, .closed⟩ next = ⟨none, ⟨[], .closed⟩⟩ := by
  cases arrived with
  | nil => exact receiving_cut stale nulFree_nil .closed (by rw [List.length_nil]; omega) next
  | cons s' arrived =>
    obtain ⟨rfl, hstrings⟩ := List.cons.inj hsplit
    rw [frames_cons, receiving_frame stale hs _ _ h]
    exact hnext arrived hstrings

/-- The same for the receive that keeps its result in a `size_t`. -/
theorem receivingSizeT_arrived (stale : ℕ → Bytes) {s : Bytes} {strings arrived later : List Bytes}
    (hsplit : s :: strings = arrived ++ later) (hs : NulFree s) {maxlen : ℕ} (h : s.length < maxlen)
    (hmax : maxlen < 2 ^ 64) {next : Bytes → TcpStream → Received}
    (hnext : ∀ arrived, strings = arrived ++ later →
      next s ⟨frames arrived, .closed⟩ = ⟨none, ⟨[], .closed⟩⟩) :
    receivingSizeT stale maxlen ⟨frames arrived, .closed⟩ next = ⟨none, ⟨[], .closed⟩⟩ := by
  cases arrived with
  | nil =>
    have hlimit : ([] : Bytes).length < maxlen := by
      rw [List.length_nil]
      omega
    rw [receivingSizeT, frames_nil, recvStr_cut nulFree_nil .closed hlimit]
    rfl
  | cons s' arrived =>
    obtain ⟨rfl, hstrings⟩ := List.cons.inj hsplit
    rw [frames_cons, receivingSizeT_frame stale hs _ _ h hmax]
    exact hnext arrived hstrings

/-- A handler whose arguments have arrived in part gives up when the stream closes: it does not get past
the receive whose string is missing. -/
theorem Request.Carried.receive_cut {r : Request} (h : r.Carried) (stale : ℕ → Bytes)
    {arrived later : List Bytes} (hsplit : r.arguments = arrived ++ later) (hlater : later ≠ []) :
    r.command.receive stale ⟨frames arrived, .closed⟩ = ⟨none, ⟨[], .closed⟩⟩ := by
  have hmissing {arrived : List Bytes} (hnil : [] = arrived ++ later) : False :=
    hlater (List.append_eq_nil_iff.mp hnil.symm).2
  cases r with
  | dir path | getattr path =>
    obtain ⟨hp, hlen⟩ := h
    simp only [Request.arguments, clientReqdir, clientReqattr, cstr_of_nulFree hp] at hsplit
    simp only [Request.command, Command.receive, serverSenddir, serverSendattr]
    apply receiving_arrived stale hsplit hp (length_lt_path hlen)
    exact fun _ hnil => (hmissing hnil).elim
  | read filename offset len =>
    obtain ⟨⟨hf, hlen⟩, -⟩ := h
    rw [Request.arguments, clientReqsegment, cstr_of_nulFree hf] at hsplit
    simp only [Request.command, Command.receive, serverSendsegment]
    apply receivingSizeT_arrived stale hsplit hf (length_lt_val hlen) (by decide)
    intro _ hsplit
    apply receivingSizeT_arrived stale hsplit (printLu_nulFree _) (printLu_short _) (by decide)
    intro _ hsplit
    apply receivingSizeT_arrived stale hsplit (printLu_nulFree _) (printLu_short _) (by decide)
    exact fun _ hnil => (hmissing hnil).elim
  | truncate path newsize =>
    obtain ⟨⟨hp, hlen⟩, -⟩ := h
    rw [Request.arguments, clientReqtruncate, cstr_of_nulFree hp] at hsplit
    simp only [Request.command, Command.receive, serverTruncate]
    apply receiving_arrived stale hsplit hp (length_lt_val hlen)
    intro _ hsplit
    apply receiving_arrived stale hsplit (printLu_nulFree _) (printLu_short _)
    exact fun _ hnil => (hmissing hnil).elim
  | write path data size offset =>
    obtain ⟨⟨hp, hlen⟩, ⟨hd, hdlen⟩, -⟩ := h
    rw [Request.arguments, clientReqwrite, cstr_of_nulFree hp, cstr_of_nulFree hd] at hsplit
    simp only [Request.command, Command.receive, serverWrite]
    apply receiving_arrived stale hsplit hp (length_lt_val hlen)
    intro _ hsplit
    apply receiving_arrived stale hsplit hd (length_lt_val hdlen)
    intro _ hsplit
    apply receiving_arrived stale hsplit (printLu_nulFree _) (printLu_short _)
    intro _ hsplit
    apply receiving_arrived stale hsplit (printLu_nulFree _) (printLu_short _)
    exact fun _ hnil => (hmissing hnil).elim
  | rename path newpath =>
    obtain ⟨⟨hp, hlen⟩, hn, hnlen⟩ := h
    rw [Request.arguments, clientReqrename, cstr_of_nulFree hp, cstr_of_nulFree hn] at hsplit
    simp only [Request.command, Command.receive, serverRename]
    apply receiving_arrived stale hsplit hp (length_lt_val hlen)
    intro _ hsplit
    apply receiving_arrived stale hsplit hn (length_lt_val hnlen)
    exact fun _ hnil => (hmissing hnil).elim
  | unlink path | utime path =>
    obtain ⟨hp, hlen⟩ := h
    simp only [Request.arguments, clientRequnlink, clientRequtime, cstr_of_nulFree hp] at hsplit
    simp only [Request.command, Command.receive, serverUnlink, serverUtime]
    apply receiving_arrived stale hsplit hp (length_lt_val hlen)
    exact fun _ hnil => (hmissing hnil).elim

/-- A request that has arrived in part makes the loop call its handler in vain when the stream
closes. -/
theorem Request.Carried.handle_cut {r : Request} (h : r.Carried) (stale : ℕ → Bytes)
    {arrived later : List Bytes} (hsplit : r.strings = arrived ++ later) (harrived : arrived ≠ [])
    (hlater : later ≠ []) :
    handleCommand stale ⟨frames arrived, .closed⟩ =
      some (.gaveUp r.command, ⟨[], .closed⟩) := by
  obtain ⟨hname, -, hlen⟩ := name_framed r.command
  cases arrived with
  | nil => contradiction
  | cons name arrived =>
    rw [Request.strings, sendCmd_name] at hsplit
    obtain ⟨rfl, harguments⟩ := List.cons.inj hsplit
    rw [frames_cons, handleCommand_frame stale hname (hlen.trans_lt (by decide)), dispatch,
      commandOf_name]
    simp only [h.receive_cut stale harguments hlater]

/-- A prefix of requests within the limits is served one by one before the remaining stream. -/
theorem clientHandler_requests (stale : ℕ → Bytes) (requests : List Request)
    (h : ∀ r ∈ requests, r.Carried) (rest : Bytes) (ending : RecvEnd) :
    clientHandler stale ⟨requests.flatMap Request.wire ++ rest, ending⟩ =
      ⟨requests.map .handled ++ (clientHandler stale ⟨rest, ending⟩).served,
        (clientHandler stale ⟨rest, ending⟩).tail⟩ := by
  induction requests with
  | nil => rfl
  | cons r requests ih =>
    have ih := ih fun q hq => h q (List.mem_cons_of_mem _ hq)
    have hr := (h r List.mem_cons_self).handle stale (requests.flatMap Request.wire ++ rest) ending
    rw [List.flatMap_cons, List.append_assoc, clientHandler_some stale hr, ih]
    rfl

/-- Any sequence of requests within the limits is dispatched exactly, with exactly the issued
arguments; the loop then finds the stream at its end with no byte received in vain. -/
theorem clientHandler_framing (stale : ℕ → Bytes) (requests : List Request)
    (h : ∀ r ∈ requests, r.Carried) (ending : RecvEnd) :
    clientHandler stale ⟨requests.flatMap Request.wire, ending⟩ =
      ⟨requests.map .handled, []⟩ := by
  have hrun := clientHandler_requests stale requests h [] ending
  simpa using hrun

/-- Requests of three shapes, one with an empty payload, arrive as issued. -/
theorem clientHandler_framing_three :
    clientHandler (fun _ => ascii "old")
        ⟨[Request.write (ascii "a") [] 0 7, .rename (ascii "a") (ascii "b"),
          .read (ascii "b") 0 4096].flatMap Request.wire, .closed⟩ =
      ⟨[.handled (.write (ascii "a") [] 0 7), .handled (.rename (ascii "a") (ascii "b")),
        .handled (.read (ascii "b") 0 4096)], []⟩ :=
  clientHandler_framing _ _ (by simp [Request.Carried]; decide) .closed

end Udtfs

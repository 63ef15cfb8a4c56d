import Udtfs.Receives

/-!
# Payload bytes at the command position

A write payload is received into a buffer of 127 bytes. What does not fit is read as the size,
then as the offset, and from there on as commands, in pieces of up to 512 bytes. Only the last
piece is terminated, and only a piece of three to eight bytes can be a command, so whether file
data reaches the dispatcher is a matter of lengths alone.
-/

namespace Udtfs

open NulString

/-! ## What the dispatcher was made to do -/

/-- The handler called in one pass and the paths it was given. -/
def Served.dispatched : Served → Option (Command × List Bytes)
  | .handled r => some (r.command, r.paths)
  | .gaveUp c => some (c, [])
  | .ignored _ => none

/-- The handlers called in a run, with their path arguments. -/
def HandlerRun.dispatches (run : HandlerRun) : List (Command × List Bytes) :=
  run.served.filterMap Served.dispatched

/-- The last piece of a string that is received in pieces of the command buffer's size. -/
def lastPiece (s : Bytes) : Bytes := s.drop (rcvbufSize * (s.length / rcvbufSize))

/-- The lengths of command strings. -/
def CommandLength (n : ℕ) : Prop := 3 ≤ n ∧ n ≤ 8

instance (n : ℕ) : Decidable (CommandLength n) := inferInstanceAs (Decidable (_ ∧ _))

/-- The last piece is the remainder of the length. -/
@[simp] theorem lastPiece_length (s : Bytes) : (lastPiece s).length = s.length % rcvbufSize := by
  rw [lastPiece, List.length_drop]
  have := Nat.div_add_mod s.length rcvbufSize
  omega

/-- The last piece fits the command buffer with its terminator. -/
theorem lastPiece_length_lt (s : Bytes) : (lastPiece s).length < rcvbufSize := by
  rw [lastPiece_length]
  exact Nat.mod_lt _ (by decide)

/-- The last piece of a string is a string. -/
theorem lastPiece_nulFree {s : Bytes} (hs : NulFree s) : NulFree (lastPiece s) := hs.drop _

/-- A string of another length is no command. -/
theorem commandOf_eq_none_of_length {s : Bytes} (h : ¬ CommandLength s.length) :
    commandOf s = none := by
  cases hc : commandOf s with
  | none => rfl
  | some c =>
    obtain ⟨-, hlow, hhigh⟩ := name_framed c
    have hlen := strcasecmp_length (strcasecmp_of_commandOf hc)
    exact absurd ⟨by omega, by omega⟩ h

/-- A numeral is no command, since commands begin with a letter. -/
theorem commandOf_printLu (x : ℤ) : commandOf (printLu x) = none := by
  cases hc : commandOf (printLu x) with
  | none => rfl
  | some c =>
    obtain ⟨b, s, hs, hb⟩ := print_head (toSizeT x)
    have hlower : tolower b = b := by
      obtain ⟨-, h⟩ := hb
      rw [tolower, if_neg (by omega)]
    have hhead := congrArg List.head? (beq_iff_eq.mp (strcasecmp_of_commandOf hc))
    rw [printLu, hs, List.map_cons, List.head?_cons, hlower] at hhead
    have hletter : ∀ e : Command, ∀ a, (e.name.map tolower).head? = some a →
        ¬ Decimal.IsDigit a := by
      intro e a ha
      cases e <;> (obtain rfl := Option.some.inj ha; decide)
    exact absurd hb (hletter c b hhead.symm)

section
variable (stale : ℕ → Bytes) (ending : RecvEnd)

/-! ## Strings read at the command position -/

/-- A terminated string that is no command is passed over. -/
theorem dispatches_ignored {s : Bytes} (hs : NulFree s) (hlen : s.length < rcvbufSize)
    (hcmd : commandOf s = none) (rest : Bytes) :
    (clientHandler stale ⟨s ++ 0 :: rest, ending⟩).dispatches =
      (clientHandler stale ⟨rest, ending⟩).dispatches := by
  have h := handleCommand_frame stale hs hlen rest ending
  rw [dispatch, hcmd] at h
  rw [clientHandler_some stale h]
  rfl

/-- A full command buffer holds no command and is passed over. -/
theorem dispatches_full {s : Bytes} (hs : NulFree s) (hlen : rcvbufSize ≤ s.length) (rest : Bytes) :
    (clientHandler stale ⟨s ++ 0 :: rest, ending⟩).dispatches =
      (clientHandler stale ⟨s.drop rcvbufSize ++ 0 :: rest, ending⟩).dispatches := by
  have hret : ¬ ((rcvbufSize : ℕ) : ℤ) ≤ 0 := by decide
  have hrecv := recvStr_full hs (0 :: rest) ending hlen
  have hstored : s.take rcvbufSize ≠ [] := by
    intro h
    have := congrArg List.length h
    simp only [List.length_take, List.length_nil, rcvbufSize] at this hlen
    omega
  have hnone (beyond : Bytes) : commandOf (s.take rcvbufSize ++ cstr beyond) = none := by
    apply commandOf_eq_none_of_length
    rw [CommandLength, List.length_append, List.length_take_of_le hlen, rcvbufSize]
    omega
  have hpass : handleCommand stale ⟨s ++ 0 :: rest, ending⟩ =
      some (.ignored (s.take rcvbufSize ++
          cstr (stale (s.drop rcvbufSize ++ 0 :: rest).length)),
        ⟨s.drop rcvbufSize ++ 0 :: rest, ending⟩) := by
    rw [handleCommand, hrecv]
    simp only [hret, if_false, RecvStr.string, if_neg hstored,
      cstr_append_of_nulFree (hs.of_isPrefix (List.take_prefix rcvbufSize _)), dispatch, hnone]
  rw [clientHandler_some stale hpass]
  rfl

/-- Only the last piece of a string read at the command position matters. -/
theorem dispatches_lastPiece {s : Bytes} (hs : NulFree s) (rest : Bytes) :
    (clientHandler stale ⟨s ++ 0 :: rest, ending⟩).dispatches =
      (clientHandler stale ⟨lastPiece s ++ 0 :: rest, ending⟩).dispatches := by
  induction hn : s.length / rcvbufSize generalizing s with
  | zero => simp [lastPiece, hn]
  | succ n ih =>
    have hlen : rcvbufSize ≤ s.length := by
      by_contra hlt
      rw [Nat.div_eq_of_lt (by omega)] at hn
      omega
    have hdiv : (s.drop rcvbufSize).length / rcvbufSize = n := by
      simp only [List.length_drop, rcvbufSize] at hlen hn ⊢
      omega
    have hpiece : lastPiece (s.drop rcvbufSize) = lastPiece s := by
      rw [lastPiece, lastPiece, hdiv, hn, List.drop_drop]
      congr 1
      ring
    rw [dispatches_full stale ending hs hlen, ih (hs.drop _) hdiv, hpiece]

/-- Numbers read at the command position are passed over. -/
theorem dispatches_numerals (numbers : List ℤ) (rest : Bytes) :
    (clientHandler stale ⟨frames (numbers.map printLu) ++ rest, ending⟩).dispatches =
      (clientHandler stale ⟨rest, ending⟩).dispatches := by
  induction numbers with
  | nil => rfl
  | cons n numbers ih =>
    have hlen : (printLu n).length < rcvbufSize := (printLu_length_le n).trans_lt (by decide)
    rw [List.map_cons, frames_cons, List.append_assoc, List.cons_append,
      dispatches_ignored stale ending (printLu_nulFree n) hlen (commandOf_printLu n), ih]

/-! ## One write request in front of later input -/

/-- The first argument depends on the payload through the length of the stream only. -/
theorem argument_congr {path t₁ t₂ : Bytes} (hpath : NulFree path) (ht : t₁.length = t₂.length) :
    argument stale ⟨path ++ 0 :: t₁, ending⟩ = argument stale ⟨path ++ 0 :: t₂, ending⟩ := by
  by_cases hshort : path.length < 127
  · rw [argument_frame stale ending hpath hshort, argument_frame stale ending hpath hshort]
  · rw [argument_full stale ending hpath (by omega), argument_full stale ending hpath (by omega)]
    simp only [List.length_append, List.length_cons, ht]

/-- The loop calls the write handler with the received path and goes on four receives later. -/
theorem dispatches_write {path data : Bytes} (hpath : NulFree path) (hdata : NulFree data)
    (size : ℕ) (offset : ℤ) (rest : Bytes) :
    (clientHandler stale ⟨(Request.write path data size offset).wire ++ rest, ending⟩).dispatches =
      (.write, [argument stale ⟨path ++ 0 :: (data ++ 0 ::
          (frames ([(size : ℤ), offset].map printLu) ++ rest)), ending⟩]) ::
        (clientHandler stale (skip^[4] ⟨path ++ 0 :: (data ++ 0 ::
          (frames ([(size : ℤ), offset].map printLu) ++ rest)), ending⟩)).dispatches := by
  obtain ⟨data', size', offset', hpass⟩ :=
    handleCommand_write stale ending hpath hdata size offset rest
  rw [clientHandler_some stale hpass]
  simp [HandlerRun.dispatches, Served.dispatched, Request.command, Request.paths]

/-- With `k` receives left when the payload begins, either it ends within them, or its last
piece is read as a command. -/
theorem dispatches_payload {k : ℕ} (hk : k ≤ 3) {data : Bytes} (hdata : NulFree data)
    (size offset : ℤ) (rest : Bytes) :
    (clientHandler stale (skip^[k] ⟨data ++ 0 ::
        (frames ([size, offset].map printLu) ++ rest), ending⟩)).dispatches =
      if data.length < 127 * k then (clientHandler stale ⟨rest, ending⟩).dispatches
      else (clientHandler stale ⟨lastPiece (data.drop (127 * k)) ++ 0 ::
        (frames ([size, offset].map printLu) ++ rest), ending⟩).dispatches := by
  rw [skip_iterate ending k hdata]
  split
  · have hshort : ∀ s ∈ [size, offset].map printLu, NulFree s ∧ s.length < 127 := by
      intro s hs
      obtain ⟨n, -, rfl⟩ := List.mem_map.mp hs
      exact ⟨printLu_nulFree n, printLu_short n⟩
    rw [skip_iterate_frames ending _ _ hshort (by simp; omega), ← List.map_drop,
      dispatches_numerals]
  · exact dispatches_lastPiece stale ending (hdata.drop _) _

/-- A payload of this length ends within the `k` receives it meets first, or leaves a last piece
that is no command by its length. -/
def Contained (k length : ℕ) : Prop :=
  length < 127 * k ∨ ¬ CommandLength ((length - 127 * k) % rcvbufSize)

instance (k length : ℕ) : Decidable (Contained k length) :=
  inferInstanceAs (Decidable (_ ∨ _))

/-- When payloads of this length cannot reach the dispatcher.

A path below 508 bytes occupies some of the handler's four receives and leaves the others to
the payload. A longer path is itself read as a command; if that calls a handler, the payload is
its argument. -/
def PayloadContained (path : Bytes) (length : ℕ) : Prop :=
  if path.length < 508 then Contained (3 - path.length / 127) length
  else if commandOf (lastPiece (path.drop 508)) = none then Contained 0 length
  else length = 0

instance (path : Bytes) (length : ℕ) : Decidable (PayloadContained path length) := by
  unfold PayloadContained
  infer_instance

/-- A contained payload leaves the dispatcher to the later input. -/
theorem dispatches_contained {k : ℕ} (hk : k ≤ 3) {data : Bytes} (hdata : NulFree data)
    (h : Contained k data.length) (size offset : ℤ) (rest : Bytes) :
    (clientHandler stale (skip^[k] ⟨data ++ 0 ::
        (frames ([size, offset].map printLu) ++ rest), ending⟩)).dispatches =
      (clientHandler stale ⟨rest, ending⟩).dispatches := by
  rw [dispatches_payload stale ending hk hdata]
  split
  · rfl
  · next hlong =>
    have hlen : (lastPiece (data.drop (127 * k))).length =
        (data.length - 127 * k) % rcvbufSize := by
      rw [lastPiece_length, List.length_drop]
    have hcmd := commandOf_eq_none_of_length (hlen ▸ h.resolve_left hlong)
    rw [dispatches_ignored stale ending (lastPiece_nulFree (hdata.drop _)) (lastPiece_length_lt _) hcmd,
      dispatches_numerals]

/-- The stream when the write handler is done, by the space the path took. -/
theorem skip_path {path : Bytes} (hpath : NulFree path) (rest : Bytes) :
    (clientHandler stale (skip^[4] ⟨path ++ 0 :: rest, ending⟩)).dispatches =
      if path.length < 508 then
        (clientHandler stale (skip^[3 - path.length / 127] ⟨rest, ending⟩)).dispatches
      else (clientHandler stale ⟨lastPiece (path.drop 508) ++ 0 :: rest, ending⟩).dispatches := by
  rw [skip_iterate ending 4 hpath]
  by_cases hshort : path.length < 508
  · have hcount : 4 - (path.length / 127 + 1) = 3 - path.length / 127 := by omega
    rw [if_pos (by omega), if_pos hshort, hcount]
  · rw [if_neg (by omega), if_neg hshort]
    exact dispatches_lastPiece stale ending (hpath.drop _) _

/-- Payloads of a contained length are dispatched alike. -/
theorem dispatches_of_contained {path d₁ d₂ : Bytes} (hpath : NulFree path) (h₁ : NulFree d₁)
    (h₂ : NulFree d₂) (hlen : d₁.length = d₂.length) (h : PayloadContained path d₂.length)
    (size : ℕ) (offset : ℤ) (rest : Bytes) :
    (clientHandler stale ⟨(Request.write path d₁ size offset).wire ++ rest, ending⟩).dispatches =
      (clientHandler stale
        ⟨(Request.write path d₂ size offset).wire ++ rest, ending⟩).dispatches := by
  have hhead : argument stale ⟨path ++ 0 :: (d₁ ++ 0 ::
        (frames ([(size : ℤ), offset].map printLu) ++ rest)), ending⟩ =
      argument stale ⟨path ++ 0 :: (d₂ ++ 0 ::
        (frames ([(size : ℤ), offset].map printLu) ++ rest)), ending⟩ :=
    argument_congr stale ending hpath (by simp [hlen])
  rw [dispatches_write stale ending hpath h₁, dispatches_write stale ending hpath h₂, hhead,
    skip_path stale ending hpath, skip_path stale ending hpath]
  congr 1
  unfold PayloadContained at h
  split at h
  · next hshort =>
    rw [if_pos hshort, if_pos hshort,
      dispatches_contained stale ending (by omega) h₁ (hlen ▸ h),
      dispatches_contained stale ending (by omega) h₂ h]
  · next hlong =>
    rw [if_neg hlong, if_neg hlong]
    split at h
    · next hcmd =>
      have hpiece := lastPiece_nulFree (hpath.drop 508)
      rw [dispatches_ignored stale ending hpiece (lastPiece_length_lt _) hcmd,
        dispatches_ignored stale ending hpiece (lastPiece_length_lt _) hcmd]
      exact (dispatches_contained stale ending (by omega : 0 ≤ 3) h₁ (hlen ▸ h) _ _ _).trans
        (dispatches_contained stale ending (by omega : 0 ≤ 3) h₂ h _ _ _).symm
    · rw [List.length_eq_zero_iff.mp h, List.length_eq_zero_iff.mp (hlen.trans h)]

/-! ## Payloads that reach the dispatcher -/

/-- A run of the letter `x` is no command. -/
theorem commandOf_replicate (n : ℕ) : commandOf (List.replicate n 120) = none := by
  by_cases h : CommandLength n
  · obtain ⟨hlow, hhigh⟩ := h
    interval_cases n <;> decide
  · exact commandOf_eq_none_of_length (by simpa using h)

/-- Some handler is called by a command of each length, and finds its path in the numeral that
follows. -/
theorem exists_command {n : ℕ} (h : CommandLength n) (size offset : ℤ) (rest : Bytes) :
    ∃ c : Command, c.name.length = n ∧ ∃ r tail,
      c.receive stale
          ⟨frames ([size, offset].map printLu) ++ (ascii "unlink" ++ 0 :: rest), ending⟩ =
        ⟨some r, tail⟩ ∧ r.paths = [printLu size] := by
  have hlu' : (printLu size).length < mMaxPath + mMaxFile - 1 :=
    (printLu_length_le size).trans_lt (by decide)
  have hunlink : NulFree (ascii "unlink") := by decide
  have hlen : (ascii "unlink").length < mMaxVal - 1 := by decide
  simp only [List.map_cons, List.map_nil, frames_cons, frames_nil, List.append_assoc,
    List.cons_append, List.nil_append]
  obtain ⟨hlow, hhigh⟩ := h
  interval_cases n
  · refine ⟨.dir, by decide, ?_⟩
    simp only [Command.receive, serverSenddir, receiving_frame stale (printLu_nulFree _) _ _ hlu']
    exact ⟨_, _, rfl, rfl⟩
  · refine ⟨.read, by decide, ?_⟩
    simp only [Command.receive, serverSendsegment,
      receivingSizeT_frame stale (printLu_nulFree _) _ _ (printLu_short _) (by decide),
      receivingSizeT_frame stale hunlink _ _ hlen (by decide)]
    exact ⟨_, _, rfl, rfl⟩
  · refine ⟨.utime, by decide, ?_⟩
    simp only [Command.receive, serverUtime, receiving_frame stale (printLu_nulFree _) _ _ (printLu_short _)]
    exact ⟨_, _, rfl, rfl⟩
  · refine ⟨.unlink, by decide, ?_⟩
    simp only [Command.receive, serverUnlink, receiving_frame stale (printLu_nulFree _) _ _ (printLu_short _)]
    exact ⟨_, _, rfl, rfl⟩
  · refine ⟨.getattr, by decide, ?_⟩
    simp only [Command.receive, serverSendattr, receiving_frame stale (printLu_nulFree _) _ _ hlu']
    exact ⟨_, _, rfl, rfl⟩
  · refine ⟨.truncate, by decide, ?_⟩
    simp only [Command.receive, serverTruncate,
      receiving_frame stale (printLu_nulFree _) _ _ (printLu_short _)]
    exact ⟨_, _, rfl, rfl⟩

/-- A receive from a sequence of strings succeeds, and its string begins as the first of them. -/
theorem receiving_frames {maxlen : ℕ} (hmax : 0 < maxlen) {s : Bytes} (hs : NulFree s)
    {strings : List Bytes} (hstrings : ∀ t ∈ strings, NulFree t) (rest : Bytes) :
    ∃ p later, (∀ next, receiving stale maxlen ⟨frames (s :: strings) ++ rest, ending⟩ next =
        next p ⟨frames later ++ rest, ending⟩) ∧
      (∀ t ∈ later, NulFree t) ∧ strings.length ≤ later.length ∧ (s ≠ [] → p.head? = s.head?) := by
  by_cases hshort : s.length < maxlen
  · refine ⟨s, strings, fun next => ?_, hstrings, le_rfl, fun _ => rfl⟩
    rw [frames_cons, List.append_assoc, List.cons_append, receiving_frame stale hs _ _ hshort]
  · refine ⟨s.take maxlen ++ cstr (stale (s.drop maxlen ++ 0 :: (frames strings ++ rest)).length),
      s.drop maxlen :: strings, fun next => ?_, List.forall_mem_cons.mpr ⟨hs.drop maxlen, hstrings⟩,
      by simp, fun hne => ?_⟩
    · rw [frames_cons, List.append_assoc, receiving_full stale hs _ _ hmax (by omega),
        frames_cons, List.append_assoc]
      rfl
    · obtain ⟨b, s, rfl⟩ := List.exists_cons_of_ne_nil hne
      obtain ⟨m, rfl⟩ : ∃ m, maxlen = m + 1 := ⟨maxlen - 1, by omega⟩
      rfl

/-- The same receive with an unsigned count. -/
theorem receivingSizeT_frames {maxlen : ℕ} (hmax : 0 < maxlen) (hmax' : maxlen < 2 ^ 64)
    {s : Bytes} (hs : NulFree s) {strings : List Bytes} (hstrings : ∀ t ∈ strings, NulFree t)
    (rest : Bytes) :
    ∃ p later, (∀ next, receivingSizeT stale maxlen ⟨frames (s :: strings) ++ rest, ending⟩ next =
        next p ⟨frames later ++ rest, ending⟩) ∧
      (∀ t ∈ later, NulFree t) ∧ strings.length ≤ later.length ∧ (s ≠ [] → p.head? = s.head?) := by
  obtain ⟨p, later, hnext, hlater⟩ := receiving_frames stale ending hmax hs hstrings rest
  refine ⟨p, later, fun next => ?_, hlater⟩
  rw [← hnext next, receivingSizeT, receiving]
  have hret : toSizeT (recvStr ⟨frames (s :: strings) ++ rest, ending⟩ maxlen).ret ≤ 0 ↔
      (recvStr ⟨frames (s :: strings) ++ rest, ending⟩ maxlen).ret ≤ 0 := by
    rw [frames_cons, List.append_assoc, List.cons_append]
    by_cases hshort : s.length < maxlen
    · rw [recvStr_frame hs _ ending hshort, toSizeT_natCast (by omega)]
      dsimp only
      omega
    · rw [recvStr_full hs _ ending (by omega), toSizeT_natCast (by omega)]
      dsimp only
      omega
  simp only [hret]

/-- A handler called on four strings is handed a path that begins as the first of them. -/
theorem receive_first (c : Command) {s : Bytes} (hs : NulFree s) (hne : s ≠ [])
    {strings : List Bytes} (hstrings : ∀ t ∈ strings, NulFree t) (hlen : 3 ≤ strings.length)
    (rest : Bytes) :
    ∃ r tail p ps, c.receive stale ⟨frames (s :: strings) ++ rest, ending⟩ = ⟨some r, tail⟩ ∧
      r.paths = p :: ps ∧ p.head? = s.head? := by
  have hval : 0 < mMaxVal - 1 := by decide
  have hpath : 0 < mMaxPath + mMaxFile - 1 := by decide
  have hcons {k : ℕ} {l : List Bytes} (h : k + 1 ≤ l.length) :
      ∃ t l', l = t :: l' ∧ k ≤ l'.length := by
    cases l with
    | nil => simp at h
    | cons t l' => exact ⟨t, l', rfl, by simpa using h⟩
  cases c with
  | dir | getattr =>
    obtain ⟨p, l, hnext, -, -, hhead⟩ := receiving_frames stale ending hpath hs hstrings rest
    simp only [Command.receive, serverSenddir, serverSendattr, hnext]
    exact ⟨_, _, p, [], rfl, rfl, hhead hne⟩
  | unlink | utime =>
    obtain ⟨p, l, hnext, -, -, hhead⟩ := receiving_frames stale ending hval hs hstrings rest
    simp only [Command.receive, serverUnlink, serverUtime, hnext]
    exact ⟨_, _, p, [], rfl, rfl, hhead hne⟩
  | truncate | rename =>
    obtain ⟨p, l, hnext, hl, hlong, hhead⟩ := receiving_frames stale ending hval hs hstrings rest
    obtain ⟨t, l, rfl, -⟩ := hcons (hlen.trans hlong)
    obtain ⟨ht, hl⟩ := List.forall_mem_cons.mp hl
    obtain ⟨q, m, hnext₁, -⟩ := receiving_frames stale ending hval ht hl rest
    simp only [Command.receive, serverTruncate, serverRename, hnext, hnext₁]
    exact ⟨_, _, p, _, rfl, rfl, hhead hne⟩
  | read =>
    obtain ⟨p, l, hnext, hl, hlong, hhead⟩ :=
      receivingSizeT_frames stale ending hval (by decide) hs hstrings rest
    obtain ⟨t, l, rfl, htwo⟩ := hcons (hlen.trans hlong)
    obtain ⟨ht, hl⟩ := List.forall_mem_cons.mp hl
    obtain ⟨q, m, hnext₁, hm, hlong₁, -⟩ :=
      receivingSizeT_frames stale ending hval (by decide) ht hl rest
    obtain ⟨u, m, rfl, -⟩ := hcons (htwo.trans hlong₁)
    obtain ⟨hu, hm⟩ := List.forall_mem_cons.mp hm
    obtain ⟨_, _, hnext₂, -⟩ := receivingSizeT_frames stale ending hval (by decide) hu hm rest
    simp only [Command.receive, serverSendsegment, hnext, hnext₁, hnext₂]
    exact ⟨_, _, p, [], rfl, rfl, hhead hne⟩
  | write =>
    obtain ⟨p, l, hnext, hl, hlong, hhead⟩ := receiving_frames stale ending hval hs hstrings rest
    obtain ⟨t, l, rfl, htwo⟩ := hcons (hlen.trans hlong)
    obtain ⟨ht, hl⟩ := List.forall_mem_cons.mp hl
    obtain ⟨q, m, hnext₁, hm, hlong₁, -⟩ := receiving_frames stale ending hval ht hl rest
    obtain ⟨u, m, rfl, hone⟩ := hcons (htwo.trans hlong₁)
    obtain ⟨hu, hm⟩ := List.forall_mem_cons.mp hm
    obtain ⟨_, n, hnext₂, hn, hlong₂, -⟩ := receiving_frames stale ending hval hu hm rest
    obtain ⟨v, n, rfl, -⟩ := hcons (hone.trans hlong₂)
    obtain ⟨hv, hn⟩ := List.forall_mem_cons.mp hn
    obtain ⟨_, _, hnext₃, -⟩ := receiving_frames stale ending hval hv hn rest
    simp only [Command.receive, serverWrite, hnext, hnext₁, hnext₂, hnext₃]
    exact ⟨_, _, p, [], rfl, rfl, hhead hne⟩

/-- A called handler contributes its own entry before the rest of the run. -/
theorem dispatches_handled {s : Bytes} (hs : NulFree s) (hlen : s.length < rcvbufSize)
    {c : Command} (hcmd : commandOf s = some c) {rest : Bytes} {r : Request} {tail : TcpStream}
    (hreceive : c.receive stale ⟨rest, ending⟩ = ⟨some r, tail⟩) :
    (clientHandler stale ⟨s ++ 0 :: rest, ending⟩).dispatches =
      (r.command, r.paths) :: (clientHandler stale tail).dispatches := by
  have h := handleCommand_frame stale hs hlen rest ending
  rw [dispatch, hcmd] at h
  simp only [hreceive] at h
  rw [clientHandler_some stale h]
  rfl

/-- A command at the end of a filled payload is exactly its last piece. -/
theorem lastPiece_filled {k length : ℕ} (hlong : 127 * k ≤ length) {name : Bytes}
    (hname : name.length = (length - 127 * k) % rcvbufSize) :
    lastPiece ((List.replicate (length - name.length) 120 ++ name).drop (127 * k)) = name := by
  have hdiv := Nat.div_add_mod (length - 127 * k) rcvbufSize
  have hlength : ((List.replicate (length - name.length) 120 ++ name).drop (127 * k)).length =
      length - 127 * k := by
    rw [List.length_drop, List.length_append, List.length_replicate]
    omega
  rw [lastPiece, hlength, List.drop_drop]
  apply List.drop_left'
  rw [List.length_replicate]
  omega

/-- A later request that is not part of the payload. -/
def laterUnlink : Bytes := ascii "unlink" ++ 0 :: frames [ascii "x"]

/-- The later request is served as issued. -/
theorem laterUnlink_dispatches :
    (clientHandler stale ⟨laterUnlink, ending⟩).dispatches = [(.unlink, [ascii "x"])] := by
  have hx : NulFree (ascii "x") := by decide
  have hreceive : Command.unlink.receive stale ⟨frames [ascii "x"], ending⟩ =
      ⟨some (.unlink (ascii "x")), ⟨[], ending⟩⟩ := by
    simp only [Command.receive, serverUnlink, frames_cons, frames_nil]
    rw [receiving_frame stale hx _ _ (by decide)]
  rw [laterUnlink, dispatches_handled stale ending (by decide) (by decide)
    (by decide : commandOf (ascii "unlink") = some .unlink) hreceive, clientHandler_nil]
  rfl

/-- A payload that leaves a last piece of a command's length can call a handler, where another
payload of that length calls none. -/
theorem exists_spilled {k length : ℕ} (hk : k ≤ 3) (h : ¬ Contained k length) :
    ∃ d₁ d₂ : Bytes, (NulFree d₁ ∧ d₁.length = length) ∧ (NulFree d₂ ∧ d₂.length = length) ∧
      (clientHandler stale (skip^[k] ⟨d₁ ++ 0 ::
        (frames ([(length : ℤ), 0].map printLu) ++ laterUnlink), ending⟩)).dispatches ≠
      (clientHandler stale (skip^[k] ⟨d₂ ++ 0 ::
        (frames ([(length : ℤ), 0].map printLu) ++ laterUnlink), ending⟩)).dispatches := by
  obtain ⟨hlong, hcommand⟩ := not_or.mp h
  have hcommand := not_not.mp hcommand
  obtain ⟨c, hname, r, tail, hreceive, hpaths⟩ :=
    exists_command stale ending hcommand length 0 (frames [ascii "x"])
  have hreceive : c.receive stale ⟨frames ([(length : ℤ), 0].map printLu) ++ laterUnlink, ending⟩ =
      ⟨some r, tail⟩ := hreceive
  obtain ⟨hfree, -, hshort⟩ := name_framed c
  have hfiller (n : ℕ) : NulFree (List.replicate n 120) := nulFree_replicate (by decide) n
  have hmod := Nat.mod_le (length - 127 * k) rcvbufSize
  have hd₁ : NulFree (List.replicate (length - c.name.length) 120 ++ c.name) :=
    (nulFree_append _ _).mpr ⟨hfiller _, hfree⟩
  have hlen₁ : (List.replicate (length - c.name.length) 120 ++ c.name).length = length := by
    rw [List.length_append, List.length_replicate]
    omega
  have hlen₂ : (List.replicate length (120 : UInt8)).length = length := List.length_replicate
  refine ⟨_, _, ⟨hd₁, hlen₁⟩, ⟨hfiller length, hlen₂⟩, ?_⟩
  have hpiece : commandOf (lastPiece ((List.replicate length 120).drop (127 * k))) = none := by
    rw [lastPiece, List.drop_replicate, List.drop_replicate]
    exact commandOf_replicate _
  rw [dispatches_payload stale ending hk hd₁, dispatches_payload stale ending hk (hfiller length),
    hlen₁, hlen₂, if_neg hlong, if_neg hlong, lastPiece_filled (by omega) hname,
    dispatches_handled stale ending hfree (hshort.trans_lt (by decide)) (commandOf_name c) hreceive,
    dispatches_ignored stale ending (lastPiece_nulFree ((hfiller length).drop _)) (lastPiece_length_lt _)
      hpiece,
    dispatches_numerals, laterUnlink_dispatches, hpaths]
  intro heq
  have hpath : printLu length = ascii "x" := by
    have hpair := congrArg Prod.snd (List.cons.inj heq).1
    exact (List.cons.inj hpair).1
  have hdigit := Decimal.print_isDigit (toSizeT length) 120
    (by rw [printLu] at hpath; rw [hpath]; decide)
  exact absurd hdigit (by decide)

/-- A path that is itself read as a command gives its handler the payload for a path: behind it there are
four strings, the payload, two numerals and the later command. -/
theorem exists_spilled_path {path : Bytes} (hpath : NulFree path) {c : Command}
    (hcmd : commandOf (lastPiece (path.drop 508)) = some c) {length : ℕ} (hlength : length ≠ 0) :
    ∃ d₁ d₂ : Bytes, (NulFree d₁ ∧ d₁.length = length) ∧ (NulFree d₂ ∧ d₂.length = length) ∧
      (clientHandler stale ⟨lastPiece (path.drop 508) ++ 0 :: (d₁ ++ 0 ::
        (frames ([(length : ℤ), 0].map printLu) ++ laterUnlink)), ending⟩).dispatches ≠
      (clientHandler stale ⟨lastPiece (path.drop 508) ++ 0 :: (d₂ ++ 0 ::
        (frames ([(length : ℤ), 0].map printLu) ++ laterUnlink)), ending⟩).dispatches := by
  have hpiece := lastPiece_nulFree (hpath.drop 508)
  have hentry {b : UInt8} (hb : b ≠ 0) : ∃ (r : Request) (p : Bytes) (ps : List Bytes)
      (tail : List (Command × List Bytes)), p.head? = some b ∧ r.paths = p :: ps ∧
      (clientHandler stale ⟨lastPiece (path.drop 508) ++ 0 :: (List.replicate length b ++ 0 ::
        (frames ([(length : ℤ), 0].map printLu) ++ laterUnlink)), ending⟩).dispatches =
      (r.command, r.paths) :: tail := by
    have hfree := nulFree_replicate hb length
    have hne : List.replicate length b ≠ [] := by simpa using hlength
    have hstrings : ∀ t ∈ [printLu length, printLu 0, ascii "unlink"], NulFree t := by
      simp [printLu_nulFree]
      decide
    obtain ⟨r, tail, p, ps, hreceive, hpaths, hhead⟩ :=
      receive_first stale ending c hfree hne hstrings (by simp) (frames [ascii "x"])
    have hhead : p.head? = some b := by
      rw [hhead, List.head?_replicate, if_neg hlength]
    have hreceive : c.receive stale ⟨List.replicate length b ++ 0 ::
        (frames ([(length : ℤ), 0].map printLu) ++ laterUnlink), ending⟩ = ⟨some r, tail⟩ := by
      simpa [laterUnlink] using hreceive
    exact ⟨r, p, ps, _, hhead, hpaths,
      dispatches_handled stale ending hpiece (lastPiece_length_lt _) hcmd hreceive⟩
  obtain ⟨r₁, p₁, ps₁, tail₁, hhead₁, hpaths₁, hrun₁⟩ := hentry (by decide : (120 : UInt8) ≠ 0)
  obtain ⟨r₂, p₂, ps₂, tail₂, hhead₂, hpaths₂, hrun₂⟩ := hentry (by decide : (121 : UInt8) ≠ 0)
  refine ⟨List.replicate length 120, List.replicate length 121,
    ⟨nulFree_replicate (by decide) length, List.length_replicate⟩,
    ⟨nulFree_replicate (by decide) length, List.length_replicate⟩, ?_⟩
  rw [hrun₁, hrun₂, hpaths₁, hpaths₂]
  intro heq
  have hpair := congrArg Prod.snd (List.cons.inj heq).1
  have hp : p₁ = p₂ := (List.cons.inj hpair).1
  rw [hp, hhead₂] at hhead₁
  exact absurd hhead₁ (by decide)

/-- With a short path, what a payload holds beyond 381 bytes stands at the command position. -/
theorem dispatches_spill {path filler spill : Bytes} (hpath : NulFree path)
    (hlen : path.length < 127) (hfiller : NulFree filler) (hfull : filler.length = 381)
    (hspill : NulFree spill) (hshort : spill.length < rcvbufSize) (size : ℕ) (offset : ℤ)
    (rest : Bytes) :
    (clientHandler stale ⟨(Request.write path (filler ++ spill) size offset).wire ++ rest,
        ending⟩).dispatches =
      (.write, [path]) :: (clientHandler stale ⟨spill ++ 0 ::
        (frames ([(size : ℤ), offset].map printLu) ++ rest), ending⟩).dispatches := by
  have hdata : NulFree (filler ++ spill) := (nulFree_append _ _).mpr ⟨hfiller, hspill⟩
  have hlong : ¬ (filler ++ spill).length < 127 * 3 := by
    rw [List.length_append, hfull]
    omega
  have hdrop : (filler ++ spill).drop (127 * 3) = spill := List.drop_left' hfull
  have hpiece : lastPiece spill = spill := by
    rw [lastPiece, Nat.div_eq_of_lt hshort]
    rfl
  have hargument (t : Bytes) : argument stale ⟨path ++ 0 :: t, ending⟩ = path :=
    argument_frame stale ending hpath hlen t
  rw [dispatches_write stale ending hpath hdata, hargument, skip_path stale ending hpath,
    if_pos (by omega), Nat.div_eq_of_lt hlen, Nat.sub_zero,
    dispatches_payload stale ending le_rfl hdata, if_neg hlong, hdrop, hpiece]

end

end Udtfs

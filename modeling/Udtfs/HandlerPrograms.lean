import Udtfs.ReturnValues
import Udtfs.Replies

/-!
# Handlers as programs

A handler of the server receives its arguments and then makes system and library calls in a fixed
order, with the pointer that `fopen` returned handed on unchecked. As programs the handlers show every
call they make, whatever the calls before it resulted in; run against the files they come to what the
requests do as a whole.
-/

namespace Udtfs

open NulString Content

/-! ## Programs -/

/-- A `FILE*`: the null pointer, or a file opened at a location. -/
abbrev FilePtr := Option Path

/-- The calls of the handlers besides `recv_str`. -/
inductive ServerCall where
  /-- `opendir`, with the entries that `readdir` returns one by one. -/
  | opendir (path : Bytes)
  | stat (path : Bytes)
  /-- A string and its terminator go to the TCP socket. -/
  | send (s : Bytes)
  | system (command : Bytes)
  | unlink (path : Bytes)
  | rename (path newpath : Bytes)
  | truncate (path : Bytes) (newsize : ℤ)
  | fopen (path mode : Bytes)
  | fputs (data : Bytes) (file : FilePtr)
  | fclose (file : FilePtr)
  /-- `UDT::sendfile` from a `FILE*`. -/
  | sendfile (file : FilePtr) (offset size : ℤ)
  /-- `UDT::sendfile` from `/dev/zero`. -/
  | sendzeros (size : ℤ)

/-- What a call returns, as far as the handlers look at it. -/
abbrev ServerCall.Result : ServerCall → Type
  | .opendir _ => Option (List Bytes)
  | .stat _ => Option Stat
  | .unlink _ | .truncate _ _ | .sendfile _ _ _ => ℤ
  | .fopen _ _ => FilePtr
  | .send _ | .system _ | .rename _ _ | .fputs _ _ | .fclose _ | .sendzeros _ => Unit

/-- The `FILE*` that a call is given. -/
def ServerCall.file : ServerCall → Option FilePtr
  | .fputs _ file | .fclose file | .sendfile file _ _ => some file
  | _ => none

/-- A handler, or what is left of it. -/
inductive Handler where
  | ret (value : ℤ)
  /-- `recv_str`, with its result and the string in the buffer. -/
  | recvStr (maxlen : ℕ) (next : ℤ → Bytes → Handler)
  | call (c : ServerCall) (next : c.Result → Handler)

namespace Handler

/-- Receive one argument or give up: `if (n <= 0) return -1`. -/
def receive (maxlen : ℕ) (next : Bytes → Handler) : Handler :=
  recvStr maxlen fun n str => if n ≤ 0 then ret (-1) else next str

/-- The same where the result is kept in a `size_t`. -/
def receiveSizeT (maxlen : ℕ) (next : Bytes → Handler) : Handler :=
  recvStr maxlen fun n str => if toSizeT n ≤ 0 then ret (-1) else next str

/-- Sends whose results nobody looks at. -/
def sendAll : List Bytes → Handler → Handler
  | [], next => next
  | s :: strings, next => call (.send s) fun _ => sendAll strings next

end Handler

/-- What the handler of a request does once it has its arguments. -/
def Request.acting : Request → Handler
  | .dir path =>
    .call (.opendir (pathToLocal path)) fun dir =>
      match dir with
      | none => .sendAll [reservedStrTerm] (.ret (-1))
      | some entries =>
        .sendAll (entries.filter fun name => name ≠ ascii ".." ∧ name ≠ ascii ".") <|
        .sendAll [reservedStrTerm] (.ret 0)
  | .getattr path =>
    .call (.stat (pathToLocal path)) fun statbuf =>
      match statbuf with
      | none => .sendAll [reservedStrTerm] (.ret (-1))
      | some st => .sendAll (st.values.map printLu) (.ret 0)
  | .read filename offset len =>
    .call (.fopen filename (ascii "rb")) fun file =>
    .call (.sendfile file offset (toInt64 len)) fun (sent : ℤ) =>
    .call (.fclose file) fun _ =>
      if sent < 0 then .ret (-1) else
      if toSizeT sent < len then .call (.sendzeros (toInt64 (len - sent))) fun _ => .ret 0
      else .ret 0
  | .truncate path newsize => .call (.truncate path newsize) fun (ret : ℤ) => .ret ret
  | .write path data _ _ =>
    .call (.fopen path (ascii "a")) fun fp =>
    .call (.fputs data fp) fun _ =>
    .call (.fclose fp) fun _ => .ret 0
  | .rename path newpath =>
    .call (.rename (pathToLocal path) (pathToLocal newpath)) fun _ => .ret 0
  | .unlink path => .call (.unlink (pathToLocal path)) fun (ret : ℤ) => .ret ret
  | .utime path =>
    .call (.system ((ascii "touch " ++ pathToLocal path).take 255)) fun _ => .ret 0

namespace Handler

/-- `server_senddir`. -/
def serverSenddir : Handler :=
  receive (mMaxPath + mMaxFile - 1) fun str => (Request.dir str).acting

/-- `server_sendattr`. -/
def serverSendattr : Handler :=
  receive (mMaxPath + mMaxFile - 1) fun pathstr => (Request.getattr pathstr).acting

/-- `server_sendsegment`. -/
def serverSendsegment : Handler :=
  receiveSizeT (mMaxVal - 1) fun filename =>
  receiveSizeT (mMaxVal - 1) fun info =>
  let offset := atoll info
  receiveSizeT (mMaxVal - 1) fun info =>
  let len := toSizeT (atoll info)
  (Request.read filename offset len).acting

/-- `server_truncate`. -/
def serverTruncate : Handler :=
  receive (mMaxVal - 1) fun path =>
  receive (mMaxVal - 1) fun info =>
  (Request.truncate path (atoll info)).acting

/-- `server_write`. -/
def serverWrite : Handler :=
  receive (mMaxVal - 1) fun path =>
  receive (mMaxVal - 1) fun data =>
  receive (mMaxVal - 1) fun info =>
  let size := toSizeT (atoll info)
  receive (mMaxVal - 1) fun info =>
  let offset := atoll info
  (Request.write path data size offset).acting

/-- `server_rename`. -/
def serverRename : Handler :=
  receive (mMaxVal - 1) fun path =>
  receive (mMaxVal - 1) fun newpath =>
  (Request.rename path newpath).acting

/-- `server_unlink`. -/
def serverUnlink : Handler :=
  receive (mMaxVal - 1) fun path => (Request.unlink path).acting

/-- `server_utime`. -/
def serverUtime : Handler :=
  receive (mMaxVal - 1) fun path => (Request.utime path).acting

end Handler

/-- The handler called for a command, as a program. -/
def Command.program : Command → Handler
  | .dir => .serverSenddir
  | .getattr => .serverSendattr
  | .read => .serverSendsegment
  | .truncate => .serverTruncate
  | .write => .serverWrite
  | .rename => .serverRename
  | .unlink => .serverUnlink
  | .utime => .serverUtime

/-! ## Runs -/

/-- What one call of `recv_str` hands to a handler, with what is left of the stream. -/
structure Receipt (τ : Type*) where
  ret : ℤ
  string : Bytes
  rest : τ

/-- The outcome of a handler. -/
structure Handling (σ τ : Type*) where
  /-- The results of `recv_str` in order. -/
  receives : List ℤ
  /-- The other calls in order. -/
  calls : List ServerCall
  /-- The return value, unless a call has ended the process. -/
  ret : Option ℤ
  /-- What the calls have acted on. -/
  state : σ
  rest : τ

section
variable {σ τ : Type*}

/-- The outcome with a result of `recv_str` in front. -/
def Handling.received (h : Handling σ τ) (n : ℤ) : Handling σ τ :=
  { h with receives := n :: h.receives }

/-- The outcome with a call in front. -/
def Handling.called (h : Handling σ τ) (c : ServerCall) : Handling σ τ := { h with calls := c :: h.calls }

variable (receipt : τ → ℕ → Receipt τ) (perform : σ → (c : ServerCall) → Option (c.Result × σ))

/-- Run a handler on a stream. `perform` is the effect of a call, which may end the process. -/
def Handler.run : Handler → σ → τ → Handling σ τ
  | .ret value, st, s => ⟨[], [], some value, st, s⟩
  | .recvStr maxlen next, st, s =>
    let r := receipt s maxlen
    ((next r.ret r.string).run st r.rest).received r.ret
  | .call c next, st, s =>
    match perform st c with
    | none => ⟨[], [c], none, st, s⟩
    | some (result, st') => ((next result).run st' s).called c

/-- A receive is followed by what the handler does with its result. -/
theorem Handler.run_recvStr (maxlen : ℕ) (next : ℤ → Bytes → Handler) (st : σ) (s : τ) :
    (Handler.recvStr maxlen next).run receipt perform st s =
      ((next (receipt s maxlen).ret (receipt s maxlen).string).run receipt perform st
        (receipt s maxlen).rest).received (receipt s maxlen).ret := rfl

/-- A call that returns is followed by what the handler does with its result. -/
theorem Handler.run_call {c : ServerCall} {st st' : σ} {result : c.Result}
    (h : perform st c = some (result, st')) (next : c.Result → Handler) (s : τ) :
    (Handler.call c next).run receipt perform st s =
      ((next result).run receipt perform st' s).called c := by
  rw [Handler.run, h]

/-- Nothing follows a call that ends the process. -/
theorem Handler.run_call_none {c : ServerCall} {st : σ} (h : perform st c = none)
    (next : c.Result → Handler) (s : τ) :
    (Handler.call c next).run receipt perform st s = ⟨[], [c], none, st, s⟩ := by
  rw [Handler.run, h]

/-- A handler gives up when a receive fails. -/
theorem Handler.run_receive_failed {maxlen : ℕ} {s : τ} (h : (receipt s maxlen).ret ≤ 0)
    (next : Bytes → Handler) (st : σ) :
    (Handler.receive maxlen next).run receipt perform st s =
      ⟨[(receipt s maxlen).ret], [], some (-1), st, (receipt s maxlen).rest⟩ := by
  rw [Handler.receive, Handler.run_recvStr, if_pos h]
  rfl

/-- It goes on with the argument when the receive succeeds. -/
theorem Handler.run_receive_done {maxlen : ℕ} {s : τ} (h : ¬ (receipt s maxlen).ret ≤ 0)
    (next : Bytes → Handler) (st : σ) :
    (Handler.receive maxlen next).run receipt perform st s =
      ((next (receipt s maxlen).string).run receipt perform st (receipt s maxlen).rest).received
        (receipt s maxlen).ret := by
  rw [Handler.receive, Handler.run_recvStr, if_neg h]

/-- In a `size_t` only zero is a failure. -/
theorem Handler.run_receiveSizeT_failed {maxlen : ℕ} {s : τ}
    (h : toSizeT (receipt s maxlen).ret ≤ 0) (next : Bytes → Handler) (st : σ) :
    (Handler.receiveSizeT maxlen next).run receipt perform st s =
      ⟨[(receipt s maxlen).ret], [], some (-1), st, (receipt s maxlen).rest⟩ := by
  rw [Handler.receiveSizeT, Handler.run_recvStr, if_pos h]
  rfl

/-- Every other result is taken for success. -/
theorem Handler.run_receiveSizeT_done {maxlen : ℕ} {s : τ}
    (h : ¬ toSizeT (receipt s maxlen).ret ≤ 0) (next : Bytes → Handler) (st : σ) :
    (Handler.receiveSizeT maxlen next).run receipt perform st s =
      ((next (receipt s maxlen).string).run receipt perform st (receipt s maxlen).rest).received
        (receipt s maxlen).ret := by
  rw [Handler.receiveSizeT, Handler.run_recvStr, if_neg h]

/-- No receive is left. -/
def Handler.CallsOnly : Handler → Prop
  | .ret _ => True
  | .recvStr _ _ => False
  | .call _ next => ∀ result, (next result).CallsOnly

/-- Sends receive nothing. -/
theorem Handler.callsOnly_sendAll (strings : List Bytes) {next : Handler} (h : next.CallsOnly) :
    (sendAll strings next).CallsOnly := by
  induction strings with
  | nil => exact h
  | cons s strings ih => exact fun _ => ih

/-- Once it has its arguments, a handler receives nothing more. -/
theorem Request.callsOnly_acting (r : Request) : r.acting.CallsOnly := by
  cases r with
  | dir path =>
    intro dir
    cases dir with
    | none => exact Handler.callsOnly_sendAll _ trivial
    | some entries => exact Handler.callsOnly_sendAll _ (Handler.callsOnly_sendAll _ trivial)
  | getattr path =>
    intro statbuf
    cases statbuf <;> exact Handler.callsOnly_sendAll _ trivial
  | read filename offset len =>
    intro file sent _
    dsimp only
    split
    · trivial
    · split
      · exact fun _ => trivial
      · trivial
  | truncate | unlink => exact fun _ => trivial
  | write => exact fun _ _ _ => trivial
  | rename | utime => exact fun _ => trivial

/-- Calls leave the stream as it is. -/
theorem Handler.CallsOnly.run {h : Handler} (hcalls : h.CallsOnly) (st : σ) (s : τ) :
    (h.run receipt perform st s).receives = [] ∧ (h.run receipt perform st s).rest = s := by
  induction h generalizing st with
  | ret value => exact ⟨rfl, rfl⟩
  | recvStr => exact hcalls.elim
  | call c next ih =>
    rw [Handler.run]
    cases hperform : perform st c with
    | none => exact ⟨rfl, rfl⟩
    | some performed => exact ih performed.1 (hcalls performed.1) performed.2

/-- The first call is made. -/
theorem Handler.calls_run_call (c : ServerCall) (next : c.Result → Handler) (st : σ) (s : τ) :
    ∃ later, ((Handler.call c next).run receipt perform st s).calls = c :: later := by
  rw [Handler.run]
  cases perform st c <;> exact ⟨_, rfl⟩

end

/-! ## Programs and receiving parts -/

section
variable {σ : Type*} (stale : ℕ → Bytes) (perform : σ → (c : ServerCall) → Option (c.Result × σ))

/-- `recv_str` on the TCP stream. -/
def TcpStream.receipt (s : TcpStream) (maxlen : ℕ) : Receipt TcpStream :=
  let r := recvStr s maxlen
  ⟨r.ret, r.string (stale r.rest.bytes.length), r.rest⟩

/-- The outcome apart from the results of the receives. -/
def Handling.effect {τ : Type*} (h : Handling σ τ) : Handling σ τ := { h with receives := [] }

/-- What is left to do when the arguments have been received, or have not. -/
def Received.handling (st : σ) : Received → Handling σ TcpStream
  | ⟨some r, rest⟩ => r.acting.run (TcpStream.receipt stale) perform st rest
  | ⟨none, rest⟩ => ⟨[], [], some (-1), st, rest⟩

variable {stale perform} in
/-- A receive in a program is the receive of the same argument. -/
theorem Handler.run_receive {next : Bytes → Handler} {next' : Bytes → TcpStream → Received} {st : σ}
    (h : ∀ string rest, ((next string).run (TcpStream.receipt stale) perform st rest).effect =
      (next' string rest).handling stale perform st) (maxlen : ℕ) (s : TcpStream) :
    ((Handler.receive maxlen next).run (TcpStream.receipt stale) perform st s).effect =
      (receiving stale maxlen s next').handling stale perform st := by
  by_cases hret : (Udtfs.recvStr s maxlen).ret ≤ 0
  · rw [Handler.run_receive_failed _ _ (by exact hret), receiving, if_pos hret]
    rfl
  · rw [Handler.run_receive_done _ _ (by exact hret), receiving, if_neg hret]
    exact h _ _

variable {stale perform} in
/-- The same for a receive whose result is kept in a `size_t`. -/
theorem Handler.run_receiveSizeT {next : Bytes → Handler} {next' : Bytes → TcpStream → Received} {st : σ}
    (h : ∀ string rest, ((next string).run (TcpStream.receipt stale) perform st rest).effect =
      (next' string rest).handling stale perform st) (maxlen : ℕ) (s : TcpStream) :
    ((Handler.receiveSizeT maxlen next).run (TcpStream.receipt stale) perform st s).effect =
      (receivingSizeT stale maxlen s next').handling stale perform st := by
  by_cases hret : toSizeT (Udtfs.recvStr s maxlen).ret ≤ 0
  · rw [Handler.run_receiveSizeT_failed _ _ (by exact hret), receivingSizeT, if_pos hret]
    rfl
  · rw [Handler.run_receiveSizeT_done _ _ (by exact hret), receivingSizeT, if_neg hret]
    exact h _ _

/-- The calls of a request are what is left to do when it has been received. -/
theorem Request.run_acting (r : Request) (st : σ) (rest : TcpStream) :
    (r.acting.run (TcpStream.receipt stale) perform st rest).effect =
      Received.handling stale perform st ⟨some r, rest⟩ := by
  have hnone := (r.callsOnly_acting.run (TcpStream.receipt stale) perform st rest).1
  rw [Handling.effect, Received.handling, ← hnone]

/-- **Programs receive as the handlers do.** The program of a command makes exactly the calls of the
request that its handler receives, and none if it receives no request. -/
theorem Command.run_program (c : Command) (st : σ) (s : TcpStream) :
    (c.program.run (TcpStream.receipt stale) perform st s).effect =
      (c.receive stale s).handling stale perform st := by
  have hacting (r : Request) (rest : TcpStream) := r.run_acting stale perform st rest
  cases c with
  | dir | getattr | unlink | utime =>
    exact Handler.run_receive (fun _ rest => hacting _ rest) _ s
  | truncate | rename =>
    exact Handler.run_receive (fun _ => Handler.run_receive (fun _ rest => hacting _ rest) _) _ s
  | write =>
    exact Handler.run_receive (fun _ => Handler.run_receive (fun _ =>
      Handler.run_receive (fun _ => Handler.run_receive (fun _ rest => hacting _ rest) _) _) _) _ s
  | read =>
    exact Handler.run_receiveSizeT (fun _ => Handler.run_receiveSizeT (fun _ =>
      Handler.run_receiveSizeT (fun _ rest => hacting _ rest) _) _) _ s

end

/-! ## The calls on the shared files -/

/-- The calls by which the handlers use files, whatever operating system answers them. -/
structure FileLibrary (σ : Type*) where
  opendir : σ → Bytes → Option (List Bytes)
  stat : σ → Bytes → Option Stat
  system : σ → Bytes → σ
  unlink : σ → Bytes → ℤ × σ
  rename : σ → Bytes → Bytes → σ
  truncate : σ → Bytes → ℤ → ℤ × σ
  fopen : σ → Bytes → Bytes → FilePtr × σ
  fputs : σ → Path → Bytes → σ
  fclose : σ → Path → σ
  /-- The bytes that `UDT::sendfile` reads from an open file and sends: no more than asked for. -/
  sent : σ → Path → ℤ → ℤ → Bytes
  sent_le : ∀ fs loc offset size, (sent fs loc offset size).length ≤ size.toNat

/-- The calls of a handler on files and on the two connections. A null pointer ends the process, except
that `UDT::sendfile` does not look at the pointer if there is nothing to send. -/
def FileLibrary.perform {σ : Type*} (lib : FileLibrary σ) (a : Outcome σ) :
    (c : ServerCall) → Option (c.Result × Outcome σ)
  | .opendir path => some (lib.opendir a.fs path, a)
  | .stat path => some (lib.stat a.fs path, a)
  | .send s => some ((), { a with tcp := a.tcp ++ frames [s] })
  | .system command => some ((), { a with fs := lib.system a.fs command })
  | .unlink path => some ((lib.unlink a.fs path).1, { a with fs := (lib.unlink a.fs path).2 })
  | .rename path newpath => some ((), { a with fs := lib.rename a.fs path newpath })
  | .truncate path newsize =>
    some ((lib.truncate a.fs path newsize).1, { a with fs := (lib.truncate a.fs path newsize).2 })
  | .fopen path mode =>
    some ((lib.fopen a.fs path mode).1, { a with fs := (lib.fopen a.fs path mode).2 })
  | .fputs data (some loc) => some ((), { a with fs := lib.fputs a.fs loc data })
  | .fputs _ none => none
  | .fclose (some loc) => some ((), { a with fs := lib.fclose a.fs loc })
  | .fclose none => none
  | .sendfile (some loc) offset size =>
    some (((lib.sent a.fs loc offset size).length : ℤ),
      { a with udt := a.udt ++ lib.sent a.fs loc offset size })
  | .sendfile none _ size => if size ≤ 0 then some ((0 : ℤ), a) else none
  | .sendzeros size => some ((), { a with udt := a.udt ++ List.replicate size.toNat 0 })

/-- The value by which a system call reports success or failure. -/
def callResult (ok : Bool) : ℤ := if ok then 0 else -1

namespace ServerFs

/-- `fopen` in the modes of the handlers. -/
def fopen (fs : ServerFs) (path mode : Bytes) : FilePtr × ServerFs :=
  if mode = ascii "a" then
    match fs.fopenAppend path [] with
    | some created => (some (resolve fs.cwd path), created)
    | none => (none, fs)
  else ((fs.fopenRead path).map fun _ => resolve fs.cwd path, fs)

/-- `fputs` to the file open at a location. -/
def appendAt (fs : ServerFs) (loc : Path) (data : Bytes) : ServerFs :=
  match fs.node loc with
  | some (.file f) => fs.setNode loc (some (.file { f with content := fs.appended f.content data }))
  | _ => fs

/-- The bytes that `UDT::sendfile` takes from an open file. -/
def sent (fs : ServerFs) (loc : Path) (offset size : ℤ) : Bytes :=
  udtSendfile ((fs.contentAt loc).getD []) offset size

/-- No more is taken than asked for. -/
theorem sent_length_le (fs : ServerFs) (loc : Path) (offset size : ℤ) :
    (fs.sent loc offset size).length ≤ size.toNat := udtSendfile_length_le _ offset size

/-- The calls on the shared tree. -/
def library (shell : Bytes → ServerFs → ServerFs) : FileLibrary ServerFs where
  opendir := opendir
  stat := stat
  system fs command := shell command fs
  unlink fs path := (callResult (fs.mayUnlink path), fs.unlink path)
  rename := rename
  truncate fs path newsize := (callResult (fs.mayTruncate path newsize), fs.truncate path newsize)
  fopen := fopen
  fputs := appendAt
  fclose fs _ := fs
  sent := sent
  sent_le := sent_length_le

end ServerFs

/-- The calls of a handler on the shared tree and on the two connections. -/
def Answer.perform (shell : Bytes → ServerFs → ServerFs) (a : Answer) (c : ServerCall) :
    Option (c.Result × Answer) :=
  (ServerFs.library shell).perform a c

namespace ServerFs

/-- The last change of a location counts. -/
theorem setNode_setNode (fs : ServerFs) (loc : Path) (first second : Option Node) :
    (fs.setNode loc first).setNode loc second = fs.setNode loc second := by
  simp only [setNode, Function.update_idem]

/-- Changes of different locations are independent. -/
theorem setNode_comm (fs : ServerFs) {loc other : Path} (h : loc ≠ other) (first second : Option Node) :
    (fs.setNode loc first).setNode other second = (fs.setNode other second).setNode loc first := by
  simp only [setNode, Function.update_comm h]

/-- Names in a directory that can be changed belong to a directory elsewhere. -/
theorem parent_of_parentWritable {fs : ServerFs} {loc : Path} (h : fs.parentWritable loc = true) :
    loc.dropLast ≠ loc ∧ ∃ d, fs.node loc.dropLast = some (.directory d) := by
  rw [parentWritable, Bool.and_eq_true, decide_eq_true_eq] at h
  obtain ⟨hne, hparent⟩ := h
  refine ⟨fun heq => ?_, ?_⟩
  · have hlength := congrArg List.length heq
    have hpos := List.length_pos_of_ne_nil hne
    rw [List.length_dropLast] at hlength
    omega
  · cases hnode : fs.node loc.dropLast with
    | none => simp [hnode] at hparent
    | some node =>
      cases node with
      | file f => simp [hnode] at hparent
      | directory d => exact ⟨d, rfl⟩

/-- The entries of a directory that is there are changed. -/
theorem modifyEntries_directory {fs : ServerFs} {dir : Path} {d : Directory}
    (h : fs.node dir = some (.directory d)) (change : List Bytes → List Bytes) :
    fs.modifyEntries dir change =
      fs.setNode dir (some (.directory { d with entries := change d.entries })) := by
  rw [modifyEntries, h]

/-- Data go to the file at the location. -/
theorem appendAt_file {fs : ServerFs} {loc : Path} {f : File} (h : fs.node loc = some (.file f))
    (data : Bytes) :
    fs.appendAt loc data =
      fs.setNode loc (some (.file { f with content := fs.appended f.content data })) := by
  rw [appendAt, h]

/-- Nothing is appended. -/
theorem appended_nil (fs : ServerFs) (content : Bytes) : fs.appended content [] = content := by
  rw [appended, List.take_nil, List.append_nil]

/-- A file opened for appending and then written to has the data appended. -/
theorem fopenAppend_nil (fs : ServerFs) (path data : Bytes) :
    fs.fopenAppend path data =
      (fs.fopenAppend path []).map fun fs' => fs'.appendAt (resolve fs.cwd path) data := by
  unfold fopenAppend
  dsimp only
  cases fs.lookup path with
  | none =>
    dsimp only
    split
    · next hcreate =>
      obtain ⟨hne, d, hparent⟩ := parent_of_parentWritable hcreate.2
      have hcreated (content : Bytes) := modifyEntries_directory
        ((setNode_ne fs hne (some (.file ⟨content, true, true, true, true, fs.fresh⟩))).trans hparent)
        (· ++ (resolve fs.cwd path).getLast?.toList)
      rw [Option.map_some, hcreated, hcreated, appended_nil,
        appendAt_file ((setNode_ne _ hne.symm _).trans (setNode_self fs _ _)),
        setNode_comm _ hne.symm, setNode_comm _ hne.symm, setNode_setNode]
      rfl
    · rfl
  | some node =>
    cases node with
    | directory d => rfl
    | file f =>
      dsimp only
      split
      · rw [Option.map_some, appendAt_file (setNode_self fs _ _), setNode_setNode, appended_nil]
        rfl
      · rfl

end ServerFs

section
variable {τ : Type*}

/-- What a program comes to unless it ends the process. -/
def Handling.answer (h : Handling Answer τ) : Option Answer := h.ret.map fun _ => h.state

variable (receipt : τ → ℕ → Receipt τ) (shell : Bytes → ServerFs → ServerFs)

/-- Strings that are sent one by one are on the stream one behind the other. -/
theorem Handler.answer_sendAll (strings : List Bytes) (next : Handler) (a : Answer) (s : τ) :
    ((sendAll strings next).run receipt (Answer.perform shell) a s).answer =
      (next.run receipt (Answer.perform shell) { a with tcp := a.tcp ++ frames strings } s).answer := by
  induction strings generalizing a with
  | nil =>
    rw [frames_nil, List.append_nil]
    rfl
  | cons s' strings ih =>
    have hframes : a.tcp ++ frames (s' :: strings) = (a.tcp ++ frames [s']) ++ frames strings := by
      simp
    rw [hframes]
    exact ih { a with tcp := a.tcp ++ frames [s'] }

/-- What can be read from an opened file is at its location. -/
theorem ServerFs.contentAt_of_fopenRead {fs : ServerFs} {path content : Bytes}
    (h : fs.fopenRead path = some content) :
    (fs.contentAt (resolve fs.cwd path)).getD [] = content := by
  unfold fopenRead at h
  cases hnode : fs.lookup path with
  | none => rw [hnode] at h; contradiction
  | some node =>
    rw [hnode] at h
    rw [contentAt, node_of_lookup hnode]
    cases node <;>
    · dsimp only at h ⊢
      split at h
      · exact Option.some.inj h
      · contradiction

section
variable {shell} {a : Answer} {loc : Path} {offset size : ℤ}

/-- A directory is listed from the tree. -/
theorem Answer.perform_opendir {path : Bytes} :
    Answer.perform shell a (.opendir path) = some (a.fs.opendir path, a) := rfl

/-- Attributes come from the tree. -/
theorem Answer.perform_stat {path : Bytes} :
    Answer.perform shell a (.stat path) = some (a.fs.stat path, a) := rfl

/-- A file is opened in the tree, which may create it. -/
theorem Answer.perform_fopen {path mode : Bytes} {file : FilePtr} {fs : ServerFs}
    (h : a.fs.fopen path mode = (file, fs)) :
    Answer.perform shell a (.fopen path mode) = some (file, { a with fs := fs }) := by
  have hopened : Answer.perform shell a (.fopen path mode) =
      some ((a.fs.fopen path mode).1, { a with fs := (a.fs.fopen path mode).2 }) := rfl
  rw [hopened, h]

/-- Closing an open file changes nothing. -/
theorem Answer.perform_fclose : Answer.perform shell a (.fclose (some loc)) = some ((), a) := rfl

/-- The bytes of an open file go to the UDT connection. -/
theorem Answer.perform_sendfile {data : Bytes} (h : a.fs.sent loc offset size = data) :
    Answer.perform shell a (.sendfile (some loc) offset size) =
      some ((data.length : ℤ), { a with udt := a.udt ++ data }) := by
  rw [← h]
  rfl

end

section
variable {fs : ServerFs} {filename path data : Bytes} {offset : ℤ} {len size : ℕ}

/-- A read of a file that can be opened sends its segment. -/
theorem Request.answer_read_some {content : Bytes} (h : fs.fopenRead filename = some content) (s : τ) :
    ((Request.read filename offset len).acting.run receipt (Answer.perform shell)
        ⟨fs, [], []⟩ s).answer = some ⟨fs, [], sendsegmentReply content offset len⟩ := by
  have hfopen : fs.fopen filename (ascii "rb") = (some (resolve fs.cwd filename), fs) := by
    rw [ServerFs.fopen, if_neg (by decide), h, Option.map_some]
  have hint : toInt64 len < 2 ^ 63 := by
    rw [toInt64, toSigned]
    omega
  rw [Request.acting, sendsegmentReply]
  generalize toInt64 len = size at hint
  have hsent : fs.sent (resolve fs.cwd filename) offset size = udtSendfile content offset size := by
    rw [ServerFs.sent, ServerFs.contentAt_of_fopenRead h]
  have hlength : toSizeT (udtSendfile content offset size).length =
      (udtSendfile content offset size).length := by
    have hle := udtSendfile_length_le content offset size
    exact toSizeT_natCast (by omega)
  rw [Handler.run_call receipt (Answer.perform shell) (Answer.perform_fopen hfopen),
    Handler.run_call receipt (Answer.perform shell) (Answer.perform_sendfile hsent),
    Handler.run_call receipt (Answer.perform shell) Answer.perform_fclose]
  generalize udtSendfile content offset size = sent at hlength ⊢
  rw [if_neg (by omega), hlength, List.nil_append]
  by_cases hshort : sent.length < len
  · rw [if_pos hshort, if_pos hshort, Int.natCast_sub hshort.le]
    rfl
  · rw [if_neg hshort, if_neg hshort]
    rfl

/-- A read of a file that cannot be opened ends the process over the null pointer. -/
theorem Request.answer_read_none (h : fs.fopenRead filename = none) (s : τ) :
    ((Request.read filename offset len).acting.run receipt (Answer.perform shell)
        ⟨fs, [], []⟩ s).answer = none := by
  have hfopen : fs.fopen filename (ascii "rb") = (none, fs) := by
    rw [ServerFs.fopen, if_neg (by decide), h, Option.map_none]
  rw [Request.acting, Handler.run_call receipt (Answer.perform shell) (Answer.perform_fopen hfopen)]
  generalize toInt64 len = size
  by_cases hsize : size ≤ 0
  · have hsendfile : Answer.perform shell ⟨fs, [], []⟩ (.sendfile none offset size) =
        some ((0 : ℤ), ⟨fs, [], []⟩) := if_pos hsize
    rw [Handler.run_call receipt (Answer.perform shell) hsendfile]
    rfl
  · have hsendfile : Answer.perform shell ⟨fs, [], []⟩ (.sendfile none offset size) = none :=
      if_neg hsize
    rw [Handler.run_call_none receipt (Answer.perform shell) hsendfile]
    rfl

/-- A write to a file that can be opened appends the data. -/
theorem Request.answer_write_some {fs' : ServerFs} (h : fs.fopenAppend path data = some fs') (s : τ) :
    ((Request.write path data size offset).acting.run receipt (Answer.perform shell)
        ⟨fs, [], []⟩ s).answer = some ⟨fs', [], []⟩ := by
  rw [ServerFs.fopenAppend_nil] at h
  obtain ⟨opened, hopened, rfl⟩ := Option.map_eq_some_iff.mp h
  have hfopen : fs.fopen path (ascii "a") = (some (resolve fs.cwd path), opened) := by
    rw [ServerFs.fopen, if_pos rfl, hopened]
  rw [Request.acting, Handler.run_call receipt (Answer.perform shell) (Answer.perform_fopen hfopen)]
  rfl

/-- A write to a file that cannot be opened ends the process over the null pointer. -/
theorem Request.answer_write_none (h : fs.fopenAppend path data = none) (s : τ) :
    ((Request.write path data size offset).acting.run receipt (Answer.perform shell)
        ⟨fs, [], []⟩ s).answer = none := by
  rw [ServerFs.fopenAppend_nil] at h
  have hfopen : fs.fopen path (ascii "a") = (none, fs) := by
    rw [ServerFs.fopen, if_pos rfl, Option.map_eq_none_iff.mp h]
  rw [Request.acting, Handler.run_call receipt (Answer.perform shell) (Answer.perform_fopen hfopen),
    Handler.run_call_none receipt (Answer.perform shell) rfl]
  rfl

end

/-- **Programs act as the requests do.** The calls of a request on the shared files come to its
answer, and to none if they use a null pointer. -/
theorem Request.answer_acting (r : Request) (fs : ServerFs) (s : τ) :
    (r.acting.run receipt (Answer.perform shell) ⟨fs, [], []⟩ s).answer = fs.act shell r := by
  cases r with
  | dir path =>
    rw [Request.acting, Handler.run_call receipt (Answer.perform shell) Answer.perform_opendir,
      ServerFs.act]
    cases fs.opendir (pathToLocal path) with
    | none => exact Handler.answer_sendAll receipt shell _ _ _ s
    | some entries =>
      refine (Handler.answer_sendAll receipt shell _ _ _ s).trans ?_
      refine (Handler.answer_sendAll receipt shell _ _ _ s).trans ?_
      rw [senddirReply, frames_append]
      rfl
  | getattr path =>
    rw [Request.acting, Handler.run_call receipt (Answer.perform shell) Answer.perform_stat,
      ServerFs.act]
    cases fs.stat (pathToLocal path) with
    | none => exact Handler.answer_sendAll receipt shell _ _ _ s
    | some st => exact Handler.answer_sendAll receipt shell _ _ _ s
  | read filename offset len =>
    cases h : fs.fopenRead filename with
    | none => rw [Request.answer_read_none receipt shell h s, ServerFs.act, h, Option.map_none]
    | some content =>
      rw [Request.answer_read_some receipt shell h s, ServerFs.act, h, Option.map_some]
  | write path data size offset =>
    cases h : fs.fopenAppend path data with
    | none => rw [Request.answer_write_none receipt shell h s, ServerFs.act, h, Option.map_none]
    | some fs' => rw [Request.answer_write_some receipt shell h s, ServerFs.act, h, Option.map_some]
  | truncate | rename | unlink | utime => rfl

end

end Udtfs

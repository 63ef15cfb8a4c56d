import Udtfs.Wire

/-!
# Requests and the server's command loop

The client functions put a command and its arguments on the stream as separate strings. The
server reads a command, picks the handler, and the handler receives its arguments one by one
with its own buffer sizes. A handler that fails to receive an argument returns without acting,
and the loop goes on with whatever the stream holds next.

This file has the receiving side only: what a handler does to the files once it has its
arguments never touches the command stream.
-/

namespace Udtfs

open NulString

/-- The commands that `client_handler` knows. -/
inductive Command where
  | dir | getattr | read | truncate | write | rename | unlink | utime
  deriving DecidableEq

/-- The command string. -/
def Command.name : Command → Bytes
  | .dir => ascii "dir"
  | .getattr => ascii "getattr"
  | .read => ascii "read"
  | .truncate => ascii "truncate"
  | .write => ascii "write"
  | .rename => ascii "rename"
  | .unlink => ascii "unlink"
  | .utime => ascii "utime"

/-- One request with the arguments that travel: issued by a client function, dispatched by the
server. -/
inductive Request where
  | dir (path : Bytes)
  | getattr (path : Bytes)
  | read (filename : Bytes) (offset : ℤ) (len : ℕ)
  | truncate (path : Bytes) (newsize : ℤ)
  | write (path data : Bytes) (size : ℕ) (offset : ℤ)
  | rename (path newpath : Bytes)
  | unlink (path : Bytes)
  | utime (path : Bytes)
  deriving DecidableEq

/-- The command under which a request travels. -/
def Request.command : Request → Command
  | .dir _ => .dir
  | .getattr _ => .getattr
  | .read _ _ _ => .read
  | .truncate _ _ => .truncate
  | .write _ _ _ _ => .write
  | .rename _ _ => .rename
  | .unlink _ => .unlink
  | .utime _ => .utime

/-- The path arguments of a request. -/
def Request.paths : Request → List Bytes
  | .dir path => [path]
  | .getattr path => [path]
  | .read filename _ _ => [filename]
  | .truncate path _ => [path]
  | .write path _ _ _ => [path]
  | .rename path newpath => [path, newpath]
  | .unlink path => [path]
  | .utime path => [path]

/-- `client_reqdir`. -/
def clientReqdir (dirname : Bytes) : List Bytes := [cstr dirname]

/-- The request part of `client_reqattr`. -/
def clientReqattr (path : Bytes) : List Bytes := [cstr path]

/-- `client_reqsegment`. -/
def clientReqsegment (filename : Bytes) (offset : ℤ) (len : ℕ) : List Bytes :=
  [cstr filename, printLu offset, printLu len]

/-- `client_reqtruncate`. -/
def clientReqtruncate (filename : Bytes) (newsize : ℤ) : List Bytes :=
  [cstr filename, printLu newsize]

/-- `client_reqwrite`: the payload is sent as a C string, its size separately. -/
def clientReqwrite (filename data : Bytes) (size : ℕ) (offset : ℤ) : List Bytes :=
  [cstr filename, cstr data, printLu size, printLu offset]

/-- `client_reqrename`. -/
def clientReqrename (path newpath : Bytes) : List Bytes := [cstr path, cstr newpath]

/-- `client_requnlink`. -/
def clientRequnlink (path : Bytes) : List Bytes := [cstr path]

/-- `client_requtime`. -/
def clientRequtime (path : Bytes) : List Bytes := [cstr path]

/-- The strings that the client sends after the command. -/
def Request.arguments : Request → List Bytes
  | .dir path => clientReqdir path
  | .getattr path => clientReqattr path
  | .read filename offset len => clientReqsegment filename offset len
  | .truncate path newsize => clientReqtruncate path newsize
  | .write path data size offset => clientReqwrite path data size offset
  | .rename path newpath => clientReqrename path newpath
  | .unlink path => clientRequnlink path
  | .utime path => clientRequtime path

/-- All strings of a request in sending order. -/
def Request.strings (r : Request) : List Bytes := sendCmd r.command.name ++ r.arguments

/-- The bytes of a request on the stream. -/
def Request.wire (r : Request) : Bytes := frames r.strings

/-- A handler's receiving part: the request it acts on, unless a receive failed. -/
structure Received where
  request : Option Request
  rest : TcpStream
  deriving DecidableEq

section
variable (stale : ℕ → Bytes)

/-- Receive one argument into an uninitialized buffer, or give up: `if (n <= 0) return -1`.
`stale n` is the old content of the buffer's memory when `n` bytes are left to receive. -/
def receiving (maxlen : ℕ) (s : TcpStream) (next : Bytes → TcpStream → Received) : Received :=
  let r := recvStr s maxlen
  if r.ret ≤ 0 then ⟨none, r.rest⟩ else next (r.string (stale r.rest.bytes.length)) r.rest

/-- The same receive where the result is kept in a `size_t`, so that only zero counts as
failure. -/
def receivingSizeT (maxlen : ℕ) (s : TcpStream) (next : Bytes → TcpStream → Received) : Received :=
  let r := recvStr s maxlen
  if toSizeT r.ret ≤ 0 then ⟨none, r.rest⟩ else next (r.string (stale r.rest.bytes.length)) r.rest

/-- `server_senddir`. -/
def serverSenddir (s : TcpStream) : Received :=
  receiving stale (mMaxPath + mMaxFile - 1) s fun str s => ⟨some (.dir str), s⟩

/-- `server_sendattr`. -/
def serverSendattr (s : TcpStream) : Received :=
  receiving stale (mMaxPath + mMaxFile - 1) s fun pathstr s => ⟨some (.getattr pathstr), s⟩

/-- `server_sendsegment`: the only handler that counts received bytes in a `size_t`. -/
def serverSendsegment (s : TcpStream) : Received :=
  receivingSizeT stale (mMaxVal - 1) s fun filename s =>
  receivingSizeT stale (mMaxVal - 1) s fun info s =>
  let offset := atoll info
  receivingSizeT stale (mMaxVal - 1) s fun info s =>
  let len := toSizeT (atoll info)
  ⟨some (.read filename offset len), s⟩

/-- `server_truncate`. -/
def serverTruncate (s : TcpStream) : Received :=
  receiving stale (mMaxVal - 1) s fun path s =>
  receiving stale (mMaxVal - 1) s fun info s =>
  ⟨some (.truncate path (atoll info)), s⟩

/-- `server_write`. -/
def serverWrite (s : TcpStream) : Received :=
  receiving stale (mMaxVal - 1) s fun path s =>
  receiving stale (mMaxVal - 1) s fun data s =>
  receiving stale (mMaxVal - 1) s fun info s =>
  let size := toSizeT (atoll info)
  receiving stale (mMaxVal - 1) s fun info s =>
  let offset := atoll info
  ⟨some (.write path data size offset), s⟩

/-- `server_rename`. -/
def serverRename (s : TcpStream) : Received :=
  receiving stale (mMaxVal - 1) s fun path s =>
  receiving stale (mMaxVal - 1) s fun newpath s =>
  ⟨some (.rename path newpath), s⟩

/-- `server_unlink`. -/
def serverUnlink (s : TcpStream) : Received :=
  receiving stale (mMaxVal - 1) s fun path s => ⟨some (.unlink path), s⟩

/-- `server_utime`. -/
def serverUtime (s : TcpStream) : Received :=
  receiving stale (mMaxVal - 1) s fun path s => ⟨some (.utime path), s⟩

/-- The handler called for a command. -/
def Command.receive : Command → TcpStream → Received
  | .dir => serverSenddir stale
  | .getattr => serverSendattr stale
  | .read => serverSendsegment stale
  | .truncate => serverTruncate stale
  | .write => serverWrite stale
  | .rename => serverRename stale
  | .unlink => serverUnlink stale
  | .utime => serverUtime stale

/-- The comparisons of the command loop. In the source the test for `utime` follows the chain
instead of ending it; no string equals two commands, so at most one handler runs. -/
def commandOf (rcvbuf : Bytes) : Option Command :=
  if strcasecmp rcvbuf (ascii "dir") then some .dir else
  if strcasecmp rcvbuf (ascii "getattr") then some .getattr else
  if strcasecmp rcvbuf (ascii "read") then some .read else
  if strcasecmp rcvbuf (ascii "truncate") then some .truncate else
  if strcasecmp rcvbuf (ascii "write") then some .write else
  if strcasecmp rcvbuf (ascii "rename") then some .rename else
  if strcasecmp rcvbuf (ascii "unlink") then some .unlink else
  if strcasecmp rcvbuf (ascii "utime") then some .utime else none

/-- What one pass through the command loop did. -/
inductive Served where
  /-- The handler received all its arguments and acted on them. -/
  | handled (r : Request)
  /-- The handler was called but a receive failed. -/
  | gaveUp (c : Command)
  /-- The received string is no command. -/
  | ignored (rcvbuf : Bytes)
  deriving DecidableEq

/-- The size of `rcvbuf`, which is also its receive limit. -/
def rcvbufSize : ℕ := 512

/-- Call the handler of a received command string. -/
def dispatch (rcvbuf : Bytes) (s : TcpStream) : Served × TcpStream :=
  match commandOf rcvbuf with
  | none => (.ignored rcvbuf, s)
  | some c =>
    match c.receive stale s with
    | ⟨some r, rest⟩ => (.handled r, rest)
    | ⟨none, rest⟩ => (.gaveUp c, rest)

/-- One pass through the command loop; `none` when the loop ends. -/
def handleCommand (s : TcpStream) : Option (Served × TcpStream) :=
  let r := recvStr s rcvbufSize
  if r.ret ≤ 0 then none else
    some (dispatch stale (r.string (stale r.rest.bytes.length)) r.rest)

end

end Udtfs

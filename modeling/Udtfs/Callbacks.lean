import Udtfs.Client

/-!
# Callbacks as sequences of steps

Several callbacks run at once on threads of their own, over one pair of connections. Each callback
is a program of locks, sends and receives, with every path that a failed send or receive takes;
what lies between two such steps is not visible to other threads.

Two disciplines are told apart. A callback that waits for a reply sends and receives under the
mutex of the connection, in the order the mutexes are taken, and never sends again once it has
unlocked. A callback that expects no reply sends without any mutex.
-/

namespace Udtfs

open NulString

/-- The mutexes of the client. -/
inductive Mutex where
  /-- `_tcpmutex`. -/
  | tcp
  /-- `_udtmutex`. -/
  | udt
  deriving DecidableEq

/-- A callback, or what is left of it. -/
inductive Prog where
  | ret (value : ℤ)
  | lock (m : Mutex) (next : Prog)
  | unlock (m : Mutex) (next : Prog)
  /-- Send one string with its terminator and learn whether that succeeded. -/
  | send (s : Bytes) (next : Bool → Prog)
  /-- `recv_str`, with its result and the string in the buffer. -/
  | recvStr (maxlen : ℕ) (next : ℤ → Bytes → Prog)
  /-- The loop over `client_recvdirentry`. -/
  | recvDirentries (next : Prog)
  /-- The loop of `client_recvsegment` with `remain` bytes to go. -/
  | recvSegment (remain : ℕ) (next : Prog)

namespace Prog

/-- Sends whose results nobody looks at. -/
def sendAll : List Bytes → Prog → Prog
  | [], next => next
  | s :: strings, next => send s fun _ => sendAll strings next

/-- `send_cmd`, with what the caller does when it fails. -/
def sendCmd (c : Command) (failed next : Prog) : Prog :=
  send c.name fun ok => if ok then next else failed

/-- The receives of `client_reqattr` behind the first. -/
def recvValues : ℕ → Prog → Prog
  | 0, next => next
  | k + 1, next => recvStr (mMaxVal - 1) fun _ _ => recvValues k next

/-- `client_reqattr`. -/
def clientReqattr (path : Bytes) (next : ℤ → Prog) : Prog :=
  send (cstr path) fun ok =>
    if ok then
      recvStr (mMaxVal - 1) fun _ info =>
        if strncasecmp info reservedStrTerm reservedStrTerm.length then next (-1) else
          recvValues (Stat.assignments.length - 1) (next 0)
    else next (-1)

/-- `udtfs_getattr`. -/
def udtfsGetattr (path : Bytes) : Prog :=
  lock .tcp <|
  sendCmd .getattr (unlock .tcp <| ret (-eNoent)) <|
  clientReqattr path fun n =>
    if n ≠ 0 then unlock .tcp <| ret (-eNoent) else unlock .tcp <| ret 0

/-- `client_reqdir`. -/
def clientReqdir (dirname : Bytes) (next : ℤ → Prog) : Prog :=
  send (cstr dirname) fun ok => if ok then next 0 else next (-1)

/-- `udtfs_readdir`. -/
def udtfsReaddir (path : Bytes) : Prog :=
  lock .tcp <|
  sendCmd .dir (unlock .tcp <| ret (-eNoent)) <|
  clientReqdir path fun n =>
    if n ≠ 0 then unlock .tcp <| ret (-eNoent) else
      recvDirentries <| unlock .tcp <| ret 0

/-- The refill of `udtfs_read`, between its test of the cache and the copy out of it. The results
of the sends and of `client_recvsegment` are not looked at. -/
def udtfsReadRefill (fileName : Bytes) (offset : ℤ) (fetchsize : ℕ) : Prog :=
  lock .tcp <|
  sendCmd .read (unlock .tcp <| ret (-eNoent)) <|
  lock .udt <|
  sendAll (clientReqsegment fileName offset fetchsize) <|
  unlock .tcp <|
  recvSegment fetchsize <|
  unlock .udt <| ret 0

/-- The callbacks that expect no reply. They take no mutex, yet unlock one when the command cannot
be sent. -/
def unguarded (c : Command) (arguments : List Bytes) (value : ℤ) : Prog :=
  sendCmd c (unlock .tcp <| ret (-eNoent)) <| sendAll arguments <| ret value

/-- `udtfs_truncate`. -/
def udtfsTruncate (fileName : Bytes) (newsize : ℤ) : Prog :=
  unguarded .truncate (clientReqtruncate fileName newsize) (toInt newsize)

/-- `udtfs_write`. -/
def udtfsWrite (fileName data : Bytes) (size : ℕ) (offset : ℤ) : Prog :=
  unguarded .write (clientReqwrite fileName data size offset) (toInt size)

/-- `udtfs_rename`. -/
def udtfsRename (path newpath : Bytes) : Prog := unguarded .rename (clientReqrename path newpath) 0

/-- `udtfs_unlink`. -/
def udtfsUnlink (path : Bytes) : Prog := unguarded .unlink (clientRequnlink path) 0

/-- `udtfs_utimens`. -/
def udtfsUtimens (path : Bytes) : Prog := unguarded .utime (clientRequtime path) 0

end Prog

/-- The callback that issues a request. -/
def Request.callback : Request → Prog
  | .dir path => .udtfsReaddir path
  | .getattr path => .udtfsGetattr path
  | .read filename offset len => .udtfsReadRefill filename offset len
  | .truncate path newsize => .udtfsTruncate path newsize
  | .write path data size offset => .udtfsWrite path data size offset
  | .rename path newpath => .udtfsRename path newpath
  | .unlink path => .udtfsUnlink path
  | .utime path => .udtfsUtimens path

/-- The callback works under `_tcpmutex`. -/
def Request.guarded : Request → Bool
  | .dir _ | .getattr _ | .read _ _ _ => true
  | .truncate _ _ | .write _ _ _ _ | .rename _ _ | .unlink _ | .utime _ => false

/-- One visible step of a callback. -/
inductive Action where
  | lock (m : Mutex)
  | unlock (m : Mutex)
  | send (s : Bytes) (ok : Bool)
  | recvStr (maxlen : ℕ) (ret : ℤ) (string : Bytes)
  /-- `client_recvdirentry`; without an entry the loop ends. -/
  | direntry (entry : Option Bytes)
  /-- `UDT::recv` of some bytes of a segment. -/
  | recvSegment (n : ℕ)
  /-- The test that ends the loop of `client_recvsegment`. -/
  | segmentDone
  /-- `UDT::recv` fails, which ends that loop too. -/
  | segmentError

/-- The steps of a program, whatever its sends and receives result in. -/
inductive Prog.Step : Prog → Action → Prog → Prop
  | lock (m : Mutex) (next : Prog) : Step (.lock m next) (.lock m) next
  | unlock (m : Mutex) (next : Prog) : Step (.unlock m next) (.unlock m) next
  | send (s : Bytes) (next : Bool → Prog) (ok : Bool) : Step (.send s next) (.send s ok) (next ok)
  | recvStr (maxlen : ℕ) (next : ℤ → Bytes → Prog) (ret : ℤ) (string : Bytes) :
      Step (.recvStr maxlen next) (.recvStr maxlen ret string) (next ret string)
  | direntry (next : Prog) (entry : Bytes) :
      Step (.recvDirentries next) (.direntry (some entry)) (.recvDirentries next)
  | direntriesEnd (next : Prog) : Step (.recvDirentries next) (.direntry none) next
  | recvSegment (remain n : ℕ) (next : Prog) (hpos : 0 < n) (hle : n ≤ remain) :
      Step (.recvSegment remain next) (.recvSegment n) (.recvSegment (remain - n) next)
  | segmentDone (next : Prog) : Step (.recvSegment 0 next) .segmentDone next
  | segmentError (remain : ℕ) (next : Prog) (hpos : 0 < remain) :
      Step (.recvSegment remain next) .segmentError next

/-- A send reports no error. -/
def Action.Succeeds : Action → Prop
  | .send _ ok => ok = true
  | _ => True

/-- The strings that a successful step sends. -/
def Action.sent : Action → List Bytes
  | .send s true => [s]
  | _ => []

/-- The mutexes held after a step. -/
def Action.held (held : Mutex → Bool) : Action → Mutex → Bool
  | .lock m => Function.update held m true
  | .unlock m => Function.update held m false
  | _ => held

/-- The strings still to be sent, as long as every send succeeds. Nothing is sent after a
receive. -/
def Prog.sends : Prog → List Bytes
  | .lock _ next | .unlock _ next => next.sends
  | .send s next => s :: (next true).sends
  | .ret _ | .recvStr _ _ | .recvDirentries _ | .recvSegment _ _ => []

/-- A command is sent before the rest. -/
@[simp] theorem Prog.sends_sendCmd (c : Command) (failed next : Prog) :
    (Prog.sendCmd c failed next).sends = c.name :: next.sends := rfl

/-- So are several strings. -/
@[simp] theorem Prog.sends_sendAll (strings : List Bytes) (next : Prog) :
    (Prog.sendAll strings next).sends = strings ++ next.sends := by
  induction strings with
  | nil => rfl
  | cons s strings ih => simp only [sendAll, sends, ih, List.cons_append]

/-- Receiving values sends nothing. -/
@[simp] theorem Prog.sends_recvValues (k : ℕ) (next : Prog) (h : next.sends = []) :
    (Prog.recvValues k next).sends = [] := by
  cases k with
  | zero => exact h
  | succ k => rfl

/-- A callback without a reply sends its command and the arguments. -/
@[simp] theorem Prog.sends_unguarded (c : Command) (arguments : List Bytes) (value : ℤ) :
    (Prog.unguarded c arguments value).sends = c.name :: arguments := by
  simp [unguarded, sends]

/-- A callback sends the strings of its request. -/
theorem Request.sends_callback (r : Request) : r.callback.sends = r.strings := by
  rw [Request.strings, sendCmd_name]
  cases r with
  | dir path => rfl
  | getattr path => rfl
  | read filename offset len =>
    simp [callback, Prog.udtfsReadRefill, Prog.sends, command, arguments]
  | truncate | write | rename | unlink | utime => exact Prog.sends_unguarded _ _ _

/-- Every send and every receive happens under its mutex, whatever the outcome of those before it.
`_tcpmutex` is never taken under `_udtmutex`, no mutex is taken once everything is sent, none is
given up before, and none is held at the end. -/
def Prog.WellLocked : Prog → (Mutex → Bool) → Prop
  | .ret _, held => ∀ m, held m = false
  | .lock m next, held =>
    held m = false ∧ (m = .tcp → held .udt = false) ∧ next.sends ≠ [] ∧
      next.WellLocked (Function.update held m true)
  | .unlock m next, held =>
    held m = true ∧ next.sends = [] ∧ next.WellLocked (Function.update held m false)
  | .send _ next, held => held .tcp = true ∧ ∀ ok, (next ok).WellLocked held
  | .recvStr _ next, held =>
    held .tcp = true ∧
      ∀ ret string, (next ret string).sends = [] ∧ (next ret string).WellLocked held
  | .recvDirentries next, held => held .tcp = true ∧ next.sends = [] ∧ next.WellLocked held
  | .recvSegment _ next, held => held .udt = true ∧ next.sends = [] ∧ next.WellLocked held

/-- The program only sends, as long as its sends succeed. -/
def Prog.OnlySends : Prog → Prop
  | .ret _ => True
  | .send _ next => (next true).OnlySends
  | _ => False

/-- Strings are sent under the mutex of the connection. -/
theorem Prog.wellLocked_sendAll {held : Mutex → Bool} {next : Prog} (htcp : held .tcp = true)
    (hnext : next.WellLocked held) (strings : List Bytes) :
    (Prog.sendAll strings next).WellLocked held := by
  induction strings with
  | nil => exact hnext
  | cons s strings ih => exact ⟨htcp, fun _ => ih⟩

/-- So are values received. -/
theorem Prog.wellLocked_recvValues {held : Mutex → Bool} {next : Prog} (htcp : held .tcp = true)
    (hsends : next.sends = []) (hnext : next.WellLocked held) (k : ℕ) :
    (Prog.recvValues k next).WellLocked held := by
  induction k with
  | zero => exact hnext
  | succ k ih => exact ⟨htcp, fun _ _ => ⟨sends_recvValues k next hsends, ih⟩⟩

/-- Giving `_tcpmutex` back as the last act. -/
theorem Prog.wellLocked_unlock_ret (value : ℤ) :
    (Prog.unlock .tcp (.ret value)).WellLocked (Function.update (fun _ => false) .tcp true) := by
  refine ⟨rfl, rfl, ?_⟩
  intro m
  cases m <;> rfl

/-- The callbacks that wait for a reply keep the discipline on every path. -/
theorem Request.wellLocked_callback {r : Request} (h : r.guarded = true) :
    r.callback.WellLocked fun _ => false := by
  have hdone := Prog.wellLocked_unlock_ret
  cases r with
  | dir path =>
    refine ⟨rfl, fun _ => rfl, by simp, rfl, ?_⟩
    intro ok
    cases ok with
    | false => exact hdone _
    | true =>
      refine ⟨rfl, ?_⟩
      intro ok
      cases ok with
      | false => exact hdone _
      | true => exact ⟨rfl, rfl, hdone _⟩
  | getattr path =>
    refine ⟨rfl, fun _ => rfl, by simp, rfl, ?_⟩
    intro ok
    cases ok with
    | false => exact hdone _
    | true =>
      refine ⟨rfl, ?_⟩
      intro ok
      cases ok with
      | false => exact hdone _
      | true =>
        refine ⟨rfl, ?_⟩
        intro ret info
        dsimp only
        split
        · exact ⟨rfl, hdone _⟩
        · exact ⟨rfl, Prog.wellLocked_recvValues rfl rfl (hdone _) _⟩
  | read filename offset len =>
    refine ⟨rfl, fun _ => rfl, by simp, rfl, ?_⟩
    intro ok
    cases ok with
    | false => exact hdone _
    | true =>
      refine ⟨rfl, nofun, by simp [clientReqsegment], ?_⟩
      apply Prog.wellLocked_sendAll rfl
      refine ⟨rfl, rfl, rfl, rfl, rfl, rfl, ?_⟩
      intro m
      cases m <;> rfl
  | truncate | write | rename | unlink | utime => contradiction

/-- The other callbacks only send. -/
theorem Request.onlySends_callback {r : Request} (h : r.guarded = false) :
    r.callback.OnlySends := by
  have hsend (strings : List Bytes) (value : ℤ) :
      (Prog.sendAll strings (.ret value)).OnlySends := by
    induction strings with
    | nil => trivial
    | cons s strings ih => exact ih
  cases r with
  | dir | getattr | read => contradiction
  | truncate | write | rename | unlink | utime => exact hsend _ _

/-- What a step of a disciplined program relies on: the mutexes held and the strings left to send
before it. -/
def Action.Permitted (held : Mutex → Bool) (sends : List Bytes) : Action → Prop
  | .lock m => held m = false ∧ (m = .tcp → held .udt = false) ∧ sends ≠ []
  | .unlock m => held m = true ∧ sends = []
  | .send _ _ => held .tcp = true
  | .recvStr _ _ _ | .direntry _ => held .tcp = true ∧ sends = []
  | .recvSegment _ | .segmentDone | .segmentError => held .udt = true ∧ sends = []

/-- A disciplined program only takes permitted steps. -/
theorem Prog.WellLocked.permitted {p q : Prog} {a : Action} {held : Mutex → Bool}
    (h : p.WellLocked held) (hstep : p.Step a q) : a.Permitted held p.sends := by
  cases hstep with
  | lock => exact ⟨h.1, h.2.1, h.2.2.1⟩
  | unlock => exact ⟨h.1, h.2.1⟩
  | send => exact h.1
  | recvStr | direntry | direntriesEnd => exact ⟨h.1, rfl⟩
  | recvSegment | segmentDone | segmentError => exact ⟨h.1, rfl⟩

/-- A disciplined program stays one. -/
theorem Prog.WellLocked.step {p q : Prog} {a : Action} {held : Mutex → Bool}
    (h : p.WellLocked held) (hstep : p.Step a q) : q.WellLocked (a.held held) := by
  cases hstep with
  | lock => exact h.2.2.2
  | unlock => exact h.2.2
  | send _ _ ok => exact h.2 ok
  | recvStr _ _ ret string => exact (h.2 ret string).2
  | direntry | recvSegment => exact h
  | direntriesEnd | segmentDone | segmentError => exact h.2.2

/-- A successful step sends the next string or leaves them as they are. -/
theorem Prog.WellLocked.sends {p q : Prog} {a : Action} {held : Mutex → Bool}
    (h : p.WellLocked held) (hstep : p.Step a q) (hok : a.Succeeds) :
    p.sends = a.sent ++ q.sends := by
  cases hstep with
  | lock | unlock | direntry | recvSegment => rfl
  | send s next ok =>
    obtain rfl : ok = true := hok
    rfl
  | recvStr _ _ ret string => exact (h.2 ret string).1.symm
  | direntriesEnd | segmentDone | segmentError => exact h.2.1.symm

/-- A program that only sends does nothing else, and stays such a program. -/
theorem Prog.OnlySends.step {p q : Prog} {a : Action} (h : p.OnlySends) (hstep : p.Step a q)
    (hok : a.Succeeds) : ∃ s, a = .send s true ∧ p.sends = s :: q.sends ∧ q.OnlySends := by
  cases hstep with
  | send s next ok =>
    obtain rfl : ok = true := hok
    exact ⟨s, rfl, rfl, h⟩
  | lock | unlock | recvStr | direntry | direntriesEnd | recvSegment | segmentDone | segmentError =>
    exact h.elim

end Udtfs

import Udtfs.HandlerPrograms
import Udtfs.Lib.Run

/-!
# Files that cannot be opened

The handlers of reads and writes use the result of `fopen` unchecked. Any client can remove or rename a
file between another client's open and its next request, so a request may meet a file that cannot be
opened at every point of a run; the null pointer then ends the process of its session. When `fopen` fails
is for the operating system to decide.
-/

namespace Udtfs

open NulString Content Transition

/-- `fopen` opens the file of a read or a write. -/
def FileLibrary.CanOpen {σ : Type*} (lib : FileLibrary σ) (fs : σ) : Request → Prop
  | .read filename _ _ => (lib.fopen fs filename (ascii "rb")).1.isSome = true
  | .write path _ _ _ => (lib.fopen fs path (ascii "a")).1.isSome = true
  | _ => True

/-- A null pointer is passed as a file. -/
def ServerCall.UsesNull (c : ServerCall) : Prop := c.file = some none

section
variable {σ τ : Type*}

/-- No call is given a null pointer. -/
def Handling.NoNull (h : Handling σ τ) : Prop := ∀ c ∈ h.calls, ¬ c.UsesNull

/-- No call is given a null pointer, and the handler returns. -/
def Handling.Sound (h : Handling σ τ) : Prop := h.NoNull ∧ h.ret ≠ none

/-- A call without a file is given no null pointer. -/
theorem ServerCall.not_usesNull {c : ServerCall} (h : c.file = none) : ¬ c.UsesNull :=
  fun hnull => Option.some_ne_none _ (hnull.symm.trans h)

/-- Nor is one with an open file. -/
theorem ServerCall.not_usesNull_some {c : ServerCall} {loc : Path} (h : c.file = some (some loc)) :
    ¬ c.UsesNull :=
  fun hnull => Option.some_ne_none loc (Option.some.inj (h.symm.trans hnull))

/-- A call in front is one more to look at. -/
theorem Handling.noNull_called {h : Handling σ τ} {c : ServerCall} :
    (h.called c).NoNull ↔ ¬ c.UsesNull ∧ h.NoNull := List.forall_mem_cons

/-- A sound call in front changes nothing. -/
theorem Handling.sound_called {h : Handling σ τ} {c : ServerCall} (hc : ¬ c.UsesNull) :
    (h.called c).Sound ↔ h.Sound := by
  rw [Sound, noNull_called, and_iff_right hc]
  exact Iff.rfl

/-- What was passed stays passed. -/
theorem Handling.not_noNull_called {h : Handling σ τ} {c : ServerCall} (hnull : ¬ h.NoNull) :
    ¬ (h.called c).NoNull := fun hc => hnull (noNull_called.mp hc).2

variable (receipt : τ → ℕ → Receipt τ) (lib : FileLibrary σ)

/-- Returning is sound. -/
theorem Handler.sound_ret (value : ℤ) (a : Outcome σ) (s : τ) :
    ((Handler.ret value).run receipt lib.perform a s).Sound :=
  ⟨fun _ hc => absurd hc List.not_mem_nil, Option.some_ne_none value⟩

/-- So is a call that is given no null pointer and returns, if what follows is sound. -/
theorem Handler.sound_call {c : ServerCall} (hc : ¬ c.UsesNull) {a b : Outcome σ} {result : c.Result}
    (h : lib.perform a c = some (result, b)) {next : c.Result → Handler} {s : τ}
    (hnext : ((next result).run receipt lib.perform b s).Sound) :
    ((Handler.call c next).run receipt lib.perform a s).Sound := by
  rw [Handler.run_call receipt lib.perform h]
  exact (Handling.sound_called hc).mpr hnext

/-- Sending uses no file. -/
theorem Handler.sound_sendAll (strings : List Bytes) {next : Handler} (s : τ)
    (h : ∀ a, (next.run receipt lib.perform a s).Sound) (a : Outcome σ) :
    ((sendAll strings next).run receipt lib.perform a s).Sound := by
  induction strings generalizing a with
  | nil => exact h a
  | cons s' strings ih => exact Handler.sound_call receipt lib (ServerCall.not_usesNull rfl) rfl (ih _)

/-- The calls of a read of an opened file: nothing is wrong with them, and the client gets all bytes. -/
theorem Request.run_read_opened {fs : σ} {filename : Bytes} {offset : ℤ} {len : ℕ}
    (h : lib.CanOpen fs (.read filename offset len)) (s : τ) :
    ((Request.read filename offset len).acting.run receipt lib.perform ⟨fs, [], []⟩ s).Sound ∧
      (len < 2 ^ 63 → ((Request.read filename offset len).acting.run receipt lib.perform
        ⟨fs, [], []⟩ s).state.udt.length = len) := by
  obtain ⟨loc, hloc⟩ := Option.isSome_iff_exists.mp h
  have hfopen : lib.perform ⟨fs, [], []⟩ (.fopen filename (ascii "rb")) =
      some (some loc, ⟨(lib.fopen fs filename (ascii "rb")).2, [], []⟩) := by
    rw [FileLibrary.perform, hloc]
  have hle := lib.sent_le (lib.fopen fs filename (ascii "rb")).2 loc offset (toInt64 len)
  rw [Request.acting, Handler.run_call receipt lib.perform hfopen,
    Handler.run_call receipt lib.perform (c := .sendfile (some loc) offset (toInt64 len)) rfl,
    Handler.run_call receipt lib.perform (c := .fclose (some loc)) rfl]
  dsimp only
  generalize lib.sent (lib.fopen fs filename (ascii "rb")).2 loc offset (toInt64 len) = sent at hle ⊢
  have hint : toInt64 len < 2 ^ 63 := by
    rw [toInt64, toSigned]
    omega
  have hsize : toSizeT sent.length = sent.length := toSizeT_natCast (by omega)
  rw [if_neg (by omega), hsize, Handling.sound_called (ServerCall.not_usesNull rfl),
    Handling.sound_called (ServerCall.not_usesNull_some rfl),
    Handling.sound_called (ServerCall.not_usesNull_some rfl)]
  by_cases hshort : sent.length < len
  · rw [if_pos hshort]
    refine ⟨Handler.sound_call receipt lib (ServerCall.not_usesNull rfl) rfl
      (Handler.sound_ret receipt lib _ _ _), fun hlen => ?_⟩
    have hzeros : toInt64 ((len : ℤ) - sent.length) = ((len - sent.length : ℕ) : ℤ) := by
      rw [toInt64_of_range (by omega) (by omega), Int.natCast_sub hshort.le]
    have hudt : ([] ++ sent ++ List.replicate (toInt64 ((len : ℤ) - sent.length)).toNat (0 : UInt8)).length =
        len := by
      rw [List.nil_append, List.length_append, List.length_replicate, hzeros, Int.toNat_natCast]
      omega
    exact hudt
  · rw [if_neg hshort]
    refine ⟨Handler.sound_ret receipt lib _ _ _, fun hlen => ?_⟩
    have hudt : ([] ++ sent).length = len := by
      rw [toInt64_of_range (by omega) (by omega), Int.toNat_natCast] at hle
      rw [List.nil_append]
      omega
    exact hudt

/-- A request whose file can be opened is handled soundly. -/
theorem Request.sound_of_canOpen {fs : σ} {r : Request} (h : lib.CanOpen fs r) (s : τ) :
    (r.acting.run receipt lib.perform ⟨fs, [], []⟩ s).Sound := by
  cases r with
  | read => exact (Request.run_read_opened receipt lib h s).1
  | write path data size offset =>
    obtain ⟨loc, hloc⟩ := Option.isSome_iff_exists.mp h
    have hfopen : lib.perform ⟨fs, [], []⟩ (.fopen path (ascii "a")) =
        some (some loc, ⟨(lib.fopen fs path (ascii "a")).2, [], []⟩) := by
      rw [FileLibrary.perform, hloc]
    exact Handler.sound_call receipt lib (ServerCall.not_usesNull rfl) hfopen <|
      Handler.sound_call receipt lib (ServerCall.not_usesNull_some rfl) rfl <|
      Handler.sound_call receipt lib (ServerCall.not_usesNull_some rfl) rfl <|
      Handler.sound_ret receipt lib _ _ _
  | dir path =>
    refine Handler.sound_call receipt lib (ServerCall.not_usesNull rfl) rfl ?_
    dsimp only
    cases lib.opendir fs (pathToLocal path) with
    | none => exact Handler.sound_sendAll receipt lib _ s (Handler.sound_ret receipt lib _ · s) _
    | some entries =>
      exact Handler.sound_sendAll receipt lib _ s
        (Handler.sound_sendAll receipt lib _ s (Handler.sound_ret receipt lib _ · s)) _
  | getattr path =>
    refine Handler.sound_call receipt lib (ServerCall.not_usesNull rfl) rfl ?_
    dsimp only
    cases lib.stat fs (pathToLocal path) <;>
      exact Handler.sound_sendAll receipt lib _ s (Handler.sound_ret receipt lib _ · s) _
  | truncate | rename | unlink | utime =>
    exact Handler.sound_call receipt lib (ServerCall.not_usesNull rfl) rfl
      (Handler.sound_ret receipt lib _ _ _)

/-- If the file of a request cannot be opened, a null pointer is passed. -/
theorem Request.not_noNull {fs : σ} {r : Request} (h : ¬ lib.CanOpen fs r) (s : τ) :
    ¬ (r.acting.run receipt lib.perform ⟨fs, [], []⟩ s).NoNull := by
  cases r with
  | read filename offset len =>
    have hnone := Option.not_isSome_iff_eq_none.mp h
    have hfopen : lib.perform ⟨fs, [], []⟩ (.fopen filename (ascii "rb")) =
        some (none, ⟨(lib.fopen fs filename (ascii "rb")).2, [], []⟩) := by
      rw [FileLibrary.perform, hnone]
    rw [Request.acting, Handler.run_call receipt lib.perform hfopen]
    refine Handling.not_noNull_called fun hfree => ?_
    obtain ⟨later, hcalls⟩ := Handler.calls_run_call receipt lib.perform
      (.sendfile none offset (toInt64 len)) _ _ s
    exact hfree (.sendfile none offset (toInt64 len)) (hcalls ▸ List.mem_cons_self) rfl
  | write path data size offset =>
    have hnone := Option.not_isSome_iff_eq_none.mp h
    have hfopen : lib.perform ⟨fs, [], []⟩ (.fopen path (ascii "a")) =
        some (none, ⟨(lib.fopen fs path (ascii "a")).2, [], []⟩) := by
      rw [FileLibrary.perform, hnone]
    rw [Request.acting, Handler.run_call receipt lib.perform hfopen]
    refine Handling.not_noNull_called fun hfree => ?_
    obtain ⟨later, hcalls⟩ := Handler.calls_run_call receipt lib.perform (.fputs data none) _ _ s
    exact hfree (.fputs data none) (hcalls ▸ List.mem_cons_self) rfl
  | dir | getattr | truncate | rename | unlink | utime => exact absurd trivial h

end

/-- A handler that has been run in the process of a session. -/
structure Handled (σ : Type*) where
  session : ℕ
  /-- The request, if the handler received its arguments. -/
  request : Option Request
  handling : Handling (Outcome σ) TcpStream

/-- The shared files, and what has been handled so far. -/
structure FileService (σ : Type*) where
  fs : σ
  handled : List (Handled σ)

/-- What happens to the server. -/
inductive ServiceEvent (σ : Type*) where
  /-- A session receives a command, and its handler runs on the stream. -/
  | handle (session : ℕ) (c : Command) (s : TcpStream)
  /-- Something else on the server's machine changes the files. -/
  | change (fs : σ)

section
variable {σ : Type*} (stale : ℕ → Bytes) (lib : FileLibrary σ)

/-- Run the handler of a command on the shared files. -/
def Command.serve (c : Command) (fs : σ) (s : TcpStream) : Handling (Outcome σ) TcpStream :=
  c.program.run (TcpStream.receipt stale) lib.perform ⟨fs, [], []⟩ s

/-- The process of a session has not ended. -/
def FileService.Alive (s : FileService σ) (session : ℕ) : Prop :=
  ∀ h ∈ s.handled, h.session = session → h.handling.ret ≠ none

/-- One step of the server. A handler looks up its file once, so it runs as one step; the handlers of the
sessions alternate in any order. -/
inductive FileService.Step : FileService σ → ServiceEvent σ → FileService σ → Prop
  | handle {s : FileService σ} {session : ℕ} (c : Command) (t : TcpStream) (halive : s.Alive session) :
      Step s (.handle session c t)
        ⟨(c.serve stale lib s.fs t).state.fs,
          ⟨session, (c.receive stale t).request, c.serve stale lib s.fs t⟩ :: s.handled⟩
  | change (s : FileService σ) (fs : σ) : Step s (.change fs) { s with fs := fs }

/-- No null pointer has been passed as a file, every session goes on, and every client that waits for a
segment has received it, or finds its connection broken. -/
structure FileService.Unbroken (s : FileService σ) : Prop where
  noNull : ∀ h ∈ s.handled, h.handling.NoNull
  goesOn : ∀ h ∈ s.handled, h.handling.ret ≠ none
  answered : ∀ h ∈ s.handled, ∀ filename offset len,
    h.request = some (.read filename offset len) → len < 2 ^ 63 →
      h.handling.ret = none ∨ ∀ buf, (clientRecvsegment h.handling.state.udt len buf).isSome = true

/-- `fopen` opens the file of a received read or write when the request is handled. -/
def FileService.Openable (s : FileService σ) : ServiceEvent σ → Prop
  | .handle _ c t => ∀ r, (c.receive stale t).request = some r → lib.CanOpen s.fs r
  | .change _ => True

/-- A handler that receives its arguments acts on the request. -/
theorem Command.serve_received {c : Command} {t : TcpStream} {r : Request}
    (h : (c.receive stale t).request = some r) (fs : σ) :
    (c.serve stale lib fs t).effect =
      r.acting.run (TcpStream.receipt stale) lib.perform ⟨fs, [], []⟩ (c.receive stale t).rest := by
  have hrun := c.run_program stale lib.perform ⟨fs, [], []⟩ t
  have hreceive : c.receive stale t = ⟨some r, (c.receive stale t).rest⟩ := by rw [← h]
  rw [hreceive, Received.handling] at hrun
  exact hrun

/-- A handler that does not returns without a call. -/
theorem Command.serve_not_received {c : Command} {t : TcpStream}
    (h : (c.receive stale t).request = none) (fs : σ) :
    (c.serve stale lib fs t).effect = ⟨[], [], some (-1), ⟨fs, [], []⟩, (c.receive stale t).rest⟩ := by
  have hrun := c.run_program stale lib.perform ⟨fs, [], []⟩ t
  have hreceive : c.receive stale t = ⟨none, (c.receive stale t).rest⟩ := by rw [← h]
  rw [hreceive, Received.handling] at hrun
  exact hrun

variable {stale lib}

/-- A handler whose file can be opened is sound. -/
theorem FileService.Openable.sound {s : FileService σ} {session : ℕ} {c : Command} {t : TcpStream}
    (h : s.Openable stale lib (.handle session c t)) : (c.serve stale lib s.fs t).Sound := by
  have hsound : (c.serve stale lib s.fs t).effect.Sound := by
    cases hrequest : (c.receive stale t).request with
    | none =>
      rw [c.serve_not_received stale lib hrequest]
      exact ⟨fun _ hc => absurd hc List.not_mem_nil, Option.some_ne_none _⟩
    | some r =>
      rw [c.serve_received stale lib hrequest]
      exact Request.sound_of_canOpen _ lib (h r hrequest) _
  exact hsound

/-- A handler that passes no null pointer finds its file. -/
theorem FileService.openable_of_noNull {s : FileService σ} {session : ℕ} {c : Command} {t : TcpStream}
    (h : (c.serve stale lib s.fs t).NoNull) : s.Openable stale lib (.handle session c t) := by
  intro r hrequest
  by_contra hclosed
  have hnull := Request.not_noNull (TcpStream.receipt stale) lib hclosed (c.receive stale t).rest
  rw [← c.serve_received stale lib hrequest] at hnull
  exact hnull h

/-- A read whose file can be opened gives the client its segment. -/
theorem FileService.Openable.segment {s : FileService σ} {session : ℕ} {c : Command} {t : TcpStream}
    (h : s.Openable stale lib (.handle session c t)) {filename : Bytes} {offset : ℤ} {len : ℕ}
    (hrequest : (c.receive stale t).request = some (.read filename offset len)) (hlen : len < 2 ^ 63)
    (buf : ℕ → UInt8) :
    (clientRecvsegment (c.serve stale lib s.fs t).state.udt len buf).isSome = true := by
  have hlength := (Request.run_read_opened (TcpStream.receipt stale) lib (h _ hrequest)
    (c.receive stale t).rest).2 hlen
  rw [← c.serve_received stale lib hrequest] at hlength
  have hudt : (c.serve stale lib s.fs t).state.udt.length = len := hlength
  rw [clientRecvsegment, if_pos hudt.ge]
  rfl

/-- A step at which the file can be opened breaks nothing. -/
theorem FileService.Unbroken.step {s t : FileService σ} {e : ServiceEvent σ} (h : s.Unbroken)
    (hstep : Step stale lib s e t) (hopenable : s.Openable stale lib e) : t.Unbroken := by
  cases hstep with
  | change fs => exact ⟨h.noNull, h.goesOn, h.answered⟩
  | @handle session c stream halive =>
    refine ⟨?_, ?_, ?_⟩
    · exact List.forall_mem_cons.mpr ⟨hopenable.sound.1, h.noNull⟩
    · exact List.forall_mem_cons.mpr ⟨hopenable.sound.2, h.goesOn⟩
    · refine List.forall_mem_cons.mpr ⟨?_, h.answered⟩
      intro filename offset len hrequest hlen
      exact .inr (hopenable.segment hrequest hlen)

/-- A step that breaks nothing finds its file. -/
theorem FileService.Step.openable {s t : FileService σ} {e : ServiceEvent σ}
    (hstep : Step stale lib s e t) (h : t.Unbroken) : s.Openable stale lib e := by
  cases hstep with
  | change fs => trivial
  | @handle session c stream halive =>
    exact FileService.openable_of_noNull (h.noNull _ List.mem_cons_self)

variable (stale lib)

/-- **Files that cannot be opened.** Along every run of the server, with any number of sessions, nothing
breaks exactly if every read and every write is handled while `fopen` opens its file. -/
theorem unbroken_iff_openable (fs : σ) (events : List (ServiceEvent σ)) :
    (∀ before t, before <+: events → Run (FileService.Step stale lib) ⟨fs, []⟩ before t →
        t.Unbroken) ↔
      ∀ before e t u, before ++ [e] <+: events → Run (FileService.Step stale lib) ⟨fs, []⟩ before t →
        FileService.Step stale lib t e u → t.Openable stale lib e := by
  have hstart : (⟨fs, []⟩ : FileService σ).Unbroken :=
    ⟨fun _ h => absurd h List.not_mem_nil, fun _ h => absurd h List.not_mem_nil,
      fun _ h => absurd h List.not_mem_nil⟩
  have hkeep (s : FileService σ) (e : ServiceEvent σ) (t : FileService σ) (h : s.Unbroken)
      (hstep : FileService.Step stale lib s e t) (hopenable : s.Openable stale lib e) : t.Unbroken :=
    h.step hstep hopenable
  have honly (s : FileService σ) (e : ServiceEvent σ) (t : FileService σ) (_ : s.Unbroken)
      (hstep : FileService.Step stale lib s e t) (h : t.Unbroken) : s.Openable stale lib e :=
    hstep.openable h
  exact forall_visited_iff_forall_taken FileService.Unbroken hstart (fun _ h => h) hkeep honly events

end

/-- On the shared tree the file of a request can be opened exactly if the request is answered. -/
theorem ServerFs.canOpen_iff (shell : Bytes → ServerFs → ServerFs) (fs : ServerFs) (r : Request) :
    (library shell).CanOpen fs r ↔ (fs.act shell r).isSome = true := by
  cases r with
  | read filename offset len =>
    have hfopen : fs.fopen filename (ascii "rb") =
        ((fs.fopenRead filename).map fun _ => resolve fs.cwd filename, fs) := if_neg (by decide)
    have hopened : (fs.fopen filename (ascii "rb")).1.isSome = (fs.fopenRead filename).isSome := by
      rw [hfopen, Option.isSome_map]
    rw [act, Option.isSome_map, ← hopened]
    exact Iff.rfl
  | write path data size offset =>
    have hopened : (fs.fopen path (ascii "a")).1.isSome = (fs.fopenAppend path []).isSome := by
      rw [fopen, if_pos rfl]
      cases fs.fopenAppend path [] <;> rfl
    rw [act, Option.isSome_map, fopenAppend_nil, Option.isSome_map, ← hopened]
    exact Iff.rfl
  | dir | getattr | truncate | rename | unlink | utime => exact iff_of_true trivial rfl

/-- A session ends over a read of `/a` when another session has removed the file. -/
theorem removed_file_breaks :
    ¬ ∀ events t, Run (FileService.Step (fun _ => []) (ServerFs.library fun _ fs => fs))
      ⟨ServerFs.ofFiles [(ascii "a", File.plain (ascii "x"))], []⟩ events t → t.Unbroken := by
  intro h
  have hstart : Run (FileService.Step (fun _ => []) (ServerFs.library fun _ fs => fs))
      ⟨ServerFs.ofFiles [(ascii "a", File.plain (ascii "x"))], []⟩ []
      ⟨ServerFs.ofFiles [(ascii "a", File.plain (ascii "x"))], []⟩ := Run.nil _
  have hunlinked := hstart.snoc (e := (.handle 1 .unlink ⟨frames [ascii "/a"], .closed⟩))
    (.handle _ _ (by simp [FileService.Alive]))
  have hread := hunlinked.snoc
    (e := (.handle 0 .read ⟨frames [ascii "a", ascii "0", ascii "1"], .closed⟩))
    (.handle _ _ (by simp [FileService.Alive]))
  exact absurd rfl ((h _ _ hread).goesOn _ List.mem_cons_self)

end Udtfs

import Udtfs.Callbacks
import Udtfs.Client
import Udtfs.Receives

/-!
# What the callbacks that change files return

The callbacks that change files return before the server has done anything, and the server sends no
result back. So the value is fixed by the arguments: zero for a rename, an unlink and a time update,
the requested size for a truncate and the size of the payload for a write, each converted to `int`.
It is true only by accident when the operation fails, and for a truncate also when it succeeds.
-/

namespace Udtfs

open NulString

/-- The calls by which the handlers change files, whatever file system makes them: whether the call
succeeds, and the files afterwards. -/
structure FileCalls (σ : Type*) where
  truncate : σ → Bytes → ℤ → Bool × σ
  /-- `fopen` for appending, `fputs` and `fclose`. -/
  append : σ → Bytes → Bytes → Bool × σ
  rename : σ → Bytes → Bytes → Bool × σ
  unlink : σ → Bytes → Bool × σ
  /-- `touch` as the command line calls it. -/
  system : σ → Bytes → Bool × σ

/-- What the handler of a request does to the files, and whether it succeeds. -/
def FileCalls.perform {σ : Type*} (calls : FileCalls σ) (fs : σ) : Request → Bool × σ
  | .dir _ | .getattr _ | .read _ _ _ => (true, fs)
  | .truncate path newsize => calls.truncate fs path newsize
  | .write path data _ _ => calls.append fs path data
  | .rename path newpath => calls.rename fs (pathToLocal path) (pathToLocal newpath)
  | .unlink path => calls.unlink fs (pathToLocal path)
  | .utime path => calls.system fs ((ascii "touch " ++ pathToLocal path).take 255)

/-- A call of a callback that changes files. -/
inductive Mutation where
  | truncate (path : Bytes) (newsize : ℤ)
  | write (path data dataBeyond : Bytes) (offset : ℤ)
  | rename (path newpath : Bytes)
  | unlink (path : Bytes)
  | utimens (path : Bytes)

/-- What the callback returns and sends. -/
def Mutation.sent (c : Client) (beyond : Bytes) : Mutation → Sent
  | .truncate path newsize => udtfsTruncate c beyond path newsize
  | .write path data dataBeyond offset => udtfsWrite c beyond path data dataBeyond offset
  | .rename path newpath => udtfsRename path newpath
  | .unlink path => udtfsUnlink path
  | .utimens path => udtfsUtimens path

/-- The value by which the callback reports success. -/
def Mutation.success : Mutation → ℤ
  | .write _ data _ _ => data.length
  | .truncate _ _ | .rename _ _ | .unlink _ | .utimens _ => 0

/-- A negative error number. -/
def IsErrno (ret : ℤ) : Prop := -4095 ≤ ret ∧ ret < 0

/-- A return value tells the truth about an operation: it is the value for success exactly if the
operation succeeded, and otherwise an error number, with the files unchanged. -/
structure Told {σ : Type*} (ret success : ℤ) (ok : Bool) (before after : σ) : Prop where
  success_iff : ret = success ↔ ok = true
  failure : ok = false → IsErrno ret ∧ after = before

/-- The low half of the value is that of an error number. -/
def LooksErrno (x : ℤ) : Prop := 2 ^ 32 - 4095 ≤ x % 2 ^ 32

/-- When the return value tells the truth. -/
def Mutation.Truthful {σ : Type*} (ok : Bool) (before after : σ) : Mutation → Prop
  | .rename _ _ | .unlink _ | .utimens _ => ok = true
  | .truncate _ newsize =>
    if ok then newsize % 2 ^ 32 = 0 else LooksErrno newsize ∧ after = before
  | .write _ data _ _ =>
    if ok then data.length < 2 ^ 31 else LooksErrno data.length ∧ after = before

/-- An `int` is zero exactly if the low half of the value is. -/
theorem toInt_eq_zero_iff (x : ℤ) : toInt x = 0 ↔ x % 2 ^ 32 = 0 := by
  rw [toInt, toSigned]
  omega

/-- An `int` is a negative error number exactly if the low half of the value is that of one. -/
theorem isErrno_toInt_iff (x : ℤ) : IsErrno (toInt x) ↔ LooksErrno x := by
  rw [IsErrno, LooksErrno, toInt, toSigned]
  omega

/-- A fixed value for success tells the truth exactly about successful operations. -/
theorem told_success_iff {σ : Type*} (success : ℤ) (ok : Bool) (before after : σ) :
    Told success success ok before after ↔ ok = true := by
  constructor
  · exact fun h => h.success_iff.mp rfl
  · intro hok
    refine ⟨iff_of_true rfl hok, fun hfailed => ?_⟩
    rw [hok] at hfailed
    contradiction

/-- A converted value tells the truth if it is the value for success and the operation succeeded, or
if it is that of an error number and the operation failed without an effect. -/
theorem told_toInt_iff {σ : Type*} (x : ℤ) {success : ℤ} (hsuccess : 0 ≤ success) (ok : Bool)
    (before after : σ) :
    Told (toInt x) success ok before after ↔
      if ok then toInt x = success else LooksErrno x ∧ after = before := by
  cases ok with
  | true =>
    rw [if_pos rfl]
    exact ⟨fun h => h.success_iff.mpr rfl, fun h => ⟨iff_of_true h rfl, nofun⟩⟩
  | false =>
    rw [if_neg (by decide), ← isErrno_toInt_iff]
    constructor
    · exact fun h => h.failure rfl
    · rintro ⟨herrno, hunchanged⟩
      refine ⟨iff_of_false ?_ (by decide), fun _ => ⟨herrno, hunchanged⟩⟩
      intro heq
      have hneg := herrno.2
      omega

/-- How many arguments a handler receives. -/
def Command.receives : Command → ℕ
  | .dir | .getattr | .unlink | .utime => 1
  | .truncate | .rename => 2
  | .read => 3
  | .write => 4

/-- The receive limit of a handler for each of its arguments. -/
def Command.limit : Command → ℕ
  | .dir | .getattr => mMaxPath + mMaxFile - 1
  | .read | .truncate | .write | .rename | .unlink | .utime => mMaxVal - 1

section
variable (stale : ℕ → Bytes) (ending : RecvEnd)

/-- A handler with small buffers that receives all its arguments acts on the paths among them. -/
theorem receive_paths {c : Command} (hlimit : c.limit = mMaxVal - 1) {s : TcpStream}
    (h : Receivable c.receives s) :
    ∃ q, c.receive stale s = ⟨some q, skip^[c.receives] s⟩ ∧ q.command = c ∧
      ∀ i < q.paths.length, q.paths[i]? = some (argument stale (skip^[i] s)) := by
  have hfirst (i : ℕ) (hi : i < 1) : [argument stale s][i]? = some (argument stale (skip^[i] s)) := by
    obtain rfl : i = 0 := by omega
    rfl
  cases c with
  | dir | getattr => exact absurd hlimit (by decide)
  | read =>
    obtain ⟨h1, h2, h3, -⟩ := h
    simp only [Command.receive, serverSendsegment, receivingSizeT_of_pos stale h1,
      receivingSizeT_of_pos stale h2, receivingSizeT_of_pos stale h3]
    exact ⟨_, rfl, rfl, hfirst⟩
  | truncate =>
    obtain ⟨h1, h2, -⟩ := h
    simp only [Command.receive, serverTruncate, receiving_of_pos stale h1, receiving_of_pos stale h2]
    exact ⟨_, rfl, rfl, hfirst⟩
  | write =>
    obtain ⟨h1, h2, h3, h4, -⟩ := h
    simp only [Command.receive, serverWrite, receiving_of_pos stale h1, receiving_of_pos stale h2,
      receiving_of_pos stale h3, receiving_of_pos stale h4]
    exact ⟨_, rfl, rfl, hfirst⟩
  | rename =>
    obtain ⟨h1, h2, -⟩ := h
    simp only [Command.receive, serverRename, receiving_of_pos stale h1, receiving_of_pos stale h2]
    refine ⟨_, rfl, rfl, fun i hi => ?_⟩
    have hi : i = 0 ∨ i = 1 := by
      simp only [Request.paths, List.length_cons, List.length_nil] at hi
      omega
    rcases hi with rfl | rfl <;> rfl
  | unlink | utime =>
    obtain ⟨h1, -⟩ := h
    simp only [Command.receive, serverUnlink, serverUtime, receiving_of_pos stale h1]
    exact ⟨_, rfl, rfl, hfirst⟩

/-- The arguments of a request are as many strings as its handler receives. -/
theorem Request.arguments_framed (r : Request) :
    (∀ s ∈ r.arguments, NulFree s) ∧ r.arguments.length = r.command.receives := by
  cases r <;> simp [Request.arguments, clientReqdir, clientReqattr, clientReqsegment,
    clientReqtruncate, clientReqwrite, clientReqrename, clientRequnlink, clientRequtime,
    cstr_nulFree, printLu_nulFree, Command.receives, Request.command]

/-- A request for a handler with small buffers is acted on with the paths that the receives find. -/
theorem Request.handle_paths (later : Bytes) {r : Request} (hlimit : r.command.limit = mMaxVal - 1) :
    ∃ q rest, handleCommand stale ⟨r.wire ++ later, ending⟩ = some (.handled q, rest) ∧
      q.command = r.command ∧
      ∀ i < q.paths.length, q.paths[i]? =
        some (argument stale (skip^[i] ⟨frames r.arguments ++ later, ending⟩)) := by
  obtain ⟨hframed, hlength⟩ := r.arguments_framed
  obtain ⟨q, hreceive, hcommand, hpaths⟩ := receive_paths stale hlimit
    (receivable_frames ending r.command.receives r.arguments hframed hlength.ge later)
  obtain ⟨hname, -, hlen⟩ := name_framed r.command
  have hpass := handleCommand_frame stale hname (hlen.trans_lt (by decide))
    (frames r.arguments ++ later) ending
  rw [dispatch, commandOf_name] at hpass
  simp only [hreceive] at hpass
  rw [Request.wire_eq, List.append_assoc]
  exact ⟨q, _, hpass, hcommand, hpaths⟩

/-- The server always acts on the request of a callback that changes files, with a handler of the
request's command, even if it does not receive the arguments as they were sent. -/
theorem handled_mutation (m : Mutation) (c : Client) (beyond later : Bytes) :
    ∃ q rest, handleCommand stale ⟨(m.sent c beyond).request.wire ++ later, ending⟩ =
        some (.handled q, rest) ∧ q.command = (m.sent c beyond).request.command := by
  have hlimit : (m.sent c beyond).request.command.limit = mMaxVal - 1 := by cases m <;> rfl
  obtain ⟨q, rest, hpass, hcommand, -⟩ := Request.handle_paths stale ending later hlimit
  exact ⟨q, rest, hpass, hcommand⟩

/-- The result of the operation that the server performs for a call. -/
def Mutation.outcome {σ : Type*} (calls : FileCalls σ) (fs : σ) (c : Client) (beyond : Bytes)
    (m : Mutation) (later : Bytes) : Option (Bool × σ) :=
  match handleCommand stale ⟨(m.sent c beyond).request.wire ++ later, ending⟩ with
  | some (.handled q, _) => some (calls.perform fs q)
  | _ => none

/-- There always is one. -/
theorem outcome_isSome {σ : Type*} (calls : FileCalls σ) (fs : σ) (c : Client) (beyond : Bytes)
    (m : Mutation) (later : Bytes) :
    (m.outcome stale ending calls fs c beyond later).isSome = true := by
  obtain ⟨q, rest, hpass, -⟩ := handled_mutation stale ending m c beyond later
  rw [Mutation.outcome, hpass]
  rfl

/-- What a callback returns is true exactly if the operation succeeded and the value for success
survives the conversion to `int`, or a truncate or a write failed without an effect and its size
happens to look like an error number. -/
theorem told_iff_truthful {σ : Type*} (m : Mutation) (c : Client) (beyond : Bytes) (ok : Bool)
    (before after : σ) :
    Told (m.sent c beyond).ret m.success ok before after ↔ m.Truthful ok before after := by
  cases m with
  | truncate path newsize =>
    rw [Mutation.sent, udtfsTruncate, Mutation.success, Mutation.Truthful,
      told_toInt_iff newsize le_rfl, toInt_eq_zero_iff]
  | write path data dataBeyond offset =>
    rw [Mutation.sent, udtfsWrite, Mutation.success, Mutation.Truthful,
      told_toInt_iff _ (Int.natCast_nonneg _), toInt_natCast_iff]
  | rename | unlink | utimens => exact told_success_iff 0 ok before after

/-- The server acts on the call, and the callback tells the truth about it. -/
def Mutation.TellsTruth {σ : Type*} (calls : FileCalls σ) (fs : σ) (c : Client) (beyond : Bytes)
    (m : Mutation) (later : Bytes) : Prop :=
  ∃ ok fs', m.outcome stale ending calls fs c beyond later = some (ok, fs') ∧
    Told (m.sent c beyond).ret m.success ok fs fs'

end

namespace ServerFs

/-- `truncate` is permitted. -/
def mayTruncate (fs : ServerFs) (path : Bytes) (newsize : ℤ) : Bool :=
  match fs.lookup path with
  | some (.file f) => f.resizable && 0 ≤ newsize && newsize ≤ fs.maxSize
  | _ => false

/-- All data find room in the file that a path names. -/
def hasRoom (fs : ServerFs) (path data : Bytes) : Bool :=
  fs.appended ((fs.contentOf path).getD []) data = (fs.contentOf path).getD [] ++ data

/-- `unlink` is permitted. -/
def mayUnlink (fs : ServerFs) (path : Bytes) : Bool :=
  match fs.lookup path with
  | some (.file _) => fs.parentWritable (resolve fs.cwd path)
  | _ => false

/-- The calls on the tree, with a shell and its exit status. A file may also be renamed to itself. -/
def calls (shell : Bytes → ServerFs → ServerFs) (exits : Bytes → ServerFs → Bool) :
    FileCalls ServerFs where
  truncate fs path newsize := (fs.mayTruncate path newsize, fs.truncate path newsize)
  append fs path data :=
    match fs.fopenAppend path data with
    | some fs' => (fs.hasRoom path data, fs')
    | none => (false, fs)
  rename fs path newpath :=
    (fs.mayRename path newpath ||
      (fs.lookup path).isSome && resolve fs.cwd path == resolve fs.cwd newpath,
      fs.rename path newpath)
  unlink fs path := (fs.mayUnlink path, fs.unlink path)
  system fs command := (exits command fs, shell command fs)

section
variable (shell : Bytes → ServerFs → ServerFs) (exits : Bytes → ServerFs → Bool)

/-- The handlers make these calls: when a handler returns, the tree is that of its calls. -/
theorem act_perform {fs : ServerFs} {q : Request} {answer : Answer}
    (h : fs.act shell q = some answer) : ((calls shell exits).perform fs q).2 = answer.fs := by
  cases q with
  | dir | getattr | truncate | rename | unlink | utime => rw [← Option.some.inj h]; rfl
  | read filename offset len =>
    obtain ⟨content, -, rfl⟩ := Option.map_eq_some_iff.mp h
    rfl
  | write path data size offset =>
    obtain ⟨fs', hfs', rfl⟩ := Option.map_eq_some_iff.mp h
    simp only [FileCalls.perform, calls, hfs']

/-- A call that fails leaves the tree unchanged, unless the shell changes it or a write finds too
little room. -/
theorem perform_refused {fs : ServerFs} {q : Request} (hq : q.command ≠ .utime)
    (hwrite : q.command ≠ .write) (h : ((calls shell exits).perform fs q).1 = false) :
    ((calls shell exits).perform fs q).2 = fs := by
  cases q with
  | dir | getattr | read => rfl
  | truncate path newsize =>
    simp only [FileCalls.perform, calls, mayTruncate] at h ⊢
    rw [truncate]
    cases hnode : fs.lookup path with
    | none => rfl
    | some node =>
      rw [hnode] at h
      cases node with
      | directory d => rfl
      | file f =>
        dsimp only at h ⊢
        rw [if_neg]
        rintro ⟨hresizable, hnonneg, hmax⟩
        simp [hresizable, hnonneg, hmax] at h
  | write => exact absurd rfl hwrite
  | rename path newpath =>
    simp only [FileCalls.perform, calls, Bool.or_eq_false_iff] at h ⊢
    rw [rename, h.1]
    rfl
  | unlink path =>
    simp only [FileCalls.perform, calls, mayUnlink] at h ⊢
    rw [unlink]
    cases hnode : fs.lookup (pathToLocal path) with
    | none => rfl
    | some node =>
      rw [hnode] at h
      cases node with
      | directory d => rfl
      | file f =>
        dsimp only at h ⊢
        rw [h, if_neg (by decide)]
  | utime => exact absurd rfl hq

end

end ServerFs

end Udtfs

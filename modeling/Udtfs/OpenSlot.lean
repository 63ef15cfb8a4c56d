import Udtfs.Client
import Udtfs.Lib.Run

/-!
# The open file under renames

The client remembers the name under which its one file was opened, and a rename does not change it.
So a rename of the open file leaves the slot behind: reads ask for the old name, and the release of
the new one is not recognized, after which no file can be opened any more.
-/

namespace Udtfs

open NulString Transition

/-! ## Sessions with renames -/

/-- Where something at or below a renamed path is afterwards. -/
def FusePath.moved (p path newpath : FusePath) : FusePath where
  components := newpath.components ++ p.components.drop path.components.length
  proper name hname := by
    rcases List.mem_append.mp hname with hnew | hrest
    · exact newpath.proper name hnew
    · exact p.proper name (List.mem_of_mem_drop hrest)

/-- What lies below a renamed path keeps its names below the new one. -/
theorem FusePath.moved_components {p path : FusePath} {rest : List Bytes}
    (h : path.components ++ rest = p.components) (newpath : FusePath) :
    (p.moved path newpath).components = newpath.components ++ rest := by
  have hcomponents : (p.moved path newpath).components =
      newpath.components ++ p.components.drop path.components.length := rfl
  rw [hcomponents, ← h, List.drop_left]

/-- The globals of the client, the files of the server, and the path of the open file now. -/
structure Slot where
  client : Client
  fs : ServerFs
  current : FusePath

/-- The callbacks of a session between its open and its release. -/
inductive SlotEvent
  | read (size : ℕ) (offset : ℤ)
  | rename (path newpath : FusePath)

/-- A rename that takes the open file along. -/
def Slot.Moves (s : Slot) (path newpath : FusePath) : Prop :=
  s.fs.mayRename (pathToLocal path.bytes) (pathToLocal newpath.bytes) = true ∧
    path.components <+: s.current.components

instance (s : Slot) (path newpath : FusePath) : Decidable (s.Moves path newpath) :=
  inferInstanceAs (Decidable (_ ∧ _))

/-- A rename that puts something in the place of the open file or of a directory above it. -/
def Slot.Replaces (s : Slot) (path newpath : FusePath) : Prop :=
  s.fs.mayRename (pathToLocal path.bytes) (pathToLocal newpath.bytes) = true ∧
    newpath.components <+: s.current.components

instance (s : Slot) (path newpath : FusePath) : Decidable (s.Replaces path newpath) :=
  inferInstanceAs (Decidable (_ ∧ _))

/-- The path of the open file after a rename. -/
def Slot.renamed (s : Slot) (path newpath : FusePath) : FusePath :=
  if s.Moves path newpath then s.current.moved path newpath else s.current

/-- Renames whose paths fit the buffers of the server and that do not replace the open file: a server
does not replace a directory in use, and the kernel side first renames an open file that another is
to replace. -/
def Slot.Admits (s : Slot) : SlotEvent → Prop
  | .read _ _ => True
  | .rename path newpath =>
    (path.bytes.length ≤ 126 ∧ newpath.bytes.length ≤ 126) ∧ ¬ s.Replaces path newpath

instance (s : Slot) : DecidablePred s.Admits
  | .read _ _ => inferInstanceAs (Decidable True)
  | .rename path newpath => inferInstanceAs (Decidable
      ((path.bytes.length ≤ 126 ∧ newpath.bytes.length ≤ 126) ∧ ¬ s.Replaces path newpath))

/-- The open file stays at its path. -/
def Slot.Stays (s : Slot) : SlotEvent → Prop
  | .read _ _ => True
  | .rename path newpath => ¬ s.Moves path newpath

instance (s : Slot) : DecidablePred s.Stays
  | .read _ _ => inferInstanceAs (Decidable True)
  | .rename path newpath => inferInstanceAs (Decidable (¬ s.Moves path newpath))

section
variable (stale : ℕ → Bytes) (shell : Bytes → ServerFs → ServerFs)

/-- One callback of a session. What the server sends for a read is arbitrary, and so is what becomes of
its files when it does not receive a rename as it was issued. -/
inductive SlotStep : Slot → SlotEvent → Slot → Prop
  | read {s : Slot} {beyond : Bytes} {size : ℕ} {offset : ℤ} {serve : Request → Option Bytes}
      {r : ReadResult} (hread : udtfsRead s.client beyond size offset serve = some r) :
      SlotStep s (.read size offset) { s with client := r.client }
  | rename {s : Slot} {path newpath : FusePath} {answer : Answer}
      (hanswer : exchange stale shell s.fs (udtfsRename path.bytes newpath.bytes).request =
        some answer) :
      SlotStep s (.rename path newpath)
        { s with fs := answer.fs, current := s.renamed path newpath }
  | garbled {s : Slot} {path newpath : FusePath}
      (hgarbled : exchange stale shell s.fs (udtfsRename path.bytes newpath.bytes).request = none)
      (fs : ServerFs) (current : FusePath) :
      SlotStep s (.rename path newpath) { s with fs := fs, current := current }

/-- The slot follows the open file `f`: a read names it, and its release frees the slot and resets the
cache, so that every existing file whose `getattr` is answered can be opened next. -/
structure Slot.Follows (f : File) (s : Slot) : Prop where
  denotes : ∀ beyond offset, ∀ name ∈ (s.client.refillRequest beyond offset).paths,
    s.fs.lookup name = some (.file f) ∧
      resolve s.fs.cwd name = s.fs.cwd ++ s.current.components
  closes : (udtfsRelease s.client s.current.bytes).fileIsOpen = false ∧
    (udtfsRelease s.client s.current.bytes).cacheOffset = 0 ∧
    (udtfsRelease s.client s.current.bytes).cacheLen = 0
  opens : ∀ (q : FusePath) st answer ending, s.fs.stat q.name = some st →
    exchange stale shell s.fs (.getattr (stripSlash q.bytes)) = some answer →
    (udtfsOpen stale (udtfsRelease s.client s.current.bytes) q.bytes ⟨answer.tcp, ending⟩).1 = 0

/-- The path of the open file names it. -/
def Slot.Located (f : File) (s : Slot) : Prop := s.fs.lookup s.current.name = some (.file f)

instance (f : File) (s : Slot) : Decidable (s.Located f) :=
  inferInstanceAs (Decidable (s.fs.lookup s.current.name = some (.file f)))

/-- The open file is still at the path under which it was opened and remembered. -/
structure Slot.Inv (p : FusePath) (f : File) (s : Slot) : Prop where
  current : s.current = p
  fileName : s.client.fileName = strncpy p.name mMaxVal
  isOpen : s.client.fileIsOpen = true
  located : s.Located f

/-! ## Opening and releasing -/

/-- An open that succeeds remembers the name. -/
theorem udtfsOpen_success {c : Client} {path : Bytes} {reply : TcpStream}
    (h : (udtfsOpen stale c path reply).1 = 0) :
    (udtfsOpen stale c path reply).2.fileName = strncpy (stripSlash path) mMaxVal ∧
      (udtfsOpen stale c path reply).2.fileIsOpen = true := by
  constructor
  · rw [udtfsOpen_fileName, if_pos h]
  · unfold udtfsOpen at h ⊢
    dsimp only at h ⊢
    split
    · next hopen => exact hopen
    · next hclosed =>
      rw [if_neg hclosed] at h
      split
      · next hfailed =>
        rw [if_pos hfailed] at h
        contradiction
      · rfl

/-- A `getattr` request that is received as issued is answered with the attributes. -/
theorem exchange_getattr_some {fs : ServerFs} {path : Bytes} (hpath : NulFree path)
    {answer : Answer} (h : exchange stale shell fs (.getattr path) = some answer) :
    answer.tcp = sendattrReply (fs.stat (pathToLocal path)) := by
  by_cases hlen : path.length ≤ 638
  · have hcarried : (Request.getattr path).Carried := ⟨hpath, hlen⟩
    rw [exchange_carried hcarried, ServerFs.act] at h
    rw [← Option.some.inj h]
  · have hhandle : handleCommand stale ⟨(Request.getattr path).wire, .closed⟩ =
        some (.handled (.getattr (path.take 639 ++ cstr (stale (path.drop 639 ++ [0]).length))),
          ⟨path.drop 639 ++ [0], .closed⟩) := by
      obtain ⟨hname, -, hshort⟩ := name_framed Command.getattr
      have hmax : 639 ≤ path.length := by omega
      rw [Request.wire_eq]
      simp only [Request.command, Request.arguments, clientReqattr, cstr_of_nulFree hpath,
        frames_cons, frames_nil]
      rw [handleCommand_frame stale hname (hshort.trans_lt (by decide)), dispatch, commandOf_name]
      simp only [Command.receive, serverSendattr]
      rw [receiving_full stale hpath [0] .closed (by decide) (by exact hmax)]
      rfl
    rw [exchange, hhandle] at h
    obtain ⟨b, rest, hrest⟩ : ∃ b rest, path.drop 639 ++ [0] = b :: rest :=
      List.exists_cons_of_ne_nil (by simp)
    rw [hrest] at h
    contradiction

/-! ## Renames and the open file -/

/-- A path that fits the server's buffers is renamed at the location of its components. -/
theorem resolve_renamed {path : FusePath} (hlen : path.bytes.length ≤ 126) (cwd : Path) :
    resolve cwd (pathToLocal path.bytes) = cwd ++ path.components :=
  path.resolve_pathToLocal_bytes (hlen.trans (by decide)) cwd

/-- Such a rename is received as it was issued. -/
theorem exchange_rename {path newpath : FusePath} (hlen : path.bytes.length ≤ 126)
    (hnewlen : newpath.bytes.length ≤ 126) (fs : ServerFs) :
    exchange stale shell fs (udtfsRename path.bytes newpath.bytes).request =
      some ⟨fs.rename (pathToLocal path.bytes) (pathToLocal newpath.bytes), [], []⟩ := by
  have hfree (q : FusePath) : NulFree q.bytes :=
    (nulFree_cons 47 q.name).mpr ⟨by decide, q.name_nulFree⟩
  have hcarried : (Request.rename path.bytes newpath.bytes).Carried :=
    ⟨⟨hfree path, hlen⟩, hfree newpath, hnewlen⟩
  rw [udtfsRename, exchange_carried hcarried, ServerFs.act]

/-- What moves is somewhere else afterwards. -/
theorem Slot.Moves.ne {s : Slot} {path newpath : FusePath} (hlen : path.bytes.length ≤ 126)
    (hnewlen : newpath.bytes.length ≤ 126) (h : s.Moves path newpath) :
    (s.current.moved path newpath).components ≠ s.current.components := by
  obtain ⟨hmay, rest, hcurrent⟩ := h
  have hother := ServerFs.not_prefix_of_mayRename hmay
  rw [resolve_renamed hlen, resolve_renamed hnewlen] at hother
  intro heq
  rw [FusePath.moved_components hcurrent, ← hcurrent, List.append_left_inj] at heq
  exact hother (by rw [heq])

section
variable {s : Slot} {path newpath : FusePath} {f : File}

/-- What names a file is no path of the shared directory itself. -/
theorem Slot.Located.components_ne_nil (h : s.Located f) : s.current.components ≠ [] :=
  mt s.current.name_eq_nil_iff.mpr (ServerFs.ne_nil_of_lookup h)

/-- A path behind which the open file moves is not that of the shared directory itself. -/
theorem Slot.Moves.newpath_ne_nil (h : s.Moves path newpath) : newpath.components ≠ [] :=
  newpath.components_of_endsInName (ServerFs.ends_of_mayRename h.1).1

/-- All directories on the way to the new path of a rename are there. -/
theorem Slot.Moves.newpath_reached (h : s.Moves path newpath) (hnewlen : newpath.bytes.length ≤ 126) :
    newpath.Reached s.fs :=
  FusePath.reached_of_pathToLocal h.newpath_ne_nil (hnewlen.trans (by decide))
    (ServerFs.ends_of_mayRename h.1).2

/-- Where a rename leaves the directories of the shared directory. -/
theorem Slot.searchable_rename (hlen : path.bytes.length ≤ 126) (hnewlen : newpath.bytes.length ≤ 126)
    (hmay : s.fs.mayRename (pathToLocal path.bytes) (pathToLocal newpath.bytes) = true) (q : Path) :
    (s.fs.rename (pathToLocal path.bytes) (pathToLocal newpath.bytes)).searchable (s.fs.cwd ++ q) =
      if newpath.components <+: q then
        s.fs.searchable (s.fs.cwd ++ (path.components ++ q.drop newpath.components.length))
      else if path.components <+: q then none else s.fs.searchable (s.fs.cwd ++ q) := by
  have hdrop : (s.fs.cwd ++ q).drop (s.fs.cwd ++ newpath.components).length =
      q.drop newpath.components.length := by
    rw [List.length_append, ← List.drop_drop, List.drop_left]
  rw [ServerFs.searchable_rename hmay, resolve_renamed hlen, resolve_renamed hnewlen, hdrop,
    List.append_assoc]
  simp only [List.prefix_append_right_inj]

/-- A rename that moves the open file leaves all directories on the way to its new path. -/
theorem Slot.Moves.reached (h : s.Moves path newpath) (hlen : path.bytes.length ≤ 126)
    (hnewlen : newpath.bytes.length ≤ 126) (hreached : s.current.Reached s.fs) :
    (s.current.moved path newpath).Reached
      (s.fs.rename (pathToLocal path.bytes) (pathToLocal newpath.bytes)) := by
  have hnewreached := h.newpath_reached hnewlen
  obtain ⟨hmay, rest, hcurrent⟩ := h
  have hother := ServerFs.not_prefix_of_mayRename hmay
  rw [resolve_renamed hlen, resolve_renamed hnewlen, List.prefix_append_right_inj] at hother
  intro before later hsplit hlater
  rw [FusePath.moved_components hcurrent] at hsplit
  rw [ServerFs.rename_cwd, Slot.searchable_rename hlen hnewlen hmay]
  by_cases hinside : newpath.components <+: before
  · obtain ⟨inner, rfl⟩ := hinside
    rw [List.append_assoc, List.append_right_inj] at hsplit
    rw [if_pos (List.prefix_append _ _), List.drop_left]
    exact hreached _ later (by rw [List.append_assoc, hsplit, hcurrent]) hlater
  · obtain ⟨between, hbetween⟩ := (List.prefix_or_prefix_of_prefix
      (List.prefix_append newpath.components rest) ⟨later, hsplit⟩).resolve_left hinside
    rw [if_neg hinside, if_neg fun hbelow => hother (hbelow.trans ⟨between, hbetween⟩)]
    refine hnewreached before between hbetween fun hnil => hinside ?_
    rw [← hbetween, hnil, List.append_nil]

/-- A rename that neither moves nor replaces the open file leaves all directories on the way to it. -/
theorem Slot.reached_rename (hlen : path.bytes.length ≤ 126) (hnewlen : newpath.bytes.length ≤ 126)
    (hstays : ¬ s.Moves path newpath) (hkept : ¬ s.Replaces path newpath)
    (hreached : s.current.Reached s.fs) :
    s.current.Reached (s.fs.rename (pathToLocal path.bytes) (pathToLocal newpath.bytes)) := by
  intro before later hsplit hlater
  have hbefore := hreached before later hsplit hlater
  rw [ServerFs.rename_cwd]
  by_cases hmay : s.fs.mayRename (pathToLocal path.bytes) (pathToLocal newpath.bytes) = true
  · rw [Slot.searchable_rename hlen hnewlen hmay,
      if_neg fun hprefix => hkept ⟨hmay, hprefix.trans ⟨later, hsplit⟩⟩,
      if_neg fun hprefix => hstays ⟨hmay, hprefix.trans ⟨later, hsplit⟩⟩, hbefore]
  · rw [ServerFs.rename]
    dsimp only
    rw [if_neg hmay, hbefore]

/-- A rename that does not replace the open file leaves it in its place or moves it to its new one. -/
theorem Slot.located_rename (hfile : s.Located f) (hlen : path.bytes.length ≤ 126)
    (hnewlen : newpath.bytes.length ≤ 126) (hkept : ¬ s.Replaces path newpath) :
    (s.fs.rename (pathToLocal path.bytes) (pathToLocal newpath.bytes)).lookup
        (s.renamed path newpath).name = some (.file f) := by
  obtain ⟨hreached, hnode⟩ := (FusePath.lookup_name_iff hfile.components_ne_nil).mp hfile
  rw [Slot.renamed]
  by_cases hmoves : s.Moves path newpath
  · obtain ⟨hmay, rest, hcurrent⟩ := id hmoves
    have hmoved : s.fs.node (resolve s.fs.cwd (pathToLocal path.bytes) ++ rest) = some (.file f) →
        _ := ServerFs.node_rename_moved hmay
    rw [resolve_renamed hlen, resolve_renamed hnewlen, List.append_assoc, List.append_assoc,
      hcurrent] at hmoved
    have hcomponents := FusePath.moved_components hcurrent newpath
    rw [if_pos hmoves, FusePath.lookup_name_iff, ServerFs.rename_cwd, hcomponents]
    · exact ⟨hmoves.reached hlen hnewlen hreached, hmoved hnode⟩
    · rw [hcomponents]
      exact List.append_ne_nil_of_left_ne_nil hmoves.newpath_ne_nil rest
  · rw [if_neg hmoves, FusePath.lookup_name_iff hfile.components_ne_nil, ServerFs.rename_cwd]
    refine ⟨Slot.reached_rename hlen hnewlen hmoves hkept hreached, ServerFs.node_rename_other hnode ?_ ?_⟩
    · intro hmay
      rw [resolve_renamed hlen, List.prefix_append_right_inj]
      exact fun hprefix => hmoves ⟨hmay, hprefix⟩
    · intro hmay
      rw [resolve_renamed hnewlen, List.prefix_append_right_inj]
      exact fun hprefix => hkept ⟨hmay, hprefix⟩

end

section
variable {stale shell} {p : FusePath} {f : File}

/-- An admitted rename is performed as it was issued. -/
theorem SlotStep.rename_admitted {s t : Slot} {path newpath : FusePath}
    (h : SlotStep stale shell s (.rename path newpath) t)
    (hadmits : s.Admits (.rename path newpath)) :
    t = { s with
      fs := s.fs.rename (pathToLocal path.bytes) (pathToLocal newpath.bytes)
      current := s.renamed path newpath } := by
  have hexchange := exchange_rename stale shell hadmits.1.1 hadmits.1.2 s.fs
  cases h with
  | rename hanswer =>
    rw [hexchange] at hanswer
    rw [← Option.some.inj hanswer]
  | garbled hgarbled =>
    rw [hexchange] at hgarbled
    contradiction

/-- The open file is at its path after every admitted callback. -/
theorem SlotStep.located {s t : Slot} {e : SlotEvent} (h : SlotStep stale shell s e t)
    (hadmits : s.Admits e) (hfile : s.Located f) : t.Located f := by
  cases e with
  | read size offset =>
    cases h with
    | read hread => exact hfile
  | rename path newpath =>
    obtain rfl := h.rename_admitted hadmits
    obtain ⟨⟨hlen, hnewlen⟩, hkept⟩ := hadmits
    exact Slot.located_rename hfile hlen hnewlen hkept

/-- So it is in every state of a session. -/
theorem located_run {s t : Slot} {events : List SlotEvent}
    (h : Run (Guarded Slot.Admits (SlotStep stale shell)) s events t) (hfile : s.Located f) :
    t.Located f :=
  h.invariant (fun _ _ _ hlocated hstep => hstep.2.located hstep.1 hlocated) hfile

/-- A callback that leaves the open file in its place leaves it in its slot. -/
theorem SlotStep.inv {s t : Slot} {e : SlotEvent} (h : SlotStep stale shell s e t)
    (hadmits : s.Admits e) (hinv : s.Inv p f) (hstays : s.Stays e) : t.Inv p f := by
  have hlocated := h.located hadmits hinv.located
  cases e with
  | read size offset =>
    cases h with
    | read hread =>
      obtain ⟨hopen, hname, -⟩ := udtfsRead_globals hread
      exact ⟨hinv.current, hname.trans hinv.fileName, hopen.trans hinv.isOpen, hlocated⟩
  | rename path newpath =>
    obtain rfl := h.rename_admitted hadmits
    have hcurrent : s.renamed path newpath = p := (if_neg hstays).trans hinv.current
    exact ⟨hcurrent, hinv.fileName, hinv.isOpen, hlocated⟩

/-- A remembered name that fits lets the slot follow the file that is still at its path. -/
theorem Slot.Inv.follows {s : Slot} (h : s.Inv p f) (hlen : p.name.length < mMaxVal) :
    s.Follows stale shell f where
  denotes beyond offset name hname := by
    have hopen := openName_of_strncpy h.fileName p.name_nulFree hlen beyond
    have hasked : name = p.name := by
      rw [← hopen]
      exact List.mem_singleton.mp hname
    have hnamed := h.located
    rw [Slot.Located, h.current] at hnamed
    rw [h.current, hasked, p.resolve_name]
    exact ⟨hnamed, rfl⟩
  closes := by
    rw [h.current, udtfsRelease_remembered h.isOpen h.fileName hlen]
    exact ⟨rfl, rfl, rfl⟩
  opens q st answer ending hstat hanswer := by
    rw [q.stripSlash_bytes] at hanswer
    have htcp := exchange_getattr_some stale shell q.name_nulFree hanswer
    rw [q.pathToLocal_name, hstat] at htcp
    rw [h.current, udtfsRelease_remembered h.isOpen h.fileName hlen, htcp, udtfsOpen_some stale rfl]

/-- A name that does not fit leaves the array without a terminator, so that its reading runs on into
the memory behind. -/
theorem openName_unterminated {c : Client} {name : Bytes} (hc : c.fileName = strncpy name mMaxVal)
    (hname : NulFree name) (hlen : mMaxVal ≤ name.length) {beyond : Bytes} (hbeyond : NulFree beyond) :
    c.openName beyond = name.take mMaxVal ++ beyond := by
  rw [Client.openName, hc, strncpy, Nat.sub_eq_zero_of_le hlen, List.replicate_zero, List.append_nil,
    cstr_append_of_nulFree (hname.of_isPrefix (List.take_prefix mMaxVal _)), cstr_of_nulFree hbeyond]

/-- Only a remembered name that fits denotes the open file whatever lies behind the array. -/
theorem Slot.Follows.name_fits {s : Slot} (h : s.Follows stale shell f)
    (hc : s.client.fileName = strncpy p.name mMaxVal) : p.name.length < mMaxVal := by
  by_contra hlong
  have hlen : mMaxVal ≤ p.name.length := by omega
  have htake : p.name.take mMaxVal ≠ [] := by
    rw [← List.length_pos_iff, List.length_take_of_le hlen]
    decide
  have hdenotes (name : Bytes) (hname : name ≠ [] ∧ NulFree name ∧ 47 ∉ name ∧ name ≠ ascii "." ∧
      name ≠ ascii "..") :
      resolve s.fs.cwd (p.name.take mMaxVal) ++ [name] = s.fs.cwd ++ s.current.components := by
    have hbeyond : NulFree (47 :: name) := (nulFree_cons 47 name).mpr ⟨by decide, hname.2.1⟩
    have hasked := (h.denotes (47 :: name) 0 _ List.mem_cons_self).2
    rwa [openName_unterminated hc p.name_nulFree hlen hbeyond,
      resolve_append_name s.fs.cwd htake hname] at hasked
  have ha := hdenotes (ascii "a") (by decide)
  have hb := hdenotes (ascii "b") (by decide)
  have hsame := List.append_cancel_left (ha.trans hb.symm)
  exact absurd hsame (by decide)

/-- A slot that still follows its file after a callback shows that the file stayed at its path. -/
theorem SlotStep.stays {s t : Slot} {e : SlotEvent} (h : SlotStep stale shell s e t)
    (hadmits : s.Admits e) (hinv : s.Inv p f) (hlen : p.name.length < mMaxVal)
    (hfollows : t.Follows stale shell f) : s.Stays e := by
  cases e with
  | read size offset => trivial
  | rename path newpath =>
    obtain rfl := h.rename_admitted hadmits
    obtain ⟨⟨hplen, hnewlen⟩, -⟩ := hadmits
    intro hmoves
    have hasked := (hfollows.denotes [] 0 _ List.mem_cons_self).2
    rw [openName_of_strncpy hinv.fileName p.name_nulFree hlen, p.resolve_name,
      List.append_cancel_left_eq] at hasked
    apply hmoves.ne hplen hnewlen
    rw [hinv.current, hasked]
    exact congrArg FusePath.components (by rw [Slot.renamed, if_pos hmoves, hinv.current])

/-- **A lost slot.** After a rename that moves the open file, reads ask for a name that does not exist,
the release of the file changes nothing, and no file can be opened any more. -/
theorem Slot.Inv.lost {s t : Slot} {path newpath : FusePath} (hinv : s.Inv p f)
    (hlen : p.name.length < mMaxVal)
    (hadmits : s.Admits (.rename path newpath)) (hmoves : s.Moves path newpath)
    (hstep : SlotStep stale shell s (.rename path newpath) t) :
    (∀ beyond, t.fs.lookup (t.client.openName beyond) = none) ∧
      udtfsRelease t.client t.current.bytes = t.client ∧
      ∀ (q : Bytes) reply, (udtfsOpen stale t.client q reply).1 = -eIo := by
  obtain rfl := hstep.rename_admitted hadmits
  obtain ⟨⟨hplen, hnewlen⟩, hkept⟩ := hadmits
  refine ⟨fun beyond => ?_, ?_, fun q reply => ?_⟩
  · dsimp only
    rw [openName_of_strncpy hinv.fileName p.name_nulFree hlen]
    apply ServerFs.lookup_eq_none
    rw [p.resolve_name, ServerFs.rename_cwd]
    apply ServerFs.node_rename_left hmoves.1
    · rw [resolve_renamed hplen, List.prefix_append_right_inj, ← hinv.current]
      exact hmoves.2
    · rw [resolve_renamed hnewlen, List.prefix_append_right_inj, ← hinv.current]
      exact fun hprefix => hkept ⟨hmoves.1, hprefix⟩
  · apply udtfsRelease_other hinv.fileName hlen
    have hne := hmoves.ne hplen hnewlen
    rw [hinv.current] at hne
    rwa [Slot.renamed, if_pos hmoves, hinv.current]
  · rw [udtfsOpen, if_pos hinv.isOpen]

end

/-! ## Following over runs -/

/-- **The slot follows the file.** In every state of a session the slot follows the open file exactly if
the name under which it was opened fits the array and no rename moves the file. -/
theorem slotFollows_run_iff {c : Client} {p : FusePath} {reply : TcpStream} {fs : ServerFs} {f : File}
    (hopen : (udtfsOpen stale c p.bytes reply).1 = 0) (hfile : fs.lookup p.name = some (.file f))
    (events : List SlotEvent) :
    (∀ before t, before <+: events →
        Run (Guarded Slot.Admits (SlotStep stale shell)) ⟨(udtfsOpen stale c p.bytes reply).2, fs, p⟩
          before t → t.Follows stale shell f) ↔
      p.name.length < mMaxVal ∧
        ∀ before e t u, before ++ [e] <+: events →
          Run (Guarded Slot.Admits (SlotStep stale shell))
            ⟨(udtfsOpen stale c p.bytes reply).2, fs, p⟩ before t →
          Guarded Slot.Admits (SlotStep stale shell) t e u → t.Stays e := by
  obtain ⟨hname, hisOpen⟩ := udtfsOpen_success stale hopen
  by_cases hlen : p.name.length < mMaxVal
  · rw [and_iff_right hlen]
    apply forall_visited_iff_forall_taken (Slot.Inv p f)
    · exact ⟨rfl, hname, hisOpen, hfile⟩
    · exact fun t hinv => hinv.follows hlen
    · exact fun t e u hinv hstep hstays => hstep.2.inv hstep.1 hinv hstays
    · exact fun t e u hinv hstep hfollows => hstep.2.stays hstep.1 hinv hlen hfollows
  · refine iff_of_false (fun h => ?_) fun h => hlen h.1
    exact hlen ((h [] _ List.nil_prefix (Run.nil _)).name_fits hname)

end

/-- A session of `a` in a directory that also holds `b`. -/
def helloSlot : Slot where
  client := (udtfsOpen (fun _ => []) (Client.init fun _ => 0) pathA.bytes
    ⟨sendattrReply (some Stat.zero), .closed⟩).2
  fs := ServerFs.ofFiles [(ascii "a", File.plain (ascii "hello")), (ascii "b", File.plain [])]
  current := pathA

/-- The path `/c`. -/
def pathC : FusePath := ⟨[ascii "c"], by decide⟩

/-- The open of the session succeeds. -/
theorem helloSlot_opened :
    (udtfsOpen (fun _ => []) (Client.init fun _ => 0) pathA.bytes
      ⟨sendattrReply (some Stat.zero), .closed⟩).1 = 0 :=
  congrArg Prod.fst (udtfsOpen_some (fun _ => []) rfl pathA.bytes Stat.zero .closed)

/-- The slot follows `a` when `b` is renamed. -/
theorem slotFollows_other :
    Slot.Follows (fun _ => []) (fun _ fs => fs) (File.plain (ascii "hello"))
      { helloSlot with
        fs := helloSlot.fs.rename (pathToLocal pathB.bytes) (pathToLocal pathC.bytes)
        current := helloSlot.renamed pathB pathC } := by
  have hstep : Guarded Slot.Admits (SlotStep (fun _ => []) fun _ fs => fs) helloSlot
      (.rename pathB pathC) _ :=
    Guarded.intro (.rename (exchange_rename _ _ (by decide) (by decide) _)) (by decide)
  refine (slotFollows_run_iff (fun _ => []) (fun _ fs => fs) helloSlot_opened (by decide)
    [.rename pathB pathC]).mpr ⟨by decide, fun before e t u hpre hrun _ => ?_⟩ _ _ List.prefix_rfl
      ((Run.nil helloSlot).snoc hstep)
  obtain ⟨rest, hrest⟩ := hpre
  cases before with
  | nil =>
    obtain ⟨rfl, -⟩ := List.cons.inj hrest
    rw [hrun.of_nil]
    decide
  | cons d before => simp at hrest

/-- The release of a file that was renamed while it was open is not recognized. -/
theorem moved_file_lost :
    ¬ ∀ events t, Run (Guarded Slot.Admits (SlotStep (fun _ => []) fun _ fs => fs)) helloSlot events t →
      t.Follows (fun _ => []) (fun _ fs => fs) (File.plain (ascii "hello")) := by
  intro h
  have hstep : Guarded Slot.Admits (SlotStep (fun _ => []) fun _ fs => fs) helloSlot
      (.rename pathA pathC) _ :=
    Guarded.intro (.rename (exchange_rename _ _ (by decide) (by decide) _)) (by decide)
  have hfollows := h _ _ ((Run.nil helloSlot).snoc hstep)
  have hopened := udtfsOpen_success _ helloSlot_opened
  have hstays := hstep.2.stays hstep.1 ⟨rfl, hopened.1, hopened.2, by decide⟩ (by decide) hfollows
  exact hstays (by decide)

end Udtfs

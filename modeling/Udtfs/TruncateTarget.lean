import Udtfs.Client
import Udtfs.Lib.Run
import Udtfs.Receives

/-!
# Which file a truncate changes

The request of `udtfs_truncate` carries the name of the file that was opened last, whatever path
the callback is given, whether that file is still open or not. The file at the path is truncated,
and no other, exactly if these are the same file, or if nothing changes at all.
-/

namespace Udtfs

open NulString Content Transition

/-- A callback of the client, as far as the remembered name is concerned. -/
inductive ClientCall where
  | openFile (path : Bytes) (ret : ℤ)
  | release (path : Bytes)
  | read (size : ℕ) (offset : ℤ)
  /-- A truncate, write, rename, unlink or utimens that sent this request. -/
  | change (request : Request)

section
variable (stale : ℕ → Bytes)

/-- One callback, with whatever the server replies. -/
inductive ClientStep : Client → ClientCall → Client → Prop
  | openFile (c : Client) (path : Bytes) (reply : TcpStream) :
      ClientStep c (.openFile path (udtfsOpen stale c path reply).1)
        (udtfsOpen stale c path reply).2
  | release (c : Client) (path : Bytes) : ClientStep c (.release path) (udtfsRelease c path)
  | read {c : Client} {beyond : Bytes} {size : ℕ} {offset : ℤ} {serve : Request → Option Bytes}
      {r : ReadResult} (h : udtfsRead c beyond size offset serve = some r) :
      ClientStep c (.read size offset) r.client
  | change (c : Client) (sent : Sent) : ClientStep c (.change sent.request) c

/-- The name of the file opened last, updated by one callback. -/
def remember (name : Bytes) : ClientCall → Bytes
  | .openFile path ret => if ret = 0 then stripSlash path else name
  | _ => name

/-- The name of the file opened last, empty before the first successful open. -/
def lastOpened (calls : List ClientCall) : Bytes := calls.foldl remember []

/-- The string that later requests carry: the name opened last, copied to `_file_name`. -/
def rememberedName (calls : List ClientCall) (beyond : Bytes) : Bytes :=
  cstr (strncpy (lastOpened calls) mMaxVal ++ beyond)

/-- In every reachable state the name array holds the copy of the name opened last. -/
theorem fileName_run {cache : ℕ → UInt8} {calls : List ClientCall} {c : Client}
    (h : Run (ClientStep stale) (Client.init cache) calls c) :
    c.fileName = strncpy (lastOpened calls) mMaxVal := by
  induction h with
  | nil => rfl
  | @snoc t u calls call _ hlast ih =>
    rw [lastOpened, List.foldl_append, ← lastOpened, List.foldl_cons, List.foldl_nil]
    cases hlast with
    | openFile path reply =>
      rw [udtfsOpen_fileName, remember, ih]
      split <;> rfl
    | release path =>
      rw [udtfsRelease]
      split
      · split <;> exact ih
      · exact ih
    | read hread => exact (udtfsRead_globals hread).2.1.trans ih
    | change sent => exact ih

/-- The name that the handler receives: cut at 127 bytes, and then followed by old memory. -/
def arrivingName (name : Bytes) (newsize : ℤ) (later : Bytes) : Bytes :=
  if name.length < 127 then name else
    name.take 127 ++ cstr (stale (name.drop 127 ++ 0 :: (frames [printLu newsize] ++ later)).length)

/-- The size that the handler receives: the remainder of the name when that was cut. -/
def arrivingSize (name : Bytes) (newsize : ℤ) (later : Bytes) : ℤ :=
  if name.length < 127 then newsize else
  if name.length < 254 then atoll (name.drop 127) else
    atoll ((name.drop 127).take 127 ++
      cstr (stale (name.drop 254 ++ 0 :: (frames [printLu newsize] ++ later)).length))

/-- The path argument of the handler is the arriving name. -/
theorem argument_arrivingName (ending : RecvEnd) {name : Bytes} (hname : NulFree name)
    (newsize : ℤ) (later : Bytes) :
    argument stale ⟨frames [name, printLu newsize] ++ later, ending⟩ =
      arrivingName stale name newsize later := by
  rw [frames_cons, List.append_assoc, List.cons_append]
  by_cases hshort : name.length < 127
  · rw [argument_frame stale ending hname hshort, arrivingName, if_pos hshort]
  · rw [argument_full stale ending hname (by omega), arrivingName, if_neg hshort]

/-- The size argument of the handler is the arriving size. -/
theorem argument_arrivingSize (ending : RecvEnd) {name : Bytes} (hname : NulFree name)
    {newsize : ℤ} (h₀ : 0 ≤ newsize) (h : newsize < 2 ^ 63) (later : Bytes) :
    atoll (argument stale (skip ⟨frames [name, printLu newsize] ++ later, ending⟩)) =
      arrivingSize stale name newsize later := by
  have hnumeral : (printLu newsize).length < 127 := printLu_short newsize
  rw [frames_cons, List.append_assoc, List.cons_append, arrivingSize]
  by_cases hshort : name.length < 127
  · rw [skip_frame ending hname hshort, frames_cons, List.append_assoc, List.cons_append,
      argument_frame stale ending (printLu_nulFree newsize) hnumeral, atoll_printLu h₀ h,
      if_pos hshort]
  · rw [skip_full ending hname (by omega), if_neg hshort]
    by_cases hmiddle : name.length < 254
    · rw [argument_frame stale ending (hname.drop 127) (by rw [List.length_drop]; omega),
        if_pos hmiddle]
    · rw [argument_full stale ending (hname.drop 127) (by rw [List.length_drop]; omega),
        if_neg hmiddle, List.drop_drop]

end

/-- The truncate changes exactly the file at the path: it gets the length, all others stay. -/
def TruncatesOnly (before after : ServerFs) (loc : Path) (content : Bytes) (newsize : ℤ) : Prop :=
  after.contentAt loc = some (resize content newsize.toNat) ∧
    ∀ other, other ≠ loc → after.contentAt other = before.contentAt other

/-- A received name and size mean the file at a location and the size asked for. -/
structure Hits (fs : ServerFs) (loc : Path) (f : File) (newsize : ℤ) (name : Bytes) (size : ℤ) :
    Prop where
  file : fs.lookup name = some (.file f)
  location : resolve fs.cwd name = loc
  resizable : f.resizable = true
  size : size = newsize
  room : newsize ≤ fs.maxSize

/-- A received name and size change no file. -/
def Idle (fs : ServerFs) (name : Bytes) (size : ℤ) : Prop :=
  ∀ g, fs.lookup name = some (.file g) → g.resizable = true → 0 ≤ size → size ≤ fs.maxSize →
    (g.content.length : ℤ) = size

/-- A permitted truncate of a file changes the content at its location and nowhere else. -/
theorem contentAt_truncate {fs : ServerFs} {name : Bytes} {g : File}
    (hname : fs.lookup name = some (.file g)) {size : ℤ}
    (hpermit : g.resizable = true ∧ 0 ≤ size ∧ size ≤ fs.maxSize) :
    (fs.truncate name size).contentAt (resolve fs.cwd name) = some (resize g.content size.toNat) ∧
      ∀ other, other ≠ resolve fs.cwd name →
        (fs.truncate name size).contentAt other = fs.contentAt other := by
  have htruncate : fs.truncate name size = fs.setNode (resolve fs.cwd name)
      (some (.file { g with content := resize g.content size.toNat })) := by
    simp only [ServerFs.truncate, hname, if_pos hpermit]
  rw [htruncate]
  exact ⟨ServerFs.contentAt_setNode_self _ _ _,
    fun other hother => ServerFs.contentAt_setNode_ne _ hother _⟩

/-- Every other truncate changes nothing. -/
theorem truncate_of_refused {fs : ServerFs} {name : Bytes} {size : ℤ}
    (h : ¬ ∃ g, fs.lookup name = some (.file g) ∧
      g.resizable = true ∧ 0 ≤ size ∧ size ≤ fs.maxSize) :
    fs.truncate name size = fs := by
  unfold ServerFs.truncate
  split
  · next g hname =>
    rw [if_neg fun hpermit => h ⟨g, hname, hpermit⟩]
  · rfl

/-- A truncate that is permitted is idle if the file has the size already. -/
theorem idle_iff {fs : ServerFs} {name : Bytes} {g : File} (hname : fs.lookup name = some (.file g)) {size : ℤ}
    (hpermit : g.resizable = true ∧ 0 ≤ size ∧ size ≤ fs.maxSize) :
    Idle fs name size ↔ (g.content.length : ℤ) = size := by
  constructor
  · exact fun h => h g hname hpermit.1 hpermit.2.1 hpermit.2.2
  · intro h g' hg' _ _ _
    rw [hname] at hg'
    obtain rfl : g = g' := by simpa using hg'
    exact h

/-- A content stays as it is exactly if it has the size. -/
theorem eq_resize_iff {content : Bytes} {size : ℤ} (h : 0 ≤ size) :
    content = resize content size.toNat ↔ (content.length : ℤ) = size := by
  rw [eq_comm, resize_eq_self_iff]
  omega

section
variable {fs : ServerFs} {loc : Path} {f g : File} {newsize : ℤ} {name : Bytes} {size : ℤ}

/-- A truncate of the file itself has the effect exactly if the size is the one asked for. -/
theorem truncatesOnly_same_iff (hf : fs.node loc = some (.file f)) (h₀ : 0 ≤ newsize)
    (hname : fs.lookup name = some (.file g)) (hpermit : g.resizable = true ∧ 0 ≤ size ∧ size ≤ fs.maxSize)
    (hloc : resolve fs.cwd name = loc) :
    TruncatesOnly fs (fs.truncate name size) loc f.content newsize ↔
      Hits fs loc f newsize name size ∨ (f.content.length : ℤ) = newsize ∧ Idle fs name size := by
  obtain ⟨hhere, helsewhere⟩ := contentAt_truncate hname hpermit
  obtain rfl : g = f := by
    have hnode := ServerFs.node_of_lookup hname
    rw [hloc, hf] at hnode
    simpa using hnode.symm
  rw [hloc] at hhere helsewhere
  rw [TruncatesOnly, idle_iff hname hpermit, hhere, Option.some_inj]
  obtain ⟨hresizable, hs, hroom⟩ := hpermit
  constructor
  · rintro ⟨hresize, -⟩
    have hlength := congrArg List.length hresize
    rw [resize_length, resize_length] at hlength
    have hsize : size = newsize := by omega
    exact Or.inl ⟨hname, hloc, hresizable, hsize, hsize ▸ hroom⟩
  · intro h
    have hsize : size = newsize := h.elim Hits.size fun h => h.2.symm.trans h.1
    rw [hsize] at helsewhere ⊢
    exact ⟨rfl, helsewhere⟩

/-- A truncate of another file does so exactly if neither file is to change. -/
theorem truncatesOnly_other_iff (hf : fs.node loc = some (.file f)) (h₀ : 0 ≤ newsize)
    (hname : fs.lookup name = some (.file g)) (hpermit : g.resizable = true ∧ 0 ≤ size ∧ size ≤ fs.maxSize)
    (hloc : resolve fs.cwd name ≠ loc) :
    TruncatesOnly fs (fs.truncate name size) loc f.content newsize ↔
      Hits fs loc f newsize name size ∨ (f.content.length : ℤ) = newsize ∧ Idle fs name size := by
  obtain ⟨hhere, helsewhere⟩ := contentAt_truncate hname hpermit
  have hthere := ServerFs.contentAt_file (ServerFs.node_of_lookup hname)
  have hother : g.content = resize g.content size.toNat ↔ (g.content.length : ℤ) = size :=
    eq_resize_iff hpermit.2.1
  rw [TruncatesOnly, idle_iff hname hpermit, helsewhere loc (Ne.symm hloc), ServerFs.contentAt_file hf,
    Option.some_inj, eq_resize_iff h₀]
  constructor
  · rintro ⟨hlength, hunchanged⟩
    have hkept := hunchanged _ hloc
    rw [hhere, hthere, Option.some_inj] at hkept
    exact Or.inr ⟨hlength, hother.mp hkept.symm⟩
  · rintro (hits | ⟨hlength, hsize⟩)
    · exact absurd hits.location hloc
    · refine ⟨hlength, fun other _ => ?_⟩
      by_cases heq : other = resolve fs.cwd name
      · rw [heq, hhere, hthere, ← hother.mpr hsize]
      · exact helsewhere other heq

/-- The received arguments have the effect of the truncate exactly if they hit the file, or if
neither the request nor the handler changes anything. -/
theorem truncatesOnly_iff (hf : fs.node loc = some (.file f)) (h₀ : 0 ≤ newsize) (name : Bytes) (size : ℤ) :
    TruncatesOnly fs (fs.truncate name size) loc f.content newsize ↔
      Hits fs loc f newsize name size ∨ (f.content.length : ℤ) = newsize ∧ Idle fs name size := by
  by_cases hpermit : ∃ g, fs.lookup name = some (.file g) ∧
      g.resizable = true ∧ 0 ≤ size ∧ size ≤ fs.maxSize
  · obtain ⟨g, hname, hpermit⟩ := hpermit
    by_cases hloc : resolve fs.cwd name = loc
    · exact truncatesOnly_same_iff hf h₀ hname hpermit hloc
    · exact truncatesOnly_other_iff hf h₀ hname hpermit hloc
  · have hidle : Idle fs name size := fun g hname hresizable hs hroom =>
      absurd ⟨g, hname, hresizable, hs, hroom⟩ hpermit
    have hmiss : ¬ Hits fs loc f newsize name size := by
      intro hits
      have hsize := hits.size
      exact hpermit ⟨f, hits.file, hits.resizable, hsize ▸ h₀, hsize ▸ hits.room⟩
    rw [truncate_of_refused hpermit, TruncatesOnly, ServerFs.contentAt_file hf, Option.some_inj, eq_resize_iff h₀]
    simp [hidle, hmiss]

end

section
variable (stale : ℕ → Bytes) (ending : RecvEnd) (shell : Bytes → ServerFs → ServerFs)

/-- The server has processed a truncate of the path, and exactly the file there has the length. -/
def TruncateFaithful (fs : ServerFs) (c : Client) (beyond : Bytes) (p : FusePath) (content : Bytes)
    (newsize : ℤ) (later : Bytes) : Prop :=
  ∃ q rest answer,
    handleCommand stale
        ⟨(udtfsTruncate c beyond p.bytes newsize).request.wire ++ later, ending⟩ =
      some (.handled q, rest) ∧
    fs.act shell q = some answer ∧
    TruncatesOnly fs answer.fs (fs.cwd ++ p.components) content newsize

/-- The name opened last, as it arrives, means the file at the path; or nothing is to be changed
at the path, and the file of that name is not changed either. -/
def TruncateCondition (fs : ServerFs) (p : FusePath) (f : File) (newsize : ℤ) (name later : Bytes) :
    Prop :=
  Hits fs (fs.cwd ++ p.components) f newsize (arrivingName stale name newsize later)
      (arrivingSize stale name newsize later) ∨
    (f.content.length : ℤ) = newsize ∧
      Idle fs (arrivingName stale name newsize later) (arrivingSize stale name newsize later)

/-- What a truncate changes depends on the remembered name alone. -/
theorem truncateFaithful_iff_name {fs : ServerFs} {c : Client} {p : FusePath} {f : File}
    (hf : fs.node (fs.cwd ++ p.components) = some (.file f)) {newsize : ℤ} (h₀ : 0 ≤ newsize)
    (h : newsize < 2 ^ 63) (beyond later : Bytes) :
    TruncateFaithful stale ending shell fs c beyond p f.content newsize later ↔
      TruncateCondition stale fs p f newsize (c.openName beyond) later := by
  have hfree : NulFree (c.openName beyond) := cstr_nulFree _
  have hpass := handleCommand_truncate stale ending hfree newsize later
  rw [argument_arrivingName stale ending hfree, argument_arrivingSize stale ending hfree h₀ h]
    at hpass
  rw [TruncateFaithful, udtfsTruncate, TruncateCondition, ← truncatesOnly_iff hf h₀]
  constructor
  · rintro ⟨q, rest, answer, hhandle, hact, htruncates⟩
    obtain rfl := Served.handled.inj (Prod.mk.inj (Option.some.inj (hpass.symm.trans hhandle))).1
    obtain rfl := Option.some.inj hact
    exact htruncates
  · intro htruncates
    exact ⟨_, _, _, hpass, rfl, htruncates⟩

/-- After every history of callbacks, a truncate changes exactly the file at its path if and only
if the name opened last means that file, or nothing is to be changed. -/
theorem truncate_faithful_iff {cache : ℕ → UInt8} {calls : List ClientCall} {c : Client}
    (hrun : Run (ClientStep stale) (Client.init cache) calls c) {fs : ServerFs} {p : FusePath}
    {f : File} (hf : fs.node (fs.cwd ++ p.components) = some (.file f)) {newsize : ℤ}
    (h₀ : 0 ≤ newsize) (h : newsize < 2 ^ 63) (beyond later : Bytes) :
    TruncateFaithful stale ending shell fs c beyond p f.content newsize later ↔
      TruncateCondition stale fs p f newsize (rememberedName calls beyond) later := by
  rw [truncateFaithful_iff_name stale ending shell hf h₀ h, Client.openName,
    fileName_run stale hrun, rememberedName]

/-- A truncate of the file that was opened last, by a name that fits and to a size that it may have, is
right. -/
theorem truncateCondition_of_lastOpened {fs : ServerFs} {p : FusePath} {f : File}
    (hf : fs.lookup p.name = some (.file f)) (hlen : p.name.length ≤ 126)
    (hresizable : f.resizable = true) {newsize : ℤ} (hroom : newsize ≤ fs.maxSize)
    {calls : List ClientCall} (hlast : lastOpened calls = p.name) (beyond later : Bytes) :
    TruncateCondition stale fs p f newsize (rememberedName calls beyond) later := by
  have hname : rememberedName calls beyond = p.name := by
    rw [rememberedName, hlast, cstr_strncpy p.name_nulFree (hlen.trans_lt (by decide))]
  have hshort : p.name.length < 127 := by omega
  refine Or.inl ⟨?_, ?_, hresizable, ?_, hroom⟩
  · rw [hname, arrivingName, if_pos hshort, hf]
  · rw [hname, arrivingName, if_pos hshort, p.resolve_name]
  · rw [hname, arrivingSize, if_pos hshort]

end

/-- A client that has opened a file with these attributes since it started. -/
theorem run_openFile (stale : ℕ → Bytes) (path : Bytes) (st : Stat) :
    Run (ClientStep stale) (Client.init fun _ => 0) [.openFile path 0]
      { Client.opened (stripSlash path) with fileStats := st.received } := by
  have hstep : ClientStep stale _ _ _ := ClientStep.openFile (Client.init fun _ => 0) path
    ⟨sendattrReply (some st), .closed⟩
  rw [udtfsOpen_some stale rfl] at hstep
  exact (Run.nil _).snoc hstep

/-- A truncate of the only file, opened before. -/
theorem truncate_faithful_opened :
    TruncateFaithful (fun _ => []) .closed (fun _ fs => fs)
      (ServerFs.ofFiles [(ascii "a", File.plain (ascii "old"))])
      { Client.opened pathA.name with fileStats := Stat.zero.received } [] pathA
      (File.plain (ascii "old")).content 1 [] :=
  (truncate_faithful_iff (fun _ => []) .closed (fun _ fs => fs)
    (run_openFile (fun _ => []) pathA.bytes Stat.zero) rfl (show (0 : ℤ) ≤ 1 by decide)
    (show (1 : ℤ) < 2 ^ 63 by decide) [] []).mpr
    (truncateCondition_of_lastOpened _ (by decide) (by decide) rfl (by decide) rfl [] [])

/-- While `/b` is open, a truncate of `/a` empties `/b` and leaves `/a` as it is. -/
theorem truncate_other_file :
    ¬ ∀ (calls : List ClientCall) (c : Client) (fs : ServerFs) (p : FusePath) (f : File)
      (newsize : ℤ) (beyond later : Bytes),
        Run (ClientStep fun _ => []) (Client.init fun _ => 0) calls c →
        fs.node (fs.cwd ++ p.components) = some (.file f) → f.resizable = true → 0 ≤ newsize →
          newsize < 2 ^ 63 → newsize ≤ fs.maxSize →
          TruncateFaithful (fun _ => []) .closed (fun _ fs => fs) fs c beyond p f.content newsize
            later := by
  intro h
  have hfaithful := h _ _
    (ServerFs.ofFiles [(ascii "a", File.plain (ascii "x")), (ascii "b", File.plain (ascii "y"))])
    pathA (File.plain (ascii "x")) 0 [] []
    (run_openFile (fun _ => []) pathB.bytes Stat.zero) rfl rfl
    le_rfl (by decide) (by decide)
  rw [truncateFaithful_iff_name _ _ _ rfl le_rfl (by decide),
    openName_of_strncpy rfl pathB.name_nulFree (by decide)] at hfaithful
  rcases hfaithful with hits | ⟨hlength, -⟩
  · have hlocation := hits.location
    rw [arrivingName, if_pos (by decide), pathB.resolve_name] at hlocation
    exact absurd hlocation (by decide)
  · exact absurd hlength (by decide)

end Udtfs

import Udtfs.Client
import Udtfs.Lib.Run

/-!
# Concurrent opens

`udtfs_open` tests whether a file is open, asks the server for the attributes, stores the name and
only then marks the file as open. No mutex spans these steps. Opens on several threads can all pass
the test, and each overwrites the attributes and the name of the one before.
-/

namespace Udtfs

open NulString Transition

/-- How far a thread is in `udtfs_open` with a path. -/
inductive Opening where
  | idle
  /-- No file was open. -/
  | tested (path : Bytes)
  /-- The attributes have been stored in `_file_stats`. -/
  | fetched (path : Bytes) (stat : Stat)
  /-- The name has been stored in `_file_name`. -/
  | named (path : Bytes) (stat : Stat)

/-- A successful open. -/
structure Opened where
  path : Bytes
  stat : Stat
  deriving DecidableEq

/-- The globals, the opens in progress, and the successful opens that have not been released. -/
structure OpenRace where
  client : Client
  opening : ℕ → Opening
  unreleased : List Opened

/-- The client before the first open. -/
def OpenRace.init (cache : ℕ → UInt8) : OpenRace := ⟨Client.init cache, fun _ => .idle, []⟩

/-- The steps of the two callbacks. -/
inductive OpenEvent where
  /-- `udtfs_open` is called and tests `_file_is_open`. -/
  | test (path : Bytes)
  /-- `udtfs_getattr` receives this reply. -/
  | getattr (reply : TcpStream)
  /-- The name is copied. -/
  | copy
  /-- `_file_is_open` is set, and the open returns. -/
  | mark
  /-- `udtfs_release` is called. -/
  | release (path : Bytes)

section
variable (stale : ℕ → Bytes)

/-- One step of a thread. -/
inductive OpenRace.Step : OpenRace → ℕ × OpenEvent → OpenRace → Prop
  | busy {s : OpenRace} {i : ℕ} {path : Bytes} (hidle : s.opening i = .idle)
      (hopen : s.client.fileIsOpen = true) : Step s (i, .test path) s
  | test {s : OpenRace} {i : ℕ} {path : Bytes} (hidle : s.opening i = .idle)
      (hclosed : s.client.fileIsOpen = false) (hpath : NulFree path) :
      Step s (i, .test path) { s with opening := Function.update s.opening i (.tested path) }
  | getattr {s : OpenRace} {i : ℕ} {path : Bytes} {reply : TcpStream}
      (htested : s.opening i = .tested path) (hret : (udtfsGetattr stale reply).ret = 0) :
      Step s (i, .getattr reply)
        { s with
          client := { s.client with fileStats := (udtfsGetattr stale reply).stat }
          opening := Function.update s.opening i (.fetched path (udtfsGetattr stale reply).stat) }
  | noent {s : OpenRace} {i : ℕ} {path : Bytes} {reply : TcpStream}
      (htested : s.opening i = .tested path) (hret : (udtfsGetattr stale reply).ret ≠ 0) :
      Step s (i, .getattr reply)
        { s with
          client := { s.client with fileStats := (udtfsGetattr stale reply).stat }
          opening := Function.update s.opening i .idle }
  | copy {s : OpenRace} {i : ℕ} {path : Bytes} {stat : Stat}
      (hfetched : s.opening i = .fetched path stat) :
      Step s (i, .copy)
        { s with
          client := { s.client with fileName := strncpy (stripSlash path) mMaxVal }
          opening := Function.update s.opening i (.named path stat) }
  | mark {s : OpenRace} {i : ℕ} {path : Bytes} {stat : Stat} (hnamed : s.opening i = .named path stat) :
      Step s (i, .mark)
        { client := { s.client with fileIsOpen := true }
          opening := Function.update s.opening i .idle
          unreleased := ⟨path, stat⟩ :: s.unreleased }
  | release {s : OpenRace} {i : ℕ} {path : Bytes} (hidle : s.opening i = .idle) :
      Step s (i, .release path)
        { s with
          client := udtfsRelease s.client path
          unreleased := s.unreleased.eraseP fun o => o.path = path }

/-- At most one successful open is unreleased, and `_file_name` and `_file_stats` are those of its
file. -/
structure OpenRace.OneOpen (s : OpenRace) : Prop where
  atMostOne : s.unreleased.length ≤ 1
  name : ∀ o ∈ s.unreleased, ∀ beyond, s.client.openName beyond = stripSlash o.path
  stats : ∀ o ∈ s.unreleased, s.client.fileStats = o.stat

/-- The open is between the reply to its request and its end. -/
def Opening.underway : Opening → Bool
  | .fetched _ _ | .named _ _ => true
  | .idle | .tested _ => false

/-- No reply is stored while another open is underway or unreleased, and every name that is stored
fits the array with its terminator. -/
def OpenRace.Undisturbed (s : OpenRace) : ℕ × OpenEvent → Prop
  | (i, .getattr _) => s.unreleased = [] ∧ ∀ j, j ≠ i → (s.opening j).underway = false
  | (i, .copy) => ∀ path stat, s.opening i = .fetched path stat → (stripSlash path).length < mMaxVal
  | _ => True

/-- The four steps of an open that nothing disturbs are `udtfs_open`. -/
theorem udtfsOpen_steps {s : OpenRace} {i : ℕ} {path : Bytes} {reply : TcpStream}
    (hidle : s.opening i = .idle) (hclosed : s.client.fileIsOpen = false) (hpath : NulFree path)
    (hret : (udtfsGetattr stale reply).ret = 0) :
    ∃ t, Run (OpenRace.Step stale) s [(i, .test path), (i, .getattr reply), (i, .copy), (i, .mark)] t ∧
      t.client = (udtfsOpen stale s.client path reply).2 ∧
      (udtfsOpen stale s.client path reply).1 = 0 ∧
      t.unreleased = ⟨path, (udtfsGetattr stale reply).stat⟩ :: s.unreleased := by
  have hself (opening : ℕ → Opening) (o : Opening) : Function.update opening i o i = o :=
    Function.update_self i o opening
  have hstart : Run (OpenRace.Step stale) s [] s := Run.nil s
  have hrun := (((hstart.snoc (.test hidle hclosed hpath)).snoc
    (.getattr (hself _ _) hret)).snoc (.copy (hself _ _))).snoc (.mark (hself _ _))
  have hopen : udtfsOpen stale s.client path reply =
      (0, { s.client with
        fileStats := (udtfsGetattr stale reply).stat
        fileName := strncpy (stripSlash path) mMaxVal
        fileIsOpen := true }) := by
    rw [udtfsOpen, hclosed, if_neg (by decide)]
    dsimp only
    rw [if_neg (not_not.mpr hret)]
  exact ⟨_, hrun, by rw [hopen], by rw [hopen], rfl⟩

/-- `_file_name` holds the name of a path. -/
def Client.Remembers (c : Client) (path : Bytes) : Prop :=
  c.fileName = strncpy (stripSlash path) mMaxVal ∧ NulFree (stripSlash path) ∧
    (stripSlash path).length < mMaxVal

/-- What the globals hold for an open in progress. -/
def Opening.Consistent (c : Client) : Opening → Prop
  | .idle => True
  | .tested path => NulFree path
  | .fetched path stat => NulFree path ∧ c.fileStats = stat
  | .named path stat => c.Remembers path ∧ c.fileStats = stat

/-- An open that is not underway does not depend on the globals. -/
theorem Opening.Consistent.of_not_underway {o : Opening} {c c' : Client} (h : o.Consistent c)
    (hnot : o.underway = false) : o.Consistent c' := by
  cases o with
  | idle | tested => exact h
  | fetched | named => contradiction

/-- No open depends on more than the name and the attributes. -/
theorem Opening.Consistent.of_slot {o : Opening} {c c' : Client} (h : o.Consistent c)
    (hname : c'.fileName = c.fileName) (hstats : c'.fileStats = c.fileStats) : o.Consistent c' := by
  cases o with
  | idle | tested => exact h
  | fetched => exact ⟨h.1, hstats.trans h.2⟩
  | named => exact ⟨⟨hname.trans h.1.1, h.1.2⟩, hstats.trans h.2⟩

/-- A remembered name is what the requests about the open file carry. -/
theorem Client.Remembers.openName {c : Client} {path : Bytes} (h : c.Remembers path) (beyond : Bytes) :
    c.openName beyond = stripSlash path :=
  openName_of_strncpy h.1 h.2.1 h.2.2 beyond

/-- An open that is underway is alone, and what is stored belongs to it or to the open that is
unreleased. -/
structure OpenRace.Inv (s : OpenRace) : Prop where
  opening : ∀ i, (s.opening i).Consistent s.client
  alone : ∀ i, (s.opening i).underway = true →
    s.unreleased = [] ∧ ∀ j, j ≠ i → (s.opening j).underway = false
  atMostOne : s.unreleased.length ≤ 1
  unreleased : ∀ o ∈ s.unreleased, s.client.Remembers o.path ∧ s.client.fileStats = o.stat

/-- Before the first open nothing is stored. -/
theorem OpenRace.inv_init (cache : ℕ → UInt8) : (OpenRace.init cache).Inv where
  opening := fun _ => trivial
  alone := fun _ h => absurd h Bool.false_ne_true
  atMostOne := Nat.zero_le 1
  unreleased := nofun

/-- The invariant contains that at most one open is unreleased. -/
theorem OpenRace.Inv.oneOpen {s : OpenRace} (h : s.Inv) : s.OneOpen where
  atMostOne := h.atMostOne
  name o ho beyond := (h.unreleased o ho).1.openName beyond
  stats o ho := (h.unreleased o ho).2

/-- A release leaves the name and the attributes as they are. -/
theorem udtfsRelease_slot (c : Client) (path : Bytes) :
    (udtfsRelease c path).fileName = c.fileName ∧ (udtfsRelease c path).fileStats = c.fileStats := by
  unfold udtfsRelease
  split
  · split
    · exact ⟨rfl, rfl⟩
    · exact ⟨rfl, rfl⟩
  · exact ⟨rfl, rfl⟩

/-- While nothing is unreleased and no other open is underway, an open may store what it likes. -/
theorem OpenRace.Inv.advance {s : OpenRace} (h : s.Inv) {i : ℕ} (hnone : s.unreleased = [])
    (hothers : ∀ j, j ≠ i → (s.opening j).underway = false) {c : Client} {o : Opening}
    (hconsistent : o.Consistent c) :
    OpenRace.Inv { client := c, opening := Function.update s.opening i o, unreleased := s.unreleased } where
  opening := (Function.forall_update_iff s.opening fun _ o => o.Consistent c).mpr
    ⟨hconsistent, fun j hj => (h.opening j).of_not_underway (hothers j hj)⟩
  alone j hj := by
    refine ⟨hnone, fun k hk => ?_⟩
    dsimp only at hj ⊢
    have hself : j = i := by
      by_contra hne
      rw [Function.update_of_ne hne, hothers j hne] at hj
      contradiction
    rw [hself] at hk
    rw [Function.update_of_ne hk]
    exact hothers k hk
  atMostOne := h.atMostOne
  unreleased o ho := by
    dsimp only at ho
    rw [hnone] at ho
    contradiction

variable {stale} in
/-- An undisturbed step keeps the slot to one open. -/
theorem OpenRace.Step.inv {s t : OpenRace} {e : ℕ × OpenEvent} (hstep : OpenRace.Step stale s e t)
    (h : s.Inv) (hundisturbed : s.Undisturbed e) : t.Inv := by
  cases hstep with
  | busy => exact h
  | @test i path hidle hclosed hpath =>
    have hsame : ∀ j, (Function.update s.opening i (.tested path) j).underway = (s.opening j).underway :=
      (Function.forall_update_iff s.opening fun j o => o.underway = (s.opening j).underway).mpr
        ⟨by rw [hidle]; rfl, fun _ _ => rfl⟩
    refine ⟨?_, fun j hj => ?_, h.atMostOne, h.unreleased⟩
    · exact (Function.forall_update_iff s.opening fun _ o => o.Consistent s.client).mpr
        ⟨hpath, fun j _ => h.opening j⟩
    · obtain ⟨hnone, hothers⟩ := h.alone j ((hsame j).symm.trans hj)
      exact ⟨hnone, fun k hk => (hsame k).trans (hothers k hk)⟩
  | @getattr i path reply htested hret =>
    have hpath := h.opening i
    rw [htested] at hpath
    exact h.advance hundisturbed.1 hundisturbed.2 ⟨hpath, rfl⟩
  | noent htested hret => exact h.advance hundisturbed.1 hundisturbed.2 trivial
  | @copy i path stat hfetched =>
    have hconsistent := h.opening i
    rw [hfetched] at hconsistent
    obtain ⟨hnone, hothers⟩ := h.alone i (by rw [hfetched]; rfl)
    exact h.advance hnone hothers
      ⟨⟨rfl, nulFree_stripSlash hconsistent.1, hundisturbed path stat hfetched⟩, hconsistent.2⟩
  | @mark i path stat hnamed =>
    have hconsistent := h.opening i
    rw [hnamed] at hconsistent
    obtain ⟨hnone, hothers⟩ := h.alone i (by rw [hnamed]; rfl)
    have hidle : ∀ j, (Function.update s.opening i .idle j).underway = false :=
      (Function.forall_update_iff s.opening fun _ o => o.underway = false).mpr ⟨rfl, hothers⟩
    have hadvanced := h.advance hnone hothers (c := { s.client with fileIsOpen := true }) (o := .idle)
      trivial
    refine ⟨hadvanced.opening, fun j hj => ?_, ?_, ?_⟩
    · rw [hidle j] at hj
      contradiction
    · rw [hnone]
      exact le_rfl
    · intro o ho
      rw [hnone, List.mem_singleton] at ho
      rw [ho]
      exact hconsistent
  | @release i path hidle =>
    obtain ⟨hname, hstats⟩ := udtfsRelease_slot s.client path
    refine ⟨fun j => (h.opening j).of_slot hname hstats, fun j hj => ?_, ?_, ?_⟩
    · obtain ⟨hnone, hothers⟩ := h.alone j hj
      refine ⟨?_, hothers⟩
      dsimp only
      rw [hnone, List.eraseP_nil]
    · exact List.length_eraseP_le.trans h.atMostOne
    · intro o ho
      obtain ⟨hremembers, hstat⟩ := h.unreleased o (List.mem_of_mem_eraseP ho)
      exact ⟨⟨hname.trans hremembers.1, hremembers.2⟩, hstats.trans hstat⟩

/-- **One open session.** As long as no reply is stored while another open is underway or unreleased, and
every name fits, at most one open is unreleased and the slot is its own. -/
theorem oneOpen_run {cache : ℕ → UInt8} {s : OpenRace} {events : List (ℕ × OpenEvent)}
    (h : Run (Guarded OpenRace.Undisturbed (OpenRace.Step stale)) (OpenRace.init cache) events s) :
    s.OneOpen := by
  have hinv := h.invariant (P := OpenRace.Inv) (fun t e u ht hstep => hstep.2.inv ht hstep.1)
    (OpenRace.inv_init cache)
  exact hinv.oneOpen

end

/-- The reply to a request for the attributes of an empty file. -/
def emptyFileReply : TcpStream := ⟨sendattrReply (some Stat.zero), .closed⟩

/-- The reply reports success. -/
theorem emptyFileReply_ret : (udtfsGetattr (fun _ => []) emptyFileReply).ret = 0 :=
  congrArg RecvAttr.ret (udtfsGetattr_some _ Stat.zero .closed)

/-- A single thread opens `/a`. -/
theorem oneOpen_a :
    ∃ s, Run (Guarded OpenRace.Undisturbed (OpenRace.Step fun _ => [])) (OpenRace.init fun _ => 0)
        [(0, .test (ascii "/a")), (0, .getattr emptyFileReply), (0, .copy), (0, .mark)] s ∧
      s.OneOpen ∧ s.unreleased.length = 1 := by
  have hother (j : ℕ) (hj : j ≠ 0) :
      (Function.update (fun _ => Opening.idle) 0 (.tested (ascii "/a")) j).underway = false := by
    rw [Function.update_of_ne hj]
    rfl
  have hname (path : Bytes) (stat : Stat)
      (h : Opening.fetched (ascii "/a") (udtfsGetattr (fun _ => []) emptyFileReply).stat =
        .fetched path stat) : (stripSlash path).length < mMaxVal := by
    rw [← (Opening.fetched.inj h).1]
    decide
  have hstart : Run (Guarded OpenRace.Undisturbed (OpenRace.Step fun _ => []))
      (OpenRace.init fun _ => 0) [] (OpenRace.init fun _ => 0) := Run.nil _
  have htest := hstart.snoc (e := (0, OpenEvent.test (ascii "/a")))
      (Guarded.intro (.test rfl rfl (by decide)) True.intro)
  have hgetattr := htest.snoc (e := (0, OpenEvent.getattr emptyFileReply))
    (Guarded.intro (.getattr rfl emptyFileReply_ret) (And.intro rfl hother))
  have hcopy := hgetattr.snoc (e := (0, OpenEvent.copy)) (Guarded.intro (.copy rfl) hname)
  have hrun := hcopy.snoc (e := (0, OpenEvent.mark)) (Guarded.intro (.mark rfl) True.intro)
  exact ⟨_, hrun, oneOpen_run _ hrun, rfl⟩

/-- Two threads that both find no file open both succeed. -/
theorem two_opens_succeed :
    ¬ ∀ events s, Run (OpenRace.Step fun _ => []) (OpenRace.init fun _ => 0) events s → s.OneOpen := by
  intro h
  have hstart : Run (OpenRace.Step fun _ => []) (OpenRace.init fun _ => 0) []
      (OpenRace.init fun _ => 0) := Run.nil _
  have hrun := (((((((hstart.snoc
    (e := (0, .test (ascii "/a"))) (.test rfl rfl (by decide))).snoc
    (e := (1, .test (ascii "/b"))) (.test rfl rfl (by decide))).snoc
    (e := (0, .getattr emptyFileReply)) (.getattr rfl emptyFileReply_ret)).snoc
    (e := (0, .copy)) (.copy rfl)).snoc (e := (0, .mark)) (.mark rfl)).snoc
    (e := (1, .getattr emptyFileReply)) (.getattr rfl emptyFileReply_ret)).snoc
    (e := (1, .copy)) (.copy rfl)).snoc (e := (1, .mark)) (.mark rfl)
  exact absurd (h _ _ hrun).atMostOne (by decide)

end Udtfs

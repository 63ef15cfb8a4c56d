import Udtfs.CachedRead
import Udtfs.Lib.Run

/-!
# Sessions of reads

A session lasts from a successful open to the release of the same path. The file of the session
does not change meanwhile, everything else on the server may, and between sessions all of it.
Then every read of a session returns what the file holds, whatever earlier reads of this or other
files have left in the cache.
-/

namespace Udtfs

open NulString Content Transition

/-- The client and the server it talks to. -/
structure Mount where
  client : Client
  fs : ServerFs
  /-- The path of the session in progress. -/
  session : Option FusePath

/-- A client that has just started. -/
def Mount.init (cache : ℕ → UInt8) (fs : ServerFs) : Mount := ⟨Client.init cache, fs, none⟩

/-- A path that names a file which can be read, or nothing. -/
def ServerFs.FileOrAbsent (fs : ServerFs) (p : FusePath) : Prop :=
  ∀ node, fs.lookup p.name = some node →
    ∃ f, node = .file f ∧ f.readable = true ∧ f.content.length < 2 ^ 63

/-- A callback of the client or a change on the server. -/
inductive SessionCall where
  | openFile (p : FusePath)
  | read (size : ℕ) (offset : ℤ)
  | release
  | change

section
variable (stale : ℕ → Bytes) (shell : Bytes → ServerFs → ServerFs)

/-- The bytes that a request brings on the UDT stream. -/
def serve (fs : ServerFs) (q : Request) : Option Bytes := (exchange stale shell fs q).map Outcome.udt

/-- One callback, or one change of the files that spares the file of the session. -/
inductive SessionStep : Mount → SessionCall → Mount → Prop
  /-- A second open is refused without a request. -/
  | refused {m : Mount} (p : FusePath) (reply : TcpStream) (hopen : m.client.fileIsOpen = true) :
      SessionStep m (.openFile p)
        { m with client := (udtfsOpen stale m.client p.bytes reply).2 }
  | openFile {m : Mount} {p : FusePath} {answer : Answer} (hclosed : m.client.fileIsOpen = false)
      (hlen : p.name.length ≤ 126) (hfile : m.fs.FileOrAbsent p)
      (hanswer : exchange stale shell m.fs (.getattr (stripSlash p.bytes)) = some answer) :
      SessionStep m (.openFile p)
        { m with
          client := (udtfsOpen stale m.client p.bytes ⟨answer.tcp, .closed⟩).2
          session := if (udtfsOpen stale m.client p.bytes ⟨answer.tcp, .closed⟩).1 = 0 then some p
            else m.session }
  /-- Any read that does not leave the cache memory, also one behind the end of the file. -/
  | read {m : Mount} {p : FusePath} {size : ℕ} {offset : ℤ} {beyond : Bytes} {r : ReadResult}
      (hsession : m.session = some p) (hlow : 0 ≤ offset) (hlt : offset < 2 ^ 63)
      (hread : udtfsRead m.client beyond size offset (serve stale shell m.fs) = some r) :
      SessionStep m (.read size offset) { m with client := r.client }
  | release {m : Mount} {p : FusePath} (hsession : m.session = some p) :
      SessionStep m .release { m with client := udtfsRelease m.client p.bytes, session := none }
  | change {m : Mount} (fs : ServerFs)
      (hkept : ∀ p, m.session = some p → fs.lookup p.name = m.fs.lookup p.name) :
      SessionStep m .change { m with fs := fs }

/-! ## The invariant -/

/-- The client serves reads of this file: it remembers its name, and the cached window agrees
with some content of it. -/
structure Client.Serves (c : Client) (p : FusePath) (fetched : Bytes) : Prop where
  isOpen : c.fileIsOpen = true
  name : c.fileName = strncpy p.name mMaxVal
  short : p.name.length ≤ 126
  caches : c.Caches fetched

/-- A path names a file that can be read. -/
structure ServerFs.Readable (fs : ServerFs) (p : FusePath) (f : File) : Prop where
  lookup : fs.lookup p.name = some (.file f)
  readable : f.readable = true
  length_lt : f.content.length < 2 ^ 63

/-- In a session the client knows the file as it is; without one it has nothing cached. -/
def Mount.Inv (m : Mount) : Prop :=
  match m.session with
  | none => m.client.fileIsOpen = false ∧ m.client.cacheLen = 0 ∧ m.client.cacheOffset = 0
  | some p => ∃ f, m.fs.Readable p f ∧ m.client.fileStats.stSize = f.content.length ∧
      m.client.Serves p f.content

/-- An empty window agrees with every content. -/
theorem caches_empty {c : Client} (hlen : c.cacheLen = 0) (hoffset : c.cacheOffset = 0)
    (content : Bytes) : c.Caches content where
  offset_nonneg := hoffset.ge
  offset_lt := by rw [hoffset]; decide
  len_le := by rw [hlen]; exact Nat.zero_le _
  window i hi := by
    rw [hlen] at hi
    exact absurd hi (Nat.not_lt_zero i)

/-- The size of a file and an offset below the limit are in range. -/
theorem ranged_of_readable {fs : ServerFs} {p : FusePath} {f : File} (hf : fs.Readable p f)
    {c : Client} (hsize : c.fileStats.stSize = f.content.length) {offset : ℤ} (hlow : 0 ≤ offset)
    (hlt : offset < 2 ^ 63) : c.Ranged offset := by
  refine ⟨hlow, hlt, ?_, ?_⟩
  · rw [hsize]
    exact Int.natCast_nonneg _
  · rw [hsize]
    exact_mod_cast hf.length_lt

/-- A refill brings the bytes of the file from the offset on, padded with zeros. -/
theorem serve_refill {fs : ServerFs} {p : FusePath} {f : File} (hf : fs.Readable p f) {c : Client}
    {fetched : Bytes} (hc : c.Serves p fetched) {offset : ℤ} (h : c.Ranged offset)
    (beyond : Bytes) :
    serve stale shell fs (c.refillRequest beyond offset) =
      some (padded f.content offset.toNat c.fetchsize) := by
  have hmax : maxCacheSize = 33554432 := rfl
  have hfetch : c.fetchsize < 2 ^ 63 := by
    rw [fetchsize_eq h]
    omega
  have hcarried : (Request.read p.name offset c.fetchsize).Carried :=
    ⟨⟨p.name_nulFree, hc.short⟩, ⟨h.nonneg, h.lt⟩, hfetch⟩
  rw [serve, Client.refillRequest, openName_eq hc.name hc.short, exchange_carried hcarried,
    ServerFs.act, ServerFs.fopenRead, hf.lookup]
  simp only [hf.readable, if_true, Option.map_some]
  rw [sendsegmentReply_eq _ h.nonneg hfetch]

/-- The release of the path that was opened closes the file and empties the cache. -/
theorem udtfsRelease_serves {c : Client} {p : FusePath} {fetched : Bytes}
    (hc : c.Serves p fetched) :
    udtfsRelease c p.bytes = { c with fileIsOpen := false, cacheOffset := 0, cacheLen := 0 } :=
  udtfsRelease_remembered hc.isOpen hc.name (hc.short.trans_lt (by decide))

/-- The reply to a `getattr` request is that of `stat` on the name. -/
theorem exchange_getattr {p : FusePath} (hlen : p.name.length ≤ 126) (fs : ServerFs) :
    exchange stale shell fs (.getattr (stripSlash p.bytes)) =
      some ⟨fs, sendattrReply (fs.stat p.name), []⟩ := by
  have hcarried : (Request.getattr p.name).Carried := ⟨p.name_nulFree, hlen.trans (by decide)⟩
  rw [p.stripSlash_bytes, exchange_carried hcarried, ServerFs.act, p.pathToLocal_name]

/-- The attributes of a file have the length of its content as size. -/
theorem stat_readable {fs : ServerFs} {p : FusePath} {f : File} (hf : fs.Readable p f) :
    fs.stat p.name = some { f.attributes with stSize := f.content.length } := by
  rw [ServerFs.stat, hf.lookup]

/-- An open with nothing cached begins a session or leaves everything closed. -/
theorem Mount.Inv.openFile {m : Mount} (hinv : m.Inv) {p : FusePath} {answer : Answer}
    (hclosed : m.client.fileIsOpen = false) (hlen : p.name.length ≤ 126)
    (hfile : m.fs.FileOrAbsent p)
    (hanswer : exchange stale shell m.fs (.getattr (stripSlash p.bytes)) = some answer) :
    Mount.Inv
      { m with
        client := (udtfsOpen stale m.client p.bytes ⟨answer.tcp, .closed⟩).2
        session := if (udtfsOpen stale m.client p.bytes ⟨answer.tcp, .closed⟩).1 = 0 then some p
          else m.session } := by
  have hsession : m.session = none := by
    unfold Mount.Inv at hinv
    split at hinv
    · assumption
    · obtain ⟨f, -, -, hserves⟩ := hinv
      rw [hserves.isOpen] at hclosed
      contradiction
  obtain ⟨-, hcacheLen, hcacheOffset⟩ : m.client.fileIsOpen = false ∧ m.client.cacheLen = 0 ∧
      m.client.cacheOffset = 0 := by
    unfold Mount.Inv at hinv
    rwa [hsession] at hinv
  rw [exchange_getattr stale shell hlen] at hanswer
  obtain rfl := Option.some.inj hanswer
  cases hlookup : m.fs.lookup p.name with
  | none =>
    have hstat : m.fs.stat p.name = none := by rw [ServerFs.stat, hlookup]
    rw [hstat, udtfsOpen_none stale hclosed, if_neg (show ¬ -eNoent = 0 by decide), hsession]
    exact ⟨hclosed, hcacheLen, hcacheOffset⟩
  | some node =>
    obtain ⟨f, rfl, hreadable, hlength⟩ := hfile node hlookup
    have hf : m.fs.Readable p f := ⟨hlookup, hreadable, hlength⟩
    rw [stat_readable hf, udtfsOpen_some stale hclosed, if_pos rfl, p.stripSlash_bytes]
    have hsize : (f.content.length : ℤ) < 2 ^ 63 := by exact_mod_cast hlength
    refine ⟨f, hf, ?_, rfl, rfl, hlen, ?_⟩
    · exact received_stSize (Int.natCast_nonneg _) hsize
    · exact caches_empty (by exact hcacheLen) (by exact hcacheOffset) f.content

/-- In a session every offset inside the file is in range. -/
theorem Mount.Inv.ranged {m : Mount} (hinv : m.Inv) {p : FusePath} (hsession : m.session = some p)
    {offset : ℤ} (hlow : 0 ≤ offset) (hhigh : offset ≤ m.client.fileStats.stSize) :
    m.client.Ranged offset := by
  unfold Mount.Inv at hinv
  rw [hsession] at hinv
  obtain ⟨f, hf, hstSize, -⟩ := hinv
  have hlt : m.client.fileStats.stSize < 2 ^ 63 := by
    rw [hstSize]
    exact_mod_cast hf.length_lt
  exact ranged_of_readable hf hstSize hlow (hhigh.trans_lt hlt)

/-- In a session every read that fits into the cache is answered from the file as it is. -/
theorem Mount.Inv.read {m : Mount} (hinv : m.Inv) {p : FusePath} (hsession : m.session = some p)
    {size : ℕ} {offset : ℤ} (hlow : 0 ≤ offset) (hlt : offset < 2 ^ 63)
    (hn : m.client.actualsize size offset ≤ maxCacheSize) (beyond : Bytes) :
    ∃ f r, m.fs.Readable p f ∧ m.client.fileStats.stSize = f.content.length ∧
      m.client.Ranged offset ∧
      udtfsRead m.client beyond size offset (serve stale shell m.fs) = some r ∧
      Reads m.client size offset f.content f.content r ∧
      Mount.Inv { m with client := r.client } := by
  unfold Mount.Inv at hinv
  rw [hsession] at hinv
  obtain ⟨f, hf, hstSize, hserves⟩ := hinv
  have hranged := ranged_of_readable hf hstSize hlow hlt
  obtain ⟨r, hread, hreads⟩ := udtfsRead_reads hserves.caches hranged hn beyond
    (serve_refill stale shell hf hserves hranged beyond)
  have hcaches := hreads.caches
  rw [show m.client.source size offset f.content f.content = f.content from ite_self _] at hcaches
  refine ⟨f, r, hf, hstSize, hranged, hread, hreads, ?_⟩
  unfold Mount.Inv
  rw [hsession]
  exact ⟨f, hf, hreads.stats ▸ hstSize, hreads.isOpen.trans hserves.isOpen,
    hreads.name.trans hserves.name, hserves.short, hcaches⟩

/-- Every step keeps the invariant. -/
theorem SessionStep.inv {m m' : Mount} {call : SessionCall} (h : SessionStep stale shell m call m')
    (hinv : m.Inv) : m'.Inv := by
  cases h with
  | refused p reply hopen =>
    have hsame : udtfsOpen stale m.client p.bytes reply = (-eIo, m.client) := by
      rw [udtfsOpen, if_pos hopen]
    rw [hsame]
    exact hinv
  | openFile hclosed hlen hfile hanswer =>
    exact hinv.openFile stale shell hclosed hlen hfile hanswer
  | @read _ size offset beyond r hsession hlow hlt hread =>
    have hn : m.client.actualsize size offset ≤ maxCacheSize := by
      by_contra hlarge
      rw [udtfsRead_none (by omega)] at hread
      contradiction
    obtain ⟨_, r', -, -, -, hread', -, hafter⟩ := hinv.read stale shell hsession hlow hlt hn beyond
    obtain rfl := Option.some.inj (hread.symm.trans hread')
    exact hafter
  | release hsession =>
    unfold Mount.Inv at hinv
    rw [hsession] at hinv
    obtain ⟨f, -, -, hserves⟩ := hinv
    rw [udtfsRelease_serves hserves]
    exact ⟨rfl, rfl, rfl⟩
  | change fs hkept =>
    unfold Mount.Inv at hinv ⊢
    split at hinv
    · next hsession =>
      rw [hsession]
      exact hinv
    · next p hsession =>
      obtain ⟨f, hf, hstSize, hserves⟩ := hinv
      rw [hsession]
      exact ⟨f, ⟨(hkept p hsession).trans hf.lookup, hf.readable, hf.length_lt⟩, hstSize, hserves⟩

/-- The invariant holds in every reachable state. -/
theorem Mount.inv_run {cache : ℕ → UInt8} {fs : ServerFs} {calls : List SessionCall} {m : Mount}
    (h : Run (SessionStep stale shell) (Mount.init cache fs) calls m) : m.Inv := by
  apply h.invariant _ (show (Mount.init cache fs).Inv from ⟨rfl, rfl, rfl⟩)
  intro m₁ call m₂ hinv hstep
  exact hstep.inv stale shell hinv

/-- The state after the first open of a file. -/
def Mount.opened (cache : ℕ → UInt8) (fs : ServerFs) (p : FusePath) (f : File) : Mount where
  client :=
    { Client.init cache with
      fileStats := Stat.received { f.attributes with stSize := f.content.length }
      fileName := strncpy p.name mMaxVal
      fileIsOpen := true }
  fs := fs
  session := some p

/-- The first open of a file begins its session. -/
theorem run_openFile_session (cache : ℕ → UInt8) {fs : ServerFs} {p : FusePath} {f : File}
    (hf : fs.Readable p f) (hlen : p.name.length ≤ 126) :
    Run (SessionStep stale shell) (Mount.init cache fs) [.openFile p]
      (Mount.opened cache fs p f) := by
  have hfile : fs.FileOrAbsent p := by
    intro node hnode
    obtain rfl := Option.some.inj (hf.lookup.symm.trans hnode)
    exact ⟨f, rfl, hf.readable, hf.length_lt⟩
  have hanswer := exchange_getattr stale shell hlen fs
  rw [stat_readable hf] at hanswer
  have hstep : SessionStep stale shell (Mount.init cache fs) (.openFile p) _ :=
    SessionStep.openFile rfl hlen hfile hanswer
  rw [udtfsOpen_some stale rfl] at hstep
  exact (Run.nil _).snoc hstep

/-- In every reachable state, a read inside the session of a path returns as many bytes as asked
for, cropped at the end of the file, and they are the bytes of the server's file at the offset, as
if the server had been asked for them; they are copied from inside the cached window. -/
theorem cachedRead_run {cache : ℕ → UInt8} {fs : ServerFs} {calls : List SessionCall} {m : Mount}
    (hrun : Run (SessionStep stale shell) (Mount.init cache fs) calls m) {p : FusePath}
    (hsession : m.session = some p) {size : ℕ} {offset : ℤ} (hlow : 0 ≤ offset)
    (hhigh : offset ≤ m.client.fileStats.stSize) (hsize : size ≤ maxCacheSize) (beyond : Bytes) :
    ∃ f r, m.fs.lookup p.name = some (.file f) ∧
      udtfsRead m.client beyond size offset (serve stale shell m.fs) = some r ∧
      r.ret = min (size : ℤ) (m.client.fileStats.stSize - offset) ∧
      r.buf = slice f.content offset.toNat r.ret.toNat ∧ (r.buf.length : ℤ) = r.ret ∧
      0 ≤ r.start ∧ r.start + r.ret ≤ r.client.cacheLen := by
  have hinv := Mount.inv_run stale shell hrun
  have hranged := hinv.ranged hsession hlow hhigh
  have hactual : m.client.actualsize size offset = _ := actualsize_inside hranged hhigh
  have hn : m.client.actualsize size offset ≤ maxCacheSize := by omega
  obtain ⟨f, r, hf, hstSize, -, hread, hreads, -⟩ :=
    hinv.read stale shell hsession hlow hranged.lt hn beyond
  have hcropped : (m.client.actualsize size offset : ℤ) =
      min (size : ℤ) (m.client.fileStats.stSize - offset) := by
    rw [hactual]
    omega
  have hinside : offset.toNat + m.client.actualsize size offset ≤ f.content.length := by omega
  have hfits := actualsize_le_fetchsize hranged hhigh hsize
  have hbuf : r.buf = slice f.content offset.toNat (m.client.actualsize size offset) := by
    rw [hreads.buf, ← map_byteAt hinside]
    apply List.map_congr_left
    intro i hi
    have hi := (List.mem_range.mp hi).trans_le hfits
    rw [Client.served, if_pos hi, ite_self]
  refine ⟨f, r, hf.lookup, hread, hreads.ret.trans hcropped, ?_, ?_, hreads.start, ?_⟩
  · rw [hbuf, hreads.ret, Int.toNat_natCast]
  · rw [hbuf, hreads.ret, slice_length]
    omega
  · rw [hreads.ret]
    exact hreads.window fun _ => hfits

end

/-- A client that has opened a file of five bytes. -/
def helloMount : Mount :=
  Mount.opened (fun _ => 0) (ServerFs.ofFiles [(ascii "a", File.plain (ascii "hello"))]) pathA
    (File.plain (ascii "hello"))

/-- Its file can be read. -/
theorem helloMount_readable : helloMount.fs.Readable pathA (File.plain (ascii "hello")) :=
  ⟨by decide, rfl, by decide⟩

/-- The client remembers the size of the file. -/
theorem helloMount_stSize : helloMount.client.fileStats.stSize = 5 :=
  received_stSize (show (0 : ℤ) ≤ 5 by decide) (show (5 : ℤ) < 2 ^ 63 by decide)

/-- Three bytes from the middle of the opened file. -/
theorem cachedRead_run_hello :
    ∃ f r, helloMount.fs.lookup pathA.name = some (.file f) ∧
      udtfsRead helloMount.client [] 3 1 (serve (fun _ => []) (fun _ fs => fs) helloMount.fs) =
        some r ∧
      r.ret = min 3 (helloMount.client.fileStats.stSize - 1) ∧
      r.buf = slice f.content 1 r.ret.toNat ∧
      (r.buf.length : ℤ) = r.ret ∧ 0 ≤ r.start ∧ r.start + r.ret ≤ r.client.cacheLen :=
  cachedRead_run (fun _ => []) (fun _ fs => fs)
    (run_openFile_session _ _ (fun _ => 0) helloMount_readable (by decide)) rfl
    (show (0 : ℤ) ≤ 1 by decide) (le_of_le_of_eq (by decide) helloMount_stSize.symm)
    (show 3 ≤ maxCacheSize by decide) []

/-! ## Reads behind the end -/

/-- A read returns nothing and leaves the window as it is. -/
def Client.ReadsNothing (c : Client) (beyond : Bytes) (size : ℕ) (offset : ℤ)
    (serve : Request → Option Bytes) : Prop :=
  ∃ r, udtfsRead c beyond size offset serve = some r ∧ r.ret = 0 ∧ r.buf = [] ∧
    r.client.cacheOffset = c.cacheOffset ∧ r.client.cacheLen = c.cacheLen

/-- A read that has something to copy either does not return or returns that much. -/
theorem udtfsRead_buf_length {c : Client} {beyond : Bytes} {size : ℕ} {offset : ℤ}
    {serve : Request → Option Bytes} {r : ReadResult}
    (h : udtfsRead c beyond size offset serve = some r) :
    r.buf.length = c.actualsize size offset := by
  unfold udtfsRead at h
  dsimp only at h
  split at h
  · next hzero =>
    rw [← Option.some.inj h, Nat.le_zero.mp hzero]
    rfl
  · obtain ⟨cached, -, hcopy⟩ := Option.bind_eq_some_iff.mp h
    obtain ⟨-, -, rfl⟩ := copyOut_some hcopy
    rw [List.length_map, List.length_range]

/-- In every state and whatever the server sends, a read behind the end of the file returns nothing
exactly if it asks for nothing: the negative remainder is huge when it is compared with the size. -/
theorem readsNothing_iff {c : Client} {size : ℕ} {offset : ℤ} (h : c.Ranged offset)
    (hbehind : c.fileStats.stSize < offset) (beyond : Bytes) (serve : Request → Option Bytes) :
    c.ReadsNothing beyond size offset serve ↔ size = 0 := by
  have hactual : c.actualsize size offset = _ := actualsize_behind h hbehind
  have hlt := h.lt
  have hnonneg := h.size_nonneg
  constructor
  · rintro ⟨r, hread, -, hbuf, -⟩
    have hlength := udtfsRead_buf_length hread
    rw [hbuf, List.length_nil] at hlength
    omega
  · rintro rfl
    rw [Client.ReadsNothing, udtfsRead]
    dsimp only
    rw [if_pos (by omega)]
    exact ⟨_, rfl, rfl, rfl, rfl, rfl⟩

/-- Offset 6 lies behind the end of the opened file. -/
theorem helloMount_behind :
    helloMount.client.Ranged 6 ∧ helloMount.client.fileStats.stSize < 6 := by
  have hstSize := helloMount_stSize
  refine ⟨⟨by decide, by decide, ?_, ?_⟩, ?_⟩ <;> omega

/-- Behind its five bytes, nothing is asked of the opened file and nothing is returned. -/
theorem readsNothing_hello :
    helloMount.client.ReadsNothing [] 0 6 (serve (fun _ => []) (fun _ fs => fs) helloMount.fs) :=
  (readsNothing_iff helloMount_behind.1 helloMount_behind.2 [] _).mpr rfl

/-- A read of one byte behind the end of a file just opened returns a byte. -/
theorem read_behind_end :
    ¬ ∀ (fs : ServerFs) (calls : List SessionCall) (m : Mount) (size : ℕ) (offset : ℤ),
      Run (SessionStep (fun _ => []) fun _ fs => fs) (Mount.init (fun _ => 0) fs) calls m →
        m.client.fileIsOpen = true → m.client.Ranged offset → m.client.fileStats.stSize < offset →
          m.client.ReadsNothing [] size offset (serve (fun _ => []) (fun _ fs => fs) m.fs) := by
  intro h
  have hrun : Run (SessionStep (fun _ => []) fun _ fs => fs) (Mount.init (fun _ => 0) helloMount.fs)
      [.openFile pathA] helloMount :=
    run_openFile_session _ _ (fun _ => 0) helloMount_readable (by decide)
  obtain ⟨hranged, hbehind⟩ := helloMount_behind
  obtain ⟨r, hread, -, hbuf, -⟩ := h _ _ _ 1 6 hrun rfl hranged hbehind
  have hlength := udtfsRead_buf_length hread
  have hstSize := helloMount_stSize
  rw [hbuf, List.length_nil, actualsize_behind hranged hbehind] at hlength
  omega

end Udtfs

import Udtfs.Receives
import Udtfs.Sessions

/-!
# Reads after the client's own changes

A write and a truncate leave the remembered size and the cached window as they were. A read after
them is therefore right only as far as the changes do not show: the old size crops it as the new
one would, and the part of the window it is answered from still agrees with the file.
-/

namespace Udtfs

open NulString Content Transition

/-- A client with an open file, and the server. -/
structure OpenState where
  client : Client
  fs : ServerFs
  /-- What the file held when the cache was filled. -/
  fetched : Bytes

/-- A callback on the open file, or a change of other files. -/
inductive FileCall where
  | read (size : ℕ) (offset : ℤ)
  | write (data dataBeyond : Bytes) (offset : ℤ)
  | truncate (newsize : ℤ)
  | change

section
variable (stale : ℕ → Bytes) (shell : Bytes → ServerFs → ServerFs) (p : FusePath)

/-- The content of the open file on the server. -/
def OpenState.content (s : OpenState) : Bytes := (s.fs.contentOf p.name).getD []

/-- The state in which a session is, as far as its file is concerned. -/
def Mount.openState (m : Mount) : OpenState :=
  ⟨m.client, m.fs, (m.fs.contentOf p.name).getD []⟩

/-- One callback on the open file that the server processes whole, or a change that spares the
file. A file never outgrows the range of sizes. -/
inductive FileStep : OpenState → FileCall → OpenState → Prop
  | read {s : OpenState} {beyond : Bytes} {size : ℕ} {offset : ℤ} {r : ReadResult}
      (hlow : 0 ≤ offset) (hlt : offset < 2 ^ 63)
      (hread : udtfsRead s.client beyond size offset (serve stale shell s.fs) = some r) :
      FileStep s (.read size offset)
        { s with
          client := r.client
          fetched := s.client.source size offset s.fetched (s.content p) }
  | write {s : OpenState} {beyond data dataBeyond : Bytes} {offset : ℤ} {answer : Answer}
      (hanswer : exchange stale shell s.fs
        (udtfsWrite s.client beyond p.bytes data dataBeyond offset).request = some answer)
      (hsize : answer.fs.FileOrAbsent p) :
      FileStep s (.write data dataBeyond offset) { s with fs := answer.fs }
  | truncate {s : OpenState} {beyond : Bytes} {newsize : ℤ} {answer : Answer}
      (hanswer : exchange stale shell s.fs
        (udtfsTruncate s.client beyond p.bytes newsize).request = some answer)
      (hsize : answer.fs.FileOrAbsent p) :
      FileStep s (.truncate newsize) { s with fs := answer.fs }
  | change {s : OpenState} (fs : ServerFs) (hkept : fs.lookup p.name = s.fs.lookup p.name) :
      FileStep s .change { s with fs := fs }

/-- A read returns what the file holds at the offset, up to its present end. -/
def ReadCurrent (s : OpenState) (beyond : Bytes) (size : ℕ) (offset : ℤ) : Prop :=
  ∃ r, udtfsRead s.client beyond size offset (serve stale shell s.fs) = some r ∧
    r.ret = (slice (s.content p) offset.toNat size).length ∧
    r.buf = slice (s.content p) offset.toNat size

/-- How many bytes of a range the file holds. -/
def OpenState.present (s : OpenState) (size : ℕ) (offset : ℤ) : ℕ :=
  min size ((s.content p).length - offset.toNat)

/-- The cached window covers what the file holds of a range. -/
def OpenState.Covers (s : OpenState) (size : ℕ) (offset : ℤ) : Prop :=
  s.client.cacheOffset ≤ offset ∧
    offset + s.present p size offset ≤ s.client.cacheOffset + s.client.cacheLen

/-- The changes of the file do not show in a read. -/
structure Coherent (s : OpenState) (size : ℕ) (offset : ℤ) : Prop where
  /-- The remembered size crops the read as the present length does. It does not crop a read that
  begins behind it. -/
  crop : s.present p size offset =
    if offset ≤ s.client.fileStats.stSize then
      min size (s.client.fileStats.stSize - offset).toNat
    else size
  /-- The cache can hold what is read. -/
  fits : s.present p size offset ≤ maxCacheSize
  /-- If the cached window is used, the file still holds the same bytes there. -/
  unchanged : s.Covers p size offset → ∀ i, i < s.present p size offset →
    byteAt s.fetched (offset.toNat + i) = byteAt (s.content p) (offset.toNat + i)
  /-- A refill fetches no more bytes than the remembered size; if the read is longer, the old cache
  memory behind them happens to be right. -/
  remaining : ¬ s.Covers p size offset → ∀ i : ℕ, s.client.fileStats.stSize ≤ i →
    i < s.present p size offset → s.client.cache i = byteAt (s.content p) (offset.toNat + i)

/-- The open file can be read, the remembered size is a size, and the cached window holds what the
file held when it was filled. -/
structure OpenState.Inv (s : OpenState) : Prop where
  readable : ∃ f, s.fs.Readable p f
  size_nonneg : 0 ≤ s.client.fileStats.stSize
  size_lt : s.client.fileStats.stSize < 2 ^ 63
  serves : s.client.Serves p s.fetched

section
variable {p}

/-- The content of the open file is that of the file its name denotes. -/
theorem content_eq {s : OpenState} {f : File} (h : s.fs.lookup p.name = some (.file f)) :
    s.content p = f.content := by
  rw [OpenState.content, ServerFs.contentOf_file h, Option.getD_some]

/-- A session is such a state. -/
theorem Mount.Inv.openState {m : Mount} (hinv : m.Inv) (hsession : m.session = some p) :
    (m.openState p).Inv p := by
  unfold Mount.Inv at hinv
  rw [hsession] at hinv
  obtain ⟨f, hf, hstSize, hserves⟩ := hinv
  have hfetched : (m.openState p).fetched = f.content := by
    rw [Mount.openState, ServerFs.contentOf_file hf.lookup, Option.getD_some]
  have hranged := ranged_of_readable hf hstSize le_rfl (by decide)
  exact ⟨⟨f, hf⟩, hranged.size_nonneg, hranged.size_lt, hfetched ▸ hserves⟩

/-- A file never holds more of a range than a file can have. -/
theorem OpenState.Inv.present_lt {s : OpenState} (hinv : s.Inv p) (size : ℕ) (offset : ℤ) :
    s.present p size offset < 2 ^ 63 := by
  obtain ⟨f, hf⟩ := hinv.readable
  have hlength := hf.length_lt
  rw [OpenState.present, content_eq hf.lookup]
  omega

/-- A read that fits the cache returns, out of the file or out of the window. -/
theorem OpenState.Inv.reads {s : OpenState} (hinv : s.Inv p) {size : ℕ} {offset : ℤ}
    (hlow : 0 ≤ offset) (hlt : offset < 2 ^ 63)
    (hn : s.client.actualsize size offset ≤ maxCacheSize) (beyond : Bytes) :
    ∃ r, udtfsRead s.client beyond size offset (serve stale shell s.fs) = some r ∧
      Reads s.client size offset s.fetched (s.content p) r := by
  obtain ⟨f, hf⟩ := hinv.readable
  have hranged : s.client.Ranged offset := ⟨hlow, hlt, hinv.size_nonneg, hinv.size_lt⟩
  have hserve := serve_refill stale shell hf hinv.serves hranged beyond
  rw [← content_eq hf.lookup] at hserve
  exact udtfsRead_reads hinv.serves.caches hranged hn beyond hserve

/-- A read of what the file holds asks the server exactly if the window does not cover it. -/
theorem OpenState.Inv.refills_iff {s : OpenState} (hinv : s.Inv p) {size : ℕ} {offset : ℤ}
    (hlow : 0 ≤ offset) (hlt : offset < 2 ^ 63)
    (hcrop : s.client.actualsize size offset = s.present p size offset)
    (hn : s.present p size offset ≤ maxCacheSize) :
    s.client.Refills size offset ↔ 0 < s.present p size offset ∧ ¬ s.Covers p size offset := by
  have hranged : s.client.Ranged offset := ⟨hlow, hlt, hinv.size_nonneg, hinv.size_lt⟩
  rw [Client.Refills, hcrop, needsRefill_iff hinv.serves.caches hranged hn, OpenState.Covers]
  omega

/-- A byte that a read serves is the file's exactly if the window, where it is used, agrees with
the file there, and if old cache memory that is served instead does so. -/
theorem served_eq_iff (s : OpenState) (size : ℕ) (offset : ℤ) (i : ℕ) :
    s.client.served size offset s.fetched (s.content p) i =
        byteAt (s.content p) (offset.toNat + i) ↔
      (¬ s.client.Refills size offset →
        byteAt s.fetched (offset.toNat + i) = byteAt (s.content p) (offset.toNat + i)) ∧
      (s.client.Refills size offset → s.client.fetchsize ≤ i →
        s.client.cache i = byteAt (s.content p) (offset.toNat + i)) := by
  unfold Client.served
  split
  · next hrefills =>
    split
    · next hi => simp [hrefills, hi]
    · next hi => simp [hrefills, Nat.not_lt.mp hi]
  · next hrefills => simp [hrefills]

/-- In such a state a read is right exactly if the changes of the file do not show in it. -/
theorem OpenState.Inv.readCurrent_iff {s : OpenState} (hinv : s.Inv p) {size : ℕ} {offset : ℤ}
    (hlow : 0 ≤ offset) (hlt : offset < 2 ^ 63) (beyond : Bytes) :
    ReadCurrent stale shell p s beyond size offset ↔ Coherent p s size offset := by
  have hranged : s.client.Ranged offset := ⟨hlow, hlt, hinv.size_nonneg, hinv.size_lt⟩
  have hcrop_iff : s.client.actualsize size offset = s.present p size offset ↔ _ :=
    actualsize_eq_iff hranged (hinv.present_lt size offset)
  have hfetch := fetchsize_eq hranged
  constructor
  · rintro ⟨r, hread, hret, hbuf⟩
    have hn : s.client.actualsize size offset ≤ maxCacheSize := by
      by_contra hlarge
      rw [udtfsRead_none (by omega)] at hread
      contradiction
    obtain ⟨r', hread', hreads⟩ := hinv.reads stale shell hlow hlt hn beyond
    obtain rfl := Option.some.inj (hread.symm.trans hread')
    have hcrop : s.client.actualsize size offset = s.present p size offset := by
      rw [hreads.ret, slice_length] at hret
      exact_mod_cast hret
    have hrefills := hinv.refills_iff hlow hlt hcrop (hcrop ▸ hn)
    rw [hreads.buf, hcrop, ← map_byteAt_min, OpenState.present, List.map_inj_left] at hbuf
    have hbytes i (hi : i < s.present p size offset) :=
      (served_eq_iff s size offset i).mp (hbuf i (List.mem_range.mpr hi))
    refine ⟨hcrop_iff.mp hcrop, hcrop ▸ hn, fun hcovers i hi => ?_, fun hcovers i hst hi => ?_⟩
    · exact (hbytes i hi).1 fun h => (hrefills.mp h).2 hcovers
    · exact (hbytes i hi).2 (hrefills.mpr ⟨by omega, hcovers⟩) (by omega)
  · intro h
    have hcrop := hcrop_iff.mpr h.crop
    have hfits := h.fits
    have hrefills := hinv.refills_iff hlow hlt hcrop hfits
    obtain ⟨r, hread, hreads⟩ := hinv.reads stale shell hlow hlt (hcrop ▸ hfits) beyond
    refine ⟨r, hread, ?_, ?_⟩
    · rw [hreads.ret, hcrop, slice_length, OpenState.present]
    · rw [hreads.buf, hcrop, ← map_byteAt_min, OpenState.present, List.map_inj_left]
      intro i hi
      have hi : i < s.present p size offset := List.mem_range.mp hi
      refine (served_eq_iff s size offset i).mpr ⟨fun hhit => ?_, fun hmiss hlong => ?_⟩
      · exact h.unchanged (by_contra fun hcovers => hhit (hrefills.mpr ⟨by omega, hcovers⟩)) i hi
      · exact h.remaining (hrefills.mp hmiss).2 i (by omega) hi

/-- A write to the open file leaves it readable. -/
theorem act_write_readable {fs : ServerFs} {f : File} (hf : fs.Readable p f) {data : Bytes}
    {size : ℕ} {offset : ℤ} {answer : Answer}
    (h : fs.act shell (.write p.name data size offset) = some answer)
    (hsize : answer.fs.FileOrAbsent p) : ∃ g, answer.fs.Readable p g := by
  simp only [ServerFs.act, ServerFs.fopenAppend, hf.lookup] at h
  split at h
  · obtain rfl := Option.some.inj h
    have hlookup := ServerFs.lookup_setNode hf.lookup
      { f with content := fs.appended f.content data }
    obtain ⟨g, hg, hreadable, hlength⟩ := hsize _ hlookup
    obtain rfl := Node.file.inj hg
    exact ⟨_, hlookup, hreadable, hlength⟩
  · simp at h

/-- A truncate of the open file leaves it readable. -/
theorem act_truncate_readable {fs : ServerFs} {f : File} (hf : fs.Readable p f) {newsize : ℤ}
    {answer : Answer} (h : fs.act shell (.truncate p.name newsize) = some answer)
    (hsize : answer.fs.FileOrAbsent p) : ∃ g, answer.fs.Readable p g := by
  obtain rfl := Option.some.inj h
  have hlookup : ∃ g, (fs.truncate p.name newsize).lookup p.name = some (.file g) := by
    simp only [ServerFs.truncate, hf.lookup]
    split
    · exact ⟨_, ServerFs.lookup_setNode hf.lookup _⟩
    · exact ⟨f, hf.lookup⟩
  obtain ⟨g, hlookup⟩ := hlookup
  obtain ⟨g', hg, hreadable, hlength⟩ := hsize _ hlookup
  obtain rfl := Node.file.inj hg
  exact ⟨g, hlookup, hreadable, hlength⟩

/-- An exchange acts on the request that the command loop has decoded. -/
theorem act_of_exchange {fs : ServerFs} {r q : Request} {rest : TcpStream} {answer : Answer}
    (hanswer : exchange stale shell fs r = some answer)
    (hhandle : handleCommand stale ⟨r.wire, .closed⟩ = some (.handled q, rest)) :
    fs.act shell q = some answer := by
  rw [exchange, hhandle] at hanswer
  split at hanswer
  · next heq =>
    obtain ⟨hq, -⟩ := Prod.mk.inj (Option.some.inj heq)
    rwa [Served.handled.inj hq]
  · contradiction

/-- Every step keeps the invariant. -/
theorem FileStep.inv {s s' : OpenState} {call : FileCall} (h : FileStep stale shell p s call s')
    (hinv : s.Inv p) : s'.Inv p := by
  obtain ⟨f, hf⟩ := hinv.readable
  have hopenName (beyond : Bytes) : s.client.openName beyond = p.name :=
    openName_eq hinv.serves.name hinv.serves.short beyond
  have hshort : p.name.length < 127 := by
    have := hinv.serves.short
    omega
  cases h with
  | @read beyond size offset r hlow hlt hread =>
    have hn : s.client.actualsize size offset ≤ maxCacheSize := by
      by_contra hlong
      rw [udtfsRead_none (by omega)] at hread
      contradiction
    obtain ⟨r', hread', hreads⟩ := hinv.reads stale shell hlow hlt hn beyond
    obtain rfl := Option.some.inj (hread.symm.trans hread')
    exact ⟨⟨f, hf⟩, hreads.stats ▸ hinv.size_nonneg, hreads.stats ▸ hinv.size_lt,
      hreads.isOpen.trans hinv.serves.isOpen, hreads.name.trans hinv.serves.name,
      hinv.serves.short, hreads.caches⟩
  | @write beyond data dataBeyond offset answer hanswer hsize =>
    rw [udtfsWrite, hopenName, exchange, wire_sentPayload, ← exchange] at hanswer
    obtain ⟨data', size', offset', hpass⟩ := handleCommand_write stale .closed p.name_nulFree
      (cstr_nulFree (data ++ dataBeyond)) data.length offset []
    rw [frames_cons, List.append_assoc, List.cons_append,
      argument_frame stale .closed p.name_nulFree hshort, List.append_nil] at hpass
    have hact := act_of_exchange stale shell hanswer hpass
    exact ⟨act_write_readable shell hf hact hsize, hinv.size_nonneg, hinv.size_lt, hinv.serves⟩
  | @truncate beyond newsize answer hanswer hsize =>
    rw [udtfsTruncate, hopenName] at hanswer
    have hpass := handleCommand_truncate stale .closed p.name_nulFree newsize []
    rw [frames_cons, List.append_assoc, List.cons_append,
      argument_frame stale .closed p.name_nulFree hshort, List.append_nil] at hpass
    have hact := act_of_exchange stale shell hanswer hpass
    exact ⟨act_truncate_readable shell hf hact hsize, hinv.size_nonneg, hinv.size_lt, hinv.serves⟩
  | change fs hkept =>
    exact ⟨⟨f, hkept.trans hf.lookup, hf.readable, hf.length_lt⟩, hinv.size_nonneg, hinv.size_lt,
      hinv.serves⟩

/-- A permitted truncate of an open file is processed and only resizes the file. -/
theorem truncate_step {s : OpenState} (hinv : s.Inv p) {f : File} (hf : s.fs.Readable p f)
    (hresizable : f.resizable = true) {newsize : ℤ} (h₀ : 0 ≤ newsize) (h : newsize < 2 ^ 63)
    (hmax : newsize ≤ s.fs.maxSize) :
    ∃ after : ServerFs, after.contentOf p.name = some (resize f.content newsize.toNat) ∧
      FileStep stale shell p s (.truncate newsize) { s with fs := after } := by
  have hcarried : (Request.truncate p.name newsize).Carried :=
    ⟨⟨p.name_nulFree, hinv.serves.short⟩, h₀, h⟩
  have hanswer : exchange stale shell s.fs
      (udtfsTruncate s.client [] p.bytes newsize).request =
        some ⟨s.fs.truncate p.name newsize, [], []⟩ := by
    rw [udtfsTruncate, openName_eq hinv.serves.name hinv.serves.short, exchange_carried hcarried,
      ServerFs.act]
  have hlookup : (s.fs.truncate p.name newsize).lookup p.name =
      some (.file { f with content := resize f.content newsize.toNat }) := by
    simp only [ServerFs.truncate, hf.lookup, hresizable, h₀, hmax, and_self, if_true]
    exact ServerFs.lookup_setNode hf.lookup _
  refine ⟨_, ServerFs.contentOf_file hlookup, FileStep.truncate hanswer ?_⟩
  intro node hnode
  obtain rfl := Option.some.inj (hlookup.symm.trans hnode)
  refine ⟨_, rfl, hf.readable, ?_⟩
  rw [resize_length]
  omega

/-- The invariant holds in every state that callbacks on the open file reach from a session. -/
theorem openState_run {cache : ℕ → UInt8} {fs : ServerFs} {opening : List SessionCall} {m : Mount}
    (hopen : Run (SessionStep stale shell) (Mount.init cache fs) opening m)
    (hsession : m.session = some p) {calls : List FileCall} {s : OpenState}
    (hrun : Run (FileStep stale shell p) (m.openState p) calls s) : s.Inv p := by
  apply hrun.invariant _ ((Mount.inv_run stale shell hopen).openState hsession)
  intro s₁ call s₂ hinv hstep
  exact hstep.inv stale shell hinv

/-- In every state that reads, writes and truncates of the open file reach, a read returns the
bytes that the server's file then holds if and only if the changes do not show in it: the
remembered size crops the read as the present length does, and the cached window, if it is used,
still agrees with the file there. -/
theorem readCurrent_run_iff {cache : ℕ → UInt8} {fs : ServerFs} {opening : List SessionCall}
    {m : Mount} (hopen : Run (SessionStep stale shell) (Mount.init cache fs) opening m)
    (hsession : m.session = some p) {calls : List FileCall} {s : OpenState}
    (hrun : Run (FileStep stale shell p) (m.openState p) calls s) {size : ℕ} {offset : ℤ}
    (hlow : 0 ≤ offset) (hlt : offset < 2 ^ 63) (beyond : Bytes) :
    ReadCurrent stale shell p s beyond size offset ↔ Coherent p s size offset :=
  (openState_run stale shell hopen hsession hrun).readCurrent_iff stale shell hlow hlt beyond

/-- As long as the file is as it was when it was opened and fetched, no read inside it is wrong. -/
theorem coherent_of_unchanged {s : OpenState} (hfetched : s.fetched = s.content p)
    (hsize : s.client.fileStats.stSize = (s.content p).length) {size : ℕ} {offset : ℤ}
    (hlow : 0 ≤ offset) (hle : offset ≤ s.client.fileStats.stSize) (hmax : size ≤ maxCacheSize) :
    Coherent p s size offset := by
  have hpresent : s.present p size offset = min size ((s.content p).length - offset.toNat) := rfl
  refine ⟨?_, ?_, ?_, ?_⟩
  · rw [if_pos hle, hpresent, hsize]
    omega
  · omega
  · intro _ i _
    rw [hfetched]
  · intro _ i hlong hi
    omega

end

end

/-- A read of the opened file before any change of it. -/
theorem readCurrent_hello :
    ReadCurrent (fun _ => []) (fun _ fs => fs) pathA (helloMount.openState pathA) [] 3 1 := by
  have hcontent : (helloMount.openState pathA).content pathA =
      (File.plain (ascii "hello")).content :=
    content_eq helloMount_readable.lookup
  have hsize : (helloMount.openState pathA).client.fileStats.stSize =
      ((helloMount.openState pathA).content pathA).length := by
    rw [hcontent]
    exact helloMount_stSize
  exact (readCurrent_run_iff (fun _ => []) (fun _ fs => fs)
    (run_openFile_session _ _ (fun _ => 0) helloMount_readable (by decide)) rfl (Run.nil _)
    (show (0 : ℤ) ≤ 1 by decide) (show (1 : ℤ) < 2 ^ 63 by decide) []).mpr
    (coherent_of_unchanged rfl hsize (by decide)
      (le_of_le_of_eq (by decide) helloMount_stSize.symm) (by decide))

/-- After a truncate to nothing, the opened file of five bytes still reads as five bytes. -/
theorem read_after_truncate :
    ¬ ∀ (fs : ServerFs) (p : FusePath) (opening : List SessionCall) (m : Mount)
      (calls : List FileCall) (s : OpenState) (size : ℕ) (offset : ℤ) (beyond : Bytes),
        Run (SessionStep (fun _ => []) fun _ fs => fs) (Mount.init (fun _ => 0) fs) opening m →
        m.session = some p →
        Run (FileStep (fun _ => []) (fun _ fs => fs) p) (m.openState p) calls s →
        0 ≤ offset → offset < 2 ^ 63 →
          ReadCurrent (fun _ => []) (fun _ fs => fs) p s beyond size offset := by
  intro h
  have hopen : Run (SessionStep (fun _ => []) fun _ fs => fs) _ _ helloMount :=
    run_openFile_session _ _ (fun _ => 0) helloMount_readable (by decide)
  have hinv : (helloMount.openState pathA).Inv pathA :=
    openState_run (fun _ => []) (fun _ fs => fs) hopen rfl (Run.nil _)
  obtain ⟨after, hafter, hstep⟩ := truncate_step (fun _ => []) (fun _ fs => fs) hinv
    helloMount_readable rfl (show (0 : ℤ) ≤ 0 by decide) (by decide) (by decide)
  have hcurrent := h _ _ _ _ _ _ 5 0 [] hopen rfl ((Run.nil _).snoc hstep) le_rfl (by decide)
  have hcoherent :=
    ((hstep.inv _ _ hinv).readCurrent_iff _ _ le_rfl (by decide) []).mp hcurrent
  have hcrop := hcoherent.crop
  have hsize : (helloMount.openState pathA).client.fileStats.stSize = 5 := helloMount_stSize
  rw [OpenState.present, OpenState.content, hafter, hsize] at hcrop
  exact absurd hcrop (by decide)

end Udtfs

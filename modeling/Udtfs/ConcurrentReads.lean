import Udtfs.CachedRead
import Udtfs.Lib.Run

/-!
# Concurrent reads

Reads on several threads share one cache. A read tests the window, overwrites the cache memory under
the mutexes, then publishes the new window, and copies; only the second of these steps is protected.
The refill of one read can fall between any two steps of another.
-/

namespace Udtfs

open NulString Content Transition

/-! ## The steps of a read -/

/-- A call of `udtfs_read`, with its local variable `actualsize`. -/
structure ReadCall where
  size : ℕ
  offset : ℤ
  actualsize : ℕ

/-- How far a thread is in `udtfs_read`. -/
inductive Reading where
  | idle
  /-- The window lacks a part of the range. -/
  | missed (call : ReadCall)
  /-- The cache memory has been overwritten. -/
  | fetched (call : ReadCall)
  /-- Only the copy is left. -/
  | ready (call : ReadCall)

/-- A read that has returned, with the length of the window at its copy. -/
structure CompletedRead where
  call : ReadCall
  result : Option ReadResult
  cacheLen : ℕ

/-- The globals, the reads in progress, and those that have returned. -/
structure ReadRace where
  client : Client
  reading : ℕ → Reading
  completed : List CompletedRead

/-- No read has been called. -/
def ReadRace.start (c : Client) : ReadRace := ⟨c, fun _ => .idle, []⟩

/-- The steps of `udtfs_read`. -/
inductive ReadEvent where
  /-- The crop and the test of the cache. -/
  | test (size : ℕ) (offset : ℤ)
  /-- The request and the bytes that overwrite `_cache`, under the mutexes. -/
  | fetch
  /-- The assignments of `_cache_offset` and `_cache_len`. -/
  | publish
  /-- The copy to `buf`. -/
  | copy

/-- `client_recvsegment` of a refill: the bytes go into the cache memory. -/
def Client.fetch (c : Client) (udt : Bytes) : Option Client :=
  if c.fetchsize ≤ maxCacheSize then
    (clientRecvsegment udt c.fetchsize c.cache).map fun received => { c with cache := received.1 }
  else none

/-- The window of a refill. -/
def Client.publish (c : Client) (offset : ℤ) : Client :=
  { c with cacheOffset := offset, cacheLen := c.fetchsize }

/-- A refill is its two steps. -/
theorem refill_eq_publish (c : Client) (offset : ℤ) (udt : Bytes) :
    c.refill offset udt = (c.fetch udt).map fun c' => c'.publish offset := by
  unfold Client.refill Client.fetch
  split
  · rw [Option.map_map]
    rfl
  · rfl

section
variable (content : Bytes)

/-- One step of a thread. The server sends the part of the file that a refill asks for, with zeros
behind its end. -/
inductive ReadRace.Step : ReadRace → ℕ × ReadEvent → ReadRace → Prop
  | nothing {s : ReadRace} {i size : ℕ} {offset : ℤ} (hidle : s.reading i = .idle)
      (hoffset : 0 ≤ offset ∧ offset ≤ content.length) (hsize : size ≤ maxCacheSize)
      (hzero : s.client.actualsize size offset ≤ 0) :
      Step s (i, .test size offset)
        { s with
          completed := ⟨⟨size, offset, 0⟩, some ⟨0, 0, [], s.client⟩, s.client.cacheLen⟩ :: s.completed }
  | hit {s : ReadRace} {i size : ℕ} {offset : ℤ} (hidle : s.reading i = .idle)
      (hoffset : 0 ≤ offset ∧ offset ≤ content.length) (hsize : size ≤ maxCacheSize)
      (hpos : 0 < s.client.actualsize size offset)
      (hhit : s.client.needsRefill (s.client.actualsize size offset) offset = false) :
      Step s (i, .test size offset)
        { s with
          reading := Function.update s.reading i
            (.ready ⟨size, offset, s.client.actualsize size offset⟩) }
  | miss {s : ReadRace} {i size : ℕ} {offset : ℤ} (hidle : s.reading i = .idle)
      (hoffset : 0 ≤ offset ∧ offset ≤ content.length) (hsize : size ≤ maxCacheSize)
      (hmiss : s.client.Refills size offset) :
      Step s (i, .test size offset)
        { s with
          reading := Function.update s.reading i
            (.missed ⟨size, offset, s.client.actualsize size offset⟩) }
  | fetch {s : ReadRace} {i : ℕ} {call : ReadCall} {c : Client} (hmissed : s.reading i = .missed call)
      (hfetch : s.client.fetch (padded content call.offset.toNat s.client.fetchsize) = some c) :
      Step s (i, .fetch) { s with client := c, reading := Function.update s.reading i (.fetched call) }
  | publish {s : ReadRace} {i : ℕ} {call : ReadCall} (hfetched : s.reading i = .fetched call) :
      Step s (i, .publish)
        { s with
          client := s.client.publish call.offset
          reading := Function.update s.reading i (.ready call) }
  | copy {s : ReadRace} {i : ℕ} {call : ReadCall} (hready : s.reading i = .ready call) :
      Step s (i, .copy)
        { s with
          reading := Function.update s.reading i .idle
          completed := ⟨call, s.client.copyOut call.actualsize call.offset, s.client.cacheLen⟩ ::
            s.completed }

/-- The read returned the bytes of the file at its own offset, copied from inside the window. -/
def CompletedRead.Right (r : CompletedRead) : Prop :=
  ∃ result, r.result = some result ∧
    result.ret = (slice content r.call.offset.toNat r.call.size).length ∧
    result.buf = slice content r.call.offset.toNat r.call.size ∧
    0 ≤ result.start ∧ result.start + r.call.actualsize ≤ r.cacheLen

/-- Every read that has returned was right. -/
def ReadRace.Right (s : ReadRace) : Prop := ∀ r ∈ s.completed, r.Right content

end

/-- The read has overwritten the cache memory and not yet published the window. -/
def Reading.isFetched : Reading → Bool
  | .fetched _ => true
  | .idle | .missed _ | .ready _ => false

/-- The read has passed its test of the cache, or has published its window. -/
def Reading.isReady : Reading → Bool
  | .ready _ => true
  | .idle | .missed _ | .fetched _ => false

/-- The cache memory is not overwritten while another read is between its own fetch, or its successful
test, and its copy, and no test of a read that wants bytes succeeds between the fetch and the publication
of another read. -/
def ReadRace.Undisturbed (s : ReadRace) : ℕ × ReadEvent → Prop
  | (i, .test size offset) =>
    s.client.actualsize size offset ≤ 0 ∨ s.client.Refills size offset ∨
      ∀ j, j ≠ i → (s.reading j).isFetched = false
  | (i, .fetch) => ∀ j, j ≠ i → (s.reading j).isFetched = false ∧ (s.reading j).isReady = false
  | _ => True

/-! ## One read -/

section
variable {content : Bytes}

/-- A call inside the file whose amount has been cropped. -/
structure ReadCall.Valid (call : ReadCall) (content : Bytes) : Prop where
  nonneg : 0 ≤ call.offset
  inside : call.offset ≤ content.length
  size_le : call.size ≤ maxCacheSize
  actualsize : call.actualsize = min call.size (content.length - call.offset.toNat)

/-- The remembered size is that of the content. -/
structure Client.Sized (c : Client) (content : Bytes) : Prop where
  stSize : c.fileStats.stSize = content.length
  lt : content.length < 2 ^ 63

/-- An offset inside the file is in range. -/
theorem Client.Sized.ranged {c : Client} (h : c.Sized content) {offset : ℤ} (hnonneg : 0 ≤ offset)
    (hinside : offset ≤ content.length) : c.Ranged offset := by
  obtain ⟨hst, hlt⟩ := h
  exact ⟨hnonneg, by omega, by omega, by omega⟩

/-- The crop of a call inside the file. -/
theorem Client.Sized.valid {c : Client} (h : c.Sized content) {size : ℕ} {offset : ℤ}
    (hoffset : 0 ≤ offset ∧ offset ≤ content.length) (hsize : size ≤ maxCacheSize) :
    ReadCall.Valid ⟨size, offset, c.actualsize size offset⟩ content where
  nonneg := hoffset.1
  inside := hoffset.2
  size_le := hsize
  actualsize := by
    have hinside := h.stSize
    dsimp only
    rw [actualsize_inside (h.ranged hoffset.1 hoffset.2) (by omega)]
    omega

/-- A fetch overwrites the beginning of the cache memory and nothing else. -/
theorem fetch_padded {c c' : Client} {position : ℕ}
    (h : c.fetch (padded content position c.fetchsize) = some c') :
    c.fetchsize ≤ maxCacheSize ∧ c'.fileStats = c.fileStats ∧
      ∀ i, i < c.fetchsize → c'.cache i = byteAt content (position + i) := by
  unfold Client.fetch at h
  split at h
  · next hmax =>
    have hreceive := clientRecvsegment_append (padded content position c.fetchsize) [] c.cache
    rw [List.append_nil, padded_length] at hreceive
    rw [hreceive, Option.map_some, Option.some.injEq] at h
    subst h
    refine ⟨hmax, rfl, fun i hi => ?_⟩
    have hlength : i < (padded content position c.fetchsize).length := by rwa [padded_length]
    dsimp only
    rw [if_pos hi, byteAt_of_lt hlength, padded_getElem]
  · contradiction

/-- A copy from inside a window of the file returns the bytes at the offset. -/
theorem copyOut_right {c : Client} {call : ReadCall} (hvalid : call.Valid content)
    (hcaches : c.Caches content) (hlow : c.cacheOffset ≤ call.offset)
    (hhigh : call.offset + call.actualsize ≤ c.cacheOffset + c.cacheLen) :
    CompletedRead.Right content ⟨call, c.copyOut call.actualsize call.offset, c.cacheLen⟩ := by
  have hlen := hcaches.len_le
  have hnonneg := hcaches.offset_nonneg
  have hcopy := copyOut_eq (c := c) call.offset (n := call.actualsize)
    (by rw [hvalid.actualsize]; exact (min_le_left _ _).trans hvalid.size_le) hlow (by omega)
  refine ⟨_, hcopy, ?_, ?_, ?_, ?_⟩
  · dsimp only
    rw [slice_length, hvalid.actualsize]
  · dsimp only
    rw [← map_byteAt_min, ← hvalid.actualsize]
    apply List.map_congr_left
    intro i hi
    have hi := List.mem_range.mp hi
    rw [hcaches.window _ (by omega)]
    congr 1
    omega
  · dsimp only
    omega
  · dsimp only
    omega

/-! ## All reads -/

variable (content) in
/-- What the cache holds for a read in progress. -/
def Reading.Consistent (c : Client) : Reading → Prop
  | .idle => True
  | .missed call => call.Valid content
  | .fetched call => call.Valid content ∧ c.fetchsize ≤ maxCacheSize ∧
      ∀ i, i < c.fetchsize → c.cache i = byteAt content (call.offset.toNat + i)
  | .ready call => call.Valid content ∧ c.Caches content ∧ c.cacheOffset ≤ call.offset ∧
      call.offset + call.actualsize ≤ c.cacheOffset + c.cacheLen

/-- A read that is neither fetched nor ready does not depend on the cache. -/
theorem Reading.Consistent.of_waiting {r : Reading} {c c' : Client} (h : r.Consistent content c)
    (hfetched : r.isFetched = false) (hready : r.isReady = false) : r.Consistent content c' := by
  cases r with
  | idle | missed => exact h
  | fetched | ready => contradiction

variable (content) in
/-- A read that has overwritten the cache memory is alone with it until it publishes the window;
otherwise the window is one of the file. -/
structure ReadRace.Inv (s : ReadRace) : Prop where
  sized : s.client.Sized content
  reading : ∀ i, (s.reading i).Consistent content s.client
  caches : (∀ i, (s.reading i).isFetched = false) → s.client.Caches content
  alone : ∀ i, (s.reading i).isFetched = true → ∀ j, j ≠ i →
    (s.reading j).isFetched = false ∧ (s.reading j).isReady = false
  completed : s.Right content

/-- The invariant holds before the first read. -/
theorem ReadRace.inv_start {c : Client} (hsized : c.Sized content) (hcaches : c.Caches content) :
    (ReadRace.start c).Inv content where
  sized := hsized
  reading := fun _ => trivial
  caches := fun _ => hcaches
  alone := fun _ h => absurd h Bool.false_ne_true
  completed := fun _ h => absurd h List.not_mem_nil

/-- A read that is not fetching moves on without touching the globals. -/
theorem ReadRace.Inv.advance {s : ReadRace} (h : s.Inv content) {i : ℕ} {r : Reading}
    (hi : (s.reading i).isFetched = false) (hr : r.isFetched = false)
    (hready : r.isReady = true → ∀ j, (s.reading j).isFetched = false)
    (hconsistent : r.Consistent content s.client) {completed : List CompletedRead}
    (hcompleted : ∀ d ∈ completed, d.Right content) :
    ReadRace.Inv content ⟨s.client, Function.update s.reading i r, completed⟩ := by
  have hsame : ∀ j, (Function.update s.reading i r j).isFetched = (s.reading j).isFetched :=
    (Function.forall_update_iff s.reading fun j r => r.isFetched = (s.reading j).isFetched).mpr
      ⟨hr.trans hi.symm, fun _ _ => rfl⟩
  refine ⟨h.sized, ?_, fun hnone => ?_, fun j hj k hk => ?_, hcompleted⟩
  · exact (Function.forall_update_iff s.reading fun _ r => r.Consistent content s.client).mpr
      ⟨hconsistent, fun j _ => h.reading j⟩
  · exact h.caches fun j => (hsame j).symm.trans (hnone j)
  · dsimp only at hj ⊢
    have hj := (hsame j).symm.trans hj
    refine ⟨(hsame k).trans (h.alone j hj k hk).1, ?_⟩
    by_cases hki : k = i
    · rw [hki, Function.update_self]
      by_contra hready'
      rw [hready (by simpa using hready') j] at hj
      contradiction
    · rw [Function.update_of_ne hki]
      exact (h.alone j hj k hk).2

/-- While no other read is fetched or ready, a read may do to the cache what its own next step relies
on. -/
theorem ReadRace.Inv.exclusive {s : ReadRace} (h : s.Inv content) {i : ℕ} {r : Reading} {c : Client}
    (hothers : ∀ j, j ≠ i → (s.reading j).isFetched = false ∧ (s.reading j).isReady = false)
    (hstats : c.fileStats = s.client.fileStats) (hconsistent : r.Consistent content c)
    (hcaches : r.isFetched = false → c.Caches content) :
    ReadRace.Inv content { s with client := c, reading := Function.update s.reading i r } where
  sized := ⟨by rw [hstats]; exact h.sized.stSize, h.sized.lt⟩
  reading := (Function.forall_update_iff s.reading fun _ r => r.Consistent content c).mpr
    ⟨hconsistent, fun j hj => (h.reading j).of_waiting (hothers j hj).1 (hothers j hj).2⟩
  caches hnone := by
    have hself := hnone i
    dsimp only at hself
    rw [Function.update_self] at hself
    exact hcaches hself
  alone j hj k hk := by
    dsimp only at hj ⊢
    have hself : j = i := by
      by_contra hne
      rw [Function.update_of_ne hne, (hothers j hne).1] at hj
      contradiction
    rw [hself] at hk
    rw [Function.update_of_ne hk]
    exact hothers k hk
  completed := h.completed

/-- A read of nothing is right. -/
theorem right_of_nothing {c : Client} (h : c.Sized content) {size : ℕ} {offset : ℤ}
    (hoffset : 0 ≤ offset ∧ offset ≤ content.length) (hsize : size ≤ maxCacheSize)
    (hzero : c.actualsize size offset ≤ 0) :
    CompletedRead.Right content ⟨⟨size, offset, 0⟩, some ⟨0, 0, [], c⟩, c.cacheLen⟩ := by
  have hamount := (h.valid hoffset hsize).actualsize
  dsimp only at hamount
  have hnil : slice content offset.toNat size = [] := by
    rw [← List.length_eq_zero_iff, slice_length]
    omega
  refine ⟨_, rfl, ?_, ?_, le_rfl, Int.natCast_nonneg _⟩
  · rw [hnil]
    rfl
  · rw [hnil]

/-- A read whose test of the cache succeeds can copy from the window. -/
theorem ready_of_hit {c : Client} (h : c.Sized content) (hcaches : c.Caches content) {size : ℕ} {offset : ℤ}
    (hoffset : 0 ≤ offset ∧ offset ≤ content.length) (hsize : size ≤ maxCacheSize)
    (hhit : c.needsRefill (c.actualsize size offset) offset = false) :
    Reading.Consistent content c (.ready ⟨size, offset, c.actualsize size offset⟩) := by
  have hvalid := h.valid hoffset hsize
  have hamount : c.actualsize size offset ≤ maxCacheSize := by
    have hcropped := hvalid.actualsize
    dsimp only at hcropped
    omega
  have hwindow := (needsRefill_iff hcaches (h.ranged hoffset.1 hoffset.2) hamount).not.mp
    (by rw [hhit]; decide)
  exact ⟨hvalid, hcaches, by dsimp only; omega, by dsimp only; omega⟩

/-- So can a read that publishes the window it has fetched. -/
theorem ready_of_publish {c : Client} {call : ReadCall} (h : c.Sized content)
    (hfetched : Reading.Consistent content c (.fetched call)) :
    (c.publish call.offset).Caches content ∧
      Reading.Consistent content (c.publish call.offset) (.ready call) := by
  obtain ⟨hvalid, hmax, hcache⟩ := hfetched
  have hinside := hvalid.inside
  have hlt := h.lt
  have hcaches : (c.publish call.offset).Caches content :=
    ⟨hvalid.nonneg, hinside.trans_lt (by omega), hmax, hcache⟩
  have hfits : call.actualsize ≤ c.fetchsize := by
    have hst := h.stSize
    have hsize := hvalid.size_le
    rw [fetchsize_eq (h.ranged hvalid.nonneg hinside), hvalid.actualsize]
    omega
  exact ⟨hcaches, hvalid, hcaches, le_rfl, by simp only [Client.publish]; omega⟩

/-- An undisturbed step keeps the cache with the reads that rely on it. -/
theorem ReadRace.Step.inv {s t : ReadRace} {e : ℕ × ReadEvent}
    (hstep : ReadRace.Step content s e t) (h : s.Inv content) (hundisturbed : s.Undisturbed e) :
    t.Inv content := by
  cases hstep with
  | @nothing i size offset hidle hoffset hsize hzero =>
    refine ⟨h.sized, h.reading, h.caches, h.alone, ?_⟩
    exact List.forall_mem_cons.mpr ⟨right_of_nothing h.sized hoffset hsize hzero, h.completed⟩
  | @hit i size offset hidle hoffset hsize hpos hhit =>
    have hnone (j : ℕ) : (s.reading j).isFetched = false := by
      by_cases hj : j = i
      · rw [hj, hidle]
        rfl
      · have hsome := hundisturbed.resolve_left (by omega)
        refine hsome.resolve_left (fun hrefills => ?_) j hj
        rw [hrefills.2] at hhit
        contradiction
    apply h.advance (hnone i) rfl (fun _ => hnone) _ h.completed
    exact ready_of_hit h.sized (h.caches hnone) hoffset hsize hhit
  | @miss i size offset hidle hoffset hsize hmiss =>
    apply h.advance (r := .missed ⟨size, offset, _⟩) (by rw [hidle]; rfl) rfl
      (fun hready => absurd hready Bool.false_ne_true) _ h.completed
    exact h.sized.valid hoffset hsize
  | @fetch i call c hmissed hfetch =>
    have hvalid := h.reading i
    rw [hmissed] at hvalid
    obtain ⟨hmax, hstats, hcache⟩ := fetch_padded hfetch
    have hsame : c.fetchsize = s.client.fetchsize := by
      rw [Client.fetchsize, hstats, Client.fetchsize]
    apply h.exclusive hundisturbed hstats
    · exact ⟨hvalid, by rwa [hsame], by rwa [hsame]⟩
    · exact fun hnot => absurd hnot.symm Bool.false_ne_true
  | @publish i call hfetched =>
    have hconsistent := h.reading i
    rw [hfetched] at hconsistent
    obtain ⟨hcaches, hready⟩ := ready_of_publish h.sized hconsistent
    exact h.exclusive (c := s.client.publish call.offset) (h.alone i (by rw [hfetched]; rfl)) rfl hready
      fun _ => hcaches
  | @copy i call hready =>
    have hconsistent := h.reading i
    rw [hready] at hconsistent
    obtain ⟨hvalid, hcaches, hlow, hhigh⟩ := hconsistent
    apply h.advance (r := .idle) (by rw [hready]; rfl) rfl
      (fun hready => absurd hready Bool.false_ne_true) trivial
    exact List.forall_mem_cons.mpr ⟨copyOut_right hvalid hcaches hlow hhigh, h.completed⟩

/-- **Concurrent reads.** Reads of the one open, unchanged file on any number of threads return its bytes
at their own offsets, copied from inside the window, as long as no refill disturbs another read. -/
theorem concurrentReads_run {c : Client} {s : ReadRace} {events : List (ℕ × ReadEvent)}
    (hsized : c.Sized content) (hcaches : c.Caches content)
    (h : Run (Guarded ReadRace.Undisturbed (ReadRace.Step content)) (ReadRace.start c) events s) :
    s.Right content := by
  have hinv := h.invariant (P := ReadRace.Inv content)
    (fun t e u ht hstep => hstep.2.inv ht hstep.1) (ReadRace.inv_start hsized hcaches)
  exact hinv.completed

end

/-- A client that has opened a file of five bytes. -/
def helloReader : Client := { Client.opened (ascii "a") with fileStats := { Stat.zero with stSize := 5 } }

/-- Its remembered size is that of the file. -/
theorem helloReader_sized : helloReader.Sized (ascii "hello") := ⟨by decide, by decide⟩

/-- Its window is empty. -/
theorem helloReader_caches : helloReader.Caches (ascii "hello") :=
  ⟨by decide, by decide, by decide, fun _ h => absurd h (Nat.not_lt_zero _)⟩

/-- A read is answered from the window that another thread has published. -/
theorem concurrentReads_two :
    ∃ s, Run (Guarded ReadRace.Undisturbed (ReadRace.Step (ascii "hello"))) (ReadRace.start helloReader)
        [(0, .test 1 0), (0, .fetch), (0, .publish), (1, .test 2 1), (0, .copy), (1, .copy)] s ∧
      s.Right (ascii "hello") ∧ s.completed.length = 2 := by
  have hstart : Run (Guarded ReadRace.Undisturbed (ReadRace.Step (ascii "hello")))
      (ReadRace.start helloReader) [] (ReadRace.start helloReader) := Run.nil _
  have hmissed := hstart.snoc (e := (0, ReadEvent.test 1 0))
      (Guarded.intro (.miss rfl (by decide) (by decide) (by decide)) (Or.inr (Or.inl (by decide))))
  have halone (j : ℕ) (hj : j ≠ 0) :
      (Function.update (fun _ => Reading.idle) 0 (.missed ⟨1, 0, 1⟩) j).isFetched = false ∧
        (Function.update (fun _ => Reading.idle) 0 (.missed ⟨1, 0, 1⟩) j).isReady = false := by
    rw [Function.update_of_ne hj]
    exact ⟨rfl, rfl⟩
  have hfetched := hmissed.snoc (e := (0, ReadEvent.fetch)) (Guarded.intro (.fetch rfl rfl) halone)
  have hpublished := hfetched.snoc (e := (0, ReadEvent.publish)) (Guarded.intro (.publish rfl) True.intro)
  have hnone (j : ℕ) (hj : j ≠ 1) :
      (Function.update (Function.update (Function.update (fun _ => Reading.idle) 0 (.missed ⟨1, 0, 1⟩)) 0
        (.fetched ⟨1, 0, 1⟩)) 0 (.ready ⟨1, 0, 1⟩) j).isFetched = false := by
    by_cases hzero : j = 0
    · rw [hzero]
      rfl
    · rw [Function.update_of_ne hzero, Function.update_of_ne hzero, Function.update_of_ne hzero]
      rfl
  have htested := hpublished.snoc (e := (1, ReadEvent.test 2 1))
    (Guarded.intro (.hit rfl (by decide) (by decide) (by decide) (by decide)) (Or.inr (Or.inr hnone)))
  have hrun := (htested.snoc (e := (0, ReadEvent.copy)) (Guarded.intro (.copy rfl) True.intro)).snoc
    (e := (1, ReadEvent.copy)) (Guarded.intro (.copy rfl) True.intro)
  exact ⟨_, hrun, concurrentReads_run helloReader_sized helloReader_caches hrun, rfl⟩

/-- A refill between the publication and the copy of another read makes that read return bytes from
elsewhere: `e` for the `h` at offset 0. -/
theorem refill_under_copy :
    ¬ ∀ events s, Run (ReadRace.Step (ascii "hello")) (ReadRace.start helloReader) events s →
      s.Right (ascii "hello") := by
  intro h
  have hstart : Run (ReadRace.Step (ascii "hello")) (ReadRace.start helloReader) []
      (ReadRace.start helloReader) := Run.nil _
  have hrun := (((((hstart.snoc
    (e := (0, ReadEvent.test 1 0)) (.miss rfl (by decide) (by decide) (by decide))).snoc
    (e := (1, ReadEvent.test 1 1)) (.miss rfl (by decide) (by decide) (by decide))).snoc
    (e := (0, ReadEvent.fetch)) (.fetch rfl rfl)).snoc
    (e := (0, ReadEvent.publish)) (.publish rfl)).snoc
    (e := (1, ReadEvent.fetch)) (.fetch rfl rfl)).snoc
    (e := (0, ReadEvent.copy)) (.copy rfl)
  obtain ⟨result, hresult, -, hbuf, -⟩ := h _ _ hrun _ List.mem_cons_self
  have hread : result.buf = ascii "e" := by
    rw [← Option.some.inj hresult]
    rfl
  rw [hread] at hbuf
  exact absurd hbuf (by decide)

end Udtfs

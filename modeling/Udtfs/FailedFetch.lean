import Udtfs.Sessions

/-!
# Fetches that fail

`udtfs_read` looks at the result of sending the command, but not at those of `client_reqsegment` and
`client_recvsegment`: when one of these fails, the window is moved all the same and the read returns
whatever the cache memory holds. So a failed fetch is never reported, and what later reads return is
right exactly as long as there was none.
-/

namespace Udtfs

open NulString Content Transition

/-- What the connections do during a refill. -/
structure Fetch where
  /-- `send_cmd` sends the command. -/
  cmdSent : Bool
  /-- All sends of `client_reqsegment` succeed. -/
  requested : Bool
  /-- The bytes that `UDT::recv` delivers until it reports an error. -/
  arrived : Bytes
  deriving DecidableEq

/-- The fetch of so many bytes fails. -/
def Fetch.Fails (fetch : Fetch) (len : ℕ) : Prop :=
  fetch.cmdSent = false ∨ fetch.requested = false ∨ fetch.arrived.length < len

instance (fetch : Fetch) (len : ℕ) : Decidable (fetch.Fails len) :=
  inferInstanceAs (Decidable (_ ∨ _))

/-- `client_recvsegment` when an error may come before all bytes: the return value and the buffer. -/
def clientRecvsegmentUntil (arrived : Bytes) (len : ℕ) (buf : ℕ → UInt8) : ℤ × (ℕ → UInt8) :=
  match clientRecvsegment arrived len buf with
  | some (received, _) => (0, received)
  | none => (-1, fun i => if i < arrived.length then byteAt arrived i else buf i)

/-- The globals after a refill. -/
def Client.refillUntil (c : Client) (offset : ℤ) (fetch : Fetch) : Client :=
  { c with
    cache := (clientRecvsegmentUntil fetch.arrived c.fetchsize c.cache).2
    cacheOffset := offset
    cacheLen := c.fetchsize }

/-- `udtfs_read` when the connections may fail; `none` when it leaves the allocated cache. -/
def udtfsReadFetch (c : Client) (size : ℕ) (offset : ℤ) (fetch : Fetch) : Option ReadResult :=
  let actualsize := c.actualsize size offset
  if actualsize ≤ 0 then some ⟨0, 0, [], c⟩ else
  if c.needsRefill actualsize offset then
    if fetch.cmdSent then
      if c.fetchsize ≤ maxCacheSize then (c.refillUntil offset fetch).copyOut actualsize offset
      else none
    else some ⟨-eNoent, 0, [], c⟩
  else c.copyOut actualsize offset

/-- A fetch that does not fail is the read on connections that deliver all bytes. -/
theorem udtfsReadFetch_complete (c : Client) (beyond : Bytes) (size : ℕ) (offset : ℤ)
    {fetch : Fetch} (h : ¬ fetch.Fails c.fetchsize) :
    udtfsReadFetch c size offset fetch =
      udtfsRead c beyond size offset fun _ => some fetch.arrived := by
  simp only [Fetch.Fails, not_or, Bool.not_eq_false, Nat.not_lt] at h
  obtain ⟨hsent, -, hlen⟩ := h
  rw [udtfsReadFetch, udtfsRead, hsent]
  dsimp only
  split
  · rfl
  · split
    · rw [if_pos rfl, Option.bind_some, Client.refill]
      split
      · rw [Client.refillUntil, clientRecvsegmentUntil, clientRecvsegment, if_pos hlen]
        rfl
      · rfl
    · rfl

/-! ## Runs with failing connections -/

/-- The client with a record of where the bytes in its cache come from. -/
structure FetchState where
  client : Client
  /-- For each byte of the cache memory the name and the position for which the server sent it. No
  step depends on it. -/
  origin : ℕ → Option (Bytes × ℤ)
  /-- Every read whose fetch failed has returned a negative value. No step depends on it. -/
  reported : Bool

/-- The client before the first callback. -/
def FetchState.init (cache : ℕ → UInt8) : FetchState := ⟨Client.init cache, fun _ => none, true⟩

/-- A callback of the client, with what the connections do. -/
inductive FetchCall where
  | openFile (path : Bytes) (reply : TcpStream)
  | release (path : Bytes)
  | read (size : ℕ) (offset : ℤ) (fetch : Fetch)

section
variable (stale : ℕ → Bytes) (beyond : Bytes)

/-- The record after a read: the bytes that arrived were sent for their range of the open file if
the request was sent whole. -/
def FetchState.record (s : FetchState) (size : ℕ) (offset : ℤ) (fetch : Fetch) (i : ℕ) :
    Option (Bytes × ℤ) :=
  if s.client.Refills size offset ∧ fetch.cmdSent = true ∧
      i < min s.client.fetchsize fetch.arrived.length then
    if fetch.requested then some (s.client.openName beyond, offset + i) else none
  else s.origin i

/-- One callback. Reads come while a file is open. -/
inductive FetchStep : FetchState → FetchCall → FetchState → Prop
  | openFile (s : FetchState) (path : Bytes) (reply : TcpStream) :
      FetchStep s (.openFile path reply)
        { s with client := (udtfsOpen stale s.client path reply).2 }
  | release (s : FetchState) (path : Bytes) :
      FetchStep s (.release path) { s with client := udtfsRelease s.client path }
  | read {s : FetchState} {size : ℕ} {offset : ℤ} {fetch : Fetch} {r : ReadResult}
      (hopen : s.client.fileIsOpen = true) (hlow : 0 ≤ offset) (hlt : offset < 2 ^ 63)
      (hread : udtfsReadFetch s.client size offset fetch = some r) :
      FetchStep s (.read size offset fetch)
        ⟨r.client, s.record beyond size offset fetch,
          s.reported &&
            decide (s.client.Refills size offset ∧ fetch.Fails s.client.fetchsize → r.ret < 0)⟩

/-- Failed fetches have been reported, and a read that does not ask the server returns only bytes
that the server sent for exactly its range of the open file. -/
structure FetchState.Sound (s : FetchState) : Prop where
  reported : s.reported = true
  genuine : ∀ size offset fetch r, 0 ≤ offset → offset < 2 ^ 63 → ¬ s.client.Refills size offset →
    udtfsReadFetch s.client size offset fetch = some r → ∀ i, i < r.buf.length →
      s.origin (r.start.toNat + i) = some (s.client.openName beyond, offset + i)

/-- Once its command is sent, a refill gets its whole request and its whole answer through. -/
def FetchCall.Fetched (s : FetchState) : FetchCall → Prop
  | .read size offset fetch => s.client.Refills size offset → fetch.cmdSent = true →
    ¬ fetch.Fails s.client.fetchsize
  | .openFile _ _ | .release _ => True

/-! ## What a read can do -/

/-- A read refills and copies, or is refused the command, or is answered without the server. -/
theorem udtfsReadFetch_cases {c : Client} {size : ℕ} {offset : ℤ} {fetch : Fetch} {r : ReadResult}
    (h : udtfsReadFetch c size offset fetch = some r) :
    (c.Refills size offset ∧ fetch.cmdSent = true ∧ c.fetchsize ≤ maxCacheSize ∧
        (c.refillUntil offset fetch).copyOut (c.actualsize size offset) offset = some r) ∨
      (c.Refills size offset ∧ fetch.cmdSent = false ∧ r = ⟨-eNoent, 0, [], c⟩) ∨
      ¬ c.Refills size offset ∧ (r = ⟨0, 0, [], c⟩ ∨
        c.needsRefill (c.actualsize size offset) offset = false ∧
          c.copyOut (c.actualsize size offset) offset = some r) := by
  unfold udtfsReadFetch at h
  dsimp only at h
  split at h
  · next hzero =>
    refine Or.inr (Or.inr ⟨fun hrefills => ?_, Or.inl (Option.some.inj h).symm⟩)
    have hpos := hrefills.1
    omega
  · next hpos =>
    split at h
    · next hneeds =>
      have hrefills : c.Refills size offset := ⟨by omega, hneeds⟩
      split at h
      · next hsent =>
        split at h
        · next hfits => exact Or.inl ⟨hrefills, hsent, hfits, h⟩
        · contradiction
      · next hsent =>
        exact Or.inr (Or.inl ⟨hrefills, by simpa using hsent, (Option.some.inj h).symm⟩)
    · next hhit =>
      have hhit : c.needsRefill (c.actualsize size offset) offset = false := by simpa using hhit
      refine Or.inr (Or.inr ⟨fun hrefills => ?_, Or.inr ⟨hhit, h⟩⟩)
      rw [hrefills.2] at hhit
      contradiction

/-- A refill whose command was sent makes the read return a positive value, failed or not. -/
theorem udtfsReadFetch_pos {c : Client} {size : ℕ} {offset : ℤ} {fetch : Fetch} {r : ReadResult}
    (hrefills : c.Refills size offset) (hsent : fetch.cmdSent = true)
    (h : udtfsReadFetch c size offset fetch = some r) : 0 < r.ret := by
  rcases udtfsReadFetch_cases h with ⟨-, -, -, hcopy⟩ | ⟨-, hunsent, -⟩ | ⟨hnot, -⟩
  · have hmax : maxCacheSize = 33554432 := rfl
    have hpos := hrefills.1
    obtain ⟨hstart, hinside, rfl⟩ := copyOut_some hcopy
    dsimp only
    rw [toInt_of_range (by omega) (by omega)]
    omega
  · rw [hsent] at hunsent
    contradiction
  · exact absurd hrefills hnot

/-- A failed fetch moves the window like any other: the same read is then answered without the
server, from memory that was not filled. -/
theorem udtfsReadFetch_again {c : Client} {size : ℕ} {offset : ℤ} {fetch : Fetch} {r : ReadResult}
    (hlow : 0 ≤ offset) (hlt : offset < 2 ^ 63) (hinside : c.actualsize size offset ≤ c.fetchsize)
    (hrefills : c.Refills size offset) (hsent : fetch.cmdSent = true)
    (h : udtfsReadFetch c size offset fetch = some r) :
    ¬ r.client.Refills size offset ∧
      ∀ i, fetch.arrived.length ≤ i → i < c.fetchsize → r.client.cache i = c.cache i := by
  rcases udtfsReadFetch_cases h with ⟨-, -, hfits, hcopy⟩ | ⟨-, hunsent, -⟩ | ⟨hnot, -⟩
  · obtain ⟨-, -, rfl⟩ := copyOut_some hcopy
    constructor
    · rintro ⟨-, hneeds⟩
      dsimp only at hneeds
      have hsame : (c.refillUntil offset fetch).actualsize size offset = c.actualsize size offset :=
        rfl
      rw [hsame, needsRefill_iff_of_window hlow hlt hfits hlow hlt (by omega)] at hneeds
      have hoffset : (c.refillUntil offset fetch).cacheOffset = offset := rfl
      have hlen : (c.refillUntil offset fetch).cacheLen = c.fetchsize := rfl
      omega
    · intro i hi hlt
      show (clientRecvsegmentUntil fetch.arrived c.fetchsize c.cache).2 i = c.cache i
      rw [clientRecvsegmentUntil, clientRecvsegment, if_neg (by omega)]
      exact if_neg (by omega)
  · rw [hsent] at hunsent
    contradiction
  · exact absurd hrefills hnot

/-! ## The invariant -/

/-- So far every failed fetch has been reported, nothing is cached while no file is open, and every
byte of the window was sent for its position in the open file. -/
structure FetchState.Inv (s : FetchState) : Prop where
  reported : s.reported = true
  closed : s.client.fileIsOpen = false → s.client.cacheLen = 0
  offset_nonneg : 0 ≤ s.client.cacheOffset
  offset_lt : s.client.cacheOffset < 2 ^ 63
  len_le : s.client.cacheLen ≤ maxCacheSize
  window : ∀ i, i < s.client.cacheLen →
    s.origin i = some (s.client.openName beyond, s.client.cacheOffset + i)

/-- At the start nothing has failed and nothing is cached. -/
theorem FetchState.inv_init (cache : ℕ → UInt8) : (FetchState.init cache).Inv beyond where
  reported := rfl
  closed _ := rfl
  offset_nonneg := le_rfl
  offset_lt := (by decide : (0 : ℤ) < 2 ^ 63)
  len_le := Nat.zero_le _
  window i hi := absurd hi (Nat.not_lt_zero i)

/-- Then the state is sound: what the window answers lies inside it. -/
theorem FetchState.Inv.sound {s : FetchState} (h : s.Inv beyond) : s.Sound beyond := by
  refine ⟨h.reported, ?_⟩
  intro size offset fetch r hlow hlt hnot hread i hi
  rcases udtfsReadFetch_cases hread with ⟨hrefills, -⟩ | ⟨hrefills, -⟩ | ⟨-, rfl | ⟨hhit, hcopy⟩⟩
  · exact absurd hrefills hnot
  · exact absurd hrefills hnot
  · exact absurd hi (Nat.not_lt_zero i)
  · obtain ⟨hstart, hinside, rfl⟩ := copyOut_some hcopy
    rw [List.length_map, List.length_range] at hi
    have hcovered := needsRefill_iff_of_window h.offset_nonneg h.offset_lt h.len_le hlow hlt
      (n := s.client.actualsize size offset) (by omega)
    rw [hhit, Bool.false_eq_true, false_iff, not_or, not_lt, not_lt] at hcovered
    dsimp only
    rw [h.window _ (by omega)]
    congr 2
    omega

/-- While nothing is cached, only the return values so far matter. -/
theorem FetchState.Inv.of_empty {s : FetchState} {c : Client} (h : s.Inv beyond)
    (hoffset : c.cacheOffset = 0 ∨ c.cacheOffset = s.client.cacheOffset) (hlen : c.cacheLen = 0) :
    FetchState.Inv beyond { s with client := c } where
  reported := h.reported
  closed _ := hlen
  offset_nonneg := by
    rcases hoffset with hzero | hsame
    · exact hzero.ge
    · exact hsame ▸ h.offset_nonneg
  offset_lt := by
    rcases hoffset with hzero | hsame
    · exact hzero ▸ by decide
    · exact hsame ▸ h.offset_lt
  len_le := hlen ▸ Nat.zero_le _
  window i hi := by
    dsimp only at hi
    rw [hlen] at hi
    exact absurd hi (Nat.not_lt_zero i)

/-- An open leaves the cache as it is, and everything if a file is open. -/
theorem udtfsOpen_cache (c : Client) (path : Bytes) (reply : TcpStream) :
    (udtfsOpen stale c path reply).2.cacheOffset = c.cacheOffset ∧
      (udtfsOpen stale c path reply).2.cacheLen = c.cacheLen ∧
      (c.fileIsOpen = true → (udtfsOpen stale c path reply).2 = c) := by
  unfold udtfsOpen
  dsimp only
  split
  · exact ⟨rfl, rfl, fun _ => rfl⟩
  · next hclosed =>
    split
    · exact ⟨rfl, rfl, fun hopen => absurd hopen hclosed⟩
    · exact ⟨rfl, rfl, fun hopen => absurd hopen hclosed⟩

/-- A fetch that gets through puts bytes into the window that were sent for their positions. -/
theorem FetchState.Inv.refill {s : FetchState} (h : s.Inv beyond) {size : ℕ} {offset : ℤ}
    {fetch : Fetch} {r : ReadResult} (hopen : s.client.fileIsOpen = true) (hlow : 0 ≤ offset)
    (hlt : offset < 2 ^ 63) (hrefills : s.client.Refills size offset) (hsent : fetch.cmdSent = true)
    (hfits : s.client.fetchsize ≤ maxCacheSize) (hfetched : ¬ fetch.Fails s.client.fetchsize)
    (hclient : r.client = s.client.refillUntil offset fetch) :
    FetchState.Inv beyond ⟨r.client, s.record beyond size offset fetch,
      s.reported &&
        decide (s.client.Refills size offset ∧ fetch.Fails s.client.fetchsize → r.ret < 0)⟩ := by
  have hreported : s.client.Refills size offset ∧ fetch.Fails s.client.fetchsize → r.ret < 0 :=
    fun hfails => absurd hfails.2 hfetched
  rw [hclient, h.reported, decide_eq_true hreported]
  simp only [Fetch.Fails, not_or, Bool.not_eq_false, Nat.not_lt] at hfetched
  obtain ⟨-, hrequested, hlen⟩ := hfetched
  refine ⟨rfl, fun hclosed => ?_, hlow, hlt, hfits, fun i hi => ?_⟩
  · have hstill : s.client.fileIsOpen = false := hclosed
    rw [hopen] at hstill
    contradiction
  · have hi : i < s.client.fetchsize := hi
    dsimp only
    rw [FetchState.record, if_pos ⟨hrefills, hsent, by omega⟩, if_pos hrequested]
    rfl

/-- A callback whose fetch gets through keeps the invariant. A read that does not fill the cache leaves
the globals and the record as they are. -/
theorem FetchStep.inv {s s' : FetchState} {call : FetchCall}
    (h : FetchStep stale beyond s call s') (hinv : s.Inv beyond) (hcall : call.Fetched s) :
    s'.Inv beyond := by
  cases h with
  | openFile path reply =>
    obtain ⟨hoffset, hlen, hsame⟩ := udtfsOpen_cache stale s.client path reply
    cases hopen : s.client.fileIsOpen with
    | true =>
      rw [hsame hopen]
      exact hinv
    | false => exact hinv.of_empty beyond (Or.inr hoffset) (hlen.trans (hinv.closed hopen))
  | release path =>
    rw [udtfsRelease]
    split
    · split
      · exact hinv.of_empty beyond (Or.inl rfl) rfl
      · exact hinv
    · exact hinv
  | @read size offset fetch r hopen hlow hlt hread =>
    have hkept (hclient : r.client = s.client)
        (hunfetched : ¬ (s.client.Refills size offset ∧ fetch.cmdSent = true))
        (hret : s.client.Refills size offset → r.ret < 0) :
        FetchState.Inv beyond ⟨r.client, s.record beyond size offset fetch, s.reported &&
          decide (s.client.Refills size offset ∧ fetch.Fails s.client.fetchsize → r.ret < 0)⟩ := by
      have hrecord : s.record beyond size offset fetch = s.origin := by
        funext i
        exact if_neg fun hfetch => hunfetched ⟨hfetch.1, hfetch.2.1⟩
      rw [hrecord, hclient, hinv.reported, decide_eq_true fun hfails => hret hfails.1]
      exact ⟨rfl, hinv.closed, hinv.offset_nonneg, hinv.offset_lt, hinv.len_le, hinv.window⟩
    rcases udtfsReadFetch_cases hread with
      ⟨hrefills, hsent, hfits, hcopy⟩ | ⟨hrefills, hsent, rfl⟩ | ⟨hnot, rfl | ⟨-, hcopy⟩⟩
    · obtain ⟨-, -, rfl⟩ := copyOut_some hcopy
      exact hinv.refill beyond hopen hlow hlt hrefills hsent hfits (hcall hrefills hsent) rfl
    · exact hkept rfl (by simp [hsent]) fun _ => (by decide : -eNoent < 0)
    · exact hkept rfl (fun hboth => hnot hboth.1) fun hrefills => absurd hrefills hnot
    · obtain ⟨-, -, rfl⟩ := copyOut_some hcopy
      exact hkept rfl (fun hboth => hnot hboth.1) fun hrefills => absurd hrefills hnot

/-- A callback that leads to a sound state had no failed fetch behind a sent command. -/
theorem FetchStep.fetched {s s' : FetchState} {call : FetchCall}
    (h : FetchStep stale beyond s call s') (hsound : s'.Sound beyond) : call.Fetched s := by
  cases h with
  | openFile | release => trivial
  | @read size offset fetch r hopen hlow hlt hread =>
    intro hrefills hsent hfails
    have hpos := udtfsReadFetch_pos hrefills hsent hread
    have hreported := hsound.reported
    rw [Bool.and_eq_true, decide_eq_true_eq] at hreported
    have hneg := hreported.2 ⟨hrefills, hfails⟩
    omega

/-! ## Runs -/

/-- Along a run every failed fetch is reported, and no read is answered from bytes that were not
sent for its range, exactly if no fetch fails once its command is sent. -/
theorem fetchSound_run_iff (cache : ℕ → UInt8) (calls : List FetchCall) :
    (∀ before s, before <+: calls → Run (FetchStep stale beyond) (FetchState.init cache) before s →
        s.Sound beyond) ↔
      ∀ before call s s', before ++ [call] <+: calls →
        Run (FetchStep stale beyond) (FetchState.init cache) before s →
          FetchStep stale beyond s call s' → call.Fetched s := by
  apply forall_visited_iff_forall_taken (FetchState.Inv beyond)
  · exact FetchState.inv_init beyond cache
  · exact fun s hinv => hinv.sound beyond
  · exact fun s call s' hinv hstep hcall => hstep.inv stale beyond hinv hcall
  · exact fun s call s' _ hstep hsound => hstep.fetched stale beyond hsound

end

/-- A file of five bytes is opened and read, but the connection breaks before the first byte comes:
the read returns five bytes all the same. -/
theorem failed_fetch_served :
    ¬ ∀ calls s, Run (FetchStep (fun _ => []) []) (FetchState.init fun _ => 0) calls s →
      s.Sound [] := by
  intro h
  have hopened : FetchStep (fun _ => []) [] (FetchState.init fun _ => 0) _
      ⟨helloMount.client, fun _ => none, true⟩ :=
    FetchStep.openFile _ pathA.bytes ⟨sendattrReply (some ⟨5, 0, 0, 0, 0, 0, 0, 0⟩), .closed⟩
  have hstSize := helloMount_stSize
  have hranged : helloMount.client.Ranged 0 := ⟨le_rfl, by decide, by omega, by omega⟩
  have hactual : helloMount.client.actualsize 5 0 = 5 := by
    rw [actualsize_inside hranged (by omega), hstSize]
    decide
  have hfetchsize : helloMount.client.fetchsize = 5 := by
    rw [fetchsize_eq hranged, hstSize]
    decide
  have hneeds : helloMount.client.needsRefill 5 0 = true := by decide
  have hcopy := copyOut_eq (c := helloMount.client.refillUntil 0 ⟨true, true, []⟩) 0 (n := 5)
    (by decide) le_rfl (by decide)
  obtain ⟨r, hread⟩ : ∃ r, udtfsReadFetch helloMount.client 5 0 ⟨true, true, []⟩ = some r := by
    rw [udtfsReadFetch]
    dsimp only
    rw [hactual, if_neg (by decide), if_pos hneeds, if_pos rfl, hfetchsize, if_pos (by decide)]
    exact ⟨_, hcopy⟩
  have hstep : FetchStep (fun _ => []) [] ⟨helloMount.client, fun _ => none, true⟩
      (.read 5 0 ⟨true, true, []⟩) _ := FetchStep.read rfl le_rfl (by decide) hread
  have hsound := h _ _ (((Run.nil _).snoc hopened).snoc hstep)
  have hfetched := hstep.fetched _ _ hsound ⟨by rw [hactual]; decide, by rw [hactual]; exact hneeds⟩
    rfl
  exact hfetched (Or.inr (Or.inr (by rw [hfetchsize]; decide)))

end Udtfs

import Udtfs.Callbacks
import Udtfs.Listing

/-!
# What a callback consumes

The replies come on two streams, each received under the mutex of its connection. A callback takes
the reply to its own request to the last byte and nothing else, as long as the request can be
answered.
-/

namespace Udtfs

open NulString Content

/-! ## Receives -/

/-- The stream that a step receives from, named by the mutex of its connection. -/
def Action.stream : Action → Option Mutex
  | .recvStr _ _ _ | .direntry _ => some .tcp
  | .recvSegment _ | .segmentError => some .udt
  | .lock _ | .unlock _ | .send _ _ | .segmentDone => none

/-- What a successful receive leaves of a stream; `none` while too little has arrived, or when the
step does not report what is received. -/
def Action.rest (stale : ℕ → Bytes) (bytes : Bytes) : Action → Option Bytes
  | .recvStr maxlen ret string =>
    let r := Udtfs.recvStr ⟨bytes, .closed⟩ maxlen
    if 0 < r.ret ∧ ret = r.ret ∧ string = r.string (stale r.rest.bytes.length) then
      some r.rest.bytes
    else none
  | .direntry entry =>
    let r := Udtfs.recvStr ⟨bytes, .closed⟩ (mMaxPath + mMaxFile - 1)
    if 0 < r.ret ∧ entry = (clientRecvdirentry stale ⟨bytes, .closed⟩).1 then some r.rest.bytes
    else none
  | .recvSegment n => if 0 < n ∧ n ≤ bytes.length then some (bytes.drop n) else none
  | .lock _ | .unlock _ | .send _ _ | .segmentDone | .segmentError => none

/-- What a receive leaves is the end of the stream. -/
theorem Action.rest_suffix {stale : ℕ → Bytes} {bytes rest : Bytes} {a : Action}
    (h : a.rest stale bytes = some rest) : rest <:+ bytes := by
  cases a with
  | recvStr maxlen ret string =>
    obtain ⟨-, hrest⟩ := Option.ite_none_right_eq_some.mp h
    obtain rfl := Option.some.inj hrest
    exact ⟨_, recvStr_append ⟨bytes, .closed⟩ maxlen⟩
  | direntry entry =>
    obtain ⟨-, hrest⟩ := Option.ite_none_right_eq_some.mp h
    obtain rfl := Option.some.inj hrest
    exact ⟨_, recvStr_append ⟨bytes, .closed⟩ (mMaxPath + mMaxFile - 1)⟩
  | recvSegment n =>
    obtain ⟨-, hrest⟩ := Option.ite_none_right_eq_some.mp h
    obtain rfl := Option.some.inj hrest
    exact List.drop_suffix n bytes
  | lock | unlock | send | segmentDone | segmentError => contradiction

/-- From an empty stream nothing is received. -/
theorem Action.rest_nil (stale : ℕ → Bytes) (a : Action) : a.rest stale [] = none := by
  have hempty (maxlen : ℕ) : ¬ 0 < (Udtfs.recvStr ⟨[], .closed⟩ maxlen).ret := by
    cases maxlen with
    | zero => exact lt_irrefl _
    | succ maxlen => exact lt_irrefl _
  cases a with
  | recvStr maxlen ret string => simp only [rest, hempty, false_and, if_false]
  | direntry entry => simp only [rest, hempty, false_and, if_false]
  | recvSegment n =>
    rw [rest, if_neg]
    exact fun h => absurd (h.1.trans_le h.2) (lt_irrefl 0)
  | lock | unlock | send | segmentDone | segmentError => rfl

/-! ## Listings on the stream -/

section
variable (stale : ℕ → Bytes) (names : List EntryName) (later : Bytes)

/-- The first name of a listing is received with its terminator. -/
theorem recvStr_direntry (name : EntryName) :
    recvStr ⟨frames ((name :: names).map EntryName.bytes ++ [reservedStrTerm]) ++ later, .closed⟩
        (mMaxPath + mMaxFile - 1) =
      ⟨(name.bytes.length + 1 : ℕ), name.bytes ++ [0],
        ⟨frames (names.map EntryName.bytes ++ [reservedStrTerm]) ++ later, .closed⟩⟩ := by
  have hlen : name.bytes.length < mMaxPath + mMaxFile - 1 := name.short.trans_lt (by decide)
  rw [List.map_cons, List.cons_append, frames_cons, List.append_assoc, List.cons_append,
    recvStr_frame name.nulFree _ _ hlen]

/-- Without names the end marker is received. -/
theorem recvStr_end :
    recvStr ⟨frames ([].map EntryName.bytes ++ [reservedStrTerm]) ++ later, .closed⟩
        (mMaxPath + mMaxFile - 1) =
      ⟨(reservedStrTerm.length + 1 : ℕ), reservedStrTerm ++ [0], ⟨later, .closed⟩⟩ := by
  rw [List.map_nil, List.nil_append, frames_cons, frames_nil, List.append_assoc, List.cons_append,
    List.nil_append, recvStr_frame (show NulFree reservedStrTerm by decide) _ _ (by decide)]

/-- A name that does not look reserved is an entry. -/
theorem clientRecvdirentry_name {name : EntryName} (h : ¬ name.LooksReserved) :
    (clientRecvdirentry stale
      ⟨frames ((name :: names).map EntryName.bytes ++ [reservedStrTerm]) ++ later, .closed⟩).1 =
      some name.bytes := by
  have hlen : name.bytes.length < mMaxPath + mMaxFile - 1 := name.short.trans_lt (by decide)
  rw [List.map_cons, List.cons_append, frames_cons, List.append_assoc, List.cons_append,
    clientRecvdirentry_frame stale .closed name.nulFree hlen]
  exact if_neg h

/-- The end marker is none. -/
theorem clientRecvdirentry_end :
    (clientRecvdirentry stale
      ⟨frames ([].map EntryName.bytes ++ [reservedStrTerm]) ++ later, .closed⟩).1 = none := by
  rw [List.map_nil, List.nil_append, frames_cons, frames_nil, List.append_assoc, List.cons_append,
    List.nil_append,
    clientRecvdirentry_frame stale .closed (show NulFree reservedStrTerm by decide) (by decide)]
  rfl

end

/-! ## Programs that take a reply -/

/-- The program consumes exactly these bytes of the two streams. -/
def Prog.Takes (stale : ℕ → Bytes) : Prog → (Mutex → Bytes) → Prop
  | .ret _, reply => ∀ m, reply m = []
  | .lock _ next, reply | .unlock _ next, reply => next.Takes stale reply
  | .send _ next, reply => (next true).Takes stale reply
  | .recvStr maxlen next, reply =>
    let r := Udtfs.recvStr ⟨reply .tcp, .closed⟩ maxlen
    0 < r.ret ∧ (next r.ret (r.string (stale r.rest.bytes.length))).Takes stale
      (Function.update reply .tcp r.rest.bytes)
  | .recvDirentries next, reply =>
    ∃ (names : List EntryName) (rest : Bytes), (∀ name ∈ names, ¬ name.LooksReserved) ∧
      reply .tcp = frames (names.map EntryName.bytes ++ [reservedStrTerm]) ++ rest ∧
      next.Takes stale (Function.update reply .tcp rest)
  | .recvSegment remain next, reply =>
    remain ≤ (reply .udt).length ∧
      next.Takes stale (Function.update reply .udt ((reply .udt).drop remain))

section
variable {stale : ℕ → Bytes} {p q : Prog} {a : Action} {reply : Mutex → Bytes}

/-- A step that receives nothing leaves the reply to the rest of the program. -/
theorem Prog.Takes.quiet (h : p.Takes stale reply) (hstep : p.Step a q) (hok : a.Succeeds)
    (hquiet : a.stream = none) : q.Takes stale reply := by
  cases hstep with
  | lock | unlock => exact h
  | send s next ok =>
    obtain rfl : ok = true := hok
    exact h
  | segmentDone next =>
    have hsame : Function.update reply .udt ((reply .udt).drop 0) = reply :=
      Function.update_eq_self Mutex.udt reply
    rw [← hsame]
    exact h.2
  | recvStr | direntry | direntriesEnd | recvSegment | segmentError => contradiction

/-- A receive takes its part of the reply. -/
theorem Prog.Takes.receive (h : p.Takes stale reply) (hstep : p.Step a q) {m : Mutex}
    (hstream : a.stream = some m) {rest : Bytes} (hrest : a.rest stale (reply m) = some rest) :
    q.Takes stale (Function.update reply m rest) := by
  cases hstep with
  | recvStr maxlen next ret string =>
    obtain rfl := Option.some.inj hstream
    obtain ⟨⟨-, rfl, rfl⟩, hsome⟩ := Option.ite_none_right_eq_some.mp hrest
    exact Option.some.inj hsome ▸ h.2
  | direntry next entry =>
    obtain rfl := Option.some.inj hstream
    obtain ⟨⟨-, hentry⟩, hrest⟩ := Option.ite_none_right_eq_some.mp hrest
    obtain ⟨names, later, hnames, hreply, hnext⟩ := h
    cases names with
    | nil =>
      rw [hreply, clientRecvdirentry_end] at hentry
      contradiction
    | cons name names =>
      obtain ⟨hname, hnames⟩ := List.forall_mem_cons.mp hnames
      refine ⟨names, later, hnames, ?_, ?_⟩
      · rw [Function.update_self, ← Option.some.inj hrest, hreply, recvStr_direntry]
      · rwa [Function.update_idem]
  | direntriesEnd next =>
    obtain rfl := Option.some.inj hstream
    obtain ⟨⟨-, hentry⟩, hrest⟩ := Option.ite_none_right_eq_some.mp hrest
    obtain ⟨names, later, hnames, hreply, hnext⟩ := h
    cases names with
    | nil =>
      rw [hreply, recvStr_end] at hrest
      exact Option.some.inj hrest ▸ hnext
    | cons name names =>
      have hname := hnames name List.mem_cons_self
      rw [hreply, clientRecvdirentry_name stale names later hname] at hentry
      contradiction
  | recvSegment remain n next hpos hle =>
    obtain rfl := Option.some.inj hstream
    obtain ⟨-, hrest⟩ := Option.ite_none_right_eq_some.mp hrest
    obtain rfl := Option.some.inj hrest
    obtain ⟨hlen, hnext⟩ := h
    refine ⟨?_, ?_⟩
    · rw [Function.update_self, List.length_drop]
      omega
    · rw [Function.update_self, Function.update_idem, List.drop_drop, Nat.add_sub_cancel' hle]
      exact hnext
  | lock | unlock | send | segmentDone => contradiction
  | segmentError => contradiction

/-- A program that has sent everything takes nothing from a stream whose mutex it does not hold. -/
theorem Prog.WellLocked.takes {held : Mutex → Bool} (h : p.WellLocked held) (hsends : p.sends = [])
    (htakes : p.Takes stale reply) {m : Mutex} (hm : held m = false) : reply m = [] := by
  induction p generalizing held reply with
  | ret value => exact htakes m
  | lock m' next ih => exact absurd hsends h.2.2.1
  | unlock m' next ih =>
    apply ih h.2.2 h.2.1 htakes
    by_cases hm' : m = m'
    · rw [hm', Function.update_self]
    · rw [Function.update_of_ne hm', hm]
  | send s next ih => simp [Prog.sends] at hsends
  | recvStr maxlen next ih =>
    obtain ⟨htcp, hnext⟩ := h
    have hm' : m ≠ .tcp := by
      rintro rfl
      rw [htcp] at hm
      contradiction
    have hrest := ih _ _ (hnext _ _).2 (hnext _ _).1 htakes.2 hm
    rwa [Function.update_of_ne hm'] at hrest
  | recvDirentries next ih =>
    obtain ⟨htcp, hnone, hnext⟩ := h
    obtain ⟨names, rest, -, -, htakes⟩ := htakes
    have hm' : m ≠ .tcp := by
      rintro rfl
      rw [htcp] at hm
      contradiction
    have hrest := ih hnext hnone htakes hm
    rwa [Function.update_of_ne hm'] at hrest
  | recvSegment remain next ih =>
    obtain ⟨hudt, hnone, hnext⟩ := h
    have hm' : m ≠ .udt := by
      rintro rfl
      rw [hudt] at hm
      contradiction
    have hrest := ih hnext hnone htakes.2 hm
    rwa [Function.update_of_ne hm'] at hrest

/-- The program is at a receive that needs bytes. -/
def Prog.Waits : Prog → Prop
  | .recvStr _ _ | .recvDirentries _ => True
  | .recvSegment remain _ => remain ≠ 0
  | .ret _ | .lock _ _ | .unlock _ _ | .send _ _ => False

/-- A reply that the program takes is received without waiting. -/
theorem Prog.Takes.ready (h : p.Takes stale reply) (hp : p.Waits) :
    ∃ a q m rest, p.Step a q ∧ a.Succeeds ∧ a.stream = some m ∧
      a.rest stale (reply m) = some rest := by
  cases p with
  | recvStr maxlen next =>
    exact ⟨_, _, .tcp, _, .recvStr maxlen next _ _, trivial, rfl, if_pos ⟨h.1, rfl, rfl⟩⟩
  | recvDirentries next =>
    obtain ⟨names, later, hnames, hreply, -⟩ := h
    cases names with
    | nil =>
      refine ⟨_, _, .tcp, later, .direntriesEnd next, trivial, rfl, ?_⟩
      rw [Action.rest, hreply, clientRecvdirentry_end, recvStr_end]
      rfl
    | cons name names =>
      refine ⟨_, _, .tcp, frames (names.map EntryName.bytes ++ [reservedStrTerm]) ++ later,
        .direntry next name.bytes, trivial, rfl, ?_⟩
      rw [Action.rest, hreply, recvStr_direntry,
        clientRecvdirentry_name stale names later (hnames name List.mem_cons_self)]
      exact if_pos ⟨by dsimp only; omega, rfl⟩
  | recvSegment remain next =>
    have hpos : 0 < remain := Nat.pos_of_ne_zero hp
    exact ⟨_, _, .udt, _, .recvSegment remain remain next hpos le_rfl, trivial, rfl,
      if_pos ⟨hpos, h.1⟩⟩
  | ret | lock | unlock | send => exact hp.elim

/-! ## Replies that the callbacks take -/

/-- Sends take nothing. -/
theorem Prog.takes_sendAll {strings : List Bytes} (h : p.Takes stale reply) :
    (Prog.sendAll strings p).Takes stale reply := by
  induction strings with
  | nil => exact h
  | cons s strings ih => exact ih

/-- Printed values are taken by as many receives. -/
theorem Prog.takes_recvValues (values : List ℤ) (rest : Bytes)
    (htcp : reply .tcp = frames (values.map printLu) ++ rest)
    (h : p.Takes stale (Function.update reply .tcp rest)) :
    (Prog.recvValues values.length p).Takes stale reply := by
  induction values generalizing reply with
  | nil =>
    have hsame : Function.update reply .tcp rest = reply := by
      rw [show rest = reply .tcp from htcp.symm, Function.update_eq_self]
    rwa [hsame] at h
  | cons x values ih =>
    have hrecv : Udtfs.recvStr ⟨reply .tcp, .closed⟩ (mMaxVal - 1) =
        ⟨((printLu x).length + 1 : ℕ), printLu x ++ [0],
          ⟨frames (values.map printLu) ++ rest, .closed⟩⟩ := by
      rw [htcp, List.map_cons, frames_cons, List.append_assoc, List.cons_append,
        recvStr_frame (printLu_nulFree x) _ _ (printLu_short x)]
    refine ⟨?_, ?_⟩
    · rw [hrecv]
      dsimp only
      omega
    · apply ih
      · rw [Function.update_self, hrecv]
      · rwa [Function.update_idem]

end

/-- What the server sends on the two connections. -/
def Answer.reply (answer : Answer) : Mutex → Bytes
  | .tcp => answer.tcp
  | .udt => answer.udt

/-- The server can answer the request in full: a requested file can be opened, and no listed name
looks like the end marker. -/
def ServerFs.Serves (fs : ServerFs) : Request → Prop
  | .dir path => ∀ entries, fs.opendir (pathToLocal path) = some entries →
      ∃ names : List EntryName, entries = names.map EntryName.bytes ∧
        ∀ name ∈ listed names, ¬ name.LooksReserved
  | .read filename _ _ => ∃ content, fs.fopenRead filename = some content
  | _ => True

section
variable (stale : ℕ → Bytes) (shell : Bytes → ServerFs → ServerFs) {fs : ServerFs} {r : Request}

/-- A request that waits for a reply is answered. -/
theorem ServerFs.Serves.act (h : fs.Serves r) (hguarded : r.guarded = true) :
    ∃ answer, fs.act shell r = some answer := by
  cases r with
  | dir path | getattr path => exact ⟨_, rfl⟩
  | read filename offset len =>
    obtain ⟨content, hcontent⟩ := h
    exact ⟨_, by rw [ServerFs.act, hcontent]; rfl⟩
  | truncate | write | rename | unlink | utime => contradiction

/-- After the whole reply on the TCP stream nothing is left to take. -/
theorem Prog.takes_unlock_ret {reply : Mutex → Bytes} (value : ℤ) (hudt : reply .udt = []) :
    (Prog.unlock .tcp (.ret value)).Takes stale (Function.update reply .tcp []) := by
  intro m
  cases m with
  | tcp => rfl
  | udt => exact hudt

/-- `udtfs_readdir` takes a listing. -/
theorem Prog.takes_udtfsReaddir (path : Bytes) (names : List EntryName) {reply : Mutex → Bytes}
    (hnames : ∀ name ∈ names, ¬ name.LooksReserved)
    (htcp : reply .tcp = frames (names.map EntryName.bytes ++ [reservedStrTerm]))
    (hudt : reply .udt = []) : (Prog.udtfsReaddir path).Takes stale reply :=
  ⟨names, [], hnames, by rw [htcp, List.append_nil], takes_unlock_ret stale 0 hudt⟩

/-- `udtfs_getattr` takes the attributes, or the end marker in their place. -/
theorem Prog.takes_udtfsGetattr (path : Bytes) {reply : Mutex → Bytes} {st : Option Stat}
    (htcp : reply .tcp = sendattrReply st) (hudt : reply .udt = []) :
    (Prog.udtfsGetattr path).Takes stale reply := by
  cases st with
  | none =>
    have hterm : NulFree reservedStrTerm := by decide
    have hrecv : Udtfs.recvStr ⟨reply .tcp, .closed⟩ (mMaxVal - 1) =
        ⟨(reservedStrTerm.length + 1 : ℕ), reservedStrTerm ++ [0], ⟨[], .closed⟩⟩ := by
      rw [htcp, sendattrReply, frames_cons, frames_nil, recvStr_frame hterm _ _ (by decide)]
    have hself : strncasecmp reservedStrTerm reservedStrTerm reservedStrTerm.length = true := by
      decide
    refine ⟨?_, ?_⟩
    · rw [hrecv]
      dsimp only
      omega
    · simp only [hrecv, string_frame hterm, hself, if_true]
      exact takes_unlock_ret stale _ hudt
  | some st =>
    have hrecv : Udtfs.recvStr ⟨reply .tcp, .closed⟩ (mMaxVal - 1) =
        ⟨((printLu st.stSize).length + 1 : ℕ), printLu st.stSize ++ [0],
          ⟨frames (st.values.tail.map printLu), .closed⟩⟩ := by
      rw [htcp, sendattrReply, Stat.values, List.map_cons, frames_cons,
        recvStr_frame (printLu_nulFree _) _ _ (printLu_short _)]
      rfl
    refine ⟨?_, ?_⟩
    · rw [hrecv]
      dsimp only
      omega
    · simp only [hrecv, string_frame (printLu_nulFree _), strncasecmp_printLu, Bool.false_eq_true,
        if_false]
      apply takes_recvValues st.values.tail []
      · rw [Function.update_self, List.append_nil]
      · rw [Function.update_idem]
        exact takes_unlock_ret stale _ hudt

/-- The refill of `udtfs_read` takes a segment. -/
theorem Prog.takes_udtfsReadRefill (fileName : Bytes) (offset : ℤ) {fetchsize : ℕ}
    {reply : Mutex → Bytes} (htcp : reply .tcp = []) (hudt : (reply .udt).length = fetchsize) :
    (Prog.udtfsReadRefill fileName offset fetchsize).Takes stale reply := by
  apply takes_sendAll
  refine ⟨hudt.ge, ?_⟩
  intro m
  cases m with
  | tcp => exact htcp
  | udt =>
    rw [Function.update_self]
    exact List.drop_eq_nil_of_le hudt.le

/-- A callback takes exactly the answer to its own request. -/
theorem Request.takes_callback (hcarried : r.Carried) (hguarded : r.guarded = true)
    (hserves : fs.Serves r) {answer : Answer} (hact : fs.act shell r = some answer) :
    r.callback.Takes stale answer.reply := by
  cases r with
  | dir path =>
    obtain rfl := Option.some.inj hact
    cases hentries : fs.opendir (pathToLocal path) with
    | none => exact Prog.takes_udtfsReaddir stale path [] nofun rfl rfl
    | some entries =>
      obtain ⟨names, rfl, hnames⟩ := hserves entries hentries
      exact Prog.takes_udtfsReaddir stale path _ hnames (senddirReply_some names) rfl
  | getattr path =>
    obtain rfl := Option.some.inj hact
    exact Prog.takes_udtfsGetattr stale path rfl rfl
  | read filename offset len =>
    obtain ⟨content, -, hanswer⟩ := Option.map_eq_some_iff.mp hact
    obtain ⟨-, -, hlen⟩ := hcarried
    have htcp : answer.tcp = [] := by rw [← hanswer]
    have hudt : answer.udt = sendsegmentReply content offset len := by rw [← hanswer]
    have hlength : answer.udt.length = len := by
      rw [hudt, sendsegmentReply_length content offset hlen]
    exact Prog.takes_udtfsReadRefill stale filename offset htcp hlength
  | truncate | write | rename | unlink | utime => contradiction

end

end Udtfs

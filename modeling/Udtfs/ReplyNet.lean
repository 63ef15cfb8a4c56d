import Udtfs.Consumption
import Udtfs.Mixing

/-!
# Client threads and server

The threads of the client run the callbacks that wait for a reply, the server decodes the TCP
stream and answers on both connections, and no receive fails. Between the two, requests queue up at
the server and reply bytes queue up at the client. The server's files may change between two
requests, as long as each request can be answered.

What a callback has received, and the number of its request among all requests, are recorded beside
the state; no step depends on them.
-/

namespace Udtfs

open NulString Transition

/-- What is recorded of a call. -/
structure Call where
  /-- The number of its request, once that is sent. -/
  number : Option ℕ
  /-- The bytes received so far, by the mutex of the connection. -/
  got : Mutex → Bytes

/-- The client, the server and the two connections. -/
structure Net where
  traffic : Traffic
  /-- The sent bytes that the server has not decoded yet. -/
  inbox : Bytes
  /-- The reply bytes that no callback has received yet, by the mutex of the connection. -/
  out : Mutex → Bytes
  /-- The decoded requests, each with its reply. -/
  served : List (Request × (Mutex → Bytes))
  /-- The last call of each thread. -/
  calls : ℕ → Call
  /-- The calls that have returned, each with its request. -/
  finished : List (Request × Call)

/-- Nothing has happened yet. -/
def Net.idle : Net := ⟨.idle, [], fun _ => [], [], fun _ => ⟨none, fun _ => []⟩, []⟩

/-- A step of a thread or a pass through the server's command loop. -/
inductive Label where
  | thread (i : ℕ) (e : Event)
  | server

/-- The stream that an event receives from. -/
def Event.stream : Event → Option Mutex
  | .act a => a.stream
  | .start _ | .finish _ => none

/-- The record of a call after an event that receives nothing; the event completes the given
requests, and so many were complete before. -/
def Event.call (count : ℕ) (issued : List (ℕ × Request)) (c : Call) : Event → Call
  | .start _ => ⟨none, fun _ => []⟩
  | .act _ => if issued = [] then c else { c with number := some count }
  | .finish _ => c

/-- The record of a call after it has received bytes. -/
def Call.receive (c : Call) (m : Mutex) (taken : Bytes) : Call :=
  { c with got := Function.update c.got m (c.got m ++ taken) }

/-- The call that an event ends. -/
def Net.returned (s : Net) (i : ℕ) : Event → List (Request × Call)
  | .finish _ =>
    match s.traffic.threads.running i with
    | some c => [(c.request, s.calls i)]
    | none => []
  | .start _ | .act _ => []

section
variable (files : ℕ → ServerFs) (stale : ℕ → Bytes) (shell : Bytes → ServerFs → ServerFs)

/-- The request waits for a reply and can be answered whenever the server gets to it. -/
def Servable (r : Request) : Prop := r.guarded = true ∧ ∀ k, (files k).Serves r

/-- A step of the system. `files k` are the server's files when it answers the request of number
`k`. -/
inductive Net.Step : Net → Label → Net → Prop
  | quiet {s : Net} {i : ℕ} {e : Event} {traffic : Traffic}
      (hstep : Traffic.Step s.traffic (i, e) traffic) (hquiet : e.stream = none)
      (hstart : ∀ r, e = .start r → Servable files r) :
      Step s (.thread i e)
        { traffic
          inbox := s.inbox ++ frames e.sent
          out := s.out
          served := s.served
          calls := Function.update s.calls i
            (e.call s.traffic.issued.length (e.issued traffic.threads i) (s.calls i))
          finished := s.finished ++ s.returned i e }
  | receive {s : Net} {i : ℕ} {a : Action} {m : Mutex} {rest : Bytes} {traffic : Traffic}
      (hstep : Traffic.Step s.traffic (i, .act a) traffic) (hstream : a.stream = some m)
      (hrest : a.rest stale (s.out m) = some rest) :
      Step s (.thread i (.act a))
        { traffic
          inbox := s.inbox
          out := Function.update s.out m rest
          served := s.served
          calls := Function.update s.calls i
            ((s.calls i).receive m ((s.out m).take ((s.out m).length - rest.length)))
          finished := s.finished }
  | serve {s : Net} {r : Request} {rest : TcpStream} {answer : Answer}
      (hpass : handleCommand stale ⟨s.inbox, .closed⟩ = some (.handled r, rest))
      (hanswer : (files s.served.length).act shell r = some answer) :
      Step s .server
        { s with
          inbox := rest.bytes
          out := fun m => s.out m ++ answer.reply m
          served := s.served ++ [(r, answer.reply)] }

/-! ## Invariant -/

/-- A reply that the server gives to a request at some time. -/
def Answers (r : Request) (reply : Mutex → Bytes) : Prop :=
  ∃ k answer, (files k).act shell r = some answer ∧ reply = answer.reply

/-- The reply to the request of a thread, once the server has served it. -/
def Net.reply (s : Net) (i : ℕ) : Option (Mutex → Bytes) :=
  (s.calls i).number.bind fun k => s.served[k]?.map Prod.snd

/-- The part of the streams that a thread may receive from. -/
def Net.left (s : Net) (i : ℕ) (m : Mutex) : Bytes :=
  if s.traffic.threads.holds i m then s.out m else []

/-- Before the reply a callback has received nothing and nothing lies ready for it, but it takes
whatever the server will answer. From then on what it has received and what lies ready are the
reply. -/
def Owed (c : Running) (got left : Mutex → Bytes) : Option (Mutex → Bytes) → Prop
  | none => got = (fun _ => []) ∧ left = (fun _ => []) ∧
      ∀ reply, Answers files shell c.request reply → c.prog.Takes stale reply
  | some reply => (∀ m, reply m = got m ++ left m) ∧ c.prog.Takes stale left

/-- The record of a running call fits its request and its reply. -/
structure Net.Matched (s : Net) (i : ℕ) (c : Running) : Prop where
  unsent : (s.calls i).number = none ↔ c.prog.sends ≠ []
  numbered : ∀ k, (s.calls i).number = some k → s.traffic.issued[k]? = some (i, c.request)
  owed : Owed files stale shell c (s.calls i).got (s.left i) (s.reply i)

/-- The requests are decoded in the order of their numbers, reply bytes belong to the holder of
their connection's mutex, and every request that is not served yet has its callback waiting, or
needs no reply. -/
structure Net.Inv (s : Net) : Prop where
  traffic : s.traffic.Inv
  running : ∀ i c, s.traffic.threads.running i = some c → Servable files c.request
  issued : ∀ x ∈ s.traffic.issued, Servable files x.2
  inbox : s.traffic.wire = (s.served.map Prod.fst).flatMap Request.wire ++ s.inbox
  served : s.served.map Prod.fst <+: s.traffic.issued.map Prod.snd
  answered : ∀ x ∈ s.served, Answers files shell x.1 x.2
  free : ∀ m, s.traffic.threads.holder m = none → s.out m = []
  matched : ∀ i c, s.traffic.threads.running i = some c → s.Matched files stale shell i c
  owner : ∀ k i r, s.traffic.issued[k]? = some (i, r) → s.served.length ≤ k →
    (∃ c, s.traffic.threads.running i = some c ∧ (s.calls i).number = some k) ∨
      ∀ reply, Answers files shell r reply → reply = fun _ => []
  finished : ∀ d ∈ s.finished, ∃ k i, d.2.number = some k ∧ s.traffic.issued[k]? = some (i, d.1) ∧
    (s.served[k]? = some (d.1, d.2.got) ∨ s.served.length ≤ k ∧ d.2.got = (fun _ => []) ∧
      ∀ reply, Answers files shell d.1 reply → reply = fun _ => [])

/-- Before anything is sent, nothing is owed. -/
theorem Net.inv_idle : Net.idle.Inv files stale shell where
  traffic := Traffic.inv_idle
  running := nofun
  issued := nofun
  inbox := rfl
  served := List.nil_prefix
  answered := nofun
  free := fun _ _ => rfl
  matched := nofun
  owner := nofun
  finished := nofun

variable {files stale shell} {s : Net}

/-- What a guarded callback does is undisturbed. -/
theorem Net.Inv.undisturbed (h : s.Inv files stale shell) {i : ℕ} {e : Event} {t : Threads}
    (hstep : Threads.Step s.traffic.threads (i, e) t)
    (hstart : ∀ r, e = .start r → Servable files r) :
    s.traffic.Undisturbed (i, e) := by
  have hguarded : ∀ j c, s.traffic.threads.running j = some c →
      s.traffic.threads.guarded j = true := by
    intro j c hrun
    rw [Threads.guarded, hrun]
    exact (h.running j c hrun).1
  cases hstep with
  | @start _ r hidle =>
    obtain ⟨hr, -⟩ := hstart r rfl
    cases r with
    | dir | getattr | read => rfl
    | truncate | write | rename | unlink | utime => contradiction
  | @act _ r p q a hrun hact hfree =>
    cases a with
    | send str ok =>
      intro j hj hpending
      refine ⟨hguarded i _ hrun, ?_⟩
      cases hrunj : s.traffic.threads.running j with
      | none => simp [Threads.pending, hrunj] at hpending
      | some c => exact hguarded j c hrunj
    | _ => trivial
  | finish hrun => trivial

/-! ## Steps of a thread -/

/-- A running callback is disciplined. -/
theorem Net.Inv.wellLocked (h : s.Inv files stale shell) {i : ℕ} {c : Running}
    (hrun : s.traffic.threads.running i = some c) :
    c.prog.WellLocked (s.traffic.threads.holds i) :=
  ((h.traffic.threads.disciplined i c hrun).guarded (h.running i c hrun).1).1

/-- A step of a thread keeps the requests on the stream in order. -/
theorem Net.Inv.traffic_step (h : s.Inv files stale shell) {i : ℕ} {e : Event} {traffic : Traffic}
    (hstep : Traffic.Step s.traffic (i, e) traffic)
    (hstart : ∀ r, e = .start r → Servable files r) : traffic.Inv :=
  h.traffic.step (.intro hstep (h.undisturbed hstep.threads.1 hstart))

/-- When a callback unlocks, nothing lies ready for it on that connection any more. -/
theorem Net.Inv.out_of_unlock (h : s.Inv files stale shell) {i : ℕ} {r : Request} {p q : Prog}
    {m : Mutex} (hrun : s.traffic.threads.running i = some ⟨r, p⟩) (hstep : p.Step (.unlock m) q) :
    s.out m = [] := by
  have hlocked := h.wellLocked hrun
  obtain ⟨hheld, hsends⟩ := hlocked.permitted hstep
  have hleft : s.left i m = s.out m := if_pos hheld
  rw [← hleft]
  have howed := (h.matched i _ hrun).owed
  cases hreply : s.reply i with
  | none =>
    rw [hreply] at howed
    exact congrFun howed.2.1 m
  | some reply =>
    rw [hreply] at howed
    have htakes : q.Takes stale (s.left i) := howed.2.quiet hstep trivial rfl
    have hsends' : q.sends = [] := (hlocked.sends hstep trivial).symm.trans hsends
    exact (hlocked.step hstep).takes hsends' htakes (by rw [Action.held, Function.update_self])

/-- A step that receives nothing leaves what lies ready for its callback. -/
theorem Net.Inv.left_act (h : s.Inv files stale shell) {i : ℕ} {r : Request} {p q : Prog}
    {a : Action} (hrun : s.traffic.threads.running i = some ⟨r, p⟩) (hstep : p.Step a q)
    (hfree : ∀ m, a = .lock m → s.traffic.threads.holder m = none) (hquiet : a.stream = none)
    (m : Mutex) :
    (if a.held (s.traffic.threads.holds i) m then s.out m else []) = s.left i m := by
  cases a with
  | lock m' =>
    by_cases hm : m = m'
    · subst hm
      have hout : s.out m = [] := h.free m (hfree m rfl)
      rw [Net.left, hout, ite_self, ite_self]
    · rw [Action.held, Function.update_of_ne hm, Net.left]
  | unlock m' =>
    by_cases hm : m = m'
    · subst hm
      have hout : s.out m = [] := h.out_of_unlock hrun hstep
      rw [Net.left, hout, ite_self, ite_self]
    · rw [Action.held, Function.update_of_ne hm, Net.left]
  | send | segmentDone => rfl
  | recvStr | direntry | recvSegment | segmentError => contradiction

/-- The record of a call that a step does not touch still fits. -/
theorem Net.Matched.of_same {t : Net} {j : ℕ} {c : Running} (h : s.Matched files stale shell j c)
    (hcall : t.calls j = s.calls j) (hissued : s.traffic.issued <+: t.traffic.issued)
    (hreply : t.reply j = s.reply j) (hleft : t.left j = s.left j) :
    t.Matched files stale shell j c where
  unsent := by
    rw [hcall]
    exact h.unsent
  numbered := by
    intro k hk
    rw [hcall] at hk
    obtain ⟨later, hlater⟩ := hissued
    have hold := h.numbered k hk
    rw [← hlater, List.getElem?_append_left (List.getElem?_eq_some_iff.mp hold).1, hold]
  owed := by
    rw [hcall, hreply, hleft]
    exact h.owed

/-- A callback that starts has nothing recorded, and takes whatever it will be answered. -/
theorem Net.Inv.matched_start (h : s.Inv files stale shell) {t : Net} {i : ℕ} {r : Request}
    (hidle : s.traffic.threads.running i = none)
    (hholds : t.traffic.threads.holds i = s.traffic.threads.holds i)
    (hcarried : r.Carried) (hservable : Servable files r)
    (hcall : t.calls i = ⟨none, fun _ => []⟩) :
    t.Matched files stale shell i ⟨r, r.callback⟩ where
  unsent := by
    rw [hcall, r.sends_callback, Request.strings, sendCmd_name]
    simp
  numbered := by
    simp [hcall]
  owed := by
    rw [Net.reply, hcall]
    refine ⟨rfl, ?_, ?_⟩
    · funext m
      rw [Net.left, hholds, h.traffic.threads.idle i hidle]
      rfl
    · intro reply hreply
      obtain ⟨k, answer, hact, rfl⟩ := hreply
      exact r.takes_callback stale shell hcarried hservable.1 (hservable.2 k) hact

/-- A step either completes the request of its callback or neither begins nor ends its sends. -/
theorem Event.issued_act {after : Threads} {i : ℕ} {r : Request} {p q : Prog} {a : Action}
    (hrun : after.running i = some ⟨r, q⟩) (hsends : p.sends = a.sent ++ q.sends)
    (hok : a.Succeeds) :
    Event.issued after i (.act a) = [] ∧ (p.sends = [] ↔ q.sends = []) ∨
      Event.issued after i (.act a) = [(i, r)] ∧ p.sends ≠ [] ∧ q.sends = [] := by
  cases a with
  | send str ok =>
    obtain rfl : ok = true := hok
    have hne : p.sends ≠ [] := by
      rw [hsends]
      exact List.cons_ne_nil _ _
    by_cases hlast : q.sends = []
    · exact .inr ⟨by rw [issued, hrun]; exact if_pos hlast, hne, hlast⟩
    · exact .inl ⟨by rw [issued, hrun]; exact if_neg hlast, iff_of_false hne hlast⟩
  | _ => exact .inl ⟨rfl, by rw [hsends]; rfl⟩

/-- No request is served before it is issued. -/
theorem Net.Inv.served_length (h : s.Inv files stale shell) :
    s.served.length ≤ s.traffic.issued.length := by
  simpa using h.served.length_le

/-- A step that receives nothing keeps the record of its call in order. -/
theorem Net.Inv.matched_act (h : s.Inv files stale shell) {t : Net} {i : ℕ} {r : Request}
    {p q : Prog} {a : Action} (hrun : s.traffic.threads.running i = some ⟨r, p⟩)
    (hrun' : t.traffic.threads.running i = some ⟨r, q⟩) (hstep : p.Step a q) (hok : a.Succeeds)
    (hissued : t.traffic.issued = s.traffic.issued ++ Event.issued t.traffic.threads i (.act a))
    (hserved : t.served = s.served) (hquiet : a.stream = none) (hleft : t.left i = s.left i)
    (hcall : t.calls i = Event.call s.traffic.issued.length
      (Event.issued t.traffic.threads i (.act a)) (s.calls i) (.act a)) :
    t.Matched files stale shell i ⟨r, q⟩ := by
  have hmatched := h.matched i _ hrun
  have hsends : p.sends = a.sent ++ q.sends := (h.wellLocked hrun).sends hstep hok
  cases Event.issued_act hrun' hsends hok with
  | inl hnone =>
    obtain ⟨hnone, hiff⟩ := hnone
    have hsame : t.calls i = s.calls i := by rw [hcall, hnone]; rfl
    refine ⟨?_, ?_, ?_⟩
    · rw [hsame, hmatched.unsent]
      exact not_congr hiff
    · rw [hissued, hnone, List.append_nil, hsame]
      exact hmatched.numbered
    · have howed := hmatched.owed
      have hreply : t.reply i = s.reply i := by rw [Net.reply, hsame, hserved, Net.reply]
      rw [hsame, hleft, hreply]
      cases hcase : s.reply i with
      | none =>
        rw [hcase] at howed
        exact ⟨howed.1, howed.2.1, fun reply hans => (howed.2.2 reply hans).quiet hstep hok hquiet⟩
      | some reply =>
        rw [hcase] at howed
        exact ⟨howed.1, howed.2.quiet hstep hok hquiet⟩
  | inr hone =>
    obtain ⟨hone, hne, hlast⟩ := hone
    have hunsent : (s.calls i).number = none := hmatched.unsent.mpr hne
    have hnumber : (t.calls i).number = some s.traffic.issued.length := by
      rw [hcall, hone]
      rfl
    have hgot : (t.calls i).got = (s.calls i).got := by
      rw [hcall, hone]
      rfl
    refine ⟨?_, ?_, ?_⟩
    · rw [hnumber]
      exact iff_of_false nofun (not_not.mpr hlast)
    · intro k hk
      obtain rfl := Option.some.inj (hnumber.symm.trans hk)
      rw [hissued, hone, List.getElem?_concat_length]
    · have hbefore : s.reply i = none := by rw [Net.reply, hunsent]; rfl
      have hafter : t.reply i = none := by
        rw [Net.reply, hnumber, Option.bind_some, hserved,
          List.getElem?_eq_none h.served_length]
        rfl
      have howed := hmatched.owed
      rw [hbefore] at howed
      rw [hafter, hgot, hleft]
      exact ⟨howed.1, howed.2.1, fun reply hans => (howed.2.2 reply hans).quiet hstep hok hquiet⟩

/-- A receive takes its part of the reply to its own callback. -/
theorem Net.Inv.matched_receive (h : s.Inv files stale shell) {t : Net} {i : ℕ} {r : Request}
    {p q : Prog} {a : Action} {m : Mutex} {rest : Bytes}
    (hrun : s.traffic.threads.running i = some ⟨r, p⟩) (hstep : p.Step a q)
    (hok : a.Succeeds) (hissued : t.traffic.issued = s.traffic.issued)
    (hserved : t.served = s.served) (hstream : a.stream = some m)
    (hrest : a.rest stale (s.out m) = some rest)
    (hholds : t.traffic.threads.holds i = s.traffic.threads.holds i)
    (hout : t.out = Function.update s.out m rest)
    (hcall : t.calls i =
      (s.calls i).receive m ((s.out m).take ((s.out m).length - rest.length))) :
    t.Matched files stale shell i ⟨r, q⟩ := by
  have hmatched := h.matched i _ hrun
  have hlocked := h.wellLocked hrun
  have hsends : p.sends = a.sent ++ q.sends := hlocked.sends hstep hok
  have hheld : s.traffic.threads.holds i m = true ∧ p.sends = [] ∧ a.sent = [] := by
    have hpermitted := hlocked.permitted hstep
    cases a with
    | recvStr | direntry | recvSegment | segmentError =>
      obtain rfl := Option.some.inj hstream
      exact ⟨hpermitted.1, hpermitted.2, rfl⟩
    | lock | unlock | send | segmentDone => contradiction
  obtain ⟨hheld, hnil, hsent⟩ := hheld
  have hleft : s.left i m = s.out m := if_pos hheld
  have hleft' : t.left i = Function.update (s.left i) m rest := by
    funext m'
    by_cases hm : m' = m
    · rw [hm, Net.left, hholds, if_pos hheld, hout, Function.update_self, Function.update_self]
    · rw [Net.left, hholds, hout, Function.update_of_ne hm, Function.update_of_ne hm, Net.left]
  have hreply : t.reply i = s.reply i := by rw [Net.reply, hcall, hserved]; rfl
  have howed := hmatched.owed
  refine ⟨?_, ?_, ?_⟩
  · have hsame : p.sends = q.sends := by rw [hsends, hsent]; rfl
    rw [hcall, show (Running.mk r q).prog.sends = p.sends from hsame.symm]
    exact hmatched.unsent
  · rw [hissued, hcall]
    exact hmatched.numbered
  · rw [hreply, hleft']
    cases hcase : s.reply i with
    | none =>
      rw [hcase] at howed
      have hempty : s.out m = [] := hleft.symm.trans (congrFun howed.2.1 m)
      rw [hempty, Action.rest_nil] at hrest
      contradiction
    | some reply =>
      rw [hcase] at howed
      refine ⟨?_, howed.2.receive hstep hstream (by rwa [hleft])⟩
      obtain ⟨taken, htaken⟩ := Action.rest_suffix hrest
      have htake : (s.out m).take ((s.out m).length - rest.length) = taken := by
        rw [← htaken, List.length_append, Nat.add_sub_cancel, List.take_left]
      intro m'
      rw [hcall, htake, howed.1 m']
      dsimp only [Call.receive]
      by_cases hm : m' = m
      · subst hm
        rw [Function.update_self, Function.update_self, hleft, List.append_assoc, htaken]
      · rw [Function.update_of_ne hm, Function.update_of_ne hm]

/-- The served requests are the issued ones. -/
theorem Net.Inv.served_request (h : s.Inv files stale shell) {k i : ℕ} {r : Request}
    {x : Request × (Mutex → Bytes)} (hserved : s.served[k]? = some x)
    (hissued : s.traffic.issued[k]? = some (i, r)) : x.1 = r := by
  obtain ⟨later, hlater⟩ := h.served
  have hleft : (s.served.map Prod.fst)[k]? = some x.1 := by
    rw [List.getElem?_map, hserved]
    rfl
  have hright : (s.traffic.issued.map Prod.snd)[k]? = some r := by
    rw [List.getElem?_map, hissued]
    rfl
  rw [← hlater, List.getElem?_append_left (List.getElem?_eq_some_iff.mp hleft).1, hleft] at hright
  exact Option.some.inj hright

/-- A callback that returns has received its whole reply, or will be answered nothing. -/
theorem Net.Inv.returned (h : s.Inv files stale shell) {i : ℕ} {r : Request} {value : ℤ}
    (hrun : s.traffic.threads.running i = some ⟨r, .ret value⟩) :
    ∃ k, (s.calls i).number = some k ∧ s.traffic.issued[k]? = some (i, r) ∧
      (s.served[k]? = some (r, (s.calls i).got) ∨
        s.served.length ≤ k ∧ (s.calls i).got = (fun _ => []) ∧
          ∀ reply, Answers files shell r reply → reply = fun _ => []) := by
  have hmatched := h.matched i _ hrun
  cases hnumber : (s.calls i).number with
  | none => exact absurd rfl (hmatched.unsent.mp hnumber)
  | some k =>
    have hissued := hmatched.numbered k hnumber
    have howed := hmatched.owed
    refine ⟨k, rfl, hissued, ?_⟩
    rw [Net.reply, hnumber, Option.bind_some] at howed
    cases hserved : s.served[k]? with
    | none =>
      rw [hserved] at howed
      exact .inr ⟨List.getElem?_eq_none_iff.mp hserved, howed.1,
        fun reply hans => funext (howed.2.2 reply hans)⟩
    | some x =>
      rw [hserved] at howed
      obtain ⟨hreply, hleft⟩ := howed
      have hgot : x.2 = (s.calls i).got := by
        funext m
        rw [hreply m, hleft m, List.append_nil]
      have hrequest : x.1 = r := h.served_request hserved hissued
      rw [← hgot, ← hrequest]
      exact .inl rfl

section
variable {t : Net} {i : ℕ} {e : Event}

/-- A request has its callback waiting, or needs no reply. -/
def Net.Awaited (files : ℕ → ServerFs) (shell : Bytes → ServerFs → ServerFs) (s : Net) (k i : ℕ)
    (r : Request) : Prop :=
  (∃ c, s.traffic.threads.running i = some c ∧ (s.calls i).number = some k) ∨
    ∀ reply, Answers files shell r reply → reply = fun _ => []

/-- A request stays awaited while its callback goes on under the same number. -/
theorem Net.Awaited.go_on {k j : ℕ} {r : Request} (h : s.Awaited files shell k j r)
    (hrun : ∀ c, s.traffic.threads.running j = some c → ∃ c', t.traffic.threads.running j = some c')
    (hnumber : (t.calls j).number = (s.calls j).number) : t.Awaited files shell k j r := by
  cases h with
  | inl howner =>
    obtain ⟨c, hc, hk⟩ := howner
    obtain ⟨c', hc'⟩ := hrun c hc
    exact .inl ⟨c', hc', hnumber.trans hk⟩
  | inr hempty => exact .inr hempty

/-- Before a callback has sent its request, no earlier one of its thread waits for a reply. -/
theorem Net.Inv.awaited_unsent (h : s.Inv files stale shell) {k : ℕ} {r : Request} {c : Running}
    (hrun : s.traffic.threads.running i = some c) (hunsent : c.prog.sends ≠ [])
    (hawaited : s.Awaited files shell k i r) :
    ∀ reply, Answers files shell r reply → reply = fun _ => [] := by
  cases hawaited with
  | inl howner =>
    obtain ⟨_, -, hk⟩ := howner
    rw [(h.matched i c hrun).unsent.mpr hunsent] at hk
    contradiction
  | inr hempty => exact hempty

/-- A callback that returns leaves no request behind that waits for a reply. -/
theorem Net.Inv.awaited_returned (h : s.Inv files stale shell) {k : ℕ} {r r' : Request} {value : ℤ}
    (hrun : s.traffic.threads.running i = some ⟨r', .ret value⟩)
    (hk : s.traffic.issued[k]? = some (i, r)) (hle : s.served.length ≤ k) :
    ∀ reply, Answers files shell r reply → reply = fun _ => [] := by
  cases h.owner k i r hk hle with
  | inl howner =>
    obtain ⟨_, -, hnumber⟩ := howner
    obtain ⟨k', hk', hissued, hreply⟩ := h.returned hrun
    obtain rfl : k' = k := Option.some.inj (hk'.symm.trans hnumber)
    obtain ⟨-, rfl⟩ := Prod.mk.inj (Option.some.inj (hissued.symm.trans hk))
    cases hreply with
    | inl hserved => exact absurd (List.getElem?_eq_some_iff.mp hserved).1 (not_lt.mpr hle)
    | inr hempty => exact hempty.2.2
  | inr hempty => exact hempty

/-- When a callback completes its request, that one is awaited, and the earlier ones are as before. -/
theorem Net.Inv.awaited_issued (h : s.Inv files stale shell) {r' : Request} {c c' : Running}
    (hrun : s.traffic.threads.running i = some c) (hrun' : t.traffic.threads.running i = some c')
    (hunsent : c.prog.sends ≠ []) (hnumber : (t.calls i).number = some s.traffic.issued.length)
    {k j : ℕ} {r : Request} (hk : (s.traffic.issued ++ [(i, r')])[k]? = some (j, r))
    (hle : s.served.length ≤ k)
    (hother : j ≠ i → s.traffic.issued[k]? = some (j, r) → t.Awaited files shell k j r) :
    t.Awaited files shell k j r := by
  by_cases hold : k < s.traffic.issued.length
  · rw [List.getElem?_append_left hold] at hk
    by_cases hj : j = i
    · subst hj
      exact .inr (h.awaited_unsent hrun hunsent (h.owner k j r hk hle))
    · exact hother hj hk
  · obtain ⟨hlast, hij⟩ : k = s.traffic.issued.length ∧ (i, r') = (j, r) := by
      rw [List.getElem?_append_right (by omega), List.getElem?_singleton] at hk
      split at hk
      · exact ⟨by omega, Option.some.inj hk⟩
      · contradiction
    obtain ⟨rfl, -⟩ := Prod.mk.inj hij
    exact .inl ⟨c', hrun', by rw [hnumber, hlast]⟩

/-- A request that is not served yet still has its callback waiting, or needs no reply. -/
theorem Net.Inv.owner_thread (h : s.Inv files stale shell)
    (hstep : Traffic.Step s.traffic (i, e) t.traffic) (hserved : t.served = s.served)
    (hcalls : ∀ j, j ≠ i → t.calls j = s.calls j)
    (hnumber : (t.calls i).number =
      (e.call s.traffic.issued.length (e.issued t.traffic.threads i) (s.calls i)).number)
    (k j : ℕ) (r : Request) (hk : t.traffic.issued[k]? = some (j, r)) (hle : t.served.length ≤ k) :
    t.Awaited files shell k j r := by
  obtain ⟨hthreads, hok, -, hissued⟩ := hstep.threads
  rw [hserved] at hle
  have hother : j ≠ i → s.traffic.issued[k]? = some (j, r) → t.Awaited files shell k j r := by
    intro hj hold
    have hawaited : s.Awaited files shell k j r := h.owner k j r hold hle
    refine hawaited.go_on (fun c hc => ⟨c, ?_⟩) (by rw [hcalls j hj])
    rw [hthreads.running_other hj, hc]
  cases e with
  | start r' =>
    obtain ⟨hidle, -⟩ := hthreads.started
    rw [hissued, show Event.issued _ i (.start _) = [] from rfl, List.append_nil] at hk
    cases h.owner k j r hk hle with
    | inl howner =>
      obtain ⟨c, hrun, -⟩ := howner
      apply hother _ hk
      rintro rfl
      rw [hidle] at hrun
      contradiction
    | inr hempty => exact .inr hempty
  | act a =>
    obtain ⟨r', p, q, hrun, hrun', hact, -⟩ := hthreads.acted
    have hsends : p.sends = a.sent ++ q.sends := (h.wellLocked hrun).sends hact hok
    cases Event.issued_act hrun' hsends hok with
    | inl hnone =>
      rw [hissued, hnone.1, List.append_nil] at hk
      by_cases hj : j = i
      · subst hj
        have hawaited : s.Awaited files shell k j r := h.owner k j r hk hle
        exact hawaited.go_on (fun _ _ => ⟨_, hrun'⟩) (by rw [hnumber, hnone.1]; rfl)
      · exact hother hj hk
    | inr hone =>
      obtain ⟨hone, hne, -⟩ := hone
      rw [hissued, hone] at hk
      exact h.awaited_issued hrun hrun' hne (by rw [hnumber, hone]; rfl) hk hle hother
  | finish value =>
    obtain ⟨r', hrun, -⟩ := hthreads.returned
    rw [hissued, show Event.issued _ i (.finish _) = [] from rfl, List.append_nil] at hk
    by_cases hj : j = i
    · subst hj
      exact .inr (h.awaited_returned hrun hk hle)
    · exact hother hj hk

/-- Every running callback still waits for a reply that the server can give. -/
theorem Net.Inv.running_thread (h : s.Inv files stale shell)
    (hstep : Traffic.Step s.traffic (i, e) t.traffic)
    (hstart : ∀ r, e = .start r → Servable files r) (j : ℕ) (c : Running)
    (hc : t.traffic.threads.running j = some c) : Servable files c.request := by
  obtain ⟨hthreads, -⟩ := hstep.threads
  by_cases hj : j = i
  · subst hj
    cases hthreads.request hc with
    | inl hnew => exact hstart c.request hnew
    | inr hold =>
      obtain ⟨p, hrun⟩ := hold
      exact h.running j ⟨c.request, p⟩ hrun
  · rw [hthreads.running_other hj] at hc
    exact h.running j c hc

/-- So does every issued request. -/
theorem Net.Inv.issued_thread (h : s.Inv files stale shell)
    (hstep : Traffic.Step s.traffic (i, e) t.traffic)
    (hstart : ∀ r, e = .start r → Servable files r) :
    ∀ x ∈ t.traffic.issued, Servable files x.2 := by
  obtain ⟨-, -, -, hissued⟩ := hstep.threads
  intro x hx
  rw [hissued] at hx
  cases List.mem_append.mp hx with
  | inl hold => exact h.issued x hold
  | inr hnew =>
    obtain ⟨p, hrun, -⟩ := Event.mem_issued hnew
    exact h.running_thread hstep hstart i ⟨x.2, p⟩ hrun

/-- The calls that have returned keep their replies, and a call that returns now has its own. -/
theorem Net.Inv.finished_thread (h : s.Inv files stale shell)
    (hstep : Traffic.Step s.traffic (i, e) t.traffic) (hserved : t.served = s.served)
    (d : Request × Call) (hd : d ∈ s.finished ++ s.returned i e) :
    ∃ k j, d.2.number = some k ∧ t.traffic.issued[k]? = some (j, d.1) ∧
      (t.served[k]? = some (d.1, d.2.got) ∨ t.served.length ≤ k ∧ d.2.got = (fun _ => []) ∧
        ∀ reply, Answers files shell d.1 reply → reply = fun _ => []) := by
  obtain ⟨hthreads, -, -, hissued⟩ := hstep.threads
  have hkeep : ∀ (k : ℕ) (x : ℕ × Request), s.traffic.issued[k]? = some x →
      t.traffic.issued[k]? = some x := by
    intro k x hk
    rw [hissued, List.getElem?_append_left (List.getElem?_eq_some_iff.mp hk).1, hk]
  rw [hserved]
  cases List.mem_append.mp hd with
  | inl hold =>
    obtain ⟨k, j, hnumber, hk, hreply⟩ := h.finished d hold
    exact ⟨k, j, hnumber, hkeep k _ hk, hreply⟩
  | inr hnew =>
    cases e with
    | start | act => simp [Net.returned] at hnew
    | finish value =>
      obtain ⟨r, hrun, -⟩ := hthreads.returned
      simp only [Net.returned, hrun, List.mem_singleton] at hnew
      obtain ⟨k, hnumber, hk, hreply⟩ := h.returned hrun
      rw [hnew]
      exact ⟨k, i, hnumber, hkeep k _ hk, hreply⟩

/-- The records of the other threads still fit after a step. -/
theorem Net.Inv.matched_other (h : s.Inv files stale shell)
    (hstep : Traffic.Step s.traffic (i, e) t.traffic) (hserved : t.served = s.served)
    (hcalls : ∀ j, j ≠ i → t.calls j = s.calls j)
    (hout : ∀ m, s.traffic.threads.holds i m = false → t.out m = s.out m) {j : ℕ} (hj : j ≠ i)
    {c : Running} (hc : t.traffic.threads.running j = some c) :
    t.Matched files stale shell j c := by
  obtain ⟨hthreads, hok, -, hissued⟩ := hstep.threads
  rw [hthreads.running_other hj] at hc
  have hreply : t.reply j = s.reply j := by rw [Net.reply, hcalls j hj, hserved, Net.reply]
  apply (h.matched j c hc).of_same (hcalls j hj) _ hreply
  · funext m
    rw [Net.left, h.traffic.threads.holds_other hthreads hok hj, Net.left]
    split
    · next hheld =>
      apply hout
      rw [Threads.holds, decide_eq_false_iff_not]
      intro hi
      exact hj (Option.some.inj ((of_decide_eq_true hheld).symm.trans hi))
    · rfl
  · rw [hissued]
    exact List.prefix_append _ _

/-- A stream without a holder is empty, also after a step that receives nothing. -/
theorem Net.Inv.free_quiet (h : s.Inv files stale shell)
    (hstep : Traffic.Step s.traffic (i, e) t.traffic) (m : Mutex)
    (hm : t.traffic.threads.holder m = none) : s.out m = [] := by
  obtain ⟨hthreads, -⟩ := hstep.threads
  cases e with
  | start r =>
    rw [hthreads.started.2.2] at hm
    exact h.free m hm
  | finish value =>
    obtain ⟨r, -, -, hholder⟩ := hthreads.returned
    rw [hholder] at hm
    exact h.free m hm
  | act a =>
    obtain ⟨r, p, q, hrun, -, hact, -, hholder⟩ := hthreads.acted
    rw [hholder] at hm
    cases a with
    | lock m' =>
      by_cases hsame : m = m'
      · simp [Action.holder, hsame] at hm
      · rw [Action.holder, Function.update_of_ne hsame] at hm
        exact h.free m hm
    | unlock m' =>
      by_cases hsame : m = m'
      · rw [hsame]
        exact h.out_of_unlock hrun hact
      · rw [Action.holder, Function.update_of_ne hsame] at hm
        exact h.free m hm
    | _ => exact h.free m hm

end

/-- The record of the thread's own call fits after a step that receives nothing. -/
theorem Net.Inv.matched_quiet (h : s.Inv files stale shell) {i : ℕ} {e : Event} {t : Net}
    (hstep : Traffic.Step s.traffic (i, e) t.traffic) (hquiet : e.stream = none)
    (hstart : ∀ r, e = .start r → Servable files r) (htraffic : t.traffic.Inv)
    (hout : t.out = s.out) (hserved : t.served = s.served)
    (hcall : t.calls i =
      e.call s.traffic.issued.length (e.issued t.traffic.threads i) (s.calls i))
    {c : Running} (hc : t.traffic.threads.running i = some c) :
    t.Matched files stale shell i c := by
  obtain ⟨hthreads, hok, -, hissued⟩ := hstep.threads
  cases e with
  | start r =>
    obtain ⟨hidle, hrun', hholder⟩ := hthreads.started
    obtain rfl := Option.some.inj (hrun'.symm.trans hc)
    have hholds : t.traffic.threads.holds i = s.traffic.threads.holds i := by
      funext m
      rw [Threads.holds, hholder, Threads.holds]
    exact h.matched_start hidle hholds (htraffic.carried i _ hc) (hstart r rfl) hcall
  | act a =>
    obtain ⟨r, p, q, hrun, hrun', hact, hfree, hholder⟩ := hthreads.acted
    obtain rfl := Option.some.inj (hrun'.symm.trans hc)
    have hleft : t.left i = s.left i := by
      funext m
      rw [Net.left, hout, Threads.holds_self hholder]
      exact h.left_act hrun hact hfree hquiet m
    exact h.matched_act hrun hrun' hact hok hissued hserved hquiet hleft hcall
  | finish value =>
    obtain ⟨r, -, hnone, -⟩ := hthreads.returned
    rw [hnone] at hc
    contradiction

/-- A step that receives nothing keeps the invariant. -/
theorem Net.Inv.quiet (h : s.Inv files stale shell) {i : ℕ} {e : Event} {t : Net}
    (hstep : Traffic.Step s.traffic (i, e) t.traffic) (hquiet : e.stream = none)
    (hstart : ∀ r, e = .start r → Servable files r) (hinbox : t.inbox = s.inbox ++ frames e.sent)
    (hout : t.out = s.out) (hserved : t.served = s.served)
    (hcalls : t.calls = Function.update s.calls i
      (e.call s.traffic.issued.length (e.issued t.traffic.threads i) (s.calls i)))
    (hfinished : t.finished = s.finished ++ s.returned i e) : t.Inv files stale shell := by
  obtain ⟨hthreads, hok, hwire, hissued⟩ := hstep.threads
  have htraffic := h.traffic_step hstep hstart
  have hself : t.calls i =
      e.call s.traffic.issued.length (e.issued t.traffic.threads i) (s.calls i) := by
    rw [hcalls, Function.update_self]
  have hothers : ∀ j, j ≠ i → t.calls j = s.calls j := by
    intro j hj
    rw [hcalls, Function.update_of_ne hj]
  refine ⟨htraffic, h.running_thread hstep hstart, h.issued_thread hstep hstart, ?_, ?_, ?_, ?_, ?_,
    h.owner_thread hstep hserved hothers (by rw [hself]), ?_⟩
  · rw [hwire, h.inbox, hserved, hinbox, List.append_assoc]
  · rw [hserved, hissued, List.map_append]
    exact h.served.trans (List.prefix_append _ _)
  · rw [hserved]
    exact h.answered
  · intro m hm
    rw [hout]
    exact h.free_quiet hstep m hm
  · intro j c hc
    by_cases hj : j = i
    · subst hj
      exact h.matched_quiet hstep hquiet hstart htraffic hout hserved hself hc
    · exact h.matched_other hstep hserved hothers (fun m _ => by rw [hout]) hj hc
  · rw [hfinished]
    exact h.finished_thread hstep hserved

/-- A receive keeps the invariant. -/
theorem Net.Inv.receive (h : s.Inv files stale shell) {i : ℕ} {a : Action} {m : Mutex}
    {rest : Bytes} {t : Net} (hstep : Traffic.Step s.traffic (i, .act a) t.traffic) (hstream : a.stream = some m)
    (hrest : a.rest stale (s.out m) = some rest) (hinbox : t.inbox = s.inbox)
    (hout : t.out = Function.update s.out m rest) (hserved : t.served = s.served)
    (hcalls : t.calls = Function.update s.calls i
      ((s.calls i).receive m ((s.out m).take ((s.out m).length - rest.length))))
    (hfinished : t.finished = s.finished) : t.Inv files stale shell := by
  obtain ⟨hthreads, hok, hwire, hissued⟩ := hstep.threads
  obtain ⟨r, p, q, hrun, hrun', hact, hfree, hholder⟩ := hthreads.acted
  have hstart : ∀ r, Event.act a = .start r → Servable files r := nofun
  have hsame : a.sent = [] ∧ Event.issued t.traffic.threads i (.act a) = [] ∧
      t.traffic.threads.holder = s.traffic.threads.holder ∧
      s.traffic.threads.holds i m = true := by
    have hpermitted := (h.wellLocked hrun).permitted hact
    rw [hholder]
    cases a with
    | recvStr | direntry | recvSegment | segmentError =>
      obtain rfl := Option.some.inj hstream
      exact ⟨rfl, rfl, rfl, hpermitted.1⟩
    | lock | unlock | send | segmentDone => contradiction
  obtain ⟨hsent, hnone, hholders, hheld⟩ := hsame
  rw [hnone, List.append_nil] at hissued
  have hself : t.calls i =
      (s.calls i).receive m ((s.out m).take ((s.out m).length - rest.length)) := by
    rw [hcalls, Function.update_self]
  have hothers : ∀ j, j ≠ i → t.calls j = s.calls j := by
    intro j hj
    rw [hcalls, Function.update_of_ne hj]
  refine ⟨h.traffic_step hstep hstart, h.running_thread hstep hstart, h.issued_thread hstep hstart,
    ?_, ?_, ?_, ?_, ?_, h.owner_thread hstep hserved hothers (by rw [hself, hnone]; rfl), ?_⟩
  · rw [hwire, h.inbox, hserved, hinbox, show Event.sent (.act a) = [] from hsent, frames_nil,
      List.append_nil]
  · rw [hserved, hissued]
    exact h.served
  · rw [hserved]
    exact h.answered
  · intro m' hm'
    rw [hholders] at hm'
    have hne : m' ≠ m := by
      rintro rfl
      rw [Threads.holds, hm'] at hheld
      contradiction
    rw [hout, Function.update_of_ne hne]
    exact h.free m' hm'
  · intro j c hc
    by_cases hj : j = i
    · subst hj
      obtain rfl := Option.some.inj (hrun'.symm.trans hc)
      have hholds : t.traffic.threads.holds j = s.traffic.threads.holds j := by
        funext m'
        rw [Threads.holds, hholders, Threads.holds]
      exact h.matched_receive hrun hact hok hissued hserved hstream hrest hholds hout hself
    · apply h.matched_other hstep hserved hothers _ hj hc
      intro m' hm'
      have hne : m' ≠ m := by
        rintro rfl
        rw [hm'] at hheld
        contradiction
      rw [hout, Function.update_of_ne hne]
  · rw [hfinished]
    intro d hd
    exact h.finished_thread hstep hserved d (List.mem_append_left _ hd)

end

end Udtfs

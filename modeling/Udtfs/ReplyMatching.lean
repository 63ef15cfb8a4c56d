import Udtfs.ReplyNet

/-!
# Replies reach the callbacks that asked for them

A read gives up `_tcpmutex` before it receives its segment, so that other requests can be queued at
the server meanwhile. Replies still never cross: the server answers in the order of the requests, a
reply lies on a stream only while the callback it belongs to holds that stream's mutex, and the
mutexes are always taken in the same order, so that some step can always be taken.
-/

namespace Udtfs

open NulString Transition

section
variable {files : ℕ → ServerFs} {stale : ℕ → Bytes} {shell : Bytes → ServerFs → ServerFs} {s : Net}

/-! ## The server's steps -/

/-- The inbox holds the requests that are issued but not served, and what one thread has sent of its
next. -/
theorem Net.Inv.inbox_eq (h : s.Inv files stale shell) :
    ∃ i, s.inbox = (s.traffic.issued.drop s.served.length).flatMap (fun x => x.2.wire) ++
      frames (s.traffic.threads.pending i) := by
  obtain ⟨i, hwire, -⟩ := h.traffic.stream
  obtain ⟨later, hlater⟩ := h.served
  have hdrop : (s.traffic.issued.drop s.served.length).map Prod.snd = later := by
    rw [List.map_drop, ← hlater]
    exact List.drop_left' (List.length_map ..)
  refine ⟨i, ?_⟩
  have hinbox := h.inbox
  rw [hwire, ← List.flatMap_map Prod.snd Request.wire, ← hlater, List.flatMap_append,
    List.append_assoc] at hinbox
  rw [← List.append_cancel_left hinbox, ← List.flatMap_map Prod.snd Request.wire, hdrop]

/-- What is pending is not served. -/
theorem Net.Inv.handle_pending (h : s.Inv files stale shell) (i : ℕ) (r : Request)
    (rest : TcpStream) :
    handleCommand stale ⟨frames (s.traffic.threads.pending i), .closed⟩ ≠
      some (.handled r, rest) := by
  cases hrun : s.traffic.threads.running i with
  | none =>
    simp [Threads.pending, hrun, handleCommand_nil]
  | some c =>
    simp only [Threads.pending, hrun]
    by_cases hpending : c.request.pending c.prog.sends = []
    · simp [hpending, handleCommand_nil]
    · obtain ⟨hsplit, hsends⟩ := Request.append_of_pending
        (h.traffic.threads.disciplined i c hrun).suffix hpending
      simp [(h.traffic.carried i c hrun).handle_cut stale hsplit hpending hsends]

/-- The server serves the first request that is not served yet. -/
theorem Net.Inv.served_next (h : s.Inv files stale shell) {r : Request} {rest : TcpStream}
    (hpass : handleCommand stale ⟨s.inbox, .closed⟩ = some (.handled r, rest)) :
    (∃ i, s.traffic.issued[s.served.length]? = some (i, r)) ∧ s.inbox = r.wire ++ rest.bytes := by
  obtain ⟨j, hinbox⟩ := h.inbox_eq
  cases hdrop : s.traffic.issued.drop s.served.length with
  | nil =>
    rw [hdrop, List.flatMap_nil, List.nil_append] at hinbox
    rw [hinbox] at hpass
    exact absurd hpass (h.handle_pending j r rest)
  | cons x later =>
    have hx : s.traffic.issued[s.served.length]? = some x := by
      rw [← Nat.add_zero s.served.length, ← List.getElem?_drop, hdrop]
      rfl
    have hcarried := h.traffic.issued x (List.mem_of_getElem? hx)
    rw [hdrop, List.flatMap_cons, List.append_assoc] at hinbox
    rw [hinbox, hcarried.handle stale _ .closed] at hpass
    obtain ⟨hr, hrest⟩ := Prod.mk.inj (Option.some.inj hpass)
    obtain rfl := Served.handled.inj hr
    exact ⟨⟨x.1, hx⟩, by rw [hinbox, ← hrest]⟩

/-- The callback of the next request to be served has sent all of it, has received nothing, finds nothing
ready, and takes any answer. -/
theorem Net.Inv.next_owed (h : s.Inv files stale shell) {i j : ℕ} {r : Request} {c : Running}
    (hissued : s.traffic.issued[s.served.length]? = some (i, r))
    (hc : s.traffic.threads.running j = some c) (hnumber : (s.calls j).number = some s.served.length) :
    c.prog.sends = [] ∧ (s.calls j).got = (fun _ => []) ∧ s.left j = (fun _ => []) ∧
      ∀ reply, Answers files shell r reply → c.prog.Takes stale reply := by
  have hmatched := h.matched j c hc
  have hsame := (hmatched.numbered _ hnumber).symm.trans hissued
  have hrequest : c.request = r := (Prod.mk.inj (Option.some.inj hsame)).2
  have howed := hmatched.owed
  rw [Net.reply, hnumber, Option.bind_some, List.getElem?_eq_none le_rfl] at howed
  have hsends : c.prog.sends = [] := by
    by_contra hne
    rw [hmatched.unsent.mpr hne] at hnumber
    contradiction
  exact ⟨hsends, howed.1, howed.2.1, hrequest ▸ howed.2.2⟩

/-- A nonempty reply goes to the callback that holds the mutex of its stream. -/
theorem Net.Inv.reply_held (h : s.Inv files stale shell) {i : ℕ} {r : Request}
    (hissued : s.traffic.issued[s.served.length]? = some (i, r)) {reply : Mutex → Bytes}
    (hreply : Answers files shell r reply) {m : Mutex} (hm : reply m ≠ []) :
    s.traffic.threads.holds i m = true ∧ (s.calls i).number = some s.served.length := by
  cases h.owner _ i r hissued le_rfl with
  | inr hempty => exact absurd (congrFun (hempty reply hreply) m) hm
  | inl howner =>
    obtain ⟨c, hrun, hnumber⟩ := howner
    refine ⟨?_, hnumber⟩
    obtain ⟨hsends, -, -, htakes⟩ := h.next_owed hissued hrun hnumber
    by_contra hheld
    exact hm ((h.wellLocked hrun).takes hsends (htakes reply hreply) (Bool.not_eq_true _ ▸ hheld))

section
variable {t : Net} {i j : ℕ} {r : Request} {reply : Mutex → Bytes} {c : Running}

/-- When the server answers a request, the reply lies ready for the callback that issued it. -/
theorem Net.Inv.matched_served (h : s.Inv files stale shell)
    (hissued : s.traffic.issued[s.served.length]? = some (i, r))
    (hreply : Answers files shell r reply) (htraffic : t.traffic = s.traffic)
    (hcalls : t.calls = s.calls) (hserved : t.served = s.served ++ [(r, reply)])
    (hout : ∀ m, t.out m = s.out m ++ reply m) (hc : s.traffic.threads.running j = some c)
    (hown : (s.calls j).number = some s.served.length) : t.Matched files stale shell j c := by
  have hmatched := h.matched j c hc
  obtain ⟨hsends, hgot, hleft, htakes⟩ := h.next_owed hissued hc hown
  have htakes := htakes reply hreply
  have hafter : t.reply j = some reply := by
    rw [Net.reply, hcalls, hown, hserved, Option.bind_some, List.getElem?_concat_length]
    rfl
  have hleft' : t.left j = reply := by
    funext m
    rw [Net.left, htraffic, hout]
    cases hheld : s.traffic.threads.holds j m with
    | true =>
      have hempty : s.out m = [] := by
        have hm := congrFun hleft m
        rwa [Net.left, hheld, if_pos rfl] at hm
      rw [if_pos rfl, hempty, List.nil_append]
    | false =>
      have hnone := (h.wellLocked hc).takes hsends htakes hheld
      rw [hnone]
      rfl
  refine ⟨?_, ?_, ?_⟩
  · rw [hcalls]
    exact hmatched.unsent
  · rw [hcalls, htraffic]
    exact hmatched.numbered
  · rw [hafter, hleft', hcalls, hgot]
    exact ⟨fun m => rfl, htakes⟩

/-- For any other callback nothing changes. -/
theorem Net.Inv.matched_unserved (h : s.Inv files stale shell)
    (hissued : s.traffic.issued[s.served.length]? = some (i, r))
    (hreply : Answers files shell r reply) (htraffic : t.traffic = s.traffic)
    (hcalls : t.calls = s.calls) (hserved : t.served = s.served ++ [(r, reply)])
    (hout : ∀ m, t.out m = s.out m ++ reply m) (hc : s.traffic.threads.running j = some c)
    (hother : (s.calls j).number ≠ some s.served.length) : t.Matched files stale shell j c := by
  have hsame : t.reply j = s.reply j := by
    rw [Net.reply, hcalls, hserved, Net.reply]
    cases hnumber : (s.calls j).number with
    | none => rfl
    | some k =>
      have hne : k ≠ s.served.length := by
        rintro rfl
        exact hother hnumber
      rw [Option.bind_some, Option.bind_some, List.getElem?_append]
      split
      · rfl
      · next hlt =>
        rw [List.getElem?_eq_none (by rw [List.length_singleton]; omega),
          List.getElem?_eq_none (by omega)]
  apply (h.matched j c hc).of_same (congrFun hcalls j) (htraffic ▸ List.prefix_rfl) hsame
  funext m
  rw [Net.left, Net.left, htraffic, hout]
  split
  · next hheld =>
    have hnone : reply m = [] := by
      by_contra hm
      obtain ⟨hi, hnumber⟩ := h.reply_held hissued hreply hm
      have hij : i = j :=
        Option.some.inj ((of_decide_eq_true hi).symm.trans (of_decide_eq_true hheld))
      exact hother (hij ▸ hnumber)
    rw [hnone, List.append_nil]
  · rfl

/-- Every callback stays matched when the server answers a request. -/
theorem Net.Inv.matched_serve (h : s.Inv files stale shell)
    (hissued : s.traffic.issued[s.served.length]? = some (i, r))
    (hreply : Answers files shell r reply) (htraffic : t.traffic = s.traffic)
    (hcalls : t.calls = s.calls) (hserved : t.served = s.served ++ [(r, reply)])
    (hout : ∀ m, t.out m = s.out m ++ reply m) (hc : s.traffic.threads.running j = some c) :
    t.Matched files stale shell j c := by
  by_cases hown : (s.calls j).number = some s.served.length
  · exact h.matched_served hissued hreply htraffic hcalls hserved hout hc hown
  · exact h.matched_unserved hissued hreply htraffic hcalls hserved hout hc hown

end

/-- A pass through the server's loop keeps the invariant. -/
theorem Net.Inv.serve (h : s.Inv files stale shell) {t : Net} {r : Request} {rest : TcpStream}
    {answer : Answer} (hpass : handleCommand stale ⟨s.inbox, .closed⟩ = some (.handled r, rest))
    (hanswer : (files s.served.length).act shell r = some answer) (htraffic : t.traffic = s.traffic)
    (hinbox : t.inbox = rest.bytes) (hout : ∀ m, t.out m = s.out m ++ answer.reply m)
    (hserved : t.served = s.served ++ [(r, answer.reply)]) (hcalls : t.calls = s.calls)
    (hfinished : t.finished = s.finished) : t.Inv files stale shell := by
  obtain ⟨⟨i, hissued⟩, hbytes⟩ := h.served_next hpass
  have hreply : Answers files shell r answer.reply := ⟨_, answer, hanswer, rfl⟩
  have hlength : t.served.length = s.served.length + 1 := by rw [hserved, List.length_append]; rfl
  refine ⟨htraffic ▸ h.traffic, htraffic ▸ h.running, htraffic ▸ h.issued, ?_, ?_, ?_, ?_, ?_, ?_,
    ?_⟩
  · rw [htraffic, h.inbox, hbytes, hserved, hinbox, List.map_append, List.flatMap_append,
      List.append_assoc]
    simp
  · obtain ⟨later, hlater⟩ := h.served
    have hnext : (s.served.map Prod.fst ++ later)[s.served.length]? = some r := by
      rw [hlater, List.getElem?_map, hissued]
      rfl
    rw [htraffic, ← hlater, hserved, List.map_append]
    rw [List.getElem?_append_right (List.length_map ..).le, List.length_map, Nat.sub_self] at hnext
    cases later with
    | nil => contradiction
    | cons r' later =>
      obtain rfl := Option.some.inj hnext
      exact ⟨later, by rw [List.append_assoc]; rfl⟩
  · rw [hserved]
    intro x hx
    cases List.mem_append.mp hx with
    | inl hold => exact h.answered x hold
    | inr hnew =>
      obtain rfl := List.mem_singleton.mp hnew
      exact hreply
  · intro m hm
    rw [htraffic] at hm
    rw [hout, h.free m hm, List.nil_append]
    by_contra hne
    have hheld := of_decide_eq_true (h.reply_held hissued hreply hne).1
    rw [hm] at hheld
    contradiction
  · intro j c hc
    rw [htraffic] at hc
    exact h.matched_serve hissued hreply htraffic hcalls hserved hout hc
  · rw [htraffic, hcalls]
    intro k j q hk hle
    exact h.owner k j q hk (by omega)
  · rw [hfinished, htraffic]
    intro d hd
    obtain ⟨k, j, hnumber, hk, hgot⟩ := h.finished d hd
    refine ⟨k, j, hnumber, hk, ?_⟩
    cases hgot with
    | inl hdone =>
      left
      rw [hserved, List.getElem?_append_left (List.getElem?_eq_some_iff.mp hdone).1, hdone]
    | inr hempty =>
      obtain ⟨hle, hgot, hempty⟩ := hempty
      by_cases hnow : k = s.served.length
      · left
        rw [hnow] at hk
        have hrequest : d.1 = r := (Prod.mk.inj (Option.some.inj (hk.symm.trans hissued))).2
        rw [hserved, hnow, List.getElem?_concat_length, hrequest, hgot,
          ← hempty answer.reply (hrequest ▸ hreply)]
      · exact .inr ⟨by omega, hgot, hempty⟩

/-- Every step keeps the invariant. -/
theorem Net.Inv.step (h : s.Inv files stale shell) {l : Label} {t : Net}
    (hstep : Net.Step files stale shell s l t) : t.Inv files stale shell := by
  cases hstep with
  | quiet hstep hquiet hstart => exact h.quiet hstep hquiet hstart rfl rfl rfl rfl rfl
  | receive hstep hstream hrest => exact h.receive hstep hstream hrest rfl rfl rfl rfl rfl
  | serve hpass hanswer => exact h.serve hpass hanswer rfl rfl (fun _ => rfl) rfl rfl rfl

/-- The invariant holds in every reachable state. -/
theorem Net.inv_run {labels : List Label}
    (h : Run (Net.Step files stale shell) .idle labels s) : s.Inv files stale shell :=
  h.invariant (fun _ _ _ hs hstep => hs.step hstep) (Net.inv_idle files stale shell)

/-! ## Progress -/

variable (files stale shell) in
/-- A running thread or the server can take a step. -/
def Net.Enabled (s : Net) : Prop :=
  ∃ l t, Net.Step files stale shell s l t ∧ ∀ i r, l ≠ .thread i (.start r)

/-- The server can serve a request that is not served yet. -/
theorem Net.Inv.enabled_serve (h : s.Inv files stale shell) {k : ℕ} {x : ℕ × Request}
    (hissued : s.traffic.issued[k]? = some x) (hle : s.served.length ≤ k) :
    s.Enabled files stale shell := by
  obtain ⟨i, hinbox⟩ := h.inbox_eq
  cases hdrop : s.traffic.issued.drop s.served.length with
  | nil =>
    have hlt := (List.getElem?_eq_some_iff.mp hissued).1
    rw [List.drop_eq_nil_iff] at hdrop
    omega
  | cons y later =>
    have hy : y ∈ s.traffic.issued := by
      apply List.mem_of_mem_drop (i := s.served.length)
      rw [hdrop]
      exact List.mem_cons_self
    obtain ⟨hguarded, hserves⟩ := h.issued y hy
    obtain ⟨answer, hanswer⟩ := (hserves s.served.length).act shell hguarded
    rw [hdrop, List.flatMap_cons, List.append_assoc] at hinbox
    have hpass := (h.traffic.issued y hy).handle stale (later.flatMap (fun x => x.2.wire) ++
      frames (s.traffic.threads.pending i)) .closed
    rw [← hinbox] at hpass
    exact ⟨.server, _, .serve hpass hanswer, nofun⟩

/-- A callback can take a step that receives nothing and waits for no mutex. -/
theorem Net.enabled_act {i : ℕ} {r : Request} {p q : Prog} {a : Action}
    (hrun : s.traffic.threads.running i = some ⟨r, p⟩) (hstep : p.Step a q) (hok : a.Succeeds)
    (hquiet : a.stream = none) (hfree : ∀ m, a = .lock m → s.traffic.threads.holder m = none) :
    s.Enabled files stale shell :=
  ⟨.thread i (.act a), _, .quiet (.act i a hrun hstep hfree hok) hquiet nofun, nofun⟩

/-- A callback at a receive gets bytes, or the server can serve its request. -/
theorem Net.Inv.enabled_receive (h : s.Inv files stale shell) {i : ℕ} {c : Running}
    (hrun : s.traffic.threads.running i = some c) (hwaits : c.prog.Waits) :
    s.Enabled files stale shell := by
  have hmatched := h.matched i c hrun
  have hsends : c.prog.sends = [] := by
    obtain ⟨r, p⟩ := c
    cases p with
    | recvStr | recvDirentries | recvSegment => rfl
    | ret | lock | unlock | send => exact hwaits.elim
  cases hnumber : (s.calls i).number with
  | none => exact absurd hsends (hmatched.unsent.mp hnumber)
  | some k =>
    have hissued := hmatched.numbered k hnumber
    have howed := hmatched.owed
    rw [Net.reply, hnumber, Option.bind_some] at howed
    cases hserved : s.served[k]? with
    | none => exact h.enabled_serve hissued (List.getElem?_eq_none_iff.mp hserved)
    | some x =>
      rw [hserved] at howed
      obtain ⟨a, q, m, rest, hstep, hok, hstream, hrest⟩ := howed.2.ready hwaits
      have hleft : s.left i m = s.out m := by
        rw [Net.left, ite_eq_left_iff]
        intro hheld
        rw [Net.left, if_neg hheld, Action.rest_nil] at hrest
        contradiction
      have hnolock : ∀ m, a = .lock m → s.traffic.threads.holder m = none := by
        rintro m' rfl
        contradiction
      rw [hleft] at hrest
      exact ⟨.thread i (.act a), _, .receive (.act i a hrun hstep hnolock hok) hstream hrest, by simp⟩

/-- Only a mutex that another thread holds keeps a callback from taking a step. -/
theorem Net.Inv.enabled_running (h : s.Inv files stale shell) {i : ℕ} {c : Running}
    (hrun : s.traffic.threads.running i = some c)
    (hfree : ∀ m next, c.prog = .lock m next → s.traffic.threads.holder m = none) :
    s.Enabled files stale shell := by
  obtain ⟨r, p⟩ := c
  cases p with
  | ret value =>
    exact ⟨.thread i (.finish value), _, .quiet (.mk (.finish hrun) trivial nofun) rfl nofun, nofun⟩
  | lock m next =>
    apply Net.enabled_act hrun (.lock m next) trivial rfl
    intro m' hm
    obtain rfl := Action.lock.inj hm
    exact hfree m next rfl
  | unlock m next => exact Net.enabled_act hrun (.unlock m next) trivial rfl nofun
  | send str next => exact Net.enabled_act hrun (.send str next true) rfl rfl nofun
  | recvStr | recvDirentries => exact h.enabled_receive hrun trivial
  | recvSegment remain next =>
    cases remain with
    | zero => exact Net.enabled_act hrun (.segmentDone next) trivial rfl nofun
    | succ remain => exact h.enabled_receive hrun (Nat.succ_ne_zero remain)

/-- A holder of `_udtmutex` waits for no mutex. -/
theorem Net.Inv.enabled_udt (h : s.Inv files stale shell) {i : ℕ} {c : Running}
    (hrun : s.traffic.threads.running i = some c) (hudt : s.traffic.threads.holds i .udt = true) :
    s.Enabled files stale shell := by
  apply h.enabled_running hrun
  intro m next hprog
  have hlocked := h.wellLocked hrun
  rw [hprog] at hlocked
  obtain ⟨hm, htcp, -⟩ := hlocked
  cases m with
  | tcp =>
    rw [htcp rfl] at hudt
    contradiction
  | udt =>
    rw [hm] at hudt
    contradiction

/-- The holder of a mutex runs a callback. -/
theorem Threads.Inv.holder_running {t : Threads} (h : t.Inv) {m : Mutex} {i : ℕ}
    (hholder : t.holder m = some i) : ∃ c, t.running i = some c ∧ t.holds i m = true := by
  have hheld : t.holds i m = true := decide_eq_true hholder
  cases hrun : t.running i with
  | none =>
    rw [h.idle i hrun] at hheld
    contradiction
  | some c => exact ⟨c, rfl, hheld⟩

/-- As long as a callback is running, some step can be taken: a callback waits for a mutex only if
its holder does not, or waits for `_udtmutex`, whose holder does not. -/
theorem Net.Inv.progress (h : s.Inv files stale shell) {i : ℕ} {c : Running}
    (hrun : s.traffic.threads.running i = some c) : s.Enabled files stale shell := by
  cases hudt : s.traffic.threads.holder .udt with
  | some j =>
    obtain ⟨c', hrun', hheld⟩ := h.traffic.threads.holder_running hudt
    exact h.enabled_udt hrun' hheld
  | none =>
    cases htcp : s.traffic.threads.holder .tcp with
    | some j =>
      obtain ⟨c', hrun', hheld⟩ := h.traffic.threads.holder_running htcp
      apply h.enabled_running hrun'
      intro m next hprog
      cases m with
      | udt => exact hudt
      | tcp =>
        have hlocked := h.wellLocked hrun'
        rw [hprog] at hlocked
        rw [hlocked.1] at hheld
        contradiction
    | none =>
      apply h.enabled_running hrun
      intro m next _
      cases m with
      | tcp => exact htcp
      | udt => exact hudt

/-! ## Matching -/

/-- The reply to a read is a segment of the requested length on the UDT stream, and nothing on the
TCP stream. -/
theorem Answers.segment {filename : Bytes} {offset : ℤ} {len : ℕ} {reply : Mutex → Bytes}
    (h : Answers files shell (.read filename offset len) reply)
    (hcarried : (Request.read filename offset len).Carried) :
    reply .tcp = [] ∧ (reply .udt).length = len := by
  obtain ⟨k, answer, hact, rfl⟩ := h
  obtain ⟨content, -, hanswer⟩ := Option.map_eq_some_iff.mp hact
  obtain ⟨-, -, hlen⟩ := hcarried
  have htcp : answer.tcp = [] := by rw [← hanswer]
  have hudt : answer.udt = sendsegmentReply content offset len := by rw [← hanswer]
  refine ⟨htcp, ?_⟩
  rw [Answer.reply, hudt, sendsegmentReply_length content offset hlen]

variable (files stale shell) in
/-- Every callback gets the reply to its own request and no other bytes, and the system never gets
stuck. -/
structure Net.RepliesMatch (s : Net) : Prop where
  /-- What is recorded as a reply is an answer of the server to that request. -/
  answered : ∀ x ∈ s.served, Answers files shell x.1 x.2
  /-- A call that has returned has received the reply to its own request, from first to last byte.
  Only a reply that has no bytes may still be outstanding. -/
  returned : ∀ d ∈ s.finished, ∃ k i, d.2.number = some k ∧
    s.traffic.issued[k]? = some (i, d.1) ∧
    (s.served[k]? = some (d.1, d.2.got) ∨ s.served.length ≤ k ∧ d.2.got = (fun _ => []) ∧
      ∀ reply, Answers files shell d.1 reply → reply = fun _ => [])
  /-- A read that has returned has received as many bytes as it asked for. -/
  segment : ∀ filename offset len call, (Request.read filename offset len, call) ∈ s.finished →
    call.got .tcp = [] ∧ (call.got .udt).length = len
  /-- What a running call has received begins the reply to its own request. -/
  receiving : ∀ i c m, s.traffic.threads.running i = some c → (s.calls i).got m ≠ [] →
    ∃ k reply, (s.calls i).number = some k ∧ s.traffic.issued[k]? = some (i, c.request) ∧
      s.served[k]? = some (c.request, reply) ∧ (s.calls i).got m <+: reply m
  /-- The bytes on a stream are what the holder of its mutex is still owed. -/
  owed : ∀ m, s.out m ≠ [] → ∃ i c k reply, s.traffic.threads.holder m = some i ∧
    s.traffic.threads.running i = some c ∧ (s.calls i).number = some k ∧
    s.served[k]? = some (c.request, reply) ∧ reply m = (s.calls i).got m ++ s.out m
  /-- As long as a callback is running, a thread or the server can take a step. -/
  progress : ∀ i, s.traffic.threads.running i ≠ none → s.Enabled files stale shell

/-- A call that has bytes received or ready has been served. -/
theorem Net.Inv.served_of_bytes (h : s.Inv files stale shell) {i : ℕ} {c : Running} {m : Mutex}
    (hrun : s.traffic.threads.running i = some c)
    (hbytes : (s.calls i).got m ≠ [] ∨ s.left i m ≠ []) :
    ∃ k reply, (s.calls i).number = some k ∧ s.traffic.issued[k]? = some (i, c.request) ∧
      s.served[k]? = some (c.request, reply) ∧ reply m = (s.calls i).got m ++ s.left i m := by
  have hmatched := h.matched i c hrun
  have howed := hmatched.owed
  cases hreply : s.reply i with
  | none =>
    rw [hreply] at howed
    cases hbytes with
    | inl hgot => exact absurd (congrFun howed.1 m) hgot
    | inr hleft => exact absurd (congrFun howed.2.1 m) hleft
  | some reply =>
    rw [hreply] at howed
    obtain ⟨k, hnumber, hserved⟩ := Option.bind_eq_some_iff.mp hreply
    obtain ⟨x, hx, rfl⟩ := Option.map_eq_some_iff.mp hserved
    have hissued := hmatched.numbered k hnumber
    have hrequest : x.1 = c.request := h.served_request hx hissued
    exact ⟨k, x.2, hnumber, hissued, by rw [hx, ← hrequest], howed.1 m⟩

/-- In every reachable state, whatever the order of the steps, replies reach exactly the callbacks
that asked for them, and some step can be taken. -/
theorem replies_match {labels : List Label}
    (h : Run (Net.Step files stale shell) .idle labels s) : s.RepliesMatch files stale shell := by
  have hinv := Net.inv_run h
  refine ⟨hinv.answered, hinv.finished, ?_, ?_, ?_, ?_⟩
  · intro filename offset len call hcall
    obtain ⟨k, i, hnumber, hissued, hgot⟩ := hinv.finished _ hcall
    have hmem := List.mem_of_getElem? hissued
    have hcarried := hinv.traffic.issued _ hmem
    cases hgot with
    | inl hserved => exact (hinv.answered _ (List.mem_of_getElem? hserved)).segment hcarried
    | inr hempty =>
      obtain ⟨-, hgot, hempty⟩ := hempty
      obtain ⟨hguarded, hserves⟩ := hinv.issued _ hmem
      obtain ⟨answer, hanswer⟩ := (hserves 0).act shell hguarded
      have hreply : Answers files shell _ answer.reply := ⟨0, answer, hanswer, rfl⟩
      rw [show call.got = answer.reply from hgot.trans (hempty _ hreply).symm]
      exact hreply.segment hcarried
  · intro i c m hrun hgot
    obtain ⟨k, reply, hnumber, hissued, hserved, hreply⟩ := hinv.served_of_bytes hrun (.inl hgot)
    exact ⟨k, reply, hnumber, hissued, hserved, hreply ▸ List.prefix_append _ _⟩
  · intro m hout
    cases hholder : s.traffic.threads.holder m with
    | none => exact absurd (hinv.free m hholder) hout
    | some i =>
      obtain ⟨c, hrun, hheld⟩ := hinv.traffic.threads.holder_running hholder
      have hleft : s.left i m = s.out m := if_pos hheld
      obtain ⟨k, reply, hnumber, -, hserved, hreply⟩ :=
        hinv.served_of_bytes hrun (.inr (hleft ▸ hout))
      rw [hleft] at hreply
      exact ⟨i, c, k, reply, rfl, hrun, hnumber, hserved, hreply⟩
  · intro i hrunning
    obtain ⟨c, hrun⟩ := Option.ne_none_iff_exists'.mp hrunning
    exact hinv.progress hrun

end

/-- The files of a server with one file of one byte. -/
def oneFile (_ : ℕ) : ServerFs := .ofFiles [(ascii "a", .plain [104])]

/-- One thread reads two bytes of that file; before it receives them another asks for the attributes
of a file that does not exist, and is done first. -/
theorem replies_match_two :
    ∃ labels s, Run (Net.Step oneFile (fun _ => []) fun _ fs => fs) .idle labels s ∧
      s.finished.map (fun d => (d.1, d.2.got .tcp, d.2.got .udt)) =
        [(.getattr (ascii "b"), frames [reservedStrTerm], []),
          (.read (ascii "a") 0 2, [], [104, 0])] ∧
      s.RepliesMatch oneFile (fun _ => []) fun _ fs => fs := by
  have hfile : (oneFile 0).fopenRead (ascii "a") = some [104] := by decide
  have hread : Servable oneFile (.read (ascii "a") 0 2) := ⟨rfl, fun _ => ⟨[104], hfile⟩⟩
  have hattr : Servable oneFile (.getattr (ascii "b")) := ⟨rfl, fun _ => trivial⟩
  have hstart (r q : Request) (hr : Servable oneFile r) (h : Event.start r = .start q) :
      Servable oneFile q := Event.start.inj h ▸ hr
  have hrun : Run (Net.Step oneFile (fun _ => []) fun _ fs => fs) .idle [] .idle := .nil _
  have hrun := hrun.snoc (.quiet (.start 0 (.read (ascii "a") 0 2) rfl
    ⟨⟨by decide, by decide⟩, by decide, by decide⟩) rfl fun q => hstart _ q hread)
  have hrun := hrun.snoc (.quiet (.start 1 (.getattr (ascii "b")) rfl ⟨by decide, by decide⟩) rfl
    fun q => hstart _ q hattr)
  have hrun := hrun.snoc
    (.quiet (.act 0 (.lock .tcp) rfl (.lock _ _) (fun _ h => Action.lock.inj h ▸ rfl)
    trivial) rfl nofun)
  have hrun := hrun.snoc
    (.quiet (.act 0 (.send (ascii "read") true) rfl (.send _ _ true) nofun rfl) rfl nofun)
  have hrun := hrun.snoc
    (.quiet (.act 0 (.lock .udt) rfl (.lock _ _) (fun _ h => Action.lock.inj h ▸ rfl)
    trivial) rfl nofun)
  have hrun := hrun.snoc
    (.quiet (.act 0 (.send (ascii "a") true) rfl (.send _ _ true) nofun rfl) rfl nofun)
  have hrun := hrun.snoc
    (.quiet (.act 0 (.send (ascii "0") true) rfl (.send _ _ true) nofun rfl) rfl nofun)
  have hrun := hrun.snoc
    (.quiet (.act 0 (.send (ascii "2") true) rfl (.send _ _ true) nofun rfl) rfl nofun)
  have hrun := hrun.snoc (.quiet (.act 0 (.unlock .tcp) rfl (.unlock _ _) nofun trivial) rfl nofun)
  have hrun := hrun.snoc
    (.quiet (.act 1 (.lock .tcp) rfl (.lock _ _) (fun _ h => Action.lock.inj h ▸ rfl)
    trivial) rfl nofun)
  have hrun := hrun.snoc
    (.quiet (.act 1 (.send (ascii "getattr") true) rfl (.send _ _ true) nofun rfl) rfl nofun)
  have hrun := hrun.snoc
    (.quiet (.act 1 (.send (ascii "b") true) rfl (.send _ _ true) nofun rfl) rfl nofun)
  have hrun := hrun.snoc (.serve (r := .read (ascii "a") 0 2) rfl rfl)
  have hrun := hrun.snoc (.serve (r := .getattr (ascii "b")) rfl rfl)
  have hrun := hrun.snoc (.receive (.act 1 (.recvStr 127 9 reservedStrTerm) rfl (.recvStr _ _ _ _)
    nofun trivial) rfl rfl)
  have hrun := hrun.snoc (.quiet (.act 1 (.unlock .tcp) rfl (.unlock _ _) nofun trivial) rfl nofun)
  have hrun := hrun.snoc
    (.receive (.act 0 (.recvSegment 2) rfl (.recvSegment _ 2 _ (by decide) le_rfl)
    nofun trivial) rfl rfl)
  have hrun := hrun.snoc (.quiet (.act 0 .segmentDone rfl (.segmentDone _) nofun trivial) rfl nofun)
  have hrun := hrun.snoc (.quiet (.act 0 (.unlock .udt) rfl (.unlock _ _) nofun trivial) rfl nofun)
  have hrun := hrun.snoc (.quiet (.mk (.finish (i := 1) rfl) trivial nofun) rfl nofun)
  have hrun := hrun.snoc (.quiet (.mk (.finish (i := 0) rfl) trivial nofun) rfl nofun)
  exact ⟨_, _, hrun, rfl, replies_match hrun⟩

end Udtfs

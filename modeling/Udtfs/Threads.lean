import Udtfs.Callbacks

/-!
# Threads

Any number of threads run callbacks, one after the other on each thread, and their steps interleave
in any order. A mutex that is held makes a thread wait that wants to take it; giving one up never
waits.
-/

namespace Udtfs

/-- A callback in progress. -/
structure Running where
  request : Request
  prog : Prog

/-- The threads of the client and the holders of its mutexes. -/
structure Threads where
  running : ℕ → Option Running
  holder : Mutex → Option ℕ

/-- No callback is in progress. -/
def Threads.idle : Threads := ⟨fun _ => none, fun _ => none⟩

/-- What a thread does next. -/
inductive Event where
  /-- The file system calls the callback of a request. -/
  | start (r : Request)
  | act (a : Action)
  /-- The callback returns. -/
  | finish (value : ℤ)

/-- No send of the step reports an error. -/
def Event.Succeeds : Event → Prop
  | .act a => a.Succeeds
  | .start _ | .finish _ => True

/-- The strings that an event puts on the stream. -/
def Event.sent : Event → List Bytes
  | .act a => a.sent
  | .start _ | .finish _ => []

/-- The holders after a step of a thread. The mutexes do not check who gives them up. -/
def Action.holder (i : ℕ) (holder : Mutex → Option ℕ) : Action → Mutex → Option ℕ
  | .lock m => Function.update holder m (some i)
  | .unlock m => Function.update holder m none
  | _ => holder

/-- A step of one thread. -/
inductive Threads.Step : Threads → ℕ × Event → Threads → Prop
  | start {s : Threads} {i : ℕ} {r : Request} (hidle : s.running i = none) :
      Step s (i, .start r) ⟨Function.update s.running i (some ⟨r, r.callback⟩), s.holder⟩
  | act {s : Threads} {i : ℕ} {r : Request} {p q : Prog} {a : Action}
      (hrun : s.running i = some ⟨r, p⟩) (hstep : p.Step a q)
      (hfree : ∀ m, a = .lock m → s.holder m = none) :
      Step s (i, .act a) ⟨Function.update s.running i (some ⟨r, q⟩), a.holder i s.holder⟩
  | finish {s : Threads} {i : ℕ} {r : Request} {value : ℤ}
      (hrun : s.running i = some ⟨r, .ret value⟩) :
      Step s (i, .finish value) ⟨Function.update s.running i none, s.holder⟩

/-- A callback starts on a thread that runs none. -/
theorem Threads.Step.started {s t : Threads} {i : ℕ} {r : Request}
    (h : Threads.Step s (i, .start r) t) :
    s.running i = none ∧ t.running i = some ⟨r, r.callback⟩ ∧ t.holder = s.holder := by
  cases h with
  | start hidle => exact ⟨hidle, Function.update_self i _ s.running, rfl⟩

/-- A step of a callback is one of its program, which waits for a mutex that is held. -/
theorem Threads.Step.acted {s t : Threads} {i : ℕ} {a : Action} (h : Threads.Step s (i, .act a) t) :
    ∃ r p q, s.running i = some ⟨r, p⟩ ∧ t.running i = some ⟨r, q⟩ ∧ p.Step a q ∧
      (∀ m, a = .lock m → s.holder m = none) ∧ t.holder = a.holder i s.holder := by
  cases h with
  | act hrun hstep hfree =>
    exact ⟨_, _, _, hrun, Function.update_self i _ s.running, hstep, hfree, rfl⟩

/-- A callback returns at the end of its program. -/
theorem Threads.Step.returned {s t : Threads} {i : ℕ} {value : ℤ}
    (h : Threads.Step s (i, .finish value) t) :
    ∃ r, s.running i = some ⟨r, .ret value⟩ ∧ t.running i = none ∧ t.holder = s.holder := by
  cases h with
  | finish hrun => exact ⟨_, hrun, Function.update_self i _ s.running, rfl⟩

/-- A callback keeps the request it was started with. -/
theorem Threads.Step.request {s t : Threads} {i : ℕ} {e : Event} (h : Threads.Step s (i, e) t)
    {c : Running} (hc : t.running i = some c) :
    e = .start c.request ∨ ∃ p, s.running i = some ⟨c.request, p⟩ := by
  cases h with
  | start hidle =>
    obtain rfl := Option.some.inj ((Function.update_self i _ s.running).symm.trans hc)
    exact .inl rfl
  | act hrun hstep hfree =>
    obtain rfl := Option.some.inj ((Function.update_self i _ s.running).symm.trans hc)
    exact .inr ⟨_, hrun⟩
  | finish hrun => simp at hc

/-- The mutexes of a thread. -/
def Threads.holds (s : Threads) (i : ℕ) (m : Mutex) : Bool := s.holder m = some i

/-- A step leaves the callbacks of the other threads as they are. -/
theorem Threads.Step.running_other {s t : Threads} {i j : ℕ} {e : Event}
    (h : Threads.Step s (i, e) t) (hj : j ≠ i) : t.running j = s.running j := by
  cases h with
  | start | act | finish => exact Function.update_of_ne hj _ _

/-- A thread gets and loses the mutexes that its own steps name. -/
theorem Threads.holds_self {s t : Threads} {i : ℕ} {a : Action}
    (h : t.holder = a.holder i s.holder) : t.holds i = a.held (s.holds i) := by
  funext m
  rw [holds, h]
  cases a with
  | lock m' | unlock m' =>
    by_cases hm : m = m'
    · simp [Action.holder, Action.held, hm]
    · simp [holds, Action.holder, Action.held, hm]
  | _ => rfl

/-- The mutexes of the other threads stay theirs when a thread only takes free mutexes and only
gives up its own. -/
theorem Threads.holds_other (running : ℕ → Option Running) (holder : Mutex → Option ℕ) {i j : ℕ}
    (hj : j ≠ i) {a : Action} (hfree : ∀ m, a = .lock m → holder m = none)
    (hown : ∀ m, a = .unlock m → holder m = some i) :
    Threads.holds ⟨running, a.holder i holder⟩ j = fun m => decide (holder m = some j) := by
  funext m
  cases a with
  | lock m' =>
    by_cases hm : m = m'
    · simp [holds, Action.holder, hm, hfree m' rfl, hj.symm]
    · simp [holds, Action.holder, hm]
  | unlock m' =>
    by_cases hm : m = m'
    · simp [holds, Action.holder, hm, hown m' rfl, hj.symm]
    · simp [holds, Action.holder, hm]
  | _ => rfl

/-- The strings of a request that are sent, while some but not all of them are. -/
def Request.pending (r : Request) (sends : List Bytes) : List Bytes :=
  if sends = [] then [] else r.strings.take (r.strings.length - sends.length)

/-- The same for the request of a thread. -/
def Threads.pending (s : Threads) (i : ℕ) : List Bytes :=
  match s.running i with
  | none => []
  | some c => c.request.pending c.prog.sends

/-- Before the last send, the strings sent and those left make up the request. -/
theorem Request.pending_of_append {r : Request} {sent sends : List Bytes}
    (h : r.strings = sent ++ sends) (hsends : sends ≠ []) : r.pending sends = sent := by
  rw [pending, if_neg hsends, h, List.length_append, Nat.add_sub_cancel, List.take_left]

/-- Nothing is pending before the first send. -/
theorem Request.pending_strings (r : Request) : r.pending r.strings = [] := by
  rw [pending, Nat.sub_self, List.take_zero, ite_self]

/-- Pending strings are followed by strings left to send. -/
theorem Request.append_of_pending {r : Request} {sends : List Bytes}
    (hsuffix : sends <:+ r.strings) (h : r.pending sends ≠ []) :
    r.strings = r.pending sends ++ sends ∧ sends ≠ [] := by
  have hsends : sends ≠ [] := by
    rintro rfl
    exact h rfl
  obtain ⟨sent, happend⟩ := hsuffix
  rw [pending_of_append happend.symm hsends]
  exact ⟨happend.symm, hsends⟩

/-- A callback in progress follows its discipline, holding these mutexes. -/
structure Running.Disciplined (c : Running) (held : Mutex → Bool) : Prop where
  suffix : c.prog.sends <:+ c.request.strings
  /-- A callback that waits for a reply holds the mutex from its first send to its last. -/
  guarded : c.request.guarded = true →
    c.prog.WellLocked held ∧ (c.request.pending c.prog.sends ≠ [] → held .tcp = true)
  unguarded : c.request.guarded = false → c.prog.OnlySends ∧ held = fun _ => false

/-- Every callback starts disciplined. -/
theorem Request.disciplined_callback (r : Request) :
    Running.Disciplined ⟨r, r.callback⟩ fun _ => false where
  suffix := by rw [sends_callback]
  guarded := by
    intro h
    refine ⟨wellLocked_callback h, ?_⟩
    rw [sends_callback, pending_strings]
    exact fun hpending => absurd rfl hpending
  unguarded := fun h => ⟨onlySends_callback h, rfl⟩

section
variable {r : Request} {p q : Prog} {a : Action} {held : Mutex → Bool}

/-- A successful step sends the next string or leaves them as they are. -/
theorem Running.Disciplined.sends (h : Running.Disciplined ⟨r, p⟩ held) (hstep : p.Step a q)
    (hok : a.Succeeds) : p.sends = a.sent ++ q.sends := by
  cases hr : r.guarded with
  | true => exact (h.guarded hr).1.sends hstep hok
  | false =>
    obtain ⟨s, rfl, hsends, -⟩ := (h.unguarded hr).1.step hstep hok
    exact hsends

/-- Only held mutexes are given up. -/
theorem Running.Disciplined.unlocks (h : Running.Disciplined ⟨r, p⟩ held) (hstep : p.Step a q)
    (hok : a.Succeeds) {m : Mutex} (hm : a = .unlock m) : held m = true := by
  cases hr : r.guarded with
  | true =>
    have hpermitted := (h.guarded hr).1.permitted hstep
    rw [hm] at hpermitted
    exact hpermitted.1
  | false =>
    obtain ⟨s, hsend, -⟩ := (h.unguarded hr).1.step hstep hok
    rw [hm] at hsend
    contradiction

/-- A successful step keeps the discipline. -/
theorem Running.Disciplined.step (h : Running.Disciplined ⟨r, p⟩ held) (hstep : p.Step a q)
    (hok : a.Succeeds) : Running.Disciplined ⟨r, q⟩ (a.held held) where
  suffix := by
    have hsuffix := h.suffix
    rw [show (Running.mk r p).prog.sends = a.sent ++ q.sends from h.sends hstep hok] at hsuffix
    exact (List.suffix_append _ _).trans hsuffix
  guarded := by
    intro hr
    obtain ⟨hlocked, htcp⟩ := h.guarded hr
    have hpermitted := hlocked.permitted hstep
    have hsends := h.sends hstep hok
    refine ⟨hlocked.step hstep, ?_⟩
    intro hpending
    have hne : q.sends ≠ [] := by
      intro hnil
      simp only [hnil] at hpending
      exact hpending rfl
    cases a with
    | send => exact hpermitted
    | lock m =>
      have hsame : p.sends = q.sends := hsends
      have hheld : held .tcp = true := htcp (by rwa [hsame])
      by_cases hm : Mutex.tcp = m
      · simp [Action.held, ← hm]
      · simpa [Action.held, hm] using hheld
    | unlock => exact absurd (hsends.symm.trans hpermitted.2) hne
    | recvStr | direntry => exact absurd (hsends.symm.trans hpermitted.2) hne
    | recvSegment | segmentDone | segmentError => exact absurd (hsends.symm.trans hpermitted.2) hne
  unguarded := by
    intro hr
    obtain ⟨honly, hheld⟩ := h.unguarded hr
    obtain ⟨s, rfl, -, hq⟩ := honly.step hstep hok
    exact ⟨hq, hheld⟩

end

/-- Every callback in progress is disciplined, and only callbacks in progress hold mutexes. -/
structure Threads.Inv (s : Threads) : Prop where
  disciplined : ∀ i c, s.running i = some c → c.Disciplined (s.holds i)
  idle : ∀ i, s.running i = none → s.holds i = fun _ => false

/-- While no callback is in progress, the invariant holds. -/
theorem Threads.inv_idle : Threads.idle.Inv where
  disciplined := nofun
  idle := fun _ _ => rfl

/-- What a step does to its own thread decides whether the discipline survives. -/
theorem Threads.Inv.of_self {s t : Threads} (h : s.Inv) {i : ℕ}
    (hrunning : ∀ j, j ≠ i → t.running j = s.running j)
    (hheld : ∀ j, j ≠ i → t.holds j = s.holds j)
    (hself : ∀ c, t.running i = some c → c.Disciplined (t.holds i))
    (hidle : t.running i = none → t.holds i = fun _ => false) : t.Inv where
  disciplined := by
    intro j c hc
    by_cases hj : j = i
    · rw [hj] at hc ⊢
      exact hself c hc
    · rw [hrunning j hj] at hc
      rw [hheld j hj]
      exact h.disciplined j c hc
  idle := by
    intro j hnone
    by_cases hj : j = i
    · rw [hj] at hnone ⊢
      exact hidle hnone
    · rw [hrunning j hj] at hnone
      rw [hheld j hj]
      exact h.idle j hnone

/-- A callback that returns holds nothing. -/
theorem Threads.Inv.holds_of_ret {s : Threads} (h : s.Inv) {i : ℕ} {r : Request} {value : ℤ}
    (hrun : s.running i = some ⟨r, .ret value⟩) : s.holds i = fun _ => false := by
  have hdisciplined := h.disciplined i _ hrun
  cases hr : r.guarded with
  | true => exact funext (hdisciplined.guarded hr).1
  | false => exact (hdisciplined.unguarded hr).2

/-- A step leaves the mutexes of the other threads as they are. -/
theorem Threads.Inv.holds_other {s t : Threads} {i j : ℕ} {e : Event} (h : s.Inv)
    (hstep : Threads.Step s (i, e) t) (hok : e.Succeeds) (hj : j ≠ i) : t.holds j = s.holds j := by
  cases hstep with
  | start | finish => rfl
  | act hrun hact hfree =>
    apply Threads.holds_other _ _ hj hfree
    intro m hm
    exact of_decide_eq_true ((h.disciplined i _ hrun).unlocks hact hok hm)

/-- As long as sends succeed, every step keeps the discipline. -/
theorem Threads.Inv.step {s t : Threads} {i : ℕ} {e : Event} (h : s.Inv)
    (hstep : Threads.Step s (i, e) t) (hok : e.Succeeds) : t.Inv := by
  apply h.of_self (fun j hj => hstep.running_other hj) (fun j hj => h.holds_other hstep hok hj)
  · intro c hc
    cases hstep with
    | start hidle =>
      obtain rfl := Option.some.inj ((Function.update_self i _ s.running).symm.trans hc)
      have hnone : s.holds i = fun _ => false := h.idle i hidle
      show Running.Disciplined _ (s.holds i)
      rw [hnone]
      exact Request.disciplined_callback _
    | act hrun hact hfree =>
      obtain rfl := Option.some.inj ((Function.update_self i _ s.running).symm.trans hc)
      rw [holds_self rfl]
      exact (h.disciplined i _ hrun).step hact hok
    | finish hrun => simp at hc
  · intro hnone
    cases hstep with
    | start hidle => simp at hnone
    | act hrun hact hfree => simp at hnone
    | finish hrun => exact h.holds_of_ret hrun

/-- A step leaves the pending strings of the other threads as they are. -/
theorem Threads.Step.pending_other {s t : Threads} {i j : ℕ} {e : Event}
    (h : Threads.Step s (i, e) t) (hj : j ≠ i) : t.pending j = s.pending j := by
  rw [pending, h.running_other hj, pending]

/-- Only a send changes what is pending. -/
theorem Threads.Inv.pending_quiet {s t : Threads} {i : ℕ} {e : Event} (h : s.Inv)
    (hstep : Threads.Step s (i, e) t) (hok : e.Succeeds) (hquiet : e.sent = []) (j : ℕ) :
    t.pending j = s.pending j := by
  by_cases hj : j = i
  · subst hj
    cases hstep with
    | @start _ r hidle =>
      simp only [pending, Function.update_self, hidle, r.sends_callback, r.pending_strings]
    | act hrun hact hfree =>
      have hsends := (h.disciplined j _ hrun).sends hact hok
      rw [show Action.sent _ = [] from hquiet, List.nil_append] at hsends
      simp only [pending, Function.update_self, hrun, hsends]
    | finish hrun =>
      simp only [pending, Function.update_self, hrun]
      rfl
  · exact hstep.pending_other hj

/-- A send follows what is pending of its request. -/
theorem Threads.Inv.pending_send {s t : Threads} {i : ℕ} {str : Bytes} {ok : Bool} (h : s.Inv)
    (hstep : Threads.Step s (i, .act (.send str ok)) t) (hok : ok = true) :
    ∃ r p q, s.running i = some ⟨r, p⟩ ∧ t.running i = some ⟨r, q⟩ ∧
      p.Step (.send str ok) q ∧ r.strings = s.pending i ++ str :: q.sends := by
  cases hstep with
  | @act _ r p q _ hrun hact hfree =>
    have hdisciplined := h.disciplined i _ hrun
    have hsends : p.sends = str :: q.sends := by
      have hsends := hdisciplined.sends hact hok
      rwa [hok] at hsends
    obtain ⟨sent, happend⟩ := hdisciplined.suffix
    rw [show (Running.mk r p).prog.sends = str :: q.sends from hsends] at happend
    refine ⟨r, p, q, hrun, Function.update_self i _ s.running, hact, ?_⟩
    have hpending : s.pending i = sent := by
      simp only [pending, hrun, hsends]
      exact Request.pending_of_append happend.symm (List.cons_ne_nil _ _)
    rw [hpending]
    exact happend.symm

end Udtfs

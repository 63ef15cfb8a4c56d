import Udtfs.Threads
import Udtfs.Lib.Run

/-!
# Requests of concurrent callbacks

All callbacks send on one TCP connection, each string of a request by a send of its own. Callbacks
that wait for a reply send under `_tcpmutex`, so their requests never overlap. The others take no
mutex: a string of any callback can fall between two strings of such a request, and the server then
decodes requests that nobody issued. The requests stay whole exactly as long as no such string
does.
-/

namespace Udtfs

open NulString Transition

/-- The request with the part of its payload that is sent. -/
def Request.onWire : Request → Request
  | .write path data size offset => .write path (cstr data) size offset
  | r => r

/-- The threads, the bytes sent on the TCP connection, and the requests that have been sent to
their last string, each with its thread. -/
structure Traffic where
  threads : Threads
  wire : Bytes
  issued : List (ℕ × Request)

/-- Nothing has happened yet. -/
def Traffic.idle : Traffic := ⟨.idle, [], []⟩

/-- The request of a thread that a send has completed. -/
def Event.issued (after : Threads) (i : ℕ) : Event → List (ℕ × Request)
  | .act (.send _ _) =>
    match after.running i with
    | some ⟨r, p⟩ => if p.sends = [] then [(i, r)] else []
    | none => []
  | _ => []

/-- A step of one thread, with every send succeeding and the arguments of every callback short
enough for the server. What the receives result in is left open. -/
inductive Traffic.Step : Traffic → ℕ × Event → Traffic → Prop
  | mk {s : Traffic} {i : ℕ} {e : Event} {threads : Threads}
      (hstep : Threads.Step s.threads (i, e) threads) (hok : e.Succeeds)
      (hshort : ∀ r, e = .start r → r.onWire.Carried) :
      Step s (i, e) ⟨threads, s.wire ++ frames e.sent, s.issued ++ e.issued threads i⟩

/-- A callback starts on an idle thread. -/
theorem Traffic.Step.start {s : Traffic} (i : ℕ) (r : Request) (hidle : s.threads.running i = none)
    (hshort : r.onWire.Carried) :
    Traffic.Step s (i, .start r)
      ⟨⟨Function.update s.threads.running i (some ⟨r, r.callback⟩), s.threads.holder⟩, s.wire ++ [],
        s.issued ++ []⟩ := by
  apply Traffic.Step.mk (.start hidle) trivial
  intro q hq
  obtain rfl := Event.start.inj hq
  exact hshort

/-- A callback takes a step of its program. -/
theorem Traffic.Step.act {s : Traffic} (i : ℕ) (a : Action) {r : Request} {p q : Prog}
    (hrun : s.threads.running i = some ⟨r, p⟩) (hstep : p.Step a q)
    (hfree : ∀ m, a = .lock m → s.threads.holder m = none) (hok : a.Succeeds) :
    Traffic.Step s (i, .act a)
      ⟨⟨Function.update s.threads.running i (some ⟨r, q⟩), a.holder i s.threads.holder⟩,
        s.wire ++ frames a.sent,
        s.issued ++ Event.issued ⟨Function.update s.threads.running i (some ⟨r, q⟩),
          a.holder i s.threads.holder⟩ i (.act a)⟩ :=
  .mk (.act hrun hstep hfree) hok nofun

/-- What a step of a thread does to the stream and to the issued requests. -/
theorem Traffic.Step.threads {s t : Traffic} {i : ℕ} {e : Event} (h : Traffic.Step s (i, e) t) :
    Threads.Step s.threads (i, e) t.threads ∧ e.Succeeds ∧ t.wire = s.wire ++ frames e.sent ∧
      t.issued = s.issued ++ e.issued t.threads i := by
  cases h with
  | mk hstep hok hshort => exact ⟨hstep, hok, rfl, rfl⟩

/-- The request of a pass through the command loop that called a handler with all its arguments. -/
def Served.request : Served → Option Request
  | .handled r => some r
  | .gaveUp _ | .ignored _ => none

/-- The requests that `client_handler` decodes from the bytes sent so far. -/
def decoded (stale : ℕ → Bytes) (wire : Bytes) : List Request :=
  (clientHandler stale ⟨wire, .closed⟩).served.filterMap Served.request

/-- The callback of a thread works under `_tcpmutex`. -/
def Threads.guarded (s : Threads) (i : ℕ) : Bool :=
  match s.running i with
  | some c => c.request.guarded
  | none => false

/-- The step sends nothing between two strings of another thread's request, unless both callbacks
work under `_tcpmutex`; and a payload that is to be written is sent whole. -/
def Traffic.Undisturbed (s : Traffic) : ℕ × Event → Prop
  | (i, .act (.send _ _)) =>
    ∀ j, j ≠ i → s.threads.pending j ≠ [] →
      s.threads.guarded i = true ∧ s.threads.guarded j = true
  | (_, .start r) => r.onWire = r
  | _ => True

/-- The stream holds the issued requests, one after the other, and then what one thread has sent of
its request. -/
structure Traffic.Inv (s : Traffic) : Prop where
  threads : s.threads.Inv
  carried : ∀ i c, s.threads.running i = some c → c.request.Carried
  issued : ∀ x ∈ s.issued, x.2.Carried
  stream : ∃ i, s.wire = s.issued.flatMap (fun x => x.2.wire) ++ frames (s.threads.pending i) ∧
    ∀ j, j ≠ i → s.threads.pending j = []

/-- Before anything is sent, nothing is mixed. -/
theorem Traffic.inv_idle : Traffic.idle.Inv where
  threads := Threads.inv_idle
  carried := nofun
  issued := nofun
  stream := ⟨0, rfl, fun _ _ => rfl⟩

/-- Two threads under `_tcpmutex` are not both in the middle of a request. -/
theorem Threads.Inv.pending_guarded {s : Threads} (h : s.Inv) {i j : ℕ}
    (hi : s.holds i .tcp = true) (hj : s.guarded j = true) (hpending : s.pending j ≠ []) :
    j = i := by
  unfold guarded at hj
  unfold pending at hpending
  cases hrun : s.running j with
  | none => simp [hrun] at hj
  | some c =>
    simp only [hrun] at hj hpending
    have htcp : s.holds j .tcp = true := ((h.disciplined j c hrun).guarded hj).2 hpending
    have hholder : some j = some i := (of_decide_eq_true htcp).symm.trans (of_decide_eq_true hi)
    exact Option.some.inj hholder

/-- While a thread sends undisturbed, nothing of another request is pending. -/
theorem Traffic.Inv.alone {s : Traffic} (h : s.Inv) {t : Threads} {i : ℕ} {str : Bytes} {ok : Bool}
    (hstep : Threads.Step s.threads (i, .act (.send str ok)) t) (hok : ok = true)
    (hcond : s.Undisturbed (i, .act (.send str ok))) {j : ℕ} (hj : j ≠ i) :
    s.threads.pending j = [] := by
  by_contra hpending
  obtain ⟨hi, hguarded⟩ := hcond j hj hpending
  obtain ⟨r, p, q, hrun, -, hact, -⟩ := h.threads.pending_send hstep hok
  have htcp : s.threads.holds i .tcp = true := by
    rw [Threads.guarded, hrun] at hi
    exact ((h.threads.disciplined i _ hrun).guarded hi).1.permitted hact
  exact hj (h.threads.pending_guarded htcp hguarded hpending)

/-- Every running callback still carries a request within the limits. -/
theorem Traffic.Inv.carried_step {s : Traffic} (h : s.Inv) {t : Threads} {i : ℕ} {e : Event}
    (hstep : Threads.Step s.threads (i, e) t) (hcond : s.Undisturbed (i, e))
    (hshort : ∀ r, e = .start r → r.onWire.Carried) :
    ∀ j c, t.running j = some c → c.request.Carried := by
  intro j c hc
  by_cases hj : j = i
  · subst hj
    cases hstep.request hc with
    | inl hstart =>
      have hwhole : c.request.onWire = c.request := by
        rw [hstart] at hcond
        exact hcond
      exact hwhole ▸ hshort c.request hstart
    | inr hrunning =>
      obtain ⟨p, hrun⟩ := hrunning
      exact h.carried j ⟨c.request, p⟩ hrun
  · rw [hstep.running_other hj] at hc
    exact h.carried j c hc

/-- A send completes a request of its own thread or none. -/
theorem Event.mem_issued {after : Threads} {i : ℕ} {e : Event} {x : ℕ × Request}
    (h : x ∈ e.issued after i) : ∃ p, after.running i = some ⟨x.2, p⟩ ∧ x.1 = i := by
  unfold issued at h
  split at h
  · split at h
    · next r p hrun =>
      split at h
      · obtain rfl := List.mem_singleton.mp h
        exact ⟨p, hrun, rfl⟩
      · simp at h
    · simp at h
  · simp at h

/-- A send extends what is pending, or completes it to an issued request. -/
theorem Traffic.Inv.stream_send {s : Traffic} (h : s.Inv) {t : Threads} {i : ℕ} {str : Bytes}
    (hstep : Threads.Step s.threads (i, .act (.send str true)) t)
    (hcond : s.Undisturbed (i, .act (.send str true))) :
    s.wire ++ frames [str] =
        (s.issued ++ Event.issued t i (.act (.send str true))).flatMap (fun x => x.2.wire) ++
          frames (t.pending i) ∧
      ∀ j, j ≠ i → t.pending j = [] := by
  obtain ⟨r, p, q, hrun, hrun', -, hstrings⟩ := h.threads.pending_send hstep rfl
  have halone : ∀ j, j ≠ i → s.threads.pending j = [] := fun j hj => h.alone hstep rfl hcond hj
  have hwire : s.wire = s.issued.flatMap (fun x => x.2.wire) ++ frames (s.threads.pending i) := by
    obtain ⟨k, hwire, hothers⟩ := h.stream
    by_cases hk : k = i
    · rwa [hk] at hwire
    · rwa [halone k hk, ← hothers i (Ne.symm hk)] at hwire
  refine ⟨?_, fun j hj => (hstep.pending_other hj).trans (halone j hj)⟩
  rw [hwire, List.append_assoc, ← frames_append, List.flatMap_append, List.append_assoc]
  congr 1
  by_cases hlast : q.sends = []
  · have hpending : t.pending i = [] := by
      simp only [Threads.pending, hrun', hlast]
      rfl
    rw [hlast] at hstrings
    simp only [Event.issued, hrun', hlast, if_true, hpending, frames_nil, List.append_nil,
      List.flatMap_cons, List.flatMap_nil, Request.wire, hstrings]
  · have hpending : t.pending i = s.threads.pending i ++ [str] := by
      simp only [Threads.pending, hrun']
      apply Request.pending_of_append _ hlast
      rw [hstrings, List.append_assoc]
      rfl
    simp only [Event.issued, hrun', hlast, if_false, hpending, List.flatMap_nil, List.nil_append]

/-- Every undisturbed step keeps the stream in order. -/
theorem Traffic.Inv.step {s t : Traffic} {x : ℕ × Event} (h : s.Inv)
    (hstep : Guarded Traffic.Undisturbed Traffic.Step s x t) : t.Inv := by
  obtain ⟨hcond, hstep⟩ := hstep
  cases hstep with
  | @mk i e threads hstep hok hshort =>
    have hcarried := h.carried_step hstep hcond hshort
    refine ⟨h.threads.step hstep hok, hcarried, ?_, ?_⟩
    · intro x hx
      cases List.mem_append.mp hx with
      | inl hold => exact h.issued x hold
      | inr hnew =>
        obtain ⟨p, hrun, -⟩ := Event.mem_issued hnew
        exact hcarried i _ hrun
    · by_cases hsend : ∃ str, e = .act (.send str true)
      · obtain ⟨str, rfl⟩ := hsend
        exact ⟨i, h.stream_send hstep hcond⟩
      · have hquiet : e.sent = [] ∧ e.issued threads i = [] := by
          cases e with
          | start | finish => exact ⟨rfl, rfl⟩
          | act a =>
            cases a with
            | send str ok =>
              obtain rfl : ok = true := hok
              exact absurd ⟨str, rfl⟩ hsend
            | _ => exact ⟨rfl, rfl⟩
        obtain ⟨k, hwire, hothers⟩ := h.stream
        have hpending := h.threads.pending_quiet hstep hok hquiet.1
        refine ⟨k, ?_, fun j hj => (hpending j).trans (hothers j hj)⟩
        dsimp only
        rw [hquiet.1, hquiet.2, frames_nil, List.append_nil, List.append_nil, hpending k, hwire]

/-- What one thread has sent of its request is not decoded. -/
theorem Traffic.Inv.decoded_pending {s : Traffic} (h : s.Inv) (stale : ℕ → Bytes) (i : ℕ) :
    decoded stale (frames (s.threads.pending i)) = [] := by
  by_cases hpending : s.threads.pending i = []
  · rw [hpending, frames_nil, decoded, clientHandler_nil]
    rfl
  · cases hrun : s.threads.running i with
    | none => simp [Threads.pending, hrun] at hpending
    | some c =>
      simp only [Threads.pending, hrun] at hpending ⊢
      obtain ⟨hsplit, hsends⟩ := Request.append_of_pending
        (h.threads.disciplined i c hrun).suffix hpending
      have hcut := (h.carried i c hrun).handle_cut stale hsplit hpending hsends
      rw [decoded, clientHandler_some stale hcut, clientHandler_nil]
      rfl

/-- From a stream in order exactly the issued requests are decoded. -/
theorem Traffic.Inv.decoded {s : Traffic} (h : s.Inv) (stale : ℕ → Bytes) :
    decoded stale s.wire = s.issued.map Prod.snd := by
  obtain ⟨i, hwire, -⟩ := h.stream
  have hcarried : ∀ r ∈ s.issued.map Prod.snd, r.Carried := by
    intro r hr
    obtain ⟨x, hx, rfl⟩ := List.mem_map.mp hr
    exact h.issued x hx
  have hrequests := clientHandler_requests stale _ hcarried (frames (s.threads.pending i)) .closed
  rw [List.flatMap_map] at hrequests
  have hpending := h.decoded_pending stale i
  rw [Udtfs.decoded] at hpending
  rw [hwire, Udtfs.decoded, hrequests]
  simp only [List.filterMap_append, hpending, List.append_nil]
  rw [List.filterMap_map]
  exact List.filterMap_some

/-- Along a run of undisturbed steps the stream stays in order. -/
theorem Traffic.inv_run {events : List (ℕ × Event)} {t : Traffic}
    (h : Run (Guarded Traffic.Undisturbed Traffic.Step) .idle events t) : t.Inv :=
  h.invariant (fun _ _ _ hs hstep => hs.step hstep) Traffic.inv_idle

/-- As long as no string is sent into the middle of another thread's request, save under
`_tcpmutex`, and no payload is cut, the decoded requests are the issued ones: whole, with exactly
their arguments, each once, and in the order in which they were completed. -/
theorem requests_unmixed (stale : ℕ → Bytes) {events : List (ℕ × Event)} {t : Traffic}
    (h : Run (Guarded Traffic.Undisturbed Traffic.Step) .idle events t) :
    decoded stale t.wire = t.issued.map Prod.snd :=
  (Traffic.inv_run h).decoded stale

/-- One thread removes a file while another waits for the attributes of a second file. -/
theorem requests_unmixed_two :
    ∃ t, Run (Guarded Traffic.Undisturbed Traffic.Step) .idle
        [(0, .start (.unlink (ascii "a"))), (1, .start (.getattr (ascii "b"))),
          (0, .act (.send (ascii "unlink") true)), (1, .act (.lock .tcp)),
          (0, .act (.send (ascii "a") true)), (1, .act (.send (ascii "getattr") true)),
          (1, .act (.send (ascii "b") true))] t ∧
      decoded (fun _ => ascii "old") t.wire = [.unlink (ascii "a"), .getattr (ascii "b")] := by
  have hnil : Run (Guarded Traffic.Undisturbed Traffic.Step) .idle [] .idle := .nil _
  have hrun := hnil.snoc
    (Guarded.intro (Traffic.Step.start 0 (.unlink (ascii "a")) rfl ⟨by decide, by decide⟩) rfl)
  have hrun := hrun.snoc
    (Guarded.intro (Traffic.Step.start 1 (.getattr (ascii "b")) rfl ⟨by decide, by decide⟩) rfl)
  have hrun := hrun.snoc
    (Guarded.intro (Traffic.Step.act 0 (.send (ascii "unlink") true) rfl (.send _ _ true) nofun rfl)
    fun j hj hp => absurd (match j with | 0 => absurd rfl hj | 1 => rfl | j + 2 => rfl) hp)
  have hrun := hrun.snoc
    (Guarded.intro (Traffic.Step.act 1 (.lock .tcp) rfl (.lock _ _) (fun _ _ => rfl) trivial)
      trivial)
  have hrun := hrun.snoc
    (Guarded.intro (Traffic.Step.act 0 (.send (ascii "a") true) rfl (.send _ _ true) nofun rfl)
    fun j hj hp => absurd (match j with | 0 => absurd rfl hj | 1 => rfl | j + 2 => rfl) hp)
  have hrun := hrun.snoc
    (Guarded.intro (Traffic.Step.act 1 (.send (ascii "getattr") true) rfl (.send _ _ true) nofun
      rfl)
    fun j hj hp => absurd (match j with | 0 => rfl | 1 => absurd rfl hj | j + 2 => rfl) hp)
  have hrun := hrun.snoc
    (Guarded.intro (Traffic.Step.act 1 (.send (ascii "b") true) rfl (.send _ _ true) nofun rfl)
    fun j hj hp => absurd (match j with | 0 => rfl | 1 => absurd rfl hj | j + 2 => rfl) hp)
  exact ⟨_, hrun, requests_unmixed _ hrun⟩

/-- Two callbacks that send by turns: the server removes a file that neither of them named. -/
theorem requests_mixed :
    ¬ ∀ (stale : ℕ → Bytes) (events : List (ℕ × Event)) (t : Traffic),
      Run Traffic.Step .idle events t → decoded stale t.wire = t.issued.map Prod.snd := by
  intro hwhole
  have hrun := (Run.nil Traffic.idle).snoc
    (Traffic.Step.start 0 (.unlink (ascii "a")) rfl ⟨by decide, by decide⟩)
  have hrun := hrun.snoc (Traffic.Step.start 1 (.unlink (ascii "b")) rfl ⟨by decide, by decide⟩)
  have hrun := hrun.snoc
    (Traffic.Step.act 0 (.send (ascii "unlink") true) rfl (.send _ _ true) nofun rfl)
  have hrun := hrun.snoc
    (Traffic.Step.act 1 (.send (ascii "unlink") true) rfl (.send _ _ true) nofun rfl)
  have hrun := hrun.snoc
    (Traffic.Step.act 0 (.send (ascii "a") true) rfl (.send _ _ true) nofun rfl)
  have hrun := hrun.snoc
    (Traffic.Step.act 1 (.send (ascii "b") true) rfl (.send _ _ true) nofun rfl)
  have hdecoded : decoded (fun _ => []) ((Request.unlink (ascii "unlink")).wire ++
      frames [ascii "a", ascii "b"]) = [.unlink (ascii "a"), .unlink (ascii "b")] :=
    hwhole _ _ _ hrun
  have hfirst : (Request.unlink (ascii "unlink")).Carried := ⟨by decide, by decide⟩
  rw [decoded, clientHandler_some _ (hfirst.handle _ _ _)] at hdecoded
  exact absurd (List.cons.inj hdecoded).1 (by decide)

end Udtfs

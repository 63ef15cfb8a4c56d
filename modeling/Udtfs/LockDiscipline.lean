import Udtfs.Threads
import Udtfs.Lib.Run

/-!
# Who holds the mutexes

The mutexes do not check who unlocks them. A callback that waits for a reply keeps to its own locks
on every path, whatever its sends and receives result in. A callback that expects no reply takes no
mutex, but when its command cannot be sent it unlocks `_tcpmutex` all the same, and with it the
section of whichever callback holds that mutex.
-/

namespace Udtfs

open NulString Transition

/-- The threads, and for each the mutexes that its callback has locked and not unlocked since. -/
structure Watched where
  threads : Threads
  locked : ℕ → Mutex → Bool

/-- No callback is in progress and none has locked anything. -/
def Watched.idle : Watched := ⟨Threads.idle, fun _ _ => false⟩

/-- What an event of a thread does to its own locks. -/
def Event.locked (held : Mutex → Bool) : Event → Mutex → Bool
  | .start _ => fun _ => false
  | .act a => a.held held
  | .finish _ => held

/-- A step of one thread, with any outcome of its sends and receives. -/
def Watched.Step (s : Watched) (e : ℕ × Event) (t : Watched) : Prop :=
  Threads.Step s.threads e t.threads ∧
    t.locked = Function.update s.locked e.1 (e.2.locked (s.locked e.1))

/-- The discipline: callbacks unlock what they hold, return without a mutex, and are alone in the
sections of `_tcpmutex`. -/
structure Watched.Disciplined (s : Watched) : Prop where
  unlocks : ∀ i r m next, s.threads.running i = some ⟨r, .unlock m next⟩ →
    s.threads.holds i m = true ∧ s.locked i m = true
  returns : ∀ i r value, s.threads.running i = some ⟨r, .ret value⟩ →
    ∀ m, s.threads.holds i m = false ∧ s.locked i m = false
  sections : ∀ i j, s.locked i .tcp = true → s.locked j .tcp = true → i = j

/-- The step is no failed `send_cmd` of a callback that takes no mutex. -/
def Watched.SendsCommand (s : Watched) (e : ℕ × Event) : Prop :=
  ∀ c, s.threads.running e.1 = some c → c.request.guarded = false →
    c.prog = c.request.callback → ∀ str, e.2 ≠ .act (.send str false)

/-- The callbacks that take no mutex have one shape. -/
theorem Request.callback_unguarded {r : Request} (h : r.guarded = false) :
    ∃ c arguments value, r.callback = Prog.unguarded c arguments value := by
  cases r with
  | dir | getattr | read => contradiction
  | truncate | write | rename | unlink | utime => exact ⟨_, _, _, rfl⟩

/-- A callback in progress, holding these mutexes: it locks and unlocks in order, or it locks
nothing and is about to send its command or behind it. -/
structure Running.Ordered (c : Running) (held : Mutex → Bool) : Prop where
  guarded : c.request.guarded = true → c.prog.WellLocked held
  unguarded : c.request.guarded = false → (held = fun _ => false) ∧
    (c.prog = c.request.callback ∨ ∃ strings value, c.prog = .sendAll strings (.ret value))

/-- Every callback starts in order. -/
theorem Request.ordered_callback (r : Request) : Running.Ordered ⟨r, r.callback⟩ fun _ => false where
  guarded := wellLocked_callback
  unguarded := fun _ => ⟨rfl, .inl rfl⟩

section
variable {r : Request} {p q : Prog} {a : Action} {held : Mutex → Bool}

/-- Only held mutexes are unlocked. -/
theorem Running.Ordered.unlocks {m : Mutex} {next : Prog} (h : Running.Ordered ⟨r, .unlock m next⟩ held) :
    held m = true := by
  cases hr : r.guarded with
  | true => exact (h.guarded hr).1
  | false =>
    obtain ⟨-, hstart | ⟨strings, value, hsends⟩⟩ := h.unguarded hr
    · obtain ⟨c, arguments, value, hcallback⟩ := r.callback_unguarded hr
      dsimp only at hstart
      rw [hcallback] at hstart
      contradiction
    · cases strings <;> contradiction

/-- At its end a callback holds nothing. -/
theorem Running.Ordered.returns {value : ℤ} (h : Running.Ordered ⟨r, .ret value⟩ held) :
    held = fun _ => false := by
  cases hr : r.guarded with
  | true => exact funext (h.guarded hr)
  | false => exact (h.unguarded hr).1

/-- A step keeps the order unless it is the failed send of a command without a mutex. -/
theorem Running.Ordered.step (h : Running.Ordered ⟨r, p⟩ held) (hstep : p.Step a q)
    (hsent : r.guarded = false → p = r.callback → ∀ str, a ≠ .send str false) :
    Running.Ordered ⟨r, q⟩ (a.held held) where
  guarded hr := (h.guarded hr).step hstep
  unguarded hr := by
    obtain ⟨hheld, hstart | ⟨strings, value, hsends⟩⟩ := h.unguarded hr
    · have hfails := hsent hr hstart
      obtain ⟨c, arguments, value, hcallback⟩ := r.callback_unguarded hr
      dsimp only at hstart
      rw [hstart, hcallback] at hstep
      cases hstep with
      | send s next ok =>
        cases ok with
        | false => exact absurd rfl (hfails _)
        | true => exact ⟨hheld, .inr ⟨arguments, value, rfl⟩⟩
    · dsimp only at hsends
      rw [hsends] at hstep
      cases strings with
      | nil => cases hstep
      | cons s strings =>
        cases hstep
        exact ⟨hheld, .inr ⟨strings, value, rfl⟩⟩

end

/-- Every callback in progress is in order, only callbacks in progress hold mutexes, and what a
callback has locked is what it holds. -/
structure Watched.Inv (s : Watched) : Prop where
  ordered : ∀ i c, s.threads.running i = some c → c.Ordered (s.threads.holds i)
  idle : ∀ i, s.threads.running i = none → s.threads.holds i = fun _ => false
  locked : ∀ i, s.locked i = s.threads.holds i

/-- While no callback is in progress, everything is in order. -/
theorem Watched.inv_idle : Watched.idle.Inv where
  ordered := nofun
  idle := fun _ _ => rfl
  locked := fun _ => rfl

/-- Ordered callbacks are disciplined. -/
theorem Watched.Inv.disciplined {s : Watched} (h : s.Inv) : s.Disciplined where
  unlocks i r m next hrun := by
    have hholds := (h.ordered i _ hrun).unlocks
    exact ⟨hholds, by rw [h.locked, hholds]⟩
  returns i r value hrun m := by
    have hholds := congrFun (h.ordered i _ hrun).returns m
    exact ⟨hholds, by rw [h.locked, hholds]⟩
  sections i j hi hj := by
    rw [h.locked, Threads.holds, decide_eq_true_eq] at hi hj
    exact Option.some.inj (hi.symm.trans hj)

/-- The locks of a thread are changed by its own events only, and as its mutexes are. -/
theorem Watched.Step.locked {s t : Watched} {i : ℕ} {e : Event} (h : Watched.Step s (i, e) t) (j : ℕ) :
    t.locked j = if j = i then e.locked (s.locked i) else s.locked j := by
  rw [h.2]
  by_cases hj : j = i
  · rw [if_pos hj, hj, Function.update_self]
  · rw [if_neg hj, Function.update_of_ne hj]

/-- A step leaves the mutexes of the other threads as they are. -/
theorem Watched.Inv.holds_other {s t : Watched} {i j : ℕ} {e : Event} (h : s.Inv)
    (hstep : Watched.Step s (i, e) t) (hj : j ≠ i) : t.threads.holds j = s.threads.holds j := by
  obtain ⟨threads, locked⟩ := s
  obtain ⟨threads', locked'⟩ := t
  obtain ⟨hstep, -⟩ := hstep
  dsimp only at hstep ⊢
  cases hstep with
  | start | finish => rfl
  | @act _ r p q a hrun hact hfree =>
    apply Threads.holds_other _ _ hj hfree
    intro m hm
    subst hm
    cases hact
    exact of_decide_eq_true (h.ordered i _ hrun).unlocks

/-- What a step leaves to its own thread. -/
theorem Watched.Inv.self {s t : Watched} {i : ℕ} {e : Event} (h : s.Inv)
    (hstep : Watched.Step s (i, e) t) (hsent : s.SendsCommand (i, e)) :
    (∀ c, t.threads.running i = some c → c.Ordered (t.threads.holds i)) ∧
      (t.threads.running i = none → t.threads.holds i = fun _ => false) ∧
      t.locked i = t.threads.holds i := by
  have hlocked := hstep.locked i
  rw [if_pos rfl, h.locked i] at hlocked
  obtain ⟨threads, locked⟩ := s
  obtain ⟨threads', locked'⟩ := t
  obtain ⟨hstep, -⟩ := hstep
  dsimp only at hstep hlocked ⊢
  rw [hlocked]
  cases hstep with
  | start hidle =>
    have hnone : threads.holds i = fun _ => false := h.idle i hidle
    refine ⟨fun c hc => ?_, fun hnil => by simp at hnil, hnone.symm⟩
    obtain rfl := Option.some.inj ((Function.update_self i _ threads.running).symm.trans hc)
    show Running.Ordered _ (threads.holds i)
    rw [hnone]
    exact Request.ordered_callback _
  | @act _ r p q a hrun hact hfree =>
    have hholds : Threads.holds ⟨Function.update threads.running i (some ⟨r, q⟩),
        a.holder i threads.holder⟩ i = a.held (threads.holds i) := Threads.holds_self rfl
    rw [hholds]
    refine ⟨fun c hc => ?_, fun hnil => by simp at hnil, rfl⟩
    obtain rfl := Option.some.inj ((Function.update_self i _ threads.running).symm.trans hc)
    apply (h.ordered i _ hrun).step hact
    intro hr hstart str ha
    exact hsent _ hrun hr hstart str (congrArg Event.act ha)
  | @finish _ r value hrun =>
    exact ⟨fun c hc => by simp at hc, fun _ => (h.ordered i _ hrun).returns, rfl⟩

/-- Every step keeps the invariant as long as the commands without a mutex are sent. -/
theorem Watched.Inv.step {s t : Watched} {e : ℕ × Event} (h : s.Inv) (hstep : Watched.Step s e t)
    (hsent : s.SendsCommand e) : t.Inv := by
  obtain ⟨i, e⟩ := e
  obtain ⟨hordered, hidle, hlocked⟩ := h.self hstep hsent
  constructor
  · intro j c hc
    by_cases hj : j = i
    · rw [hj] at hc ⊢
      exact hordered c hc
    · rw [hstep.1.running_other hj] at hc
      rw [h.holds_other hstep hj]
      exact h.ordered j c hc
  · intro j hnone
    by_cases hj : j = i
    · rw [hj] at hnone ⊢
      exact hidle hnone
    · rw [hstep.1.running_other hj] at hnone
      rw [h.holds_other hstep hj]
      exact h.idle j hnone
  · intro j
    by_cases hj : j = i
    · rw [hj]
      exact hlocked
    · rw [hstep.locked, if_neg hj, h.holds_other hstep hj]
      exact h.locked j

/-- The failed send of a command without a mutex is followed by the unlock of a mutex that the
callback does not hold. -/
theorem Watched.Inv.stray_unlock {s t : Watched} {i : ℕ} {c : Running} {str : Bytes} (h : s.Inv)
    (hrun : s.threads.running i = some c) (hunguarded : c.request.guarded = false)
    (hstart : c.prog = c.request.callback) (hstep : Watched.Step s (i, .act (.send str false)) t) :
    t.threads.running i = some ⟨c.request, .unlock .tcp (.ret (-eNoent))⟩ ∧
      t.threads.holder = s.threads.holder ∧ t.threads.holds i = fun _ => false := by
  obtain ⟨r, p, q, hs, ht, hact, -, hholder⟩ := hstep.1.acted
  obtain rfl := Option.some.inj (hrun.symm.trans hs)
  have hfree := ((h.ordered i _ hrun).unguarded hunguarded).1
  obtain ⟨command, arguments, value, hcallback⟩ := Request.callback_unguarded hunguarded
  dsimp only at hstart hcallback ⊢
  rw [hstart, hcallback] at hact
  cases hact
  refine ⟨ht, hholder, ?_⟩
  rw [Threads.holds_self hholder, hfree]
  rfl

/-- A disciplined state shows that no such send has failed. -/
theorem Watched.Inv.sendsCommand {s t : Watched} {e : ℕ × Event} (h : s.Inv)
    (hstep : Watched.Step s e t) (hdisciplined : t.Disciplined) : s.SendsCommand e := by
  obtain ⟨i, e⟩ := e
  intro c hrun hunguarded hstart str he
  dsimp only at he
  subst he
  obtain ⟨ht, -, hholds⟩ := h.stray_unlock hrun hunguarded hstart hstep
  have hunlocks := (hdisciplined.unlocks i _ .tcp _ ht).1
  rw [hholds] at hunlocks
  contradiction

/-- A callback can start on a thread that runs none. -/
theorem Watched.step_start {s : Watched} {i : ℕ} (hidle : s.threads.running i = none) (r : Request) :
    ∃ t, Watched.Step s (i, .start r) t ∧
      t.threads.running = Function.update s.threads.running i (some ⟨r, r.callback⟩) ∧
      t.threads.holder = s.threads.holder ∧
      t.locked = Function.update s.locked i fun _ => false :=
  ⟨⟨⟨_, _⟩, _⟩, ⟨.start hidle, rfl⟩, rfl, rfl, rfl⟩

/-- A callback whose next step takes no held mutex can take it. -/
theorem Watched.step_act {s : Watched} {i : ℕ} {r : Request} {p q : Prog} {a : Action}
    (hrun : s.threads.running i = some ⟨r, p⟩) (hstep : p.Step a q)
    (hfree : ∀ m, a = .lock m → s.threads.holder m = none) :
    ∃ t, Watched.Step s (i, .act a) t ∧
      t.threads.running = Function.update s.threads.running i (some ⟨r, q⟩) ∧
      t.threads.holder = a.holder i s.threads.holder ∧
      t.locked = Function.update s.locked i (a.held (s.locked i)) :=
  ⟨⟨⟨_, _⟩, _⟩, ⟨.act hrun hstep hfree, rfl⟩, rfl, rfl, rfl⟩

/-- **Two callbacks in one section.** While one callback is in a section of `_tcpmutex`, the failed send
of a command without a mutex lets in the next callback that waits for it. -/
theorem Watched.Inv.two_inside {s : Watched} {i j k : ℕ} {r r' : Request} {next : Prog} (h : s.Inv)
    (hi : s.locked i .tcp = true) (hj : s.threads.running j = some ⟨r, r.callback⟩)
    (hunguarded : r.guarded = false) (hk : s.threads.running k = some ⟨r', .lock .tcp next⟩) :
    ∃ str t, Run Watched.Step s
        [(j, .act (.send str false)), (j, .act (.unlock .tcp)), (k, .act (.lock .tcp))] t ∧
      i ≠ k ∧ t.locked i .tcp = true ∧ t.locked k .tcp = true := by
  obtain ⟨c, arguments, value, hcallback⟩ := r.callback_unguarded hunguarded
  have hnone : s.locked j = fun _ => false := by
    rw [h.locked, ((h.ordered j _ hj).unguarded hunguarded).1]
  have hij : i ≠ j := by
    rintro rfl
    rw [hnone] at hi
    contradiction
  have hkj : k ≠ j := by
    rintro rfl
    have hprog := congrArg Running.prog (Option.some.inj (hj.symm.trans hk))
    dsimp only at hprog
    rw [hcallback] at hprog
    contradiction
  have hik : i ≠ k := by
    rintro rfl
    rw [h.locked] at hi
    have hprog := h.ordered i _ hk
    cases hr : r'.guarded with
    | true =>
      rw [(hprog.guarded hr).1] at hi
      contradiction
    | false =>
      rw [(hprog.unguarded hr).1] at hi
      contradiction
  obtain ⟨s₁, hsend, hrunning₁, hholder₁, hlocked₁⟩ := Watched.step_act hj
    (a := .send c.name false) (by rw [hcallback]; exact .send c.name _ false) nofun
  obtain ⟨s₂, hunlock, hrunning₂, hholder₂, hlocked₂⟩ := Watched.step_act (s := s₁) (i := j)
    (by rw [hrunning₁]; exact Function.update_self j _ _) (.unlock .tcp (.ret (-eNoent))) nofun
  obtain ⟨s₃, hlock, -, -, hlocked₃⟩ := Watched.step_act (s := s₂) (i := k)
    (by rw [hrunning₂, hrunning₁, Function.update_of_ne hkj, Function.update_of_ne hkj]; exact hk)
    (.lock .tcp next) (by
      intro m hm
      obtain rfl : Mutex.tcp = m := Action.lock.inj hm
      rw [hholder₂, Action.holder, Function.update_self])
  refine ⟨c.name, s₃, (((Run.nil s).snoc hsend).snoc hunlock).snoc hlock, hik, ?_, ?_⟩
  · rw [hlocked₃, hlocked₂, hlocked₁, Function.update_of_ne hik, Function.update_of_ne hij,
      Function.update_of_ne hij, hi]
  · rw [hlocked₃, Function.update_self, Action.held, Function.update_self]

/-- **Lock discipline.** Along a run, with any outcome of the sends and receives, the callbacks keep the
discipline exactly if no `send_cmd` of a callback without a mutex fails. -/
theorem lockDiscipline_run_iff (events : List (ℕ × Event)) :
    (∀ before t, before <+: events → Run Watched.Step Watched.idle before t → t.Disciplined) ↔
      ∀ before e t u, before ++ [e] <+: events → Run Watched.Step Watched.idle before t →
        Watched.Step t e u → t.SendsCommand e := by
  apply forall_visited_iff_forall_taken Watched.Inv Watched.inv_idle
  · exact fun t h => h.disciplined
  · exact fun t e u h hstep hsent => h.step hstep hsent
  · exact fun t e u h hstep hdisciplined => h.sendsCommand hstep hdisciplined

/-- An `unlink` whose command cannot be sent is about to unlock a mutex that nobody holds. -/
theorem unlink_unlocks_unheld :
    ¬ ∀ events t, Run Watched.Step Watched.idle events t → t.Disciplined := by
  intro h
  obtain ⟨s₁, hstart, hrunning₁, hholder₁, -⟩ :=
    Watched.step_start (s := Watched.idle) (i := 0) rfl (.unlink (ascii "/a"))
  obtain ⟨s₂, hsend, hrunning₂, hholder₂, -⟩ := Watched.step_act (s := s₁) (i := 0)
    (a := .send Command.unlink.name false) (by rw [hrunning₁]; exact Function.update_self ..)
    (.send _ _ false) nofun
  have hdisciplined := h _ s₂ (((Run.nil _).snoc hstart).snoc hsend)
  have hunlocks := (hdisciplined.unlocks 0 _ .tcp (.ret (-eNoent))
    (by rw [hrunning₂]; exact Function.update_self ..)).1
  rw [Threads.holds, show s₂.threads.holder = _ from hholder₂.trans hholder₁] at hunlocks
  contradiction

end Udtfs

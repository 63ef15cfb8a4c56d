import Udtfs.AcceptLoop

/-!
# The client counter under signals

The kernel tells the parent about its children by `SIGCHLD`, also when a child is stopped or
continued, and merges signals that are pending together. The handler reaps all terminated children
but lowers the counter once, and a connection raises the counter before its fork has succeeded. So
the counter is right exactly as long as every delivery pays for one child that left or one fork that
failed.
-/

namespace Udtfs

open Transition

/-- The parent and its pending signal. -/
structure Master where
  parent : Parent
  /-- A `SIGCHLD` waits for delivery. -/
  pending : Bool
  /-- How many children terminated and how many forks failed since the last delivery. No step
  depends on it. -/
  unsettled : ℕ
  deriving DecidableEq

/-- The parent before its first `accept`. -/
def Master.init : Master := ⟨.init, false, 0⟩

/-- One pass through the accept loop in which `fork` fails: the counter has already gone up. -/
def Parent.forkFails (p : Parent) : Parent := { p with numClients := p.numClients + 1 }

/-- The test of `sigint_handler` that lets the signal through. -/
def Parent.sigintReraises (p : Parent) : Bool := p.numClients ≤ 0

/-- What happens to the parent, its children and their signals. -/
inductive MasterEvent where
  | accept
  | forkFails
  /-- The child at this position among the living terminates. -/
  | exit (i : ℕ)
  /-- The child at this position is stopped or continued. -/
  | stop (i : ℕ)
  /-- The pending signal is delivered. -/
  | deliver
  deriving DecidableEq

/-- One event. A signal that arrives while one is pending is merged with it. -/
inductive MasterStep : Master → MasterEvent → Master → Prop
  | accept (m : Master) : MasterStep m .accept { m with parent := m.parent.accept }
  | forkFails (m : Master) :
      MasterStep m .forkFails
        { m with parent := m.parent.forkFails, unsettled := m.unsettled + 1 }
  | exit {m : Master} {i : ℕ} (h : i < m.parent.alive.length) :
      MasterStep m (.exit i) ⟨m.parent.childExits i, true, m.unsettled + 1⟩
  | stop {m : Master} {i : ℕ} (h : i < m.parent.alive.length) :
      MasterStep m (.stop i) { m with pending := true }
  | deliver {m : Master} (h : m.pending = true) :
      MasterStep m .deliver ⟨m.parent.sigchldHandler, false, 0⟩

/-- With no signal pending the counter is the number of living children, so that an interrupt gets
through exactly if there are none; and the counter is never negative. -/
structure Master.ClientsCounted (m : Master) : Prop where
  count : m.pending = false → m.parent.numClients = m.parent.alive.length
  sigint : m.pending = false → (m.parent.sigintReraises = true ↔ m.parent.alive = [])
  operand : 0 ≤ m.parent.numClients

/-- A fork fails only while a signal is pending, and a delivery pays for exactly one child that
terminated or one fork that failed. -/
def MasterEvent.Settled (m : Master) : MasterEvent → Prop
  | .forkFails => m.pending = true
  | .deliver => m.unsettled = 1
  | .accept | .exit _ | .stop _ => True

/-- The counter exceeds the number of living children by what no delivery has paid for yet. -/
structure Master.Inv (m : Master) : Prop where
  count : m.parent.numClients = m.parent.alive.length + m.unsettled
  settled : m.pending = false → m.unsettled = 0

/-- At the start the count is exact. -/
theorem Master.inv_init : Master.init.Inv where
  count := rfl
  settled _ := rfl

/-- Then the counter is right whenever no signal is pending. -/
theorem Master.Inv.clientsCounted {m : Master} (h : m.Inv) : m.ClientsCounted := by
  have hcount := h.count
  refine ⟨?_, ?_, ?_⟩
  · intro hpending
    have hsettled := h.settled hpending
    omega
  · intro hpending
    have hsettled := h.settled hpending
    rw [Parent.sigintReraises, decide_eq_true_eq, ← List.length_eq_zero_iff]
    omega
  · omega

/-- A settled step keeps the account. -/
theorem MasterStep.inv {m m' : Master} {e : MasterEvent} (h : MasterStep m e m') (hinv : m.Inv)
    (he : e.Settled m) : m'.Inv := by
  have hcount := hinv.count
  cases h with
  | accept =>
    refine ⟨?_, hinv.settled⟩
    simp only [Parent.accept, List.length_append, List.length_singleton]
    omega
  | forkFails =>
    have hpending : m.pending = true := he
    refine ⟨?_, fun hfree => ?_⟩
    · simp only [Parent.forkFails]
      omega
    · rw [hpending] at hfree
      contradiction
  | @exit i hi =>
    have hlength : (m.parent.alive.eraseIdx i).length = m.parent.alive.length - 1 :=
      List.length_eraseIdx_of_lt hi
    constructor
    · simp only [Parent.childExits, hlength]
      omega
    · intro hfree
      contradiction
  | stop hi =>
    refine ⟨hcount, fun hfree => ?_⟩
    contradiction
  | deliver hpending =>
    have hone : m.unsettled = 1 := he
    refine ⟨?_, fun _ => rfl⟩
    simp only [Parent.sigchldHandler]
    omega

/-- A step that is not settled makes the counter wrong at once. -/
theorem MasterStep.settled {m m' : Master} {e : MasterEvent} (h : MasterStep m e m') (hinv : m.Inv)
    (hcounted : m'.ClientsCounted) : e.Settled m := by
  have hcount := hinv.count
  cases h with
  | accept | exit | stop => trivial
  | forkFails =>
    by_contra hnot
    have hpending : m.pending = false := Bool.eq_false_iff.mpr hnot
    have hsettled := hinv.settled hpending
    have hwrong := hcounted.count hpending
    simp only [Parent.forkFails] at hwrong
    omega
  | deliver hpending =>
    have hright := hcounted.count rfl
    simp only [Parent.sigchldHandler] at hright
    show m.unsettled = 1
    omega

/-- Along a run the counter is right in every state exactly if every fork that fails does so while a
signal is pending, and every delivery pays for exactly one child that terminated or one fork that
failed. -/
theorem clientsCounted_run_iff (events : List MasterEvent) :
    (∀ before m, before <+: events → Run MasterStep Master.init before m → m.ClientsCounted) ↔
      ∀ before e m m', before ++ [e] <+: events → Run MasterStep Master.init before m →
        MasterStep m e m' → e.Settled m := by
  apply forall_visited_iff_forall_taken Master.Inv
  · exact Master.inv_init
  · exact fun m hinv => hinv.clientsCounted
  · exact fun m e m' hinv hstep he => hstep.inv hinv he
  · exact fun m e m' hinv hstep hcounted => hstep.settled hinv hcounted

/-- Two children terminate before the first signal is delivered: the counter stays at one although
no child is left. -/
theorem merged_signals_uncounted :
    ¬ ∀ events m, Run MasterStep Master.init events m → m.ClientsCounted := by
  intro h
  have hrun := (Run.nil Master.init).snoc (MasterStep.accept _)
  have hrun := hrun.snoc (.accept _)
  have hrun := hrun.snoc (.exit (i := 0) (by decide))
  have hrun := hrun.snoc (.exit (i := 0) (by decide))
  have hrun := hrun.snoc (.deliver rfl)
  exact absurd ((h _ _ hrun).count rfl) (by decide)

/-- The events of the accept loop as the kernel and the parent see them. -/
def ParentEvent.masterEvents : ParentEvent → List MasterEvent
  | .accept => [.accept]
  | .exit i => [.exit i, .deliver]

/-- A step in which a signal is handled as soon as its child has terminated is a run of the parent
and its signals. -/
theorem ParentStep.master {p q : Parent} {e : ParentEvent} (h : ParentStep p e q) :
    Run MasterStep ⟨p, false, 0⟩ e.masterEvents ⟨q, false, 0⟩ := by
  cases h with
  | accept hroom => exact (Run.nil _).snoc (.accept _)
  | exit hi => exact ((Run.nil _).snoc (.exit hi)).snoc (.deliver rfl)

end Udtfs

import Mathlib.Data.List.Nodup
import Mathlib.Tactic.Common
import Udtfs.Lib.Run

/-!
# The accept loop of the server

The parent process forks a child for every connection and derives the child's UDT port from a
running counter of clients. The counter goes down whenever a child leaves, whichever child that
is, so a port is reused while its first owner still lives as soon as the clients do not leave
in the order opposite to their arrival.
-/

namespace Udtfs

open Transition

/-- `M_PORT_UDTBASE`. -/
def mPortUdtbase : ℤ := 9000

/-- `M_MAX_CLIENTS`. -/
def mMaxClients : ℕ := 16

/-- A forked child that runs `client_handler`. -/
structure Child where
  udtport : ℤ
  /-- How many other children were alive when this one was forked. -/
  elders : ℕ
  deriving DecidableEq

/-- The parent process with its children. -/
structure Parent where
  /-- `_num_clients`. -/
  numClients : ℤ
  alive : List Child
  /-- Children that terminated and are not yet reaped. -/
  zombies : ℕ
  deriving DecidableEq

/-- The parent before its first `accept`. -/
def Parent.init : Parent := ⟨0, [], 0⟩

/-- One pass through the accept loop: a connection is accepted and a child is forked. -/
def Parent.accept (p : Parent) : Parent :=
  let udtport := mPortUdtbase + p.numClients.tmod mMaxClients
  { p with numClients := p.numClients + 1, alive := p.alive ++ [⟨udtport, p.alive.length⟩] }

/-- The child at a position terminates. -/
def Parent.childExits (p : Parent) (i : ℕ) : Parent :=
  { p with alive := p.alive.eraseIdx i, zombies := p.zombies + 1 }

/-- `sigchld_handler`: all terminated children are reaped, the counter goes down by one. -/
def Parent.sigchldHandler (p : Parent) : Parent :=
  { p with numClients := p.numClients - 1, zombies := 0 }

/-- What happens to the parent. -/
inductive ParentEvent where
  | accept
  /-- The child at this position among the living terminates and its signal is handled. -/
  | exit (i : ℕ)
  deriving DecidableEq

/-- One event, with at most `M_MAX_CLIENTS` children alive. -/
inductive ParentStep : Parent → ParentEvent → Parent → Prop
  | accept {p : Parent} (h : p.alive.length < mMaxClients) : ParentStep p .accept p.accept
  | exit {p : Parent} {i : ℕ} (h : i < p.alive.length) :
      ParentStep p (.exit i) (p.childExits i).sigchldHandler

/-- The living clients have distinct ports out of the reserved range. -/
def Parent.PortsDistinct (p : Parent) : Prop :=
  (p.alive.map Child.udtport).Nodup ∧
    ∀ c ∈ p.alive, mPortUdtbase ≤ c.udtport ∧ c.udtport < mPortUdtbase + mMaxClients

/-- No living child was forked when as many children were alive as there are now. -/
def Parent.LevelFree (p : Parent) : Prop := ∀ c ∈ p.alive, c.elders ≠ p.alive.length

/-- A connection is admissible at a free level, an exit always. -/
def ParentEvent.Admissible (p : Parent) : ParentEvent → Prop
  | .accept => p.LevelFree
  | .exit _ => True

/-- The counter counts the living children, and every port records how many of them there were. -/
structure Parent.Counted (p : Parent) : Prop where
  count : p.numClients = p.alive.length
  bound : p.alive.length ≤ mMaxClients
  port : ∀ c ∈ p.alive, c.udtport = mPortUdtbase + c.elders
  level : ∀ c ∈ p.alive, c.elders < mMaxClients

/-- The parent starts with no child counted. -/
theorem counted_init : Parent.init.Counted where
  count := rfl
  bound := Nat.zero_le _
  port := by simp [Parent.init]
  level := by simp [Parent.init]

/-- While fewer clients than the maximum are alive, the next port is the base plus their number. -/
theorem Parent.Counted.accept_alive {p : Parent} (hp : p.Counted)
    (h : p.alive.length < mMaxClients) :
    p.accept.alive = p.alive ++ [⟨mPortUdtbase + p.alive.length, p.alive.length⟩] := by
  have hmod : p.numClients.tmod mMaxClients = p.alive.length := by
    rw [hp.count]
    exact Int.tmod_eq_of_lt (by omega) (by omega)
  simp only [Parent.accept, hmod]

/-- A new child is counted, and its port records how many there were. -/
theorem Parent.Counted.accept {p : Parent} (hp : p.Counted) (h : p.alive.length < mMaxClients) :
    p.accept.Counted := by
  have halive := hp.accept_alive h
  constructor
  · rw [halive, List.length_append, List.length_singleton]
    simp only [Parent.accept, hp.count]
    omega
  · rw [halive, List.length_append, List.length_singleton]
    omega
  · intro c hc
    rw [halive, List.mem_append, List.mem_singleton] at hc
    rcases hc with hc | rfl
    · exact hp.port c hc
    · rfl
  · intro c hc
    rw [halive, List.mem_append, List.mem_singleton] at hc
    rcases hc with hc | rfl
    · exact hp.level c hc
    · exact h

/-- A child that leaves is taken off the count. -/
theorem Parent.Counted.exit {p : Parent} (hp : p.Counted) {i : ℕ} (h : i < p.alive.length) :
    (p.childExits i).sigchldHandler.Counted := by
  have hlength : (p.alive.eraseIdx i).length = p.alive.length - 1 := List.length_eraseIdx_of_lt h
  have hmem {c : Child} (hc : c ∈ p.alive.eraseIdx i) : c ∈ p.alive := List.mem_of_mem_eraseIdx hc
  constructor
  · simp only [Parent.sigchldHandler, Parent.childExits, hp.count, hlength]
    omega
  · have := hp.bound
    simp only [Parent.sigchldHandler, Parent.childExits, hlength]
    omega
  · exact fun c hc => hp.port c (hmem hc)
  · exact fun c hc => hp.level c (hmem hc)

/-- Every step keeps the counter right. -/
theorem ParentStep.counted {p q : Parent} {e : ParentEvent} (h : ParentStep p e q)
    (hp : p.Counted) : q.Counted := by
  cases h with
  | accept hroom => exact hp.accept hroom
  | exit hi => exact hp.exit hi

/-- The counter is right in every reachable state. -/
theorem counted_run {events : List ParentEvent} {p : Parent}
    (h : Run ParentStep Parent.init events p) : p.Counted :=
  h.invariant (fun _ _ _ hq hstep => hstep.counted hq) counted_init

/-- Every port lies in the reserved range. -/
theorem Parent.Counted.port_range {p : Parent} (hp : p.Counted) {c : Child} (hc : c ∈ p.alive) :
    mPortUdtbase ≤ c.udtport ∧ c.udtport < mPortUdtbase + mMaxClients := by
  have hport := hp.port c hc
  have hlevel := hp.level c hc
  omega

/-- In every reachable state the ports of all living children lie in the reserved range, whatever
else goes wrong. -/
theorem port_range_run {events : List ParentEvent} {p : Parent}
    (h : Run ParentStep Parent.init events p) :
    ∀ c ∈ p.alive, mPortUdtbase ≤ c.udtport ∧ c.udtport < mPortUdtbase + mMaxClients :=
  fun _ hc => (counted_run h).port_range hc

/-- After an accept the ports are distinct exactly if they were before and the level was free. -/
theorem Parent.Counted.accept_distinct {p : Parent} (hp : p.Counted)
    (h : p.alive.length < mMaxClients) :
    p.accept.PortsDistinct ↔ p.PortsDistinct ∧ p.LevelFree := by
  have halive := hp.accept_alive h
  have hrange : ∀ c ∈ p.accept.alive, _ := fun c hc => (hp.accept h).port_range hc
  have hfree : p.LevelFree ↔ mPortUdtbase + (p.alive.length : ℤ) ∉ p.alive.map Child.udtport := by
    constructor
    · intro hlevel hmem
      obtain ⟨c, hc, hport⟩ := List.mem_map.mp hmem
      have := hp.port c hc
      exact hlevel c hc (by omega)
    · intro hport c hc hlevel
      apply hport
      rw [← hlevel, ← hp.port c hc]
      exact List.mem_map_of_mem hc
  have hnodup : (p.accept.alive.map Child.udtport).Nodup ↔
      (p.alive.map Child.udtport).Nodup ∧ p.LevelFree := by
    rw [halive, List.map_append, List.map_singleton, ← List.concat_eq_append, List.nodup_concat,
      hfree, and_comm]
  constructor
  · intro hdistinct
    obtain ⟨hbefore, hlevel⟩ := hnodup.mp hdistinct.1
    exact ⟨⟨hbefore, fun c hc => hp.port_range hc⟩, hlevel⟩
  · intro hbefore
    exact ⟨hnodup.mpr ⟨hbefore.1.1, hbefore.2⟩, hrange⟩

/-- A child that leaves takes its port with it. -/
theorem Parent.Counted.exit_distinct {p : Parent} (hp : p.Counted) (hdistinct : p.PortsDistinct)
    {i : ℕ} (h : i < p.alive.length) : (p.childExits i).sigchldHandler.PortsDistinct := by
  have hsub : (p.alive.eraseIdx i).Sublist p.alive := List.eraseIdx_sublist _ _
  exact ⟨hdistinct.1.sublist (hsub.map _), fun c hc => (hp.exit h).port_range hc⟩

/-- Every step keeps the ports distinct exactly if it is admissible. -/
theorem ParentStep.distinct_iff {p q : Parent} {e : ParentEvent} (hp : p.Counted)
    (hdistinct : p.PortsDistinct) (h : ParentStep p e q) : q.PortsDistinct ↔ e.Admissible p := by
  cases h with
  | accept hroom => exact (hp.accept_distinct hroom).trans (and_iff_right hdistinct)
  | exit hi => exact iff_of_true (hp.exit_distinct hdistinct hi) trivial

/-- Along a run all living clients have distinct ports in the reserved range exactly if every
connection is accepted at a free level: no living child was forked when as many children were
alive as at that moment. -/
theorem portsDistinct_run_iff (events : List ParentEvent) :
    (∀ before p, before <+: events → Run ParentStep Parent.init before p → p.PortsDistinct) ↔
      ∀ before e p q, before ++ [e] <+: events → Run ParentStep Parent.init before p →
        ParentStep p e q → e.Admissible p := by
  apply forall_visited_iff_forall_taken fun p => p.Counted ∧ p.PortsDistinct
  · exact ⟨counted_init, List.nodup_nil, fun c hc => absurd hc List.not_mem_nil⟩
  · exact fun p hp => hp.2
  · intro p e q hp hstep hadmissible
    exact ⟨hstep.counted hp.1, (hstep.distinct_iff hp.1 hp.2).mpr hadmissible⟩
  · exact fun p e q hp hstep hdistinct => (hstep.distinct_iff hp.1 hp.2).mp hdistinct

/-- Three connections of which the first ends before the third is accepted: the third client gets
the port of the second. -/
theorem port_9001_twice :
    ¬ ∀ events p, Run ParentStep Parent.init events p → p.PortsDistinct := by
  intro h
  have hrun : Run ParentStep Parent.init [.accept, .accept, .exit 0, .accept]
      ⟨2, [⟨9001, 1⟩, ⟨9001, 1⟩], 0⟩ :=
    ((((Run.nil _).snoc (.accept (by decide))).snoc (.accept (by decide))).snoc
      (.exit (by decide))).snoc (.accept (by decide))
  exact absurd (h _ _ hrun).1 (by decide)

/-- The living children were forked one on top of the other. -/
def Parent.Stacked (p : Parent) : Prop := p.alive.map Child.elders = List.range p.alive.length

/-- An exit of the youngest living child. -/
def YoungestLeaves (p : Parent) : ParentEvent → Prop
  | .accept => True
  | .exit i => i + 1 = p.alive.length

/-- A new child is forked on top of the others. -/
theorem Parent.Stacked.accept {p : Parent} (hp : p.Stacked) : p.accept.Stacked := by
  simp only [Parent.Stacked, Parent.accept, List.map_append, List.map_singleton,
    List.length_append, List.length_singleton, List.range_succ]
  rw [hp]

/-- The child on top can leave. -/
theorem Parent.Stacked.exit {p : Parent} (hp : p.Stacked) {i : ℕ} (h : i + 1 = p.alive.length) :
    (p.childExits i).sigchldHandler.Stacked := by
  have hlast : p.alive.eraseIdx i = p.alive.take i := by
    rw [List.eraseIdx_eq_take_drop_succ, h, List.drop_length, List.append_nil]
  have hlength : (p.alive.take i).length = i := List.length_take_of_le (by omega)
  simp only [Parent.Stacked, Parent.sigchldHandler, Parent.childExits, hlast, hlength]
  rw [List.map_take, hp, ← h, List.take_range]
  congr 1
  omega

/-- Stacked children have distinct ports. -/
theorem Parent.Stacked.portsDistinct {p : Parent} (hp : p.Stacked) (hcounted : p.Counted) :
    p.PortsDistinct := by
  have hports : p.alive.map Child.udtport =
      (List.range p.alive.length).map fun n : ℕ => mPortUdtbase + (n : ℤ) := by
    rw [← hp, List.map_map]
    exact List.map_congr_left hcounted.port
  refine ⟨?_, fun c hc => hcounted.port_range hc⟩
  rw [hports]
  apply List.nodup_range.map
  intro m n hmn
  have hmn : mPortUdtbase + (m : ℤ) = mPortUdtbase + n := hmn
  omega

/-- As long as only the youngest client leaves, the ports stay distinct. -/
theorem portsDistinct_of_youngestLeaves {events : List ParentEvent} {p : Parent}
    (h : Run (Guarded YoungestLeaves ParentStep) Parent.init events p) : p.PortsDistinct := by
  have hinv : p.Counted ∧ p.Stacked := by
    apply h.invariant _ ⟨counted_init, rfl⟩
    rintro q e r ⟨hcounted, hstacked⟩ ⟨hyoungest, hstep⟩
    cases hstep with
    | accept hroom => exact ⟨hcounted.accept hroom, hstacked.accept⟩
    | exit hi => exact ⟨hcounted.exit hi, hstacked.exit hyoungest⟩
  exact hinv.2.portsDistinct hinv.1

end Udtfs

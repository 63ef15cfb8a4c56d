import Mathlib.Tactic.Common

/-!
# Sequences of calls

An object answers calls one after another, and a specification says what the answers are as long as the
calls are admissible. When every single call refines the specification, so does a sequence of them.
-/

namespace Calls

variable {σ τ γ ρ : Type*}

/-- The object after calls, and its answers. A call may fail. -/
def run (op : σ → γ → Option (σ × ρ)) (s : σ) : List γ → Option (σ × List ρ)
  | [] => some (s, [])
  | c :: cs => do
    let (s, r) ← op s c
    let (s, rs) ← run op s cs
    some (s, r :: rs)

/-- The same for a specification. -/
def specify (spec : τ → γ → τ × ρ) (t : τ) : List γ → τ × List ρ
  | [] => (t, [])
  | c :: cs =>
    ((specify spec (spec t c).1 cs).1, (spec t c).2 :: (specify spec (spec t c).1 cs).2)

/-- Every call is admissible where it is made. -/
def Admissible (spec : τ → γ → τ × ρ) (ok : τ → γ → Prop) (t : τ) : List γ → Prop
  | [] => True
  | c :: cs => ok t c ∧ Admissible spec ok (spec t c).1 cs

variable {op : σ → γ → Option (σ × ρ)} {spec : τ → γ → τ × ρ} {ok : τ → γ → Prop} {R : σ → τ → Prop}

/-- Calls that are always admissible are so one after another. -/
theorem admissible_of_forall (h : ∀ t c, ok t c) (t : τ) (cs : List γ) : Admissible spec ok t cs := by
  induction cs generalizing t with
  | nil => trivial
  | cons c cs ih => exact ⟨h t c, ih _⟩

/-- A sequence of admissible calls never fails and is answered as specified. -/
theorem run_refines
    (hstep : ∀ s t c, R s t → ok t c → ∃ s', op s c = some (s', (spec t c).2) ∧ R s' (spec t c).1)
    {s : σ} {t : τ} (hst : R s t) (cs : List γ) (hcs : Admissible spec ok t cs) :
    ∃ s', run op s cs = some (s', (specify spec t cs).2) ∧ R s' (specify spec t cs).1 := by
  induction cs generalizing s t with
  | nil => exact ⟨s, rfl, hst⟩
  | cons c cs ih =>
    obtain ⟨s₁, hfirst, hst₁⟩ := hstep s t c hst hcs.1
    obtain ⟨s', hrest, hst'⟩ := ih hst₁ hcs.2
    refine ⟨s', ?_, hst'⟩
    simp only [run, hfirst, Option.bind_eq_bind, Option.bind_some, hrest, specify]

end Calls

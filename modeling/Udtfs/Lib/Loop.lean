import Mathlib.Tactic.Common

/-!
# While loops

A loop runs as long as its condition holds, and at most so many times; running longer is `none`. An
invariant that counts down shows that the loop ends and what holds at its end.
-/

variable {σ : Type*}

/-- `while (cond) body`, at most `fuel` times. -/
def whileLoop (cond : σ → Bool) (body : σ → σ) : ℕ → σ → Option σ
  | 0, s => if cond s then none else some s
  | fuel + 1, s => if cond s then whileLoop cond body fuel (body s) else some s

variable {cond : σ → Bool} {body : σ → σ}

/-- A loop ends when its condition fails. -/
theorem whileLoop_of_false {s : σ} (h : cond s = false) (fuel : ℕ) :
    whileLoop cond body fuel s = some s := by
  cases fuel <;> rw [whileLoop, h] <;> rfl

/-- A round is one step of the fuel. -/
theorem whileLoop_of_true {s : σ} (h : cond s = true) (fuel : ℕ) :
    whileLoop cond body (fuel + 1) s = whileLoop cond body fuel (body s) := by
  rw [whileLoop, if_pos h]

/-- An invariant with a bound on the remaining rounds: the loop ends where the condition is false, and
the invariant holds there. -/
theorem whileLoop_spec {I : ℕ → σ → Prop} (hbody : ∀ n s, I n s → cond s = true → ∃ k < n, I k (body s))
    {n : ℕ} {s : σ} (hs : I n s) {fuel : ℕ} (hfuel : n ≤ fuel) :
    ∃ t k, whileLoop cond body fuel s = some t ∧ I k t ∧ cond t = false := by
  induction fuel generalizing n s with
  | zero =>
    cases hcond : cond s with
    | false => exact ⟨s, n, whileLoop_of_false hcond 0, hs, hcond⟩
    | true =>
      obtain ⟨k, hk, -⟩ := hbody n s hs hcond
      omega
  | succ fuel ih =>
    cases hcond : cond s with
    | false => exact ⟨s, n, whileLoop_of_false hcond _, hs, hcond⟩
    | true =>
      obtain ⟨k, hk, hnext⟩ := hbody n s hs hcond
      rw [whileLoop_of_true hcond]
      exact ih hnext (by omega)

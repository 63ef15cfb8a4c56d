import Mathlib.Data.List.Infix

/-!
# Runs of a labelled transition system

A run is a finite sequence of labelled steps. Results about systems are stated over runs from an
initial state: what one step preserves is preserved by a run, and a run splits at every prefix
of its labels.
-/

namespace Transition

variable {σ ε : Type*} {step : σ → ε → σ → Prop}

/-- The states that a sequence of labels leads to. -/
inductive Run (step : σ → ε → σ → Prop) : σ → List ε → σ → Prop
  | nil (s : σ) : Run step s [] s
  | snoc {s t u : σ} {events : List ε} {e : ε} :
      Run step s events t → step t e u → Run step s (events ++ [e]) u

/-- The steps of a system that meet a condition on the state before them. -/
def Guarded (ok : σ → ε → Prop) (step : σ → ε → σ → Prop) (s : σ) (e : ε) (t : σ) : Prop :=
  ok s e ∧ step s e t

/-- A step that meets its condition is a guarded one. -/
theorem Guarded.intro {ok : σ → ε → Prop} {s t : σ} {e : ε} (hstep : step s e t) (hok : ok s e) :
    Guarded ok step s e t :=
  ⟨hok, hstep⟩

/-- A property that every step preserves is preserved by a run. -/
theorem Run.invariant {P : σ → Prop} (hstep : ∀ s e t, P s → step s e t → P t) {s t : σ}
    {events : List ε} (h : Run step s events t) (hs : P s) : P t := by
  induction h with
  | nil => exact hs
  | snoc _ hlast ih => exact hstep _ _ _ ih hlast

/-- A run may be continued by another one. -/
theorem Run.append {s t u : σ} {events later : List ε} (h : Run step s events t)
    (hlater : Run step t later u) : Run step s (events ++ later) u := by
  induction hlater with
  | nil => rwa [List.append_nil]
  | snoc _ hlast ih =>
    rw [← List.append_assoc]
    exact ih.snoc hlast

/-- A run is also one of every system that has its steps. -/
theorem Run.mono {step' : σ → ε → σ → Prop} (hstep : ∀ s e t, step s e t → step' s e t) {s t : σ}
    {events : List ε} (h : Run step s events t) : Run step' s events t := by
  induction h with
  | nil => exact Run.nil _
  | snoc _ hlast ih => exact ih.snoc (hstep _ _ _ hlast)

/-- The last label of a run is the label of its last step. -/
theorem Run.of_concat {s u : σ} {events : List ε} {e : ε} (h : Run step s (events ++ [e]) u) :
    ∃ t, Run step s events t ∧ step t e u := by
  generalize hlabels : events ++ [e] = labels at h
  cases h with
  | nil => simp at hlabels
  | @snoc t _ events' e' hrun hlast =>
    obtain ⟨rfl, he⟩ := List.append_inj' hlabels rfl
    obtain rfl : e = e' := by simpa using he
    exact ⟨t, hrun, hlast⟩

/-- Without labels there is no step. -/
theorem Run.of_nil {s t : σ} (h : Run step s [] t) : t = s := by
  generalize hlabels : ([] : List ε) = labels at h
  cases h with
  | nil => rfl
  | snoc => simp at hlabels

/-- A property of the visited states holds along a run exactly if it holds along the run without
its last step and after that step. -/
theorem forall_visited_concat {P : σ → Prop} {s : σ} {events : List ε} {e : ε} :
    (∀ before t, before <+: events ++ [e] → Run step s before t → P t) ↔
      (∀ before t, before <+: events → Run step s before t → P t) ∧
        ∀ t u, Run step s events t → step t e u → P u := by
  constructor
  · intro h
    exact ⟨fun before t hpre => h before t (hpre.trans (List.prefix_append _ _)),
      fun t u hrun hlast => h _ u List.prefix_rfl (hrun.snoc hlast)⟩
  · rintro ⟨hbefore, hlast⟩ before t hpre hrun
    rcases List.prefix_concat_iff.mp hpre with rfl | hpre
    · obtain ⟨u, hrun, hstep⟩ := hrun.of_concat
      exact hlast u t hrun hstep
    · exact hbefore before t hpre hrun

/-- A condition on the steps holds along a run exactly if it holds for its last step and along
the run before it. -/
theorem forall_taken_concat {ok : σ → ε → Prop} {s : σ} {events : List ε} {e : ε} :
    (∀ before d t u, before ++ [d] <+: events ++ [e] → Run step s before t → step t d u → ok t d) ↔
      (∀ before d t u, before ++ [d] <+: events → Run step s before t → step t d u → ok t d) ∧
        ∀ t u, Run step s events t → step t e u → ok t e := by
  constructor
  · intro h
    exact ⟨fun before d t u hpre => h before d t u (hpre.trans (List.prefix_append _ _)),
      fun t u hrun => h events e t u List.prefix_rfl hrun⟩
  · rintro ⟨hbefore, hlast⟩ before d t u hpre hrun hstep
    rcases List.prefix_concat_iff.mp hpre with heq | hpre
    · obtain ⟨rfl, hd⟩ := List.append_inj' heq rfl
      obtain rfl : d = e := by simpa using hd
      exact hlast t u hrun hstep
    · exact hbefore before d t u hpre hrun hstep

/-- Where every step of a run meets its condition, an invariant that such steps preserve holds. -/
theorem Run.invariant_of_taken {Inv : σ → Prop} {ok : σ → ε → Prop}
    (hstep : ∀ s e t, Inv s → step s e t → ok s e → Inv t) {s u : σ} {events : List ε}
    (h : Run step s events u) (hs : Inv s)
    (htaken : ∀ before d t v, before ++ [d] <+: events → Run step s before t → step t d v →
      ok t d) : Inv u := by
  induction h with
  | nil => exact hs
  | @snoc t u events e hrun hlast ih =>
    have hbefore := (forall_taken_concat.mp htaken).1
    exact hstep _ _ _ (ih hbefore) hlast (htaken events e t u List.prefix_rfl hrun hlast)

/-- Suppose that an invariant implies a property, that steps which meet a condition preserve it, and
that no other step leads to a state with the property. Then the states of a run all have the
property exactly if the steps of the run all meet the condition. -/
theorem forall_visited_iff_forall_taken {P : σ → Prop} (Inv : σ → Prop) {ok : σ → ε → Prop} {s : σ}
    (hs : Inv s) (himp : ∀ t, Inv t → P t)
    (hstep : ∀ t e u, Inv t → step t e u → ok t e → Inv u)
    (honly : ∀ t e u, Inv t → step t e u → P u → ok t e) (events : List ε) :
    (∀ before t, before <+: events → Run step s before t → P t) ↔
      ∀ before d t u, before ++ [d] <+: events → Run step s before t → step t d u → ok t d := by
  induction events using List.reverseRecOn with
  | nil =>
    apply iff_of_true
    · intro before t hpre hrun
      obtain rfl := List.prefix_nil.mp hpre
      rw [hrun.of_nil]
      exact himp s hs
    · intro before d t u hpre
      simp at hpre
  | append_singleton events e ih =>
    rw [forall_visited_concat, forall_taken_concat, ih, and_congr_right_iff]
    intro htaken
    have hinv {t : σ} (hrun : Run step s events t) : Inv t :=
      hrun.invariant_of_taken hstep hs htaken
    constructor
    · exact fun hlast t u hrun hlaststep =>
        honly t e u (hinv hrun) hlaststep (hlast t u hrun hlaststep)
    · exact fun hlast t u hrun hlaststep =>
        himp u (hstep t e u (hinv hrun) hlaststep (hlast t u hrun hlaststep))

end Transition

import Mathlib.Data.List.Infix
import Mathlib.Tactic.Common

/-!
# Lexical resolution of paths

A path without links is a sequence of moves in a tree: stay, go up to the parent, go down to a
child. Its normal form climbs first and descends then, and does not depend on where the path is
resolved; from it follows which paths lead back into the directory where they started.
-/

namespace LexicalPath

variable {α : Type*}

/-- What one component of a path asks for. -/
inductive Move (α : Type*) where
  | stay
  | up
  | down (name : α)
  deriving DecidableEq

/-- The location after one component. The root is its own parent. -/
def Move.apply (dir : List α) : Move α → List α
  | .stay => dir
  | .up => dir.dropLast
  | .down name => dir ++ [name]

/-- The component climbs. -/
def Move.isUp : Move α → Bool
  | .up => true
  | _ => false

/-- The component descends. -/
def Move.isDown : Move α → Bool
  | .down _ => true
  | _ => false

/-- A path in normal form: so many parents up, then down along these names. -/
structure Route (α : Type*) where
  ups : ℕ
  names : List α
  deriving DecidableEq

/-- A route continued by one component. -/
def Route.step (r : Route α) : Move α → Route α
  | .stay => r
  | .up => if r.names.isEmpty then { r with ups := r.ups + 1 } else
      { r with names := r.names.dropLast }
  | .down name => { r with names := r.names ++ [name] }

/-- The normal form of a path. -/
def route (moves : List (Move α)) : Route α := moves.foldl Route.step ⟨0, []⟩

/-- Where a route leads. -/
def Route.target (r : Route α) (dir : List α) : List α := dir.take (dir.length - r.ups) ++ r.names

/-- Wherever a route leads, one more component leads on from there. -/
theorem Route.target_step (r : Route α) (m : Move α) (dir : List α) :
    (r.step m).target dir = m.apply (r.target dir) := by
  obtain ⟨ups, names⟩ := r
  cases m with
  | stay => rfl
  | up =>
    cases names with
    | nil =>
      simp only [step, target, Move.apply, List.isEmpty_nil, if_true, List.append_nil]
      rw [List.dropLast_eq_take, List.take_take, List.length_take]
      congr 1
      omega
    | cons name names =>
      simp only [step, target, Move.apply, List.isEmpty_cons, Bool.false_eq_true, if_false]
      rw [List.dropLast_append_of_ne_nil (List.cons_ne_nil name names)]
  | down name => simp only [step, target, Move.apply, List.append_assoc]

/-- Resolving component by component leads where the normal form leads. -/
theorem foldl_apply (moves : List (Move α)) (dir : List α) :
    moves.foldl Move.apply dir = (route moves).target dir := by
  have hgeneral (r : Route α) :
      moves.foldl Move.apply (r.target dir) = (moves.foldl Route.step r).target dir := by
    induction moves generalizing r with
    | nil => rfl
    | cons m moves ih => rw [List.foldl_cons, List.foldl_cons, ← r.target_step, ih]
  have hstart : (⟨0, []⟩ : Route α).target dir = dir := by
    simp only [Route.target, Nat.sub_zero, List.take_length, List.append_nil]
  rw [route, ← hgeneral, hstart]

/-- The names above a directory that a route leaves are the first names along which it descends. -/
def Route.Reenters (r : Route α) (dir : List α) : Prop := dir.drop (dir.length - r.ups) <+: r.names

instance [DecidableEq α] (r : Route α) (dir : List α) : Decidable (r.Reenters dir) :=
  inferInstanceAs (Decidable (_ <+: _))

/-- A route leads into the directory where it starts exactly if it descends again along the names
that it climbed. -/
theorem Route.prefix_target_iff (r : Route α) (dir : List α) :
    dir <+: r.target dir ↔ r.Reenters dir := by
  have hsplit := List.take_append_drop (dir.length - r.ups) dir
  conv_lhs => rw [← hsplit, hsplit, target]
  conv_lhs => lhs; rw [← hsplit]
  exact List.prefix_append_right_inj _

/-- From the root a route leads to its names. -/
theorem Route.target_nil (r : Route α) : r.target [] = r.names := by
  rw [target, List.take_nil, List.nil_append]

/-- A route that does not climb leads into the directory where it starts. -/
theorem Route.reenters_of_ups_eq_zero {r : Route α} (h : r.ups = 0) (dir : List α) :
    r.Reenters dir := by
  rw [Reenters, h, Nat.sub_zero, List.drop_length]
  exact List.nil_prefix

/-- The normal form of a path with one more component. -/
theorem route_concat (moves : List (Move α)) (m : Move α) :
    route (moves ++ [m]) = (route moves).step m := by
  rw [route, List.foldl_append, ← route, List.foldl_cons, List.foldl_nil]

/-- Every name of a path is descended or climbed again. -/
theorem route_balance (moves : List (Move α)) :
    (route moves).names.length + moves.countP Move.isUp =
      (route moves).ups + moves.countP Move.isDown := by
  induction moves using List.reverseRecOn with
  | nil => rfl
  | append_singleton moves m ih =>
    rw [route_concat, List.countP_append, List.countP_append]
    cases m with
    | stay => exact ih
    | up =>
      cases hnames : (route moves).names with
      | nil =>
        rw [hnames] at ih
        simp only [Route.step, hnames, List.isEmpty_nil, if_true, List.countP_singleton, Move.isUp,
          Move.isDown, Bool.false_eq_true, if_false, List.length_nil] at ih ⊢
        omega
      | cons name names =>
        rw [hnames] at ih
        simp only [Route.step, hnames, List.isEmpty_cons, Bool.false_eq_true, if_false,
          List.length_dropLast, List.countP_singleton, Move.isUp, Move.isDown, if_true,
          List.length_cons] at ih ⊢
        omega
    | down name =>
      simp only [Route.step, List.length_append, List.length_singleton, List.countP_singleton,
        Move.isUp, Move.isDown, Bool.false_eq_true, if_false, if_true]
      omega

/-- A path never climbs above its start exactly if none of its beginnings has more parents than
names. -/
theorem route_ups_eq_zero_iff (moves : List (Move α)) :
    (route moves).ups = 0 ↔
      ∀ before, before <+: moves → before.countP Move.isUp ≤ before.countP Move.isDown := by
  induction moves using List.reverseRecOn with
  | nil =>
    apply iff_of_true
    · rfl
    · intro before hpre
      rw [List.prefix_nil.mp hpre]
      exact le_rfl
  | append_singleton moves m ih =>
    have hwhole := route_balance (moves ++ [m])
    have hstep : (route moves).ups ≤ (route (moves ++ [m])).ups := by
      rw [route_concat]
      cases m with
      | up => simp only [Route.step]; split <;> simp
      | stay | down => exact le_rfl
    constructor
    · intro hzero before hpre
      rcases List.prefix_concat_iff.mp hpre with rfl | hpre
      · omega
      · exact ih.mp (by omega) before hpre
    · intro hall
      have hzero := ih.mpr fun before hpre => hall before (hpre.trans (List.prefix_append _ _))
      have hlast := hall _ List.prefix_rfl
      have hbalance := route_balance moves
      cases m with
      | stay | down => rwa [route_concat]
      | up =>
        cases hnames : (route moves).names with
        | nil =>
          rw [hnames, List.length_nil] at hbalance
          simp only [List.countP_append, List.countP_singleton, Move.isUp, Move.isDown, if_true,
            Bool.false_eq_true, if_false] at hlast
          omega
        | cons name names =>
          rw [route_concat]
          simp only [Route.step, hnames, List.isEmpty_cons, Bool.false_eq_true, if_false, hzero]

end LexicalPath

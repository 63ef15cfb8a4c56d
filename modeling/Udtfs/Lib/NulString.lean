import Mathlib.Data.List.Basic
import Mathlib.Data.List.TakeWhile
import Mathlib.Tactic.Common

/-!
# NUL-terminated strings

A C string is the part of a block of memory before its first zero byte. On a stream it
travels as a frame: the bytes of the string and one zero. The lemmas here say how frames
concatenate and which strings a frame sequence determines; they know no protocol.
-/

namespace NulString

/-- No byte of the string is the terminator. -/
def NulFree (s : List UInt8) : Prop := (0 : UInt8) ∉ s

instance (s : List UInt8) : Decidable (NulFree s) := inferInstanceAs (Decidable ((0 : UInt8) ∉ s))

/-- The C string that starts a block of memory; a block without a zero is all string. -/
def cstr (memory : List UInt8) : List UInt8 := memory.takeWhile (· != 0)

/-- A string and its terminator, as one `send` puts it on the stream. -/
def frame (s : List UInt8) : List UInt8 := s ++ [0]

/-- Several strings sent one after another. -/
def frames (strings : List (List UInt8)) : List UInt8 := strings.flatMap frame

/-- The empty string has no zero. -/
@[simp] theorem nulFree_nil : NulFree [] := by simp [NulFree]

/-- A string is free of zeros exactly if its first byte and its remainder are. -/
@[simp] theorem nulFree_cons (b : UInt8) (s : List UInt8) :
    NulFree (b :: s) ↔ b ≠ 0 ∧ NulFree s := by
  simp [NulFree, eq_comm]

/-- Concatenation introduces no zeros. -/
@[simp] theorem nulFree_append (s t : List UInt8) :
    NulFree (s ++ t) ↔ NulFree s ∧ NulFree t := by
  simp [NulFree]

/-- A prefix of a string without zeros has none. -/
theorem NulFree.of_isPrefix {s cut : List UInt8} (h : NulFree s) (hcut : cut <+: s) : NulFree cut :=
  fun hmem => h (hcut.subset hmem)

/-- A suffix of a string without zeros has none. -/
theorem NulFree.drop {s : List UInt8} (h : NulFree s) (n : ℕ) : NulFree (s.drop n) :=
  fun hmem => h (List.mem_of_mem_drop hmem)

/-- Repeating a nonzero byte gives a string. -/
theorem nulFree_replicate {b : UInt8} (hb : b ≠ 0) (n : ℕ) : NulFree (List.replicate n b) :=
  fun hmem => hb (List.eq_of_mem_replicate hmem).symm

/-- What is read as a C string contains no zero. -/
theorem cstr_nulFree (memory : List UInt8) : NulFree (cstr memory) := by
  intro hmem
  have h := List.mem_takeWhile_imp hmem
  simp at h

/-- Memory behind the terminator is not part of the string. -/
theorem cstr_append_zero {s : List UInt8} (h : NulFree s) (beyond : List UInt8) :
    cstr (s ++ 0 :: beyond) = s := by
  induction s with
  | nil => simp [cstr]
  | cons b s ih =>
    obtain ⟨hb, hs⟩ := (nulFree_cons b s).mp h
    have ih := ih hs
    simp only [cstr] at ih
    simp [cstr, hb, ih]

/-- A block without a zero is its own C string. -/
theorem cstr_of_nulFree {s : List UInt8} (h : NulFree s) : cstr s = s := by
  induction s with
  | nil => rfl
  | cons b s ih =>
    obtain ⟨hb, hs⟩ := (nulFree_cons b s).mp h
    have ih := ih hs
    simp only [cstr] at ih
    simp [cstr, hb, ih]

/-- A string without zeros extends into whatever memory follows it. -/
theorem cstr_append_of_nulFree {s : List UInt8} (h : NulFree s) (beyond : List UInt8) :
    cstr (s ++ beyond) = s ++ cstr beyond := by
  induction s with
  | nil => rfl
  | cons b s ih =>
    obtain ⟨hb, hs⟩ := (nulFree_cons b s).mp h
    have ih := ih hs
    simp only [cstr] at ih ⊢
    simp [hb, ih]

/-- No strings are no bytes. -/
@[simp] theorem frames_nil : frames [] = [] := rfl

/-- Each string is followed by a zero. -/
@[simp] theorem frames_cons (s : List UInt8) (strings : List (List UInt8)) :
    frames (s :: strings) = s ++ 0 :: frames strings := by
  simp [frames, frame]

/-- Strings one after the other are framed one after the other. -/
@[simp] theorem frames_append (left right : List (List UInt8)) :
    frames (left ++ right) = frames left ++ frames right := by
  simp [frames]

/-- What has arrived of a frame and what follows it is a part of the string, or the whole frame and
a part of the rest. -/
theorem prefix_frame {s cut rest : List UInt8} (h : cut <+: s ++ 0 :: rest) :
    cut <+: s ∨ ∃ later, later <+: rest ∧ cut = s ++ 0 :: later := by
  obtain ⟨missing, hsplit⟩ := h
  rcases List.append_eq_append_iff.mp hsplit with ⟨tail, rfl, -⟩ | ⟨tail, rfl, htail⟩
  · exact Or.inl (List.prefix_append cut tail)
  · cases tail with
    | nil =>
      rw [List.append_nil]
      exact Or.inl List.prefix_rfl
    | cons b later =>
      obtain ⟨rfl, hrest⟩ := List.cons.inj htail
      exact Or.inr ⟨later, ⟨missing, hrest.symm⟩, rfl⟩

end NulString

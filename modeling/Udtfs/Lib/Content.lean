import Mathlib.Data.List.Basic
import Mathlib.Data.List.GetD
import Mathlib.Data.List.Range
import Mathlib.Tactic.Ring

/-!
# File contents as sequences

A file holds a finite sequence that reads as zeros behind its end. Reading, resizing and
overwriting are stated on lists; `byteAt` gives the value at a position, so that two contents can be
compared position by position.
-/

namespace Content

variable {α : Type*} [Zero α]

/-- The value at a position, zero behind the end. -/
def byteAt (content : List α) (i : ℕ) : α := content.getD i 0

/-- The part of the content in `[offset, offset + len)` that exists. -/
def slice (content : List α) (offset len : ℕ) : List α := (content.drop offset).take len

/-- Exactly `len` values from `offset` on, zeros behind the end. -/
def padded (content : List α) (offset len : ℕ) : List α :=
  slice content offset len ++ List.replicate (len - (slice content offset len).length) 0

/-- Cut or zero-extend to a length. -/
def resize (content : List α) (n : ℕ) : List α :=
  content.take n ++ List.replicate (n - content.length) 0

/-- Replace `[offset, offset + payload.length)`, zero-extending up to `offset` if necessary. -/
def overwrite (content : List α) (offset : ℕ) (payload : List α) : List α :=
  resize (content.take offset) offset ++ payload ++ content.drop (offset + payload.length)

omit [Zero α] in
/-- A slice ends with the content. -/
@[simp] theorem slice_length (content : List α) (offset len : ℕ) :
    (slice content offset len).length = min len (content.length - offset) := by
  simp [slice]

/-- A padded slice has the length asked for. -/
@[simp] theorem padded_length (content : List α) (offset len : ℕ) :
    (padded content offset len).length = len := by
  rw [padded, List.length_append, List.length_replicate, slice_length]
  omega

/-- A resized content has the new length. -/
@[simp] theorem resize_length (content : List α) (n : ℕ) : (resize content n).length = n := by
  rw [resize, List.length_append, List.length_take, List.length_replicate]
  omega

/-- Inside the content there are its bytes. -/
theorem byteAt_of_lt {content : List α} {i : ℕ} (h : i < content.length) :
    byteAt content i = content[i] := by
  rw [byteAt, List.getD_eq_getElem _ _ h]

/-- Behind the content there are zeros. -/
theorem byteAt_of_le {content : List α} {i : ℕ} (h : content.length ≤ i) :
    byteAt content i = 0 := by
  rw [byteAt, List.getD_eq_default _ _ h]

/-- Each of the padded values is the value at its position. -/
theorem padded_getElem (content : List α) (offset len i : ℕ)
    (h : i < (padded content offset len).length) :
    (padded content offset len)[i] = byteAt content (offset + i) := by
  have hi : i < len := by simpa using h
  simp only [padded]
  by_cases hin : offset + i < content.length
  · rw [List.getElem_append_left (by rw [slice_length]; omega), byteAt_of_lt hin]
    simp [slice]
  · rw [List.getElem_append_right (by rw [slice_length]; omega), byteAt_of_le (by omega),
      List.getElem_replicate]

/-- Reading position by position inside the file yields the slice. -/
theorem map_byteAt {content : List α} {offset len : ℕ} (h : offset + len ≤ content.length) :
    (List.range len).map (fun i => byteAt content (offset + i)) = slice content offset len := by
  apply List.ext_getElem
  · simp
    omega
  · intro i h₁ h₂
    have hi : i < len := by simpa using h₁
    rw [List.getElem_map, List.getElem_range, byteAt_of_lt (by omega)]
    simp [slice]

/-- The same for a range that is cut at the end. -/
theorem map_byteAt_min (content : List α) (offset len : ℕ) :
    (List.range (min len (content.length - offset))).map (fun i => byteAt content (offset + i)) =
      slice content offset len := by
  apply List.ext_getElem
  · simp
  · intro i h₁ h₂
    have hi : i < min len (content.length - offset) := by simpa using h₁
    rw [List.getElem_map, List.getElem_range, byteAt_of_lt (by omega)]
    simp [slice]

/-- Resizing to the present length changes nothing. -/
theorem resize_self (content : List α) : resize content content.length = content := by
  simp [resize]

/-- Only a resize to the present length changes nothing. -/
theorem resize_eq_self_iff {content : List α} {n : ℕ} :
    resize content n = content ↔ content.length = n := by
  constructor
  · intro h
    rw [← h, resize_length]
  · rintro rfl
    exact resize_self content

/-- Inside the content an overwrite keeps what lies before and behind the payload. -/
theorem overwrite_of_le {content : List α} {offset : ℕ} (h : offset ≤ content.length)
    (payload : List α) :
    overwrite content offset payload =
      content.take offset ++ payload ++ content.drop (offset + payload.length) := by
  have hlen : (content.take offset).length = offset := by
    rw [List.length_take]
    omega
  rw [overwrite]
  congr 2
  conv_lhs => rw [← hlen]
  rw [resize, List.take_take]
  simp

/-- Appending a sequence without zeros has the effect of an overwrite exactly if the payload
begins inside the content or at its end and consists of the old tail and the appended sequence,
or if nothing is appended and the payload is already there. Behind the end an overwrite begins with
zeros. -/
theorem append_eq_overwrite_iff {content s payload : List α} (hs : (0 : α) ∉ s) (offset : ℕ) :
    content ++ s = overwrite content offset payload ↔
      offset ≤ content.length ∧
        (content.drop offset ++ s = payload ∨
          s = [] ∧ slice content offset payload.length = payload) := by
  have hsplit := List.take_append_drop offset content
  by_cases hle : offset ≤ content.length
  · have hcancel : content ++ s = overwrite content offset payload ↔
        content.drop offset ++ s = payload ++ content.drop (offset + payload.length) := by
      rw [overwrite_of_le hle]
      conv_lhs => lhs; rw [← hsplit]
      rw [List.append_assoc, List.append_assoc, List.append_cancel_left_eq]
    rw [hcancel, and_iff_right hle]
    constructor
    · intro h
      by_cases hend : content.length ≤ offset + payload.length
      · rw [List.drop_eq_nil_of_le hend, List.append_nil] at h
        exact Or.inl h
      · have hlength := congrArg List.length h
        simp only [List.length_append, List.length_drop] at hlength
        obtain rfl : s = [] := List.length_eq_zero_iff.mp (by omega)
        rw [List.append_nil] at h
        exact Or.inr ⟨rfl, by rw [slice, h, List.take_left]⟩
    · rintro (h | ⟨rfl, h⟩)
      · have hlength := congrArg List.length h
        simp only [List.length_append, List.length_drop] at hlength
        rw [h, List.drop_eq_nil_of_le (by omega), List.append_nil]
      · have hpayload : (content.drop offset).take payload.length = payload := h
        have htail := List.take_append_drop payload.length (content.drop offset)
        rw [hpayload, List.drop_drop] at htail
        rw [List.append_nil, htail]
  · refine iff_of_false (fun h => ?_) fun h => hle h.1
    rw [overwrite, List.drop_eq_nil_of_le (by omega), List.append_nil,
      List.take_of_length_le (by omega),
      resize, List.take_of_length_le (by omega), List.append_assoc, List.append_cancel_left_eq] at h
    apply hs
    rw [h, List.mem_append]
    exact Or.inl (List.mem_replicate.mpr ⟨by omega, rfl⟩)

end Content

import Udtfs.Lib.Content

/-!
# Reading a content that changes

A sequence that is read piece by piece while others change it gives no snapshot: each value is that of some
content it has had, and the reading ends where some content ended. What such a reading has given, with zeros
behind its end, is stated for the contents that there were; with a single one it is the padded part of that
content.
-/

namespace Content

variable {α : Type*}

/-- One of the contents ends at or before a position. -/
def Ends (contents : List (List α)) (n : ℕ) : Prop := ∃ content ∈ contents, content.length ≤ n

/-- What a read of `n` values from a position gives: each is that of some content, and fewer are given only
where some content has ended. -/
structure OnceRead (contents : List (List α)) (position n : ℕ) (values : List α) : Prop where
  length_le : values.length ≤ n
  value : ∀ i < values.length, ∃ content ∈ contents, content[position + i]? = values[i]?
  ends : values.length < n → Ends contents (position + values.length)

/-- Of these values, from a position on, the first `k` are those of some content each. Zeros follow. -/
structure ReadUpTo [Zero α] (contents : List (List α)) (position : ℕ) (values : List α) (k : ℕ) :
    Prop where
  le : k ≤ values.length
  value : ∀ i < k, ∃ content ∈ contents, content[position + i]? = values[i]?
  zero : ∀ i, k ≤ i → i < values.length → values[i]? = some 0

/-- Values that have been read from a position on, with zeros only behind the end of some content. -/
def ReadFrom [Zero α] (contents : List (List α)) (position : ℕ) (values : List α) : Prop :=
  ∃ k, ReadUpTo contents position values k ∧ (k < values.length → Ends contents (position + k))

variable {contents contents' : List (List α)} {position n k : ℕ} {values later : List α}

/-- More contents end no later. -/
theorem Ends.mono (h : Ends contents n) (hsub : contents ⊆ contents') : Ends contents' n := by
  obtain ⟨content, hmem, hle⟩ := h
  exact ⟨content, hsub hmem, hle⟩

/-- A single content is read as it is. -/
theorem onceRead_slice (content : List α) (position n : ℕ) :
    OnceRead [content] position n (slice content position n) where
  length_le := by
    rw [slice_length]
    omega
  value i hi := by
    rw [slice_length] at hi
    refine ⟨content, List.mem_cons_self, ?_⟩
    rw [slice, List.getElem?_take_of_lt (by omega), List.getElem?_drop]
  ends hshort := by
    rw [slice_length] at hshort ⊢
    exact ⟨content, List.mem_cons_self, by omega⟩

section
variable [Zero α]

/-- Nothing has been read yet. -/
theorem readUpTo_nil : ReadUpTo contents position [] 0 :=
  ⟨le_rfl, fun _ hi => absurd hi (Nat.not_lt_zero _), fun _ _ hi => absurd hi (Nat.not_lt_zero _)⟩

/-- More contents may have been read. -/
theorem ReadUpTo.mono (h : ReadUpTo contents position values k) (hsub : contents ⊆ contents') :
    ReadUpTo contents' position values k where
  le := h.le
  value i hi := by
    obtain ⟨content, hmem, heq⟩ := h.value i hi
    exact ⟨content, hsub hmem, heq⟩
  zero := h.zero

/-- The next values are read. -/
theorem ReadUpTo.append_read (h : ReadUpTo contents position values values.length)
    (hlater : ∀ i < later.length, ∃ content ∈ contents,
      content[position + values.length + i]? = later[i]?) :
    ReadUpTo contents position (values ++ later) (values ++ later).length where
  le := le_rfl
  value i hi := by
    rw [List.length_append] at hi
    by_cases hold : i < values.length
    · obtain ⟨content, hmem, heq⟩ := h.value i hold
      exact ⟨content, hmem, by rw [heq, List.getElem?_append_left hold]⟩
    · obtain ⟨content, hmem, heq⟩ := hlater (i - values.length) (by omega)
      refine ⟨content, hmem, ?_⟩
      rw [List.getElem?_append_right (by omega), ← heq]
      congr 1
      omega
  zero i hi hlt := absurd hlt (by omega)

/-- Zeros are added. -/
theorem ReadUpTo.append_zeros (h : ReadUpTo contents position values k) (m : ℕ) :
    ReadUpTo contents position (values ++ List.replicate m 0) k where
  le := by
    rw [List.length_append]
    exact h.le.trans (Nat.le_add_right _ _)
  value i hi := by
    obtain ⟨content, hmem, heq⟩ := h.value i hi
    exact ⟨content, hmem, by rw [heq, List.getElem?_append_left (hi.trans_le h.le)]⟩
  zero i hi hlt := by
    rw [List.length_append, List.length_replicate] at hlt
    by_cases hold : i < values.length
    · rw [List.getElem?_append_left hold, h.zero i hi hold]
    · rw [List.getElem?_append_right (by omega), List.getElem?_replicate_of_lt (by omega)]

/-- What was read completely needs no end. -/
theorem ReadUpTo.readFrom (h : ReadUpTo contents position values values.length) :
    ReadFrom contents position values := ⟨_, h, fun hlt => absurd hlt (lt_irrefl _)⟩

/-- More contents may have been read. -/
theorem ReadFrom.mono (h : ReadFrom contents position values) (hsub : contents ⊆ contents') :
    ReadFrom contents' position values := by
  obtain ⟨k, hread, hends⟩ := h
  exact ⟨k, hread.mono hsub, fun hlt => (hends hlt).mono hsub⟩

/-- The beginning of what was read was read as well. -/
theorem ReadFrom.of_isPrefix (h : ReadFrom contents position values) {first : List α}
    (hfirst : first <+: values) : ReadFrom contents position first := by
  obtain ⟨rest, rfl⟩ := hfirst
  obtain ⟨k, hread, hends⟩ := h
  have hsame {i : ℕ} (hi : i < first.length) : (first ++ rest)[i]? = first[i]? :=
    List.getElem?_append_left hi
  refine ⟨min k first.length, ⟨min_le_right _ _, fun i hi => ?_, fun i hi hlt => ?_⟩, fun hlt => ?_⟩
  · obtain ⟨content, hmem, heq⟩ := hread.value i (by omega)
    exact ⟨content, hmem, by rw [heq, hsame (by omega)]⟩
  · rw [← hsame hlt]
    exact hread.zero i (by omega) (by rw [List.length_append]; omega)
  · rw [min_eq_left (by omega)]
    exact hends (by rw [List.length_append]; omega)

/-- With a single content the values are those of the content, and zeros behind its end. -/
theorem ReadFrom.eq_padded {content : List α} (h : ReadFrom [content] position values) :
    values = padded content position values.length := by
  obtain ⟨k, hread, hends⟩ := h
  refine List.ext_getElem (padded_length _ _ _).symm fun i hi hpadded => ?_
  rw [padded_getElem]
  by_cases hk : i < k
  · obtain ⟨c, hc, heq⟩ := hread.value i hk
    obtain rfl := List.mem_singleton.mp hc
    rw [List.getElem?_eq_getElem hi] at heq
    obtain ⟨hin, hvalue⟩ := List.getElem?_eq_some_iff.mp heq
    rw [byteAt_of_lt hin, hvalue]
  · obtain ⟨c, hc, hle⟩ := hends (by omega)
    obtain rfl := List.mem_singleton.mp hc
    have hzero := hread.zero i (by omega) hi
    rw [List.getElem?_eq_getElem hi] at hzero
    rw [byteAt_of_le (by omega), Option.some.inj hzero]

end

end Content

import Udtfs.Client

/-!
# Cached reads

A read is answered from a window of the file that an earlier read has fetched, or, if that window
lacks a part of the range, from a new one that begins at the offset of the read. The cropping at
the end of the file and the test for a refill mix signed and unsigned values; for every offset
that can occur they are worked out here in plain arithmetic.
-/

namespace Udtfs

open NulString Content

/-- The cached window holds what this content holds there, zeros behind its end. -/
structure Client.Caches (c : Client) (content : Bytes) : Prop where
  offset_nonneg : 0 ≤ c.cacheOffset
  offset_lt : c.cacheOffset < 2 ^ 63
  len_le : c.cacheLen ≤ maxCacheSize
  window : ∀ i, i < c.cacheLen → c.cache i = byteAt content (c.cacheOffset.toNat + i)

/-- The remembered size is a size, and the offset is an offset. -/
structure Client.Ranged (c : Client) (offset : ℤ) : Prop where
  nonneg : 0 ≤ offset
  lt : offset < 2 ^ 63
  size_nonneg : 0 ≤ c.fileStats.stSize
  size_lt : c.fileStats.stSize < 2 ^ 63

/-- A read asks the server: it returns something, and the cache lacks a part of it. -/
def Client.Refills (c : Client) (size : ℕ) (offset : ℤ) : Prop :=
  0 < c.actualsize size offset ∧ c.needsRefill (c.actualsize size offset) offset = true

instance (c : Client) (size : ℕ) (offset : ℤ) : Decidable (c.Refills size offset) :=
  inferInstanceAs (Decidable (_ ∧ _))

/-- The content that the window holds after a read: that of the file if the read asks the server,
otherwise that of the file when the cache was filled. -/
def Client.source (c : Client) (size : ℕ) (offset : ℤ) (fetched content : Bytes) : Bytes :=
  if c.Refills size offset then content else fetched

/-- The byte that a read returns at an index. Behind the fetched amount it is whatever the cache
memory held before. -/
def Client.served (c : Client) (size : ℕ) (offset : ℤ) (fetched content : Bytes) (i : ℕ) : UInt8 :=
  if c.Refills size offset then
    if i < c.fetchsize then byteAt content (offset.toNat + i) else c.cache i
  else byteAt fetched (offset.toNat + i)

section
variable {c : Client} {size : ℕ} {offset : ℤ}

/-- Within the file the crop is the intended one. -/
theorem actualsize_inside (h : c.Ranged offset) (hle : offset ≤ c.fileStats.stSize) :
    c.actualsize size offset = min size (c.fileStats.stSize - offset).toNat := by
  have hleft : toSizeT (c.fileStats.stSize - offset) = (c.fileStats.stSize - offset).toNat := by
    have := h.nonneg
    have := h.size_lt
    exact toSizeT_of_nonneg (by omega) (by omega)
  rw [Client.actualsize, hleft]
  split <;> omega

/-- Behind the file the difference wraps around to a size that no file reaches. -/
theorem actualsize_behind (h : c.Ranged offset) (hlt : c.fileStats.stSize < offset) :
    c.actualsize size offset = min size (2 ^ 64 + (c.fileStats.stSize - offset)).toNat := by
  have hleft : toSizeT (c.fileStats.stSize - offset) =
      (2 ^ 64 + (c.fileStats.stSize - offset)).toNat := by
    have := h.lt
    have := h.size_nonneg
    rw [toSizeT, ← Int.add_emod_left, Int.emod_eq_of_lt (by omega) (by omega)]
  rw [Client.actualsize, hleft]
  split <;> omega

/-- A read returns an amount that a file can hold exactly if the remembered size crops it so, or
lies before the offset and the read is not cropped at all. -/
theorem actualsize_eq_iff (h : c.Ranged offset) {n : ℕ} (hn : n < 2 ^ 63) :
    c.actualsize size offset = n ↔
      n = if offset ≤ c.fileStats.stSize then min size (c.fileStats.stSize - offset).toNat
        else size := by
  split
  · next hle => rw [actualsize_inside h hle, eq_comm]
  · next hlt =>
    have := h.lt
    have := h.size_nonneg
    rw [actualsize_behind h (by omega)]
    omega

/-- The amount of a refill is the file's size, but at most the cache's. -/
theorem fetchsize_eq (h : c.Ranged offset) :
    c.fetchsize = min c.fileStats.stSize.toNat maxCacheSize := by
  have hst : toSizeT c.fileStats.stSize = c.fileStats.stSize.toNat := by
    have := h.size_lt
    exact toSizeT_of_nonneg h.size_nonneg (by omega)
  rw [Client.fetchsize, hst]
  split <;> omega

/-- Within the file a refill fetches the whole range of a read. -/
theorem actualsize_le_fetchsize (h : c.Ranged offset) (hle : offset ≤ c.fileStats.stSize)
    (hsize : size ≤ maxCacheSize) : c.actualsize size offset ≤ c.fetchsize := by
  have := h.nonneg
  rw [actualsize_inside h hle, fetchsize_eq h]
  omega

/-- The unsigned test for a refill is the intended one, wherever the window lies. -/
theorem needsRefill_iff_of_window (hcacheOffset : 0 ≤ c.cacheOffset)
    (hcacheLt : c.cacheOffset < 2 ^ 63) (hlen : c.cacheLen ≤ maxCacheSize) (hoffset : 0 ≤ offset)
    (hlt : offset < 2 ^ 63) {n : ℕ} (hn : n ≤ maxCacheSize) :
    c.needsRefill n offset = true ↔
      offset < c.cacheOffset ∨ c.cacheOffset + c.cacheLen < offset + n := by
  have hmax : maxCacheSize = 33554432 := rfl
  rw [Client.needsRefill, toSizeT_of_nonneg (by omega) (by omega),
    toSizeT_of_nonneg (by omega) (by omega)]
  simp only [Bool.or_eq_true, decide_eq_true_eq]
  omega

/-- In particular when the window holds what a content holds there. -/
theorem needsRefill_iff {content : Bytes} (hc : c.Caches content) (h : c.Ranged offset) {n : ℕ}
    (hn : n ≤ maxCacheSize) :
    c.needsRefill n offset = true ↔
      offset < c.cacheOffset ∨ c.cacheOffset + c.cacheLen < offset + n :=
  needsRefill_iff_of_window hc.offset_nonneg hc.offset_lt hc.len_le h.nonneg h.lt hn

/-- A refill puts the fetched part of the file into the cache and leaves the memory behind it. -/
theorem refill_padded (h : c.Ranged offset) (content : Bytes) :
    ∃ c', c.refill offset (padded content offset.toNat c.fetchsize) = some c' ∧
      c'.Caches content ∧ c'.cacheOffset = offset ∧ c'.cacheLen = c.fetchsize ∧
      (∀ i, c'.cache i =
        if i < c.fetchsize then byteAt content (offset.toNat + i) else c.cache i) ∧
      c'.fileIsOpen = c.fileIsOpen ∧ c'.fileName = c.fileName ∧ c'.fileStats = c.fileStats := by
  have hfetch : c.fetchsize ≤ maxCacheSize := by
    rw [fetchsize_eq h]
    exact Nat.min_le_right _ _
  have hreceive := clientRecvsegment_append (padded content offset.toNat c.fetchsize) [] c.cache
  rw [List.append_nil, padded_length] at hreceive
  have hcache (i : ℕ) : (if i < c.fetchsize then
      byteAt (padded content offset.toNat c.fetchsize) i else c.cache i) =
        if i < c.fetchsize then byteAt content (offset.toNat + i) else c.cache i := by
    split
    · next hi =>
      have hlength : i < (padded content offset.toNat c.fetchsize).length := by
        rwa [padded_length]
      rw [byteAt_of_lt hlength, padded_getElem]
    · rfl
  rw [Client.refill, if_pos hfetch, hreceive]
  refine ⟨_, rfl, ⟨h.nonneg, h.lt, hfetch, ?_⟩, rfl, rfl, hcache, rfl, rfl, rfl⟩
  intro i hi
  exact (hcache i).trans (if_pos hi)

/-- What fits into the cache is copied from the index of the offset in the window. -/
theorem copyOut_eq (offset : ℤ) {n : ℕ} (hn : n ≤ maxCacheSize) (hlow : c.cacheOffset ≤ offset)
    (hhigh : offset - c.cacheOffset + n ≤ maxCacheSize) :
    c.copyOut n offset = some ⟨n, offset - c.cacheOffset,
      (List.range n).map fun i => c.cache ((offset - c.cacheOffset).toNat + i), c⟩ := by
  have hmax : maxCacheSize = 33554432 := rfl
  rw [Client.copyOut, if_pos ⟨by omega, hhigh⟩, toInt_of_range (by omega) (by omega)]

/-- What a read returns and leaves behind, when the window was filled from one content and the
file now holds another. -/
structure Reads (c : Client) (size : ℕ) (offset : ℤ) (fetched content : Bytes) (r : ReadResult) :
    Prop where
  ret : r.ret = c.actualsize size offset
  buf : r.buf = (List.range (c.actualsize size offset)).map (c.served size offset fetched content)
  start : 0 ≤ r.start
  window : (c.Refills size offset → c.actualsize size offset ≤ c.fetchsize) →
    r.start + c.actualsize size offset ≤ r.client.cacheLen
  caches : r.client.Caches (c.source size offset fetched content)
  isOpen : r.client.fileIsOpen = c.fileIsOpen
  name : r.client.fileName = c.fileName
  stats : r.client.fileStats = c.fileStats

/-- A read that asks the server. -/
theorem udtfsRead_refills {fetched content : Bytes} (h : c.Ranged offset)
    (hn : c.actualsize size offset ≤ maxCacheSize) (beyond : Bytes)
    {serve : Request → Option Bytes} (hserve : serve (c.refillRequest beyond offset) =
      some (padded content offset.toNat c.fetchsize)) (hrefills : c.Refills size offset) :
    ∃ r, udtfsRead c beyond size offset serve = some r ∧ Reads c size offset fetched content r := by
  obtain ⟨c', hc', hcaches, hoffset, hlen, hcache, hopen, hname, hstats⟩ := refill_padded h content
  have hcopy := copyOut_eq (c := c') offset hn hoffset.le (by rw [hoffset]; omega)
  have hsource : c.source size offset fetched content = content := if_pos hrefills
  have hpos := hrefills.1
  have hneeds := hrefills.2
  rw [udtfsRead]
  dsimp only
  rw [if_neg (by omega), if_pos hneeds, hserve, Option.bind_some, hc', Option.bind_some, hcopy]
  refine ⟨_, rfl, ⟨rfl, ?_, ?_, fun hfits => ?_, by rwa [hsource], hopen, hname, hstats⟩⟩
  · apply List.map_congr_left
    intro i _
    rw [hoffset, Int.sub_self, Int.toNat_zero, Nat.zero_add, hcache i, Client.served,
      if_pos hrefills]
  · dsimp only
    omega
  · have hfits := hfits hrefills
    dsimp only
    omega

/-- A read that is answered from the window, or that returns nothing. -/
theorem udtfsRead_hits {fetched content : Bytes} (hc : c.Caches fetched) (h : c.Ranged offset)
    (hn : c.actualsize size offset ≤ maxCacheSize) (beyond : Bytes)
    (serve : Request → Option Bytes) (hrefills : ¬ c.Refills size offset) :
    ∃ r, udtfsRead c beyond size offset serve = some r ∧ Reads c size offset fetched content r := by
  have hsource : c.source size offset fetched content = fetched := if_neg hrefills
  have hlen := hc.len_le
  rw [udtfsRead]
  dsimp only
  by_cases hzero : c.actualsize size offset = 0
  · rw [if_pos (by omega)]
    refine ⟨_, rfl, ⟨?_, ?_, le_rfl, fun _ => ?_, by rwa [hsource], rfl, rfl, rfl⟩⟩
    · rw [hzero]
      rfl
    · rw [hzero]
      rfl
    · rw [hzero]
      exact Int.natCast_nonneg _
  · have hneeds : ¬ c.needsRefill (c.actualsize size offset) offset = true :=
      fun hneeds => hrefills ⟨by omega, hneeds⟩
    have hhit := mt (needsRefill_iff hc h hn).mpr hneeds
    have hcopy := copyOut_eq (c := c) offset hn (by omega) (by omega)
    rw [if_neg (by omega), if_neg hneeds, Option.bind_some, hcopy]
    refine ⟨_, rfl, ⟨rfl, ?_, ?_, fun _ => ?_, by rwa [hsource], rfl, rfl, rfl⟩⟩
    · apply List.map_congr_left
      intro i hi
      have hi := List.mem_range.mp hi
      have hnonneg := hc.offset_nonneg
      rw [Client.served, if_neg hrefills, hc.window _ (by omega)]
      congr 1
      omega
    · dsimp only
      omega
    · dsimp only
      omega

/-- A read of no more than the cache holds returns, with the bytes of the window as it was, or, if
that lacks a part of the range, with those of the file as it is now. -/
theorem udtfsRead_reads {fetched content : Bytes} (hc : c.Caches fetched) (h : c.Ranged offset)
    (hn : c.actualsize size offset ≤ maxCacheSize) (beyond : Bytes)
    {serve : Request → Option Bytes} (hserve : serve (c.refillRequest beyond offset) =
      some (padded content offset.toNat c.fetchsize)) :
    ∃ r, udtfsRead c beyond size offset serve = some r ∧ Reads c size offset fetched content r := by
  by_cases hrefills : c.Refills size offset
  · exact udtfsRead_refills h hn beyond hserve hrefills
  · exact udtfsRead_hits hc h hn beyond serve hrefills

/-- A read of more than the cache holds leaves the allocated memory. -/
theorem copyOut_none {n : ℕ} (hn : maxCacheSize < n) : c.copyOut n offset = none := by
  rw [Client.copyOut]
  exact if_neg (by omega)

/-- Such a read does not return. -/
theorem udtfsRead_none (hn : maxCacheSize < c.actualsize size offset) (beyond : Bytes)
    (serve : Request → Option Bytes) : udtfsRead c beyond size offset serve = none := by
  rw [udtfsRead]
  dsimp only
  rw [if_neg (by omega)]
  apply Option.bind_eq_none_iff.mpr
  intro c' _
  exact copyOut_none hn

end

end Udtfs

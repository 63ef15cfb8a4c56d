import Udtfs.Client
import Udtfs.Receives

/-!
# What a write does to the file

The server appends the received C string to the file; it ignores the size and the offset. A write
therefore has its meaning only if appending happens to have the same effect, and only if the name
and the string fit the receive buffers, for otherwise the stream does not stand at the next
command.
-/

namespace Udtfs

open NulString Content

section
variable (stale : ℕ → Bytes) (ending : RecvEnd) (shell : Bytes → ServerFs → ServerFs)

/-- A write to the open file has its meaning: the callback returns the size, the server consumes
exactly the request, and the file is overwritten by the payload. -/
def WriteFaithful (fs : ServerFs) (c : Client) (beyond : Bytes) (p : FusePath)
    (content data dataBeyond : Bytes) (offset : ℤ) (later : Bytes) : Prop :=
  let sent := udtfsWrite c beyond p.bytes data dataBeyond offset
  sent.ret = data.length ∧
    ∃ q answer, handleCommand stale ⟨sent.request.wire ++ later, ending⟩ =
        some (.handled q, ⟨later, ending⟩) ∧
      fs.act shell q = some answer ∧
      answer.fs.contentOf p.name = some (overwrite content offset.toNat data)

/-- What is appended to the file: the sent string as far as the file may grow. -/
def appendedPart (fs : ServerFs) (f : File) (data dataBeyond : Bytes) : Bytes :=
  (sentPayload data dataBeyond).take (fs.maxSize - f.content.length).toNat

/-- When appending the sent string has the meaning of the write. -/
structure WriteCondition (fs : ServerFs) (p : FusePath) (f : File) (data dataBeyond : Bytes)
    (offset : ℤ) : Prop where
  name : p.name.length ≤ 126
  writable : f.writable = true
  size : data.length < 2 ^ 31
  payload : (sentPayload data dataBeyond).length ≤ 126
  start : offset.toNat ≤ f.content.length
  appended : f.content.drop offset.toNat ++ appendedPart fs f data dataBeyond = data ∨
    appendedPart fs f data dataBeyond = [] ∧ slice f.content offset.toNat data.length = data

/-- What is appended contains no zeros. -/
theorem appendedPart_nulFree (fs : ServerFs) (f : File) (data dataBeyond : Bytes) :
    NulFree (appendedPart fs f data dataBeyond) :=
  (cstr_nulFree _).of_isPrefix (List.take_prefix _ _)

/-- A remembered name fits the receive buffer exactly if the opened name does, and it is then that
name. -/
theorem openName_short_iff {c : Client} {p : FusePath} (hc : c.fileName = strncpy p.name mMaxVal)
    (beyond : Bytes) : (c.openName beyond).length < 127 ↔ p.name.length ≤ 126 := by
  by_cases hlen : p.name.length < mMaxVal
  · rw [openName_of_strncpy hc p.name_nulFree hlen]
    omega
  · have hfull : strncpy p.name mMaxVal = p.name.take mMaxVal := by
      rw [strncpy, Nat.sub_eq_zero_of_le (by omega), List.replicate_zero, List.append_nil]
    rw [Client.openName, hc, hfull,
      cstr_append_of_nulFree (p.name_nulFree.of_isPrefix (List.take_prefix _ _)),
      List.length_append, List.length_take_of_le (by omega)]
    simp only [mMaxVal] at hlen ⊢
    omega

/-- The server appends the string to a file with write permission. -/
theorem act_write {fs : ServerFs} {p : FusePath} {f : File}
    (hf : fs.lookup p.name = some (.file f)) (s : Bytes) (size : ℕ) (offset : ℤ) (updated : Bytes) :
    (∃ answer, fs.act shell (.write p.name s size offset) = some answer ∧
        answer.fs.contentOf p.name = some updated) ↔
      f.writable = true ∧
        f.content ++ s.take (fs.maxSize - f.content.length).toNat = updated := by
  simp only [ServerFs.act, ServerFs.fopenAppend, hf]
  by_cases hw : f.writable = true
  · simp [hw, ServerFs.contentOf, ServerFs.lookup_setNode hf, ServerFs.appended]
  · simp [hw]

/-- A faithful write meets the condition: the request is consumed exactly, so every one of its strings
fits. -/
theorem WriteFaithful.condition {fs : ServerFs} {c : Client} {p : FusePath} {f : File}
    (hc : c.fileName = strncpy p.name mMaxVal) (hf : fs.lookup p.name = some (.file f))
    {beyond data dataBeyond : Bytes} {offset : ℤ} (hoffset : 0 ≤ offset) (hoff : offset < 2 ^ 63)
    {later : Bytes}
    (h : WriteFaithful stale ending shell fs c beyond p f.content data dataBeyond offset later) :
    WriteCondition fs p f data dataBeyond offset := by
  have hname : NulFree (c.openName beyond) := cstr_nulFree _
  have hsent : NulFree (sentPayload data dataBeyond) := cstr_nulFree _
  obtain ⟨hret, q, answer, hhandle, hact⟩ := h
  have hsize : data.length < 2 ^ 31 := (toInt_natCast_iff _).mp hret
  rw [udtfsWrite, wire_sentPayload] at hhandle
  obtain ⟨_, _, _, hpass⟩ := handleCommand_write stale ending hname hsent data.length offset later
  have hskip := (Prod.mk.inj (Option.some.inj (hpass.symm.trans hhandle))).2
  have hstrings : ∀ s ∈ [c.openName beyond, sentPayload data dataBeyond, printLu data.length,
      printLu offset], NulFree s := by
    simp [hname, hsent, printLu_nulFree]
  have hshort := (skip_frames_iff ending hstrings later).mp hskip
  have hshortName : p.name.length ≤ 126 :=
    (openName_short_iff hc beyond).mp (hshort _ List.mem_cons_self)
  have hshortPayload : (sentPayload data dataBeyond).length ≤ 126 := by
    have := hshort (sentPayload data dataBeyond) (by simp)
    omega
  rw [openName_eq hc hshortName] at hhandle
  have hcarried : (Request.write p.name (sentPayload data dataBeyond) data.length offset).Carried :=
    ⟨⟨p.name_nulFree, hshortName⟩, ⟨hsent, hshortPayload⟩, by omega, hoffset, hoff⟩
  rw [hcarried.handle stale later ending] at hhandle
  obtain rfl := Served.handled.inj (Prod.mk.inj (Option.some.inj hhandle)).1
  obtain ⟨hwritable, hcontent⟩ := (act_write shell hf _ _ _ _).mp ⟨answer, hact⟩
  obtain ⟨hstart, happended⟩ := (append_eq_overwrite_iff (appendedPart_nulFree fs f data dataBeyond) _).mp hcontent
  exact ⟨hshortName, hwritable, hsize, hshortPayload, hstart, happended⟩

/-- Under the condition a write is faithful. -/
theorem WriteCondition.faithful {fs : ServerFs} {c : Client} {p : FusePath} {f : File}
    (hc : c.fileName = strncpy p.name mMaxVal) (hf : fs.lookup p.name = some (.file f))
    {beyond data dataBeyond : Bytes} {offset : ℤ} (hoffset : 0 ≤ offset) (hoff : offset < 2 ^ 63)
    {later : Bytes} (h : WriteCondition fs p f data dataBeyond offset) :
    WriteFaithful stale ending shell fs c beyond p f.content data dataBeyond offset later := by
  have hsent : NulFree (sentPayload data dataBeyond) := cstr_nulFree _
  have hsize := h.size
  have hcarried : (Request.write p.name (sentPayload data dataBeyond) data.length offset).Carried :=
    ⟨⟨p.name_nulFree, h.name⟩, ⟨hsent, h.payload⟩, by omega, hoffset, hoff⟩
  have hcontent := (append_eq_overwrite_iff (appendedPart_nulFree fs f data dataBeyond) offset.toNat).mpr
    ⟨h.start, h.appended⟩
  obtain ⟨answer, hact⟩ :=
    (act_write shell hf _ data.length offset _).mpr ⟨h.writable, hcontent⟩
  rw [WriteFaithful, udtfsWrite, wire_sentPayload, openName_eq hc h.name]
  exact ⟨(toInt_natCast_iff _).mpr h.size, _, answer, hcarried.handle stale later ending, hact⟩

/-- A write is faithful exactly if name and payload fit, the file may be written, and appending the
payload's C string, as far as there is room for it, amounts to the overwrite. -/
theorem write_faithful_iff {fs : ServerFs} {c : Client} {p : FusePath} {f : File}
    (hc : c.fileName = strncpy p.name mMaxVal) (hf : fs.lookup p.name = some (.file f))
    (beyond data dataBeyond : Bytes) {offset : ℤ} (hoffset : 0 ≤ offset) (hoff : offset < 2 ^ 63)
    (later : Bytes) :
    WriteFaithful stale ending shell fs c beyond p f.content data dataBeyond offset later ↔
      WriteCondition fs p f data dataBeyond offset :=
  ⟨WriteFaithful.condition stale ending shell hc hf hoffset hoff,
    WriteCondition.faithful stale ending shell hc hf hoffset hoff⟩

end

/-- Text written at the end of a text file arrives as it should. -/
theorem write_faithful_text :
    WriteFaithful (fun _ => []) .closed (fun _ fs => fs)
      (ServerFs.ofFiles [(ascii "a", File.plain (ascii "one"))]) (Client.opened pathA.name) []
      pathA (File.plain (ascii "one")).content (ascii "two") [0] 3 [] :=
  (write_faithful_iff (fun _ => []) .closed (fun _ fs => fs) rfl
    (by decide) [] (ascii "two") [0] (show (0 : ℤ) ≤ 3 by decide)
    (show (3 : ℤ) < 2 ^ 63 by decide) []).mpr
    ⟨by decide, rfl, by decide, by decide, by decide, Or.inl (by decide)⟩

/-- A payload that is a single zero byte is not written at all. -/
theorem write_zero_lost :
    ¬ ∀ (fs : ServerFs) (c : Client) (p : FusePath) (f : File) (beyond data dataBeyond : Bytes)
      (offset : ℤ) (later : Bytes), c.fileName = strncpy p.name mMaxVal →
        fs.lookup p.name = some (.file f) → f.writable = true → 1 ≤ data.length → 0 ≤ offset →
          offset < 2 ^ 63 →
          WriteFaithful (fun _ => []) .closed (fun _ fs => fs) fs c beyond p f.content data
            dataBeyond offset later := by
  intro h
  have hfaithful := h (ServerFs.ofFiles [(ascii "a", File.plain [])]) (Client.opened pathA.name)
    pathA (File.plain []) [] [0] [0] 0 [] rfl (by decide) rfl (by decide)
    (by decide) (by decide)
  have hcondition : WriteCondition (ServerFs.ofFiles [(ascii "a", File.plain [])]) pathA (File.plain []) [0] [0] 0 :=
    hfaithful.condition _ _ _ rfl (by decide) le_rfl (by decide)
  have happended := hcondition.appended
  revert happended
  decide

end Udtfs

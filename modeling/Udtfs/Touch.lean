import Udtfs.Callbacks
import Udtfs.Client
import Udtfs.Shell

/-!
# Times set by `touch`

The request of `udtfs_utimens` carries no times, and the handler splices the path into a command line
for the shell as it is. So the access and modification times become the time at which `touch` runs,
and a path in which the shell finds blanks, operators, quotes or something to expand is not what `touch`
is given.
-/

namespace Udtfs

open NulString ShellWords

/-- The file at the path has these access and modification times and is otherwise, up to the time of the
change, what it was; nothing else has changed; and the command is `touch` with the path as its only
operand, from whose expansion nothing has changed either. -/
structure UtimensDone (sh : Shell) (fs after : ServerFs) (path : Bytes) (f : File) (atime mtime : ℤ) :
    Prop where
  file : ∃ ctime, after.node (resolve fs.cwd (pathToLocal path)) = some (.file { f with
    attributes := { f.attributes with stAtime := atime, stMtime := mtime, stCtime := ctime } })
  frame : ∀ q, q ≠ resolve fs.cwd (pathToLocal path) → after.node q = fs.node q
  rest : after.cwd = fs.cwd ∧ after.fresh = fs.fresh ∧ after.maxSize = fs.maxSize
  command : sh.command fs (touchLine path) = some ([ascii "touch", pathToLocal path], fs)

/-- The times that `touch` leaves on a file. -/
def File.touchedTimes (f : File) (now : ℤ) : ℤ × ℤ :=
  if f.touchable then (now, now) else (f.attributes.stAtime, f.attributes.stMtime)

/-- The shell takes the path as one word that spells the path, and does nothing for it. Where it finds
nothing to expand this is so for plain bytes, which a backslash may follow. -/
def Shell.TakesWhole (sh : Shell) (fs : ServerFs) (path : Bytes) : Prop :=
  if path.any isExpansion then
    sh.expand fs (touchLine path) = some ([ascii "touch", pathToLocal path], fs)
  else Literal path

/-- A whole path is made local by a dot. -/
theorem FusePath.pathToLocal_bytes (p : FusePath) (hlen : p.bytes.length ≤ 126) :
    pathToLocal p.bytes = 46 :: p.bytes := by
  rw [pathToLocal, if_pos (show p.bytes.head? = some 47 from rfl),
    List.take_of_length_le (hlen.trans (by decide))]

/-- The whole path is in the line. -/
theorem FusePath.touchLine_eq (p : FusePath) (hlen : p.bytes.length ≤ 126) :
    touchLine p.bytes = ascii "touch" ++ 32 :: 46 :: p.bytes := by
  have htouch : ascii "touch " = ascii "touch" ++ [32] := by decide
  have hlength : (ascii "touch").length = 5 := by decide
  rw [touchLine, p.pathToLocal_bytes hlen, htouch, List.append_assoc, List.singleton_append,
    List.take_of_length_le]
  rw [List.length_append, List.length_cons, List.length_cons, hlength]
  omega

/-- The line is the command `touch` with the path exactly if the shell takes the path whole. -/
theorem FusePath.command_touchLine_iff (p : FusePath) (hlen : p.bytes.length ≤ 126) (sh : Shell)
    (fs : ServerFs) :
    sh.command fs (touchLine p.bytes) = some ([ascii "touch", pathToLocal p.bytes], fs) ↔
      sh.TakesWhole fs p.bytes := by
  have hline := p.touchLine_eq hlen
  have hany : (touchLine p.bytes).any isExpansion = p.bytes.any isExpansion := by
    have htouch : (ascii "touch").any isExpansion = false := by decide
    have hblank : isExpansion 32 = false := by decide
    have hdot : isExpansion 46 = false := by decide
    rw [hline, List.any_append, htouch, List.any_cons, List.any_cons, hblank, hdot]
    rfl
  rw [Shell.command, Shell.TakesWhole, hany]
  by_cases hexpansion : p.bytes.any isExpansion = true
  · rw [if_pos hexpansion, if_pos hexpansion]
  · rw [if_neg hexpansion, if_neg hexpansion, hline, p.pathToLocal_bytes hlen]
    have hname : ∀ c ∈ ascii "ouch", isPlain c = true :=
      List.all_eq_true.mp (show (ascii "ouch").all isPlain = true by decide)
    have hwords : simpleCommand (ascii "touch" ++ 32 :: 46 :: p.bytes) =
        some [ascii "touch", 46 :: p.bytes] ↔ Literal p.bytes :=
      simpleCommand_operand_iff (b := 116) (by decide) (by decide) hname (by decide) (by decide) p.bytes
    rw [← hwords, Option.map_eq_some_iff]
    constructor
    · rintro ⟨words, hline, hpair⟩
      rw [hline, (Prod.mk.inj hpair).1]
    · intro hline
      exact ⟨_, hline, rfl⟩

section
variable {sh : Shell} {fs : ServerFs} {p : FusePath} {f : File} {atime mtime : ℤ}

/-- If the shell takes the path whole, the file is touched. -/
theorem Shell.TakesWhole.system (h : sh.TakesWhole fs p.bytes) (hlen : p.bytes.length ≤ 126) :
    sh.system (touchLine p.bytes) fs = fs.touch sh.now (pathToLocal p.bytes) := by
  have hcommand := (p.command_touchLine_iff hlen sh fs).mpr h
  have hoperand : (pathToLocal p.bytes).head? ≠ some 45 ∧ (pathToLocal p.bytes).head? ≠ some 126 := by
    rw [p.pathToLocal_bytes hlen]
    simp
  have htouch : touchOperands [ascii "touch", pathToLocal p.bytes] = some [pathToLocal p.bytes] := by
    rw [touchOperands]
    exact if_pos ⟨rfl, List.cons_ne_nil _ [], List.forall_mem_singleton.mpr hoperand⟩
  rw [Shell.system, hcommand]
  simp only [htouch, List.foldl_cons, List.foldl_nil]

/-- A touched file has the times that `touch` leaves. -/
theorem utimensDone_touch_iff (hfile : fs.lookup (pathToLocal p.bytes) = some (.file f))
    (hcommand : sh.command fs (touchLine p.bytes) = some ([ascii "touch", pathToLocal p.bytes], fs)) :
    UtimensDone sh fs (fs.touch sh.now (pathToLocal p.bytes)) p.bytes f atime mtime ↔
      (atime, mtime) = f.touchedTimes sh.now := by
  rw [ServerFs.touch, hfile, File.touchedTimes]
  dsimp only
  by_cases htouchable : f.touchable = true
  · rw [if_pos htouchable, if_pos htouchable]
    constructor
    · rintro ⟨⟨ctime, hnode⟩, -, -, -⟩
      rw [ServerFs.setNode_self] at hnode
      have hfile := Node.file.inj (Option.some.inj hnode)
      have hattributes := congrArg File.attributes hfile
      exact Prod.ext (congrArg Stat.stAtime hattributes).symm (congrArg Stat.stMtime hattributes).symm
    · intro htimes
      obtain ⟨rfl, rfl⟩ := Prod.mk.inj htimes
      exact ⟨⟨sh.now, ServerFs.setNode_self fs _ _⟩, fun q hq => ServerFs.setNode_ne fs hq _,
        ⟨rfl, rfl, rfl⟩, hcommand⟩
  · rw [if_neg htouchable, if_neg htouchable]
    have hnode := ServerFs.node_of_lookup hfile
    constructor
    · rintro ⟨⟨ctime, hafter⟩, -, -, -⟩
      rw [hnode] at hafter
      have hattributes := congrArg File.attributes (Node.file.inj (Option.some.inj hafter))
      exact Prod.ext (congrArg Stat.stAtime hattributes).symm (congrArg Stat.stMtime hattributes).symm
    · intro htimes
      obtain ⟨rfl, rfl⟩ := Prod.mk.inj htimes
      exact ⟨⟨f.attributes.stCtime, hnode⟩, fun q hq => rfl, ⟨rfl, rfl, rfl⟩, hcommand⟩

/-- **Times of exactly the named file.** A call of `udtfs_utimens` with the path of a file sets these times
and nothing else, by the one command `touch` with the one operand, exactly if the shell takes the path
whole and the times are those that `touch` leaves. -/
theorem utimens_iff (stale : ℕ → Bytes) (hlen : p.bytes.length ≤ 126)
    (hfile : fs.lookup (pathToLocal p.bytes) = some (.file f)) :
    (∃ answer, exchange stale sh.system fs (udtfsUtimens p.bytes).request = some answer ∧
        UtimensDone sh fs answer.fs p.bytes f atime mtime) ↔
      sh.TakesWhole fs p.bytes ∧ (atime, mtime) = f.touchedTimes sh.now := by
  have hcarried : (Request.utime p.bytes).Carried :=
    ⟨(nulFree_cons 47 p.name).mpr ⟨by decide, p.name_nulFree⟩, hlen⟩
  have hexchange : exchange stale sh.system fs (udtfsUtimens p.bytes).request =
      some ⟨sh.system (touchLine p.bytes) fs, [], []⟩ := exchange_carried hcarried stale sh.system fs
  have hcommand := p.command_touchLine_iff hlen sh fs
  rw [hexchange]
  constructor
  · rintro ⟨answer, hanswer, hdone⟩
    obtain rfl := Option.some.inj hanswer
    have hwhole := hcommand.mp hdone.command
    dsimp only at hdone
    rw [hwhole.system hlen, utimensDone_touch_iff hfile (hcommand.mpr hwhole)] at hdone
    exact ⟨hwhole, hdone⟩
  · rintro ⟨hwhole, htimes⟩
    refine ⟨_, rfl, ?_⟩
    dsimp only
    rw [hwhole.system hlen]
    exact (utimensDone_touch_iff hfile (hcommand.mpr hwhole)).mpr htimes

end

/-- A shell that runs at the time 7 and in which nothing but `touch` has an effect. -/
def quietShell : Shell := ⟨7, fun _ _ => none, fun fs _ => fs⟩

/-- The times of `/a` are set to the time of the command. -/
theorem utimens_a :
    ∃ answer, exchange (fun _ => []) quietShell.system
        (ServerFs.ofFiles [(ascii "a", File.plain (ascii "x"))]) (udtfsUtimens pathA.bytes).request =
          some answer ∧
      UtimensDone quietShell (ServerFs.ofFiles [(ascii "a", File.plain (ascii "x"))]) answer.fs
        pathA.bytes (File.plain (ascii "x")) 7 7 := by
  have hwhole : quietShell.TakesWhole (ServerFs.ofFiles [(ascii "a", File.plain (ascii "x"))])
      pathA.bytes := by
    rw [Shell.TakesWhole, if_neg (by decide)]
    exact .inl (List.all_eq_true.mp (show pathA.bytes.all isPlain = true by decide))
  exact (utimens_iff (fun _ => []) (by decide) rfl).mpr ⟨hwhole, rfl⟩

/-- The path of a file with a blank in its name. -/
def pathBlank : FusePath := ⟨[ascii "a b"], by decide⟩

/-- No time can be set for it: the shell finds two operands. -/
theorem utimens_blank :
    ¬ ∀ (p : FusePath) (fs : ServerFs) (f : File) (atime mtime : ℤ), p.bytes.length ≤ 126 →
      fs.lookup (pathToLocal p.bytes) = some (.file f) →
        ∃ answer, exchange (fun _ => []) quietShell.system fs (udtfsUtimens p.bytes).request =
            some answer ∧ UtimensDone quietShell fs answer.fs p.bytes f atime mtime := by
  intro h
  obtain ⟨answer, -, hdone⟩ := h pathBlank
    (ServerFs.ofFiles [(ascii "a b", File.plain (ascii "x"))]) (File.plain (ascii "x")) 7 7 (by decide) rfl
  have hwords : quietShell.command (ServerFs.ofFiles [(ascii "a b", File.plain (ascii "x"))])
      (touchLine pathBlank.bytes) =
        some ([ascii "touch", ascii "./a", ascii "b"], ServerFs.ofFiles [(ascii "a b", File.plain (ascii "x"))]) := rfl
  exact absurd (congrArg (Option.map Prod.fst) (hwords.symm.trans hdone.command)) (by decide)

/-- Instead the two operands are created. -/
example :
    let after := quietShell.system (touchLine pathBlank.bytes)
      (ServerFs.ofFiles [(ascii "a b", File.plain (ascii "x"))])
    (after.node [ascii "a"]).isSome = true ∧ (after.node [ascii "b"]).isSome = true := by decide

end Udtfs

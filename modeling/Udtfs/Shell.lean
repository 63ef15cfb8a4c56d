import Udtfs.Replies
import Udtfs.Lib.ShellWords

/-!
# The shell behind `system`

`server_utime` passes its command line to a shell, which divides it into words, expands them and runs
the command that they name. Of the commands only `touch` with plain operands is known; what an expansion
gives and does, and what all other lines do, is left open.
-/

namespace Udtfs

open NulString ShellWords

/-- Attributes whose times have been set to one time. -/
def Stat.touched (st : Stat) (now : ℤ) : Stat :=
  { st with stAtime := now, stMtime := now, stCtime := now }

/-- `touch` for one operand: times are set if the server may do so, and a missing file is created. -/
def ServerFs.touch (fs : ServerFs) (now : ℤ) (path : Bytes) : ServerFs :=
  match fs.lookup path with
  | some (.file f) =>
    if f.touchable then
      fs.setNode (resolve fs.cwd path) (some (.file { f with attributes := f.attributes.touched now }))
    else fs
  | some (.directory d) =>
    if d.touchable then
      fs.setNode (resolve fs.cwd path)
        (some (.directory { d with attributes := d.attributes.touched now }))
    else fs
  | none => (fs.fopenAppend path []).getD fs

/-- The command line of `server_utime`. -/
def touchLine (path : Bytes) : Bytes := (ascii "touch " ++ pathToLocal path).take 255

/-- The operands of a command that is `touch` with operands that stand for themselves: a leading hyphen
makes an option, and a leading tilde stands for a home directory. -/
def touchOperands : List Bytes → Option (List Bytes)
  | [] => none
  | name :: operands =>
    if name = ascii "touch" ∧ operands ≠ [] ∧
        ∀ operand ∈ operands, operand.head? ≠ some 45 ∧ operand.head? ≠ some 126 then
      some operands
    else none

/-- A shell on the server. -/
structure Shell where
  /-- The time at which a command runs. -/
  now : ℤ
  /-- The words of a line in which there is something to expand, if it is a simple command, and the files
  after its expansions, which can run commands of their own. -/
  expand : ServerFs → Bytes → Option (List Bytes × ServerFs)
  /-- The effect of all other lines. -/
  other : ServerFs → Bytes → ServerFs

/-- The words of a line that is a simple command, and the files when the command starts. -/
def Shell.command (sh : Shell) (fs : ServerFs) (line : Bytes) : Option (List Bytes × ServerFs) :=
  if line.any isExpansion then sh.expand fs line
  else (simpleCommand line).map fun words => (words, fs)

/-- `system`. `touch` goes through its operands. -/
def Shell.system (sh : Shell) (line : Bytes) (fs : ServerFs) : ServerFs :=
  match sh.command fs line with
  | some (words, expanded) =>
    match touchOperands words with
    | some operands => operands.foldl (fun fs operand => fs.touch sh.now operand) expanded
    | none => sh.other fs line
  | none => sh.other fs line

end Udtfs

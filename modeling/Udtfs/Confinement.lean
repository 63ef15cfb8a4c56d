import Udtfs.Lib.LexicalPath
import Udtfs.Shell

/-!
# Which locations a request can reach

Of the eight handlers five make their path local to the shared directory, which drops the meaning of
a leading slash; read, truncate and write use the path as it arrives. None of them looks at `..`. So
a path stays inside the shared directory exactly if the names that it climbs are descended again,
and an absolute path of a read, truncate or write if it spells the shared directory's own location.
The path of a utime request goes through a shell, which can make several paths of it.
-/

namespace Udtfs

open NulString LexicalPath ShellWords

/-- The move that one component of a path asks for. -/
def move (name : Bytes) : Move Bytes :=
  if name = [] ∨ name = ascii "." then .stay else
  if name = ascii ".." then .up else .down name

/-- The components of a path. -/
def moves (path : Bytes) : List (Move Bytes) := (path.splitOn 47).map move

/-- The normal form of a path. -/
def pathRoute (path : Bytes) : Route Bytes := route (moves path)

/-- Resolution goes component by component. -/
theorem walk_eq_apply (dir : Path) (name : Bytes) : walk dir name = (move name).apply dir := by
  unfold walk move
  split
  · rfl
  · split <;> rfl

/-- Where a path leads is decided by its normal form. -/
theorem resolve_eq_target (cwd : Path) (path : Bytes) :
    resolve cwd path = (pathRoute path).target (if path.head? = some 47 then [] else cwd) := by
  rw [resolve, pathRoute, ← foldl_apply, moves, List.foldl_map]
  congr 1
  funext dir name
  exact walk_eq_apply dir name

/-- A path leads into the working directory: the names that it climbs are descended again, or it is
absolute and spells the working directory's location. -/
def StaysIn (cwd : Path) (path : Bytes) : Prop :=
  if path.head? = some 47 then cwd <+: (pathRoute path).names else (pathRoute path).Reenters cwd

instance (cwd : Path) (path : Bytes) : Decidable (StaysIn cwd path) :=
  inferInstanceAs (Decidable (if path.head? = some 47 then cwd <+: (pathRoute path).names
    else (pathRoute path).Reenters cwd))

/-- That is when the location of a path is at or below the working directory. -/
theorem prefix_resolve_iff (cwd : Path) (path : Bytes) :
    cwd <+: resolve cwd path ↔ StaysIn cwd path := by
  rw [resolve_eq_target, StaysIn]
  split
  · rw [Route.target_nil]
  · exact (pathRoute path).prefix_target_iff cwd

/-- The part of a path that is kept when it is made local. -/
def keptPart (path : Bytes) : Bytes :=
  if path.head? = some 47 then path.take (mMaxPath + mMaxFile - 1) else path

/-- A dot before a slash changes nothing. -/
theorem pathRoute_dot {path : Bytes} (h : path.head? = some 47) :
    pathRoute (46 :: path) = pathRoute path := by
  obtain ⟨rest, rfl⟩ := List.head?_eq_some_iff.mp h
  have hdot : (46 :: 47 :: rest).splitOn 47 = [46] :: rest.splitOn 47 :=
    List.splitOn_append_cons_self_of_not_mem (show (47 : UInt8) ∉ [46] by decide) rest
  have hslash : (47 :: rest).splitOn 47 = [] :: rest.splitOn 47 :=
    List.splitOn_append_cons_self_of_not_mem (show (47 : UInt8) ∉ [] by decide) rest
  have hmove : move [46] = move [] := by decide
  rw [pathRoute, pathRoute, moves, moves, hdot, hslash, List.map_cons, List.map_cons, hmove]

/-- A path made local leads where its kept part leads as a relative path. -/
theorem staysIn_pathToLocal (cwd : Path) (path : Bytes) :
    StaysIn cwd (pathToLocal path) ↔ (pathRoute (keptPart path)).Reenters cwd := by
  by_cases hslash : path.head? = some 47
  · have hkept : (path.take (mMaxPath + mMaxFile - 1)).head? = some 47 := by
      rw [List.head?_take, if_neg (by decide), hslash]
    rw [pathToLocal, keptPart, if_pos hslash, if_pos hslash, StaysIn,
      if_neg (by rw [List.head?_cons]; decide), pathRoute_dot hkept]
  · rw [pathToLocal, keptPart, if_neg hslash, if_neg hslash, StaysIn, if_neg hslash]

/-- The paths that the shell uses for a command line: the operands if it is `touch` with operands that
stand for themselves; what it uses for any other line is given. -/
def shellPaths (used : Bytes → List Bytes) (line : Bytes) : List Bytes :=
  if line.any isExpansion then used line
  else ((simpleCommand line).bind touchOperands).getD (used line)

/-- A line that is `touch` with such operands touches these paths, one after the other, and does nothing else. -/
theorem Shell.system_shellPaths (sh : Shell) (used : Bytes → List Bytes) (fs : ServerFs) {line : Bytes}
    {operands : List Bytes} (hplain : line.any isExpansion = false)
    (htouch : (simpleCommand line).bind touchOperands = some operands) :
    sh.system line fs = (shellPaths used line).foldl (fun fs path => fs.touch sh.now path) fs := by
  obtain ⟨words, hwords, hoperands⟩ := Option.bind_eq_some_iff.mp htouch
  have hcommand : sh.command fs line = some (words, fs) := by
    rw [Shell.command, if_neg (by rw [hplain]; decide), hwords, Option.map_some]
  have hpaths : shellPaths used line = operands := by
    rw [shellPaths, if_neg (by rw [hplain]; decide), htouch, Option.getD_some]
  rw [Shell.system, hcommand, hpaths]
  simp only [hoperands]

/-- The paths that a handler hands to the operating system, itself or through the shell. -/
def Request.handed (used : Bytes → List Bytes) : Request → List Bytes
  | .dir path => [pathToLocal path]
  | .getattr path => [pathToLocal path]
  | .read filename _ _ => [filename]
  | .truncate path _ => [path]
  | .write path _ _ _ => [path]
  | .rename path newpath => [pathToLocal path, pathToLocal newpath]
  | .unlink path => [pathToLocal path]
  | .utime path => shellPaths used (touchLine path)

/-- Every path that the handler uses denotes the shared directory or something below it. -/
def Request.Confined (used : Bytes → List Bytes) (cwd : Path) (q : Request) : Prop :=
  ∀ path ∈ q.handed used, cwd <+: resolve cwd path

/-- The path arguments lead into the shared directory, each in the way that its handler reads it. -/
def Request.Inside (used : Bytes → List Bytes) (cwd : Path) : Request → Prop
  | .dir path => (pathRoute (keptPart path)).Reenters cwd
  | .getattr path => (pathRoute (keptPart path)).Reenters cwd
  | .read filename _ _ => StaysIn cwd filename
  | .truncate path _ => StaysIn cwd path
  | .write path _ _ _ => StaysIn cwd path
  | .rename path newpath =>
    (pathRoute (keptPart path)).Reenters cwd ∧ (pathRoute (keptPart newpath)).Reenters cwd
  | .unlink path => (pathRoute (keptPart path)).Reenters cwd
  | .utime path => ∀ operand ∈ shellPaths used (touchLine path), StaysIn cwd operand

/-- A handler stays inside the shared directory exactly if its path arguments do. -/
theorem confined_iff (used : Bytes → List Bytes) (cwd : Path) (q : Request) :
    q.Confined used cwd ↔ q.Inside used cwd := by
  cases q <;>
    simp only [Request.Confined, Request.handed, Request.Inside, List.forall_mem_cons,
      List.not_mem_nil, false_imp_iff, implies_true, and_true, prefix_resolve_iff,
      staysIn_pathToLocal]

/-- A blank in the path of a utime request leads to a second operand, which is used as it is. -/
example : (Request.utime (ascii "/a /etc/passwd")).handed (fun _ => []) =
    [ascii "./a", ascii "/etc/passwd"] := by decide

/-- In particular a relative path none of whose beginnings has more parents than names. -/
theorem staysIn_of_never_climbs (cwd : Path) {path : Bytes} (hrelative : path.head? ≠ some 47)
    (h : ∀ before, before <+: moves path → before.countP Move.isUp ≤ before.countP Move.isDown) :
    StaysIn cwd path := by
  rw [StaysIn, if_neg hrelative]
  exact Route.reenters_of_ups_eq_zero ((route_ups_eq_zero_iff _).mpr h) cwd

/-- A client can name a file outside the shared directory: a read uses its path as it arrives. -/
theorem read_absolute_escapes :
    ¬ ∀ (used : Bytes → List Bytes) (stale : ℕ → Bytes) (s rest : TcpStream) (cwd : Path) (q : Request),
      handleCommand stale s = some (.handled q, rest) → q.Confined used cwd := by
  intro h
  have hcarried : (Request.read (ascii "/etc/passwd") 0 1).Carried :=
    ⟨⟨by decide, by decide⟩, by decide, by decide⟩
  have hhandle := hcarried.handle (fun _ => []) [] .closed
  have hescapes := h (fun _ => []) _ _ _ [ascii "srv"] _ hhandle (ascii "/etc/passwd") List.mem_cons_self
  exact absurd hescapes (by decide)

/-- What a path names depends on the directories on the way and on what is at its location. -/
theorem lookup_congr {fs fs' : ServerFs} {path : Bytes} (hcwd : fs'.cwd = fs.cwd)
    (hsearchable : ∀ loc, fs'.searchable loc = fs.searchable loc)
    (hnode : fs'.node (resolve fs.cwd path) = fs.node (resolve fs.cwd path)) :
    fs'.lookup path = fs.lookup path := by
  rw [ServerFs.lookup, ServerFs.lookup, ServerFs.reaches_congr hcwd hsearchable, hcwd, hnode]

/-- The replies to a listing, an attribute or a read request are the same in two trees with the same ways
that differ only outside the shared directory, if the request is confined to it. -/
theorem reply_congr (used : Bytes → List Bytes) (shell : Bytes → ServerFs → ServerFs)
    {fs fs' : ServerFs} (hcwd : fs'.cwd = fs.cwd)
    (hsearchable : ∀ loc, fs'.searchable loc = fs.searchable loc)
    (hinside : ∀ loc, fs.cwd <+: loc → fs'.node loc = fs.node loc) {q : Request}
    (hq : q.command = .dir ∨ q.command = .getattr ∨ q.command = .read)
    (hconfined : q.Confined used fs.cwd) :
    (fs'.act shell q).map (fun answer => (answer.tcp, answer.udt)) =
      (fs.act shell q).map fun answer => (answer.tcp, answer.udt) := by
  have hlookup (path : Bytes) (hpath : path ∈ q.handed used) : fs'.lookup path = fs.lookup path :=
    lookup_congr hcwd hsearchable (hinside _ (hconfined path hpath))
  cases q with
  | dir path =>
    have hdir := hlookup (pathToLocal path) List.mem_cons_self
    simp only [ServerFs.act, ServerFs.opendir, hdir, Option.map_some]
  | getattr path =>
    have hattr := hlookup (pathToLocal path) List.mem_cons_self
    simp only [ServerFs.act, ServerFs.stat, hattr, Option.map_some]
  | read filename offset len =>
    have hfile := hlookup filename List.mem_cons_self
    simp only [ServerFs.act, ServerFs.fopenRead, hfile, Option.map_map]
    rfl
  | truncate | write | rename | unlink | utime => simp [Request.command] at hq

end Udtfs

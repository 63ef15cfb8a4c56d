import Mathlib.Data.List.DropRight
import Udtfs.Handlers
import Udtfs.Lib.Content

/-!
# The files of the server

The tree that the server shares and the system calls its handlers make on it. A path is followed
component by component from the working directory, each in a directory that exists and may be
searched; there are no links. The calls succeed or fail by the existence and the permissions of the
files and by the largest size that a file can have.
-/

namespace Udtfs

open NulString Content

/-! ## Paths -/

/-- A location in the tree, as the names on the way from the root. -/
abbrev Path := List Bytes

/-- One component of a path: empty and `.` stay, `..` goes to the parent. -/
def walk (dir : Path) (name : Bytes) : Path :=
  if name = [] ∨ name = ascii "." then dir else
  if name = ascii ".." then dir.dropLast else dir ++ [name]

/-- The location that a path denotes for a process with this working directory. -/
def resolve (cwd : Path) (path : Bytes) : Path :=
  (path.splitOn 47).foldl walk (if path.head? = some 47 then [] else cwd)

/-- A path without the slashes at its end. -/
def withoutSlashes (path : Bytes) : Bytes := path.rdropWhile fun b => b = 47

/-- The last component of a path is a name, neither `.` nor `..`. -/
def endsInName (path : Bytes) : Bool :=
  match ((withoutSlashes path).splitOn 47).getLast? with
  | some name => name ≠ [] && name ≠ ascii "." && name ≠ ascii ".."
  | none => false

/-- A path as the kernel passes it to a callback: a slash and proper names joined by slashes. -/
structure FusePath where
  components : List Bytes
  proper : ∀ name ∈ components,
    name ≠ [] ∧ NulFree name ∧ 47 ∉ name ∧ name ≠ ascii "." ∧ name ≠ ascii ".."
  deriving DecidableEq

/-- The path behind its leading slash. -/
def FusePath.name (p : FusePath) : Bytes := [47].intercalate p.components

/-- The string that a callback receives. -/
def FusePath.bytes (p : FusePath) : Bytes := 47 :: p.name

/-! ## The tree -/

/-- The fields of `struct stat` that are sent. -/
structure Stat where
  stSize : ℤ
  stMode : ℤ
  stCtime : ℤ
  stAtime : ℤ
  stMtime : ℤ
  stNlink : ℤ
  stDev : ℤ
  stRdev : ℤ
  deriving DecidableEq

/-- A regular file with what the server may do to it; the size among its attributes is that of its
content. -/
structure File where
  content : Bytes
  /-- `fopen` for reading. -/
  readable : Bool
  /-- `fopen` for appending. -/
  writable : Bool
  /-- `truncate`. -/
  resizable : Bool
  /-- Setting the times, which the owner may do without any other permission. -/
  touchable : Bool
  attributes : Stat
  deriving DecidableEq

/-- A directory with its entries in the order `readdir` returns them. -/
structure Directory where
  entries : List Bytes
  readable : Bool
  writable : Bool
  searchable : Bool
  touchable : Bool
  attributes : Stat
  deriving DecidableEq

/-- What a location holds. -/
inductive Node where
  | file (f : File)
  | directory (d : Directory)
  deriving DecidableEq

/-- The server's tree, the handler's working directory, the attributes of a new file and the largest
size of a file. -/
structure ServerFs where
  cwd : Path
  node : Path → Option Node
  fresh : Stat
  maxSize : ℤ

namespace ServerFs

/-- Whether the directory at a location may be searched; `none` if there is no directory. -/
def searchable (fs : ServerFs) (loc : Path) : Option Bool :=
  match fs.node loc with
  | some (.directory d) => some d.searchable
  | _ => none

/-- Components can be followed one after the other: each in a directory, and each but an empty one in
a directory that may be searched. -/
def passes (fs : ServerFs) : Path → List Bytes → Bool
  | _, [] => true
  | dir, name :: names =>
    (match fs.searchable dir with
      | some permitted => name = [] || permitted
      | none => false) && fs.passes (walk dir name) names

/-- A path can be followed to where its last component is looked up. -/
def reaches (fs : ServerFs) (path : Bytes) : Bool :=
  path ≠ [] && fs.passes (if path.head? = some 47 then [] else fs.cwd) (path.splitOn 47)

/-- What a path names. The empty path names nothing. -/
def lookup (fs : ServerFs) (path : Bytes) : Option Node :=
  if fs.reaches path then fs.node (resolve fs.cwd path) else none

/-- The content of the regular file that a path names. -/
def contentOf (fs : ServerFs) (path : Bytes) : Option Bytes :=
  match fs.lookup path with
  | some (.file f) => some f.content
  | _ => none

/-- The content of the regular file at a location. -/
def contentAt (fs : ServerFs) (loc : Path) : Option Bytes :=
  match fs.node loc with
  | some (.file f) => some f.content
  | _ => none

/-- Put a node at a location. -/
def setNode (fs : ServerFs) (loc : Path) (node : Option Node) : ServerFs :=
  { fs with node := Function.update fs.node loc node }

/-- Change the entries of a directory. -/
def modifyEntries (fs : ServerFs) (dir : Path) (change : List Bytes → List Bytes) : ServerFs :=
  match fs.node dir with
  | some (.directory d) => fs.setNode dir (some (.directory { d with entries := change d.entries }))
  | _ => fs

/-- Names can be added to and removed from the directory that holds a location. -/
def parentWritable (fs : ServerFs) (loc : Path) : Bool :=
  loc ≠ [] && match fs.node loc.dropLast with
    | some (.directory d) => d.writable
    | _ => false

/-! ## System calls -/

/-- `stat`. -/
def stat (fs : ServerFs) (path : Bytes) : Option Stat :=
  match fs.lookup path with
  | some (.file f) => some { f.attributes with stSize := f.content.length }
  | some (.directory d) => some d.attributes
  | none => none

/-- `opendir` and all of `readdir`. -/
def opendir (fs : ServerFs) (path : Bytes) : Option (List Bytes) :=
  match fs.lookup path with
  | some (.directory d) => if d.readable then some d.entries else none
  | _ => none

/-- `fopen(path, "rb")` with what can be read from the file; `none` is the null pointer. A
directory can be opened, but every read from it fails. -/
def fopenRead (fs : ServerFs) (path : Bytes) : Option Bytes :=
  match fs.lookup path with
  | some (.file f) => if f.readable then some f.content else none
  | some (.directory d) => if d.readable then some [] else none
  | none => none

/-- What a file holds after data have been written behind its content, as far as it may grow. -/
def appended (fs : ServerFs) (content data : Bytes) : Bytes :=
  content ++ data.take (fs.maxSize - content.length).toNat

/-- `fopen(path, "a")`, `fputs(data)` and `fclose`; `none` when the first returns the null
pointer. A missing file is created. -/
def fopenAppend (fs : ServerFs) (path data : Bytes) : Option ServerFs :=
  let loc := resolve fs.cwd path
  match fs.lookup path with
  | some (.file f) =>
    if f.writable then
      some (fs.setNode loc (some (.file { f with content := fs.appended f.content data })))
    else none
  | some (.directory _) => none
  | none =>
    if fs.reaches path ∧ fs.parentWritable loc then
      some ((fs.setNode loc
        (some (.file ⟨fs.appended [] data, true, true, true, true, fs.fresh⟩))).modifyEntries
          loc.dropLast (· ++ loc.getLast?.toList))
    else none

/-- `truncate`: a negative size, one that is too large, a directory and a file that may not be resized
are refused. -/
def truncate (fs : ServerFs) (path : Bytes) (newsize : ℤ) : ServerFs :=
  match fs.lookup path with
  | some (.file f) =>
    if f.resizable ∧ 0 ≤ newsize ∧ newsize ≤ fs.maxSize then
      fs.setNode (resolve fs.cwd path)
        (some (.file { f with content := resize f.content newsize.toNat }))
    else fs
  | _ => fs

/-- `unlink`. -/
def unlink (fs : ServerFs) (path : Bytes) : ServerFs :=
  let loc := resolve fs.cwd path
  match fs.lookup path with
  | some (.file _) =>
    if fs.parentWritable loc then
      (fs.setNode loc none).modifyEntries loc.dropLast fun entries =>
        entries.filter fun name => some name ≠ loc.getLast?
    else fs
  | _ => fs

/-- `rename` is permitted: both paths end in a name, the source exists, both directories can be changed,
and the target is absent, or a file to be replaced by a file, or an empty directory to be replaced by
a directory. Only a directory can get a name with slashes behind it, and one that moves to another
directory must be writable itself. -/
def mayRename (fs : ServerFs) (path newpath : Bytes) : Bool :=
  let loc := resolve fs.cwd path
  let newloc := resolve fs.cwd newpath
  endsInName path && endsInName newpath && fs.reaches (withoutSlashes newpath) &&
    fs.parentWritable loc && fs.parentWritable newloc && !loc.isPrefixOf newloc &&
    match fs.lookup path, fs.node newloc with
    | some (.file _), none => withoutSlashes newpath = newpath
    | some (.file _), some (.file _) => withoutSlashes newpath = newpath
    | some (.directory d), none => d.writable || loc.dropLast = newloc.dropLast
    | some (.directory d), some (.directory replaced) =>
      (d.writable || loc.dropLast = newloc.dropLast) &&
        replaced.entries.all fun name => name = ascii "." || name = ascii ".."
    | _, _ => false

/-- `rename`: everything at and below the source moves. -/
def rename (fs : ServerFs) (path newpath : Bytes) : ServerFs :=
  let loc := resolve fs.cwd path
  let newloc := resolve fs.cwd newpath
  if fs.mayRename path newpath then
    let moved : ServerFs :=
      { fs with
        node := fun q =>
          if newloc.isPrefixOf q then fs.node (loc ++ q.drop newloc.length) else
          if loc.isPrefixOf q then none else fs.node q }
    let unlinked := moved.modifyEntries loc.dropLast fun entries =>
      entries.filter fun name => some name ≠ loc.getLast?
    unlinked.modifyEntries newloc.dropLast fun entries =>
      entries.filter (fun name => some name ≠ newloc.getLast?) ++ newloc.getLast?.toList
  else fs

/-- A changed location holds the new node. -/
@[simp] theorem setNode_self (fs : ServerFs) (loc : Path) (node : Option Node) :
    (fs.setNode loc node).node loc = node := Function.update_self ..

/-- All other locations are as before. -/
theorem setNode_ne (fs : ServerFs) {loc other : Path} (h : other ≠ loc) (node : Option Node) :
    (fs.setNode loc node).node other = fs.node other := Function.update_of_ne h ..

/-- What cannot be searched is no directory, and setting a file there opens no way. -/
theorem searchable_setNode {fs : ServerFs} {loc : Path} (h : fs.searchable loc = none)
    {node : Option Node} (hnode : ∀ d, node ≠ some (.directory d)) (q : Path) :
    (fs.setNode loc node).searchable q = fs.searchable q := by
  by_cases hq : q = loc
  · rw [hq, h, searchable, setNode_self]
    cases node with
    | none => rfl
    | some node =>
      cases node with
      | file f => rfl
      | directory d => exact absurd rfl (hnode d)
  · rw [searchable, setNode_ne fs hq, searchable]

/-- The way along components depends on the directories only. -/
theorem passes_congr {fs fs' : ServerFs} (h : ∀ q, fs'.searchable q = fs.searchable q) (dir : Path)
    (names : List Bytes) : fs'.passes dir names = fs.passes dir names := by
  induction names generalizing dir with
  | nil => rfl
  | cons name names ih => rw [passes, passes, h, ih]

/-- So does the way to what a path names. -/
theorem reaches_congr {fs fs' : ServerFs} (hcwd : fs'.cwd = fs.cwd)
    (h : ∀ q, fs'.searchable q = fs.searchable q) (path : Bytes) :
    fs'.reaches path = fs.reaches path := by
  rw [reaches, reaches, hcwd, passes_congr h]

/-- What a path names is at the location to which it resolves, and can be reached. -/
theorem lookup_eq_some_iff {fs : ServerFs} {path : Bytes} {node : Node} :
    fs.lookup path = some node ↔
      fs.reaches path = true ∧ fs.node (resolve fs.cwd path) = some node := by
  rw [lookup]
  split
  · next hreaches => rw [and_iff_right hreaches]
  · next hreaches => exact iff_of_false (Option.some_ne_none node).symm fun h => hreaches h.1

/-- What a path names is at the location to which it resolves. -/
theorem node_of_lookup {fs : ServerFs} {path : Bytes} {node : Node}
    (h : fs.lookup path = some node) : fs.node (resolve fs.cwd path) = some node :=
  (lookup_eq_some_iff.mp h).2

/-- A path names nothing if there is nothing at its location. -/
theorem lookup_eq_none {fs : ServerFs} {path : Bytes} (h : fs.node (resolve fs.cwd path) = none) :
    fs.lookup path = none := by
  rw [lookup, h, ite_self]

/-- The empty path names nothing. -/
theorem ne_nil_of_lookup {fs : ServerFs} {path : Bytes} {node : Node}
    (h : fs.lookup path = some node) : path ≠ [] := by
  rintro rfl
  exact absurd (lookup_eq_some_iff.mp h).1 Bool.false_ne_true

/-- The path of a file that is changed names the changed file. -/
theorem lookup_setNode {fs : ServerFs} {path : Bytes} {f : File} (h : fs.lookup path = some (.file f))
    (g : File) : (fs.setNode (resolve fs.cwd path) (some (.file g))).lookup path = some (.file g) := by
  have hnone : fs.searchable (resolve fs.cwd path) = none := by
    rw [searchable, node_of_lookup h]
  have hsame (q : Path) : (fs.setNode (resolve fs.cwd path) (some (.file g))).searchable q = fs.searchable q :=
    searchable_setNode hnone (by simp) q
  have hreaches : (fs.setNode (resolve fs.cwd path) (some (.file g))).reaches path = fs.reaches path :=
    reaches_congr (by rfl) hsame path
  exact lookup_eq_some_iff.mpr ⟨hreaches.trans (lookup_eq_some_iff.mp h).1, setNode_self fs _ _⟩

/-- The content at a changed location is that of the new node. -/
theorem contentAt_setNode_self (fs : ServerFs) (loc : Path) (f : File) :
    (fs.setNode loc (some (.file f))).contentAt loc = some f.content := by
  rw [contentAt, setNode_self]

/-- The contents at all other locations are as before. -/
theorem contentAt_setNode_ne (fs : ServerFs) {loc other : Path} (h : other ≠ loc)
    (node : Option Node) : (fs.setNode loc node).contentAt other = fs.contentAt other := by
  rw [contentAt, setNode_ne fs h, contentAt]

/-- The content of a file at its location. -/
theorem contentAt_file {fs : ServerFs} {loc : Path} {f : File} (h : fs.node loc = some (.file f)) :
    fs.contentAt loc = some f.content := by
  rw [contentAt, h]

/-- The content of a file under its path. -/
theorem contentOf_file {fs : ServerFs} {path : Bytes} {f : File}
    (h : fs.lookup path = some (.file f)) : fs.contentOf path = some f.content := by
  rw [contentOf, h]

/-! ## Renames -/

/-- The entries of a directory concern nothing but the directory. -/
theorem node_modifyEntries (fs : ServerFs) {q : Path} (h : ∀ d, fs.node q ≠ some (.directory d))
    (dir : Path) (change : List Bytes → List Bytes) :
    (fs.modifyEntries dir change).node q = fs.node q := by
  unfold modifyEntries
  split
  · next d hdir =>
    apply setNode_ne
    rintro rfl
    exact h d hdir
  · rfl

/-- The entries of a directory do not decide whether it may be searched. -/
theorem searchable_modifyEntries (fs : ServerFs) (dir : Path) (change : List Bytes → List Bytes)
    (q : Path) : (fs.modifyEntries dir change).searchable q = fs.searchable q := by
  unfold modifyEntries
  split
  · next d hdir =>
    by_cases hq : q = dir
    · rw [hq, searchable, searchable, setNode_self, hdir]
    · rw [searchable, setNode_ne fs hq, searchable]
  · rfl

/-- A change of entries keeps the working directory. -/
theorem modifyEntries_cwd (fs : ServerFs) (dir : Path) (change : List Bytes → List Bytes) :
    (fs.modifyEntries dir change).cwd = fs.cwd := by
  unfold modifyEntries
  split <;> rfl

/-- So does a rename. -/
theorem rename_cwd (fs : ServerFs) (path newpath : Bytes) :
    (fs.rename path newpath).cwd = fs.cwd := by
  unfold rename
  dsimp only
  split
  · rw [modifyEntries_cwd, modifyEntries_cwd]
  · rfl

/-- Nothing is moved into itself. -/
theorem not_prefix_of_mayRename {fs : ServerFs} {path newpath : Bytes}
    (h : fs.mayRename path newpath = true) : ¬ resolve fs.cwd path <+: resolve fs.cwd newpath := by
  intro hprefix
  have hinto : (resolve fs.cwd path).isPrefixOf (resolve fs.cwd newpath) = true :=
    List.isPrefixOf_iff_prefix.mpr hprefix
  simp [mayRename, hinto] at h

/-- What moves ends in a name, and so does its new path, which can be reached. -/
theorem ends_of_mayRename {fs : ServerFs} {path newpath : Bytes}
    (h : fs.mayRename path newpath = true) :
    endsInName newpath = true ∧ fs.reaches (withoutSlashes newpath) = true := by
  simp only [mayRename, Bool.and_eq_true] at h
  exact ⟨h.1.1.1.1.1.2, h.1.1.1.1.2⟩

section
variable {fs : ServerFs} {path newpath : Bytes}

/-- A permitted rename moves what is at and below the source, as far as it is no directory whose
entries change. -/
theorem node_rename (hmay : fs.mayRename path newpath = true) {q : Path} {node : Option Node}
    (hnode : (if resolve fs.cwd newpath <+: q then
        fs.node (resolve fs.cwd path ++ q.drop (resolve fs.cwd newpath).length)
      else if resolve fs.cwd path <+: q then none else fs.node q) = node)
    (hfile : ∀ d, node ≠ some (.directory d)) : (fs.rename path newpath).node q = node := by
  subst hnode
  unfold rename
  dsimp only
  rw [if_pos hmay]
  simp only [← List.isPrefixOf_iff_prefix] at hfile ⊢
  rw [node_modifyEntries, node_modifyEntries]
  · exact hfile
  · intro d
    rw [node_modifyEntries]
    · exact hfile d
    · exact hfile

/-- The directories at and below the source move as well. -/
theorem searchable_rename (hmay : fs.mayRename path newpath = true) (q : Path) :
    (fs.rename path newpath).searchable q =
      if resolve fs.cwd newpath <+: q then
        fs.searchable (resolve fs.cwd path ++ q.drop (resolve fs.cwd newpath).length)
      else if resolve fs.cwd path <+: q then none else fs.searchable q := by
  unfold rename
  dsimp only
  rw [if_pos hmay, searchable_modifyEntries, searchable_modifyEntries, searchable]
  simp only [← List.isPrefixOf_iff_prefix]
  split_ifs <;> rfl

/-- A file at or below the source moves with it. -/
theorem node_rename_moved (hmay : fs.mayRename path newpath = true) {rest : Path} {f : File}
    (hfile : fs.node (resolve fs.cwd path ++ rest) = some (.file f)) :
    (fs.rename path newpath).node (resolve fs.cwd newpath ++ rest) = some (.file f) := by
  apply node_rename hmay
  · rw [if_pos (List.prefix_append _ _), List.drop_left, hfile]
  · simp

/-- Nothing is left at the source. -/
theorem node_rename_left (hmay : fs.mayRename path newpath = true) {q : Path}
    (hsource : resolve fs.cwd path <+: q) (htarget : ¬ resolve fs.cwd newpath <+: q) :
    (fs.rename path newpath).node q = none := by
  apply node_rename hmay
  · rw [if_neg htarget, if_pos hsource]
  · simp

/-- A file that is neither moved nor replaced stays where it is. -/
theorem node_rename_other {q : Path} {f : File} (hfile : fs.node q = some (.file f))
    (hsource : fs.mayRename path newpath = true → ¬ resolve fs.cwd path <+: q)
    (htarget : fs.mayRename path newpath = true → ¬ resolve fs.cwd newpath <+: q) :
    (fs.rename path newpath).node q = some (.file f) := by
  by_cases hmay : fs.mayRename path newpath = true
  · apply node_rename hmay
    · rw [if_neg (htarget hmay), if_neg (hsource hmay), hfile]
    · simp
  · rw [rename]
    dsimp only
    rw [if_neg hmay, hfile]

end

end ServerFs

/-! ## Resolution of kernel paths -/

/-- A proper name leads from a directory to its entry. -/
theorem walk_name (dir : Path) {name : Bytes}
    (h : name ≠ [] ∧ NulFree name ∧ 47 ∉ name ∧ name ≠ ascii "." ∧ name ≠ ascii "..") :
    walk dir name = dir ++ [name] := by
  obtain ⟨hne, -, -, hdot, hdotdot⟩ := h
  rw [walk, if_neg (by simp [hne, hdot]), if_neg hdotdot]

/-- Proper names are appended as they are. -/
theorem foldl_walk (names : List Bytes)
    (h : ∀ name ∈ names,
      name ≠ [] ∧ NulFree name ∧ 47 ∉ name ∧ name ≠ ascii "." ∧ name ≠ ascii "..")
    (dir : Path) : names.foldl walk dir = dir ++ names := by
  induction names generalizing dir with
  | nil => simp
  | cons name names ih =>
    rw [List.foldl_cons, walk_name dir (h name List.mem_cons_self),
      ih fun n hn => h n (List.mem_cons_of_mem _ hn)]
    simp

/-- Proper names are followed in directories that may be searched. -/
theorem passes_iff {names : List Bytes}
    (h : ∀ name ∈ names,
      name ≠ [] ∧ NulFree name ∧ 47 ∉ name ∧ name ≠ ascii "." ∧ name ≠ ascii "..")
    (fs : ServerFs) (dir : Path) :
    fs.passes dir names = true ↔
      ∀ before rest, before ++ rest = names → rest ≠ [] →
        fs.searchable (dir ++ before) = some true := by
  induction names generalizing dir with
  | nil =>
    refine iff_of_true rfl fun before rest hsplit hrest => ?_
    exact absurd (List.append_eq_nil_iff.mp hsplit).2 hrest
  | cons name names ih =>
    obtain ⟨hname, hnames⟩ := List.forall_mem_cons.mp h
    have hfirst : (match fs.searchable dir with
        | some permitted => name = [] || permitted
        | none => false) = true ↔ fs.searchable dir = some true := by
      cases fs.searchable dir with
      | none => simp
      | some permitted => simp [hname.1]
    rw [ServerFs.passes, Bool.and_eq_true, hfirst, walk_name dir hname, ih hnames]
    constructor
    · rintro ⟨hdir, hlater⟩ before rest hsplit hrest
      cases before with
      | nil => rwa [List.append_nil]
      | cons b before =>
        obtain ⟨rfl, htail⟩ := List.cons.inj hsplit
        have hbefore := hlater before rest htail hrest
        rwa [List.append_assoc] at hbefore
    · intro hall
      constructor
      · have hdir := hall [] (name :: names) rfl (List.cons_ne_nil name names)
        rwa [List.append_nil] at hdir
      · intro before rest hsplit hrest
        have hbefore := hall (name :: before) rest (congrArg _ hsplit) hrest
        rwa [List.append_assoc]

/-- A name behind a path is appended to the location of the path. -/
theorem resolve_append_name (cwd : Path) {path name : Bytes} (hpath : path ≠ [])
    (hname : name ≠ [] ∧ NulFree name ∧ 47 ∉ name ∧ name ≠ ascii "." ∧ name ≠ ascii "..") :
    resolve cwd (path ++ 47 :: name) = resolve cwd path ++ [name] := by
  have hwalk := foldl_walk [name] (List.forall_mem_singleton.mpr hname) (resolve cwd path)
  rw [resolve, List.splitOn_append_cons_self, List.splitOn_eq_singleton hname.2.2.1,
    List.foldl_append, List.head?_append_of_ne_nil path hpath]
  exact hwalk

namespace FusePath

/-- Behind its leading slash a path does not begin with another one. -/
theorem name_head (p : FusePath) : p.name.head? ≠ some 47 := by
  obtain ⟨components, proper⟩ := p
  cases components with
  | nil => simp [name]
  | cons first rest =>
    obtain ⟨hne, -, hslash, -⟩ := proper first List.mem_cons_self
    cases first with
    | nil => exact absurd rfl hne
    | cons b first =>
      have hb : (47 : UInt8) ≠ b := fun h => hslash (h ▸ List.mem_cons_self)
      cases rest with
      | nil => simpa [name] using hb.symm
      | cons second rest => simpa [name, List.intercalate_cons_cons] using hb.symm

/-- Names and slashes contain no zero. -/
theorem name_nulFree (p : FusePath) : NulFree p.name := by
  obtain ⟨components, proper⟩ := p
  simp only [name]
  induction components with
  | nil => simp
  | cons first rest ih =>
    have hfirst := (proper first List.mem_cons_self).2.1
    have hrest := ih fun n hn => proper n (List.mem_cons_of_mem _ hn)
    cases rest with
    | nil => simpa using hfirst
    | cons second rest =>
      rw [List.intercalate_cons_cons, nulFree_append, nulFree_append]
      exact ⟨⟨hfirst, by decide⟩, hrest⟩

/-- The path of the shared directory itself is the only one with an empty name. -/
theorem name_eq_nil_iff (p : FusePath) : p.name = [] ↔ p.components = [] := by
  obtain ⟨components, proper⟩ := p
  cases components with
  | nil => simp [name]
  | cons first rest =>
    have hne := (proper first List.mem_cons_self).1
    cases rest <;> simp [name, List.intercalate_cons_cons, hne]

/-- A name denotes the location below the working directory that its components spell. -/
theorem resolve_name (p : FusePath) (cwd : Path) : resolve cwd p.name = cwd ++ p.components := by
  rw [resolve, if_neg p.name_head]
  by_cases hnil : p.components = []
  · have hname : p.name = [] := p.name_eq_nil_iff.mpr hnil
    simp [hname, hnil, walk]
  · rw [name, List.splitOn_intercalate 47 (fun n hn => (p.proper n hn).2.2.1) hnil]
    exact foldl_walk _ p.proper cwd

/-- A name determines its path. -/
theorem components_of_name {q r : FusePath} (h : q.name = r.name) :
    q.components = r.components := by
  have hq := q.resolve_name []
  rw [h, r.resolve_name] at hq
  exact hq.symm

/-- The components of a name other than that of the shared directory. -/
theorem splitOn_name {p : FusePath} (h : p.components ≠ []) : p.name.splitOn 47 = p.components :=
  List.splitOn_intercalate 47 (fun n hn => (p.proper n hn).2.2.1) h

/-- Every directory on the way to the path exists and may be searched. -/
def Reached (p : FusePath) (fs : ServerFs) : Prop :=
  ∀ before rest, before ++ rest = p.components → rest ≠ [] →
    fs.searchable (fs.cwd ++ before) = some true

/-- A name other than that of the shared directory names what is at its location, if it can be
reached. -/
theorem lookup_name_iff {p : FusePath} (h : p.components ≠ []) {fs : ServerFs} {node : Node} :
    fs.lookup p.name = some node ↔
      p.Reached fs ∧ fs.node (fs.cwd ++ p.components) = some node := by
  have hname : decide (p.name ≠ []) = true := decide_eq_true (mt p.name_eq_nil_iff.mp h)
  rw [ServerFs.lookup_eq_some_iff, p.resolve_name, ServerFs.reaches, if_neg p.name_head,
    splitOn_name h, hname, Bool.true_and, passes_iff p.proper]
  exact Iff.rfl

/-- A path made local that ends in a name is that of something in the shared directory. -/
theorem components_of_endsInName {p : FusePath} (h : endsInName (pathToLocal p.bytes) = true) :
    p.components ≠ [] := by
  intro hnil
  have hname := p.name_eq_nil_iff.mpr hnil
  rw [bytes, hname] at h
  exact absurd h (by decide)

/-- The last byte of a name is no slash. -/
theorem name_getLast {p : FusePath} (hname : p.name ≠ []) : p.name.getLast hname ≠ 47 := by
  intro hslash
  have hsplit : p.components = p.name.dropLast.splitOn 47 ++ [[]] := by
    rw [← splitOn_name (mt p.name_eq_nil_iff.mpr hname)]
    conv_lhs => rw [← List.dropLast_append_getLast hname, hslash, List.splitOn_append_cons_self]
    rfl
  exact (p.proper [] (by simp [hsplit])).1 rfl

/-- A path made local that can be reached can be reached by its name. -/
theorem reached_of_pathToLocal {p : FusePath} (h : p.components ≠ [])
    (hlen : p.bytes.length ≤ mMaxPath + mMaxFile - 1) {fs : ServerFs}
    (hreaches : fs.reaches (withoutSlashes (pathToLocal p.bytes)) = true) : p.Reached fs := by
  have hlocal : pathToLocal p.bytes = 46 :: 47 :: p.name := by
    rw [pathToLocal, if_pos (show p.bytes.head? = some 47 from rfl), List.take_of_length_le hlen]
    rfl
  have hname : p.name ≠ [] := mt p.name_eq_nil_iff.mp h
  have hsame : withoutSlashes (46 :: 47 :: p.name) = 46 :: 47 :: p.name := by
    refine List.rdropWhile_eq_self_iff.mpr fun _ hslash => ?_
    rw [List.getLast_cons (List.cons_ne_nil 47 p.name), List.getLast_cons hname] at hslash
    exact name_getLast hname (of_decide_eq_true hslash)
  have hrelative : (46 :: 47 :: p.name).head? ≠ some 47 := by simp
  have hdot : walk fs.cwd [46] = fs.cwd := if_pos (by decide)
  have hsplit : (46 :: 47 :: p.name).splitOn 47 = [46] :: p.components := by
    have happend := List.splitOn_append_cons_self_of_not_mem (show (47 : UInt8) ∉ [46] by decide) p.name
    rw [splitOn_name h] at happend
    exact happend
  rw [hlocal, hsame, ServerFs.reaches, if_neg hrelative, hsplit, ServerFs.passes, hdot] at hreaches
  simp only [Bool.and_eq_true] at hreaches
  exact (passes_iff p.proper fs fs.cwd).mp hreaches.2.2

/-- A whole path made local denotes the same location as its name. -/
theorem resolve_pathToLocal_bytes (p : FusePath) (h : p.bytes.length ≤ mMaxPath + mMaxFile - 1)
    (cwd : Path) : resolve cwd (pathToLocal p.bytes) = cwd ++ p.components := by
  have hslash : p.bytes.head? = some 47 := rfl
  have hlocal : pathToLocal p.bytes = [46] ++ 47 :: p.name := by
    rw [pathToLocal, if_pos hslash, List.take_of_length_le h]
    rfl
  have hrelative : ([46] ++ 47 :: p.name).head? ≠ some 47 := by simp
  have hdot : walk cwd [46] = cwd := if_pos (by decide)
  have hname := p.resolve_name cwd
  rw [resolve, if_neg p.name_head] at hname
  rw [hlocal, resolve, if_neg hrelative,
    List.splitOn_append_cons_self_of_not_mem (show (47 : UInt8) ∉ [46] by decide), List.foldl_cons,
    hdot, hname]

/-- The server does not alter a name when it makes it local. -/
theorem pathToLocal_name (p : FusePath) : pathToLocal p.name = p.name := by
  rw [pathToLocal, if_neg p.name_head]

end FusePath

/-- A shared directory that holds these files. -/
def ServerFs.ofFiles (files : List (Bytes × File)) : ServerFs where
  cwd := []
  node loc :=
    match loc with
    | [] => some (.directory
        ⟨files.map Prod.fst, true, true, true, true, ⟨0, 0, 0, 0, 0, 0, 0, 0⟩⟩)
    | [name] => (files.lookup name).map Node.file
    | _ => none
  fresh := ⟨0, 0, 0, 0, 0, 0, 0, 0⟩
  maxSize := 2 ^ 63 - 1

/-- A file with all permissions. -/
def File.plain (content : Bytes) : File :=
  ⟨content, true, true, true, true, ⟨0, 0, 0, 0, 0, 0, 0, 0⟩⟩

/-- The path `/a`. -/
def pathA : FusePath := ⟨[ascii "a"], by decide⟩

/-- The path `/b`. -/
def pathB : FusePath := ⟨[ascii "b"], by decide⟩

end Udtfs

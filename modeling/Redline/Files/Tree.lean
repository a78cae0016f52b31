import Redline.Bytes
import Redline.Calendar
import Redline.Files.Error
import Redline.Files.Path
/-!
# A tree of files

The files and directories that a program can reach, as a finite map from
locations.  A path is looked up part by part, and every part but the last must
be a directory.  The working directory and the directories above it exist
always.  Everything belongs to the one who looks, so of the permission bits only
the owner's count, and no privilege passes over them.
-/

namespace Redline

/-- The names on the way from the root. -/
structure Location where
  names : List String
  deriving DecidableEq, Inhabited, Repr

namespace Location

def root : Location :=
  ⟨[]⟩

def child (l : Location) (name : String) : Location :=
  ⟨l.names ++ [name]⟩

/-- The directory that holds a location; the root holds itself. -/
def parent (l : Location) : Location :=
  ⟨l.names.dropLast⟩

/-- Where one part of a path leads, without a look at any tree. -/
def follow (l : Location) (part : List Char) : Location :=
  match Path.componentOfPart part with
  | some (.name name) => l.child (String.ofList name)
  | some .up => l.parent
  | _ => l

def isWithin (l m : Location) : Bool :=
  m.names.isPrefixOf l.names

end Location

structure StoredFile where
  content : Bytes
  /-- The permission bits. -/
  mode : Nat
  modified : Timestamp
  deriving DecidableEq, Inhabited, Repr

inductive Node where
  | file (stored : StoredFile)
  /-- A directory with its permission bits. -/
  | directory (mode : Nat)
  deriving DecidableEq, Inhabited, Repr

/-- What an owner may do with a file or a directory. -/
inductive Access where
  | read
  /-- Of a directory: making and removing the names in it. -/
  | write
  /-- Of a directory: looking up the names in it. -/
  | search
  deriving DecidableEq, Inhabited, Repr

/-- The place of the owner's bit for an access. -/
def Access.bit : Access → Nat
  | read => 8
  | write => 7
  | search => 6

namespace Node

def mode : Node → Nat
  | file stored => stored.mode
  | directory mode => mode

def withMode (mode : Nat) : Node → Node
  | file stored => file { stored with mode }
  | directory _ => directory mode

def grants (node : Node) (a : Access) : Bool :=
  node.mode.testBit a.bit

def require (node : Node) (a : Access) : Except FileError Unit :=
  if node.grants a then .ok () else .error .permissionDenied

end Node

/-- Read and write for the owner, read for all others. -/
def ordinaryMode : Nat := 0o644

/-- Read and write for the owner alone. -/
def privateMode : Nat := 0o600

/-- Everything for the owner, read and search for all others. -/
def directoryMode : Nat := 0o755

def StoredFile.ofContent (content : Bytes) (mode : Nat) : StoredFile :=
  ⟨content, mode, ⟨0, 0⟩⟩

structure FileTree where
  /-- Text of the absolute path of the working directory. -/
  workingDirectory : String
  entries : List (Location × Node)
  deriving DecidableEq, Inhabited, Repr

namespace FileTree

/-- The longest name of a file, in bytes. -/
def nameLimit : Nat := 255

/-- The least length of a path, in bytes, that the system refuses. -/
def pathLimit : Nat := 4096

def empty (workingDirectory : String) : FileTree :=
  ⟨workingDirectory, []⟩

/-- Location of the working directory. -/
def home (t : FileTree) : Location :=
  (Path.parts ⟨t.workingDirectory⟩).foldl Location.follow .root

/-- Whether a location is the working directory or lies above it. -/
def isFixed (t : FileTree) (l : Location) : Bool :=
  t.home.isWithin l

def node? (t : FileTree) (l : Location) : Option Node :=
  if t.isFixed l then some (.directory directoryMode) else t.entries.lookup l

def erase (t : FileTree) (l : Location) : FileTree :=
  { t with entries := t.entries.filter (·.1 ≠ l) }

def set (t : FileTree) (l : Location) (node : Node) : FileTree :=
  { t with entries := (l, node) :: (t.erase l).entries }

private theorem lookup_filter_of_ne {k l : Location} (h : k ≠ l)
    (entries : List (Location × Node)) :
    (entries.filter (·.1 ≠ l)).lookup k = entries.lookup k := by
  induction entries with
  | nil => rfl
  | cons e rest ih =>
    obtain ⟨m, node⟩ := e
    by_cases hm : m = l
    · have hk : (k == l) = false := by simpa using h
      simpa [hm, List.lookup_cons, hk] using ih
    · have hkeep : ((m, node) :: rest).filter (·.1 ≠ l) =
          (m, node) :: rest.filter (·.1 ≠ l) := by simp [hm]
      rw [hkeep, List.lookup_cons, List.lookup_cons, ih]

private theorem lookup_filter_self (l : Location) (entries : List (Location × Node)) :
    (entries.filter (·.1 ≠ l)).lookup l = none := by
  induction entries with
  | nil => rfl
  | cons e rest ih =>
    obtain ⟨m, node⟩ := e
    by_cases hm : m = l
    · simpa [hm] using ih
    · have hkeep : ((m, node) :: rest).filter (·.1 ≠ l) =
          (m, node) :: rest.filter (·.1 ≠ l) := by simp [hm]
      have hl : (l == m) = false := by simpa using Ne.symm hm
      rw [hkeep, List.lookup_cons, ih]
      simp [hl]

@[simp] theorem isFixed_erase (t : FileTree) (l k : Location) :
    (t.erase l).isFixed k = t.isFixed k := rfl

@[simp] theorem isFixed_set (t : FileTree) (l k : Location) (node : Node) :
    (t.set l node).isFixed k = t.isFixed k := rfl

theorem node?_erase_self {t : FileTree} {l : Location} (h : t.isFixed l = false) :
    (t.erase l).node? l = none := by
  rw [node?, isFixed_erase, h, if_neg Bool.false_ne_true]
  exact lookup_filter_self l t.entries

theorem node?_erase_of_ne {t : FileTree} {l k : Location} (h : k ≠ l) :
    (t.erase l).node? k = t.node? k := by
  rw [node?, node?, isFixed_erase]
  simp only [erase, lookup_filter_of_ne h]

theorem node?_set_of_ne {t : FileTree} {l k : Location} {node : Node} (h : k ≠ l) :
    (t.set l node).node? k = t.node? k := by
  have hk : (k == l) = false := by simpa using h
  rw [← node?_erase_of_ne (t := t) h, node?, node?, isFixed_set, isFixed_erase]
  simp only [set, List.lookup_cons, hk]

theorem node?_set_self {t : FileTree} {l : Location} {node : Node} (h : t.isFixed l = false) :
    (t.set l node).node? l = some node := by
  rw [node?, isFixed_set, h, if_neg Bool.false_ne_true]
  exact List.lookup_cons_self

/-- The working directory and those above it are directories. -/
theorem isFixed_of_node? {t : FileTree} {l : Location}
    (h : ∀ mode, t.node? l ≠ some (.directory mode)) : t.isFixed l = false := by
  rw [← Bool.not_eq_true]
  intro hfixed
  exact h directoryMode (by rw [node?, if_pos hfixed])

/-! ## Looking up paths -/

def isDirectory (t : FileTree) (l : Location) : Bool :=
  match t.node? l with
  | some (.directory _) => true
  | _ => false

def directoryModeAt (t : FileTree) (l : Location) : Except FileError Nat :=
  match t.node? l with
  | some (.directory mode) => .ok mode
  | some (.file _) => .error .notDirectory
  | none => .error .notFound

/-- Refuses what is no directory, and a directory that does not grant an access. -/
def requireDirectory (t : FileTree) (a : Access) (l : Location) : Except FileError Unit := do
  (Node.directory (← t.directoryModeAt l)).require a

def checkName (part : List Char) : Except FileError String :=
  let name := String.ofList part
  if nameLimit < name.utf8ByteSize then .error .nameTooLong else .ok name

/-- Follows one part of a path from a location.  Before an empty part there need
only be a directory; all others are looked up in it. -/
def enter (t : FileTree) (l : Location) (part : List Char) : Except FileError Location := do
  if part = [] then
    let _ ← t.directoryModeAt l
    return l
  t.requireDirectory .search l
  match Path.componentOfPart part with
  | some (.name part) =>
    let next := l.child (← checkName part)
    if (t.node? next).isSome then return next else throw .notFound
  | some .up => return l.parent
  | _ => return l

def checkPath (p : Path) : Except FileError Unit :=
  if p.text.toList.contains '\x00' then .error .nulInPath
  else if p.text = "" then .error .notFound
  else if pathLimit ≤ p.text.utf8ByteSize then .error .nameTooLong
  else .ok ()

def start (t : FileTree) (p : Path) : Location :=
  if p.isAbsolute then .root else t.home

def locate (t : FileTree) (p : Path) : Except FileError Location := do
  checkPath p
  p.parts.foldlM t.enter (t.start p)

def stat (t : FileTree) (p : Path) : Except FileError Node := do
  match t.node? (← t.locate p) with
  | some node => return node
  | none => throw .notFound

def file (t : FileTree) (p : Path) : Except FileError StoredFile := do
  let node ← t.stat p
  node.require .read
  match node with
  | .file stored => return stored
  | .directory _ => throw .isDirectory

def read (t : FileTree) (p : Path) : Except FileError Bytes :=
  (t.file p).map (·.content)

/-! ## Changing entries -/

def removeFile (t : FileTree) (p : Path) : Except FileError FileTree := do
  let l ← t.locate p
  t.requireDirectory .write l.parent
  match t.node? l with
  | some (.file _) => return t.erase l
  | some (.directory _) => throw .isDirectory
  | none => throw .notFound

def absoluteText (t : FileTree) (directory : Path) (name : String) : String :=
  let d := if directory.isAbsolute then directory else Path.child ⟨t.workingDirectory⟩ directory.text
  (d.child name).text

/-- The location of a name that is still free in a directory.  The system gets
the absolute path of the name, which must not be too long either. -/
def freeLocation (t : FileTree) (directory : Path) (name : String) :
    Except FileError Location := do
  checkPath ⟨t.absoluteText directory name⟩
  let parent ← t.locate directory
  t.requireDirectory .search parent
  let l := parent.child (← checkName name.toList)
  if (t.node? l).isSome then throw .alreadyExists
  t.requireDirectory .write parent
  return l

def modifyFile (t : FileTree) (l : Location) (f : StoredFile → StoredFile) : FileTree :=
  match t.node? l with
  | some (.file stored) => t.set l (.file (f stored))
  | _ => t

def appendContent (t : FileTree) (l : Location) (bytes : Bytes) : FileTree :=
  t.modifyFile l fun stored => { stored with content := stored.content ++ bytes }

def setMode (t : FileTree) (l : Location) (mode : Nat) : FileTree :=
  match t.node? l with
  | some node => if t.isFixed l then t else t.set l (node.withMode mode)
  | none => t

/-- The location that a rename onto a path gives.  Its last part must be a name,
with no slash after it, that belongs to no directory. -/
def renameTarget (t : FileTree) (p : Path) : Except FileError Location := do
  checkPath p
  let kept := (p.parts.reverse.dropWhile (· = [])).reverse
  let parent ← kept.dropLast.foldlM t.enter (t.start p)
  t.requireDirectory .search parent
  match kept.getLast?.bind Path.componentOfPart with
  | some (.name part) =>
    let l := parent.child (← checkName part)
    if kept.length < p.parts.length then throw .notDirectory
    else if t.isDirectory l then throw .isDirectory
    else return l
  | _ => throw .busy

def rename (t : FileTree) (source : Location) (p : Path) : Except FileError FileTree := do
  let target ← t.renameTarget p
  match t.node? source with
  | some node => return (t.erase source).set target node
  | none => throw .notFound

/-! ## Laying out a tree -/

/-- Removes what is at a location and everything below it. -/
def prune (t : FileTree) (l : Location) : FileTree :=
  { t with entries := t.entries.filter fun e => !e.1.isWithin l }

def makeDirectories (t : FileTree) (made : Location) : List String → FileTree
  | [] => t
  | name :: names =>
    let l := made.child name
    let t := if t.isDirectory l then t else t.set l (.directory directoryMode)
    t.makeDirectories l names

def spelled (t : FileTree) (p : Path) : Location :=
  p.parts.foldl Location.follow (t.start p)

def placeDirectory (t : FileTree) (p : Path) : FileTree :=
  t.makeDirectories .root (t.spelled p).names

def placeFile (t : FileTree) (p : Path) (stored : StoredFile) : FileTree :=
  let l := t.spelled p
  (t.makeDirectories .root l.names.dropLast).set l (.file stored)

/-- The entries below the working directory with their names, which takes that
every directory can be searched and everything be read. -/
def listing (t : FileTree) : Except FileError (List (List String × Node)) :=
  (t.entries.filter fun e => e.1.isWithin t.home).mapM fun (l, node) => do
    t.requireDirectory .search l.parent
    node.require .read
    return (l.names.drop t.home.names.length, node)

end FileTree

end Redline

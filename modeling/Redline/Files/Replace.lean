import Redline.Files.Tree
/-!
# Replacing a file in one step

New content goes to a scratch file beside the target, which is then renamed over
it.  The history of the tree shows every state that the disk goes through, so
that one can say what a reader sees at each moment.
-/

namespace Redline

/-- The states of a tree so far, the latest first. -/
structure History where
  current : FileTree
  past : List FileTree
  deriving Inhabited, Repr

namespace History

def start (t : FileTree) : History :=
  ⟨t, []⟩

def push (h : History) (t : FileTree) : History :=
  ⟨t, h.current :: h.past⟩

def states (h : History) : List FileTree :=
  h.current :: h.past

end History

/-- File operations one after the other; a failure keeps what was done before. -/
abbrev Disk := EStateM FileError History

namespace Disk

def look (f : FileTree → Except FileError α) : Disk α := fun h =>
  match f h.current with
  | .ok a => .ok a h
  | .error e => .error e h

def change (f : FileTree → Except FileError FileTree) : Disk Unit := fun h =>
  match f h.current with
  | .ok t => .ok () (h.push t)
  | .error e => .error e h

def modeAt? (p : Path) : Disk (Option Nat) :=
  look fun t =>
    match t.stat p with
    | .ok node => .ok (some node.mode)
    | .error .notFound => .ok none
    | .error e => .error e

def removeStale (p : Path) : Disk Unit := do
  if ← look fun t => .ok (t.stat p).isOk then change (·.removeFile p)

def createScratch (directory : Path) (name : String) : Disk Location := do
  let l ← look fun t =>
    (t.freeLocation directory name).mapError fun e => .located e (t.absoluteText directory name)
  change fun t => .ok (t.set l (.file (.ofContent [] privateMode)))
  return l

def appendAll (l : Location) : List Bytes → Disk Unit
  | [] => pure ()
  | chunk :: chunks => do
    change fun t => .ok (t.appendContent l chunk)
    appendAll l chunks

def settle (scratch : Location) (p : Path) : Disk Unit := fun h =>
  match h.current.rename scratch p with
  | .ok t => .ok () (h.push t)
  | .error e => .error e (h.push (h.current.erase scratch))

/-- Replaces the file at a path by the chunks, one after the other, and returns
their length.  The permission bits stay; a new file gets the ordinary ones. -/
def replace (p : Path) (chunks : List Bytes) : Disk Nat := do
  let mode ← modeAt? p
  match p.directoryAndName? with
  | none => throw (.unnamed p.text)
  | some (directory, name) =>
    removeStale p.swap
    let directory := if directory.text = "" then ⟨"."⟩ else directory
    let scratch ← createScratch directory (name ++ Path.swapSuffix)
    appendAll scratch chunks
    change fun t => .ok (t.setMode scratch (mode.getD ordinaryMode))
    settle scratch p
    return chunks.flatten.length

end Disk

/-- Replaces a file and returns its new length, with the tree after it. -/
def FileTree.replace (t : FileTree) (p : Path) (chunks : List Bytes) :
    Except FileError Nat × FileTree :=
  match Disk.replace p chunks (.start t) with
  | .ok count h => (.ok count, h.current)
  | .error e h => (.error e, h.current)

end Redline

import Redline.Cli.Compare
import Redline.Cli.Edit
/-!
# The two programs

`ed [FILE]` edits a file by commands from standard input, `diff` compares two
files.  Everything is decided on a tree of files; this module brings the files
that a command names into the tree and takes changed ones back to the disk.
-/

namespace Redline.Disk

def directoryText (p : Path) : String :=
  match p.directoryAndName? with
  | some (directory, _) => if directory.text = "" then "." else directory.text
  | none => p.text

def modifiedAt (p : Path) : IO Timestamp := do
  let info ← (← IO.FS.realPath p.text).metadata
  return ⟨info.modified.sec, info.modified.nsec.toNat⟩

def load (p : Path) (t : FileTree) : IO FileTree := do
  let l := t.spelled p
  match ← (IO.FS.realPath (directoryText p)).toBaseIO with
  | .error _ => return t
  | .ok _ =>
    let t := t.makeDirectories .root l.names.dropLast
    match ← (IO.FS.readBinFile p.text).toBaseIO with
    | .ok data => return t.set l (.file ⟨data.toList, ordinaryMode, ← modifiedAt p⟩)
    | .error (.permissionDenied ..) => return t.set l (.file ⟨[], 0, ⟨0, 0⟩⟩)
    | .error _ =>
      match ← (IO.FS.realPath p.text).toBaseIO with
      | .ok _ => return t.placeDirectory p
      | .error _ => return t.erase l

def store (p : Path) (before after : FileTree) : IO Unit := do
  match after.stat p with
  | .ok (.file stored) =>
    if (before.stat p).toOption ≠ some (.file stored) then
      IO.FS.writeBinFile p.swap.text ⟨stored.content.toArray⟩
      IO.FS.rename p.swap.text p.text
  | _ => return

end Redline.Disk

namespace Redline.Program

def put (bytes : Bytes) : IO Unit := do
  let output ← IO.getStdout
  output.write ⟨bytes.toArray⟩
  output.flush

def nextLine (input : IO.FS.Stream) : IO (Option String) := do
  match ← input.getLine.toBaseIO with
  | .ok "" => return none
  | .ok line => return Text.decode? (Session.chompLine (.ofString line))
  | .error _ => return none

/-- Reads the lines of a text block with the dot that closes it. -/
partial def readBlock (input : IO.FS.Stream) : IO (List (Option String)) := do
  match ← nextLine input with
  | none => return []
  | some line =>
    if Script.blockLine line = "." then return [some line]
    else return some line :: (← readBlock input)

def nextItem (input : IO.FS.Stream) : IO (Option Script.Item) := do
  match ← nextLine input with
  | none => return none
  | some line =>
    let takesText := match Command.parse line with
      | .ok c => c.verb.takesText
      | .error _ => false
    return some (Script.next line (← if takesText then readBlock input else pure [])).1

def fileOf (e : Editor) : Script.Item → Option Path
  | .ok c =>
    match c.verb with
    | .edit file | .editAnyway file | .read file | .write file => file <|> e.fileName
    | _ => none
  | .error _ => none

partial def converse (input : IO.FS.Stream) (w : Workspace) : IO Unit := do
  match ← nextItem input with
  | none => return
  | some item =>
    if Session.isQuit item then return
    match fileOf w.editor item with
    | none =>
      let (written, w) := Session.step item w
      put written
      converse input w
    | some p =>
      let files ← Disk.load p w.files
      let (written, after) := Session.step item { w with files }
      Disk.store p files after.files
      put written
      converse input after

def edit (arguments : List String) (files : FileTree) : IO UInt32 := do
  match Cli.Arguments.read Cli.Edit.usage arguments with
  | .error stop => return (Cli.Outcome.ofStop files stop).code.toUInt32
  | .ok a =>
    let files ← a.operands.foldlM (fun t text => Disk.load ⟨text⟩ t) files
    let (before, w) := Cli.Edit.start a.operands.head? files
    put before
    converse (← IO.getStdin) w
    return 0

def compare (arguments : List String) (files : FileTree) : IO UInt32 := do
  let operands := match Cli.Arguments.read Cli.Compare.usage arguments with
    | .ok a => a.operands
    | .error _ => []
  let files ← operands.foldlM (fun t text => Disk.load ⟨text⟩ t) files
  let outcome := Cli.Compare.run arguments files
  let outcome ← match ← (put outcome.output).toBaseIO with
    | .ok _ => pure outcome
    | .error e => pure (Cli.Compare.failure outcome.files [] (toString e))
  (← IO.getStderr).putStr outcome.complaint
  return outcome.code.toUInt32

end Redline.Program

def main (arguments : List String) : IO UInt32 := do
  let files := Redline.FileTree.empty (← IO.currentDir).toString
  match arguments with
  | "ed" :: rest => Redline.Program.edit rest files
  | "diff" :: rest => Redline.Program.compare rest files
  | _ => return 2

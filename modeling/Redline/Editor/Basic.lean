import Redline.Document.LineIndex
import Redline.Document.PieceTable
import Redline.Editor.Error
import Redline.Files.Replace
import Redline.Files.Source
import Redline.Text.Utf8
/-!
# The state of an editor

One document with its line index, a file name, a current line and the message of
the last failure; and the workspace in which commands act: an editor and the
files around it.
-/

namespace Redline

structure Editor where
  table : PieceTable
  /-- The line boundaries of the document. -/
  lines : LineIndex
  fileName : Option Path
  /-- Counts from one; zero stands before the first line. -/
  currentLine : Nat
  lastError : Option String
  deriving Inhabited, Repr

namespace Editor

def empty : Editor where
  table := .empty
  lines := .empty
  fileName := none
  currentLine := 0
  lastError := none

def lineCount (e : Editor) : Nat :=
  e.lines.lineCount

def bytes (e : Editor) : Bytes :=
  e.table.toBytes

/-- The whole document as text, its last line terminated. -/
def contents (e : Editor) : String :=
  Text.decodeLossy e.bytes.terminated

def reindexed (e : Editor) : Editor :=
  { e with lines := .ofBytes e.bytes }

/-- The editor at a line, or at the last one if there are fewer. -/
def atLine (e : Editor) (line : Nat) : Editor :=
  { e with currentLine := min line e.lineCount }

/-- The editor with a new document, at its last line. -/
def showing (e : Editor) (bytes : Bytes) : Editor :=
  let e := { e with table := .ofBytes bytes }.reindexed
  { e with currentLine := e.lineCount }

def ofText (text : String) : Editor :=
  empty.showing (.ofString text)

def named (e : Editor) (p : Path) : Editor :=
  { e with fileName := some p }

/-- The editor with a file name, if it had none. -/
def namedIfUnnamed (e : Editor) (p : Path) : Editor :=
  if e.fileName.isNone then e.named p else e

def recordError (e : Editor) (error : EditError) : Editor :=
  { e with lastError := some error.message }

end Editor

structure Workspace where
  editor : Editor
  files : FileTree
  deriving Inhabited, Repr

/-- Actions on a workspace; a failure keeps what was done before. -/
abbrev EditM := EStateM EditError Workspace

namespace EditM

def ask (f : Editor → Except EditError α) : EditM α := fun w =>
  match f w.editor with
  | .ok a => .ok a w
  | .error e => .error e w

def update (f : Editor → Editor) : EditM Unit := fun w =>
  .ok () { w with editor := f w.editor }

/-- Changes the text of the document and leaves the line index behind. -/
def changeText (f : PieceTable → Except PieceTable.Fault PieceTable) : EditM Unit := fun w =>
  match f w.editor.table with
  | .ok table => .ok () { w with editor := { w.editor with table } }
  | .error cause => .error (.text cause) w

def askFiles (f : FileTree → Except FileError α) : EditM α := fun w =>
  match f w.files with
  | .ok a => .ok a w
  | .error cause => .error (.file cause) w

/-- Acts on the files; a failure may have changed them. -/
def changeFiles (f : FileTree → Except FileError α × FileTree) : EditM α := fun w =>
  match f w.files with
  | (.ok a, files) => .ok a { w with files }
  | (.error cause, files) => .error (.file cause) { w with files }

end EditM

end Redline

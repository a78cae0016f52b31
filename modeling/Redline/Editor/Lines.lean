import Redline.Editor.Basic
/-!
# Line edits

Lines are read, inserted and deleted through their byte offsets in the document.
-/

namespace Redline

namespace Editor

/-- The bytes from the start of one line to the end of another. -/
def lineSpan (e : Editor) (first last : Nat) : Except EditError Span :=
  let start := e.lines.lineStart first
  let stop := e.lines.lineEnd last
  if stop < start then .error (.text .overflow) else .ok ⟨start, stop⟩

def readSpan (e : Editor) (s : Span) : Except EditError Bytes :=
  (e.table.read s.start s.length).mapError .text

def lineBytes (e : Editor) (first last : Nat) : Except EditError Bytes := do
  let bytes ← e.readSpan (← e.lineSpan first last)
  return bytes.terminated

def lineContent (e : Editor) (line : Nat) : Except EditError Bytes :=
  match e.lines.lineRange? line with
  | some range => e.readSpan range
  | none => .error .invalidAddress

def joinedLines (e : Editor) (first last : Nat) (shown : Nat → Bytes → Bytes) :
    Except EditError Bytes := do
  let rows ← (List.range' first (last + 1 - first)).mapM fun line =>
    (e.lineContent line).map (shown line)
  return Bytes.joinLines rows

end Editor

namespace EditM

def reindex : EditM Unit :=
  update Editor.reindexed

def goTo (line : Nat) : EditM Unit :=
  update (·.atLine line)

/-- Inserts text so that it starts at a line; the number after the last line
appends.  Text behind an unterminated last line is set off by a newline. -/
def insertBefore (line : Nat) (text : Bytes) : EditM Unit := do
  if text.isEmpty then return
  let lines ← ask fun e => .ok e.lines
  let start := lines.lineStart line
  if start = lines.byteLength ∧ lines.missingFinalNewline then
    changeText (·.insert start [newline])
    changeText (·.insert (start + 1) text)
  else
    changeText (·.insert start text)
  reindex

def deleteLines (first last : Nat) : EditM Unit := do
  let s ← ask (·.lineSpan first last)
  changeText (·.delete s.start s.length)
  reindex

/-- Removes the newline of each of the lines, all offsets being those before the
first removal. -/
def dropNewlines : List Nat → EditM Unit
  | [] => pure ()
  | line :: rest => do
    let range ← ask fun e =>
      match e.lines.lineRange? line with
      | some range => .ok range
      | none => .error .invalidAddress
    changeText (·.delete range.stop 1)
    dropNewlines rest

/-- Makes one line of a range of lines.  Newlines go from back to front, so that
the offsets of those before stay right. -/
def joinLines (first last : Nat) : EditM Unit := do
  dropNewlines (List.range' first (last - first)).reverse
  reindex

end EditM

end Redline

import Redline.Bytes
import Redline.Span
/-!
# Line boundaries of a document

Lines are numbered from one.  The index holds the content range of each line,
newline excluded, and the length of the document.
-/

namespace Redline

structure LineIndex where
  lines : List Span
  byteLength : Nat
  deriving DecidableEq, Inhabited, Repr

namespace LineIndex

def empty : LineIndex :=
  ⟨[], 0⟩

/-- Content ranges of the lines of the bytes at `position` and after, the
current line having started at `start`. -/
def scan (start position : Nat) : Bytes → List Span
  | [] => if start < position then [⟨start, position⟩] else []
  | b :: rest =>
    if b = newline then ⟨start, position⟩ :: scan (position + 1) (position + 1) rest
    else scan start (position + 1) rest

def ofBytes (bytes : Bytes) : LineIndex :=
  ⟨scan 0 0 bytes, bytes.length⟩

def lineCount (index : LineIndex) : Nat :=
  index.lines.length

def missingFinalNewline (index : LineIndex) : Bool :=
  index.lines.getLast?.any (·.stop = index.byteLength)

def lineRange? (index : LineIndex) : Nat → Option Span
  | 0 => none
  | line + 1 => index.lines[line]?

/-- Offset at which a line starts.  Line `0` starts at the front, a line past
the last one at the end of the document. -/
def lineStart (index : LineIndex) : Nat → Nat
  | 0 => 0
  | line + 1 =>
    match index.lines[line]? with
    | some range => range.start
    | none => index.byteLength

def lineEnd (index : LineIndex) (line : Nat) : Nat :=
  index.lineStart (line + 1)

end LineIndex

end Redline

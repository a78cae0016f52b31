import Redline.Bytes
import Redline.Span
/-!
# Rows of a printed comparison
-/

namespace Redline

structure Heading where
  numeric : String
  named : String
  deriving DecidableEq, Inhabited, Repr

namespace Row

def ofString (s : String) : Bytes :=
  Bytes.ofString s

def marked (mark : String) (lines : List Bytes) (s : Span) : List Bytes :=
  (s.slice lines).map (Bytes.ofString mark ++ ·)

/-- Numbers, from one, of the first and the last line of a range; of a range
with at most one line one number. -/
def rangeText (s : Span) : String :=
  if s.length ≤ 1 then s!"{s.start + 1}" else s!"{s.start + 1},{s.stop}"

/-- As `rangeText`, but an empty range is written as the number of lines before
it. -/
def sectionText (s : Span) : String :=
  if s.length = 0 then s!"{s.start}" else rangeText s

/-- The number of the first line and the number of lines, which is left out if it
is one; before an empty range stands the number of lines before it. -/
def countedText (s : Span) : String :=
  if s.length = 0 then s!"{s.start},0"
  else if s.length = 1 then s!"{s.start + 1}"
  else s!"{s.start + 1},{s.length}"

end Row

end Redline

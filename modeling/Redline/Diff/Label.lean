import Redline.Calendar
import Redline.Diff.Row
/-!
# Labels of compared files
-/

namespace Redline

structure Label where
  name : String
  modified : Timestamp
  /-- How far the clock that shows the time is ahead of universal time. -/
  offsetMinutes : Int
  deriving DecidableEq, Inhabited, Repr

namespace Label

def reading (l : Label) : Calendar.Reading :=
  .ofTimestamp l.modified l.offsetMinutes

/-- Name and time in figures. -/
def numericText (l : Label) : String :=
  l.name ++ "\t" ++ l.reading.numericText

/-- Name and time with names of day and month. -/
def namedText (l : Label) : String :=
  l.name ++ "\t" ++ l.reading.namedText

def heading (l : Label) : Heading :=
  ⟨l.numericText, l.namedText⟩

instance : Coe Label Heading :=
  ⟨heading⟩

end Label

end Redline

import Redline.Diff.Change
import Redline.Diff.Row
/-!
# Plain listing of changes

Each change is a head with the ranges of both sides and a letter, then the old
lines behind `<` and the new lines behind `>`.
-/

namespace Redline

namespace Normal

def head (c : Change) : String :=
  if c.old.isEmpty then s!"{c.old.start}a{Row.rangeText c.new}"
  else if c.new.isEmpty then s!"{Row.rangeText c.old}d{c.new.start}"
  else s!"{Row.rangeText c.old}c{Row.rangeText c.new}"

def changeRows (d : Comparison Bytes) (c : Change) : List Bytes :=
  [Row.ofString (head c)] ++ Row.marked "< " d.old c.old ++
    (if c.old.isEmpty || c.new.isEmpty then [] else [Row.ofString "---"]) ++
    Row.marked "> " d.new c.new

def rows (d : Comparison Bytes) : List Bytes :=
  d.changes.flatMap (changeRows d)

end Normal

end Redline

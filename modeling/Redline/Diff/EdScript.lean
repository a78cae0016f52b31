import Redline.Diff.Change
import Redline.Diff.Row
/-!
# Changes as editor commands

A script that turns the old file into the new one.  The last change comes first,
so that the line numbers of those before it stay right.
-/

namespace Redline

namespace EdScript

/-- A command and the block of its text, if it takes one. -/
def changeRows (d : Comparison Bytes) (c : Change) : List Bytes :=
  if c.new.isEmpty then [Row.ofString s!"{Row.rangeText c.old}d"]
  else
    let head := if c.old.isEmpty then s!"{c.old.start}a" else s!"{Row.rangeText c.old}c"
    [Row.ofString head] ++ Row.marked "" d.new c.new ++ [Row.ofString "."]

def rows (d : Comparison Bytes) : List Bytes :=
  d.changes.reverse.flatMap (changeRows d)

end EdScript

end Redline

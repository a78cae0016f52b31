import Redline.Diff.Change
import Redline.Diff.Row
/-!
# Unified listing

Two rows name the files; then each group of changes stands in one window, with
old lines behind `-`, new lines behind `+` and unchanged lines behind a blank.
-/

namespace Redline

namespace Unified

def bodyRows (d : Comparison Bytes) (stop : Nat) : Nat → List Change → List Bytes
  | position, [] => Row.marked " " d.old ⟨position, stop⟩
  | position, c :: rest =>
    Row.marked " " d.old ⟨position, c.old.start⟩ ++ Row.marked "-" d.old c.old ++
      Row.marked "+" d.new c.new ++ bodyRows d stop c.old.stop rest

def groupHead (w : Window) : String :=
  s!"@@ -{Row.countedText w.old} +{Row.countedText w.new} @@"

def groupRows (d : Comparison Bytes) (context : Nat) (group : List Change) : List Bytes :=
  let w := Window.ofGroup context d.old.length group
  Row.ofString (groupHead w) :: bodyRows d w.old.stop w.old.start group

def rows (d : Comparison Bytes) (oldHead newHead : Heading) (context : Nat) : List Bytes :=
  if d.changes.isEmpty then []
  else
    Row.ofString ("--- " ++ oldHead.numeric) ::
      Row.ofString ("+++ " ++ newHead.numeric) ::
      (Change.groups context d.changes).flatMap (groupRows d context)

end Unified

end Redline

import Redline.Diff.Change
import Redline.Diff.Row
/-!
# Context listing

Two rows name the files; then each group of changes shows its window of the old
file and its window of the new file, a window without changed lines by its range
alone.
-/

namespace Redline

namespace Context

/-- One of the two sides of a comparison. -/
inductive Side where
  | old
  | new
  deriving DecidableEq, Repr

def Side.span : Side → Change → Span
  | old => Change.old
  | new => Change.new

def Side.other : Side → Side
  | old => new
  | new => old

/-- The mark of lines that the other side has nothing for. -/
def Side.soloMark : Side → String
  | old => "- "
  | new => "+ "

def Side.lines (d : Comparison α) : Side → List α
  | old => d.old
  | new => d.new

def mark (side : Side) (c : Change) : String :=
  if (side.other.span c).isEmpty then side.soloMark else "! "

def bodyRows (d : Comparison Bytes) (side : Side) (stop : Nat) : Nat → List Change → List Bytes
  | position, [] => Row.marked "  " (side.lines d) ⟨position, stop⟩
  | position, c :: rest =>
    let s := side.span c
    Row.marked "  " (side.lines d) ⟨position, s.start⟩ ++
      Row.marked (mark side c) (side.lines d) s ++ bodyRows d side stop s.stop rest

def sideRows (d : Comparison Bytes) (side : Side) (w : Span) (group : List Change) : List Bytes :=
  if group.any fun c => !(side.span c).isEmpty then bodyRows d side w.stop w.start group else []

def groupRows (d : Comparison Bytes) (context : Nat) (group : List Change) : List Bytes :=
  let w := Window.ofGroup context d.old.length group
  [Row.ofString "***************", Row.ofString s!"*** {Row.sectionText w.old} ****"] ++
    sideRows d .old w.old group ++ [Row.ofString s!"--- {Row.sectionText w.new} ----"] ++
    sideRows d .new w.new group

def rows (d : Comparison Bytes) (oldHead newHead : Heading) (context : Nat) : List Bytes :=
  if d.changes.isEmpty then []
  else
    Row.ofString ("*** " ++ oldHead.named) ::
      Row.ofString ("--- " ++ newHead.named) ::
      (Change.groups context d.changes).flatMap (groupRows d context)

end Context

end Redline

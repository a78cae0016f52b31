import Redline.Cli.Outcome
import Redline.Diff.Label
import Redline.Diff.Report
import Redline.Lines
/-!
# Comparing two files

The exit code is zero for files without changes, one for files with changes, and
two for wrong use and for files that cannot be read.  If a machine word overflows
on the way to a report, nothing is printed and the code is 101.
-/

namespace Redline.Cli.Compare

def usage : Usage :=
  ⟨['b', 'c', 'e', 'u'], ['C', 'U'], 2⟩

/-- The letters of which only one may be given. -/
def styleLetters : List Char :=
  ['c', 'C', 'e', 'u', 'U']

def formatOf (a : Arguments) : Report.Format :=
  if a.has 'c' || a.has 'C' then .context
  else if a.has 'u' || a.has 'U' then .unified
  else if a.has 'e' then .edScript
  else .normal

def optionsOf (a : Arguments) : Report.Options :=
  ⟨formatOf a, a.number.getD Report.defaultContext, a.has 'b'⟩

def isConsistent (a : Arguments) : Bool :=
  (a.letters.filter styleLetters.contains).length ≤ 1

/-- The file at a path; a failure names it. -/
def open? (files : FileTree) (p : Path) : Except String StoredFile :=
  (files.file p).mapError fun e => s!"cannot read {p.text}: {e.message}"

def labelOf (p : Path) (stored : StoredFile) : Label :=
  ⟨p.text, stored.modified, 0⟩

/-- What a comparison of two files comes to. -/
inductive Verdict where
  | same
  | differ (report : Bytes)
  /-- There are changes, but a machine word overflows on the way to their report. -/
  | brokenOff
  deriving DecidableEq, Repr

def verdict (options : Report.Options) (files : FileTree) (oldPath newPath : Path) :
    Except String Verdict := do
  let old ← open? files oldPath
  let new ← open? files newPath
  let hunks := Report.compare options (splitLines old.content) (splitLines new.content)
  if Hunk.hasChanges hunks then
    match Report.render? options hunks (labelOf oldPath old) (labelOf newPath new) with
    | some report => return .differ report
    | none => return .brokenOff
  else return .same

def failure (files : FileTree) (written : Bytes) (cause : String) : Outcome :=
  ⟨2, written, s!"diff: {cause}\n", files⟩

def outcome (options : Report.Options) (files : FileTree) (oldPath newPath : Path) : Outcome :=
  match verdict options files oldPath newPath with
  | .error cause => failure files [] cause
  | .ok .same => ⟨0, [], "", files⟩
  | .ok (.differ report) => ⟨1, report ++ [newline], "", files⟩
  | .ok .brokenOff => ⟨101, [], "", files⟩

/-- As `outcome`, on an output that takes `room` bytes and refuses all others for a cause. -/
def outcomeWithin (room : Nat) (cause : String) (options : Report.Options) (files : FileTree)
    (oldPath newPath : Path) : Outcome :=
  let whole := outcome options files oldPath newPath
  if room < whole.output.length then failure files (whole.output.take room) cause else whole

def run (arguments : List String) (files : FileTree) : Outcome :=
  match Arguments.read usage arguments with
  | .error stop => .ofStop files stop
  | .ok a =>
    match a.operands, isConsistent a with
    | [oldPath, newPath], true => outcome (optionsOf a) files ⟨oldPath⟩ ⟨newPath⟩
    | _, _ => .ofStop files .misuse

end Redline.Cli.Compare

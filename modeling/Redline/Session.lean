import Redline.Command.Script
import Redline.Editor.Execute
import Redline.Lines
/-!
# Sessions

A session carries out the items of a script in order until a command to quit.
Results and failures are written one after the other.
-/

namespace Redline

namespace Session

/-- A terminated line without its newline and the carriage return before that;
an unterminated one as it is. -/
def chompLine (line : Bytes) : Bytes :=
  if line.getLast? = some newline then
    let content := line.dropLast
    if content.getLast? = some 13 then content.dropLast else content
  else line

/-- The lines of an input with their newlines. -/
def rawLines : Bytes → List Bytes
  | [] => []
  | b :: rest =>
    if b = newline then [b] :: rawLines rest
    else
      match rawLines rest with
      | [] => [[b]]
      | line :: lines => (b :: line) :: lines

/-- The lines of an input as text, where they are text. -/
def inputLines (input : Bytes) : List (Option String) :=
  (rawLines input).map fun line => Text.decode? (chompLine line)

/-- A result with a newline behind it, unless it is empty. -/
def shownResult (result : Bytes) : Bytes :=
  if result.isEmpty then [] else result ++ [newline]

def shownError (e : EditError) : Bytes :=
  Bytes.ofString ("?" ++ e.message ++ "\n")

/-- Carries out one item, and returns what is written and the workspace after. -/
def step (item : Script.Item) (w : Workspace) : Bytes × Workspace :=
  match item with
  | .ok c =>
    match EditM.execute c w with
    | .ok result w => (shownResult result, w)
    | .error e w => (shownError e, w)
  | .error cause =>
    let e := EditError.parse cause
    (shownError e, { w with editor := w.editor.recordError e })

def isQuit : Script.Item → Bool
  | .ok c => c.verb.isQuit
  | .error _ => false

/-- Carries out items up to the first command to quit, and returns all that is
written and the workspace after. -/
def runItems : List Script.Item → Workspace → Bytes × Workspace
  | [], w => ([], w)
  | item :: rest, w =>
    if isQuit item then ([], w)
    else
      let (written, w) := step item w
      let (more, w) := runItems rest w
      (written ++ more, w)

def run (script : Bytes) (w : Workspace) : Bytes × Workspace :=
  runItems (Script.items (inputLines script)) w

/-! ## Outputs that run short -/

/-- What a session comes to on an output that may refuse bytes. -/
structure Ending where
  written : Bytes
  /-- Whether something was refused, which ends the session early. -/
  refused : Bool
  workspace : Workspace
  deriving Inhabited, Repr

/-- As `runItems`, on an output that takes `room` bytes and refuses all others. -/
def runItemsWithin : Nat → List Script.Item → Workspace → Ending
  | _, [], w => ⟨[], false, w⟩
  | room, item :: rest, w =>
    if isQuit item then ⟨[], false, w⟩
    else
      let (written, w) := step item w
      if room < written.length then ⟨written.take room, true, w⟩
      else
        let ending := runItemsWithin (room - written.length) rest w
        { ending with written := written ++ ending.written }

def runWithin (room : Nat) (script : Bytes) (w : Workspace) : Ending :=
  runItemsWithin room (Script.items (inputLines script)) w

end Session

end Redline

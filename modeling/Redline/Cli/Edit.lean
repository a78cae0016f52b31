import Redline.Cli.Outcome
import Redline.Session
/-!
# Editing a file by a script

A file that cannot be opened gives its name to an empty document all the same.
-/

namespace Redline.Cli.Edit

def usage : Usage :=
  ⟨[], [], 1⟩

/-- The workspace in which a session starts, with what is written before it. -/
def start (operand : Option String) (files : FileTree) : Bytes × Workspace :=
  let w : Workspace := ⟨.empty, files⟩
  match operand with
  | none => ([], w)
  | some text =>
    let p : Path := ⟨text⟩
    match EditM.edit p w with
    | .ok () w => ([], w)
    | .error e w => (Session.shownError e, { w with editor := (w.editor.recordError e).named p })

def run (arguments : List String) (input : Bytes) (files : FileTree) : Outcome :=
  match Arguments.read usage arguments with
  | .error stop => .ofStop files stop
  | .ok a =>
    let (before, w) := start a.operands.head? files
    let (written, w) := Session.run input w
    ⟨0, before ++ written, "", w.files⟩

/-- As `run`, on an output that takes `room` bytes and refuses all others for a cause.  Before the
session a refusal breaks the program off. -/
def runWithin (room : Nat) (cause : String) (arguments : List String) (input : Bytes)
    (files : FileTree) : Outcome :=
  match Arguments.read usage arguments with
  | .error stop => .ofStop files stop
  | .ok a =>
    let (before, w) := start a.operands.head? files
    if room < before.length then ⟨101, before.take room, "", w.files⟩
    else
      let ending := Session.runWithin (room - before.length) input w
      ⟨if ending.refused then 1 else 0, before ++ ending.written,
        if ending.refused then s!"Error: {cause}\n" else "", ending.workspace.files⟩

end Redline.Cli.Edit

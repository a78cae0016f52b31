import Redline.Editor.Addressing
import Redline.Editor.Lines
import Redline.Editor.Visible
/-!
# Carrying out commands

Each command returns the bytes that it shows, without a newline at their end.
A failure is remembered for the command that asks for help.
-/

namespace Redline

namespace EditM

/-! ## Files -/

/-- The file that a command names, or else that of the document. -/
def fileOr (file : Option Path) : EditM Path :=
  ask fun e =>
    match file, e.fileName with
    | some p, _ => .ok p
    | none, some p => .ok p
    | none, none => .error .noFileName

def edit (p : Path) : EditM Unit := do
  let source ← askFiles (·.openSource p)
  update fun e => (e.named p).showing source.bytes

/-- Writes lines over a file and returns how many bytes.  Writing the whole
document over its own file opens that anew. -/
def write (p : Path) (first last : Nat) : EditM Nat := do
  let e ← ask .ok
  let whole := first ≤ 1 && e.lineCount ≤ last
  let chunks ←
    if whole then
      pure (e.table.chunks ++ [if e.lines.missingFinalNewline then [newline] else []])
    else
      ask fun e => (e.lineBytes first last).map ([·])
  let count ← changeFiles (·.replace p chunks)
  update (·.namedIfUnnamed p)
  let e ← ask .ok
  if whole && e.fileName.any (·.same p) then edit p
  return count

/-! ## Commands -/

def showLine (line : Nat) : EditM Bytes := do
  if line = 0 then throw .invalidAddress
  goTo line
  ask (·.lineContent line)

def showRange (c : Command) (shown : Nat → Bytes → Bytes) : EditM Bytes :=
  ask fun e => do
    let (first, last) ← e.resolveRange c
    e.joinedLines first last shown

def numberedLine (line : Nat) (content : Bytes) : Bytes :=
  Bytes.ofString s!"{line}\t" ++ content

def append (c : Command) (text : String) : EditM Unit := do
  let line ← ask (·.resolve? c.first)
  let bytes := Bytes.ofString text
  insertBefore (line + 1) bytes
  goTo (line + 1 + bytes.countNewlines)

def insert (c : Command) (text : String) : EditM Unit := do
  let line ← ask (·.resolve? c.first)
  insertBefore (max line 1) (.ofString text)

def change (c : Command) (text : String) : EditM Unit := do
  let (first, last) ← ask (·.resolveRange c)
  let bytes := Bytes.ofString text
  deleteLines first last
  insertBefore first bytes
  goTo (first + bytes.countNewlines)

def delete (c : Command) : EditM Unit := do
  let (first, last) ← ask (·.resolveRange c)
  deleteLines first last
  goTo first

def join (c : Command) : EditM Unit := do
  let (first, last) ← ask (·.resolveRange c)
  joinLines first last
  goTo first

def copy (c : Command) (destination : Option Address) : EditM Unit := do
  let (first, last) ← ask (·.resolveRange c)
  let line ← ask (·.resolveDestination destination)
  let bytes ← ask (·.lineBytes first last)
  insertBefore (line + 1) bytes
  goTo (line + (last - first + 1))

/-- Moves lines behind a line that is not inside them.  Of the two places the
later one is edited first. -/
def move (c : Command) (destination : Option Address) : EditM Unit := do
  let (first, last) ← ask (·.resolveRange c)
  let line ← ask (·.resolveDestination destination)
  if first ≤ line ∧ line < last then throw .invalidDestination
  let bytes ← ask (·.lineBytes first last)
  if last ≤ line then
    insertBefore (line + 1) bytes
    deleteLines first last
    goTo line
  else
    deleteLines first last
    insertBefore (line + 1) bytes
    goTo (line + (last - first + 1))

def fileName (file : Option Path) : EditM Bytes := do
  if let some p := file then update (·.named p)
  let p ← fileOr none
  return .ofString p.text

def read (c : Command) (file : Option Path) : EditM Unit := do
  let line ← ask (·.resolve? c.first)
  let p ← fileOr file
  let bytes := (← askFiles (·.read p)).terminated
  insertBefore (line + 1) bytes
  update (·.namedIfUnnamed p)
  let added := bytes.countNewlines
  if 0 < added then goTo (line + added)

def writeCommand (c : Command) (file : Option Path) : EditM Unit := do
  let p ← fileOr file
  let (first, last) ← ask fun e =>
    if e.lineCount = 0 then .ok (0, 0) else e.resolveRange c
  discard (write p first last)

def silently (action : EditM Unit) : EditM Bytes := do
  action
  return []

/-- Carries out a command whose addresses are filled in; `explicit` says whether
it came with addresses of its own. -/
def perform (c : Command) (explicit : Bool) : EditM Bytes :=
  match c.verb with
  | .goTo => do showLine (← ask (·.resolve? (if explicit then c.last else c.first)))
  | .print => showRange c fun _ content => content
  | .number => showRange c numberedLine
  | .list => showRange c fun _ content => visibleLine content
  | .lineNumber => do return .ofString (toString (← ask (·.resolve? c.first)))
  | .append text => silently (append c text)
  | .insert text => silently (insert c text)
  | .change text => silently (change c text)
  | .delete => silently (delete c)
  | .join => silently (join c)
  | .copy destination => silently (copy c destination)
  | .move destination => silently (move c destination)
  | .edit file | .editAnyway file => silently do edit (← fileOr file)
  | .fileName file => fileName file
  | .read file => silently (read c file)
  | .write file => silently (writeCommand c file)
  | .help => ask fun e => .ok (.ofString (e.lastError.getD ""))
  | .quit | .quitAnyway => pure []
  | .mark _ => throw .unsupportedMark
  | .onMatching .. | .onMatchingAsk _ | .onOthers .. | .onOthersAsk _ | .helpMode | .prompt
  | .substitute .. | .undo | .shell _ => throw .unsupportedCommand

/-- Carries out a command; a failure is remembered. -/
def execute (c : Command) : EditM Bytes := fun w =>
  match perform c.withDefaults c.first.isSome w with
  | .ok shown w => .ok shown w
  | .error e w => .error e { w with editor := w.editor.recordError e }

end EditM

end Redline

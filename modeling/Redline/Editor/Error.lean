import Redline.Command.Parser
import Redline.Document.PieceTable
import Redline.Files.Error
/-!
# Why a command fails
-/

namespace Redline

inductive EditError where
  | file (cause : FileError)
  | invalidAddress
  | invalidDestination
  | noFileName
  /-- The language has the command, the editor does not carry it out. -/
  | unsupportedCommand
  | unsupportedMark
  | unsupportedSearch
  | parse (cause : ParseError)
  | text (cause : PieceTable.Fault)
  deriving DecidableEq, Inhabited, Repr

namespace EditError

/-- Set behind the name of what the editor does not carry out. -/
def unsupportedNote : String := " (NYI)"

def message : EditError → String
  | file cause => cause.message
  | invalidAddress => "invalid address"
  | invalidDestination => "invalid destination"
  | noFileName => "no current filename"
  | unsupportedCommand => unsupportedNote
  | unsupportedMark => "mark" ++ unsupportedNote
  | unsupportedSearch => "search" ++ unsupportedNote
  | parse cause => cause.message
  | text cause => cause.message

/-- Whether the command would be right for an editor that did more. -/
def isUnsupported : EditError → Bool
  | unsupportedCommand | unsupportedMark | unsupportedSearch => true
  | _ => false

end EditError

end Redline

import Redline.Command.Address
import Redline.Files.Path
/-!
# Editor commands

A command is a verb with its operands and up to two addresses.
-/

namespace Redline

inductive Verb where
  /-- No letter: go to a line and show it. -/
  | goTo
  | append (text : String)
  | change (text : String)
  | delete
  | edit (file : Option Path)
  | editAnyway (file : Option Path)
  | fileName (file : Option Path)
  | onMatching (pattern commands : String)
  | onMatchingAsk (pattern : String)
  | help
  | helpMode
  | insert (text : String)
  | join
  | mark (name : String)
  | list
  | move (destination : Option Address)
  | number
  | print
  | prompt
  | quit
  | quitAnyway
  | read (file : Option Path)
  | substitute (pattern replacement flags : String)
  | copy (destination : Option Address)
  | undo
  | onOthers (pattern commands : String)
  | onOthersAsk (pattern : String)
  | write (file : Option Path)
  | lineNumber
  | shell (command : String)
  deriving DecidableEq, Inhabited, Repr

namespace Verb

/-- The addresses that stand in when none is given; `none` for a verb that
takes no address. -/
def defaultRange? : Verb → Option (Address × Address)
  | goTo => some (⟨.current, 1⟩, .current)
  | append _ | change _ | delete | insert _ | mark _ | list | move _ | number | print
  | substitute .. | copy _ => some (.current, .current)
  | join => some (.current, ⟨.current, 1⟩)
  | onMatching .. | onMatchingAsk _ | onOthers .. | onOthersAsk _ | write _ =>
    some (.line 1, .last)
  | read _ | lineNumber => some (.last, .last)
  | edit _ | editAnyway _ | fileName _ | help | helpMode | prompt | quit | quitAnyway | undo
  | shell _ => none

/-- Whether a block of text lines follows the command. -/
def takesText : Verb → Bool
  | append _ | insert _ | change _ => true
  | _ => false

def isQuit : Verb → Bool
  | quit | quitAnyway => true
  | _ => false

/-- The verb with a block of text as its operand, if it takes one. -/
def withText (text : String) : Verb → Verb
  | append _ => append text
  | insert _ => insert text
  | change _ => change text
  | v => v

end Verb

structure Command where
  verb : Verb
  first : Option Address
  last : Option Address
  deriving DecidableEq, Inhabited, Repr

namespace Command

/-- The command with the verb's default addresses if it has no first address. -/
def withDefaults (c : Command) : Command :=
  match c.first, c.verb.defaultRange? with
  | none, some (first, last) => { c with first := some first, last := some last }
  | _, _ => c

def withText (c : Command) (text : String) : Command :=
  { c with verb := c.verb.withText text }

end Command

end Redline

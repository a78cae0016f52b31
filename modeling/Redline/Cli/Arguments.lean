import Redline.Text.Numeral
/-!
# Command-line arguments

Options are single letters, which may be joined.  A letter with a number takes
it from the rest of its argument, behind an equals sign or not, or else from the
next argument.  Two hyphens end the options; a hyphen alone is an operand.
-/

namespace Redline.Cli

structure Usage where
  flags : List Char
  /-- Letters with a number. -/
  numbered : List Char
  mostOperands : Nat

/-- Why reading ends before the last argument. -/
inductive Stop where
  | help
  | misuse
  deriving DecidableEq, Inhabited, Repr

structure Arguments where
  letters : List Char
  number : Option Nat
  operands : List String
  deriving DecidableEq, Inhabited, Repr

namespace Arguments

def empty : Arguments :=
  ⟨[], none, []⟩

def has (a : Arguments) (letter : Char) : Bool :=
  a.letters.contains letter

def addOperand (usage : Usage) (a : Arguments) (operand : String) : Except Stop Arguments :=
  if operand = "" ∨ usage.mostOperands ≤ a.operands.length then .error .misuse
  else .ok { a with operands := a.operands ++ [operand] }

def addNumber (a : Arguments) (letter : Char) (numeral : List Char) : Except Stop Arguments :=
  match Text.readWord? numeral with
  | some n => .ok { a with letters := letter :: a.letters, number := some n }
  | none => .error .misuse

/-- Reads joined letters.  The second result is a letter at the end that still
needs its number. -/
def addLetters (usage : Usage) (a : Arguments) : List Char → Except Stop (Arguments × Option Char)
  | [] => .ok (a, none)
  | c :: rest =>
    if c = 'h' then .error .help
    else if a.has c then .error .misuse
    else if usage.flags.contains c then
      addLetters usage { a with letters := c :: a.letters } rest
    else if usage.numbered.contains c then
      match rest with
      | [] => .ok (a, some c)
      | '=' :: numeral => (a.addNumber c numeral).map (·, none)
      | numeral => (a.addNumber c numeral).map (·, none)
    else .error .misuse

def isOption (argument : String) : Bool :=
  argument.toList.head? = some '-' && argument ≠ "-"

def readFrom (usage : Usage) (a : Arguments) : List String → Except Stop Arguments
  | [] => .ok a
  | argument :: rest =>
    if argument = "--" then rest.foldlM (addOperand usage) a
    else if argument = "--help" then .error .help
    else if isOption argument then
      match a.addLetters usage argument.toList.tail with
      | .error stop => .error stop
      | .ok (a, none) => readFrom usage a rest
      | .ok (a, some letter) =>
        match rest with
        | [] => .error .misuse
        | value :: rest =>
          if isOption value then .error .misuse
          else
            match a.addNumber letter value.toList with
            | .error stop => .error stop
            | .ok a => readFrom usage a rest
    else
      match a.addOperand usage argument with
      | .error stop => .error stop
      | .ok a => readFrom usage a rest

def read (usage : Usage) (arguments : List String) : Except Stop Arguments :=
  readFrom usage empty arguments

end Arguments

end Redline.Cli

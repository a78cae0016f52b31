import Redline.Command.Parser
/-!
# Writing a command line

Each command has one canonical text: its addresses are written out, a second one that is the
same excepted, an offset is one number, and no blank stands where none has to.  Only the
character that ends the patterns of a command is left to choose.
-/

namespace Redline

/-- What is written behind the letter of a verb. -/
inductive Operand where
  | nothing
  | file (name : Option Path)
  | mark (name : String)
  | destination (a : Option Address)
  | pattern (pattern : String)
  | patternAndRest (pattern commands : String)
  | substitution (pattern replacement flags : String)
  | rest (text : String)
  deriving DecidableEq, Repr

namespace Verb

def letter? : Verb → Option Char
  | goTo => none
  | append _ => some 'a'
  | change _ => some 'c'
  | delete => some 'd'
  | edit _ => some 'e'
  | editAnyway _ => some 'E'
  | fileName _ => some 'f'
  | onMatching .. => some 'g'
  | onMatchingAsk _ => some 'G'
  | help => some 'h'
  | helpMode => some 'H'
  | insert _ => some 'i'
  | join => some 'j'
  | mark _ => some 'k'
  | list => some 'l'
  | move _ => some 'm'
  | number => some 'n'
  | print => some 'p'
  | prompt => some 'P'
  | quit => some 'q'
  | quitAnyway => some 'Q'
  | read _ => some 'r'
  | substitute .. => some 's'
  | copy _ => some 't'
  | undo => some 'u'
  | onOthers .. => some 'v'
  | onOthersAsk _ => some 'V'
  | write _ => some 'w'
  | lineNumber => some '='
  | shell _ => some '!'

/-- A block of text is no operand: it stands on lines of its own. -/
def operand : Verb → Operand
  | edit file | editAnyway file | fileName file | read file | write file => .file file
  | mark name => .mark name
  | move a | copy a => .destination a
  | onMatchingAsk pattern | onOthersAsk pattern => .pattern pattern
  | onMatching pattern commands | onOthers pattern commands => .patternAndRest pattern commands
  | substitute pattern replacement flags => .substitution pattern replacement flags
  | shell command => .rest command
  | _ => .nothing

end Verb

namespace Canonical

/-- Whether the last character is a backslash that stands before nothing. -/
def endsOpen : List Char → Bool
  | [] => false
  | c :: rest =>
    if c = '\\' then
      match rest with
      | [] => true
      | _ :: rest => endsOpen rest
    else endsOpen rest

/-- A pattern with the character that ends it and what stands behind.  A pattern that ends in
a lone backslash would take that character in, so it is left open. -/
def delimited (close : Char) (text rest : List Char) : List Char :=
  if endsOpen text then text else text ++ close :: rest

/-! ## Addresses -/

def term (n : Int) : List Char :=
  (if n < 0 then '-' else '+') :: (toString n.natAbs).toList

/-- One term; but the magnitude of the least offset is no offset, and that one takes two. -/
def offset (n : Int) : List Char :=
  if n = Address.minOffset then term (n + 1) ++ term (-1) else term n

def base : Address.Base → List Char
  | .current => ['.']
  | .last => ['$']
  | .number digits => digits.toList
  | .implied => []
  | .mark name => '\x27' :: name.toList
  | .forward pattern => '/' :: delimited '/' pattern.toList []
  | .backward pattern => '?' :: delimited '?' pattern.toList []

/-- An offset of zero is written where nothing stands before it. -/
def address (a : Address) : List Char :=
  base a.base ++ if a.offset = 0 ∧ a.base ≠ .implied then [] else offset a.offset

def range : Option Address → Option Address → List Char
  | some first, some last =>
    if first = last then address first else address first ++ ',' :: address last
  | _, _ => []

/-! ## Operands -/

def operand (close : Char) : Operand → List Char
  | .nothing => []
  | .file name => (name.map fun p => ' ' :: p.text.toList).getD []
  | .mark name => name.toList
  | .destination a => (a.map address).getD []
  | .pattern pattern => close :: delimited close pattern.toList []
  | .patternAndRest pattern commands => close :: delimited close pattern.toList commands.toList
  | .substitution pattern replacement flags =>
    close :: delimited close pattern.toList
      (delimited close replacement.toList flags.toList)
  | .rest text => text.toList

end Canonical

namespace Operand

def parts : Operand → List String
  | pattern text | patternAndRest text _ => [text]
  | substitution text replacement _ => [text, replacement]
  | _ => []

/-- A character to end the parts of an operand by: it can be a delimiter and stands in none. -/
structure IsDelimiter (close : Char) (o : Operand) : Prop where
  notBlank : Text.isBlank close = false
  notBackslash : close ≠ '\\'
  notMem : ∀ part ∈ o.parts, close ∉ part.toList

end Operand

namespace Command

/-- The canonical line of a command, its patterns ended by `close`. -/
def canonicalText (close : Char) (c : Command) : String :=
  String.ofList (Canonical.range c.first c.last ++ c.verb.letter?.toList ++
    Canonical.operand close c.verb.operand)

def addresses (c : Command) : List Address :=
  c.first.toList ++ c.last.toList ++
    match c.verb.operand with
    | .destination a => a.toList
    | _ => []

end Command

end Redline

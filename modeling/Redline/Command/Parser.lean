import Redline.Command.Basic
import Redline.Text.Blank
import Redline.Text.Numeral
/-!
# Reading a command line

One line of text is one command: a range, a letter and the operands of the
letter, with blanks between them.  Each reader takes the characters that are
left and returns what it read with the rest.
-/

namespace Redline

inductive ParseError where
  | unknownCommand (letter : Char)
  | unexpectedAddress
  | invalidSuffix (rest : String)
  | missingDestination
  | invalidMark
  | missingDelimiter
  | numberOutOfRange
  deriving DecidableEq, Inhabited, Repr

def ParseError.message : ParseError → String
  | unknownCommand letter => s!"unknown command `{letter}`"
  | unexpectedAddress => "unexpected address"
  | invalidSuffix rest => s!"invalid command suffix `{rest}`"
  | missingDestination => "destination expected"
  | invalidMark => "invalid mark character"
  | missingDelimiter => "missing pattern delimiter"
  | numberOutOfRange => "number out of range"

namespace Parser

def isSeparator (c : Char) : Bool :=
  c = ' ' || c = '\t'

def skipSeparators (cs : List Char) : List Char :=
  cs.dropWhile isSeparator

/-- The line without the newlines and carriage returns at its end. -/
def withoutLineEnd (cs : List Char) : List Char :=
  (cs.reverse.dropWhile fun c => c = '\n' || c = '\r').reverse

def digits (cs : List Char) : List Char × List Char :=
  (cs.takeWhile Char.isDigit, cs.dropWhile Char.isDigit)

/-- The text up to the next `close` that no backslash stands before, and what
follows that.  Backslashes stay in the text; a missing `close` is accepted. -/
def delimited (close : Char) : List Char → List Char × List Char
  | [] => ([], [])
  | c :: rest =>
    if c = close then ([], rest)
    else if c = '\\' then
      match rest with
      | [] => ([c], [])
      | escaped :: rest =>
        let (text, rest) := delimited close rest
        (c :: escaped :: text, rest)
    else
      let (text, rest) := delimited close rest
      (c :: text, rest)

/-! ## Addresses -/

structure Term where
  negative : Bool
  digits : List Char
  deriving DecidableEq, Repr

def Term.magnitude (t : Term) : Nat :=
  if t.digits = [] then 1 else Text.valueOf t.digits

def Term.value (t : Term) : Int :=
  if t.negative then -t.magnitude else t.magnitude

/-- The sign that a character stands for, `true` for a negative one. -/
def sign? (c : Char) : Option Bool :=
  if c = '+' then some false else if c = '-' || c = '^' then some true else none

theorem length_dropWhile_le (p : α → Bool) (xs : List α) :
    (xs.dropWhile p).length ≤ xs.length :=
  (List.dropWhile_sublist p).length_le

def terms : List Char → List Term × List Char
  | [] => ([], [])
  | c :: rest =>
    match sign? c with
    | none => ([], c :: rest)
    | some negative =>
      let (more, left) := terms (digits rest).2
      (⟨negative, (digits rest).1⟩ :: more, left)
  termination_by cs => cs.length
  decreasing_by
    have := length_dropWhile_le Char.isDigit rest
    simp only [digits, List.length_cons]
    omega

/-- Adds terms to a sum.  Every magnitude and every partial sum must be a signed
word. -/
def sumFrom (sum : Int) : List Term → Except ParseError Int
  | [] => .ok sum
  | t :: ts =>
    if Address.maxOffset < t.magnitude then .error .numberOutOfRange
    else
      let next := sum + t.value
      if next < Address.minOffset ∨ Address.maxOffset < next then .error .numberOutOfRange
      else sumFrom next ts

def offset? (cs : List Char) : Except ParseError (Option Int × List Char) :=
  match terms cs with
  | ([], rest) => .ok (none, rest)
  | (ts, rest) => (sumFrom 0 ts).map fun sum => (some sum, rest)

def base? : List Char → Except ParseError (Option Address.Base × List Char)
  | [] => .ok (none, [])
  | c :: rest =>
    if c = '.' then .ok (some .current, rest)
    else if c = '$' then .ok (some .last, rest)
    else if c.isDigit then
      let (ds, rest) := digits (c :: rest)
      if maxOffset < Text.valueOf ds then .error .numberOutOfRange
      else .ok (some (.number (toString (Text.valueOf ds))), rest)
    else if c = '\x27' then
      match rest with
      | name :: rest =>
        if name.isLower then .ok (some (.mark name.toString), rest) else .error .invalidMark
      | [] => .error .invalidMark
    else if c = '/' then
      let (pattern, rest) := delimited c rest
      .ok (some (.forward (String.ofList pattern)), rest)
    else if c = '?' then
      let (pattern, rest) := delimited c rest
      .ok (some (.backward (String.ofList pattern)), rest)
    else .ok (none, c :: rest)

def address? (cs : List Char) : Except ParseError (Option Address × List Char) := do
  let (base, cs) ← base? cs
  let (offset, cs) ← offset? cs
  match base, offset with
  | some base, offset => return (some ⟨base, offset.getD 0⟩, cs)
  | none, some offset => return (some ⟨.implied, offset⟩, cs)
  | none, none => return (none, cs)

/-- The address that stands before a separator when none is written there. -/
def separator? (c : Char) : Option Address :=
  if c = ',' then some (.line 1) else if c = ';' then some .current else none

def range? (cs : List Char) : Except ParseError (Option (Address × Address) × List Char) := do
  let (first, cs) ← address? cs
  let alone := first.map fun a => (a, a)
  match skipSeparators cs with
  | [] => return (alone, [])
  | c :: rest =>
    match separator? c with
    | none => return (alone, c :: rest)
    | some start =>
      let (second, rest) ← address? (skipSeparators rest)
      return (match first, second with
        | some a, some b => some (a, b)
        | some a, none => some (a, a)
        | none, some b => some (start, b)
        | none, none => some (start, .last), rest)

/-! ## Operands -/

/-- What may follow a command letter, with the verb that it makes. -/
inductive Form where
  | bare (verb : Verb)
  | file (verb : Option Path → Verb)
  | mark
  | destination (verb : Option Address → Verb)
  | pattern (verb : String → Verb)
  | patternAndRest (verb : String → String → Verb)
  | substitution
  | rest (verb : String → Verb)

def Form.ofLetter? (letter : Char) : Option Form :=
  match letter with
  | 'a' => some (.bare (.append ""))
  | 'c' => some (.bare (.change ""))
  | 'd' => some (.bare .delete)
  | 'e' => some (.file .edit)
  | 'E' => some (.file .editAnyway)
  | 'f' => some (.file .fileName)
  | 'g' => some (.patternAndRest .onMatching)
  | 'G' => some (.pattern .onMatchingAsk)
  | 'h' => some (.bare .help)
  | 'H' => some (.bare .helpMode)
  | 'i' => some (.bare (.insert ""))
  | 'j' => some (.bare .join)
  | 'k' => some .mark
  | 'l' => some (.bare .list)
  | 'm' => some (.destination .move)
  | 'n' => some (.bare .number)
  | 'p' => some (.bare .print)
  | 'P' => some (.bare .prompt)
  | 'q' => some (.bare .quit)
  | 'Q' => some (.bare .quitAnyway)
  | 'r' => some (.file .read)
  | 's' => some .substitution
  | 't' => some (.destination .copy)
  | 'u' => some (.bare .undo)
  | 'v' => some (.patternAndRest .onOthers)
  | 'V' => some (.pattern .onOthersAsk)
  | 'w' => some (.file .write)
  | '=' => some (.bare .lineNumber)
  | '!' => some (.rest .shell)
  | _ => none

def Form.bareVerb : Form → Verb
  | bare verb => verb
  | file verb => verb none
  | mark => .mark ""
  | destination verb => verb none
  | pattern verb => verb ""
  | patternAndRest verb => verb "" ""
  | substitution => .substitute "" "" ""
  | rest verb => verb ""

/-- Whether addresses may stand before the letter. -/
def Form.takesAddress (f : Form) : Bool :=
  f.bareVerb.defaultRange?.isSome

/-- A file name, set off from the letter by a blank. -/
def fileOperand : List Char → Except ParseError (Option Path × List Char)
  | [] => .ok (none, [])
  | c :: rest =>
    if isSeparator c then
      let name := Text.trim rest
      .ok (if name = [] then none else some ⟨String.ofList name⟩, [])
    else .error (.invalidSuffix (String.ofList (c :: rest)))

def patternDelimiter : List Char → Except ParseError (Char × List Char)
  | [] => .error .missingDelimiter
  | c :: rest =>
    if Text.isBlank c || c = '\\' then .error .missingDelimiter else .ok (c, rest)

def Form.read (f : Form) (cs : List Char) : Except ParseError (Verb × List Char) :=
  match f with
  | bare verb => .ok (verb, cs)
  | file verb => do
    let (name, cs) ← fileOperand cs
    return (verb name, cs)
  | mark =>
    match cs with
    | name :: cs => if name.isLower then .ok (.mark name.toString, cs) else .error .invalidMark
    | [] => .error .invalidMark
  | destination verb => do
    match ← address? (skipSeparators cs) with
    | (some a, cs) => return (verb (some a), cs)
    | (none, _) => throw .missingDestination
  | pattern verb => do
    let (close, cs) ← patternDelimiter cs
    let (text, cs) := delimited close cs
    return (verb (String.ofList text), cs)
  | patternAndRest verb => do
    let (close, cs) ← patternDelimiter cs
    let (text, cs) := delimited close cs
    return (verb (String.ofList text) (String.ofList cs), [])
  | substitution => do
    let (close, cs) ← patternDelimiter cs
    let (text, cs) := delimited close cs
    let (replacement, cs) := delimited close cs
    return (.substitute (String.ofList text) (String.ofList replacement) (String.ofList cs), [])
  | rest verb => .ok (verb (String.ofList cs), [])

/-! ## Commands -/

/-- Reads a letter and its operands up to the end of the line. -/
def verb (addressed : Bool) (letter : Char) (cs : List Char) : Except ParseError Verb := do
  match Form.ofLetter? letter with
  | none => throw (.unknownCommand letter)
  | some form =>
    if addressed && !form.takesAddress then throw .unexpectedAddress
    let (verb, cs) ← form.read cs
    match skipSeparators cs with
    | [] => return verb
    | left => throw (.invalidSuffix (String.ofList left))

def command (cs : List Char) : Except ParseError Command := do
  let (range, cs) ← range? (skipSeparators cs)
  let first := range.map (·.1)
  let last := range.map (·.2)
  match skipSeparators cs with
  | [] => return ⟨.goTo, first, last⟩
  | letter :: cs => return ⟨← verb range.isSome letter cs, first, last⟩

end Parser

def Command.parse (line : String) : Except ParseError Command :=
  Parser.command (Parser.withoutLineEnd line.toList)

end Redline

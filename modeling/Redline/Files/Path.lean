/-!
# Paths

A path is a text with slashes between its parts.  Two paths are the same when
their components are: repeated and trailing slashes and inner single dots do
not count, a single dot in front does.
-/

namespace Redline

structure Path where
  text : String
  deriving DecidableEq, Inhabited, Repr

namespace Path

inductive Component where
  | root
  | here
  | up
  | name (text : List Char)
  deriving DecidableEq, Repr

def splitAtSlash : List Char → List (List Char)
  | [] => [[]]
  | c :: rest =>
    if c = '/' then [] :: splitAtSlash rest
    else
      match splitAtSlash rest with
      | [] => [[c]]
      | part :: parts => (c :: part) :: parts

def parts (p : Path) : List (List Char) :=
  splitAtSlash p.text.toList

def isAbsolute (p : Path) : Bool :=
  p.text.toList.head? = some '/'

/-- Whether a part leaves the directory as it is. -/
def isIdle (part : List Char) : Bool :=
  part = [] || part = ['.']

def componentOfPart (part : List Char) : Option Component :=
  if isIdle part then none
  else if part = ['.', '.'] then some .up
  else some (.name part)

def components (p : Path) : List Component :=
  (if p.isAbsolute then [.root]
    else if p.parts.head? = some ['.'] then [.here]
    else []) ++ p.parts.filterMap componentOfPart

/-- Whether two paths are spelled alike, up to idle parts. -/
def same (p q : Path) : Bool :=
  p.components = q.components

def dropTrailingIdle : List (List Char) → List (List Char)
  | [] => []
  | first :: rest => first :: (rest.reverse.dropWhile isIdle).reverse

def textOfParts (parts : List (List Char)) : String :=
  if parts = [[]] then "/" else String.ofList (['/'].intercalate parts)

/-- The directory and the name of the file that a path names, if its last
component is a name.  The directory is empty for a name alone. -/
def directoryAndName? (p : Path) : Option (Path × String) :=
  let kept := dropTrailingIdle p.parts
  match kept.getLast? with
  | none => none
  | some last =>
    match componentOfPart last with
    | some (.name name) =>
      some (⟨textOfParts (dropTrailingIdle kept.dropLast)⟩, String.ofList name)
    | _ => none

/-- Ending of the name of a scratch file. -/
def swapSuffix : String := ".swp"

def swap (p : Path) : Path :=
  ⟨p.text ++ swapSuffix⟩

/-- The path of a name in a directory. -/
def child (directory : Path) (name : String) : Path :=
  if directory.text.toList.getLast? = some '/' then ⟨directory.text ++ name⟩
  else ⟨directory.text ++ "/" ++ name⟩

theorem same_refl (p : Path) : p.same p = true := by
  simp [same]

end Path

end Redline

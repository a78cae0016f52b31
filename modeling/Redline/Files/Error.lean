import Redline.Text.Quoted
/-!
# Why a file operation fails
-/

namespace Redline

inductive FileError where
  | notFound
  | permissionDenied
  | alreadyExists
  | busy
  /-- What is opened cannot be mapped into memory. -/
  | unmappable
  | notDirectory
  | isDirectory
  | nameTooLong
  /-- The path holds the character that ends a path for the system. -/
  | nulInPath
  /-- The last component of the path is no name. -/
  | unnamed (path : String)
  /-- A failure at a path that the caller did not spell out. -/
  | located (cause : FileError) (path : String)
  deriving DecidableEq, Inhabited, Repr

namespace FileError

/-- The system's description of an error and its number. -/
def numbered (description : String) (number : Nat) : String :=
  s!"{description} (os error {number})"

def message : FileError → String
  | notFound => numbered "No such file or directory" 2
  | permissionDenied => numbered "Permission denied" 13
  | busy => numbered "Device or resource busy" 16
  | alreadyExists => numbered "File exists" 17
  | unmappable => numbered "No such device" 19
  | notDirectory => numbered "Not a directory" 20
  | isDirectory => numbered "Is a directory" 21
  | nameTooLong => numbered "File name too long" 36
  | nulInPath => "file name contained an unexpected NUL byte"
  | unnamed path => s!"{path} does not name a file"
  | located cause path => s!"{cause.message} at path {Text.quoted path}"

end FileError

end Redline

import Redline.Bytes
/-!
# Lines made visible

A line as printable characters: control characters by name, other bytes by three
octal digits, and a dollar sign at the end.
-/

namespace Redline

namespace Visible

def backslash : UInt8 := 92

/-- Letters behind a backslash for bytes that have a name, each with its byte. -/
def named : List (UInt8 × UInt8) :=
  [(92, 92), (7, 97), (8, 98), (12, 102), (10, 110), (13, 114), (9, 116), (11, 118)]

/-- Whether a byte is printed as it stands. -/
def isPlain (b : UInt8) : Bool :=
  32 ≤ b && b ≤ 126

def octal (b : UInt8) : Bytes :=
  [48 + b / 64, 48 + b / 8 % 8, 48 + b % 8]

def escapedByte (b : UInt8) : Bytes :=
  match named.lookup b with
  | some letter => [backslash, letter]
  | none => if isPlain b then [b] else backslash :: octal b

def endMark : UInt8 := 36

end Visible

/-- A line without any unprintable byte, its end marked. -/
def visibleLine (line : Bytes) : Bytes :=
  line.flatMap Visible.escapedByte ++ [Visible.endMark]

end Redline

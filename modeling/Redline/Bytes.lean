/-!
# Byte strings

Documents, files and program output are lists of bytes; text is a `String` and
becomes bytes through its UTF-8 encoding.
-/

namespace Redline

abbrev Bytes := List UInt8

def newline : UInt8 := 10

/-- The largest byte offset or line number that fits in a machine word. -/
def maxOffset : Nat := 0xFFFFFFFFFFFFFFFF

namespace Bytes

def ofString (s : String) : Bytes :=
  s.toList.flatMap String.utf8EncodeChar

/-- Whether the last byte exists and is no newline. -/
def lacksFinalNewline (bytes : Bytes) : Bool :=
  bytes.getLast?.any (· != newline)

/-- The bytes with their last line terminated. -/
def terminated (bytes : Bytes) : Bytes :=
  if bytes.lacksFinalNewline then bytes ++ [newline] else bytes

def countNewlines (bytes : Bytes) : Nat :=
  bytes.count newline

/-- The lines with a newline between neighbours and none at the end. -/
def joinLines (lines : List Bytes) : Bytes :=
  [newline].intercalate lines

@[simp] theorem ofString_append (s t : String) :
    ofString (s ++ t) = ofString s ++ ofString t := by
  simp [ofString]

theorem lacksFinalNewline_append_newline (bytes : Bytes) :
    (bytes ++ [newline]).lacksFinalNewline = false := by
  simp [lacksFinalNewline]

theorem lacksFinalNewline_terminated (bytes : Bytes) :
    bytes.terminated.lacksFinalNewline = false := by
  unfold terminated
  split
  · exact lacksFinalNewline_append_newline bytes
  · exact eq_false_of_ne_true ‹_›

end Bytes

end Redline

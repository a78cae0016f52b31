import Redline.Bytes
/-!
# The lines of a byte string

A newline ends a line, so a final newline starts no further line and an
unterminated end counts as a line.
-/

namespace Redline

def splitLines : Bytes → List Bytes
  | [] => []
  | b :: rest =>
    if b = newline then [] :: splitLines rest
    else
      match splitLines rest with
      | [] => [[b]]
      | line :: lines => (b :: line) :: lines

@[simp] theorem splitLines_nil : splitLines [] = [] := rfl

@[simp] theorem splitLines_newline (rest : Bytes) :
    splitLines (newline :: rest) = [] :: splitLines rest := by
  simp [splitLines]

/-- A terminated line in front is the first line. -/
theorem splitLines_append_newline (line rest : Bytes) (h : newline ∉ line) :
    splitLines (line ++ newline :: rest) = line :: splitLines rest := by
  induction line with
  | nil => simp
  | cons b line ih =>
    simp only [List.mem_cons, not_or] at h
    simp [splitLines, ih h.2, Ne.symm h.1]

end Redline

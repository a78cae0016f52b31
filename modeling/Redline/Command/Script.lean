import Redline.Command.Parser
/-!
# Scripts

A script is a list of lines.  A command that takes text is followed by the lines
of its text block, up to a line that holds a single dot or to the end.  A line
that is no text, `none` here, ends the block in which it stands; in the place of
a command it ends the script.
-/

namespace Redline

/-- What a script holds in one place: a command, or a line that is none. -/
abbrev Script.Item := Except ParseError Command

namespace Script

def blockLine (line : String) : String :=
  String.ofList (line.toList.reverse.dropWhile (· = '\r')).reverse

/-- The lines of a text block and the lines after the dot that closes it. -/
def takeBlock : List (Option String) → List String × List (Option String)
  | [] => ([], [])
  | none :: rest => ([], rest)
  | some line :: rest =>
    let line := blockLine line
    if line = "." then ([], rest)
    else
      let (block, rest) := takeBlock rest
      (line :: block, rest)

def blockText (block : List String) : String :=
  String.join (block.map (· ++ "\n"))

/-- Reads one item from a line and the lines after it, and returns the lines
that are left. -/
def next (line : String) (rest : List (Option String)) : Item × List (Option String) :=
  match Command.parse line with
  | .error e => (.error e, rest)
  | .ok c =>
    if c.verb.takesText then
      let (block, rest) := takeBlock rest
      (.ok (c.withText (blockText block)), rest)
    else (.ok c, rest)

theorem length_takeBlock_le (lines : List (Option String)) :
    (takeBlock lines).2.length ≤ lines.length := by
  induction lines with
  | nil => simp [takeBlock]
  | cons line rest ih =>
    cases line with
    | none => simp [takeBlock]
    | some line =>
      simp only [takeBlock]
      split
      · simp
      · simp only [List.length_cons]
        omega

theorem length_next_le (line : String) (rest : List (Option String)) :
    (next line rest).2.length ≤ rest.length := by
  unfold next
  split
  · simp
  · split
    · exact length_takeBlock_le rest
    · simp

def items : List (Option String) → List Item
  | [] => []
  | none :: _ => []
  | some line :: rest => (next line rest).1 :: items (next line rest).2
  termination_by lines => lines.length
  decreasing_by
    have := length_next_le line rest
    simp only [List.length_cons]
    omega

end Script

end Redline

import Redline.Bytes
/-!
# An editor on a list of lines

What the line commands mean, without bytes, offsets or an index: a list of lines
and the number of the current one.
-/

namespace Redline

structure LineEditor where
  lines : List Bytes
  /-- Counts from one; zero stands before the first line. -/
  currentLine : Nat
  deriving DecidableEq, Repr

/-- An edit with its addresses resolved and its text at hand. -/
inductive LineEdit where
  | append (line : Nat) (text : List Bytes)
  | insert (line : Nat) (text : List Bytes)
  | change (first last : Nat) (text : List Bytes)
  | delete (first last : Nat)
  | join (first last : Nat)
  | copy (first last destination : Nat)
  | move (first last destination : Nat)
  | read (line : Nat) (text : List Bytes)
  deriving DecidableEq, Repr

namespace LineEdit

def between (first last : Nat) (lines : List Bytes) : List Bytes :=
  (lines.take last).drop (first - 1)

def without (first last : Nat) (lines : List Bytes) : List Bytes :=
  lines.take (first - 1) ++ lines.drop last

def insertBehind (line : Nat) (text lines : List Bytes) : List Bytes :=
  lines.take line ++ text ++ lines.drop line

/-- The number that a line keeps or gets when others are removed. -/
def numberWithout (first last line : Nat) : Nat :=
  if last ≤ line then line - (last - first + 1) else line

def onLines : LineEdit → List Bytes → List Bytes
  | append line text, lines | read line text, lines => insertBehind line text lines
  | insert line text, lines => insertBehind (max line 1 - 1) text lines
  | change first last text, lines => insertBehind (first - 1) text (without first last lines)
  | delete first last, lines => without first last lines
  | join first last, lines =>
    insertBehind (first - 1) [(between first last lines).flatten] (without first last lines)
  | copy first last destination, lines =>
    insertBehind destination (between first last lines) lines
  | move first last destination, lines =>
    insertBehind (numberWithout first last destination) (between first last lines)
      (without first last lines)

def target? : LineEdit → Option Nat
  | append line text => some (line + 1 + text.length)
  | insert .. => none
  | change first _ text => some (first + text.length)
  | delete first _ | join first _ => some first
  | copy first last destination => some (destination + (last - first + 1))
  | move first last destination =>
    some (if last ≤ destination then destination else destination + (last - first + 1))
  | read line text => if text = [] then none else some (line + text.length)

/-- Carries out an edit; beyond the last line there is nowhere to go. -/
def apply (edit : LineEdit) (e : LineEditor) : LineEditor where
  lines := edit.onLines e.lines
  currentLine :=
    match edit.target? with
    | some line => min line (edit.onLines e.lines).length
    | none => e.currentLine

variable {first last destination : Nat} {lines : List Bytes}

theorem length_between (hpos : 0 < first) (hlast : last ≤ lines.length) :
    (between first last lines).length = last + 1 - first := by
  rw [between, List.length_drop, List.length_take]
  omega

theorem length_insertBehind (line : Nat) (text lines : List Bytes) :
    (insertBehind line text lines).length = text.length + lines.length := by
  simp only [insertBehind, List.length_append, List.length_take, List.length_drop]
  omega

theorem insertBehind_without (hpos : 0 < first) (text : List Bytes) (hlast : last ≤ lines.length)
    (hle : first ≤ last) :
    insertBehind (first - 1) text (without first last lines) =
      lines.take (first - 1) ++ text ++ lines.drop last := by
  have hfront : (lines.take (first - 1)).length = first - 1 := by
    rw [List.length_take]
    omega
  unfold insertBehind without
  rw [List.take_left' hfront, List.drop_left' hfront]

/-- Lines that are removed in front of a place move it up by their number. -/
theorem without_insertBehind (hpos : 0 < first) (hle : first ≤ last)
    (hbehind : last ≤ destination) (hin : destination ≤ lines.length) (text : List Bytes) :
    without first last (insertBehind destination text lines) =
      insertBehind (destination - (last - first + 1)) text (without first last lines) := by
  have hfront : (lines.take (first - 1)).length = first - 1 := by
    rw [List.length_take]
    omega
  have hplace : (lines.take destination).length = destination := by
    rw [List.length_take]
    omega
  have hshort : first - 1 ≤ destination - (last - first + 1) := by omega
  have hrest : destination - (last - first + 1) - (first - 1) = destination - last := by omega
  calc without first last (insertBehind destination text lines)
      = lines.take (first - 1) ++ ((lines.take destination).drop last ++
          (text ++ lines.drop destination)) := by
        unfold without insertBehind
        rw [List.append_assoc, List.take_append_of_le_length (by omega), List.take_take,
          Nat.min_eq_left (by omega), List.drop_append_of_le_length (by omega)]
    _ = insertBehind (destination - (last - first + 1)) text (without first last lines) := by
        unfold without insertBehind
        rw [List.take_append, List.drop_append, hfront, hrest,
          List.take_of_length_le (Nat.le_trans (Nat.le_of_eq hfront) hshort),
          List.drop_of_length_le (Nat.le_trans (Nat.le_of_eq hfront) hshort), List.nil_append,
          List.drop_drop, Nat.add_sub_cancel' hbehind, List.drop_take]
        simp only [List.append_assoc]

theorem take_append_between_append_drop (hle : first ≤ last) (lines : List Bytes) :
    lines.take (first - 1) ++ between first last lines ++ lines.drop last = lines := by
  have htake : lines.take (first - 1) = (lines.take last).take (first - 1) := by
    rw [List.take_take, Nat.min_eq_left (by omega)]
  rw [between, htake, List.take_append_drop, List.take_append_drop]

theorem onLines_move_perm (hle : first ≤ last) (destination : Nat) (lines : List Bytes) :
    ((move first last destination).onLines lines).Perm lines := by
  have hperm : ∀ rest text : List Bytes, ∀ line,
      (insertBehind line text rest).Perm (text ++ rest) := by
    intro rest text line
    have h := List.perm_append_comm_assoc (rest.take line) text (rest.drop line)
    rwa [List.take_append_drop, ← List.append_assoc] at h
  have hmoved : ((move first last destination).onLines lines).Perm
      (between first last lines ++ without first last lines) := hperm _ _ _
  have hback : (between first last lines ++ without first last lines).Perm
      (lines.take (first - 1) ++ (between first last lines ++ lines.drop last)) :=
    List.perm_append_comm_assoc _ _ _
  rw [← List.append_assoc, take_append_between_append_drop hle] at hback
  exact hmoved.trans hback

end LineEdit

end Redline

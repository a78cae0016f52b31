import Redline.Diff.Context
import Redline.Proofs.UnifiedReading
/-!
# Reading a context listing

A reader takes a listing apart again: each section with the two ranges that it writes and
the marked lines below them.  A range is written so that its last number is the place where
it stops; where it starts follows from how many lines it has, and a side that is not printed
has the unmarked lines of the other one.
-/

namespace Redline

namespace Context

inductive Mark where
  | kept
  /-- Of a change with lines in both files. -/
  | changed
  | removed
  | added
  deriving DecidableEq, Repr

namespace Mark

def byte : Mark → UInt8
  | kept => 32
  | changed => 33
  | removed => 45
  | added => 43

def ofByte? (b : UInt8) : Option Mark :=
  if b = kept.byte then some kept
  else if b = changed.byte then some changed
  else if b = removed.byte then some removed
  else if b = added.byte then some added
  else none

theorem ofByte?_byte (mark : Mark) : ofByte? mark.byte = some mark := by
  cases mark <;> rfl

end Mark

structure Half where
  range : Span
  lines : List (Mark × Bytes)
  deriving DecidableEq, Repr

structure Section where
  old : Half
  new : Half
  deriving DecidableEq, Repr

def Section.half (s : Section) : Side → Half
  | .old => s.old
  | .new => s.new

def keptTexts (lines : List (Mark × Bytes)) : List Bytes :=
  (lines.filter (·.1 = .kept)).map (·.2)

/-- The lines of one side of a section: what is printed for it or, if that is nothing, the
unmarked lines of the other side. -/
def textsOf (own other : List (Mark × Bytes)) : List Bytes :=
  if own = [] then keptTexts other else own.map (·.2)

def Section.texts (s : Section) (side : Side) : List Bytes :=
  textsOf (s.half side).lines (s.half side.other).lines

def Section.IsCounted (s : Section) : Prop :=
  ∀ side, (s.half side).range.start ≤ (s.half side).range.stop ∧
    (s.texts side).length = (s.half side).range.length

/-! ## The reader -/

def markedLine? : Bytes → Option (Mark × Bytes)
  | b :: blank :: line => if blank = 32 then (Mark.ofByte? b).map (·, line) else none
  | _ => none

def range? (count : Nat) (cs : List Char) : Option (Span × List Char) :=
  let (number, rest) := Parser.digits cs
  let (last, rest) :=
    if rest.head? = some ',' then Parser.digits rest.tail else (number, rest)
  let s : Span := ⟨Text.valueOf last - count, Text.valueOf last⟩
  if number = [] ∨ last = [] ∨ s.length ≠ count then none
  else if Text.valueOf number = s.start + min 1 count then some (s, rest)
  else none

def Side.opening : Side → String
  | old => "*** "
  | new => "--- "

def Side.closing : Side → String
  | old => " ****"
  | new => " ----"

def headRange? (side : Side) (count : Nat) (row : Bytes) : Option Span := do
  let text ← Text.decode? row
  let rest ← Unified.behind? side.opening text.toList
  let (s, rest) ← range? count rest
  if rest = side.closing.toList then some s else none

/-- Marked lines in front, and each other row with the marked lines behind it. -/
def linesAndParts : List Bytes → List (Mark × Bytes) × List (Bytes × List (Mark × Bytes))
  | [] => ([], [])
  | row :: rest =>
    let (lines, parts) := linesAndParts rest
    match markedLine? row with
    | some line => (line :: lines, parts)
    | none => ([], (row, lines) :: parts)

def separator : Bytes :=
  Row.ofString "***************"

def sectionOfHalves? (old new : Bytes × List (Mark × Bytes)) : Option Section := do
  let oldRange ← headRange? .old (textsOf old.2 new.2).length old.1
  let newRange ← headRange? .new (textsOf new.2 old.2).length new.1
  return ⟨⟨oldRange, old.2⟩, ⟨newRange, new.2⟩⟩

def sectionsOfParts? : List (Bytes × List (Mark × Bytes)) → Option (List Section)
  | [] => some []
  | (row, []) :: old :: new :: rest => do
    let s ← sectionOfHalves? old new
    let more ← sectionsOfParts? rest
    if row = separator then some (s :: more) else none
  | _ => none

def sections? (rows : List Bytes) : Option (List Section) :=
  let (lines, parts) := linesAndParts rows
  if lines = [] then sectionsOfParts? parts else none

/-! ## Heads -/

private theorem range?_one (n count : Nat) (rest : List Char) :
    range? count ((toString n).toList ++ ' ' :: rest) =
      if n - (n - count) ≠ count then none
      else if n = n - count + min 1 count then some (⟨n - count, n⟩, ' ' :: rest) else none := by
  have hblank : (' ' :: rest).head? ≠ some ',' := by
    rw [List.head?_cons]
    decide
  rw [range?, Parser.digits_toString_cons n (by decide)]
  dsimp only
  rw [if_neg hblank]
  simp only [Text.toString_ne_nil n, Text.valueOf_toString, false_or]
  rfl

private theorem range?_two (n m count : Nat) (rest : List Char) :
    range? count ((toString n).toList ++ ',' :: ((toString m).toList ++ ' ' :: rest)) =
      if m - (m - count) ≠ count then none
      else if n = m - count + min 1 count then some (⟨m - count, m⟩, ' ' :: rest) else none := by
  rw [range?, Parser.digits_toString_cons n (by decide)]
  dsimp only
  rw [if_pos List.head?_cons, List.tail_cons, Parser.digits_toString_cons m (by decide)]
  simp only [Text.toString_ne_nil n, Text.toString_ne_nil m, Text.valueOf_toString, false_or]
  rfl

theorem range?_sectionText {s : Span} (hs : s.start ≤ s.stop) (rest : List Char) :
    range? s.length ((Row.sectionText s).toList ++ ' ' :: rest) = some (s, ' ' :: rest) := by
  have hcomma : (toString ",").toList = [','] := rfl
  have hstart : s.stop - s.length = s.start := by
    rw [Span.length]
    omega
  have hcount : ¬s.stop - s.start ≠ s.length := fun hne => hne rfl
  unfold Row.sectionText Row.rangeText
  split
  · rename_i hempty
    have hstop : s.start = s.stop := by
      rw [Span.length] at hempty
      omega
    change range? _ ((toString s.start).toList ++ _) = _
    rw [hstop, range?_one, hstart, if_neg hcount, if_pos (by rw [hempty]; exact hstop.symm)]
  · rename_i hempty
    split
    · rename_i hle
      have hone : s.length = 1 := by omega
      have hstop : s.start + 1 = s.stop := by
        rw [Span.length] at hone
        omega
      change range? _ ((toString (s.start + 1)).toList ++ _) = _
      rw [hstop, range?_one, hstart, if_neg hcount, if_pos (by rw [hone]; exact hstop.symm)]
    · have hmin : min 1 s.length = 1 := by omega
      rw [String.toList_append, String.toList_append, hcomma, List.append_assoc, List.append_assoc,
        List.singleton_append]
      change range? _ ((toString (s.start + 1)).toList ++
        ',' :: ((toString s.stop).toList ++ _)) = _
      rw [range?_two, hstart, if_neg hcount, hmin, if_pos rfl]

def headRow (side : Side) (s : Span) : Bytes :=
  Row.ofString (side.opening ++ Row.sectionText s ++ side.closing)

/-- A head gives the range that it was written for. -/
theorem headRange?_headRow (side : Side) {s : Span} (hs : s.start ≤ s.stop) :
    headRange? side s.length (headRow side s) = some s := by
  have hclosing : ∃ rest, side.closing.toList = ' ' :: rest := by
    cases side <;> exact ⟨_, rfl⟩
  obtain ⟨rest, hrest⟩ := hclosing
  rw [headRange?, headRow, Row.ofString, Text.decode?_ofString, Option.bind_eq_bind,
    Option.bind_some, String.toList_append, String.toList_append, List.append_assoc,
    Unified.behind?_append, Option.bind_eq_bind, Option.bind_some, hrest, range?_sectionText hs,
    Option.bind_eq_bind, Option.bind_some]
  exact if_pos rfl

theorem markedLine?_separator : markedLine? separator = none := by
  decide

theorem markedLine?_headRow (side : Side) (s : Span) : markedLine? (headRow side s) = none := by
  have hold : Bytes.ofString (Side.opening .old) = [42, 42, 42, 32] := by decide
  have hnew : Bytes.ofString (Side.opening .new) = [45, 45, 45, 32] := by decide
  rw [headRow, Row.ofString, Bytes.ofString_append, Bytes.ofString_append]
  cases side with
  | old =>
    rw [hold]
    rfl
  | new =>
    rw [hnew]
    rfl

/-! ## Lines -/

def rowOf (line : Mark × Bytes) : Bytes :=
  line.1.byte :: 32 :: line.2

theorem markedLine?_rowOf (line : Mark × Bytes) : markedLine? (rowOf line) = some line := by
  rw [rowOf, markedLine?, if_pos rfl, Mark.ofByte?_byte]
  rfl

theorem linesAndParts_map_rowOf (lines : List (Mark × Bytes)) (rows : List Bytes) :
    linesAndParts (lines.map rowOf ++ rows) =
      (lines ++ (linesAndParts rows).1, (linesAndParts rows).2) := by
  induction lines with
  | nil => rfl
  | cons line lines ih =>
    rw [List.map_cons, List.cons_append, linesAndParts, ih]
    dsimp only
    rw [markedLine?_rowOf]
    rfl

theorem linesAndParts_cons {row : Bytes} (h : markedLine? row = none) (rows : List Bytes) :
    linesAndParts (row :: rows) =
      ([], (row, (linesAndParts rows).1) :: (linesAndParts rows).2) := by
  rw [linesAndParts]
  dsimp only
  rw [h]

/-! ## Sections -/

def printed (s : Section) : List Bytes :=
  separator :: headRow .old s.old.range :: (s.old.lines.map rowOf ++
    headRow .new s.new.range :: s.new.lines.map rowOf)

/-- The rows of a section that are no marked lines, each with the marked lines behind it. -/
def partsOf (s : Section) : List (Bytes × List (Mark × Bytes)) :=
  [(separator, []), (headRow .old s.old.range, s.old.lines),
    (headRow .new s.new.range, s.new.lines)]

theorem linesAndParts_printed {s : Section} {rows : List Bytes}
    {parts : List (Bytes × List (Mark × Bytes))} (h : linesAndParts rows = ([], parts)) :
    linesAndParts (printed s ++ rows) = ([], partsOf s ++ parts) := by
  have hnew : linesAndParts (headRow .new s.new.range :: (s.new.lines.map rowOf ++ rows)) =
      ([], (headRow .new s.new.range, s.new.lines) :: parts) := by
    rw [linesAndParts_cons (markedLine?_headRow _ _), linesAndParts_map_rowOf, h]
    dsimp only
    rw [List.append_nil]
  simp only [printed, List.cons_append, List.append_assoc]
  rw [linesAndParts_cons markedLine?_separator, linesAndParts_cons (markedLine?_headRow _ _),
    linesAndParts_map_rowOf, hnew]
  dsimp only
  rw [List.append_nil]
  rfl

theorem sectionOfHalves?_headRow {s : Section} (h : s.IsCounted) :
    sectionOfHalves? (headRow .old s.old.range, s.old.lines)
      (headRow .new s.new.range, s.new.lines) = some s := by
  obtain ⟨holdOrder, hold⟩ := h .old
  obtain ⟨hnewOrder, hnew⟩ := h .new
  have holdHead : headRange? .old (textsOf s.old.lines s.new.lines).length
      (headRow .old s.old.range) = some s.old.range := by
    have hhead := headRange?_headRow .old holdOrder
    rwa [← hold] at hhead
  have hnewHead : headRange? .new (textsOf s.new.lines s.old.lines).length
      (headRow .new s.new.range) = some s.new.range := by
    have hhead := headRange?_headRow .new hnewOrder
    rwa [← hnew] at hhead
  rw [sectionOfHalves?, holdHead, Option.bind_eq_bind, Option.bind_some, hnewHead]
  rfl

theorem sectionsOfParts?_partsOf {s : Section} (h : s.IsCounted)
    (parts : List (Bytes × List (Mark × Bytes))) :
    sectionsOfParts? (partsOf s ++ parts) = (sectionsOfParts? parts).map (s :: ·) := by
  simp only [partsOf, List.cons_append, List.nil_append]
  rw [sectionsOfParts?, sectionOfHalves?_headRow h, Option.bind_eq_bind, Option.bind_some]
  cases sectionsOfParts? parts <;> rfl

/-- The sections of a listing are read back. -/
theorem sections?_printed {sections : List Section} (h : ∀ s ∈ sections, s.IsCounted) :
    sections? (sections.flatMap printed) = some sections := by
  have hread : ∃ parts, linesAndParts (sections.flatMap printed) = ([], parts) ∧
      sectionsOfParts? parts = some sections := by
    induction sections with
    | nil => exact ⟨[], rfl, rfl⟩
    | cons s rest ih =>
      obtain ⟨parts, hparts, hsections⟩ := ih fun t ht => h t (List.mem_cons_of_mem _ ht)
      refine ⟨partsOf s ++ parts, linesAndParts_printed hparts, ?_⟩
      rw [sectionsOfParts?_partsOf (h s List.mem_cons_self), hsections]
      rfl
  obtain ⟨parts, hparts, hsections⟩ := hread
  rw [sections?, hparts]
  exact hsections

/-! ## What is printed of a group -/

def Side.solo : Side → Mark
  | old => .removed
  | new => .added

def markOf (side : Side) (c : Change) : Mark :=
  if (side.other.span c).isEmpty then side.solo else .changed

/-- The lines of one side of a window, the lines being shown up to a position. -/
def body (d : Comparison Bytes) (side : Side) (stop : Nat) :
    Nat → List Change → List (Mark × Bytes)
  | position, [] => (Span.slice ⟨position, stop⟩ (side.lines d)).map (Mark.kept, ·)
  | position, c :: rest =>
    (Span.slice ⟨position, (side.span c).start⟩ (side.lines d)).map (Mark.kept, ·) ++
      ((side.span c).slice (side.lines d)).map (markOf side c, ·) ++
      body d side stop (side.span c).stop rest

theorem ofString_mark (side : Side) (c : Change) :
    Bytes.ofString (mark side c) = [(markOf side c).byte, 32] := by
  unfold mark markOf
  split
  · cases side <;> decide
  · decide

theorem marked_eq {text : String} {mark : Mark} (h : Bytes.ofString text = [mark.byte, 32])
    (lines : List Bytes) (s : Span) :
    Row.marked text lines s = ((s.slice lines).map (mark, ·)).map rowOf := by
  rw [Row.marked, h, List.map_map]
  rfl

theorem bodyRows_eq (d : Comparison Bytes) (side : Side) (stop position : Nat)
    (group : List Change) :
    bodyRows d side stop position group = (body d side stop position group).map rowOf := by
  have hkept : Bytes.ofString "  " = [Mark.kept.byte, 32] := by decide
  induction group generalizing position with
  | nil => rw [bodyRows, body, marked_eq hkept]
  | cons c rest ih =>
    rw [bodyRows, body, ih, marked_eq hkept, marked_eq (ofString_mark side c), List.map_append,
      List.map_append]

def Side.window (w : Window) : Side → Span
  | old => w.old
  | new => w.new

def halfOf (d : Comparison Bytes) (context : Nat) (group : List Change) (side : Side) : Half :=
  let s := side.window (Window.ofGroup context d.old.length group)
  ⟨s, if group.any fun c => !(side.span c).isEmpty then body d side s.stop s.start group else []⟩

def sectionOf (d : Comparison Bytes) (context : Nat) (group : List Change) : Section :=
  ⟨halfOf d context group .old, halfOf d context group .new⟩

theorem half_sectionOf (d : Comparison Bytes) (context : Nat) (group : List Change) (side : Side) :
    (sectionOf d context group).half side = halfOf d context group side := by
  cases side <;> rfl

theorem sideRows_eq (d : Comparison Bytes) (context : Nat) (group : List Change) (side : Side) :
    sideRows d side (side.window (Window.ofGroup context d.old.length group)) group =
      (halfOf d context group side).lines.map rowOf := by
  unfold sideRows halfOf
  dsimp only
  split
  · exact bodyRows_eq d side _ _ group
  · rfl

theorem groupRows_eq (d : Comparison Bytes) (context : Nat) (group : List Change) :
    groupRows d context group = printed (sectionOf d context group) := by
  have hold := sideRows_eq d context group .old
  have hnew := sideRows_eq d context group .new
  rw [printed, sectionOf, ← hold, ← hnew]
  unfold groupRows
  simp only [List.append_assoc, List.cons_append, List.nil_append]
  rfl

end Context

end Redline

import Redline.Diff.Unified
import Redline.Proofs.Alignment
import Redline.Proofs.ReportLines
import Redline.Proofs.TextBytes
/-!
# Reading a unified listing

A reader takes a listing apart again: each head with the two ranges that it writes, and
the marked lines up to the next head.  It reads what the listing shows of each group.
-/

namespace Redline

namespace Unified

inductive Mark where
  | kept
  | gone
  | added
  deriving DecidableEq, Repr

def Mark.byte : Mark → UInt8
  | kept => 32
  | gone => 45
  | added => 43

/-- A head and the lines up to the next one. -/
structure Section where
  old : Span
  new : Span
  lines : List (Mark × Bytes)
  deriving DecidableEq, Repr

/-! ## The reader -/

def markedLine? : Bytes → Option (Mark × Bytes)
  | [] => none
  | b :: line =>
    if b = Mark.kept.byte then some (.kept, line)
    else if b = Mark.gone.byte then some (.gone, line)
    else if b = Mark.added.byte then some (.added, line)
    else none

/-- The range of so many lines, the first of which has the number; before an empty range
stands the number of lines before it. -/
def countedSpan? : Nat → Nat → Option Span
  | number, 0 => some ⟨number, number⟩
  | 0, _ + 1 => none
  | number + 1, count + 1 => some ⟨number, number + (count + 1)⟩

def counted? (cs : List Char) : Option (Span × List Char) :=
  let (number, rest) := Parser.digits cs
  let (count, rest) := if rest.head? = some ',' then Parser.digits rest.tail else (['1'], rest)
  if number = [] ∨ count = [] then none
  else (countedSpan? (Text.valueOf number) (Text.valueOf count)).map (·, rest)

def behind? (text : String) (cs : List Char) : Option (List Char) :=
  if text.toList.isPrefixOf cs then some (cs.drop text.toList.length) else none

def head? (row : Bytes) : Option (Span × Span) := do
  let text ← Text.decode? row
  let rest ← behind? "@@ -" text.toList
  let (old, rest) ← counted? rest
  let rest ← behind? " +" rest
  let (new, rest) ← counted? rest
  if rest = " @@".toList then some (old, new) else none

def linesAndSections? : List Bytes → Option (List (Mark × Bytes) × List Section)
  | [] => some ([], [])
  | row :: rest => do
    let (lines, sections) ← linesAndSections? rest
    match markedLine? row with
    | some line => return (line :: lines, sections)
    | none =>
      let (old, new) ← head? row
      return ([], ⟨old, new, lines⟩ :: sections)

/-- The sections of a listing behind its two rows of names. -/
def sections? (rows : List Bytes) : Option (List Section) :=
  match linesAndSections? rows with
  | some ([], sections) => some sections
  | _ => none

/-! ## Heads -/

private theorem counted?_one (n : Nat) (rest : List Char) :
    counted? ((toString n).toList ++ ' ' :: rest) = (countedSpan? n 1).map (·, ' ' :: rest) := by
  have hblank : (' ' :: rest).head? ≠ some ',' := by
    rw [List.head?_cons]
    decide
  have hsome : ¬((toString n).toList = [] ∨ ['1'] = []) :=
    not_or.mpr ⟨Text.toString_ne_nil n, List.cons_ne_nil _ _⟩
  rw [counted?, Parser.digits_toString_cons n (by decide)]
  dsimp only
  rw [if_neg hblank, if_neg hsome, Text.valueOf_toString]
  rfl

private theorem counted?_two (n m : Nat) (rest : List Char) :
    counted? ((toString n).toList ++ ',' :: ((toString m).toList ++ ' ' :: rest)) =
      (countedSpan? n m).map (·, ' ' :: rest) := by
  have hsome : ¬((toString n).toList = [] ∨ (toString m).toList = []) :=
    not_or.mpr ⟨Text.toString_ne_nil n, Text.toString_ne_nil m⟩
  rw [counted?, Parser.digits_toString_cons n (by decide)]
  dsimp only
  rw [if_pos List.head?_cons, List.tail_cons, Parser.digits_toString_cons m (by decide)]
  dsimp only
  rw [if_neg hsome, Text.valueOf_toString, Text.valueOf_toString]

private theorem countedSpan?_length {s : Span} (hs : s.start ≤ s.stop) (h : s.length ≠ 0) :
    countedSpan? (s.start + 1) s.length = some s := by
  obtain ⟨count, hcount⟩ := Nat.exists_eq_succ_of_ne_zero h
  have hstop : s.start + (count + 1) = s.stop := by
    rw [← Nat.succ_eq_add_one, ← hcount, Span.length]
    omega
  rw [hcount, countedSpan?, hstop]

theorem counted?_countedText {s : Span} (hs : s.start ≤ s.stop) (rest : List Char) :
    counted? ((Row.countedText s).toList ++ ' ' :: rest) = some (s, ' ' :: rest) := by
  have hcomma : (toString ",").toList = [','] := rfl
  unfold Row.countedText
  split
  · rename_i hcount
    have hzero : (toString ",0").toList = ',' :: (toString 0).toList := rfl
    have hstop : s.start = s.stop := by
      rw [Span.length] at hcount
      omega
    rw [String.toList_append, hzero, List.append_assoc, List.cons_append, counted?_two,
      countedSpan?, Option.map_some]
    exact congrArg (fun stop => some ((⟨s.start, stop⟩ : Span), ' ' :: rest)) hstop
  · rename_i hcount
    have hspan := countedSpan?_length hs hcount
    split
    · rename_i hone
      rw [hone] at hspan
      have hread := counted?_one (s.start + 1) rest
      rwa [hspan, Option.map_some] at hread
    · rw [String.toList_append, String.toList_append, hcomma, List.append_assoc, List.append_assoc,
        List.singleton_append, counted?_two, hspan, Option.map_some]

theorem behind?_append (text : String) (rest : List Char) :
    behind? text (text.toList ++ rest) = some rest := by
  rw [behind?, if_pos (List.isPrefixOf_iff_prefix.mpr (List.prefix_append _ _)), List.drop_left]

theorem toList_groupHead (w : Window) :
    (groupHead w).toList = "@@ -".toList ++ ((Row.countedText w.old).toList ++
      (" +".toList ++ ((Row.countedText w.new).toList ++ " @@".toList))) := by
  unfold groupHead
  simp only [String.toList_append, List.append_assoc]
  rfl

theorem head?_groupHead {w : Window} (hold : w.old.start ≤ w.old.stop)
    (hnew : w.new.start ≤ w.new.stop) :
    head? (Row.ofString (groupHead w)) = some (w.old, w.new) := by
  have hmiddle : ∀ rest, " +".toList ++ rest = ' ' :: ('+' :: rest) := fun _ => rfl
  have hend : " @@".toList = ' ' :: "@@".toList := rfl
  rw [head?, Row.ofString, Text.decode?_ofString, Option.bind_eq_bind, Option.bind_some,
    toList_groupHead, behind?_append, Option.bind_eq_bind, Option.bind_some, hmiddle,
    counted?_countedText hold, Option.bind_eq_bind, Option.bind_some, ← hmiddle]
  dsimp only
  rw [behind?_append, Option.bind_some, hend, counted?_countedText hnew, Option.bind_some]
  exact if_pos rfl

theorem markedLine?_groupHead (w : Window) : markedLine? (Row.ofString (groupHead w)) = none := by
  have hat : ∃ rest, (groupHead w).toList = '@' :: rest := ⟨_, toList_groupHead w⟩
  obtain ⟨rest, hrest⟩ := hat
  rw [Row.ofString, Bytes.ofString, hrest, List.flatMap_cons,
    Bytes.utf8EncodeChar_of_le (by decide), List.singleton_append]
  rfl

/-! ## Lines -/

def rowOf (line : Mark × Bytes) : Bytes :=
  line.1.byte :: line.2

theorem markedLine?_rowOf (line : Mark × Bytes) : markedLine? (rowOf line) = some line := by
  obtain ⟨mark, line⟩ := line
  cases mark <;> rfl

theorem linesAndSections?_map_rowOf (lines : List (Mark × Bytes)) (rows : List Bytes) :
    linesAndSections? (lines.map rowOf ++ rows) =
      (linesAndSections? rows).map fun read => (lines ++ read.1, read.2) := by
  induction lines with
  | nil => simp
  | cons line lines ih =>
    rw [List.map_cons, List.cons_append, linesAndSections?, ih]
    cases linesAndSections? rows with
    | none => rfl
    | some read =>
      rw [Option.map_some, Option.bind_eq_bind, Option.bind_some, markedLine?_rowOf]
      rfl

def body (d : Comparison Bytes) (stop : Nat) : Nat → List Change → List (Mark × Bytes)
  | position, [] => (Span.slice ⟨position, stop⟩ d.old).map (Mark.kept, ·)
  | position, c :: rest =>
    (Span.slice ⟨position, c.old.start⟩ d.old).map (Mark.kept, ·) ++
      (c.old.slice d.old).map (Mark.gone, ·) ++ (c.new.slice d.new).map (Mark.added, ·) ++
      body d stop c.old.stop rest

theorem bodyRows_eq (d : Comparison Bytes) (stop position : Nat) (changes : List Change) :
    bodyRows d stop position changes = (body d stop position changes).map rowOf := by
  induction changes generalizing position with
  | nil =>
    rw [bodyRows, body, Row.marked, List.map_map]
    rfl
  | cons c rest ih =>
    rw [bodyRows, body, ih, List.map_append, List.map_append, List.map_append, List.map_map,
      List.map_map, List.map_map]
    rfl

def sectionOf (d : Comparison Bytes) (context : Nat) (group : List Change) : Section :=
  let w := Window.ofGroup context d.old.length group
  ⟨w.old, w.new, body d w.old.stop w.old.start group⟩

theorem groupRows_eq (d : Comparison Bytes) (context : Nat) (group : List Change) :
    groupRows d context group =
      Row.ofString (groupHead (Window.ofGroup context d.old.length group)) ::
        (sectionOf d context group).lines.map rowOf := by
  rw [groupRows, bodyRows_eq]
  rfl

/-- The groups of a listing are read back. -/
theorem sections?_groupRows (d : Comparison Bytes) (context : Nat) {groups : List (List Change)}
    (h : ∀ group ∈ groups, FillsWindow d.old d.new context group) :
    sections? (groups.flatMap (groupRows d context)) = some (groups.map (sectionOf d context)) := by
  have hread : linesAndSections? (groups.flatMap (groupRows d context)) =
      some ([], groups.map (sectionOf d context)) := by
    induction groups with
    | nil => rfl
    | cons group rest ih =>
      have hgroup := h group List.mem_cons_self
      rw [List.flatMap_cons, groupRows_eq, List.cons_append, linesAndSections?,
        linesAndSections?_map_rowOf, ih fun g hg => h g (List.mem_cons_of_mem _ hg),
        Option.map_some, Option.bind_eq_bind, Option.bind_some, markedLine?_groupHead]
      dsimp only
      rw [head?_groupHead hgroup.old_le hgroup.new_le, List.append_nil]
      rfl
  rw [sections?, hread]

end Unified

end Redline

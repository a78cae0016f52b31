import Redline.Diff.Normal
import Redline.Proofs.Numerals
import Redline.Proofs.TextBytes
/-!
# Reading a plain listing

A reader takes a listing apart block by block: a head, and below it as many old and new lines
as the ranges of the head say.  It gives back whatever blocks were printed, so that no line
of a file can be taken for a head or a divider.
-/

namespace Redline

namespace Normal

structure Block where
  change : Change
  gone : List Bytes
  added : List Bytes
  deriving DecidableEq, Repr

def divider : Bytes :=
  Row.ofString "---"

/-- What stands between the old and the new lines of a change, if it has both. -/
def dividers (c : Change) : List Bytes :=
  if c.old.isEmpty || c.new.isEmpty then [] else [divider]

namespace Block

structure IsCounted (b : Block) : Prop where
  old_le : b.change.old.start ≤ b.change.old.stop
  new_le : b.change.new.start ≤ b.change.new.stop
  nonempty : b.change.old.isEmpty = false ∨ b.change.new.isEmpty = false
  gone_length : b.gone.length = b.change.old.length
  added_length : b.added.length = b.change.new.length

def rows (b : Block) : List Bytes :=
  Row.ofString (head b.change) :: (b.gone.map (Bytes.ofString "< " ++ ·) ++
    (dividers b.change ++ b.added.map (Bytes.ofString "> " ++ ·)))

end Block

/-! ## The reader -/

def numbers? (cs : List Char) : Option ((Nat × Option Nat) × List Char) :=
  let (first, rest) := Parser.digits cs
  let (last, more) := Parser.digits rest.tail
  if first = [] then none
  else if rest.head? ≠ some ',' then some ((Text.valueOf first, none), rest)
  else if last = [] then none
  else some ((Text.valueOf first, some (Text.valueOf last)), more)

def range? (numbers : Nat × Option Nat) : Option Span :=
  let s : Span := ⟨numbers.1 - 1, numbers.2.getD numbers.1⟩
  if 0 < numbers.1 ∧ s.start < s.stop then some s else none

def place? (numbers : Nat × Option Nat) : Option Span :=
  if numbers.2 = none then some ⟨numbers.1, numbers.1⟩ else none

def sides? (letter : Char) (old new : Nat × Option Nat) : Option Change :=
  if letter = 'a' then do return ⟨← place? old, ← range? new⟩
  else if letter = 'd' then do return ⟨← range? old, ← place? new⟩
  else if letter = 'c' then do return ⟨← range? old, ← range? new⟩
  else none

def head? (row : Bytes) : Option Change := do
  let text ← Text.decode? row
  let (old, rest) ← numbers? text.toList
  let letter ← rest.head?
  let (new, rest) ← numbers? rest.tail
  if rest = [] then sides? letter old new else none

def lines? (mark : String) : Nat → List Bytes → Option (List Bytes × List Bytes)
  | 0, rows => some ([], rows)
  | _ + 1, [] => none
  | count + 1, row :: rows => do
    let (lines, rest) ← lines? mark count rows
    if (Bytes.ofString mark).isPrefixOf row then
      return (row.drop (Bytes.ofString mark).length :: lines, rest)
    else none

def behind? (front rows : List Bytes) : Option (List Bytes) :=
  if front.isPrefixOf rows then some (rows.drop front.length) else none

def block? (row : Bytes) (rows : List Bytes) : Option (Block × List Bytes) := do
  let c ← head? row
  let (gone, rows) ← lines? "< " c.old.length rows
  let rows ← behind? (dividers c) rows
  let (added, rows) ← lines? "> " c.new.length rows
  return (⟨c, gone, added⟩, rows)

theorem length_le_of_lines? {mark : String} {count : Nat} {rows lines rest : List Bytes}
    (h : lines? mark count rows = some (lines, rest)) : rest.length ≤ rows.length := by
  induction count generalizing rows lines with
  | zero =>
    cases h
    exact Nat.le_refl _
  | succ count ih =>
    cases rows with
    | nil => cases h
    | cons row rows =>
      obtain ⟨⟨lines', rest'⟩, hlines, h⟩ := Option.bind_eq_some_iff.mp h
      dsimp only at h
      split at h
      · cases h
        exact Nat.le_succ_of_le (ih hlines)
      · cases h

theorem length_le_of_block? {row : Bytes} {rows rest : List Bytes} {b : Block}
    (h : block? row rows = some (b, rest)) : rest.length ≤ rows.length := by
  obtain ⟨c, -, h⟩ := Option.bind_eq_some_iff.mp h
  obtain ⟨⟨gone, behindGone⟩, hgone, h⟩ := Option.bind_eq_some_iff.mp h
  obtain ⟨behindDivider, hdivider, h⟩ := Option.bind_eq_some_iff.mp h
  obtain ⟨⟨added, behindAdded⟩, hadded, h⟩ := Option.bind_eq_some_iff.mp h
  cases h
  have hgone := length_le_of_lines? hgone
  have hadded := length_le_of_lines? hadded
  have hdivider : behindDivider.length ≤ behindGone.length := by
    unfold behind? at hdivider
    split at hdivider
    · cases hdivider
      rw [List.length_drop]
      exact Nat.sub_le _ _
    · cases hdivider
  omega

def blocks? : List Bytes → Option (List Block)
  | [] => some []
  | row :: rows =>
    match _ : block? row rows with
    | none => none
    | some (b, rest) => (blocks? rest).map (b :: ·)
  termination_by rows => rows.length
  decreasing_by exact Nat.lt_succ_of_le (length_le_of_block? ‹_›)

/-! ## Heads -/

def EndsNumbers (rest : List Char) : Prop :=
  ∀ c ∈ rest.head?, c.isDigit = false ∧ c ≠ ','

/-- The text is read as the numbers, whatever ends them. -/
def Writes (text : String) (numbers : Nat × Option Nat) : Prop :=
  ∀ rest, EndsNumbers rest → numbers? (text.toList ++ rest) = some (numbers, rest)

theorem writes_toString (n : Nat) : Writes (toString n) (n, none) := by
  intro rest hrest
  have hcomma : rest.head? ≠ some ',' := fun hhead => (hrest ',' hhead).2 rfl
  rw [numbers?, Parser.digits_toString n fun c hc => (hrest c hc).1]
  dsimp only
  rw [if_neg (Text.toString_ne_nil n), if_pos hcomma, Text.valueOf_toString]

theorem writes_pair (n m : Nat) : Writes s!"{n},{m}" (n, some m) := by
  intro rest hrest
  have htext : (s!"{n},{m}").toList ++ rest =
      (toString n).toList ++ ',' :: ((toString m).toList ++ rest) := by
    have hcomma : (toString ",").toList = [','] := rfl
    rw [String.toList_append, String.toList_append, hcomma, List.append_assoc, List.append_assoc,
      List.singleton_append]
  rw [htext, numbers?, Parser.digits_toString_cons n (by decide)]
  dsimp only
  rw [List.tail_cons, Parser.digits_toString m fun c hc => (hrest c hc).1]
  dsimp only
  rw [if_neg (Text.toString_ne_nil n), if_neg (by simp), if_neg (Text.toString_ne_nil m),
    Text.valueOf_toString, Text.valueOf_toString]

theorem exists_writes_rangeText {s : Span} (hs : s.start < s.stop) :
    ∃ numbers, Writes (Row.rangeText s) numbers ∧ range? numbers = some s := by
  unfold Row.rangeText
  split
  · rename_i hle
    have hstop : s.stop = s.start + 1 := by
      rw [Span.length] at hle
      omega
    refine ⟨_, writes_toString (s.start + 1), ?_⟩
    change (if 0 < s.start + 1 ∧ s.start < s.start + 1 then some (Span.mk s.start (s.start + 1))
      else none) = some s
    rw [if_pos ⟨Nat.succ_pos _, Nat.lt_succ_self _⟩, ← hstop]
  · exact ⟨_, writes_pair (s.start + 1) s.stop, if_pos ⟨Nat.succ_pos _, hs⟩⟩

theorem place?_start {s : Span} (hs : s.start ≤ s.stop) (hempty : s.isEmpty = true) :
    place? (s.start, none) = some s := by
  have hstop : s.start = s.stop := by
    rw [Span.isEmpty_iff, Span.length] at hempty
    omega
  change some (Span.mk s.start s.start) = some s
  exact congrArg (fun stop => some (Span.mk s.start stop)) hstop

theorem head?_of_writes {left right text : String} {old new : Nat × Option Nat}
    (hold : Writes left old) (letter : Char) (hletter : letter.isDigit = false ∧ letter ≠ ',')
    (hnew : Writes right new) (htext : text.toList = left.toList ++ letter :: right.toList) :
    head? (Row.ofString text) = sides? letter old new := by
  have hleft := hold (letter :: right.toList) fun c hc => by cases hc; exact hletter
  have hright := hnew [] nofun
  rw [List.append_nil] at hright
  rw [head?, Row.ofString, Text.decode?_ofString, Option.bind_eq_bind, Option.bind_some, htext,
    hleft, Option.bind_eq_bind, Option.bind_some]
  dsimp only
  rw [List.head?_cons, Option.bind_eq_bind, Option.bind_some, List.tail_cons, hright,
    Option.bind_some]
  exact if_pos rfl

theorem head?_head {c : Change} (hold : c.old.start ≤ c.old.stop)
    (hnew : c.new.start ≤ c.new.stop)
    (hnonempty : c.old.isEmpty = false ∨ c.new.isEmpty = false) :
    head? (Row.ofString (head c)) = some c := by
  have hlt : ∀ {s : Span}, s.isEmpty = false → s.start < s.stop := fun h =>
    Nat.lt_of_not_le (of_decide_eq_false h)
  have htext : ∀ {left right middle : String} {letter : Char}, middle.toList = [letter] →
      (left ++ middle ++ right).toList = left.toList ++ letter :: right.toList := by
    intro left right middle letter hmiddle
    rw [String.toList_append, String.toList_append, hmiddle, List.append_assoc,
      List.singleton_append]
  unfold head
  split
  · rename_i hempty
    have hsome := hlt (hnonempty.resolve_left (by rw [hempty]; decide))
    obtain ⟨numbers, hwrites, hrange⟩ := exists_writes_rangeText hsome
    refine (head?_of_writes (writes_toString c.old.start) 'a' (by decide) hwrites
      (htext rfl)).trans ?_
    rw [sides?, if_pos rfl, place?_start hold hempty, hrange]
    rfl
  · rename_i hempty
    obtain ⟨numbers, hwrites, hrange⟩ := exists_writes_rangeText (hlt (eq_false_of_ne_true hempty))
    split
    · rename_i hempty'
      refine (head?_of_writes hwrites 'd' (by decide) (writes_toString c.new.start)
        (htext rfl)).trans ?_
      rw [sides?, if_neg (by decide), if_pos rfl, hrange, place?_start hnew hempty']
      rfl
    · rename_i hempty'
      obtain ⟨numbers', hwrites', hrange'⟩ :=
        exists_writes_rangeText (hlt (eq_false_of_ne_true hempty'))
      refine (head?_of_writes hwrites 'c' (by decide) hwrites' (htext rfl)).trans ?_
      rw [sides?, if_neg (by decide), if_neg (by decide), if_pos rfl, hrange, hrange']
      rfl

/-! ## Blocks -/

theorem lines?_append (mark : String) (lines rest : List Bytes) :
    lines? mark lines.length (lines.map (Bytes.ofString mark ++ ·) ++ rest) =
      some (lines, rest) := by
  induction lines with
  | nil => rfl
  | cons line lines ih =>
    rw [List.map_cons, List.cons_append, List.length_cons, lines?, ih, Option.bind_eq_bind,
      Option.bind_some]
    dsimp only
    rw [if_pos (List.isPrefixOf_iff_prefix.mpr (List.prefix_append _ _)), List.drop_left]
    rfl

theorem behind?_append (front rest : List Bytes) : behind? front (front ++ rest) = some rest := by
  rw [behind?, if_pos (List.isPrefixOf_iff_prefix.mpr (List.prefix_append _ _)), List.drop_left]

/-- A block is read as it was printed, whatever rows stand behind it. -/
theorem block?_append {b : Block} (h : b.IsCounted) (rest : List Bytes) :
    block? (Row.ofString (head b.change)) (b.gone.map (Bytes.ofString "< " ++ ·) ++
      (dividers b.change ++ (b.added.map (Bytes.ofString "> " ++ ·) ++ rest))) =
      some (b, rest) := by
  rw [block?, head?_head h.old_le h.new_le h.nonempty, Option.bind_eq_bind, Option.bind_some,
    ← h.gone_length, lines?_append, Option.bind_eq_bind, Option.bind_some]
  dsimp only
  rw [behind?_append, Option.bind_eq_bind, Option.bind_some, ← h.added_length, lines?_append]
  rfl

/-- The blocks of a listing are read back. -/
theorem blocks?_flatMap {blocks : List Block} (h : ∀ b ∈ blocks, b.IsCounted) :
    blocks? (blocks.flatMap Block.rows) = some blocks := by
  induction blocks with
  | nil => rw [List.flatMap_nil, blocks?]
  | cons b rest ih =>
    have hread := block?_append (h b List.mem_cons_self) (rest.flatMap Block.rows)
    simp only [List.flatMap_cons, Block.rows, List.cons_append, List.append_assoc]
    rw [blocks?]
    split
    · rename_i hnone
      rw [hread] at hnone
      cases hnone
    · rename_i hsome
      rw [hread] at hsome
      cases hsome
      rw [ih fun b' hb' => h b' (List.mem_cons_of_mem _ hb')]
      rfl

end Normal

end Redline

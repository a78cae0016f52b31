import Redline.Diff.EdScript
import Redline.Proofs.BlockDiff
import Redline.Proofs.CommandLines
import Redline.Proofs.Framing
import Redline.Proofs.TextBytes
/-!
# Reading an editor script

The lines of a script of changes are read as one command for each change, the
last change first.
-/

namespace Redline

namespace EdScript

/-- A line that a text block can hold: text, no carriage return at its end, and
not the dot that closes the block. -/
structure Carriable (line : Bytes) : Prop where
  isText : ∃ s, Bytes.ofString s = line
  getLast?_ne : line.getLast? ≠ some 13
  ne_dot : line ≠ Bytes.ofString "."

def block (d : Comparison Bytes) (c : Change) : List String :=
  (c.new.slice d.new).filterMap Text.decode?

def command (d : Comparison Bytes) (c : Change) : Command :=
  if c.new.isEmpty then ⟨.delete, some (.line (c.old.start + 1)), some (.line c.old.stop)⟩
  else if c.old.isEmpty then
    ⟨.append (Script.blockText (block d c)), some (.line c.old.start), some (.line c.old.start)⟩
  else
    ⟨.change (Script.blockText (block d c)), some (.line (c.old.start + 1)),
      some (.line c.old.stop)⟩

structure Readable (d : Comparison Bytes) (c : Change) : Prop where
  start_le : c.old.start ≤ c.old.stop
  stop_le : c.old.stop ≤ maxOffset
  some_change : c.new.isEmpty = true → c.old.start < c.old.stop
  carriable : ∀ line ∈ c.new.slice d.new, Carriable line ∧ newline ∉ line

/-- A change that a script can hold but for what its lines do to the block. -/
structure Legible (d : Comparison Bytes) (c : Change) : Prop where
  start_le : c.old.start ≤ c.old.stop
  stop_le : c.old.stop ≤ maxOffset
  some_change : c.new.isEmpty = true → c.old.start < c.old.stop
  isText : ∀ line ∈ c.new.slice d.new, (∃ s, Bytes.ofString s = line) ∧ newline ∉ line

theorem Readable.legible {d : Comparison Bytes} {c : Change} (h : Readable d c) : Legible d c where
  start_le := h.start_le
  stop_le := h.stop_le
  some_change := h.some_change
  isText line hline := ⟨(h.carriable line hline).1.isText, (h.carriable line hline).2⟩

/-! ## Text blocks -/

theorem exists_texts {lines : List Bytes} (h : ∀ line ∈ lines, ∃ s, Bytes.ofString s = line) :
    lines.map Text.decode? = (lines.filterMap Text.decode?).map some ∧
      (lines.filterMap Text.decode?).map Bytes.ofString = lines := by
  induction lines with
  | nil => exact ⟨rfl, rfl⟩
  | cons line lines ih =>
    obtain ⟨s, rfl⟩ := h line List.mem_cons_self
    obtain ⟨hmap, hbytes⟩ := ih fun line hline => h line (List.mem_cons_of_mem _ hline)
    have hdecode := Text.decode?_ofString s
    rw [List.filterMap_cons_some hdecode, List.map_cons, List.map_cons, List.map_cons, hmap,
      hbytes, hdecode]
    exact ⟨rfl, rfl⟩

theorem carriable_ofString_iff (s : String) :
    Carriable (Bytes.ofString s) ↔ Script.blockLine s = s ∧ s ≠ "." := by
  rw [Script.blockLine_eq_self_iff]
  constructor
  · rintro ⟨-, hlast, hdot⟩
    exact ⟨fun hs => hlast ((Bytes.getLast?_ofString_eq_return_iff s).mpr hs),
      fun hs => hdot (congrArg _ hs)⟩
  · rintro ⟨hlast, hdot⟩
    exact ⟨⟨s, rfl⟩, fun hs => hlast ((Bytes.getLast?_ofString_eq_return_iff s).mp hs),
      fun hs => hdot (Bytes.ofString_inj hs)⟩

private theorem ofString_foldl (texts : List String) (front : String) :
    Bytes.ofString ((texts.map (· ++ "\n")).foldl (· ++ ·) front) =
      Bytes.ofString front ++ ofLines (texts.map Bytes.ofString) := by
  induction texts generalizing front with
  | nil => exact (List.append_nil _).symm
  | cons s texts ih =>
    have hnewline : Bytes.ofString "\n" = [newline] := rfl
    calc Bytes.ofString (((s :: texts).map (· ++ "\n")).foldl (· ++ ·) front)
        = Bytes.ofString (front ++ (s ++ "\n")) ++ ofLines (texts.map Bytes.ofString) :=
          ih (front ++ (s ++ "\n"))
      _ = Bytes.ofString front ++ (Bytes.ofString s ++ [newline]) ++
            ofLines (texts.map Bytes.ofString) := by
          rw [Bytes.ofString_append, Bytes.ofString_append, hnewline]
      _ = Bytes.ofString front ++ ofLines ((s :: texts).map Bytes.ofString) := by
          rw [List.map_cons, ofLines_cons, List.append_assoc, List.append_assoc]
          rfl

theorem ofString_blockText (texts : List String) :
    Bytes.ofString (Script.blockText texts) = ofLines (texts.map Bytes.ofString) :=
  ofString_foldl texts ""

variable {d : Comparison Bytes} {c : Change} {changes : List Change}

theorem slice_eq_block (h : Legible d c) : (block d c).map Bytes.ofString = c.new.slice d.new :=
  (exists_texts fun line hline => (h.isText line hline).1).2

theorem ofString_blockText_block (h : Legible d c) :
    Bytes.ofString (Script.blockText (block d c)) = ofLines (c.new.slice d.new) := by
  rw [ofString_blockText, slice_eq_block h]

theorem forall_block_iff (h : Legible d c) :
    (∀ s ∈ block d c, Script.blockLine s = s ∧ s ≠ ".") ↔
      ∀ line ∈ c.new.slice d.new, Carriable line := by
  rw [← slice_eq_block h, List.forall_mem_map]
  exact forall_congr' fun s => imp_congr_right fun _ => (carriable_ofString_iff s).symm

/-! ## Rows -/

private def IsPrintable (c : Char) : Prop :=
  32 ≤ c.toNat ∧ c.toNat ≤ 127

private theorem isPrintable_of_isDigit {c : Char} (h : c.isDigit = true) : IsPrintable c := by
  rw [Char.isDigit, Bool.and_eq_true, decide_eq_true_eq, decide_eq_true_eq] at h
  have hlow : 48 ≤ c.toNat := h.1
  have hhigh : c.toNat ≤ 57 := h.2
  exact ⟨by omega, by omega⟩

private theorem isPlainLine_ofString {s : String} {front : List Char} (letter : Char)
    (hs : s.toList = front ++ [letter]) (hfront : ∀ c ∈ front, IsPrintable c)
    (hletter : IsPrintable letter) : Session.IsPlainLine (Bytes.ofString s) := by
  have hall : ∀ c ∈ s.toList, IsPrintable c := by
    intro c hc
    rw [hs, List.mem_append, List.mem_singleton] at hc
    rcases hc with hc | rfl
    · exact hfront c hc
    · exact hletter
  constructor
  · intro hmem
    obtain ⟨c, hc, hbyte⟩ := Bytes.mem_ofString_of_ascii (fun c hc => (hall c hc).2) hmem
    have hlow := (hall c hc).1
    rw [← hbyte] at hlow
    exact absurd hlow (by decide)
  · rw [Bytes.getLast?_ofString hletter.2 hs]
    intro hlast
    have hlow := hletter.1
    have hbyte := congrArg UInt8.toNat (Option.some.inj hlast)
    rw [UInt8.toNat_ofNat_of_lt' (Nat.lt_of_le_of_lt hletter.2 (by decide))] at hbyte
    rw [hbyte] at hlow
    exact absurd hlow (by decide)

private theorem isPrintable_of_mem_rangeText {s : Span} {c : Char}
    (h : c ∈ (Row.rangeText s).toList) : IsPrintable c := by
  have hnumber : ∀ n : Nat, c ∈ (toString n).toList → IsPrintable c := fun n hc =>
    isPrintable_of_isDigit (Text.isDigit_of_mem_toString hc)
  unfold Row.rangeText at h
  split at h
  · exact hnumber _ h
  · rw [String.toList_append, String.toList_append, List.mem_append, List.mem_append] at h
    rcases h with (hc | hc) | hc
    · exact hnumber _ hc
    · have hcomma : (toString ",").toList = [','] := rfl
      rw [hcomma, List.mem_singleton] at hc
      rw [hc]
      exact ⟨by decide, by decide⟩
    · exact hnumber _ hc

theorem items_cons_bare {line : String} {c : Command} (hparse : Command.parse line = .ok c)
    (hverb : c.verb.takesText = false) (rest : List (Option String)) :
    Script.items (some line :: rest) = .ok c :: Script.items rest := by
  have hnext : Script.next line rest = (.ok c, rest) := by
    rw [Script.next, hparse]
    dsimp only
    rw [hverb]
    rfl
  rw [Script.items, hnext]

private theorem items_cons_text {line : String} {c : Command} (hparse : Command.parse line = .ok c)
    (hverb : c.verb.takesText = true) (rest : List (Option String)) :
    Script.items (some line :: rest) =
      .ok (c.withText (Script.blockText (Script.takeBlock rest).1)) ::
        Script.items (Script.takeBlock rest).2 := by
  have hnext : Script.next line rest =
      (.ok (c.withText (Script.blockText (Script.takeBlock rest).1)),
        (Script.takeBlock rest).2) := by
    rw [Script.next, hparse]
    dsimp only
    rw [hverb, if_pos rfl]
  rw [Script.items, hnext]

theorem marked_nothing (lines : List Bytes) (s : Span) :
    Row.marked "" lines s = s.slice lines :=
  List.map_id _

theorem items_changeRows_of_isEmpty (h : Legible d c) (hnew : c.new.isEmpty = true)
    (rest : List (Option String)) :
    Script.items ((changeRows d c).map Text.decode? ++ rest) =
      .ok (command d c) :: Script.items rest := by
  rw [changeRows, command, if_pos hnew, if_pos hnew, List.map_singleton, Row.ofString,
    Text.decode?_ofString, List.singleton_append]
  refine items_cons_bare ?_ rfl rest
  exact Command.parse_rangeText (h.some_change hnew) h.stop_le Parser.isBare_delete
    String.toList_append

theorem items_changeRows_of_not_isEmpty (h : Legible d c) (hnew : ¬c.new.isEmpty = true)
    (rest : List (Option String)) :
    Script.items ((changeRows d c).map Text.decode? ++ rest) =
      .ok ((command d c).withText
        (Script.blockText (Script.takeBlock ((block d c).map some ++ some "." :: rest)).1)) ::
        Script.items (Script.takeBlock ((block d c).map some ++ some "." :: rest)).2 := by
  obtain ⟨hdecode, -⟩ := exists_texts fun line hline => (h.isText line hline).1
  have hdot : Text.decode? (Row.ofString ".") = some "." := Text.decode?_ofString "."
  have hrows : ∀ head : String,
      ([Row.ofString head] ++ Row.marked "" d.new c.new ++ [Row.ofString "."]).map Text.decode? ++
        rest = some head :: ((block d c).map some ++ some "." :: rest) := by
    intro head
    rw [marked_nothing, List.map_append, List.map_append, List.map_singleton, hdecode,
      List.map_singleton, hdot, Row.ofString, Text.decode?_ofString, List.append_assoc,
      List.append_assoc]
    rfl
  rw [changeRows, command, if_neg hnew, if_neg hnew]
  dsimp only
  rw [hrows]
  split
  · rename_i hold
    have hstart := Nat.le_trans h.start_le h.stop_le
    have hparse : Command.parse (toString c.old.start ++ "a") = _ :=
      Command.parse_one hstart Parser.isBare_append String.toList_append
    exact items_cons_text hparse rfl _
  · rename_i hold
    have hlt : c.old.start < c.old.stop := by
      rw [Span.isEmpty, decide_eq_true_eq] at hold
      exact Nat.lt_of_not_le hold
    have hparse : Command.parse (Row.rangeText c.old ++ "c") = _ :=
      Command.parse_rangeText hlt h.stop_le Parser.isBare_change String.toList_append
    exact items_cons_text hparse rfl _

theorem withText_command (d : Comparison Bytes) {c : Change} (hnew : ¬c.new.isEmpty = true)
    (text : String) :
    (command d c).withText text = command d c ↔ text = Script.blockText (block d c) := by
  unfold command
  rw [if_neg hnew]
  split <;> simp [Command.withText, Verb.withText]

/-- What is read of a change if none of its lines closes the block. -/
def readBack (d : Comparison Bytes) (c : Change) : Command :=
  (command d c).withText (Script.blockText ((block d c).map Script.blockLine))

theorem readBack_eq_command (hself : ∀ s ∈ block d c, Script.blockLine s = s) :
    readBack d c = command d c := by
  have hblock : (block d c).map Script.blockLine = block d c := by
    rw [List.map_congr_left hself, List.map_id']
  rw [readBack, hblock]
  by_cases hnew : c.new.isEmpty = true
  · rw [command, if_pos hnew]
    exact Command.withText_of_not_takesText rfl _
  · exact (withText_command d hnew _).mpr rfl

theorem items_changeRows_of_ne_dot (h : Legible d c)
    (hopen : ∀ s ∈ block d c, Script.blockLine s ≠ ".") (rest : List (Option String)) :
    Script.items ((changeRows d c).map Text.decode? ++ rest) =
      .ok (readBack d c) :: Script.items rest := by
  by_cases hnew : c.new.isEmpty = true
  · rw [items_changeRows_of_isEmpty h hnew, readBack]
    have htext : (command d c).verb.takesText = false := by
      rw [command, if_pos hnew]
      rfl
    rw [Command.withText_of_not_takesText htext]
  · have htake := Script.takeBlock_append hopen (show Script.blockLine "." = "." by decide) rest
    rw [items_changeRows_of_not_isEmpty h hnew, htake]
    rfl

theorem items_flatMap_of_ne_dot (h : ∀ c ∈ changes, Legible d c)
    (hopen : ∀ c ∈ changes, ∀ s ∈ block d c, Script.blockLine s ≠ ".") :
    Script.items ((changes.flatMap (changeRows d)).map Text.decode?) =
      changes.map fun c => .ok (readBack d c) := by
  induction changes with
  | nil => rw [List.flatMap_nil, List.map_nil, Script.items, List.map_nil]
  | cons c rest ih =>
    rw [List.flatMap_cons, List.map_append,
      items_changeRows_of_ne_dot (h c List.mem_cons_self) (hopen c List.mem_cons_self),
      ih (fun c hc => h c (List.mem_cons_of_mem _ hc))
        fun c hc => hopen c (List.mem_cons_of_mem _ hc), List.map_cons]

/-- Blocks that can be carried are read as they were printed. -/
theorem items_flatMap (h : ∀ c ∈ changes, Legible d c)
    (hblock : ∀ c ∈ changes, ∀ s ∈ block d c, Script.blockLine s = s ∧ s ≠ ".") :
    Script.items ((changes.flatMap (changeRows d)).map Text.decode?) =
      changes.map fun c => .ok (command d c) := by
  have hopen : ∀ c ∈ changes, ∀ s ∈ block d c, Script.blockLine s ≠ "." := fun c hc s hs =>
    (hblock c hc s hs).1.symm ▸ (hblock c hc s hs).2
  rw [items_flatMap_of_ne_dot h hopen]
  exact List.map_congr_left fun c hc =>
    congrArg _ (readBack_eq_command fun s hs => (hblock c hc s hs).1)

theorem isPlainLine_or_mem_slice {row : Bytes} (hrow : row ∈ changeRows d c) :
    Session.IsPlainLine row ∨ row ∈ c.new.slice d.new := by
  have hnumber : ∀ {n : Nat} (c : Char), c ∈ (toString n).toList → IsPrintable c := fun c hc =>
    isPrintable_of_isDigit (Text.isDigit_of_mem_toString hc)
  unfold changeRows at hrow
  split at hrow
  · rw [List.mem_singleton.mp hrow]
    exact .inl (isPlainLine_ofString 'd' String.toList_append
      (fun c => isPrintable_of_mem_rangeText) ⟨by decide, by decide⟩)
  · dsimp only at hrow
    rw [marked_nothing, List.mem_append, List.mem_append, List.mem_singleton,
      List.mem_singleton] at hrow
    rcases hrow with (rfl | hrow) | rfl
    · left
      split
      · exact isPlainLine_ofString 'a' String.toList_append
          hnumber ⟨by decide, by decide⟩
      · exact isPlainLine_ofString 'c' String.toList_append
          (fun c => isPrintable_of_mem_rangeText) ⟨by decide, by decide⟩
    · exact .inr hrow
    · exact .inl ⟨by decide, by decide⟩

theorem getLast?_changeRows (d : Comparison Bytes) (c : Change) :
    ∃ row, (changeRows d c).getLast? = some row ∧ row ≠ [] := by
  unfold changeRows
  split
  · refine ⟨_, List.getLast?_singleton, fun hnil => ?_⟩
    have hlast := Bytes.getLast?_ofString (c := 'd') (by decide)
      (String.toList_append (s := toString (Row.rangeText c.old)) (t := toString "d"))
    rw [Row.ofString] at hnil
    rw [hnil] at hlast
    cases hlast
  · refine ⟨Row.ofString ".", ?_, by decide⟩
    rw [List.getLast?_append, List.getLast?_singleton, Option.some_or]

/-- The last row of all is not an empty line, which would be lost. -/
theorem getLast?_flatMap_changeRows (d : Comparison Bytes) (changes : List Change) :
    (changes.flatMap (changeRows d)).getLast? ≠ some [] := by
  induction changes with
  | nil => exact nofun
  | cons c rest ih =>
    obtain ⟨row, hrow, hne⟩ := getLast?_changeRows d c
    rw [List.flatMap_cons, List.getLast?_append, hrow]
    cases hrest : (rest.flatMap (changeRows d)).getLast? with
    | none => simpa using hne
    | some last =>
      rw [hrest] at ih
      exact ih

/-- The script is read as the commands for the changes, from the last to the first. -/
theorem items_rows (h : ∀ c ∈ d.changes, Readable d c) :
    Script.items (Session.inputLines (Bytes.joinLines (rows d))) =
      d.changes.reverse.map fun c => .ok (command d c) := by
  have hreadable : ∀ c ∈ d.changes.reverse, Readable d c := fun c hc =>
    h c (List.mem_reverse.mp hc)
  have hplain : ∀ row ∈ rows d, Session.IsPlainLine row := by
    intro row hrow
    obtain ⟨c, hc, hrow⟩ := List.mem_flatMap.mp hrow
    refine (isPlainLine_or_mem_slice hrow).elim id fun hline => ?_
    obtain ⟨hcarriable, hnewline⟩ := (hreadable c hc).carriable row hline
    exact ⟨hnewline, hcarriable.getLast?_ne⟩
  rw [Session.inputLines_joinLines hplain (getLast?_flatMap_changeRows d _)]
  refine items_flatMap (fun c hc => (hreadable c hc).legible) fun c hc => ?_
  exact (forall_block_iff (hreadable c hc).legible).mpr fun line hline =>
    ((hreadable c hc).carriable line hline).1

end EdScript

end Redline

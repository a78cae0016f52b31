import Redline.Proofs.EdScriptRun
import Redline.Proofs.ReportLines
/-!
# The lines that a session prints

A command to print returns lines with newlines between them, and the session puts the last
newline behind them.  As it writes nothing for a result without bytes, an empty line that is
printed alone is lost; all other lines that were asked for are written.
-/

namespace Redline

/-! ## Reading lines -/

namespace Editor

variable {e : Editor} {k last : Nat}

theorem lineContent_eq (h : e.Indexed) (hfits : e.bytes.length ≤ maxOffset) {line : Bytes}
    (hline : e.lineList[k]? = some line) : e.lineContent (k + 1) = .ok line := by
  have hrange : e.lines.lineRange? (k + 1) =
      some ⟨(ofLines (e.lineList.take k)).length,
        (ofLines (e.lineList.take k)).length + line.length⟩ := by
    rw [h.lines_eq, LineIndex.lineRange?_ofBytes]
    exact congrArg (Option.map _) hline
  have hstop : (ofLines (e.lineList.take k)).length + line.length ≤ e.bytes.length := by
    obtain ⟨range, hrange', -, hle⟩ :=
      LineIndex.exists_lineRange? (List.getElem?_eq_some_iff.mp hline).1
    rw [← h.lines_eq, hrange] at hrange'
    cases hrange'
    exact hle
  have hlength : e.bytes.length = e.table.length := PieceTable.length_toBytes h.wellFormed
  have hcheck : e.table.checkRange (ofLines (e.lineList.take k)).length line.length = .ok () :=
    PieceTable.checkRange_eq_ok_iff.mpr ⟨by omega, by omega⟩
  rw [lineContent, hrange]
  dsimp only
  rw [readSpan, PieceTable.read, Span.length, Nat.add_sub_cancel_left, hcheck]
  exact congrArg Except.ok
    ((PieceTable.readAt_eq h.wellFormed _ _).trans (LineIndex.slice_lineRange hline))

private theorem mapM_lineContent (shown : Nat → Bytes → Bytes) {lines : List Bytes} {first : Nat}
    (hlines : ∀ i line, lines[i]? = some line → e.lineContent (first + i) = .ok line) :
    ((List.range' first lines.length).mapM fun n => (e.lineContent n).map (shown n)) =
      .ok ((lines.zipIdx first).map fun p => shown p.2 p.1) := by
  induction lines generalizing first with
  | nil => rfl
  | cons line lines ih =>
    have hrest := @ih (first + 1) fun i line hi => by
      have hnext := hlines (i + 1) line hi
      rwa [← Nat.add_assoc, Nat.add_right_comm] at hnext
    have hline := hlines 0 line rfl
    rw [Nat.add_zero] at hline
    rw [List.length_cons, List.range'_succ, List.mapM_cons, hline, hrest]
    rfl

theorem joinedLines_eq_ok (h : e.Indexed) (hfits : e.bytes.length ≤ maxOffset)
    (shown : Nat → Bytes → Bytes) (hlast : last ≤ e.lineList.length) :
    e.joinedLines (k + 1) last shown = .ok (Bytes.joinLines
      (((LineEdit.between (k + 1) last e.lineList).zipIdx (k + 1)).map fun p =>
        shown p.2 p.1)) := by
  have hlength := LineEdit.length_between (Nat.succ_pos k) hlast
  have hlines : ∀ i line, (LineEdit.between (k + 1) last e.lineList)[i]? = some line →
      e.lineContent (k + 1 + i) = .ok line := by
    intro i line hi
    rw [LineEdit.between, Nat.add_sub_cancel, List.getElem?_drop, List.getElem?_take] at hi
    split at hi
    · rw [Nat.add_right_comm]
      exact lineContent_eq h hfits hi
    · cases hi
  rw [joinedLines, ← hlength, mapM_lineContent shown hlines]
  rfl

end Editor

/-! ## Commands that print -/

namespace EditM

variable {w w' : Workspace} {c : Command} {k last : Nat} {shown : Bytes}

theorem run_showRange (h : w.editor.Indexed) (hfits : w.editor.bytes.length ≤ maxOffset)
    (hrange : w.editor.resolveRange c = .ok (k + 1, last))
    (hlast : last ≤ w.editor.lineList.length) (shownAs : Nat → Bytes → Bytes) :
    (showRange c shownAs).run w = .ok (Bytes.joinLines
      (((LineEdit.between (k + 1) last w.editor.lineList).zipIdx (k + 1)).map fun p =>
        shownAs p.2 p.1)) w := by
  have hjoined := Editor.joinedLines_eq_ok h hfits shownAs (k := k) hlast
  rw [showRange, run_ask, hrange]
  dsimp only [bind, Except.bind]
  rw [hjoined]

theorem resolveRange_lines (h : w.editor.Indexed) (hfits : w.editor.bytes.length ≤ maxOffset)
    {first last : Nat} (hpos : 0 < first) (hle : first ≤ last)
    (hlast : last ≤ w.editor.lineList.length) (v : Verb) :
    w.editor.resolveRange ⟨v, some (.line first), some (.line last)⟩ = .ok (first, last) := by
  have hcount := h.lineCount_eq
  have hword : w.editor.lineList.length ≤ maxOffset :=
    Nat.le_trans (length_splitLines_le w.editor.bytes) hfits
  exact Editor.resolveRange_eq_ok_iff.mpr ⟨Editor.resolve_line (by omega) (by omega),
    Editor.resolve_line (by omega) (by omega), hpos, hle⟩

theorem exists_of_execute_goTo (h : w.editor.Indexed) (hfits : w.editor.bytes.length ≤ maxOffset)
    (hverb : c.verb = .goTo) (hrun : (execute c).run w = .ok shown w') :
    ∃ k, w.editor.lineList[k]? = some shown ∧
      w' = { w with editor := { w.editor with currentLine := k + 1 } } := by
  rw [run_execute_eq_ok_iff] at hrun
  unfold perform at hrun
  rw [c.withDefaults_verb, hverb] at hrun
  obtain ⟨line, hline, hrun⟩ := exists_of_run_ask_bind hrun
  have hle : line ≤ w.editor.lineCount := Editor.resolve?_le hline
  cases line with
  | zero => cases hrun
  | succ k =>
    have hk : k < w.editor.lineList.length := h.lineCount_eq ▸ hle
    have hat : w.editor.atLine (k + 1) = { w.editor with currentLine := k + 1 } := by
      rw [Editor.atLine, Nat.min_eq_left hle]
    have hcontent : Editor.lineContent { w.editor with currentLine := k + 1 } (k + 1) =
        .ok w.editor.lineList[k] :=
      Editor.lineContent_eq h hfits (List.getElem?_eq_getElem hk)
    change (ask (·.lineContent (k + 1))).run { w with editor := w.editor.atLine (k + 1) } =
      .ok shown w' at hrun
    rw [run_ask, hat] at hrun
    dsimp only at hrun
    rw [hcontent] at hrun
    cases hrun
    exact ⟨k, List.getElem?_eq_getElem hk, rfl⟩

end EditM

/-! ## What a session writes -/

namespace Session

/-- What is written for lines: each with a newline behind it, but nothing for an empty line
alone. -/
def shownLines (lines : List Bytes) : Bytes :=
  if lines = [[]] then [] else ofLines lines

def numberedFrom (first : Nat) (lines : List Bytes) : List Bytes :=
  (lines.zipIdx first).map fun p => EditM.numberedLine p.2 p.1

def rangeCommand (first last : Nat) (letter : Char) : String :=
  s!"{first},{last}{letter}"

theorem shownResult_joinLines (lines : List Bytes) :
    shownResult (Bytes.joinLines lines) = shownLines lines := by
  unfold shownResult shownLines
  rcases lines with _ | ⟨line, _ | ⟨next, rest⟩⟩
  · rfl
  · rw [Bytes.joinLines_singleton, ofLines_cons, ofLines_nil]
    cases line <;> rfl
  · have hne : (Bytes.joinLines (line :: next :: rest)).isEmpty = false := by
      rw [Bytes.joinLines_cons_cons]
      simp
    rw [hne, joinLines_append_newline (List.cons_ne_nil _ _), if_neg (by simp), if_neg (by simp)]

/-- The output has one line for each line that is shown, but for an empty one alone. -/
theorem countNewlines_shownLines {lines : List Bytes} (h : ∀ line ∈ lines, newline ∉ line)
    (hne : lines ≠ [[]]) : (shownLines lines).countNewlines = lines.length := by
  rw [shownLines, if_neg hne, countNewlines_ofLines h]

theorem countNewlines_numberedFrom (first : Nat) {lines : List Bytes}
    (h : ∀ line ∈ lines, newline ∉ line) :
    Bytes.countNewlines (ofLines (numberedFrom first lines)) = lines.length := by
  have hnumbered : ∀ row ∈ numberedFrom first lines, newline ∉ row := by
    intro row hrow
    obtain ⟨p, hp, rfl⟩ := List.mem_map.mp hrow
    have hnumber : newline ∉ Bytes.ofString s!"{p.2}\t" := by
      refine newline_notMem_ofString ?_
      rw [String.toList_append, List.mem_append, not_or]
      exact ⟨newline_notMem_toString p.2, by decide⟩
    rw [EditM.numberedLine, List.mem_append, not_or]
    exact ⟨hnumber, h _ (List.fst_mem_of_mem_zipIdx hp)⟩
  rw [countNewlines_ofLines hnumbered, numberedFrom, List.length_map, List.length_zipIdx]

theorem shownLines_numberedFrom (first : Nat) (lines : List Bytes) :
    shownLines (numberedFrom first lines) = ofLines (numberedFrom first lines) := by
  refine if_neg fun hempty => ?_
  have hmem : [] ∈ numberedFrom first lines := hempty ▸ List.mem_singleton_self []
  obtain ⟨p, -, hnil⟩ := List.mem_map.mp hmem
  have htext := Bytes.ofString_eq_nil_iff.mp (List.append_eq_nil_iff.mp hnil).1
  exact absurd (String.append_eq_empty_iff.mp htext).2 (by decide)

/-! ## Scripts of one command -/

variable {w w' : Workspace} {c : Command} {shown : Bytes}

theorem run_of_items {script : Bytes} (hitems : Script.items (inputLines script) = [.ok c])
    (hquit : c.verb.isQuit = false) (hrun : (EditM.execute c).run w = .ok shown w') :
    run script w = (shownResult shown, w') := by
  have hstep : step (.ok c) w = (shownResult shown, w') := by
    have hresult : EditM.execute c w = .ok shown w' := hrun
    rw [step, hresult]
  rw [run, hitems, runItems, isQuit, hquit, if_neg Bool.false_ne_true, hstep]
  exact Prod.ext (List.append_nil _) rfl

theorem toList_rangeCommand (first last : Nat) (letter : Char) :
    (rangeCommand first last letter).toList =
      (toString first).toList ++ ',' :: ((toString last).toList ++ [letter]) := by
  have hcomma : (toString ",").toList = [','] := rfl
  have hletter : (toString letter).toList = [letter] := String.toList_singleton letter
  rw [rangeCommand, String.toList_append, String.toList_append, String.toList_append, hcomma,
    hletter, List.append_assoc, List.append_assoc, List.singleton_append]

theorem inputLines_line {line : String} (h : IsPlainLine (Bytes.ofString line)) :
    inputLines (Bytes.ofString (line ++ "\n")) = [some line] := by
  have hnewline : Bytes.ofString "\n" = [newline] := rfl
  rw [Bytes.ofString_append, hnewline, inputLines, rawLines_append_newline h.newline_notMem,
    List.map_cons, chompLine_append_newline h.getLast?_ne, Text.decode?_ofString]
  rfl

theorem items_rangeCommand {first last : Nat} {letter : Char} {v : Verb}
    (hfirst : first ≤ maxOffset) (hlast : last ≤ maxOffset) (hbare : Parser.IsBare letter v)
    (hverb : v.takesText = false) :
    Script.items (inputLines (.ofString (rangeCommand first last letter ++ "\n"))) =
      [.ok ⟨v, some (.line first), some (.line last)⟩] := by
  have htext := toList_rangeCommand first last letter
  have hparse := Command.parse_pair hfirst hlast hbare htext
  have hends : ∀ d, Parser.endsLine d = true → letter ≠ d := by
    rintro d hd rfl
    have hplain := (Parser.endsRange_of_ofLetter? hbare.form).2 letter rfl
    exact absurd (hplain.symm.trans hd) Bool.false_ne_true
  have hplain : IsPlainLine (Bytes.ofString (rangeCommand first last letter)) := by
    constructor
    · refine newline_notMem_ofString ?_
      simp only [htext, List.mem_append, List.mem_cons, List.not_mem_nil, or_false, not_or]
      exact ⟨newline_notMem_toString _, by decide, newline_notMem_toString _,
        (hends '\n' rfl).symm⟩
    · rw [Ne, Bytes.getLast?_ofString_eq_return_iff, htext, ← List.cons_append,
        ← List.append_assoc, List.getLast?_append, List.getLast?_singleton, Option.some_or]
      exact fun hlast => hends '\r' rfl (Option.some.inj hlast)
  rw [inputLines_line hplain, EdScript.items_cons_bare hparse hverb, Script.items]

theorem run_rangeCommand (h : w.editor.Indexed) (hfits : w.editor.bytes.length ≤ maxOffset)
    {k last : Nat} (hle : k + 1 ≤ last) (hlast : last ≤ w.editor.lineList.length) {letter : Char}
    {v : Verb} (hbare : Parser.IsBare letter v) (htext : v.takesText = false)
    (hquit : v.isQuit = false) {shownAs : Nat → Bytes → Bytes}
    (hshow : EditM.perform ⟨v, some (.line (k + 1)), some (.line last)⟩ true =
      EditM.showRange ⟨v, some (.line (k + 1)), some (.line last)⟩ shownAs) :
    run (.ofString (rangeCommand (k + 1) last letter ++ "\n")) w =
      (shownLines (((LineEdit.between (k + 1) last w.editor.lineList).zipIdx (k + 1)).map
        fun p => shownAs p.2 p.1), w) := by
  have hword : w.editor.lineList.length ≤ maxOffset :=
    Nat.le_trans (length_splitLines_le w.editor.bytes) hfits
  have hrange := EditM.resolveRange_lines h hfits (Nat.succ_pos k) hle hlast v
  have hrun := EditM.run_showRange h hfits hrange hlast shownAs
  rw [← hshow] at hrun
  rw [run_of_items (items_rangeCommand (by omega) (by omega) hbare htext) hquit
    (EditM.run_execute_eq_ok_iff.mpr hrun), shownResult_joinLines]

/-- Of a range of lines a session prints every one with a newline behind it, and if asked for
with its number in front; and it prints the line that an address alone goes to.  Only an empty
line that is printed alone leaves no trace: in all other cases the output has as many lines as
were selected. -/
theorem run_prints_lines (h : w.Reachable) (hfits : w.editor.bytes.length ≤ maxOffset) :
    (∀ first last, 0 < first → first ≤ last → last ≤ w.editor.lineList.length →
      let lines := LineEdit.between first last w.editor.lineList
      lines.length = last + 1 - first ∧
      run (.ofString (rangeCommand first last 'p' ++ "\n")) w = (shownLines lines, w) ∧
      (lines ≠ [[]] → (shownLines lines).countNewlines = lines.length) ∧
      run (.ofString (rangeCommand first last 'n' ++ "\n")) w =
        (ofLines (numberedFrom first lines), w) ∧
      Bytes.countNewlines (ofLines (numberedFrom first lines)) = lines.length) ∧
    ∀ script c shown w', Script.items (inputLines script) = [.ok c] → c.verb = .goTo →
      (EditM.execute c).run w = .ok shown w' →
      ∃ k line, w.editor.lineList[k]? = some line ∧
        w' = { w with editor := { w.editor with currentLine := k + 1 } } ∧
        run script w = (shownLines [line], w') := by
  constructor
  · intro first last hpos hle hlast lines
    obtain ⟨k, rfl⟩ := Nat.exists_eq_succ_of_ne_zero (Nat.ne_of_gt hpos)
    have hplain : ∀ line ∈ lines, newline ∉ line := fun line hline =>
      newline_notMem_of_mem_take _ last line (List.mem_of_mem_drop hline)
    refine ⟨?_, ?_, countNewlines_shownLines hplain, ?_, countNewlines_numberedFrom _ hplain⟩
    · change ((w.editor.lineList.take last).drop k).length = _
      rw [List.length_drop, List.length_take]
      omega
    · rw [run_rangeCommand h.indexed hfits hle hlast Parser.isBare_print rfl rfl rfl]
      exact congrArg (fun lines => (shownLines lines, w)) (List.zipIdx_map_fst _ _)
    · rw [run_rangeCommand h.indexed hfits hle hlast Parser.isBare_number rfl rfl rfl]
      exact congrArg (·, w) (shownLines_numberedFrom _ _)
  · intro script c shown w' hitems hverb hrun
    obtain ⟨k, hline, hw'⟩ := EditM.exists_of_execute_goTo h.indexed hfits hverb hrun
    refine ⟨k, shown, hline, hw', ?_⟩
    rw [run_of_items hitems (by rw [hverb]; rfl) hrun, ← shownResult_joinLines,
      Bytes.joinLines_singleton]

theorem run_prints_lines_empty_first :
    (run (.ofString (rangeCommand 2 3 'p' ++ "\n")) ⟨.ofText "a\n\nb", .empty "/"⟩).1 =
        .ofString "\nb\n" ∧
      (run (.ofString (rangeCommand 2 2 'n' ++ "\n")) ⟨.ofText "a\n\nb", .empty "/"⟩).1 =
        .ofString "2\t\n" ∧
      (run (.ofString "1\n") ⟨.ofText "a\n\nb", .empty "/"⟩).1 = .ofString "a\n" := by
  obtain ⟨hranges, hgoTo⟩ := run_prints_lines (.ofText "a\n\nb" (.empty "/")) (by decide)
  obtain ⟨-, hprint, -⟩ := hranges 2 3 (by decide) (by decide) (by decide)
  obtain ⟨-, -, -, hnumber, -⟩ := hranges 2 2 (by decide) (by decide) (by decide)
  have hparse : Command.parse "1" = .ok ⟨.goTo, some (.line 1), some (.line 1)⟩ :=
    eq_ok_of_toOption (by decide +kernel)
  have hitems : Script.items (inputLines (.ofString ("1" ++ "\n"))) =
      [.ok ⟨.goTo, some (.line 1), some (.line 1)⟩] := by
    rw [inputLines_line ⟨by decide, by decide⟩, EdScript.items_cons_bare hparse rfl, Script.items]
  obtain ⟨k, line, hline, hw', hrun⟩ := hgoTo _ _ (.ofString "a") _ hitems rfl rfl
  have hk : 1 = k + 1 := congrArg (fun w => w.editor.currentLine) hw'
  obtain rfl : k = 0 := by omega
  cases (show some (.ofString "a") = some line from hline)
  refine ⟨?_, ?_, ?_⟩
  · rw [hprint]
    decide
  · rw [hnumber]
    decide
  · exact congrArg Prod.fst hrun

/-- An empty line that is printed alone is lost: nothing is written for it. -/
theorem run_loses_empty_line :
    (Editor.ofText "\n").lineList = [[]] ∧
      run (.ofString (rangeCommand 1 1 'p' ++ "\n")) ⟨.ofText "\n", .empty "/"⟩ =
        ([], ⟨.ofText "\n", .empty "/"⟩) := by
  refine ⟨by decide, ?_⟩
  have hone : 1 ≤ maxOffset := by decide
  have hrun : (EditM.execute ⟨.print, some (.line 1), some (.line 1)⟩).run
      ⟨.ofText "\n", .empty "/"⟩ = .ok [] ⟨.ofText "\n", .empty "/"⟩ := rfl
  exact run_of_items (items_rangeCommand hone hone Parser.isBare_print rfl) rfl hrun

end Session

end Redline

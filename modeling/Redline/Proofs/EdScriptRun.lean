import Redline.Diff.Report
import Redline.Proofs.Alignment
import Redline.Proofs.EdScriptReading
import Redline.Proofs.LineRefinement
import Redline.Proofs.Patch
/-!
# Running an editor script

A script is carried out from the last change to the first, so every command finds
the lines in front of it as the comparison saw them.
-/

namespace Redline

inductive Session.Succeeds : List Script.Item → Workspace → Workspace → Prop where
  | nil (w : Workspace) : Succeeds [] w w
  | cons {c : Command} {items : List Script.Item} {shown : Bytes} {w w₁ w₂ : Workspace}
      (hrun : (EditM.execute c).run w = .ok shown w₁) (rest : Succeeds items w₁ w₂) :
      Succeeds (.ok c :: items) w w₂

theorem Session.Succeeds.append {items more : List Script.Item} {w w₁ w₂ : Workspace}
    (h : Succeeds items w w₁) (hmore : Succeeds more w₁ w₂) : Succeeds (items ++ more) w w₂ := by
  induction h with
  | nil => exact hmore
  | cons hrun _ ih => exact .cons hrun (ih hmore)

/-! ## A change as an edit -/

namespace LineEdit

variable {front middle back : List Bytes}

theorem without_append (front middle back : List Bytes) :
    without (front.length + 1) (front.length + middle.length) (front ++ middle ++ back) =
      front ++ back := by
  rw [without, Nat.add_sub_cancel, List.append_assoc, List.take_left, ← List.append_assoc,
    ← List.length_append, List.drop_left]

theorem insertBehind_append (text front back : List Bytes) :
    insertBehind front.length text (front ++ back) = front ++ text ++ back := by
  rw [insertBehind, List.take_left, List.drop_left]

end LineEdit

theorem Editor.resolve_line {e : Editor} {n : Nat} (hn : n ≤ maxOffset) (hle : n ≤ e.lineCount) :
    e.resolve? (some (.line n)) = .ok n := by
  refine resolve_eq_ok_iff.mpr ⟨n, ?_, Int.add_zero _, hle⟩
  rw [Address.line, resolveBase, Text.readWord?_toString hn]

theorem length_le_length_ofLines (lines : List Bytes) :
    lines.length ≤ (ofLines lines).length := by
  have h := length_ofLines_take lines 0
  rw [Nat.sub_zero] at h
  omega

namespace EditM

theorem run_execute_silently {w w' : Workspace} {c : Command} {x : EditM Unit}
    (hperform : perform c.withDefaults c.first.isSome = silently x)
    (hrun : x.run w = .ok () w') : (execute c).run w = .ok [] w' := by
  rw [run_execute_eq_ok_iff, hperform, silently, EStateM.run_bind, hrun]
  rfl

end EditM

/-! ## Commands with line numbers -/

section

variable {w : Workspace} {front middle back : List Bytes}

/-- The lines between others have numbers, and an offset that fits behind them. -/
private theorem resolveRange_between (h : w.editor.Indexed)
    (hlines : w.editor.lineList = front ++ middle ++ back) (hne : middle ≠ [])
    (hsize : (ofLines (front ++ middle)).length ≤ maxOffset) (v : Verb) :
    w.editor.resolveRange
        ⟨v, some (.line (front.length + 1)), some (.line (front.length + middle.length))⟩ =
      .ok (front.length + 1, front.length + middle.length) ∧
    front.length < front.length + middle.length ∧
    front.length + middle.length ≤ w.editor.lineList.length ∧
    w.editor.lines.lineStart (front.length + middle.length + 1) ≤ maxOffset := by
  have hlength : w.editor.lineList.length = front.length + middle.length + back.length := by
    rw [hlines, List.length_append, List.length_append]
  have hwords := length_le_length_ofLines (front ++ middle)
  rw [List.length_append] at hwords
  have hpos := List.length_pos_iff.mpr hne
  refine ⟨?_, by omega, by omega, ?_⟩
  · have hcount := h.lineCount_eq
    exact Editor.resolveRange_eq_ok_iff.mpr ⟨Editor.resolve_line (by omega) (by omega),
      Editor.resolve_line (by omega) (by omega), Nat.succ_pos _, by omega⟩
  · have htake : w.editor.lineList.take (front.length + middle.length) = front ++ middle := by
      rw [hlines, ← List.length_append, List.take_left]
    have hmin : w.editor.lines.lineStart (front.length + middle.length + 1) =
        min (ofLines (w.editor.lineList.take (front.length + middle.length))).length
          w.editor.bytes.length := by
      rw [h.lines_eq, LineIndex.lineStart_ofBytes]
      rfl
    rw [hmin, htake]
    exact Nat.le_trans (Nat.min_le_left _ _) hsize

private theorem lineList_of_isEdited {edit : LineEdit} {w' : Workspace} (h : w.IsEdited edit w') :
    w'.editor.lineList = edit.onLines w.editor.lineList :=
  congrArg LineEditor.lines h.view_eq

theorem exists_execute_delete (h : w.editor.Indexed)
    (hlines : w.editor.lineList = front ++ middle ++ back) (hne : middle ≠ [])
    (hsize : (ofLines (front ++ middle)).length ≤ maxOffset) :
    ∃ w', (EditM.execute ⟨.delete, some (.line (front.length + 1)),
        some (.line (front.length + middle.length))⟩).run w = .ok [] w' ∧
      w'.editor.Indexed ∧ w'.editor.lineList = front ++ back := by
  obtain ⟨hrange, hlt, hle, hword⟩ := resolveRange_between h hlines hne hsize .delete
  obtain ⟨w', hrun⟩ := EditM.exists_run_delete h hrange hlt hle hword
  obtain ⟨first, last, hrange', hedited⟩ := EditM.isEdited_delete h hrun
  rw [hrange] at hrange'
  cases hrange'
  refine ⟨w', EditM.run_execute_silently rfl hrun, hedited.indexed, ?_⟩
  rw [lineList_of_isEdited hedited, LineEdit.onLines, hlines, LineEdit.without_append]

theorem exists_execute_change (h : w.editor.Indexed)
    (hlines : w.editor.lineList = front ++ middle ++ back) (hne : middle ≠ [])
    (hsize : (ofLines (front ++ middle)).length ≤ maxOffset) {text : String}
    (htext : (Bytes.ofString text).lacksFinalNewline = false) :
    ∃ w', (EditM.execute ⟨.change text, some (.line (front.length + 1)),
        some (.line (front.length + middle.length))⟩).run w = .ok [] w' ∧
      w'.editor.Indexed ∧
      w'.editor.lineList = front ++ splitLines (.ofString text) ++ back := by
  obtain ⟨hrange, hlt, hle, hword⟩ := resolveRange_between h hlines hne hsize (.change text)
  obtain ⟨w', hrun⟩ := EditM.exists_run_change h hrange hlt hle hword htext
  obtain ⟨first, last, hrange', hedited⟩ := EditM.isEdited_change h htext hrun
  rw [hrange] at hrange'
  cases hrange'
  refine ⟨w', EditM.run_execute_silently rfl hrun, hedited.indexed, ?_⟩
  rw [lineList_of_isEdited hedited, LineEdit.onLines, hlines, LineEdit.without_append,
    Nat.add_sub_cancel, LineEdit.insertBehind_append]

theorem exists_execute_append (h : w.editor.Indexed) (hlines : w.editor.lineList = front ++ back)
    (hsize : (ofLines front).length ≤ maxOffset) {text : String}
    (htext : (Bytes.ofString text).lacksFinalNewline = false) :
    ∃ w', (EditM.execute ⟨.append text, some (.line front.length),
        some (.line front.length)⟩).run w = .ok [] w' ∧
      w'.editor.Indexed ∧
      w'.editor.lineList = front ++ splitLines (.ofString text) ++ back := by
  have hwords := length_le_length_ofLines front
  have hline : w.editor.resolve? (some (.line front.length)) = .ok front.length := by
    apply Editor.resolve_line (by omega)
    rw [h.lineCount_eq, hlines, List.length_append]
    exact Nat.le_add_right _ _
  obtain ⟨w', hrun⟩ := EditM.exists_run_append h hline htext
    (c := ⟨.append text, some (.line front.length), some (.line front.length)⟩)
  obtain ⟨line, hline', hedited⟩ := EditM.isEdited_append h htext hrun
  rw [hline] at hline'
  cases hline'
  refine ⟨w', EditM.run_execute_silently rfl hrun, hedited.indexed, ?_⟩
  rw [lineList_of_isEdited hedited, LineEdit.onLines, hlines, LineEdit.insertBehind_append]

end

namespace EdScript

variable {w : Workspace} {d : Comparison Bytes} {c : Change} {front middle back : List Bytes}

/-- A change is carried out on the lines that it is about, wherever the lines
behind them come from. -/
theorem exists_run_command (h : w.editor.Indexed) (hc : Readable d c)
    (hlines : w.editor.lineList = front ++ middle ++ back)
    (hold : c.old = ⟨front.length, front.length + middle.length⟩)
    (hsize : (ofLines (front ++ middle)).length ≤ maxOffset) :
    ∃ w', (EditM.execute (command d c)).run w = .ok [] w' ∧ w'.editor.Indexed ∧
      w'.editor.lineList = front ++ c.new.slice d.new ++ back := by
  have hblock := ofString_blockText_block hc.legible
  have htext : (Bytes.ofString (Script.blockText (block d c))).lacksFinalNewline = false := by
    rw [hblock]
    exact lacksFinalNewline_ofLines _
  have hsplit : splitLines (Bytes.ofString (Script.blockText (block d c))) =
      c.new.slice d.new := by
    rw [hblock]
    exact splitLines_ofLines fun line hline => (hc.carriable line hline).2
  have hne : ¬c.old.isEmpty = true → middle ≠ [] := by
    rintro hsome rfl
    exact hsome ((Span.isEmpty_iff _).mpr (by rw [hold]; simp [Span.length]))
  unfold command
  rw [← hsplit]
  -- lines are deleted, put behind a place, or put in the place of others
  split
  · rename_i hnew
    have hmiddle : middle ≠ [] := by
      rintro rfl
      have hlt := hc.some_change hnew
      rw [hold] at hlt
      exact Nat.lt_irrefl _ hlt
    have hnil : c.new.slice d.new = [] := Span.slice_of_isEmpty hnew d.new
    rw [hsplit, hnil, List.append_nil, hold]
    exact exists_execute_delete h hlines hmiddle hsize
  · split
    · rename_i hempty
      have hmiddle : middle = [] := by
        have hlength := (Span.isEmpty_iff _).mp hempty
        rw [hold, Span.length] at hlength
        dsimp only at hlength
        exact List.eq_nil_of_length_eq_zero (by omega)
      rw [hmiddle, List.append_nil] at hlines hsize
      rw [hold]
      exact exists_execute_append h hlines hsize htext
    · rename_i hsome
      rw [hold]
      exact exists_execute_change h hlines (hne hsome) hsize htext

/-! ## All changes -/

def script (d : Comparison Bytes) (changes : List Change) : List Script.Item :=
  changes.reverse.map fun c => .ok (command d c)

/-- The lines in front of a change are not those that the changes behind it edit. -/
theorem exists_succeeds_cons {changes : List Change} {added : List Bytes}
    (hrest : ∃ w₁, Session.Succeeds (script d changes) w w₁ ∧ w₁.editor.Indexed ∧
      w₁.editor.lineList = front ++ middle ++ back)
    (hc : Readable d c) (hold : c.old = ⟨front.length, front.length + middle.length⟩)
    (hnew : c.new.slice d.new = added) (hsize : (ofLines (front ++ middle)).length ≤ maxOffset) :
    ∃ w', Session.Succeeds (script d (c :: changes)) w w' ∧ w'.editor.Indexed ∧
      w'.editor.lineList = front ++ added ++ back := by
  obtain ⟨w₁, hsucceeds, hindexed, hlines⟩ := hrest
  obtain ⟨w', hrun, hindexed', hlines'⟩ := exists_run_command hindexed hc hlines hold hsize
  rw [hnew] at hlines'
  refine ⟨w', ?_, hindexed', hlines'⟩
  rw [script, List.reverse_cons, List.map_append]
  exact hsucceeds.append (.cons hrun (.nil w'))

theorem slice_append (front middle back : List Bytes) :
    Span.slice ⟨front.length, front.length + middle.length⟩ (front ++ (middle ++ back)) =
      middle := by
  rw [Span.slice, List.drop_left, Span.length, Nat.add_sub_cancel_left, List.take_left]

private theorem append_take_drop (before old : List Bytes) (count : Nat) :
    before ++ old = before ++ old.take count ++ old.drop count := by
  rw [List.append_assoc, List.take_append_drop]

private theorem take_drop_fits {before old : List Bytes} {count rest : Nat}
    (hlength : count + rest = old.length)
    (hsize : (ofLines (before ++ old)).length ≤ maxOffset) :
    (old.take count).length = count ∧ rest = (old.drop count).length ∧
      (ofLines (before ++ old.take count)).length ≤ maxOffset := by
  refine ⟨?_, ?_, ?_⟩
  · rw [List.length_take]
    omega
  · rw [List.length_drop]
    omega
  · rw [append_take_drop before old count, ofLines_append, List.length_append] at hsize
    omega

open Hunk in
/-- The commands patch the old lines.  The induction is on the hunks, while the
script starts with the last of them: `before` are the lines in front of all. -/
theorem exists_succeeds {hunks : List (Hunk Bytes)} {oldStart newStart : Nat}
    {before old passed : List Bytes} (h : w.editor.Indexed)
    (hlines : w.editor.lineList = before ++ old) (hbefore : before.length = oldStart)
    (hlength : oldLength hunks = old.length)
    (hsize : (ofLines (before ++ old)).length ≤ maxOffset) (hpassed : passed.length = newStart)
    (hnew : d.new = passed ++ hunks.flatMap newValues)
    (hreadable : ∀ c ∈ Change.ofHunksFrom oldStart newStart hunks, Readable d c) :
    ∃ w', Session.Succeeds (script d (Change.ofHunksFrom oldStart newStart hunks)) w w' ∧
      w'.editor.Indexed ∧ w'.editor.lineList = before ++ patch hunks old := by
  induction oldStart, newStart, hunks using Change.ofHunksFrom.induct generalizing
    before old passed with
  | case1 oldStart newStart => exact ⟨w, .nil w, h, hlines⟩
  | case2 oldStart newStart gone added rest ih =>
    rw [oldLength_delete, oldLength_insert] at hlength
    change d.new = passed ++ (added ++ rest.flatMap newValues) at hnew
    obtain ⟨hgone, hdrop, hfront⟩ := take_drop_fits hlength hsize
    have hsplit := append_take_drop before old gone.length
    rw [Change.ofHunksFrom] at hreadable ⊢
    have hrest := ih (hlines.trans hsplit) (by rw [List.length_append, hgone, hbefore])
      hdrop (hsplit ▸ hsize)
      (by rw [List.length_append, hpassed]) (hnew.trans (List.append_assoc _ _ _).symm)
      (List.forall_mem_cons.mp hreadable).2
    rw [patch, patch, ← List.append_assoc]
    refine exists_succeeds_cons hrest (hreadable _ List.mem_cons_self) ?_ ?_ hfront
    · rw [hgone, hbefore]
    · rw [hnew, ← hpassed]
      exact slice_append passed added _
  | case3 oldStart newStart gone rest hinsert ih =>
    rw [oldLength_delete] at hlength
    change d.new = passed ++ rest.flatMap newValues at hnew
    obtain ⟨hgone, hdrop, hfront⟩ := take_drop_fits hlength hsize
    have hsplit := append_take_drop before old gone.length
    rw [Change.ofHunksFrom.eq_3 oldStart newStart gone rest hinsert] at hreadable ⊢
    have hrest := ih (hlines.trans hsplit) (by rw [List.length_append, hgone, hbefore])
      hdrop (hsplit ▸ hsize) hpassed hnew
      (List.forall_mem_cons.mp hreadable).2
    rw [patch, ← List.append_nil before]
    refine exists_succeeds_cons hrest (hreadable _ List.mem_cons_self) ?_ ?_ hfront
    · rw [hgone, hbefore]
    · exact Span.slice_of_isEmpty (by simp [Span.isEmpty]) _
  | case4 oldStart newStart added rest ih =>
    rw [oldLength_insert] at hlength
    change d.new = passed ++ (added ++ rest.flatMap newValues) at hnew
    have hfront : (ofLines (before ++ [])).length ≤ maxOffset := by
      rw [ofLines_append, List.length_append] at hsize
      rw [List.append_nil]
      omega
    rw [Change.ofHunksFrom] at hreadable ⊢
    have hrest := ih hlines hbefore hlength hsize
      (by rw [List.length_append, hpassed]) (hnew.trans (List.append_assoc _ _ _).symm)
      (List.forall_mem_cons.mp hreadable).2
    rw [← List.append_nil before] at hrest
    rw [patch, ← List.append_assoc]
    refine exists_succeeds_cons hrest (hreadable _ List.mem_cons_self) ?_ ?_ hfront
    · rw [List.length_nil, hbefore, Nat.add_zero]
    · rw [hnew, ← hpassed]
      exact slice_append passed added _
  | case5 oldStart newStart kept rest ih =>
    rw [oldLength_equal] at hlength
    change d.new = passed ++ (kept ++ rest.flatMap newValues) at hnew
    obtain ⟨hkept, hdrop, -⟩ := take_drop_fits hlength hsize
    have hsplit := append_take_drop before old kept.length
    rw [Change.ofHunksFrom] at hreadable ⊢
    rw [patch, ← List.append_assoc]
    exact ih (hlines.trans hsplit) (by rw [List.length_append, hkept, hbefore])
      hdrop (hsplit ▸ hsize)
      (by rw [List.length_append, hpassed]) (hnew.trans (List.append_assoc _ _ _).symm) hreadable

theorem place_of_mem_ofHunks {hunks : List (Hunk Bytes)}
    (hvalues : ∀ hunk ∈ hunks, hunk.values ≠ []) (hc : c ∈ Change.ofHunks hunks) :
    c.old.start ≤ c.old.stop ∧ c.old.stop ≤ Hunk.oldLength hunks ∧
      (c.new.isEmpty = true → c.old.start < c.old.stop) := by
  obtain ⟨hstart, hstop⟩ := (aligned_ofHunks hunks).inside hc
  refine ⟨hstart, hstop, fun hempty => ?_⟩
  have hnonempty := Change.nonempty_of_mem_ofHunksFrom (fun hunk hmem _ => hvalues hunk hmem) hc
  have hold := hnonempty.resolve_right (by rw [hempty]; decide)
  exact Nat.lt_of_not_le (of_decide_eq_false hold)

open Hunk in
theorem exists_inserted_of_mem_slice {hunks : List (Hunk Bytes)} {oldStart newStart : Nat}
    {passed : List Bytes} (hpassed : passed.length = newStart)
    (hnew : d.new = passed ++ hunks.flatMap newValues)
    (hc : c ∈ Change.ofHunksFrom oldStart newStart hunks) {line : Bytes}
    (hline : line ∈ c.new.slice d.new) :
    ∃ hunk ∈ hunks, hunk.kind = .insert ∧ line ∈ hunk.values := by
  induction oldStart, newStart, hunks using Change.ofHunksFrom.induct generalizing passed with
  | case1 oldStart newStart => exact absurd hc List.not_mem_nil
  | case2 oldStart newStart gone added rest ih =>
    change d.new = passed ++ (added ++ rest.flatMap newValues) at hnew
    rw [Change.ofHunksFrom] at hc
    obtain rfl | hc := List.mem_cons.mp hc
    · rw [hnew, ← hpassed, slice_append] at hline
      exact ⟨⟨.insert, added⟩, by simp, rfl, hline⟩
    · obtain ⟨hunk, hmem, hinsert⟩ := ih (by rw [List.length_append, hpassed])
        (hnew.trans (List.append_assoc _ _ _).symm) hc
      exact ⟨hunk, by simp [hmem], hinsert⟩
  | case3 oldStart newStart gone rest hinsert ih =>
    rw [Change.ofHunksFrom.eq_3 oldStart newStart gone rest hinsert] at hc
    obtain rfl | hc := List.mem_cons.mp hc
    · rw [Span.slice_of_isEmpty (by simp [Span.isEmpty])] at hline
      exact absurd hline List.not_mem_nil
    · obtain ⟨hunk, hmem, hinsert⟩ := ih hpassed hnew hc
      exact ⟨hunk, List.mem_cons_of_mem _ hmem, hinsert⟩
  | case4 oldStart newStart added rest ih =>
    change d.new = passed ++ (added ++ rest.flatMap newValues) at hnew
    rw [Change.ofHunksFrom] at hc
    obtain rfl | hc := List.mem_cons.mp hc
    · rw [hnew, ← hpassed, slice_append] at hline
      exact ⟨⟨.insert, added⟩, List.mem_cons_self, rfl, hline⟩
    · obtain ⟨hunk, hmem, hinsert⟩ := ih (by rw [List.length_append, hpassed])
        (hnew.trans (List.append_assoc _ _ _).symm) hc
      exact ⟨hunk, List.mem_cons_of_mem _ hmem, hinsert⟩
  | case5 oldStart newStart kept rest ih =>
    change d.new = passed ++ (kept ++ rest.flatMap newValues) at hnew
    rw [Change.ofHunksFrom] at hc
    obtain ⟨hunk, hmem, hinsert⟩ := ih (by rw [List.length_append, hpassed])
      (hnew.trans (List.append_assoc _ _ _).symm) hc
    exact ⟨hunk, List.mem_cons_of_mem _ hmem, hinsert⟩

theorem readable_of_mem_ofHunks {hunks : List (Hunk Bytes)}
    (hword : Hunk.oldLength hunks ≤ maxOffset) (hvalues : ∀ hunk ∈ hunks, hunk.values ≠ [])
    (hinserted : ∀ hunk ∈ hunks, hunk.kind = .insert →
      ∀ line ∈ hunk.values, Carriable line ∧ newline ∉ line) :
    ∀ c ∈ Change.ofHunks hunks, Readable (.ofHunks hunks) c := by
  intro c hc
  obtain ⟨hstart, hstop, hsome⟩ := place_of_mem_ofHunks hvalues hc
  refine ⟨hstart, Nat.le_trans hstop hword, hsome, fun line hline => ?_⟩
  obtain ⟨hunk, hmem, hinsert, hline⟩ :=
    exists_inserted_of_mem_slice List.length_nil rfl hc hline
  exact hinserted hunk hmem hinsert line hline

theorem exists_succeeds_ofHunks {hunks : List (Hunk Bytes)} (h : w.editor.Indexed)
    (hlength : Hunk.oldLength hunks = w.editor.lineList.length)
    (hsize : w.editor.bytes.length < maxOffset)
    (hvalues : ∀ hunk ∈ hunks, hunk.values ≠ [])
    (hinserted : ∀ hunk ∈ hunks, hunk.kind = .insert →
      ∀ line ∈ hunk.values, Carriable line ∧ newline ∉ line) :
    ∃ w', Session.Succeeds (Script.items
        (Session.inputLines (Bytes.joinLines (rows (.ofHunks hunks))))) w w' ∧
      w'.editor.Indexed ∧ w'.editor.lineList = Hunk.patch hunks w.editor.lineList := by
  have htext : (ofLines w.editor.lineList).length ≤ maxOffset := by
    rw [Editor.lineList, length_ofLines_splitLines]
    split
    · exact hsize
    · exact Nat.le_of_lt hsize
  have hwords := length_le_length_ofLines w.editor.lineList
  have hreadable : ∀ c ∈ Change.ofHunks hunks, Readable (.ofHunks hunks) c :=
    readable_of_mem_ofHunks (by omega) hvalues hinserted
  rw [items_rows hreadable]
  exact exists_succeeds h rfl List.length_nil hlength htext List.length_nil rfl hreadable

end EdScript

namespace Report

theorem forall_inserted (options : Options) (old : List Bytes) {new : List Bytes}
    {P : Bytes → Prop} (h : ∀ line ∈ new, P line) :
    ∀ hunk ∈ compare options old new, hunk.kind = .insert → ∀ line ∈ hunk.values, P line := by
  intro hunk hmem hkind line hline
  apply h line
  rw [← (plainDiff_compare options old new).flatMap_newValues]
  refine List.mem_flatMap.mpr ⟨hunk, hmem, ?_⟩
  rw [Hunk.newValues, hkind, if_neg (by decide)]
  exact hline

/-- The script of a comparison, run on the old document, makes it the new one; of
lines that differ in blanks at their end alone, the old ones may stay.  The old
document and a final newline fit into a machine word. -/
theorem edScript_reaches_new {w : Workspace} (h : w.Reachable) {old new : Bytes}
    (hold : w.editor.bytes = old) (hsize : old.length < maxOffset) {options : Options}
    (hformat : options.format = .edScript) (oldHead newHead : Heading)
    (hinserted : ∀ hunk ∈ compare options (splitLines old) (splitLines new),
      hunk.kind = .insert → ∀ line ∈ hunk.values, EdScript.Carriable line) :
    ∃ w', Session.Succeeds (Script.items (Session.inputLines (render options
        (compare options (splitLines old) (splitLines new)) oldHead newHead))) w w' ∧
      (options.ignoreTrailingBlanks = false → w'.editor.lineList = splitLines new) ∧
      (options.ignoreTrailingBlanks = true →
        w'.editor.lineList.length = (splitLines new).length ∧
          w'.editor.lineList.map withoutTrailingBlanks =
            (splitLines new).map withoutTrailingBlanks) := by
  subst hold
  have hdiff := plainDiff_compare options (splitLines w.editor.bytes) (splitLines new)
  have hnewline := forall_inserted options (splitLines w.editor.bytes)
    fun line (hline : line ∈ splitLines new) => newline_notMem_of_mem_splitLines hline
  obtain ⟨w', hsucceeds, -, hlines⟩ := EdScript.exists_succeeds_ofHunks h.indexed
    hdiff.oldLength_eq hsize hdiff.values_ne_nil fun hunk hmem hkind line hline =>
      ⟨hinserted hunk hmem hkind line hline, hnewline hunk hmem hkind line hline⟩
  have hkeys : w'.editor.lineList.map options.key = (splitLines new).map options.key := by
    rw [hlines]
    exact hdiff.map_patch
  refine ⟨w', ?_, fun hall => ?_, fun hignore => ?_⟩
  · rw [render, Report.rows, hformat]
    exact hsucceeds
  · rw [Options.key, hall, if_neg (by decide), List.map_id, List.map_id] at hkeys
    exact hkeys
  · rw [Options.key, hignore, if_pos rfl] at hkeys
    have hlength := congrArg List.length hkeys
    rw [List.length_map, List.length_map] at hlength
    exact ⟨hlength, hkeys⟩

theorem edScript_reaches_new_last_line :
    ∃ w', Session.Succeeds (Script.items (Session.inputLines (render ⟨.edScript, 3, false⟩
        (compare ⟨.edScript, 3, false⟩ (splitLines (.ofString "a\nb"))
          (splitLines (.ofString "a\nc\n"))) default default)))
        ⟨.ofText "a\nb", .empty "/"⟩ w' ∧
      w'.editor.lineList = [.ofString "a", .ofString "c"] := by
  have hnew : splitLines (.ofString "a\nc\n") = [.ofString "a", .ofString "c"] := by decide
  have hlines : ∀ line ∈ splitLines (.ofString "a\nc\n"), EdScript.Carriable line := by
    intro line hline
    rw [hnew, List.mem_cons, List.mem_singleton] at hline
    rcases hline with rfl | rfl
    · exact ⟨⟨"a", rfl⟩, by decide, by decide⟩
    · exact ⟨⟨"c", rfl⟩, by decide, by decide⟩
  have hinserted := forall_inserted ⟨.edScript, 3, false⟩ (splitLines (.ofString "a\nb")) hlines
  obtain ⟨w', hsucceeds, hreached, -⟩ := edScript_reaches_new
    (.ofText "a\nb" (.empty "/")) rfl (by decide) rfl default default hinserted
  exact ⟨w', hsucceeds, (hreached rfl).trans hnew⟩

end Report

end Redline

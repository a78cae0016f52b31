import Redline.Editor.Lines
import Redline.Proofs.LineText
import Redline.Proofs.TableEdits
/-!
# What line edits do to the lines

The actions on lines work through byte offsets.  Here each of them gets one
equation: the result, and the bytes of the document after it.
-/

namespace Redline

namespace Editor

/-- The table shows what is stored, and the line index is that of the document. -/
structure Indexed (e : Editor) : Prop where
  wellFormed : e.table.WellFormed
  lines_eq : e.lines = .ofBytes e.bytes

def lineList (e : Editor) : List Bytes :=
  splitLines e.bytes

def withTable (e : Editor) (t : PieceTable) : Editor :=
  { e with table := t }.reindexed

namespace Indexed

variable {e : Editor}

theorem withTable {t : PieceTable} (h : t.WellFormed) : (e.withTable t).Indexed :=
  ⟨h, rfl⟩

theorem withTable_table (h : e.Indexed) : e.withTable e.table = e := by
  unfold Editor.withTable reindexed
  change { e with lines := .ofBytes e.bytes } = e
  rw [← h.lines_eq]

theorem lineCount_eq (h : e.Indexed) : e.lineCount = e.lineList.length := by
  rw [lineCount, h.lines_eq, LineIndex.lineCount_ofBytes, lineList]

theorem lineStart_le_length (h : e.Indexed) (line : Nat) :
    e.lines.lineStart line ≤ e.bytes.length := by
  rw [h.lines_eq]
  exact LineIndex.lineStart_le e.bytes line

end Indexed

end Editor

namespace EditM

variable {w : Workspace}

@[simp] theorem run_ask (f : Editor → Except EditError α) :
    (ask f).run w =
      match f w.editor with
      | .ok a => .ok a w
      | .error cause => .error cause w := rfl

@[simp] theorem run_changeText (f : PieceTable → Except PieceTable.Fault PieceTable) :
    (changeText f).run w =
      match f w.editor.table with
      | .ok table => .ok () { w with editor := { w.editor with table } }
      | .error fault => .error (.text fault) w := rfl

@[simp] theorem run_askFiles (f : FileTree → Except FileError α) :
    (askFiles f).run w =
      match f w.files with
      | .ok a => .ok a w
      | .error cause => .error (.file cause) w := rfl

@[simp] theorem run_changeFiles (f : FileTree → Except FileError α × FileTree) :
    (changeFiles f).run w =
      match f w.files with
      | (.ok a, files) => .ok a { w with files }
      | (.error cause, files) => .error (.file cause) { w with files } := rfl

end EditM

def Workspace.withTable (w : Workspace) (t : PieceTable) : Workspace :=
  { w with editor := w.editor.withTable t }

namespace EditM

open Editor

variable {w : Workspace}

/-! ## Insertion -/

/-- Inserted text stands between the lines before it and the rest, and starts a
line of its own. -/
theorem run_insertBefore (h : w.editor.Indexed) (k : Nat) {text : Bytes} (hne : text ≠ []) :
    ∃ t : PieceTable, t.WellFormed ∧
      t.toBytes = ofLines (w.editor.lineList.take k) ++ text ++
        w.editor.bytes.drop (w.editor.lines.lineStart (k + 1)) ∧
      (insertBefore (k + 1) text).run w = .ok () (w.withTable t) := by
  have hempty : ¬text.isEmpty = true := by simpa using hne
  have hstart := h.lineStart_le_length (k + 1)
  have hfront := LineIndex.terminated_take_lineStart w.editor.bytes k
  have hmissing := LineIndex.missingFinalNewline_ofBytes w.editor.bytes
  have hend : w.editor.lines.byteLength = w.editor.bytes.length := by
    rw [h.lines_eq]
    rfl
  rw [← h.lines_eq] at hfront hmissing
  unfold insertBefore
  simp only [if_neg hempty, EStateM.run_bind, run_ask]
  by_cases hlacks : w.editor.lines.lineStart (k + 1) = w.editor.lines.byteLength ∧
      w.editor.lines.missingFinalNewline
  · -- the text goes behind a last line without a newline, which gets one first
    rw [if_pos hlacks, hlacks.1, hend]
    rw [hlacks.1, hend, List.take_length, terminated_of_lacks (hmissing ▸ hlacks.2)] at hfront
    obtain ⟨t, hinsert, ht, htext⟩ := PieceTable.exists_insert_eq_ok h.wellFormed
      (Nat.le_refl w.editor.bytes.length) [newline]
    rw [show w.editor.table.toBytes = w.editor.bytes from rfl, List.take_length,
      List.drop_length, List.append_nil, hfront] at htext
    have hlength : w.editor.bytes.length + 1 = t.toBytes.length := by
      rw [htext, ← hfront, List.length_append, List.length_singleton]
    obtain ⟨u, hinsert', hu, hutext⟩ := PieceTable.exists_insert_eq_ok ht
      (Nat.le_of_eq hlength) text
    refine ⟨u, hu, ?_, ?_⟩
    · rw [hutext, hlength, List.take_length, List.drop_length, List.drop_length, htext]
      rfl
    · simp only [EStateM.run_bind, run_changeText, hinsert, hinsert']
      rfl
  · have hsame : w.editor.bytes.take (w.editor.lines.lineStart (k + 1)) =
        ofLines (w.editor.lineList.take k) := by
      rw [hmissing, hend, h.lines_eq] at hlacks
      rw [h.lines_eq]
      exact LineIndex.take_lineStart hlacks
    obtain ⟨t, hinsert, ht, htext⟩ := PieceTable.exists_insert_eq_ok h.wellFormed hstart text
    refine ⟨t, ht, ?_, ?_⟩
    · rw [htext, ← hsame]
      rfl
    · rw [if_neg hlacks]
      simp only [EStateM.run_bind, run_changeText, hinsert]
      rfl

theorem run_insertBefore_lines (h : w.editor.Indexed) (k : Nat) {text : Bytes}
    (htext : text.lacksFinalNewline = false) :
    ∃ t : PieceTable, t.WellFormed ∧
      splitLines t.toBytes =
        w.editor.lineList.take k ++ splitLines text ++ w.editor.lineList.drop k ∧
      (insertBefore (k + 1) text).run w = .ok () (w.withTable t) := by
  by_cases hne : text = []
  · refine ⟨w.editor.table, h.wellFormed, ?_, ?_⟩
    · rw [hne, splitLines_nil, List.append_nil, List.take_append_drop]
      rfl
    · rw [hne, Workspace.withTable, h.withTable_table]
      rfl
  · obtain ⟨t, ht, hbytes, hrun⟩ := run_insertBefore h k hne
    refine ⟨t, ht, ?_, hrun⟩
    have hrest : splitLines (w.editor.bytes.drop (w.editor.lines.lineStart (k + 1))) =
        w.editor.lineList.drop k := by
      rw [h.lines_eq]
      exact LineIndex.splitLines_drop_lineStart _ _
    calc splitLines t.toBytes
        = w.editor.lineList.take k ++
            splitLines (text ++ w.editor.bytes.drop (w.editor.lines.lineStart (k + 1))) := by
          rw [hbytes, List.append_assoc]
          exact splitLines_ofLines_append (newline_notMem_of_mem_take _ k) _
      _ = w.editor.lineList.take k ++ splitLines text ++ w.editor.lineList.drop k := by
          rw [splitLines_append htext, hrest, List.append_assoc]

/-! ## Reading and deleting -/

private theorem lineSpan_eq {e : Editor} (h : e.Indexed) {k last : Nat} (hle : k ≤ last) :
    e.lineSpan (k + 1) last = .ok ⟨e.lines.lineStart (k + 1), e.lines.lineStart (last + 1)⟩ := by
  have hmono := LineIndex.lineStart_mono e.bytes hle
  rw [← h.lines_eq] at hmono
  rw [lineSpan, LineIndex.lineEnd, if_neg (Nat.not_lt.mpr hmono)]

private theorem checkRange_lineStart {e : Editor} (h : e.Indexed) {position count line : Nat}
    (hsum : position + count = e.lines.lineStart line) :
    e.table.checkRange position count =
      if e.lines.lineStart line ≤ maxOffset then .ok () else .error .overflow := by
  have hlength := h.lineStart_le_length line
  rw [bytes, PieceTable.length_toBytes h.wellFormed] at hlength
  split
  · exact PieceTable.checkRange_eq_ok_iff.mpr (by omega)
  · exact PieceTable.checkRange_eq_error_iff.mpr (.inl ⟨by omega, rfl⟩)

theorem lineBytes_eq {e : Editor} (h : e.Indexed) {k last : Nat} (hk : k < e.lineList.length)
    (hle : k ≤ last) :
    e.lineBytes (k + 1) last =
      if e.lines.lineStart (last + 1) ≤ maxOffset then
        .ok (ofLines ((e.lineList.take last).drop k))
      else .error (.text .overflow) := by
  have hmono := LineIndex.lineStart_mono e.bytes hle
  have hbetween := LineIndex.terminated_between hk hle
  rw [← h.lines_eq] at hmono hbetween
  have hsum : e.lines.lineStart (k + 1) +
      (e.lines.lineStart (last + 1) - e.lines.lineStart (k + 1)) =
      e.lines.lineStart (last + 1) := by omega
  have hread := PieceTable.readAt_eq h.wellFormed (e.lines.lineStart (k + 1))
    (e.lines.lineStart (last + 1) - e.lines.lineStart (k + 1))
  rw [lineBytes, lineSpan_eq h hle]
  change (e.readSpan ⟨e.lines.lineStart (k + 1), e.lines.lineStart (last + 1)⟩ >>= fun bytes =>
    pure bytes.terminated) = _
  rw [readSpan, PieceTable.read, Span.length, checkRange_lineStart h hsum, hread]
  by_cases hword : e.lines.lineStart (last + 1) ≤ maxOffset
  · rw [if_pos hword, if_pos hword]
    exact congrArg Except.ok hbetween
  · rw [if_neg hword, if_neg hword]
    rfl

theorem run_deleteLines (h : w.editor.Indexed) {k last : Nat}
    (hk : k < w.editor.lineList.length) (hle : k ≤ last)
    (hword : w.editor.lines.lineStart (last + 1) ≤ maxOffset) :
    ∃ t : PieceTable, t.WellFormed ∧
      splitLines t.toBytes = w.editor.lineList.take k ++ w.editor.lineList.drop last ∧
      (deleteLines (k + 1) last).run w = .ok () (w.withTable t) := by
  have hmono := LineIndex.lineStart_mono w.editor.bytes hle
  have hfront := LineIndex.take_lineStart_of_lt hk
  have hback := LineIndex.splitLines_drop_lineStart w.editor.bytes last
  have hend := h.lineStart_le_length (last + 1)
  rw [← h.lines_eq] at hmono hfront hback
  have hsum : w.editor.lines.lineStart (k + 1) +
      (w.editor.lines.lineStart (last + 1) - w.editor.lines.lineStart (k + 1)) =
      w.editor.lines.lineStart (last + 1) := by omega
  obtain ⟨t, hdelete, ht, hbytes⟩ := PieceTable.exists_delete_eq_ok h.wellFormed
    (Nat.le_trans (Nat.le_of_eq hsum) hword) (Nat.le_trans (Nat.le_of_eq hsum) hend)
  refine ⟨t, ht, ?_, ?_⟩
  · change t.toBytes = w.editor.bytes.take _ ++ w.editor.bytes.drop _ at hbytes
    rw [hbytes, hsum, hfront, splitLines_ofLines_append (newline_notMem_of_mem_take _ k), hback]
    rfl
  · rw [deleteLines, EStateM.run_bind, run_ask, lineSpan_eq h hle]
    simp only [EStateM.run_bind, run_changeText, Span.length, hdelete]
    rfl

theorem run_deleteLines_overflow (h : w.editor.Indexed) {k last : Nat} (hle : k ≤ last)
    (hword : maxOffset < w.editor.lines.lineStart (last + 1)) :
    (deleteLines (k + 1) last).run w = .error (.text .overflow) w := by
  have hmono := LineIndex.lineStart_mono w.editor.bytes hle
  rw [← h.lines_eq] at hmono
  have hdelete : w.editor.table.delete (w.editor.lines.lineStart (k + 1))
      (w.editor.lines.lineStart (last + 1) - w.editor.lines.lineStart (k + 1)) =
      .error .overflow :=
    PieceTable.delete_eq_error_iff.mpr
      (PieceTable.checkRange_eq_error_iff.mpr (.inl ⟨by omega, rfl⟩))
  rw [deleteLines, EStateM.run_bind, run_ask, lineSpan_eq h hle]
  simp only [EStateM.run_bind, run_changeText, Span.length, hdelete]

/-! ## Joining -/

private theorem range'_succ_reverse (first count : Nat) :
    (List.range' first (count + 1)).reverse =
      (first + count) :: (List.range' first count).reverse := by
  rw [List.range'_1_concat, List.reverse_concat]

private theorem take_succ_of_getElem? {lines : List Bytes} {i : Nat} {line : Bytes}
    (h : lines[i]? = some line) : lines.take (i + 1) = lines.take i ++ [line] := by
  rw [List.take_add_one, h, Option.toList_some]

private theorem cut_one (front rest : Bytes) (b : UInt8) :
    (front ++ b :: rest).take front.length ++ (front ++ b :: rest).drop (front.length + 1) =
      front ++ rest := by
  rw [List.take_left, ← List.drop_drop, List.drop_left, List.drop_one, List.tail_cons]

/-- Newlines are removed from the last line on, so the offsets of the old index
stay right; `rest` is what the removals already made of the end of the text. -/
private theorem run_dropNewlines {bytes rest : Bytes} (k count : Nat)
    (hlines : w.editor.lines = .ofBytes bytes) (hwell : w.editor.table.WellFormed)
    (htext : w.editor.table.toBytes = ofLines ((splitLines bytes).take (k + count)) ++ rest)
    (hcount : k + count ≤ (splitLines bytes).length)
    (hword : 0 < count → (ofLines ((splitLines bytes).take (k + count))).length ≤ maxOffset) :
    ∃ t : PieceTable, t.WellFormed ∧
      t.toBytes = ofLines ((splitLines bytes).take k) ++
        (((splitLines bytes).take (k + count)).drop k).flatten ++ rest ∧
      (dropNewlines (List.range' (k + 1) count).reverse).run w =
        .ok () { w with editor := { w.editor with table := t } } := by
  induction count generalizing w rest with
  | zero =>
    refine ⟨w.editor.table, hwell, ?_, rfl⟩
    rw [htext, Nat.add_zero, List.drop_eq_nil_of_le (List.length_take_le _ _)]
    simp
  | succ count ih =>
    obtain ⟨line, hline⟩ : ∃ line, (splitLines bytes)[k + count]? = some line :=
      ⟨_, List.getElem?_eq_getElem (by omega)⟩
    have htake := take_succ_of_getElem? hline
    have hword := hword (Nat.succ_pos count)
    have hrange : w.editor.lines.lineRange? (k + 1 + count) =
        some ⟨(ofLines ((splitLines bytes).take (k + count))).length,
          (ofLines ((splitLines bytes).take (k + count))).length + line.length⟩ := by
      rw [hlines, show k + 1 + count = k + count + 1 by omega, LineIndex.lineRange?_ofBytes,
        hline, Option.map_some]
    rw [← Nat.add_assoc, htake, ofLines_append, ofLines_cons, ofLines_nil] at htext hword
    rw [List.append_assoc, List.append_assoc, List.cons_append, List.nil_append,
      ← List.append_assoc] at htext
    have hstop : (ofLines ((splitLines bytes).take (k + count))).length + line.length + 1 ≤
        maxOffset := by
      rw [List.length_append, List.length_append] at hword
      exact hword
    have hinside : (ofLines ((splitLines bytes).take (k + count))).length + line.length + 1 ≤
        w.editor.table.toBytes.length := by
      rw [htext, List.length_append, List.length_append, List.length_cons]
      omega
    obtain ⟨t, hdelete, ht, hbytes⟩ := PieceTable.exists_delete_eq_ok hwell hstop hinside
    rw [htext, ← List.length_append, cut_one, List.append_assoc] at hbytes
    obtain ⟨u, hu, hutext, hrun⟩ := ih (w := { w with editor := { w.editor with table := t } })
      hlines ht hbytes (by omega) (by intro; omega)
    refine ⟨u, hu, ?_, ?_⟩
    · have hfront : k ≤ ((splitLines bytes).take (k + count)).length := by
        rw [List.length_take]
        omega
      rw [hutext, ← Nat.add_assoc, htake, List.drop_append_of_le_length hfront]
      simp
    · rw [range'_succ_reverse, dropNewlines]
      simp only [EStateM.run_bind, run_ask, hrange, run_changeText, hdelete]
      exact hrun

private theorem run_dropNewlines_overflow {bytes : Bytes} (k count : Nat)
    (hlines : w.editor.lines = .ofBytes bytes) (hcount : k + count < (splitLines bytes).length)
    (hword : maxOffset < (ofLines ((splitLines bytes).take (k + count + 1))).length) :
    (dropNewlines (List.range' (k + 1) (count + 1)).reverse).run w =
      .error (.text .overflow) w := by
  obtain ⟨line, hline⟩ : ∃ line, (splitLines bytes)[k + count]? = some line :=
    ⟨_, List.getElem?_eq_getElem hcount⟩
  have hrange := LineIndex.lineRange?_ofBytes bytes (k + count)
  rw [hline, Option.map_some, ← hlines] at hrange
  rw [take_succ_of_getElem? hline, ofLines_append, ofLines_cons, ofLines_nil,
    List.length_append, List.length_append] at hword
  have hfault : w.editor.table.checkRange
      ((ofLines ((splitLines bytes).take (k + count))).length + line.length) 1 =
        .error .overflow :=
    PieceTable.checkRange_eq_error_iff.mpr (.inl ⟨hword, rfl⟩)
  have hdelete := PieceTable.delete_eq_error_iff.mpr hfault
  rw [range'_succ_reverse, dropNewlines, show k + 1 + count = k + count + 1 by omega]
  simp only [EStateM.run_bind, run_ask, hrange, run_changeText, hdelete]

/-- Joined lines become one line, which holds their contents one after the other. -/
theorem run_joinLines (h : w.editor.Indexed) {k j : Nat} (hle : k ≤ j)
    (hj : j < w.editor.lineList.length)
    (hword : k < j → w.editor.lines.lineStart (j + 1) ≤ maxOffset) :
    ∃ t : PieceTable, t.WellFormed ∧
      splitLines t.toBytes = w.editor.lineList.take k ++
        [((w.editor.lineList.take (j + 1)).drop k).flatten] ++ w.editor.lineList.drop (j + 1) ∧
      (joinLines (k + 1) (j + 1)).run w = .ok () (w.withTable t) := by
  have hstart := LineIndex.lineStart_of_lt hj
  have hfront := LineIndex.take_lineStart_of_lt hj
  have hback := LineIndex.splitLines_drop_lineStart w.editor.bytes j
  rw [← h.lines_eq] at hstart hfront hback
  have htext := List.take_append_drop (w.editor.lines.lineStart (j + 1)) w.editor.bytes
  rw [hfront] at htext
  obtain ⟨count, rfl⟩ := Nat.exists_eq_add_of_le hle
  have hcount : k + count + 1 - (k + 1) = count := by omega
  obtain ⟨t, ht, hbytes, hrun⟩ := run_dropNewlines k count h.lines_eq h.wellFormed htext.symm
    (Nat.le_of_lt hj) (by rw [← hstart]; omega)
  refine ⟨t, ht, ?_, ?_⟩
  · obtain ⟨line, hline⟩ : ∃ line, w.editor.lineList[k + count]? = some line :=
      ⟨_, List.getElem?_eq_getElem hj⟩
    have hnext : w.editor.lineList.drop (k + count) =
        line :: w.editor.lineList.drop (k + count + 1) := by
      rw [List.drop_eq_getElem_cons hj,
        Option.some.inj ((List.getElem?_eq_getElem hj).symm.trans hline)]
    have hfree : newline ∉ (((splitLines w.editor.bytes).take (k + count)).drop k).flatten := by
      intro hmem
      obtain ⟨l, hl, hmem⟩ := List.mem_flatten.mp hmem
      exact newline_notMem_of_mem_take _ _ l (List.mem_of_mem_drop hl) hmem
    have hfrontLength : k ≤ (w.editor.lineList.take (k + count)).length := by
      rw [List.length_take]
      omega
    rw [hbytes, List.append_assoc, splitLines_ofLines_append (newline_notMem_of_mem_take _ k),
      splitLines_append_cons hfree (hback.trans hnext), take_succ_of_getElem? hline,
      List.drop_append_of_le_length hfrontLength]
    simp [lineList]
  · rw [joinLines, hcount, EStateM.run_bind, hrun]
    rfl

theorem run_joinLines_overflow (h : w.editor.Indexed) {k j : Nat} (hlt : k < j)
    (hj : j < w.editor.lineList.length)
    (hword : maxOffset < w.editor.lines.lineStart (j + 1)) :
    (joinLines (k + 1) (j + 1)).run w = .error (.text .overflow) w := by
  have hstart := LineIndex.lineStart_of_lt hj
  rw [← h.lines_eq] at hstart
  obtain ⟨count, rfl⟩ := Nat.exists_eq_add_of_lt hlt
  have hcount : k + count + 1 + 1 - (k + 1) = count + 1 := by omega
  have hrun := run_dropNewlines_overflow (w := w) k count h.lines_eq (Nat.lt_of_succ_lt hj)
    (by omega)
  rw [joinLines, hcount, EStateM.run_bind, hrun]

end EditM

end Redline

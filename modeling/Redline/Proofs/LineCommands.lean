import Redline.Editor.Execute
import Redline.Proofs.LineEditor
import Redline.Proofs.Reachable
/-!
# Line commands are line edits

What the eight commands that edit lines do to the bytes of a document is what the
edits on a list of lines say.
-/

namespace Redline
/-! ## Where an action that succeeds has been -/

namespace EditM

variable {w w' : Workspace}

theorem exists_of_run_bind {x : EditM α} {f : α → EditM β} {b : β}
    (hrun : (x >>= f).run w = .ok b w') :
    ∃ a w₁, x.run w = .ok a w₁ ∧ (f a).run w₁ = .ok b w' := by
  rw [EStateM.run_bind] at hrun
  cases hx : x.run w with
  | ok a w₁ =>
    rw [hx] at hrun
    exact ⟨a, w₁, rfl, hrun⟩
  | error cause w₁ =>
    rw [hx] at hrun
    cases hrun

theorem exists_of_run_ask_bind {f : Editor → Except EditError α} {g : α → EditM β} {b : β}
    (hrun : (ask f >>= g).run w = .ok b w') :
    ∃ a, f w.editor = .ok a ∧ (g a).run w = .ok b w' := by
  obtain ⟨a, w₁, hask, hrun⟩ := exists_of_run_bind hrun
  rw [run_ask] at hask
  split at hask
  · cases hask
    exact ⟨a, ‹_›, hrun⟩
  · cases hask

theorem exists_of_run_askFiles_bind {f : FileTree → Except FileError α} {g : α → EditM β} {b : β}
    (hrun : (askFiles f >>= g).run w = .ok b w') :
    ∃ a, f w.files = .ok a ∧ (g a).run w = .ok b w' := by
  obtain ⟨a, w₁, hask, hrun⟩ := exists_of_run_bind hrun
  rw [run_askFiles] at hask
  split at hask
  · cases hask
    exact ⟨a, ‹_›, hrun⟩
  · cases hask

theorem exists_of_run_deleteLines (h : w.editor.Indexed) {k last : Nat}
    (hk : k < w.editor.lineList.length) (hle : k ≤ last)
    (hrun : (deleteLines (k + 1) last).run w = .ok () w') :
    ∃ t : PieceTable, t.WellFormed ∧
      splitLines t.toBytes = w.editor.lineList.take k ++ w.editor.lineList.drop last ∧
      w' = w.withTable t := by
  by_cases hword : w.editor.lines.lineStart (last + 1) ≤ maxOffset
  · obtain ⟨t, ht, hlines, hrun'⟩ := run_deleteLines h hk hle hword
    rw [hrun'] at hrun
    cases hrun
    exact ⟨t, ht, hlines, rfl⟩
  · rw [run_deleteLines_overflow h hle (Nat.lt_of_not_le hword)] at hrun
    cases hrun

theorem exists_of_run_insertBefore (h : w.editor.Indexed) (k : Nat) {text : Bytes}
    (htext : text.lacksFinalNewline = false)
    (hrun : (insertBefore (k + 1) text).run w = .ok () w') :
    ∃ t : PieceTable, t.WellFormed ∧
      splitLines t.toBytes =
        w.editor.lineList.take k ++ splitLines text ++ w.editor.lineList.drop k ∧
      w' = w.withTable t := by
  obtain ⟨t, ht, hlines, hrun'⟩ := run_insertBefore_lines h k htext
  rw [hrun'] at hrun
  cases hrun
  exact ⟨t, ht, hlines, rfl⟩

theorem exists_of_run_joinLines (h : w.editor.Indexed) {k last : Nat} (hlt : k < last)
    (hlast : last ≤ w.editor.lineList.length)
    (hrun : (joinLines (k + 1) last).run w = .ok () w') :
    ∃ t : PieceTable, t.WellFormed ∧
      splitLines t.toBytes = w.editor.lineList.take k ++
        [((w.editor.lineList.take last).drop k).flatten] ++ w.editor.lineList.drop last ∧
      w' = w.withTable t := by
  obtain ⟨j, rfl⟩ := Nat.exists_eq_succ_of_ne_zero (Nat.ne_zero_of_lt hlt)
  by_cases hword : k < j → w.editor.lines.lineStart (j + 1) ≤ maxOffset
  · obtain ⟨t, ht, hlines, hrun'⟩ := run_joinLines h (Nat.le_of_lt_succ hlt) hlast hword
    rw [hrun'] at hrun
    cases hrun
    exact ⟨t, ht, hlines, rfl⟩
  · rw [run_joinLines_overflow h (by omega) hlast (by omega)] at hrun
    cases hrun

end EditM

theorem Editor.eq_of_lineBytes {e : Editor} (h : e.Indexed) {k last : Nat} {bytes : Bytes}
    (hk : k < e.lineList.length) (hle : k ≤ last) (hbytes : e.lineBytes (k + 1) last = .ok bytes) :
    bytes = ofLines ((e.lineList.take last).drop k) := by
  rw [EditM.lineBytes_eq h hk hle] at hbytes
  split at hbytes
  · cases hbytes
    rfl
  · cases hbytes

/-! ## The edit that a command stands for -/

def Editor.view (e : Editor) : LineEditor :=
  ⟨e.lineList, e.currentLine⟩

namespace Workspace

/-- The line edit that a command asks for, if there is one and its addresses, its
range and its file are found. -/
def lineEdit? (w : Workspace) (c : Command) : Option LineEdit :=
  let e := w.editor
  let c := c.withDefaults
  let line := (e.resolve? c.first).toOption
  let range := (e.resolveRange c).toOption
  let destination := fun a => (e.resolveDestination a).toOption
  match c.verb with
  | .append text => line.map fun line => .append line (splitLines (.ofString text))
  | .insert text => line.map fun line => .insert line (splitLines (.ofString text))
  | .change text => range.map fun (first, last) => .change first last (splitLines (.ofString text))
  | .delete => range.map fun (first, last) => .delete first last
  | .join => range.map fun (first, last) => .join first last
  | .copy a => do
    let (first, last) ← range
    return .copy first last (← destination a)
  | .move a => do
    let (first, last) ← range
    return .move first last (← destination a)
  | .read file => do
    let line ← line
    let p ← file.or e.fileName
    return .read line (splitLines (← (w.files.read p).toOption))
  | _ => none

/-- The second workspace comes from the first by a line edit. -/
structure IsEdited (w : Workspace) (edit : LineEdit) (w' : Workspace) : Prop where
  indexed : w'.editor.Indexed
  view_eq : w'.editor.view = edit.apply w.editor.view

variable {w : Workspace} {t : PieceTable}

theorem isEdited_goTo (edit : LineEdit) (ht : t.WellFormed)
    (hlines : splitLines t.toBytes = edit.onLines w.editor.lineList) {line : Nat}
    (htarget : edit.target? = some line) :
    w.IsEdited edit { w.withTable t with editor := (w.withTable t).editor.atLine line } := by
  have hindexed := Editor.Indexed.withTable (e := w.editor) ht
  refine ⟨⟨hindexed.wellFormed, hindexed.lines_eq⟩, ?_⟩
  have hcount := hindexed.lineCount_eq
  change (w.editor.withTable t).lineCount = (splitLines t.toBytes).length at hcount
  change LineEditor.mk (splitLines t.toBytes) (min line (w.editor.withTable t).lineCount) = _
  rw [hcount, hlines, LineEdit.apply, htarget]
  rfl

theorem isEdited_stay (edit : LineEdit) (ht : t.WellFormed)
    (hlines : splitLines t.toBytes = edit.onLines w.editor.lineList)
    (htarget : edit.target? = none) : w.IsEdited edit (w.withTable t) := by
  refine ⟨Editor.Indexed.withTable ht, ?_⟩
  change LineEditor.mk (splitLines t.toBytes) w.editor.currentLine = _
  rw [hlines, LineEdit.apply, htarget]
  rfl

theorem atLine_namedIfUnnamed (e : Editor) (p : Path) (line : Nat) :
    (e.namedIfUnnamed p).atLine line = (e.atLine line).namedIfUnnamed p := by
  unfold Editor.namedIfUnnamed
  cases hname : e.fileName with
  | none => simp [Editor.atLine, Editor.lineCount, Editor.named, hname]
  | some q => simp [Editor.atLine, Editor.lineCount, hname]

theorem IsEdited.namedIfUnnamed {edit : LineEdit} {w' : Workspace} (h : w.IsEdited edit w')
    (p : Path) : w.IsEdited edit { w' with editor := w'.editor.namedIfUnnamed p } := by
  refine ⟨h.indexed.namedIfUnnamed p, ?_⟩
  rw [← h.view_eq]
  unfold Editor.namedIfUnnamed
  split
  · rfl
  · rfl

end Workspace

/-! ## The commands -/

namespace EditM

open Workspace (isEdited_goTo isEdited_stay IsEdited)

variable {w w' : Workspace} {c : Command}

private theorem exists_of_onRange {f : Nat × Nat → EditM α} {a : α} (h : w.editor.Indexed)
    (hrun : (ask (·.resolveRange c) >>= f).run w = .ok a w') :
    ∃ k last, w.editor.resolveRange c = .ok (k + 1, last) ∧ k < last ∧
      last ≤ w.editor.lineList.length ∧ (f (k + 1, last)).run w = .ok a w' := by
  obtain ⟨⟨first, last⟩, hrange, hrun⟩ := exists_of_run_ask_bind hrun
  obtain ⟨k, rfl, hlt, hle⟩ := Editor.exists_of_resolveRange hrange
  rw [h.lineCount_eq] at hle
  exact ⟨k, last, hrange, hlt, hle, hrun⟩

theorem isEdited_append (h : w.editor.Indexed) {text : String}
    (htext : (Bytes.ofString text).lacksFinalNewline = false)
    (hrun : (append c text).run w = .ok () w') :
    ∃ line, w.editor.resolve? c.first = .ok line ∧
      w.IsEdited (.append line (splitLines (.ofString text))) w' := by
  obtain ⟨line, hline, hrun⟩ := exists_of_run_ask_bind hrun
  obtain ⟨_, w₁, hinsert, hgo⟩ := exists_of_run_bind hrun
  obtain ⟨t, ht, hlines, rfl⟩ := exists_of_run_insertBefore h line htext hinsert
  cases hgo
  refine ⟨line, hline, isEdited_goTo (.append ..) ht hlines ?_⟩
  rw [LineEdit.target?, countNewlines_eq_length_splitLines htext]

theorem isEdited_insert (h : w.editor.Indexed) {text : String}
    (htext : (Bytes.ofString text).lacksFinalNewline = false)
    (hrun : (insert c text).run w = .ok () w') :
    ∃ line, w.editor.resolve? c.first = .ok line ∧
      w.IsEdited (.insert line (splitLines (.ofString text))) w' := by
  obtain ⟨line, hline, hinsert⟩ := exists_of_run_ask_bind hrun
  rw [show max line 1 = max line 1 - 1 + 1 by omega] at hinsert
  obtain ⟨t, ht, hlines, rfl⟩ := exists_of_run_insertBefore h _ htext hinsert
  exact ⟨line, hline, isEdited_stay (.insert ..) ht hlines rfl⟩

theorem isEdited_change (h : w.editor.Indexed) {text : String}
    (htext : (Bytes.ofString text).lacksFinalNewline = false)
    (hrun : (change c text).run w = .ok () w') :
    ∃ first last, w.editor.resolveRange c = .ok (first, last) ∧
      w.IsEdited (.change first last (splitLines (.ofString text))) w' := by
  obtain ⟨k, last, hrange, hlt, hle, hrun⟩ := exists_of_onRange h hrun
  obtain ⟨_, w₁, hdelete, hrun⟩ := exists_of_run_bind hrun
  obtain ⟨t, ht, hkept, rfl⟩ := exists_of_run_deleteLines h (by omega) (by omega) hdelete
  obtain ⟨_, w₂, hinsert, hgo⟩ := exists_of_run_bind hrun
  obtain ⟨u, hu, hlines, rfl⟩ :=
    exists_of_run_insertBefore (Editor.Indexed.withTable ht) k htext hinsert
  cases hgo
  refine ⟨k + 1, last, hrange, isEdited_goTo (w := w) (.change ..) hu ?_ ?_⟩
  · rw [hlines]
    change (splitLines t.toBytes).take k ++ _ ++ (splitLines t.toBytes).drop k = _
    rw [hkept]
    rfl
  · rw [LineEdit.target?, countNewlines_eq_length_splitLines htext]

theorem isEdited_delete (h : w.editor.Indexed) (hrun : (delete c).run w = .ok () w') :
    ∃ first last, w.editor.resolveRange c = .ok (first, last) ∧
      w.IsEdited (.delete first last) w' := by
  obtain ⟨k, last, hrange, hlt, hle, hrun⟩ := exists_of_onRange h hrun
  obtain ⟨_, w₁, hdelete, hgo⟩ := exists_of_run_bind hrun
  obtain ⟨t, ht, hlines, rfl⟩ := exists_of_run_deleteLines h (by omega) (by omega) hdelete
  cases hgo
  exact ⟨k + 1, last, hrange, isEdited_goTo (.delete (k + 1) last) ht hlines rfl⟩

theorem isEdited_join (h : w.editor.Indexed) (hrun : (join c).run w = .ok () w') :
    ∃ first last, w.editor.resolveRange c = .ok (first, last) ∧
      w.IsEdited (.join first last) w' := by
  obtain ⟨k, last, hrange, hlt, hle, hrun⟩ := exists_of_onRange h hrun
  obtain ⟨_, w₁, hjoin, hgo⟩ := exists_of_run_bind hrun
  obtain ⟨t, ht, hlines, rfl⟩ := exists_of_run_joinLines h hlt hle hjoin
  cases hgo
  refine ⟨k + 1, last, hrange, isEdited_goTo (.join ..) ht ?_ rfl⟩
  rw [LineEdit.onLines, LineEdit.insertBehind_without (Nat.succ_pos k) _ hle hlt]
  exact hlines

private theorem exists_of_run_insertBetween {k last : Nat} {text : Bytes}
    (destination : Nat) (htext : text = ofLines ((w.editor.lineList.take last).drop k))
    {w₀ : Workspace} (h₀ : w₀.editor.Indexed)
    (hrun : (insertBefore (destination + 1) text).run w₀ = .ok () w') :
    ∃ t : PieceTable, t.WellFormed ∧
      splitLines t.toBytes = LineEdit.insertBehind destination
        (LineEdit.between (k + 1) last w.editor.lineList) w₀.editor.lineList ∧
      w' = w₀.withTable t := by
  have hsplit : splitLines text = LineEdit.between (k + 1) last w.editor.lineList := by
    rw [htext]
    exact splitLines_ofLines fun line hline =>
      newline_notMem_of_mem_take _ _ line (List.mem_of_mem_drop hline)
  rw [← hsplit]
  rw [htext] at hrun ⊢
  exact exists_of_run_insertBefore h₀ destination (lacksFinalNewline_ofLines _) hrun

theorem isEdited_copy (h : w.editor.Indexed) {a : Option Address}
    (hrun : (copy c a).run w = .ok () w') :
    ∃ first last line, w.editor.resolveRange c = .ok (first, last) ∧
      w.editor.resolveDestination a = .ok line ∧ w.IsEdited (.copy first last line) w' := by
  obtain ⟨k, last, hrange, hlt, hle, hrun⟩ := exists_of_onRange h hrun
  obtain ⟨line, hline, hrun⟩ := exists_of_run_ask_bind hrun
  obtain ⟨bytes, hbytes, hrun⟩ := exists_of_run_ask_bind hrun
  obtain ⟨_, w₁, hinsert, hgo⟩ := exists_of_run_bind hrun
  have hbytes := Editor.eq_of_lineBytes h (by omega) (by omega) hbytes
  obtain ⟨t, ht, hlines, rfl⟩ := exists_of_run_insertBetween line hbytes h hinsert
  cases hgo
  exact ⟨k + 1, last, line, hrange, hline, isEdited_goTo (.copy ..) ht hlines rfl⟩

/-- Behind themselves, the lines are first put in their new place and then removed
from the old one; the other way round in front. -/
theorem isEdited_move (h : w.editor.Indexed) {a : Option Address}
    (hrun : (move c a).run w = .ok () w') :
    ∃ first last line, w.editor.resolveRange c = .ok (first, last) ∧
      w.editor.resolveDestination a = .ok line ∧ w.IsEdited (.move first last line) w' := by
  rw [move_eq] at hrun
  obtain ⟨k, last, hrange, hlt, hle, hrun⟩ := exists_of_onRange h hrun
  obtain ⟨line, hline, hrun⟩ := exists_of_run_ask_bind hrun
  have hin := Editor.resolve?_le (Editor.resolveDestination_eq_ok_iff.mp hline)
  rw [h.lineCount_eq] at hin
  split at hrun
  · cases hrun
  obtain ⟨bytes, hbytes, hrun⟩ := exists_of_run_ask_bind hrun
  have hbytes := Editor.eq_of_lineBytes h (by omega) (by omega) hbytes
  refine ⟨k + 1, last, line, hrange, hline, ?_⟩
  split at hrun
  · obtain ⟨_, w₁, hinsert, hrun⟩ := exists_of_run_bind hrun
    obtain ⟨t, ht, hmore, rfl⟩ := exists_of_run_insertBetween line hbytes h hinsert
    have hstill : k < (splitLines t.toBytes).length := by
      rw [hmore, LineEdit.length_insertBehind]
      omega
    obtain ⟨_, w₂, hdelete, hgo⟩ := exists_of_run_bind hrun
    obtain ⟨u, hu, hlines, rfl⟩ :=
      exists_of_run_deleteLines (Editor.Indexed.withTable ht) hstill (by omega) hdelete
    cases hgo
    refine isEdited_goTo (w := w) (.move ..) hu ?_ ?_
    · rw [hlines, LineEdit.onLines, LineEdit.numberWithout, if_pos ‹_›,
        ← LineEdit.without_insertBehind (Nat.succ_pos k) hlt ‹_› hin, ← hmore]
      rfl
    · rw [LineEdit.target?, if_pos ‹_›]
  · obtain ⟨_, w₁, hdelete, hrun⟩ := exists_of_run_bind hrun
    obtain ⟨t, ht, hkept, rfl⟩ := exists_of_run_deleteLines h (by omega) (by omega) hdelete
    obtain ⟨_, w₂, hinsert, hgo⟩ := exists_of_run_bind hrun
    obtain ⟨u, hu, hlines, rfl⟩ :=
      exists_of_run_insertBetween line hbytes (Editor.Indexed.withTable ht) hinsert
    cases hgo
    refine isEdited_goTo (w := w) (.move ..) hu ?_ ?_
    · rw [hlines]
      change LineEdit.insertBehind _ _ (splitLines t.toBytes) = _
      rw [hkept, LineEdit.onLines, LineEdit.numberWithout, if_neg ‹_›]
      rfl
    · rw [LineEdit.target?, if_neg ‹_›]

theorem isEdited_read (h : w.editor.Indexed) {file : Option Path}
    (hrun : (read c file).run w = .ok () w') :
    ∃ line p bytes, w.editor.resolve? c.first = .ok line ∧ file.or w.editor.fileName = some p ∧
      w.files.read p = .ok bytes ∧ w.IsEdited (.read line (splitLines bytes)) w' := by
  obtain ⟨line, hline, hrun⟩ := exists_of_run_ask_bind hrun
  obtain ⟨p, hp, hrun⟩ := exists_of_run_ask_bind hrun
  obtain ⟨bytes, hbytes, hrun⟩ := exists_of_run_askFiles_bind hrun
  obtain ⟨_, w₁, hinsert, hrun⟩ := exists_of_run_bind hrun
  have htext := Bytes.lacksFinalNewline_terminated bytes
  obtain ⟨t, ht, hlines, rfl⟩ := exists_of_run_insertBefore h line htext hinsert
  rw [splitLines_terminated] at hlines
  have hadded : bytes.terminated.countNewlines = (splitLines bytes).length := by
    rw [countNewlines_eq_length_splitLines htext, splitLines_terminated]
  obtain ⟨_, w₂, hname, hrun⟩ := exists_of_run_bind hrun
  cases hname
  refine ⟨line, p, bytes, hline, ?_, hbytes, ?_⟩
  · cases file with
    | some q =>
      cases hp
      rfl
    | none =>
      cases hname : w.editor.fileName with
      | some q =>
        rw [hname] at hp
        cases hp
        rfl
      | none =>
        rw [hname] at hp
        cases hp
  · dsimp only at hrun
    rw [hadded] at hrun
    split at hrun
    · cases hrun
      have htarget : (LineEdit.read line (splitLines bytes)).target? =
          some (line + (splitLines bytes).length) := by
        rw [LineEdit.target?, if_neg (List.ne_nil_of_length_pos ‹_›)]
      change w.IsEdited _ { w.withTable t with
        editor := ((w.withTable t).editor.namedIfUnnamed p).atLine _ }
      rw [Workspace.atLine_namedIfUnnamed]
      exact (isEdited_goTo (w := w) (.read ..) ht hlines htarget).namedIfUnnamed p
    · cases hrun
      have htarget : (LineEdit.read line (splitLines bytes)).target? = none := by
        rw [LineEdit.target?, if_pos (List.eq_nil_of_length_eq_zero (by omega))]
      exact (isEdited_stay (w := w) (.read ..) ht hlines htarget).namedIfUnnamed p

/-! ## Where commands succeed -/

theorem exists_run_append (h : w.editor.Indexed) {text : String} {line : Nat}
    (hline : w.editor.resolve? c.first = .ok line)
    (htext : (Bytes.ofString text).lacksFinalNewline = false) :
    ∃ w', (append c text).run w = .ok () w' := by
  obtain ⟨t, -, -, hinsert⟩ := run_insertBefore_lines h line htext
  unfold append
  rw [EStateM.run_bind, run_ask, hline]
  dsimp only
  rw [EStateM.run_bind, hinsert]
  exact ⟨_, rfl⟩

theorem exists_run_change (h : w.editor.Indexed) {text : String} {k last : Nat}
    (hrange : w.editor.resolveRange c = .ok (k + 1, last)) (hlt : k < last)
    (hlast : last ≤ w.editor.lineList.length)
    (hword : w.editor.lines.lineStart (last + 1) ≤ maxOffset)
    (htext : (Bytes.ofString text).lacksFinalNewline = false) :
    ∃ w', (change c text).run w = .ok () w' := by
  obtain ⟨t, ht, -, hdelete⟩ := run_deleteLines h (by omega) (Nat.le_of_lt hlt) hword
  obtain ⟨u, -, -, hinsert⟩ :=
    run_insertBefore_lines (w := w.withTable t) (Editor.Indexed.withTable ht) k htext
  unfold change
  rw [EStateM.run_bind, run_ask, hrange]
  dsimp only
  rw [EStateM.run_bind, hdelete]
  dsimp only
  rw [EStateM.run_bind, hinsert]
  exact ⟨_, rfl⟩

theorem exists_run_delete (h : w.editor.Indexed) {k last : Nat}
    (hrange : w.editor.resolveRange c = .ok (k + 1, last)) (hlt : k < last)
    (hlast : last ≤ w.editor.lineList.length)
    (hword : w.editor.lines.lineStart (last + 1) ≤ maxOffset) :
    ∃ w', (delete c).run w = .ok () w' := by
  obtain ⟨t, -, -, hdelete⟩ := run_deleteLines h (by omega) (Nat.le_of_lt hlt) hword
  unfold delete
  rw [EStateM.run_bind, run_ask, hrange]
  dsimp only
  rw [EStateM.run_bind, hdelete]
  exact ⟨_, rfl⟩

end EditM

end Redline

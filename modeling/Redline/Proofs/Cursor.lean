import Redline.Proofs.LineRefinement
import Redline.Proofs.TextBytes
/-!
# The cursor

The current line never lies behind the last one.  It is zero only before a text
without lines, but for one case: text that is inserted into an empty document leaves
the cursor before it.
-/

namespace Redline

namespace Editor

/-- The current line is zero only if the document is empty. -/
def Grounded (e : Editor) : Prop :=
  e.currentLine = 0 → e.bytes = []

variable {e e' : Editor} {c : Command}

theorem Indexed.lineCount_eq_zero (h : e.Indexed) (hempty : e.bytes = []) : e.lineCount = 0 := by
  rw [h.lineCount_eq, lineList, hempty]
  rfl

theorem Follows.currentLine_le (h : e.Follows c e') (hle : e.currentLine ≤ e.lineCount) :
    e'.currentLine ≤ e'.lineCount := by
  cases h.cursor with
  | placed hin hzero => exact hin
  | kept hline hcount hempty =>
    rw [hline]
    exact Nat.le_trans hle hcount
  | begun hverb hempty hline hbytes =>
    rw [hline]
    omega

theorem Follows.grounded (h : e.Follows c e') (he : e.Indexed)
    (htext : (∃ text, c.verb = .insert text) → e.bytes ≠ []) (hgrounded : e.Grounded) :
    e'.Grounded := by
  intro hzero
  cases h.cursor with
  | placed hle hplaced => exact h.indexed.bytes_eq_nil (hplaced hzero)
  | kept hline hcount hempty =>
    have hbytes := hgrounded (hline.symm.trans hzero)
    exact h.indexed.bytes_eq_nil (hempty (he.lineCount_eq_zero hbytes))
  | begun hverb hempty hline hbytes =>
    exact absurd (he.bytes_eq_nil hempty) (htext ⟨_, hverb⟩)

end Editor

namespace Workspace

variable {w : Workspace}

theorem Reachable.currentLine_le (h : w.Reachable) :
    w.editor.currentLine ≤ w.editor.lineCount := by
  induction h with
  | empty files => exact Nat.le_refl 0
  | ofText text files => exact Nat.le_refl _
  | execute c h ih => exact (EditM.follows_execute h.indexed c).currentLine_le ih
  | edit p h ih => exact (EditM.follows_edit h.indexed p ⟨.edit none, none, none⟩).currentLine_le ih
  | write p first last h ih => exact (EditM.follows_write h.indexed p first last).currentLine_le ih
  | rename p _ ih => exact ih
  | recordError cause _ ih => exact ih
  | changeFiles files _ ih => exact ih

/-- The index is that of the document, the pieces show what is stored, and the cursor
is in the text; and only an insertion into an empty document can leave the cursor
before a text. -/
theorem Reachable.index_and_cursor (h : w.Reachable) :
    w.editor.lines = .ofBytes w.editor.bytes ∧ w.editor.table.WellFormed ∧
      w.editor.currentLine ≤ w.editor.lineCount ∧
      ∀ c : Command, ((∃ text, c.verb = .insert text) → w.editor.bytes ≠ []) →
        w.editor.Grounded → (EditM.after (EditM.execute c) w).editor.Grounded := by
  refine ⟨h.indexed.lines_eq, h.indexed.wellFormed, h.currentLine_le, fun c htext hgrounded => ?_⟩
  refine (EditM.follows_execute h.indexed c).grounded h.indexed ?_ hgrounded
  rw [c.withDefaults_verb]
  exact htext

theorem Reachable.index_and_cursor_delete :
    (EditM.after (EditM.execute ⟨.delete, some (.line 1), some .last⟩)
      ⟨.ofText "a\nb", .empty "/"⟩).editor.Grounded ∧
    (EditM.after (EditM.execute ⟨.delete, some (.line 1), some .last⟩)
      ⟨.ofText "a\nb", .empty "/"⟩).editor.currentLine = 0 := by
  obtain ⟨-, -, -, hgrounded⟩ := index_and_cursor (.ofText "a\nb" (.empty "/"))
  exact ⟨hgrounded ⟨.delete, some (.line 1), some .last⟩ nofun nofun, rfl⟩

/-- What an insertion into an empty document leaves the cursor before is its text. -/
theorem Reachable.grounded_insert_iff {c : Command} {text : String} {shown : Bytes}
    {w' : Workspace} (h : w.Reachable) (hempty : w.editor.bytes = [])
    (hverb : c.verb = .insert text) (hrun : (EditM.execute c).run w = .ok shown w') :
    w'.editor.Grounded ↔ text = "" := by
  have hcount := h.indexed.lineCount_eq_zero hempty
  have hzero : w.editor.currentLine = 0 := by
    have hle := h.currentLine_le
    omega
  rw [EditM.run_execute_eq_ok_iff] at hrun
  unfold EditM.perform at hrun
  rw [c.withDefaults_verb, hverb] at hrun
  obtain ⟨hdone, -⟩ := EditM.eq_ok_of_run_silently hrun
  obtain ⟨line, hline, hinsert⟩ := EditM.exists_of_run_ask_bind hdone
  obtain ⟨t, ht, -, hbytes, hrun⟩ :=
    EditM.exists_insertBefore h.indexed (line - 1) (.ofString text)
  rw [show max line 1 = line - 1 + 1 by omega, hrun] at hinsert
  cases hinsert
  change (w.editor.currentLine = 0 → t.toBytes = []) ↔ text = ""
  rw [hbytes hempty, Bytes.ofString_eq_nil_iff]
  exact ⟨fun himp => himp hzero, fun htext _ => htext⟩

end Workspace

end Redline

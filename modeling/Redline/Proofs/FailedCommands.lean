import Redline.Proofs.Reachable
import Redline.Proofs.Replacement
/-!
# Commands that fail

A failure is remembered, and nothing else changes but for a stale scratch file that a
failing write may have cleared away.  What the editor reads and removes always lies
inside of the document, so that no failure comes from the text itself.
-/

namespace Redline

namespace EditM

variable {w w' : Workspace} {c : Command} {cause : EditError}

theorem exists_outcome_of_execute_error (h : w.editor.Indexed)
    (hrun : (execute c).run w = .error cause w') :
    ∃ w₁, w.Outcome c.withDefaults (.error cause w₁ : EStateM.Result _ _ Bytes) ∧
      w' = { w₁ with editor := w₁.editor.recordError cause } := by
  have houtcome := outcome_perform h c.withDefaults c.first.isSome
  rw [run_execute] at hrun
  cases hperform : (perform c.withDefaults c.first.isSome).run w with
  | ok shown w₁ =>
    rw [hperform] at hrun
    cases hrun
  | error cause₁ w₁ =>
    rw [hperform] at hrun houtcome
    cases hrun
    exact ⟨w₁, houtcome, rfl⟩

/-- While the text fits its offsets, what fails was refused or fails for a file. -/
theorem refusal_or_file_of_execute_error (h : w.editor.Indexed)
    (hrun : (execute c).run w = .error cause w') (hfits : w'.editor.bytes.length ≤ maxOffset) :
    w.editor.Refusal c.withDefaults cause ∨ ∃ fault, cause = .file fault := by
  obtain ⟨w₁, houtcome, rfl⟩ := exists_outcome_of_execute_error h hrun
  cases houtcome with
  | refused hrefusal => exact .inl hrefusal
  | tooLong hlong _ => exact absurd hfits (Nat.not_le.mpr hlong)
  | unwritten _ _ _ => exact .inr ⟨_, rfl⟩
  | unopened _ _ => exact .inr ⟨_, rfl⟩

end EditM

namespace Workspace.Reachable

variable {w w' : Workspace} {c : Command} {cause : EditError}

/-- A command that fails changes nothing but the remembered failure, and a failing write
may clear a stale scratch file away. -/
theorem execute_error_unchanged (h : w.Reachable) (hreopens : w.files.Reopens)
    (hrun : (EditM.execute c).run w = .error cause w')
    (hfits : w'.editor.bytes.length ≤ maxOffset) :
    w'.editor = { w.editor with lastError := some cause.message } ∧
      ∀ l, w'.files.node? l = w.files.node? l ∨
        ∃ file p, c.verb = .write file ∧ file.or w.editor.fileName = some p ∧
          w.files.LostStale p w'.files l := by
  obtain ⟨w₁, houtcome, rfl⟩ := EditM.exists_outcome_of_execute_error h.indexed hrun
  cases houtcome with
  | refused _ => exact ⟨rfl, fun l => .inl rfl⟩
  | tooLong hlong _ => exact absurd hfits (Nat.not_le.mpr hlong)
  | unwritten hverb hpath hreplace =>
    refine ⟨rfl, fun l => ?_⟩
    rw [c.withDefaults_verb] at hverb
    apply (FileTree.node?_of_replace_error hreplace l).imp_right
    intro hlost
    exact ⟨_, _, hverb, hpath, hlost⟩
  | unopened hreplace hopen =>
    obtain ⟨source, hsource⟩ := hreopens _ _ _ _ hreplace
    rw [hsource] at hopen
    cases hopen

def staleBesideDirectory : FileTree :=
  ⟨"/", [(⟨["d"]⟩, .directory directoryMode),
    (⟨["d.swp"]⟩, .file (.ofContent [] ordinaryMode))]⟩

theorem execute_error_unchanged_directory :
    ∃ w', (EditM.execute ⟨.write (some ⟨"d"⟩), none, none⟩).run
        ⟨.ofText "a\n", staleBesideDirectory⟩ = .error (.file .isDirectory) w' ∧
      w'.files.node? ⟨["d.swp"]⟩ = none ∧
      w'.editor = { Editor.ofText "a\n" with
        lastError := some (EditError.file .isDirectory).message } := by
  obtain ⟨w', hrun, hgone, hfits⟩ : ∃ w',
      (EditM.execute ⟨.write (some ⟨"d"⟩), none, none⟩).run
        ⟨.ofText "a\n", staleBesideDirectory⟩ = .error (.file .isDirectory) w' ∧
      w'.files.node? ⟨["d.swp"]⟩ = none ∧
      w'.editor.bytes.length ≤ maxOffset := ⟨_, rfl, by decide, by decide⟩
  have hunchanged := execute_error_unchanged (.ofText "a\n" staleBesideDirectory)
    (FileTree.reopens_of_entries (by decide)) hrun hfits
  exact ⟨w', hrun, hgone, hunchanged.1⟩

/-- No command fails for its text: the offsets of lines are in order and inside of the
document, every line has its range, and a range of lines that resolves is one of lines
that exist. -/
theorem execute_never_faults (h : w.Reachable) (c : Command)
    (hfits : (EditM.after (EditM.execute c) w).editor.bytes.length ≤ maxOffset) :
    (∀ fault w', (EditM.execute c).run w ≠ .error (.text fault) w') ∧
      (∀ first last, first ≤ last + 1 →
        w.editor.lines.lineStart first ≤ w.editor.lines.lineEnd last ∧
          w.editor.lines.lineEnd last ≤ w.editor.bytes.length) ∧
      (∀ line, 0 < line → line ≤ w.editor.lineCount →
        ∃ range, w.editor.lines.lineRange? line = some range ∧ range.start ≤ range.stop ∧
          range.stop ≤ w.editor.bytes.length) ∧
      ∀ first last, w.editor.resolveRange c.withDefaults = .ok (first, last) →
        0 < first ∧ first ≤ last ∧ last ≤ w.editor.lineCount ∧
          ∀ w', (EditM.execute c).run w ≠ .error .invalidAddress w' := by
  have hindexed := h.indexed
  have hfailure : ∀ cause w', (EditM.execute c).run w = .error cause w' →
      w.editor.Refusal c.withDefaults cause ∨ ∃ fault, cause = .file fault := by
    intro cause w' hrun
    unfold EditM.after at hfits
    rw [hrun] at hfits
    exact EditM.refusal_or_file_of_execute_error hindexed hrun hfits
  refine ⟨?_, ?_, ?_, ?_⟩
  · intro fault w' hrun
    obtain hrefusal | ⟨fault, hfile⟩ := hfailure _ _ hrun
    · exact hrefusal.ne_text fault rfl
    · cases hfile
  · intro first last hle
    refine ⟨?_, hindexed.lineStart_le_length (last + 1)⟩
    cases first with
    | zero => exact Nat.zero_le _
    | succ k =>
      rw [hindexed.lines_eq]
      exact LineIndex.lineStart_mono w.editor.bytes (Nat.le_of_succ_le_succ hle)
  · intro line hpos hle
    exact hindexed.exists_lineRange? hpos hle
  · intro first last hrange
    obtain ⟨-, hlast, hpos, hle⟩ := Editor.resolveRange_eq_ok_iff.mp hrange
    refine ⟨hpos, hle, Editor.resolve?_le hlast, fun w' hrun => ?_⟩
    obtain hrefusal | ⟨fault, hfile⟩ := hfailure _ _ hrun
    · exact hrefusal.unresolved rfl _ hrange
    · cases hfile

theorem execute_never_faults_move :
    ¬∃ fault w', (EditM.execute ⟨.move (some .last), some (.line 1), some (.line 1)⟩).run
      ⟨.ofText "a\nb", .empty "/"⟩ = .error (.text fault) w' := by
  rintro ⟨fault, w', hrun⟩
  exact (execute_never_faults (.ofText "a\nb" (.empty "/"))
    ⟨.move (some .last), some (.line 1), some (.line 1)⟩ (by decide)).1 fault w' hrun

end Workspace.Reachable

end Redline

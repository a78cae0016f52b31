import Redline.Proofs.CommandOutcomes
/-!
# Reachable workspaces

Whatever an editor goes through, its piece table stays well formed and its line
index that of the document.
-/

namespace Redline

namespace EditM

def after (x : EditM α) (w : Workspace) : Workspace :=
  match x.run w with
  | .ok _ w => w
  | .error _ w => w

end EditM

namespace Workspace

/-- What can come about from a new editor or one on a text, with any files, by
calls on the editor and by others who change the files. -/
inductive Reachable : Workspace → Prop where
  | empty (files : FileTree) : Reachable ⟨.empty, files⟩
  | ofText (text : String) (files : FileTree) : Reachable ⟨.ofText text, files⟩
  | execute (c : Command) {w : Workspace} (h : Reachable w) :
      Reachable (EditM.after (EditM.execute c) w)
  | edit (p : Path) {w : Workspace} (h : Reachable w) : Reachable (EditM.after (EditM.edit p) w)
  | write (p : Path) (first last : Nat) {w : Workspace} (h : Reachable w) :
      Reachable (EditM.after (EditM.write p first last) w)
  | rename (p : Path) {w : Workspace} (h : Reachable w) :
      Reachable { w with editor := w.editor.named p }
  | recordError (cause : EditError) {w : Workspace} (h : Reachable w) :
      Reachable { w with editor := w.editor.recordError cause }
  | changeFiles (files : FileTree) {w : Workspace} (h : Reachable w) : Reachable { w with files }

end Workspace

theorem Command.withDefaults_verb (c : Command) : c.withDefaults.verb = c.verb := by
  unfold withDefaults
  split
  · rfl
  · rfl

/-! ## What calls leave behind -/

theorem Workspace.Outcome.follows {w : Workspace} {c : Command} {x : EditM α}
    (houtcome : w.Outcome c (x.run w)) (h : w.editor.Indexed) :
    w.editor.Follows c (EditM.after x w).editor := by
  unfold EditM.after
  cases hrun : x.run w with
  | ok a w' =>
    rw [hrun] at houtcome
    cases houtcome with
    | done hfollows => exact hfollows
  | error cause w' =>
    rw [hrun] at houtcome
    cases houtcome with
    | refused _ => exact .refl h
    | tooLong _ hfollows => exact hfollows
    | unwritten _ _ _ => exact .refl h
    | unopened _ _ => exact (Editor.Follows.refl h).namedIfUnnamed _

namespace EditM

variable {w : Workspace}

theorem run_execute (c : Command) (w : Workspace) :
    (execute c).run w =
      match (perform c.withDefaults c.first.isSome).run w with
      | .ok shown w => .ok shown w
      | .error cause w => .error cause { w with editor := w.editor.recordError cause } :=
  rfl

theorem follows_execute (h : w.editor.Indexed) (c : Command) :
    w.editor.Follows c.withDefaults (after (execute c) w).editor := by
  have hfollows := (outcome_perform h c.withDefaults c.first.isSome).follows h
  unfold after at hfollows ⊢
  rw [run_execute]
  cases hrun : (perform c.withDefaults c.first.isSome).run w with
  | ok shown w' =>
    rw [hrun] at hfollows
    exact hfollows
  | error cause w' =>
    rw [hrun] at hfollows
    exact hfollows.recordError cause

theorem follows_edit (h : w.editor.Indexed) (p : Path) (c : Command) :
    w.editor.Follows c (after (edit p) w).editor :=
  (outcome_edit p).follows h

theorem follows_write (h : w.editor.Indexed) (p : Path) (first last : Nat) :
    w.editor.Follows ⟨.write (some p), none, none⟩ (after (write p first last) w).editor := by
  rcases run_write p first last w with ⟨whole, chunks, hrun⟩ | ⟨cause, -, -, hrun⟩
  · have hstore := outcome_store (c := ⟨.write (some p), none, none⟩) h rfl rfl whole chunks
    rw [← hrun] at hstore
    exact hstore.follows h
  · unfold after
    rw [hrun]
    exact .refl h

end EditM

theorem Workspace.Reachable.indexed {w : Workspace} (h : w.Reachable) : w.editor.Indexed := by
  induction h with
  | empty files => exact ⟨PieceTable.WellFormed.empty, rfl⟩
  | ofText text files => exact ⟨PieceTable.WellFormed.ofBytes _, rfl⟩
  | execute c _ ih => exact (EditM.follows_execute ih c).indexed
  | edit p _ ih => exact (EditM.follows_edit ih p ⟨.edit none, none, none⟩).indexed
  | write p first last _ ih => exact (EditM.follows_write ih p first last).indexed
  | rename p _ ih => exact ih.named p
  | recordError cause _ ih => exact ⟨ih.wellFormed, ih.lines_eq⟩
  | changeFiles files _ ih => exact ih

end Redline

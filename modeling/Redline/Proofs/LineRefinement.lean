import Redline.Proofs.LineCommands
/-!
# Commands refine the editor on lines

Carrying out a command that edits lines is the edit that it stands for; a move
may be refused for where it goes.
-/

namespace Redline

/-! ## Refusals -/

namespace EditM

variable {w w' : Workspace} {c : Command}

/-- The action fails, if at all, at a place in the text. -/
def FailsAsText (x : EditM α) : Prop :=
  ∀ (w w' : Workspace) (cause : EditError), x.run w = .error cause w' →
    ∃ fault, cause = .text fault

theorem failsAsText_bind {x : EditM α} {f : α → EditM β} (hx : FailsAsText x)
    (hf : ∀ a, FailsAsText (f a)) : FailsAsText (x >>= f) := by
  intro w w' cause hrun
  rw [EStateM.run_bind] at hrun
  cases hfirst : x.run w with
  | ok a w₁ =>
    rw [hfirst] at hrun
    exact hf a w₁ w' cause hrun
  | error cause₁ w₁ =>
    rw [hfirst] at hrun
    cases hrun
    exact hx w w' cause hfirst

theorem failsAsText_update (f : Editor → Editor) : FailsAsText (update f) := by
  intro w w' cause hrun
  cases hrun

theorem failsAsText_ask {f : Editor → Except EditError α}
    (hf : ∀ e cause, f e = .error cause → ∃ fault, cause = .text fault) : FailsAsText (ask f) := by
  intro w w' cause hrun
  rw [run_ask] at hrun
  cases hw : f w.editor with
  | ok a =>
    rw [hw] at hrun
    cases hrun
  | error cause₁ =>
    rw [hw] at hrun
    cases hrun
    exact hf w.editor cause hw

theorem failsAsText_changeText (f : PieceTable → Except PieceTable.Fault PieceTable) :
    FailsAsText (changeText f) := by
  intro w w' cause hrun
  rw [run_changeText] at hrun
  cases hw : f w.editor.table with
  | ok t =>
    rw [hw] at hrun
    cases hrun
  | error fault =>
    rw [hw] at hrun
    cases hrun
    exact ⟨fault, rfl⟩

private theorem text_of_lineSpan {e : Editor} {first last : Nat} {cause : EditError}
    (h : e.lineSpan first last = .error cause) : ∃ fault, cause = .text fault := by
  unfold Editor.lineSpan at h
  dsimp only at h
  split at h
  · cases h
    exact ⟨_, rfl⟩
  · cases h

private theorem text_of_lineBytes {e : Editor} {first last : Nat} {cause : EditError}
    (h : e.lineBytes first last = .error cause) : ∃ fault, cause = .text fault := by
  unfold Editor.lineBytes at h
  cases hspan : e.lineSpan first last with
  | error cause₁ =>
    rw [hspan] at h
    cases h
    exact text_of_lineSpan hspan
  | ok s =>
    rw [hspan] at h
    change (e.readSpan s >>= fun bytes => pure bytes.terminated) = _ at h
    unfold Editor.readSpan at h
    cases hread : e.table.read s.start s.length with
    | error fault =>
      rw [hread] at h
      cases h
      exact ⟨fault, rfl⟩
    | ok bytes =>
      rw [hread] at h
      cases h

theorem failsAsText_deleteLines (first last : Nat) : FailsAsText (deleteLines first last) := by
  refine failsAsText_bind (failsAsText_ask fun e cause => text_of_lineSpan) fun s => ?_
  exact failsAsText_bind (failsAsText_changeText _) fun _ => failsAsText_update _

theorem failsAsText_insertBefore (line : Nat) (text : Bytes) :
    FailsAsText (insertBefore line text) := by
  unfold insertBefore
  split
  · intro w w' cause hrun
    cases hrun
  · refine failsAsText_bind (failsAsText_ask fun e cause h => by cases h) fun lines => ?_
    dsimp only
    split
    · apply failsAsText_bind (failsAsText_changeText _)
      intro _
      exact failsAsText_bind (failsAsText_changeText _) fun _ => failsAsText_update _
    · exact failsAsText_bind (failsAsText_changeText _) fun _ => failsAsText_update _

theorem failsAsText_relocate (first last line : Nat) :
    FailsAsText (relocate first last line) := by
  refine failsAsText_bind (failsAsText_ask fun e cause => text_of_lineBytes) fun bytes => ?_
  split
  · apply failsAsText_bind (failsAsText_insertBefore _ _)
    intro _
    exact failsAsText_bind (failsAsText_deleteLines _ _) fun _ => failsAsText_update _
  · apply failsAsText_bind (failsAsText_deleteLines _ _)
    intro _
    exact failsAsText_bind (failsAsText_insertBefore _ _) fun _ => failsAsText_update _

theorem run_move_refused_iff {first last line : Nat} {a : Option Address}
    (hrange : w.editor.resolveRange c = .ok (first, last))
    (hline : w.editor.resolveDestination a = .ok line) :
    (∃ w', (move c a).run w = .error .invalidDestination w') ↔ first ≤ line ∧ line < last := by
  have hrun : (move c a).run w =
      (if first ≤ line ∧ line < last then throw .invalidDestination
        else relocate first last line : EditM Unit).run w := by
    rw [move_eq]
    simp only [EStateM.run_bind, run_ask, hrange, hline]
  rw [hrun]
  by_cases hinside : first ≤ line ∧ line < last
  · rw [if_pos hinside]
    exact ⟨fun _ => hinside, fun _ => ⟨w, rfl⟩⟩
  · rw [if_neg hinside]
    refine ⟨fun ⟨w', h⟩ => ?_, fun h => absurd h hinside⟩
    obtain ⟨fault, hfault⟩ := failsAsText_relocate first last line w w' _ h
    cases hfault

/-! ## Carrying out -/

theorem run_execute_eq_ok_iff {shown : Bytes} :
    (execute c).run w = .ok shown w' ↔
      (perform c.withDefaults c.first.isSome).run w = .ok shown w' := by
  rw [run_execute]
  cases (perform c.withDefaults c.first.isSome).run w with
  | ok shown' w₁ => exact Iff.rfl
  | error cause w₁ =>
    constructor
    · intro h
      cases h
    · intro h
      cases h

theorem run_execute_fails_iff {cause : EditError} :
    (∃ w', (execute c).run w = .error cause w') ↔
      ∃ w', (perform c.withDefaults c.first.isSome).run w = .error cause w' := by
  rw [run_execute]
  cases (perform c.withDefaults c.first.isSome).run w with
  | ok shown w₁ =>
    constructor
    · rintro ⟨w', h⟩
      cases h
    · rintro ⟨w', h⟩
      cases h
  | error cause₁ w₁ =>
    constructor
    · rintro ⟨w', h⟩
      cases h
      exact ⟨w₁, rfl⟩
    · rintro ⟨w', h⟩
      cases h
      exact ⟨_, rfl⟩

theorem run_silently_error_iff {x : EditM Unit} {cause : EditError} :
    (silently x).run w = .error cause w' ↔ x.run w = .error cause w' := by
  rw [silently, EStateM.run_bind]
  cases x.run w with
  | ok a w₁ =>
    constructor
    · intro h
      cases h
    · intro h
      cases h
  | error cause₁ w₁ =>
    constructor
    · intro h
      cases h
      rfl
    · intro h
      cases h
      rfl

theorem eq_ok_of_run_silently {x : EditM Unit} {shown : Bytes}
    (hrun : (silently x).run w = .ok shown w') : x.run w = .ok () w' ∧ shown = [] := by
  obtain ⟨_, w₁, hx, hdone⟩ := exists_of_run_bind hrun
  cases hdone
  exact ⟨hx, rfl⟩

end EditM

def Verb.EditsLines : Verb → Prop
  | .append text | .insert text | .change text => (Bytes.ofString text).lacksFinalNewline = false
  | .delete | .join | .copy _ | .move _ | .read _ => True
  | _ => False

theorem EditM.isEdited_execute {w w' : Workspace} (h : w.editor.Indexed) {c : Command}
    (hc : c.verb.EditsLines) {shown : Bytes} (hrun : (execute c).run w = .ok shown w') :
    shown = [] ∧ ∃ edit, w.lineEdit? c = some edit ∧ w.IsEdited edit w' := by
  rw [run_execute_eq_ok_iff] at hrun
  unfold perform at hrun
  rw [c.withDefaults_verb] at hrun
  unfold Workspace.lineEdit?
  dsimp only
  rw [c.withDefaults_verb]
  generalize c.withDefaults = d at hrun ⊢
  -- each verb has a lemma of its own; `hc` leaves out those that edit no lines
  cases hverb : c.verb with
  | append text =>
    rw [hverb] at hrun hc
    obtain ⟨hdone, rfl⟩ := eq_ok_of_run_silently hrun
    obtain ⟨line, hline, hedited⟩ := isEdited_append h hc hdone
    rw [hline]
    exact ⟨rfl, _, rfl, hedited⟩
  | insert text =>
    rw [hverb] at hrun hc
    obtain ⟨hdone, rfl⟩ := eq_ok_of_run_silently hrun
    obtain ⟨line, hline, hedited⟩ := isEdited_insert h hc hdone
    rw [hline]
    exact ⟨rfl, _, rfl, hedited⟩
  | change text =>
    rw [hverb] at hrun hc
    obtain ⟨hdone, rfl⟩ := eq_ok_of_run_silently hrun
    obtain ⟨first, last, hrange, hedited⟩ := isEdited_change h hc hdone
    rw [hrange]
    exact ⟨rfl, _, rfl, hedited⟩
  | delete =>
    rw [hverb] at hrun
    obtain ⟨hdone, rfl⟩ := eq_ok_of_run_silently hrun
    obtain ⟨first, last, hrange, hedited⟩ := isEdited_delete h hdone
    rw [hrange]
    exact ⟨rfl, _, rfl, hedited⟩
  | join =>
    rw [hverb] at hrun
    obtain ⟨hdone, rfl⟩ := eq_ok_of_run_silently hrun
    obtain ⟨first, last, hrange, hedited⟩ := isEdited_join h hdone
    rw [hrange]
    exact ⟨rfl, _, rfl, hedited⟩
  | copy a =>
    rw [hverb] at hrun
    obtain ⟨hdone, rfl⟩ := eq_ok_of_run_silently hrun
    obtain ⟨first, last, line, hrange, hline, hedited⟩ := isEdited_copy h hdone
    refine ⟨rfl, _, ?_, hedited⟩
    dsimp only
    rw [hrange, hline]
    rfl
  | move a =>
    rw [hverb] at hrun
    obtain ⟨hdone, rfl⟩ := eq_ok_of_run_silently hrun
    obtain ⟨first, last, line, hrange, hline, hedited⟩ := isEdited_move h hdone
    refine ⟨rfl, _, ?_, hedited⟩
    dsimp only
    rw [hrange, hline]
    rfl
  | read file =>
    rw [hverb] at hrun
    obtain ⟨hdone, rfl⟩ := eq_ok_of_run_silently hrun
    obtain ⟨line, p, bytes, hline, hp, hbytes, hedited⟩ := isEdited_read h hdone
    refine ⟨rfl, _, ?_, hedited⟩
    dsimp only
    rw [hline, hp]
    change ((w.files.read p).toOption >>= fun bytes => some (LineEdit.read line _)) = _
    rw [hbytes]
    rfl
  | _ =>
    rw [hverb] at hc
    cases hc

namespace Workspace.Reachable

/-- Commands that edit lines refine the editor on a list of lines; a move is refused
exactly inside of what it moves, and otherwise keeps every line. -/
theorem execute_refines_lineEditor {w : Workspace} (h : w.Reachable) {c : Command}
    (hc : c.verb.EditsLines) :
    (∀ shown w', (EditM.execute c).run w = .ok shown w' →
      shown = [] ∧
        ∃ edit, w.lineEdit? c = some edit ∧ w'.editor.view = edit.apply w.editor.view) ∧
    (∀ a first last line, c.verb = .move a →
      w.editor.resolveRange c.withDefaults = .ok (first, last) →
      w.editor.resolveDestination a = .ok line →
      ((∃ w', (EditM.execute c).run w = .error .invalidDestination w') ↔
        first ≤ line ∧ line < last)) ∧
    (∀ a shown w', c.verb = .move a → (EditM.execute c).run w = .ok shown w' →
      w'.editor.lineList.Perm w.editor.lineList) := by
  have hmove : ∀ a, c.verb = .move a → EditM.perform c.withDefaults c.first.isSome =
      EditM.silently (EditM.move c.withDefaults a) := by
    intro a hverb
    unfold EditM.perform
    rw [c.withDefaults_verb, hverb]
  refine ⟨?_, ?_, ?_⟩
  · intro shown w' hrun
    obtain ⟨hshown, edit, hedit, hedited⟩ := EditM.isEdited_execute h.indexed hc hrun
    exact ⟨hshown, edit, hedit, hedited.view_eq⟩
  · intro a first last line hverb hrange hline
    rw [EditM.run_execute_fails_iff, hmove a hverb]
    simp only [EditM.run_silently_error_iff]
    exact EditM.run_move_refused_iff hrange hline
  · intro a shown w' hverb hrun
    rw [EditM.run_execute_eq_ok_iff, hmove a hverb] at hrun
    obtain ⟨hdone, -⟩ := EditM.eq_ok_of_run_silently hrun
    obtain ⟨first, last, line, hrange, -, hedited⟩ := EditM.isEdited_move h.indexed hdone
    obtain ⟨-, -, -, hle⟩ := Editor.resolveRange_eq_ok_iff.mp hrange
    have hlines : w'.editor.lineList = (LineEdit.move first last line).onLines w.editor.lineList :=
      congrArg LineEditor.lines hedited.view_eq
    rw [hlines]
    exact LineEdit.onLines_move_perm hle line _

theorem execute_refines_lineEditor_move :
    ∃ w', (EditM.execute ⟨.move (some ⟨.last, -2⟩), some .last, some .last⟩).run
        ⟨.ofText "a\nb", .empty "/"⟩ = .ok [] w' ∧
      w'.editor.view = ⟨[.ofString "b", .ofString "a"], 1⟩ := by
  have h := execute_refines_lineEditor (.ofText "a\nb" (.empty "/"))
    (c := ⟨.move (some ⟨.last, -2⟩), some .last, some .last⟩) trivial
  refine ⟨_, rfl, ?_⟩
  obtain ⟨-, edit, hedit, hview⟩ := h.1 [] _ rfl
  cases (show some (LineEdit.move 2 2 0) = some edit from hedit)
  rw [hview]
  rfl

end Workspace.Reachable

end Redline
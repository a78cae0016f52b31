import Redline.Editor.Execute
import Redline.Proofs.Outcomes
/-!
# How each command can end

One lemma for each command; all together they hold of whatever command is carried out.
-/

namespace Redline

namespace EditM

def relocate (first last line : Nat) : EditM Unit := do
  let bytes ← ask (·.lineBytes first last)
  if last ≤ line then
    insertBefore (line + 1) bytes
    deleteLines first last
    goTo line
  else
    deleteLines first last
    insertBefore (line + 1) bytes
    goTo (line + (last - first + 1))

theorem move_eq (c : Command) (destination : Option Address) :
    move c destination = (do
      let (first, last) ← ask (·.resolveRange c)
      let line ← ask (·.resolveDestination destination)
      if first ≤ line ∧ line < last then throw .invalidDestination
      else relocate first last line) :=
  rfl

/-- What a write does once it knows the chunks, and whether they are the whole document. -/
def store (p : Path) (whole : Bool) (chunks : List Bytes) : EditM Nat := do
  let count ← changeFiles (·.replace p chunks)
  update (·.namedIfUnnamed p)
  let e ← ask .ok
  if whole && e.fileName.any (·.same p) then edit p
  return count

theorem run_write_whole (p : Path) {first last : Nat} {w : Workspace}
    (hwhole : first ≤ 1 ∧ w.editor.lineCount ≤ last) :
    (write p first last).run w = (store p true (w.editor.table.chunks ++
      [if w.editor.lines.missingFinalNewline then [newline] else []])).run w := by
  have hdecide : (decide (first ≤ 1) && decide (w.editor.lineCount ≤ last)) = true := by
    simpa using hwhole
  unfold write
  simp only [EStateM.run_bind, run_ask, hdecide, if_pos]
  rfl

theorem run_write_part (p : Path) {first last : Nat} {w : Workspace}
    (hpart : ¬(first ≤ 1 ∧ w.editor.lineCount ≤ last)) :
    (write p first last).run w =
      match w.editor.lineBytes first last with
      | .ok bytes => (store p false [bytes]).run w
      | .error cause => .error cause w := by
  have hdecide : (decide (first ≤ 1) && decide (w.editor.lineCount ≤ last)) = false := by
    simpa using hpart
  unfold write
  simp only [EStateM.run_bind, run_ask, hdecide, if_neg Bool.false_ne_true]
  cases w.editor.lineBytes first last with
  | ok bytes => rfl
  | error cause => rfl

/-- A write stores some chunks, or the lines to write cannot be read. -/
theorem run_write (p : Path) (first last : Nat) (w : Workspace) :
    (∃ whole chunks, (write p first last).run w = (store p whole chunks).run w) ∨
      ∃ cause, ¬(first ≤ 1 ∧ w.editor.lineCount ≤ last) ∧
        w.editor.lineBytes first last = .error cause ∧
        (write p first last).run w = .error cause w := by
  by_cases hwhole : first ≤ 1 ∧ w.editor.lineCount ≤ last
  · exact .inl ⟨_, _, run_write_whole p hwhole⟩
  · have hpart := run_write_part p hwhole
    cases hbytes : w.editor.lineBytes first last with
    | ok bytes =>
      rw [hbytes] at hpart
      exact .inl ⟨_, _, hpart⟩
    | error cause =>
      rw [hbytes] at hpart
      exact .inr ⟨cause, hwhole, rfl, hpart⟩

/-! ## Commands -/

variable {w : Workspace} {c : Command} {file : Option Path}

theorem outcome_fileOr_bind {g : Path → EditM α}
    (hok : ∀ p, file.or w.editor.fileName = some p → w.Outcome c ((g p).run w)) :
    w.Outcome c ((fileOr file >>= g).run w) := by
  refine .ask_bind (fun cause herror => ?_) fun p hfile => ?_
  · split at herror <;> cases herror
    exact Editor.refusal_of_ne nofun nofun
  · apply hok
    split at hfile <;> cases hfile
    · rfl
    · rename_i hname
      rw [hname, Option.none_or]

theorem outcome_edit (p : Path) : w.Outcome c ((edit p).run w) :=
  .askFiles_bind fun _ => .done (Editor.follows_showing _ _)

theorem outcome_store (h : w.editor.Indexed) (hverb : c.verb = .write file) {p : Path}
    (hpath : file.or w.editor.fileName = some p) (whole : Bool) (chunks : List Bytes) :
    w.Outcome c ((store p whole chunks).run w) := by
  unfold store
  rw [EStateM.run_bind, run_changeFiles]
  cases hreplace : w.files.replace p chunks with
  | mk result files =>
    cases result with
    | error cause => exact .unwritten hverb hpath hreplace
    | ok count =>
      change w.Outcome c (EStateM.run
        (if whole && (w.editor.namedIfUnnamed p).fileName.any (·.same p) then
          edit p >>= fun _ => pure count
        else pure count) ⟨w.editor.namedIfUnnamed p, files⟩)
      split
      · apply Workspace.Outcome.bind_pure
        rw [edit, EStateM.run_bind, run_askFiles]
        cases hopen : files.openSource p with
        | error cause => exact .unopened hreplace hopen
        | ok source => exact .done (Editor.follows_showing _ _)
      · exact .done ((Editor.Follows.refl h).namedIfUnnamed p)

theorem outcome_showLine (h : w.editor.Indexed) {a : Option Address}
    (ha : a = c.first ∨ a = c.last) {line : Nat} (hline : w.editor.resolve? a = .ok line) :
    w.Outcome c ((showLine line).run w) := by
  unfold showLine
  by_cases hzero : line = 0
  · rw [hzero] at hline ⊢
    exact .refused (Editor.refusal_of_zero ha hline)
  · have hpos := Nat.pos_of_ne_zero hzero
    have hfollows : w.editor.Follows c (w.editor.atLine line) := Editor.follows_atLine h hpos
    rw [if_neg hzero]
    change w.Outcome c ((ask (·.lineContent line)).run
      { w with editor := w.editor.atLine line })
    rw [run_ask]
    split
    · exact .done hfollows
    · rename_i herror
      have hle : line ≤ w.editor.lineCount := Editor.resolve?_le hline
      exact .tooLong (Editor.long_of_lineContent hfollows.indexed hpos hle herror) hfollows

theorem outcome_showRange (h : w.editor.Indexed) (shown : Nat → Bytes → Bytes) :
    w.Outcome c ((showRange c shown).run w) := by
  unfold showRange
  rw [run_ask]
  split
  · exact .done (.refl h)
  · rename_i herror
    obtain hrange | ⟨⟨first, last⟩, hrange, herror⟩ := error_or_exists_of_bind herror
    · exact .refused (Editor.refusal_of_range hrange)
    · obtain ⟨-, hlast, hpos, -⟩ := Editor.resolveRange_eq_ok_iff.mp hrange
      exact .tooLong (Editor.long_of_joinedLines h hpos (Editor.resolve?_le hlast) herror)
        (.refl h)

theorem outcome_append (h : w.editor.Indexed) (text : String) :
    w.Outcome c ((append c text).run w) := by
  refine .ask_bind (fun _ => Editor.refusal_of_address (.inl rfl)) fun line _ => ?_
  refine .insertBefore_bind h line fun t ht _ => ?_
  exact .done (Editor.follows_atLine (.withTable ht) (by omega))

theorem outcome_insert (h : w.editor.Indexed) {text : String} (hverb : c.verb = .insert text) :
    w.Outcome c ((insert c text).run w) := by
  refine .ask_bind (fun _ => Editor.refusal_of_address (.inl rfl)) fun line _ => ?_
  rw [show max line 1 = line - 1 + 1 by omega]
  obtain ⟨t, ht, hcount, hbytes, hrun⟩ := exists_insertBefore h (line - 1) (.ofString text)
  rw [hrun]
  by_cases hempty : w.editor.lineCount = 0
  · have hnew := hbytes (h.bytes_eq_nil hempty)
    exact .done ⟨.withTable ht, .begun hverb hempty rfl hnew⟩
  · exact .done (Editor.follows_withTable ht hcount (Nat.pos_of_ne_zero hempty))

theorem outcome_change (h : w.editor.Indexed) (text : String) :
    w.Outcome c ((change c text).run w) := by
  refine .range_bind fun k last hlt hle => ?_
  refine .deleteLines_bind (.refl h) hlt hle fun t ht => ?_
  refine .insertBefore_bind (.withTable ht) k fun u hu _ => ?_
  exact .done (Editor.follows_atLine (.withTable hu) (by omega))

theorem outcome_delete (h : w.editor.Indexed) : w.Outcome c ((delete c).run w) := by
  refine .range_bind fun k last hlt hle => ?_
  refine .deleteLines_bind (.refl h) hlt hle fun t ht => ?_
  exact .done (Editor.follows_atLine (.withTable ht) (Nat.succ_pos k))

theorem outcome_join (h : w.editor.Indexed) : w.Outcome c ((join c).run w) := by
  refine .range_bind fun k last hlt hle => ?_
  obtain ⟨j, rfl⟩ := Nat.exists_eq_succ_of_ne_zero (Nat.ne_zero_of_lt hlt)
  rw [h.lineCount_eq] at hle
  rw [EStateM.run_bind]
  by_cases hword : k < j → w.editor.lines.lineStart (j + 1) ≤ maxOffset
  · obtain ⟨t, ht, -, hrun⟩ := run_joinLines h (Nat.le_of_lt_succ hlt) hle hword
    rw [hrun]
    exact .done (Editor.follows_atLine (.withTable ht) (Nat.succ_pos k))
  · have hend := h.lineStart_le_length (j + 1)
    rw [run_joinLines_overflow h (by omega) hle (by omega)]
    exact .tooLong (by omega) (.refl h)

theorem outcome_copy (h : w.editor.Indexed) (destination : Option Address) :
    w.Outcome c ((copy c destination).run w) := by
  refine .range_bind fun k last hlt hle => ?_
  refine .ask_bind (fun _ => Editor.refusal_of_destination) fun line _ => ?_
  refine .lineBytes_bind h hlt hle fun bytes => ?_
  refine .insertBefore_bind h line fun t ht _ => ?_
  exact .done (Editor.follows_atLine (.withTable ht) (by omega))

theorem outcome_relocate (h : w.editor.Indexed) {k last : Nat} (hlt : k < last)
    (hle : last ≤ w.editor.lineCount) (line : Nat) :
    w.Outcome c ((relocate (k + 1) last line).run w) := by
  refine .lineBytes_bind h hlt hle fun bytes => ?_
  split
  · -- the lines stand twice when a deletion can still find the text too long
    refine .insertBefore_bind h line fun t ht hcount => ?_
    have hfollows : w.editor.Follows c (w.withTable t).editor :=
      Editor.follows_withTable ht hcount (by omega)
    refine .deleteLines_bind hfollows hlt (Nat.le_trans hle hcount) fun u hu => ?_
    exact .done (Editor.follows_atLine (.withTable hu) (by omega))
  · refine .deleteLines_bind (.refl h) hlt hle fun t ht => ?_
    refine .insertBefore_bind (.withTable ht) line fun u hu _ => ?_
    exact .done (Editor.follows_atLine (.withTable hu) (by omega))

theorem outcome_move (h : w.editor.Indexed) (destination : Option Address) :
    w.Outcome c ((move c destination).run w) := by
  rw [move_eq]
  refine .range_bind fun k last hlt hle => ?_
  refine .ask_bind (fun _ => Editor.refusal_of_destination) fun line _ => ?_
  split
  · exact .refused (Editor.refusal_of_ne nofun nofun)
  · exact outcome_relocate h hlt hle line

theorem outcome_fileName (h : w.editor.Indexed) : w.Outcome c ((fileName file).run w) := by
  unfold fileName
  cases file with
  | some p => exact .done ((Editor.Follows.refl h).named p)
  | none => exact outcome_fileOr_bind fun p _ => .done (.refl h)

theorem outcome_read (h : w.editor.Indexed) : w.Outcome c ((read c file).run w) := by
  refine .ask_bind (fun _ => Editor.refusal_of_address (.inl rfl)) fun line _ => ?_
  refine outcome_fileOr_bind fun p _ => ?_
  refine .askFiles_bind fun bytes => ?_
  by_cases hempty : bytes = []
  · rw [hempty]
    exact .done ((Editor.Follows.refl h).namedIfUnnamed p)
  · have hadded : 0 < bytes.terminated.countNewlines := by
      rw [countNewlines_eq_length_splitLines (Bytes.lacksFinalNewline_terminated bytes),
        splitLines_terminated, List.length_pos_iff]
      exact fun hnil => hempty (splitLines_eq_nil hnil)
    refine .insertBefore_bind h line fun t ht _ => ?_
    simp only [EStateM.run_bind, if_pos hadded]
    exact .done (Editor.follows_atLine ((Editor.Indexed.withTable ht).namedIfUnnamed p) (by omega))

theorem outcome_writeCommand (h : w.editor.Indexed) (hverb : c.verb = .write file) :
    w.Outcome c ((writeCommand c file).run w) := by
  refine outcome_fileOr_bind fun p hpath => ?_
  refine .ask_bind (fun cause herror => ?_) fun range hrange => ?_
  · split at herror
    · cases herror
    · exact Editor.refusal_of_range herror
  · obtain ⟨first, last⟩ := range
    change w.Outcome c ((write p first last >>= fun _ => pure ()).run w)
    apply Workspace.Outcome.bind_pure
    rcases run_write p first last w with ⟨whole, chunks, hrun⟩ | ⟨cause, hpart, herror, hrun⟩
    · rw [hrun]
      exact outcome_store h hverb hpath whole chunks
    · rw [hrun]
      split at hrange
      · cases hrange
        omega
      · obtain ⟨k, rfl, hlt, hle⟩ := Editor.exists_of_resolveRange hrange
        exact .tooLong (Editor.long_of_lineBytes h hlt hle herror) (.refl h)

theorem outcome_perform (h : w.editor.Indexed) (c : Command) (explicit : Bool) :
    w.Outcome c ((perform c explicit).run w) := by
  unfold perform
  cases hverb : c.verb with
  | goTo =>
    have ha : (if explicit then c.last else c.first) = c.first ∨
        (if explicit then c.last else c.first) = c.last := by
      split
      · exact .inr rfl
      · exact .inl rfl
    exact .ask_bind (fun _ => Editor.refusal_of_address ha) fun line => outcome_showLine h ha
  | print | number | list => exact outcome_showRange h _
  | help => exact .done (.refl h)
  | lineNumber =>
    exact .ask_bind (fun _ => Editor.refusal_of_address (.inl rfl)) fun _ _ => .done (.refl h)
  | append text => exact .bind_pure (outcome_append h text)
  | insert text => exact .bind_pure (outcome_insert h hverb)
  | change text => exact .bind_pure (outcome_change h text)
  | delete => exact .bind_pure (outcome_delete h)
  | join => exact .bind_pure (outcome_join h)
  | copy destination => exact .bind_pure (outcome_copy h destination)
  | move destination => exact .bind_pure (outcome_move h destination)
  | edit file | editAnyway file =>
    exact .bind_pure (outcome_fileOr_bind fun p _ => outcome_edit p)
  | fileName file => exact outcome_fileName h
  | read file => exact .bind_pure (outcome_read h)
  | write file => exact .bind_pure (outcome_writeCommand h hverb)
  | quit | quitAnyway => exact .done (.refl h)
  | mark | onMatching | onMatchingAsk | onOthers | onOthersAsk | helpMode | prompt | substitute
  | undo | shell => exact .refused (Editor.refusal_of_ne nofun nofun)

end EditM

end Redline

import Redline.Proofs.Addressing
import Redline.Proofs.Binds
import Redline.Proofs.LineActions
/-!
# How a command can end

A command is refused before it changes anything, or it is carried out.  What can come
between is a text that is too long for its offsets, a file that cannot be replaced, and
one that cannot be opened anew.  All that is said elsewhere about every command is read
off this list.
-/

namespace Redline

/-! ## What a call leaves behind -/

namespace Editor

variable {e e' : Editor} {c : Command}

theorem Indexed.bytes_eq_nil (h : e.Indexed) (hempty : e.lineCount = 0) : e.bytes = [] := by
  rw [h.lineCount_eq] at hempty
  exact splitLines_eq_nil (List.length_eq_zero_iff.mp hempty)

theorem Indexed.named (h : e.Indexed) (p : Path) : (e.named p).Indexed :=
  ⟨h.wellFormed, h.lines_eq⟩

theorem Indexed.namedIfUnnamed (h : e.Indexed) (p : Path) : (e.namedIfUnnamed p).Indexed := by
  unfold Editor.namedIfUnnamed
  split
  · exact h.named p
  · exact h

theorem Indexed.atLine (h : e.Indexed) (line : Nat) : (e.atLine line).Indexed :=
  ⟨h.wellFormed, h.lines_eq⟩

inductive CursorStep (e : Editor) (c : Command) (e' : Editor) : Prop where
  /-- On a line of the text, or before a text without lines. -/
  | placed (hle : e'.currentLine ≤ e'.lineCount) (hzero : e'.currentLine = 0 → e'.lineCount = 0)
  /-- Where it was, no line being lost. -/
  | kept (hline : e'.currentLine = e.currentLine) (hcount : e.lineCount ≤ e'.lineCount)
      (hempty : e.lineCount = 0 → e'.lineCount = 0)
  /-- Where it was, before a text that is inserted where there was none. -/
  | begun {text} (hverb : c.verb = .insert text) (hempty : e.lineCount = 0)
      (hline : e'.currentLine = e.currentLine) (hbytes : e'.bytes = .ofString text)

structure Follows (e : Editor) (c : Command) (e' : Editor) : Prop where
  indexed : e'.Indexed
  cursor : e.CursorStep c e'

theorem Follows.refl (h : e.Indexed) : e.Follows c e :=
  ⟨h, .kept rfl (Nat.le_refl _) id⟩

theorem Follows.of_eq {f : Editor} (h : e.Follows c e') (htable : f.table = e'.table)
    (hlines : f.lines = e'.lines) (hline : f.currentLine = e'.currentLine) : e.Follows c f := by
  have hbytes : f.bytes = e'.bytes := congrArg PieceTable.toBytes htable
  have hcount : f.lineCount = e'.lineCount := congrArg LineIndex.lineCount hlines
  refine ⟨⟨?_, ?_⟩, ?_⟩
  · rw [htable]
    exact h.indexed.wellFormed
  · rw [hlines, hbytes]
    exact h.indexed.lines_eq
  · cases h.cursor with
    | placed hle hzero => exact .placed (hline ▸ hcount ▸ hle) (hline ▸ hcount ▸ hzero)
    | kept hkept hmore hempty => exact .kept (hline.trans hkept) (hcount ▸ hmore) (hcount ▸ hempty)
    | begun hverb hempty hkept hnew =>
      exact .begun hverb hempty (hline.trans hkept) (hbytes.trans hnew)

theorem Follows.named (h : e.Follows c e') (p : Path) : e.Follows c (e'.named p) :=
  h.of_eq rfl rfl rfl

theorem Follows.recordError (h : e.Follows c e') (cause : EditError) :
    e.Follows c (e'.recordError cause) :=
  h.of_eq rfl rfl rfl

theorem Follows.namedIfUnnamed (h : e.Follows c e') (p : Path) :
    e.Follows c (e'.namedIfUnnamed p) := by
  unfold Editor.namedIfUnnamed
  split
  · exact h.named p
  · exact h

theorem follows_atLine (h : e'.Indexed) {line : Nat} (hline : 0 < line) :
    e.Follows c (e'.atLine line) := by
  refine ⟨h.atLine line, .placed (Nat.min_le_right _ _) fun hzero => ?_⟩
  change min line e'.lineCount = 0 at hzero
  change e'.lineCount = 0
  omega

theorem follows_showing (e' : Editor) (bytes : Bytes) : e.Follows c (e'.showing bytes) :=
  ⟨⟨.ofBytes bytes, rfl⟩, .placed (Nat.le_refl _) id⟩

theorem follows_withTable {t : PieceTable} (ht : t.WellFormed)
    (hcount : e.lineCount ≤ (e.withTable t).lineCount) (hpos : 0 < e.lineCount) :
    e.Follows c (e.withTable t) :=
  ⟨.withTable ht, .kept rfl hcount fun hempty => absurd hempty (Nat.ne_of_gt hpos)⟩

/-! ## Refusals -/

/-- A reason to refuse a command: no fault of the text, and no bad address if the
addresses resolve to a range. -/
structure Refusal (e : Editor) (c : Command) (cause : EditError) : Prop where
  ne_text : ∀ fault, cause ≠ .text fault
  unresolved : cause = .invalidAddress → ∀ range, e.resolveRange c ≠ .ok range

variable {cause : EditError}

theorem refusal_of_ne (htext : ∀ fault, cause ≠ .text fault) (haddress : cause ≠ .invalidAddress) :
    e.Refusal c cause :=
  ⟨htext, fun h => absurd h haddress⟩

theorem ne_text_of_resolve? {a : Option Address} (h : e.resolve? a = .error cause)
    (fault : PieceTable.Fault) : cause ≠ .text fault := by
  rintro rfl
  cases a with
  | none => cases h
  | some a =>
    obtain hbase | ⟨base, -, h⟩ := error_or_exists_of_bind h
    · unfold resolveBase at hbase
      split at hbase
      · cases hbase
      · cases hbase
      · cases hbase
      · split at hbase <;> cases hbase
      all_goals cases hbase
    · dsimp only at h
      split at h <;> cases h

theorem refusal_of_address {a : Option Address} (ha : a = c.first ∨ a = c.last)
    (h : e.resolve? a = .error cause) : e.Refusal c cause := by
  refine ⟨ne_text_of_resolve? h, ?_⟩
  rintro - ⟨first, last⟩ hrange
  obtain ⟨hfirst, hlast, -, -⟩ := resolveRange_eq_ok_iff.mp hrange
  obtain rfl | rfl := ha
  · rw [hfirst] at h
    cases h
  · rw [hlast] at h
    cases h

theorem refusal_of_zero {a : Option Address} (ha : a = c.first ∨ a = c.last)
    (h : e.resolve? a = .ok 0) : e.Refusal c .invalidAddress := by
  refine ⟨nofun, ?_⟩
  rintro - ⟨first, last⟩ hrange
  obtain ⟨hfirst, hlast, hpos, hle⟩ := resolveRange_eq_ok_iff.mp hrange
  obtain rfl | rfl := ha
  · rw [hfirst] at h
    cases h
    omega
  · rw [hlast] at h
    cases h
    omega

theorem refusal_of_range (h : e.resolveRange c = .error cause) : e.Refusal c cause := by
  have hunresolved : ∀ range, e.resolveRange c ≠ .ok range := by
    intro range hrange
    rw [hrange] at h
    cases h
  obtain hfirst | ⟨first, -, h⟩ := error_or_exists_of_bind h
  · exact refusal_of_address (.inl rfl) hfirst
  obtain hlast | ⟨last, -, h⟩ := error_or_exists_of_bind h
  · exact refusal_of_address (.inr rfl) hlast
  dsimp only at h
  split at h <;> cases h
  exact ⟨nofun, fun _ => hunresolved⟩

theorem refusal_of_destination {a : Option Address}
    (h : e.resolveDestination a = .error cause) : e.Refusal c cause := by
  unfold resolveDestination at h
  split at h
  · cases h
    exact refusal_of_ne nofun nofun
  · rename_i hne
    refine refusal_of_ne (ne_text_of_resolve? h) ?_
    rintro rfl
    exact hne h

/-! ## Texts that are too long -/

theorem Indexed.exists_lineRange? (h : e.Indexed) {line : Nat} (hpos : 0 < line)
    (hle : line ≤ e.lineCount) :
    ∃ range, e.lines.lineRange? line = some range ∧ range.start ≤ range.stop ∧
      range.stop ≤ e.bytes.length := by
  obtain ⟨k, rfl⟩ := Nat.exists_eq_succ_of_ne_zero (Nat.ne_of_gt hpos)
  rw [h.lineCount_eq] at hle
  rw [h.lines_eq]
  exact LineIndex.exists_lineRange? (Nat.lt_of_succ_le hle)

theorem long_of_lineContent (h : e.Indexed) {line : Nat} (hpos : 0 < line)
    (hle : line ≤ e.lineCount) (herror : e.lineContent line = .error cause) :
    maxOffset < e.bytes.length := by
  obtain ⟨range, hrange, hstart, hstop⟩ := h.exists_lineRange? hpos hle
  rw [lineContent, hrange] at herror
  change (e.table.read range.start range.length).mapError EditError.text = _ at herror
  rw [PieceTable.read] at herror
  cases hcheck : e.table.checkRange range.start range.length with
  | ok _ =>
    rw [hcheck] at herror
    cases herror
  | error fault =>
    have hlength : e.bytes.length = e.table.length := PieceTable.length_toBytes h.wellFormed
    have hsum : range.start + range.length = range.stop := by
      rw [Span.length]
      omega
    rw [PieceTable.checkRange_eq_error_iff, hsum] at hcheck
    omega

theorem long_of_joinedLines (h : e.Indexed) {first last : Nat} {shown : Nat → Bytes → Bytes}
    (hpos : 0 < first) (hle : last ≤ e.lineCount)
    (herror : e.joinedLines first last shown = .error cause) : maxOffset < e.bytes.length := by
  obtain hrows | ⟨rows, -, herror⟩ := error_or_exists_of_bind herror
  · obtain ⟨line, hmem, hfail⟩ := exists_of_mapM_eq_error hrows
    rw [List.mem_range'_1] at hmem
    cases hcontent : e.lineContent line with
    | ok content =>
      rw [hcontent] at hfail
      cases hfail
    | error cause' => exact long_of_lineContent h (by omega) (by omega) hcontent
  · cases herror

theorem long_of_lineBytes (h : e.Indexed) {k last : Nat} (hlt : k < last)
    (hle : last ≤ e.lineCount) (herror : e.lineBytes (k + 1) last = .error cause) :
    maxOffset < e.bytes.length := by
  have hend := h.lineStart_le_length (last + 1)
  rw [h.lineCount_eq] at hle
  rw [EditM.lineBytes_eq h (by omega) (Nat.le_of_lt hlt)] at herror
  split at herror
  · cases herror
  · omega

end Editor

/-- An insertion succeeds and takes no lines away; an empty text becomes the new one. -/
theorem EditM.exists_insertBefore {w : Workspace} (h : w.editor.Indexed) (k : Nat) (text : Bytes) :
    ∃ t : PieceTable, t.WellFormed ∧
      w.editor.lineCount ≤ (w.editor.withTable t).lineCount ∧
      (w.editor.bytes = [] → t.toBytes = text) ∧
      (insertBefore (k + 1) text).run w = .ok () (w.withTable t) := by
  by_cases hne : text = []
  · refine ⟨w.editor.table, h.wellFormed, ?_, fun hempty => hempty.trans hne.symm, ?_⟩
    · exact Nat.le_of_eq (by rw [h.withTable_table])
    · rw [hne, Workspace.withTable, h.withTable_table]
      rfl
  · obtain ⟨t, ht, hbytes, hrun⟩ := run_insertBefore h k hne
    refine ⟨t, ht, ?_, fun hempty => ?_, hrun⟩
    · have hfront := splitLines_ofLines_append (newline_notMem_of_mem_take w.editor.bytes k)
        (text ++ w.editor.bytes.drop (w.editor.lines.lineStart (k + 1)))
      have hback := LineIndex.splitLines_drop_lineStart w.editor.bytes k
      have hmore := length_splitLines_le_append text
        (w.editor.bytes.drop (w.editor.lines.lineStart (k + 1)))
      rw [← h.lines_eq] at hback
      rw [hback, List.length_drop] at hmore
      rw [h.lineCount_eq, (Editor.Indexed.withTable ht).lineCount_eq]
      change w.editor.lineList.length ≤ (splitLines t.toBytes).length
      rw [hbytes, List.append_assoc, Editor.lineList, hfront, List.length_append, List.length_take]
      omega
    · rw [hbytes, Editor.lineList, hempty]
      simp

/-! ## Outcomes -/

namespace Workspace

inductive Outcome (w : Workspace) (c : Command) :
    EStateM.Result EditError Workspace α → Prop where
  /-- Nothing was changed. -/
  | refused {cause} (h : w.editor.Refusal c cause) : Outcome w c (.error cause w)
  /-- The text is longer than an offset can be. -/
  | tooLong {cause w'} (hlong : maxOffset < w'.editor.bytes.length)
      (hfollows : w.editor.Follows c w'.editor) : Outcome w c (.error cause w')
  /-- The file to write could not be replaced. -/
  | unwritten {cause file p chunks files} (hverb : c.verb = .write file)
      (hpath : file.or w.editor.fileName = some p)
      (hreplace : w.files.replace p chunks = (.error cause, files)) :
      Outcome w c (.error (.file cause) { w with files })
  /-- The file was replaced, but could not be opened. -/
  | unopened {cause p chunks count files}
      (hreplace : w.files.replace p chunks = (.ok count, files))
      (hopen : files.openSource p = .error cause) :
      Outcome w c (.error (.file cause) ⟨w.editor.namedIfUnnamed p, files⟩)
  /-- The command was carried out. -/
  | done {a w'} (hfollows : w.editor.Follows c w'.editor) : Outcome w c (.ok a w')

namespace Outcome

open EditM

variable {w w₁ : Workspace} {c : Command}

/-! ## Steps of a call -/

theorem bind_pure {x : EditM α} {b : β} (h : w.Outcome c (x.run w₁)) :
    w.Outcome c ((x >>= fun _ => pure b).run w₁) := by
  rw [EStateM.run_bind]
  cases hrun : x.run w₁ with
  | error cause w' =>
    rw [hrun] at h
    cases h with
    | refused h => exact .refused h
    | tooLong hlong hfollows => exact .tooLong hlong hfollows
    | unwritten hverb hpath hreplace => exact .unwritten hverb hpath hreplace
    | unopened hreplace hopen => exact .unopened hreplace hopen
  | ok a w' =>
    rw [hrun] at h
    cases h with
    | done hfollows => exact .done hfollows

theorem ask_bind {f : Editor → Except EditError α} {g : α → EditM β}
    (herror : ∀ cause, f w.editor = .error cause → w.editor.Refusal c cause)
    (hok : ∀ a, f w.editor = .ok a → w.Outcome c ((g a).run w)) :
    w.Outcome c ((ask f >>= g).run w) := by
  rw [EStateM.run_bind, run_ask]
  cases hask : f w.editor with
  | error cause => exact .refused (herror cause hask)
  | ok a => exact hok a hask

theorem askFiles_bind {f : FileTree → Except FileError α} {g : α → EditM β}
    (hok : ∀ a, w.Outcome c ((g a).run w)) : w.Outcome c ((askFiles f >>= g).run w) := by
  rw [EStateM.run_bind, run_askFiles]
  cases f w.files with
  | error cause => exact .refused (Editor.refusal_of_ne nofun nofun)
  | ok a => exact hok a

theorem range_bind {g : Nat × Nat → EditM α}
    (hok : ∀ k last, k < last → last ≤ w.editor.lineCount →
      w.Outcome c ((g (k + 1, last)).run w)) :
    w.Outcome c ((ask (·.resolveRange c) >>= g).run w) := by
  refine ask_bind (fun _ => Editor.refusal_of_range) fun range hrange => ?_
  obtain ⟨first, last⟩ := range
  obtain ⟨k, rfl, hlt, hle⟩ := Editor.exists_of_resolveRange hrange
  exact hok k last hlt hle

theorem lineBytes_bind (h : w.editor.Indexed) {k last : Nat} (hlt : k < last)
    (hle : last ≤ w.editor.lineCount) {g : Bytes → EditM α}
    (hok : ∀ bytes, w.Outcome c ((g bytes).run w)) :
    w.Outcome c ((ask (·.lineBytes (k + 1) last) >>= g).run w) := by
  rw [EStateM.run_bind, run_ask]
  cases hbytes : w.editor.lineBytes (k + 1) last with
  | ok bytes => exact hok bytes
  | error cause => exact .tooLong (Editor.long_of_lineBytes h hlt hle hbytes) (.refl h)

theorem insertBefore_bind (h : w₁.editor.Indexed) (k : Nat) {text : Bytes} {g : Unit → EditM α}
    (hok : ∀ t : PieceTable, t.WellFormed →
      w₁.editor.lineCount ≤ (w₁.editor.withTable t).lineCount →
        w.Outcome c ((g ()).run (w₁.withTable t))) :
    w.Outcome c ((insertBefore (k + 1) text >>= g).run w₁) := by
  obtain ⟨t, ht, hcount, -, hrun⟩ := exists_insertBefore h k text
  rw [EStateM.run_bind, hrun]
  exact hok t ht hcount

theorem deleteLines_bind (hfollows : w.editor.Follows c w₁.editor) {k last : Nat} (hlt : k < last)
    (hle : last ≤ w₁.editor.lineCount) {g : Unit → EditM α}
    (hok : ∀ t : PieceTable, t.WellFormed → w.Outcome c ((g ()).run (w₁.withTable t))) :
    w.Outcome c ((deleteLines (k + 1) last >>= g).run w₁) := by
  have h := hfollows.indexed
  rw [h.lineCount_eq] at hle
  rw [EStateM.run_bind]
  by_cases hword : w₁.editor.lines.lineStart (last + 1) ≤ maxOffset
  · obtain ⟨t, ht, -, hrun⟩ := run_deleteLines h (by omega) (Nat.le_of_lt hlt) hword
    rw [hrun]
    exact hok t ht
  · rw [run_deleteLines_overflow h (Nat.le_of_lt hlt) (Nat.lt_of_not_le hword)]
    have hend := h.lineStart_le_length (last + 1)
    exact .tooLong (by omega) hfollows

end Outcome

end Workspace

end Redline

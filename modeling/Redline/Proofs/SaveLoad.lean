import Redline.Proofs.AtomicReplacement
import Redline.Proofs.LineCommands
/-!
# Saving lines and loading them

Both ways of writing, the pieces of the whole document and the bytes of some lines,
put terminated lines into the target; whoever opens it gets these lines.
-/

namespace Redline

theorem Path.same_symm {p q : Path} (h : p.same q = true) : q.same p = true := by
  unfold same at h ⊢
  rw [decide_eq_true_eq] at h ⊢
  exact h.symm

def FileTree.Shows (t : FileTree) (p : Path) (content : Bytes) : Prop :=
  ∃ stored, t.stat p = .ok (.file stored) ∧ stored.content = content

/-- The lines are lines of the document, or the whole of one that has none. -/
def Editor.HasRange (e : Editor) (first last : Nat) : Prop :=
  0 < first ∧ first ≤ last ∧ last ≤ e.lineCount ∨ e.lineCount = 0 ∧ first ≤ 1

theorem Editor.hasRange_all (e : Editor) : e.HasRange 1 e.lineCount := by
  unfold HasRange
  omega

namespace Editor

variable (e : Editor) (bytes : Bytes) (p : Path)

@[simp] theorem bytes_showing : (e.showing bytes).bytes = bytes :=
  PieceTable.toBytes_ofBytes bytes

@[simp] theorem lineList_showing : (e.showing bytes).lineList = splitLines bytes := by
  rw [lineList, bytes_showing]

theorem indexed_showing : (e.showing bytes).Indexed :=
  (e.follows_showing (c := ⟨.delete, none, none⟩) e bytes).indexed

@[simp] theorem currentLine_showing : (e.showing bytes).currentLine = (splitLines bytes).length := by
  rw [← lineList_showing e bytes, ← (e.indexed_showing bytes).lineCount_eq]
  rfl

@[simp] theorem bytes_namedIfUnnamed : (e.namedIfUnnamed p).bytes = e.bytes := by
  unfold namedIfUnnamed
  split <;> rfl

@[simp] theorem currentLine_namedIfUnnamed : (e.namedIfUnnamed p).currentLine = e.currentLine := by
  unfold namedIfUnnamed
  split <;> rfl

@[simp] theorem fileName_namedIfUnnamed : (e.namedIfUnnamed p).fileName = e.fileName.or (some p) := by
  unfold namedIfUnnamed
  cases hname : e.fileName with
  | none => rfl
  | some q => exact hname

end Editor

theorem LineEdit.between_all {first last : Nat} {lines : List Bytes} (hfirst : first ≤ 1)
    (hlast : lines.length ≤ last) : between first last lines = lines := by
  rw [between, Nat.sub_eq_zero_of_le hfirst, List.drop_zero, List.take_of_length_le hlast]

namespace EditM

variable {w w' : Workspace} {p : Path} {first last count : Nat}

/-! ## What is written -/

theorem flatten_allChunks {e : Editor} (h : e.Indexed) :
    (e.table.chunks ++ [if e.lines.missingFinalNewline then [newline] else []]).flatten =
      ofLines e.lineList := by
  have hmissing := LineIndex.missingFinalNewline_ofBytes e.bytes
  rw [← h.lines_eq] at hmissing
  rw [List.flatten_append, List.flatten_singleton, hmissing, Editor.lineList, ofLines_splitLines,
    Bytes.terminated]
  change e.bytes ++ _ = _
  split
  · rfl
  · exact List.append_nil _

/-- Whichever way lines are written, the chunks are the text of the lines. -/
theorem exists_store_of_run_write (h : w.editor.Indexed) (hrange : w.editor.HasRange first last)
    (hrun : (write p first last).run w = .ok count w') :
    ∃ chunks, chunks.flatten = ofLines (LineEdit.between first last w.editor.lineList) ∧
      (store p (decide (first ≤ 1 ∧ w.editor.lineCount ≤ last)) chunks).run w = .ok count w' := by
  by_cases hwhole : first ≤ 1 ∧ w.editor.lineCount ≤ last
  · rw [run_write_whole p hwhole] at hrun
    rw [decide_eq_true hwhole, LineEdit.between_all hwhole.1 (h.lineCount_eq ▸ hwhole.2)]
    exact ⟨_, flatten_allChunks h, hrun⟩
  · obtain ⟨hpos, hle, hlast⟩ | ⟨hempty, hfirst⟩ := hrange
    · obtain ⟨k, rfl⟩ := Nat.exists_eq_succ_of_ne_zero (Nat.ne_of_gt hpos)
      rw [run_write_part p hwhole] at hrun
      rw [decide_eq_false hwhole]
      split at hrun
      · rename_i bytes hbytes
        rw [h.lineCount_eq] at hlast
        refine ⟨[bytes], ?_, hrun⟩
        rw [List.flatten_singleton]
        exact Editor.eq_of_lineBytes h (by omega) (by omega) hbytes
      · cases hrun
    · exact absurd ⟨hfirst, hempty ▸ Nat.zero_le last⟩ hwhole

theorem run_store_eq_ok {whole : Bool} {chunks : List Bytes}
    (hrun : (store p whole chunks).run w = .ok count w') :
    w.files.replace p chunks = (.ok count, w'.files) ∧
      if whole = true ∧ (w.editor.namedIfUnnamed p).fileName.any (·.same p) = true then
        ∃ bytes, w'.files.read p = .ok bytes ∧
          w'.editor = ((w.editor.namedIfUnnamed p).named p).showing bytes
      else w'.editor = w.editor.namedIfUnnamed p := by
  unfold store at hrun
  obtain ⟨count', w₁, hchange, hrun⟩ := exists_of_run_bind hrun
  rw [run_changeFiles] at hchange
  cases hreplace : w.files.replace p chunks with
  | mk result files =>
    rw [hreplace] at hchange
    cases result with
    | error cause => cases hchange
    | ok count'' =>
      cases hchange
      change EStateM.run
        (if whole && (w.editor.namedIfUnnamed p).fileName.any (·.same p) then
          edit p >>= fun _ => pure count'
        else pure count') ⟨w.editor.namedIfUnnamed p, files⟩ = .ok count w' at hrun
      simp only [← Bool.and_eq_true]
      split at hrun
      · rename_i hreopen
        rw [if_pos hreopen]
        obtain ⟨_, w₂, hedit, hrun⟩ := exists_of_run_bind hrun
        cases hrun
        obtain ⟨source, hopen, hedit⟩ := exists_of_run_askFiles_bind hedit
        cases hedit
        refine ⟨rfl, ?_⟩
        obtain ⟨bytes, hread, rfl⟩ := FileTree.read_of_openSource hopen
        exact ⟨bytes, hread, by rw [Source.bytes_ofContent]⟩
      · rename_i hreopen
        rw [if_neg hreopen]
        cases hrun
        exact ⟨rfl, rfl⟩

theorem shows_of_run_write (h : w.editor.Indexed) (hrange : w.editor.HasRange first last)
    (hrun : (write p first last).run w = .ok count w') :
    w'.files.Shows p (ofLines (LineEdit.between first last w.editor.lineList)) := by
  obtain ⟨chunks, hflat, hstore⟩ := exists_store_of_run_write h hrange hrun
  obtain ⟨hreplace, -⟩ := run_store_eq_ok hstore
  exact ⟨_, (FileTree.stat_of_replace hreplace).2, hflat⟩

end EditM

/-- A write of lines over a path leaves them there, each with its newline, and the lines
of the document.  The editor keeps its file name or takes the path; it starts again from
the file when that is its own and holds the whole document. -/
structure Workspace.IsWritten (w : Workspace) (p : Path) (first last count : Nat)
    (w' : Workspace) : Prop where
  shows : w'.files.Shows p (ofLines (LineEdit.between first last w.editor.lineList))
  count_eq : count = (ofLines (LineEdit.between first last w.editor.lineList)).length
  lineList_eq : w'.editor.lineList = w.editor.lineList
  fileName_eq : w.editor.fileName = none → w'.editor.fileName = some p
  fileName_same : ∀ q, w.editor.fileName = some q → ∃ q', w'.editor.fileName = some q' ∧ q'.same q
  restarted : first ≤ 1 → w.editor.lineCount ≤ last →
    w'.editor.fileName.any (·.same p) = true →
      w'.editor.bytes = ofLines w.editor.lineList ∧ w'.editor.currentLine = w.editor.lineCount
  untouched : ¬(first ≤ 1 ∧ w.editor.lineCount ≤ last ∧
      w'.editor.fileName.any (·.same p) = true) →
    w'.editor.bytes = w.editor.bytes ∧ w'.editor.currentLine = w.editor.currentLine

namespace EditM

variable {w w' : Workspace} {p : Path} {first last count : Nat}

theorem isWritten_of_run_write (h : w.editor.Indexed) (hrange : w.editor.HasRange first last)
    (hrun : (write p first last).run w = .ok count w') : w.IsWritten p first last count w' := by
  obtain ⟨chunks, hflat, hstore⟩ := exists_store_of_run_write h hrange hrun
  obtain ⟨hreplace, heditor⟩ := run_store_eq_ok hstore
  obtain ⟨hcount, hstat⟩ := FileTree.stat_of_replace hreplace
  have hshows := shows_of_run_write h hrange hrun
  rw [hflat] at hcount
  simp only [Editor.fileName_namedIfUnnamed, decide_eq_true_eq] at heditor
  split at heditor
  · -- the whole document went to its own file
    rename_i hown
    obtain ⟨hwhole, hown⟩ := hown
    obtain ⟨bytes, hread, heditor⟩ := heditor
    rw [LineEdit.between_all hwhole.1 (h.lineCount_eq ▸ hwhole.2)] at hflat
    have hbytes := (FileTree.eq_of_read hstat hread).trans hflat
    have hlines : splitLines bytes = w.editor.lineList := by
      rw [hbytes]
      exact splitLines_ofLines fun line => newline_notMem_of_mem_splitLines
    have hname : w'.editor.fileName = some p := by
      rw [heditor]
      rfl
    refine ⟨hshows, hcount, ?_, fun _ => hname, fun q hq => ⟨p, hname, ?_⟩, fun _ _ _ => ?_,
      fun hnot => absurd ⟨hwhole.1, hwhole.2, ?_⟩ hnot⟩
    · rw [heditor, Editor.lineList_showing, hlines]
    · rw [hq] at hown
      exact Path.same_symm hown
    · rw [heditor, Editor.bytes_showing, Editor.currentLine_showing, hlines, h.lineCount_eq]
      exact ⟨hbytes, rfl⟩
    · rw [hname]
      exact Path.same_refl p
  · rename_i hother
    have hname : w'.editor.fileName = w.editor.fileName.or (some p) := by
      rw [heditor, Editor.fileName_namedIfUnnamed]
    refine ⟨hshows, hcount, ?_, fun hnone => ?_, fun q hq => ⟨q, ?_, Path.same_refl q⟩,
      fun hfirst hlast hown => absurd ⟨⟨hfirst, hlast⟩, hname ▸ hown⟩ hother, fun _ => ?_⟩
    · rw [heditor, Editor.lineList, Editor.bytes_namedIfUnnamed]
      rfl
    · rw [hname, hnone, Option.none_or]
    · rw [hname, hq, Option.some_or]
    · rw [heditor, Editor.bytes_namedIfUnnamed, Editor.currentLine_namedIfUnnamed]
      exact ⟨rfl, rfl⟩

/-! ## Opening and writing again -/

theorem run_edit_of_read {e : Editor} {files : FileTree} {content : Bytes}
    (h : files.read p = .ok content) :
    (edit p).run ⟨e, files⟩ = .ok () ⟨(e.named p).showing content, files⟩ := by
  rw [edit, EStateM.run_bind, run_askFiles]
  dsimp only
  rw [FileTree.openSource_of_read h]
  change EStateM.Result.ok () _ = _
  rw [Source.bytes_ofContent]

theorem exists_run_write_all {e : Editor} {files : FileTree} (h : e.Indexed)
    (hreplace : ∀ chunks, ∃ files', files.replace p chunks = (.ok chunks.flatten.length, files'))
    (hread : ∀ node, files.stat p = .ok node → node.grants .read = true) :
    ∃ w', (write p 1 e.lineCount).run ⟨e, files⟩ = .ok (ofLines e.lineList).length w' := by
  have hwhole : 1 ≤ 1 ∧ e.lineCount ≤ e.lineCount := ⟨Nat.le_refl _, Nat.le_refl _⟩
  rw [run_write_whole p (w := ⟨e, files⟩) hwhole]
  obtain ⟨files', hfiles⟩ := hreplace
    (e.table.chunks ++ [if e.lines.missingFinalNewline then [newline] else []])
  have hedit := run_edit_of_read (e := e.namedIfUnnamed p) (FileTree.read_of_replace hfiles hread)
  rw [flatten_allChunks h] at hfiles hedit
  unfold store
  rw [EStateM.run_bind, run_changeFiles, hfiles]
  change ∃ w', EStateM.run
    (if true && (e.namedIfUnnamed p).fileName.any (·.same p) then
      edit p >>= fun _ => pure (ofLines e.lineList).length
    else pure (ofLines e.lineList).length) ⟨e.namedIfUnnamed p, files'⟩ = .ok _ w'
  split
  · rw [EStateM.run_bind, hedit]
    exact ⟨_, rfl⟩
  · exact ⟨_, rfl⟩

end EditM

/-- Saving and loading are inverse on lines.  A write of lines that succeeds leaves them in
the target, each with its newline, and the lines of the document as they were.  When the
permission bits of the target let its owner read it, whoever edits it gets these lines;
written again, they make the same file, and at the same path this never fails. -/
theorem Workspace.Reachable.write_then_edit {w w' : Workspace} (h : w.Reachable) {p : Path}
    {first last count : Nat} (hrange : w.editor.HasRange first last)
    (hrun : (EditM.write p first last).run w = .ok count w') :
    w.IsWritten p first last count w' ∧
      ((∀ node, w.files.stat p = .ok node → node.grants .read = true) → ∀ e : Editor,
        ∃ w₂, (EditM.edit p).run ⟨e, w'.files⟩ = .ok () w₂ ∧ w₂.files = w'.files ∧
          w₂.editor.lineList = LineEdit.between first last w.editor.lineList ∧
          (∃ w₃, (EditM.write p 1 w₂.editor.lineCount).run w₂ = .ok count w₃) ∧
          ∀ q count' w₃, (EditM.write q 1 w₂.editor.lineCount).run w₂ = .ok count' w₃ →
            count' = count ∧
              w₃.files.Shows q (ofLines (LineEdit.between first last w.editor.lineList))) := by
  have hwritten := EditM.isWritten_of_run_write h.indexed hrange hrun
  refine ⟨hwritten, fun hread e => ?_⟩
  obtain ⟨chunks, hflat, hstore⟩ := EditM.exists_store_of_run_write h.indexed hrange hrun
  obtain ⟨hreplace, -⟩ := EditM.run_store_eq_ok hstore
  have hcontent := FileTree.read_of_replace hreplace hread
  have hindexed := (e.named p).indexed_showing chunks.flatten
  have hlines : ((e.named p).showing chunks.flatten).lineList =
      LineEdit.between first last w.editor.lineList := by
    rw [Editor.lineList_showing, hflat]
    apply splitLines_ofLines
    intro line hline
    exact newline_notMem_of_mem_splitLines (List.mem_of_mem_take (List.mem_of_mem_drop hline))
  refine ⟨_, EditM.run_edit_of_read hcontent, rfl, hlines, ?_, fun q count' w₃ hagain => ?_⟩
  · have hagain := EditM.exists_run_write_all hindexed
      (fun chunks => FileTree.exists_replace_again hreplace chunks)
      (FileTree.grants_of_replace hreplace hread)
    rwa [hlines, ← hwritten.count_eq] at hagain
  · have hall := EditM.isWritten_of_run_write hindexed (Editor.hasRange_all _) hagain
    have hbetween := LineEdit.between_all (Nat.le_refl 1) (Nat.le_of_eq hindexed.lineCount_eq.symm)
    rw [hlines] at hbetween
    have hshows := hall.shows
    have hcount := hall.count_eq
    rw [hlines, hbetween] at hshows hcount
    exact ⟨hcount.trans hwritten.count_eq.symm, hshows⟩

namespace Workspace.Reachable

def threeLines (mode : Nat) : Workspace :=
  ⟨.ofText "a\n\nb", ⟨"/", [(⟨["f"]⟩, .file (.ofContent [] mode))]⟩⟩

theorem exists_of_result {x : EditM α} {w : Workspace} {a : α}
    (h : (match x.run w with | .ok a _ => some a | .error _ _ => none) = some a) :
    ∃ w', x.run w = .ok a w' := by
  cases hrun : x.run w with
  | ok b w' =>
    rw [hrun] at h
    cases h
    exact ⟨w', rfl⟩
  | error cause w' =>
    rw [hrun] at h
    cases h

theorem write_then_edit_group_readable :
    ∃ w', (EditM.write ⟨"f"⟩ 2 3).run (threeLines 0o640) = .ok 3 w' ∧
      w'.files.Shows ⟨"f"⟩ [newline, 98, newline] ∧
      ∃ w₂, (EditM.edit ⟨"f"⟩).run ⟨.empty, w'.files⟩ = .ok () w₂ ∧
        w₂.editor.lineList = [[], [98]] := by
  have hreachable : (threeLines 0o640).Reachable := .ofText _ _
  have hlines : LineEdit.between 2 3 (threeLines 0o640).editor.lineList = [[], [98]] := by
    decide +kernel
  have hgrants : ((threeLines 0o640).files.stat ⟨"f"⟩).toOption.all (·.grants .read) = true := by
    decide +kernel
  obtain ⟨w', hrun⟩ : ∃ w', (EditM.write ⟨"f"⟩ 2 3).run (threeLines 0o640) = .ok 3 w' :=
    exists_of_result (by decide +kernel)
  obtain ⟨hwritten, hagain⟩ := write_then_edit hreachable (.inl (by decide +kernel)) hrun
  have hread : ∀ node, (threeLines 0o640).files.stat ⟨"f"⟩ = .ok node → node.grants .read = true := by
    intro node hnode
    rw [hnode] at hgrants
    exact hgrants
  obtain ⟨w₂, hedit, -, hlist, -⟩ := hagain hread .empty
  have hshows := hwritten.shows
  rw [hlines] at hshows hlist
  exact ⟨w', hrun, hshows, w₂, hedit, hlist⟩

/-- Without the owner's permission to read, a write succeeds and its target cannot be edited. -/
theorem write_then_edit_unreadable :
    (threeLines 0o200).Reachable ∧ (threeLines 0o200).editor.HasRange 2 3 ∧
      ∃ w', (EditM.write ⟨"f"⟩ 2 3).run (threeLines 0o200) = .ok 3 w' ∧
        (EditM.edit ⟨"f"⟩).run ⟨.empty, w'.files⟩ =
          .error (.file .permissionDenied) ⟨.empty, w'.files⟩ := by
  have hreachable : (threeLines 0o200).Reachable := .ofText _ _
  have hrange : (threeLines 0o200).editor.HasRange 2 3 := .inl (by decide +kernel)
  obtain ⟨w', hrun⟩ : ∃ w', (EditM.write ⟨"f"⟩ 2 3).run (threeLines 0o200) = .ok 3 w' :=
    exists_of_result (by decide +kernel)
  obtain ⟨chunks, -, hstore⟩ := EditM.exists_store_of_run_write hreachable.indexed hrange hrun
  obtain ⟨hreplace, -⟩ := EditM.run_store_eq_ok hstore
  obtain ⟨-, hstat⟩ := FileTree.stat_of_replace hreplace
  have hmode : (threeLines 0o200).files.keptMode ⟨"f"⟩ = 0o200 := by decide +kernel
  rw [hmode] at hstat
  have hgrants : (Node.file (.ofContent chunks.flatten 0o200)).grants .read = false := by
    change Nat.testBit 0o200 8 = false
    decide
  have hrefused : (Node.file (.ofContent chunks.flatten 0o200)).require .read =
      .error .permissionDenied := if_neg (Bool.eq_false_iff.mp hgrants)
  have hread : w'.files.read ⟨"f"⟩ = .error .permissionDenied := by
    rw [FileTree.read, FileTree.file, hstat]
    change Except.map _ ((Node.file _).require .read >>= fun _ => _) = _
    rw [hrefused]
    rfl
  have hopen : w'.files.openSource ⟨"f"⟩ = .error .permissionDenied := by
    rw [FileTree.openSource, hread]
  refine ⟨hreachable, hrange, w', hrun, ?_⟩
  rw [EditM.edit, EStateM.run_bind, EditM.run_askFiles]
  dsimp only
  rw [hopen]

end Workspace.Reachable

end Redline

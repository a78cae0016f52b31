import Redline.Proofs.Reachable
import Redline.Proofs.Replacement
import Redline.Session
/-!
# Commands do not see how the text is stored

Two editors may show the same text and yet cut it into different pieces.  A relation between
such editors is kept by every step of every command, and a step gives the same answer in both;
so no script can tell them apart.
-/

namespace Redline

/-! ## Tables with the same text -/

namespace PieceTable

structure Agrees (t u : PieceTable) : Prop where
  left : t.WellFormed
  right : u.WellFormed
  toBytes_eq : t.toBytes = u.toBytes

namespace Agrees

variable {t u : PieceTable}

theorem refl (h : t.WellFormed) : t.Agrees t :=
  ⟨h, h, rfl⟩

theorem length_eq (h : t.Agrees u) : t.length = u.length := by
  rw [← length_toBytes h.left, ← length_toBytes h.right, h.toBytes_eq]

theorem checkRange_eq (h : t.Agrees u) (position count : Nat) :
    t.checkRange position count = u.checkRange position count := by
  unfold checkRange checkPosition
  rw [h.length_eq]

theorem read_eq (h : t.Agrees u) (position count : Nat) :
    t.read position count = u.read position count := by
  have hleft : t.readAt position count t.pieces = (t.toBytes.drop position).take count :=
    readAt_eq h.left position count
  have hright : u.readAt position count u.pieces = (u.toBytes.drop position).take count :=
    readAt_eq h.right position count
  rw [read, read, h.checkRange_eq, hleft, hright, h.toBytes_eq]

/-- A call fails on both for the same reason, or makes tables with the same text of them. -/
theorem apply (h : t.Agrees u) (edit : Edit) :
    (∃ fault, edit.apply t = .error fault ∧ edit.apply u = .error fault) ∨
      ∃ t' u', edit.apply t = .ok t' ∧ edit.apply u = .ok u' ∧ t'.Agrees u' := by
  cases edit with
  | insert position bytes =>
    by_cases hposition : position ≤ t.length
    · refine .inr ⟨_, _, insert_eq_ok_iff.mpr ⟨hposition, rfl⟩,
        insert_eq_ok_iff.mpr ⟨h.length_eq ▸ hposition, rfl⟩, h.left.inserted position bytes,
        h.right.inserted position bytes, ?_⟩
      rw [toBytes_inserted h.left, toBytes_inserted h.right, h.toBytes_eq]
    · have hlt := Nat.lt_of_not_le hposition
      refine .inl ⟨_, insert_eq_error_iff.mpr ⟨hlt, rfl⟩, insert_eq_error_iff.mpr ?_⟩
      rw [← h.length_eq]
      exact ⟨hlt, rfl⟩
  | delete position count =>
    simp only [Edit.apply, delete, ← h.checkRange_eq]
    cases t.checkRange position count with
    | error fault => exact .inl ⟨fault, rfl, rfl⟩
    | ok _ =>
      refine .inr ⟨_, _, rfl, rfl, h.left.deleted position count,
        h.right.deleted position count, ?_⟩
      rw [toBytes_deleted h.left, toBytes_deleted h.right, h.toBytes_eq]
  | reset bytes => exact .inr ⟨_, _, rfl, rfl, .refl (.ofBytes bytes)⟩

end Agrees

end PieceTable

/-! ## Editors that look alike -/

/-- Nothing but the way in which the text is stored tells the editors apart. -/
structure Editor.Alike (e d : Editor) : Prop where
  table : e.table.Agrees d.table
  lines_eq : e.lines = d.lines
  fileName_eq : e.fileName = d.fileName
  currentLine_eq : e.currentLine = d.currentLine
  lastError_eq : e.lastError = d.lastError

namespace Editor.Alike

variable {e d : Editor}

theorem eq_withTable (h : e.Alike d) : d = { e with table := d.table } := by
  cases d
  cases h.lines_eq
  cases h.fileName_eq
  cases h.currentLine_eq
  cases h.lastError_eq
  rfl

/-! ## What a command asks an editor for -/

theorem lineCount_eq (h : e.Alike d) : e.lineCount = d.lineCount := by
  rw [h.eq_withTable]
  rfl

theorem resolve?_eq (h : e.Alike d) (a : Option Address) : e.resolve? a = d.resolve? a := by
  rw [h.eq_withTable]
  rfl

theorem resolveRange_eq (h : e.Alike d) (c : Command) : e.resolveRange c = d.resolveRange c := by
  rw [h.eq_withTable]
  rfl

theorem resolveDestination_eq (h : e.Alike d) (a : Option Address) :
    e.resolveDestination a = d.resolveDestination a := by
  unfold resolveDestination
  rw [h.resolve?_eq]

theorem lineSpan_eq (h : e.Alike d) (first last : Nat) :
    e.lineSpan first last = d.lineSpan first last := by
  unfold lineSpan
  rw [h.lines_eq]

theorem readSpan_eq (h : e.Alike d) (s : Span) : e.readSpan s = d.readSpan s := by
  unfold readSpan
  rw [h.table.read_eq]

theorem lineBytes_eq (h : e.Alike d) (first last : Nat) :
    e.lineBytes first last = d.lineBytes first last := by
  simp only [lineBytes, h.lineSpan_eq, h.readSpan_eq]

theorem lineContent_eq (h : e.Alike d) (line : Nat) : e.lineContent line = d.lineContent line := by
  simp only [lineContent, h.lines_eq, h.readSpan_eq]

theorem joinedLines_eq (h : e.Alike d) (first last : Nat) (shown : Nat → Bytes → Bytes) :
    e.joinedLines first last shown = d.joinedLines first last shown := by
  simp only [joinedLines, h.lineContent_eq]

/-! ## What a command does to an editor -/

theorem atLine (h : e.Alike d) (line : Nat) : (e.atLine line).Alike (d.atLine line) where
  table := h.table
  lines_eq := h.lines_eq
  fileName_eq := h.fileName_eq
  currentLine_eq := congrArg (min line) h.lineCount_eq
  lastError_eq := h.lastError_eq

theorem reindexed (h : e.Alike d) : e.reindexed.Alike d.reindexed where
  table := h.table
  lines_eq := congrArg LineIndex.ofBytes h.table.toBytes_eq
  fileName_eq := h.fileName_eq
  currentLine_eq := h.currentLine_eq
  lastError_eq := h.lastError_eq

theorem named (h : e.Alike d) (p : Path) : (e.named p).Alike (d.named p) :=
  ⟨h.table, h.lines_eq, rfl, h.currentLine_eq, h.lastError_eq⟩

theorem namedIfUnnamed (h : e.Alike d) (p : Path) :
    (e.namedIfUnnamed p).Alike (d.namedIfUnnamed p) := by
  unfold Editor.namedIfUnnamed
  rw [h.fileName_eq]
  split
  · exact h.named p
  · exact h

theorem showing (h : e.Alike d) (bytes : Bytes) : (e.showing bytes).Alike (d.showing bytes) :=
  ⟨.refl (.ofBytes bytes), rfl, h.fileName_eq, rfl, h.lastError_eq⟩

theorem recordError (h : e.Alike d) (cause : EditError) :
    (e.recordError cause).Alike (d.recordError cause) :=
  ⟨h.table, h.lines_eq, h.fileName_eq, h.currentLine_eq, rfl⟩

end Editor.Alike

structure Workspace.Alike (w v : Workspace) : Prop where
  editor : w.editor.Alike v.editor
  files_eq : w.files = v.files

/-- Two runs come to the same failure or to related values, and to workspaces that look
alike. -/
inductive EndsAlike {α β : Type} (R : α → β → Prop) :
    EStateM.Result EditError Workspace α → EStateM.Result EditError Workspace β → Prop where
  | ok {a b w v} (hvalue : R a b) (hstate : w.Alike v) : EndsAlike R (.ok a w) (.ok b v)
  | error {cause w v} (hstate : w.Alike v) : EndsAlike R (.error cause w) (.error cause v)

theorem EndsAlike.ok_or_error {α β : Type} {R : α → β → Prop}
    {r : EStateM.Result EditError Workspace α} {r' : EStateM.Result EditError Workspace β}
    (h : EndsAlike R r r') :
    (∃ a b w v, r = .ok a w ∧ r' = .ok b v ∧ R a b ∧ w.Alike v) ∨
      ∃ cause w v, r = .error cause w ∧ r' = .error cause v ∧ w.Alike v := by
  cases h with
  | ok hvalue hstate => exact .inl ⟨_, _, _, _, rfl, rfl, hvalue, hstate⟩
  | error hstate => exact .inr ⟨_, _, _, rfl, rfl, hstate⟩

namespace EditM

def Related {α β : Type} (R : α → β → Prop) (x : EditM α) (y : EditM β) : Prop :=
  ∀ w v : Workspace, w.Alike v → EndsAlike R (x.run w) (y.run v)

abbrev Blind {α : Type} (x : EditM α) : Prop :=
  Related Eq x x

variable {α β γ δ : Type} {R : α → β → Prop} {S : γ → δ → Prop}

/-! ## Steps -/

theorem related_pure {a : α} {b : β} (h : R a b) : Related R (pure a) (pure b) :=
  fun _ _ hstate => .ok h hstate

theorem related_throw (cause : EditError) : Related R (throw cause) (throw cause) :=
  fun _ _ hstate => .error hstate

theorem related_bind {x : EditM α} {y : EditM β} {f : α → EditM γ} {g : β → EditM δ}
    (hx : Related R x y) (hf : ∀ a b, R a b → Related S (f a) (g b)) :
    Related S (x >>= f) (y >>= g) := by
  intro w v h
  rw [EStateM.run_bind, EStateM.run_bind]
  obtain ⟨a, b, w', v', hw, hv, hvalue, hstate⟩ | ⟨cause, w', v', hw, hv, hstate⟩ :=
    (hx w v h).ok_or_error
  · rw [hw, hv]
    exact hf a b hvalue w' v' hstate
  · rw [hw, hv]
    exact .error hstate

theorem blind_bind {x : EditM α} {f : α → EditM γ} {g : α → EditM δ} (hx : Blind x)
    (hf : ∀ a, Related S (f a) (g a)) : Related S (x >>= f) (x >>= g) := by
  refine related_bind hx fun a b hab => ?_
  cases hab
  exact hf a

theorem blind_ask {f : Editor → Except EditError α} (h : ∀ e d : Editor, e.Alike d → f e = f d) :
    Blind (ask f) := by
  intro w v hstate
  rw [run_ask, run_ask, h _ _ hstate.editor]
  cases f v.editor with
  | ok a => exact .ok rfl hstate
  | error cause => exact .error hstate

theorem related_ask_self : Related Editor.Alike (ask .ok) (ask .ok) :=
  fun _ _ hstate => .ok hstate.editor hstate

theorem blind_update {f : Editor → Editor} (h : ∀ e d : Editor, e.Alike d → (f e).Alike (f d)) :
    Blind (update f) :=
  fun _ _ hstate => .ok rfl ⟨h _ _ hstate.editor, hstate.files_eq⟩

theorem blind_askFiles (f : FileTree → Except FileError α) : Blind (askFiles f) := by
  intro w v hstate
  rw [run_askFiles, run_askFiles, hstate.files_eq]
  cases f v.files with
  | ok a => exact .ok rfl hstate
  | error cause => exact .error hstate

theorem related_changeFiles {f g : FileTree → Except FileError α × FileTree}
    (h : ∀ t, f t = g t) : Related Eq (changeFiles f) (changeFiles g) := by
  intro w v hstate
  rw [run_changeFiles, run_changeFiles, hstate.files_eq, h]
  cases g v.files with
  | mk result files =>
    cases result with
    | ok a => exact .ok rfl ⟨hstate.editor, rfl⟩
    | error cause => exact .error ⟨hstate.editor, rfl⟩

theorem blind_changeText (edit : PieceTable.Edit) : Blind (changeText fun t => edit.apply t) := by
  intro w v hstate
  rw [run_changeText, run_changeText]
  rcases hstate.editor.table.apply edit with ⟨fault, hw, hv⟩ | ⟨t, u, hw, hv, hagrees⟩
  · rw [hw, hv]
    exact .error hstate
  · rw [hw, hv]
    obtain ⟨-, hlines, hname, hline, herror⟩ := hstate.editor
    exact .ok rfl ⟨⟨hagrees, hlines, hname, hline, herror⟩, hstate.files_eq⟩

/-! ## Actions on lines -/

theorem blind_goTo (line : Nat) : Blind (goTo line) :=
  blind_update fun _ _ h => h.atLine line

theorem blind_reindex : Blind reindex :=
  blind_update fun _ _ h => h.reindexed

theorem blind_insertBefore (line : Nat) (text : Bytes) : Blind (insertBefore line text) := by
  unfold insertBefore
  split
  · exact related_pure rfl
  · refine blind_bind (blind_ask fun e d h => by rw [h.lines_eq]) fun lines => ?_
    dsimp only
    split
    · refine blind_bind (blind_changeText (.insert _ _)) fun _ => ?_
      exact blind_bind (blind_changeText (.insert _ _)) fun _ => blind_reindex
    · exact blind_bind (blind_changeText (.insert _ _)) fun _ => blind_reindex

theorem blind_deleteLines (first last : Nat) : Blind (deleteLines first last) := by
  refine blind_bind (blind_ask fun e d h => h.lineSpan_eq first last) fun s => ?_
  exact blind_bind (blind_changeText (.delete _ _)) fun _ => blind_reindex

theorem blind_dropNewlines (lines : List Nat) : Blind (dropNewlines lines) := by
  induction lines with
  | nil => exact related_pure rfl
  | cons line rest ih =>
    refine blind_bind (blind_ask fun e d h => by rw [h.lines_eq]) fun range => ?_
    exact blind_bind (blind_changeText (.delete _ _)) fun _ => ih

theorem blind_joinLines (first last : Nat) : Blind (joinLines first last) :=
  blind_bind (blind_dropNewlines _) fun _ => blind_reindex

/-! ## Files -/

theorem blind_fileOr (file : Option Path) : Blind (fileOr file) :=
  blind_ask fun e d h => by rw [h.fileName_eq]

theorem blind_edit (p : Path) : Blind (edit p) :=
  blind_bind (blind_askFiles _) fun source =>
    blind_update fun _ _ h => (h.named p).showing source.bytes

theorem related_store (p : Path) (whole : Bool) {chunks chunks' : List Bytes}
    (h : chunks.flatten = chunks'.flatten) :
    Related Eq (store p whole chunks) (store p whole chunks') := by
  refine related_bind (related_changeFiles fun t => FileTree.replace_congr h) ?_
  rintro count _ rfl
  refine blind_bind (blind_update fun _ _ h => h.namedIfUnnamed p) fun _ => ?_
  refine related_bind related_ask_self fun e d h => ?_
  rw [h.fileName_eq]
  dsimp only
  split
  · exact blind_bind (blind_edit p) fun _ => related_pure rfl
  · exact related_pure rfl

/-- The chunks of a whole document may be cut differently; what they come to is the same. -/
theorem blind_write (p : Path) (first last : Nat) : Blind (write p first last) := by
  intro w v h
  by_cases hwhole : first ≤ 1 ∧ w.editor.lineCount ≤ last
  · have hwhole' : first ≤ 1 ∧ v.editor.lineCount ≤ last := h.editor.lineCount_eq ▸ hwhole
    rw [run_write_whole p hwhole, run_write_whole p hwhole', h.editor.lines_eq]
    refine related_store p true ?_ w v h
    have htext : w.editor.table.chunks.flatten = v.editor.table.chunks.flatten :=
      h.editor.table.toBytes_eq
    rw [List.flatten_append, List.flatten_append, htext]
  · have hpart' : ¬(first ≤ 1 ∧ v.editor.lineCount ≤ last) := h.editor.lineCount_eq ▸ hwhole
    rw [run_write_part p hwhole, run_write_part p hpart', h.editor.lineBytes_eq]
    cases v.editor.lineBytes first last with
    | error cause => exact .error h
    | ok bytes => exact related_store p false rfl w v h

/-! ## Commands -/

theorem blind_resolve? (a : Option Address) : Blind (ask (·.resolve? a)) :=
  blind_ask fun _ _ h => h.resolve?_eq a

theorem blind_resolveRange (c : Command) : Blind (ask (·.resolveRange c)) :=
  blind_ask fun _ _ h => h.resolveRange_eq c

theorem blind_resolveDestination (a : Option Address) : Blind (ask (·.resolveDestination a)) :=
  blind_ask fun _ _ h => h.resolveDestination_eq a

theorem blind_lineBytes (first last : Nat) : Blind (ask (·.lineBytes first last)) :=
  blind_ask fun _ _ h => h.lineBytes_eq first last

theorem blind_showLine (line : Nat) : Blind (showLine line) := by
  unfold showLine
  split
  · exact related_throw _
  · exact blind_bind (blind_goTo line) fun _ => blind_ask fun _ _ h => h.lineContent_eq line

theorem blind_showRange (c : Command) (shown : Nat → Bytes → Bytes) :
    Blind (showRange c shown) :=
  blind_ask fun e d h => by simp only [h.resolveRange_eq, h.joinedLines_eq]

theorem blind_append (c : Command) (text : String) : Blind (append c text) :=
  blind_bind (blind_resolve? c.first) fun line =>
    blind_bind (blind_insertBefore (line + 1) _) fun _ => blind_goTo _

theorem blind_insert (c : Command) (text : String) : Blind (insert c text) :=
  blind_bind (blind_resolve? c.first) fun line => blind_insertBefore (max line 1) _

theorem blind_change (c : Command) (text : String) : Blind (change c text) :=
  blind_bind (blind_resolveRange c) fun range =>
    blind_bind (blind_deleteLines range.1 range.2) fun _ =>
      blind_bind (blind_insertBefore range.1 _) fun _ => blind_goTo _

theorem blind_delete (c : Command) : Blind (delete c) :=
  blind_bind (blind_resolveRange c) fun range =>
    blind_bind (blind_deleteLines range.1 range.2) fun _ => blind_goTo _

theorem blind_join (c : Command) : Blind (join c) :=
  blind_bind (blind_resolveRange c) fun range =>
    blind_bind (blind_joinLines range.1 range.2) fun _ => blind_goTo _

theorem blind_copy (c : Command) (destination : Option Address) : Blind (copy c destination) :=
  blind_bind (blind_resolveRange c) fun range =>
    blind_bind (blind_resolveDestination destination) fun line =>
      blind_bind (blind_lineBytes range.1 range.2) fun bytes =>
        blind_bind (blind_insertBefore (line + 1) bytes) fun _ => blind_goTo _

theorem blind_relocate (first last line : Nat) : Blind (relocate first last line) := by
  refine blind_bind (blind_lineBytes first last) fun bytes => ?_
  split
  · exact blind_bind (blind_insertBefore _ bytes) fun _ =>
      blind_bind (blind_deleteLines first last) fun _ => blind_goTo _
  · exact blind_bind (blind_deleteLines first last) fun _ =>
      blind_bind (blind_insertBefore _ bytes) fun _ => blind_goTo _

theorem blind_move (c : Command) (destination : Option Address) : Blind (move c destination) := by
  rw [move_eq]
  refine blind_bind (blind_resolveRange c) fun range => ?_
  refine blind_bind (blind_resolveDestination destination) fun line => ?_
  split
  · exact related_throw _
  · exact blind_relocate range.1 range.2 line

theorem blind_fileName (file : Option Path) : Blind (fileName file) := by
  cases file with
  | none => exact blind_bind (blind_fileOr none) fun p => related_pure rfl
  | some p =>
    exact blind_bind (blind_update fun _ _ h => h.named p) fun _ =>
      blind_bind (blind_fileOr none) fun p => related_pure rfl

theorem blind_read (c : Command) (file : Option Path) : Blind (read c file) := by
  refine blind_bind (blind_resolve? c.first) fun line => ?_
  refine blind_bind (blind_fileOr file) fun p => ?_
  refine blind_bind (blind_askFiles _) fun bytes => ?_
  refine blind_bind (blind_insertBefore (line + 1) _) fun _ => ?_
  refine blind_bind (blind_update fun _ _ h => h.namedIfUnnamed p) fun _ => ?_
  dsimp only
  split
  · exact blind_goTo _
  · exact related_pure rfl

theorem blind_writeCommand (c : Command) (file : Option Path) : Blind (writeCommand c file) := by
  refine blind_bind (blind_fileOr file) fun p => ?_
  refine blind_bind (blind_ask fun e d h => ?_) fun range => ?_
  · rw [h.lineCount_eq, h.resolveRange_eq]
  · exact blind_bind (blind_write p range.1 range.2) fun _ => related_pure rfl

theorem blind_silently {action : EditM Unit} (h : Blind action) : Blind (silently action) :=
  blind_bind h fun _ => related_pure rfl

theorem blind_perform (c : Command) (explicit : Bool) : Blind (perform c explicit) := by
  unfold perform
  cases c.verb with
  | goTo => exact blind_bind (blind_resolve? _) fun line => blind_showLine line
  | print => exact blind_showRange c _
  | number => exact blind_showRange c _
  | list => exact blind_showRange c _
  | lineNumber => exact blind_bind (blind_resolve? _) fun line => related_pure rfl
  | append text => exact blind_silently (blind_append c text)
  | insert text => exact blind_silently (blind_insert c text)
  | change text => exact blind_silently (blind_change c text)
  | delete => exact blind_silently (blind_delete c)
  | join => exact blind_silently (blind_join c)
  | copy destination => exact blind_silently (blind_copy c destination)
  | move destination => exact blind_silently (blind_move c destination)
  | edit file | editAnyway file =>
    exact blind_silently (blind_bind (blind_fileOr file) fun p => blind_edit p)
  | fileName file => exact blind_fileName file
  | read file => exact blind_silently (blind_read c file)
  | write file => exact blind_silently (blind_writeCommand c file)
  | help => exact blind_ask fun _ _ h => by rw [h.lastError_eq]
  | quit | quitAnyway => exact related_pure rfl
  | mark _ => exact related_throw _
  | onMatching | onMatchingAsk | onOthers | onOthersAsk | helpMode | prompt | substitute | undo
  | shell => exact related_throw _

theorem blind_execute (c : Command) : Blind (execute c) := by
  intro w v h
  rw [run_execute, run_execute]
  obtain ⟨_, _, w', v', hw, hv, rfl, hstate⟩ | ⟨cause, w', v', hw, hv, hstate⟩ :=
    (blind_perform c.withDefaults c.first.isSome w v h).ok_or_error
  · rw [hw, hv]
    exact .ok rfl hstate
  · rw [hw, hv]
    exact .error ⟨hstate.editor.recordError cause, hstate.files_eq⟩

end EditM

/-! ## Scripts -/

namespace Session

variable {w v : Workspace}

theorem step_alike (item : Script.Item) (h : w.Alike v) :
    (step item w).1 = (step item v).1 ∧ (step item w).2.Alike (step item v).2 := by
  cases item with
  | error cause => exact ⟨rfl, h.editor.recordError _, h.files_eq⟩
  | ok c =>
    unfold step
    obtain ⟨_, _, w', v', hw, hv, rfl, hstate⟩ | ⟨cause, w', v', hw, hv, hstate⟩ :=
      (EditM.blind_execute c w v h).ok_or_error
    · rw [EStateM.run] at hw hv
      simp only [hw, hv]
      exact ⟨trivial, hstate⟩
    · rw [EStateM.run] at hw hv
      simp only [hw, hv]
      exact ⟨trivial, hstate⟩

theorem runItems_alike (items : List Script.Item) (h : w.Alike v) :
    (runItems items w).1 = (runItems items v).1 ∧
      (runItems items w).2.Alike (runItems items v).2 := by
  induction items generalizing w v with
  | nil => exact ⟨rfl, h⟩
  | cons item rest ih =>
    rw [runItems, runItems]
    by_cases hquit : isQuit item = true
    · rw [if_pos hquit, if_pos hquit]
      exact ⟨rfl, h⟩
    · obtain ⟨hwritten, hstate⟩ := step_alike item h
      obtain ⟨hmore, hend⟩ := ih hstate
      rw [if_neg hquit, if_neg hquit]
      refine ⟨?_, hend⟩
      dsimp only
      rw [hwritten, hmore]

end Session

/-- What is stored in which piece, and where, is nothing that a command or a script could
tell: in reachable workspaces with the same text, current line, file name, remembered failure
and files, they give the same answers and leave workspaces that look alike. -/
theorem execute_independent_of_storage {w v : Workspace} (hw : w.Reachable) (hv : v.Reachable)
    (hbytes : w.editor.bytes = v.editor.bytes)
    (hline : w.editor.currentLine = v.editor.currentLine)
    (hname : w.editor.fileName = v.editor.fileName)
    (herror : w.editor.lastError = v.editor.lastError) (hfiles : w.files = v.files) :
    (∀ c, EndsAlike Eq ((EditM.execute c).run w) ((EditM.execute c).run v)) ∧
      ∀ script, (Session.run script w).1 = (Session.run script v).1 ∧
        (Session.run script w).2.Alike (Session.run script v).2 := by
  have hagrees : w.editor.table.Agrees v.editor.table :=
    ⟨hw.indexed.wellFormed, hv.indexed.wellFormed, hbytes⟩
  have hlines : w.editor.lines = v.editor.lines := by
    rw [hw.indexed.lines_eq, hv.indexed.lines_eq, hbytes]
  have halike : w.Alike v := ⟨⟨hagrees, hlines, hname, hline, herror⟩, hfiles⟩
  exact ⟨fun c => EditM.blind_execute c w v halike,
    fun script => Session.runItems_alike _ halike⟩

/-- A line that was appended stands in a piece of its own, unlike one that was there from the
start; joining the lines comes to the same. -/
theorem execute_independent_of_storage_append :
    ∃ w v : Workspace, w.editor.table.pieces.length = 2 ∧ v.editor.table.pieces.length = 1 ∧
      EndsAlike Eq ((EditM.execute ⟨.join, some (.line 1), some (.line 2)⟩).run w)
        ((EditM.execute ⟨.join, some (.line 1), some (.line 2)⟩).run v) ∧
      (Session.run (.ofString "1d\n1n\n") w).1 = (Session.run (.ofString "1d\n1n\n") v).1 := by
  have hw : Workspace.Reachable _ :=
    .execute ⟨.append "b\n", none, none⟩ (.ofText "a\n" (.empty "/"))
  have hv : Workspace.Reachable ⟨.ofText "a\nb\n", .empty "/"⟩ := .ofText _ _
  have hsame := execute_independent_of_storage hw hv (by decide +kernel) (by decide +kernel)
    (by decide +kernel) (by decide +kernel) rfl
  exact ⟨_, _, by decide +kernel, by decide +kernel, hsame.1 _, (hsame.2 _).1⟩

end Redline

import Redline.Proofs.LineRefinement
/-!
# Ranges with explicit addresses

A command for a range of lines is refused, and changes nothing, if its addresses stand for no
such range.  Writing an empty document is the exception: there the addresses are not read.
-/

namespace Redline

def Verb.ActsOnRange : Verb → Prop
  | .print | .number | .list | .delete | .change _ | .join | .copy _ | .move _ | .write _ => True
  | _ => False

namespace EditM

variable {w : Workspace} {c : Command} {file : Option Path} {α β : Type}

def Refused (x : EditM α) (w : Workspace) : Prop :=
  ∃ cause, x.run w = .error cause w

theorem refused_bind {x : EditM α} (h : Refused x w) (f : α → EditM β) : Refused (x >>= f) w := by
  obtain ⟨cause, hrun⟩ := h
  refine ⟨cause, ?_⟩
  rw [EStateM.run_bind, hrun]

theorem refused_ask {f : Editor → Except EditError α} (h : ∀ a, f w.editor ≠ .ok a) :
    Refused (ask f) w := by
  unfold Refused
  rw [run_ask]
  cases hask : f w.editor with
  | ok a => exact absurd hask (h a)
  | error cause => exact ⟨cause, rfl⟩

theorem refused_ask_bind {f : Editor → Except EditError α} {g : α → EditM β}
    (h : ∀ a, f w.editor = .ok a → Refused (g a) w) : Refused (ask f >>= g) w := by
  unfold Refused
  rw [EStateM.run_bind, run_ask]
  cases hask : f w.editor with
  | ok a => exact h a hask
  | error cause => exact ⟨cause, rfl⟩

/-! ## Addresses without a range -/

theorem refused_onRange (h : ∀ range, w.editor.resolveRange c ≠ .ok range)
    (f : Nat × Nat → EditM α) : Refused (ask (·.resolveRange c) >>= f) w :=
  refused_bind (refused_ask h) f

theorem refused_showRange (h : ∀ range, w.editor.resolveRange c ≠ .ok range)
    (shown : Nat → Bytes → Bytes) : Refused (showRange c shown) w := by
  refine refused_ask fun rows hrows => ?_
  obtain ⟨range, hrange, -⟩ := exists_of_bind_eq_ok hrows
  exact h range hrange

theorem refused_writeCommand (h : ∀ range, w.editor.resolveRange c ≠ .ok range)
    (hsome : w.editor.lineCount ≠ 0) (file : Option Path) : Refused (writeCommand c file) w := by
  refine refused_ask_bind fun p _ => refused_bind (refused_ask fun range hrange => ?_) _
  rw [if_neg hsome] at hrange
  exact h range hrange

theorem run_ask_bind_congr {f : Editor → Except EditError α} {g k : α → EditM β}
    (h : ∀ a, f w.editor = .ok a → (g a).run w = (k a).run w) :
    (ask f >>= g).run w = (ask f >>= k).run w := by
  rw [EStateM.run_bind, EStateM.run_bind, run_ask]
  cases hask : f w.editor with
  | ok a => exact h a hask
  | error cause => rfl

/-- Of an empty document everything is written, whatever the addresses are. -/
theorem run_perform_write_of_empty (hempty : w.editor.lineCount = 0) {d : Command}
    (hc : c.verb = .write file) (hd : d.verb = .write file) (explicit explicit' : Bool) :
    (perform c explicit).run w = (perform d explicit').run w := by
  have hwrite : (writeCommand c file).run w = (writeCommand d file).run w := by
    refine run_ask_bind_congr fun p _ => ?_
    rw [EStateM.run_bind, EStateM.run_bind, run_ask, run_ask, if_pos hempty, if_pos hempty]
  unfold perform
  rw [hc, hd]
  change (silently (writeCommand c file)).run w = (silently (writeCommand d file)).run w
  rw [silently, silently, EStateM.run_bind, EStateM.run_bind, hwrite]

theorem refused_perform (hverb : c.verb.ActsOnRange)
    (h : ∀ range, w.editor.resolveRange c ≠ .ok range)
    (hwrite : ∀ file, c.verb = .write file → w.editor.lineCount ≠ 0) (explicit : Bool) :
    Refused (perform c explicit) w := by
  unfold perform
  cases hc : c.verb with
  | print | number | list => exact refused_showRange h _
  | change | delete | join | copy | move => exact refused_bind (refused_onRange h _) _
  | write file => exact refused_bind (refused_writeCommand h (hwrite file hc) file) _
  | _ =>
    rw [hc] at hverb
    cases hverb

end EditM

namespace Workspace.Reachable

/-- A command with explicit addresses is refused if one of them resolves to no line, or if
they resolve to no range of lines of the document: it fails, and all that changes is the
message of the last failure.  But on an empty document a command to write does the same as
without addresses. -/
theorem execute_checks_range {w : Workspace} (h : w.Reachable) {c : Command} {a b : Address}
    (hfirst : c.first = some a) (hlast : c.last = some b) (hverb : c.verb.ActsOnRange)
    (hinvalid : ∀ first last, w.editor.resolve a = .ok first → w.editor.resolve b = .ok last →
      ¬(1 ≤ first ∧ first ≤ last ∧ last ≤ w.editor.lineList.length)) :
    ((∀ file, c.verb = .write file → w.editor.lineList ≠ []) →
      ∃ cause, (EditM.execute c).run w =
        .error cause { w with editor := w.editor.recordError cause }) ∧
    ∀ file, c.verb = .write file → w.editor.lineList = [] →
      (EditM.execute c).run w = (EditM.execute ⟨.write file, none, none⟩).run w := by
  have hcount := h.indexed.lineCount_eq
  have hsame : c.withDefaults = c := by
    rw [Command.withDefaults, hfirst]
  constructor
  · intro hwrite
    have hrange : ∀ range, w.editor.resolveRange c ≠ .ok range := by
      rintro ⟨first, last⟩ hrange
      obtain ⟨hresolve, hresolve', hpos, hle⟩ := Editor.resolveRange_eq_ok_iff.mp hrange
      have hin := Editor.resolve?_le hresolve'
      rw [hfirst] at hresolve
      rw [hlast] at hresolve'
      exact hinvalid first last hresolve hresolve' ⟨hpos, hle, hcount ▸ hin⟩
    have hsome : ∀ file, c.verb = .write file → w.editor.lineCount ≠ 0 := by
      intro file hfile hzero
      exact hwrite file hfile (List.eq_nil_of_length_eq_zero (hcount ▸ hzero))
    obtain ⟨cause, hrun⟩ := EditM.refused_perform hverb hrange hsome c.first.isSome
    refine ⟨cause, ?_⟩
    rw [EditM.run_execute, hsame, hrun]
  · intro file hfile hempty
    have hzero : w.editor.lineCount = 0 := by
      rw [hcount, hempty]
      rfl
    have hplain : (Command.withDefaults ⟨.write file, none, none⟩).verb = .write file :=
      Command.withDefaults_verb _
    rw [EditM.run_execute, EditM.run_execute, EditM.run_perform_write_of_empty hzero
      ((Command.withDefaults_verb c).trans hfile) hplain]

def besideFile (text : String) : Workspace :=
  ⟨.ofText text, ⟨"/", [(⟨["f"]⟩,
    .file (.ofContent (.ofString "keep\n") ordinaryMode))]⟩⟩

theorem execute_checks_range_backwards :
    (∃ cause, (EditM.execute ⟨.write (some ⟨"f"⟩), some (.line 2), some (.line 1)⟩).run
      (besideFile "a\nb") = .error cause { besideFile "a\nb" with
        editor := (besideFile "a\nb").editor.recordError cause }) ∧
    (EditM.execute ⟨.write (some ⟨"f"⟩), some (.line 5), some (.line 9)⟩).run (besideFile "") =
      (EditM.execute ⟨.write (some ⟨"f"⟩), none, none⟩).run (besideFile "") := by
  have hwrite : (Verb.write (some ⟨"f"⟩)).ActsOnRange := trivial
  have hbackwards := execute_checks_range (.ofText "a\nb" (besideFile "a\nb").files)
    (c := ⟨.write (some ⟨"f"⟩), some (.line 2), some (.line 1)⟩) rfl rfl hwrite fun first last
      hfirst hlast => by cases hfirst; cases hlast; decide
  have hempty := execute_checks_range (.ofText "" (besideFile "").files)
    (c := ⟨.write (some ⟨"f"⟩), some (.line 5), some (.line 9)⟩) rfl rfl hwrite fun first last
      hfirst _ => by cases hfirst
  exact ⟨hbackwards.1 fun _ _ => by decide, hempty.2 _ rfl rfl⟩

/-- Lines that an empty document does not have are written all the same, and the file that they
are written over is lost. -/
theorem execute_overwrites_without_range :
    (besideFile "").Reachable ∧
      (besideFile "").editor.resolve (.line 5) = .error .invalidAddress ∧
      (besideFile "").files.read ⟨"f"⟩ = .ok (.ofString "keep\n") ∧
      ∃ w', (EditM.execute ⟨.write (some ⟨"f"⟩), some (.line 5), some (.line 9)⟩).run
        (besideFile "") = .ok [] w' ∧ w'.files.read ⟨"f"⟩ = .ok [] :=
  ⟨.ofText _ _, rfl, rfl, _, rfl, rfl⟩

end Workspace.Reachable

end Redline

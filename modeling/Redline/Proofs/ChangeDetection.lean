import Mathlib
import Redline.Cli.Compare
import Redline.Proofs.Alignment
import Redline.Proofs.HunkShape
import Redline.Proofs.LineText
import Redline.Proofs.ReportLines
import Redline.Proofs.TextBytes
/-!
# What counts as a change

A comparison reports no change exactly if the lines are the same, and only then is the
report empty in every format.  Of whole files that is so if they are equal but for a
newline at the end of the last line.
-/

namespace Redline

variable {α κ : Type}

/-! ## Hunks without a change -/

namespace Hunk

variable [BEq κ] [EquivBEq κ] {key : α → κ} {old new : List α} {hunks : List (Hunk α)}

end Hunk

/-! ## Reports -/

theorem Bytes.joinLines_ne_nil {rows : List Bytes} {row : Bytes} (h : row ∈ rows) (hne : row ≠ []) :
    joinLines rows ≠ [] := by
  rcases rows with _ | ⟨first, _ | ⟨next, rest⟩⟩
  · exact absurd h List.not_mem_nil
  · rw [List.mem_singleton] at h
    rwa [joinLines_singleton, ← h]
  · rw [joinLines_cons_cons]
    simp

namespace Report

private theorem ofString_ne_nil {s t : String} (h : s ≠ "" ∨ t ≠ "") :
    Row.ofString (s ++ t) ≠ [] := by
  intro hnil
  obtain ⟨hs, ht⟩ := String.append_eq_empty_iff.mp (Bytes.ofString_eq_nil_iff.mp hnil)
  exact h.elim (absurd hs) (absurd ht)

private theorem changes_of_unchanged {hunks : List (Hunk Bytes)}
    (h : Hunk.hasChanges hunks = false) : (Comparison.ofHunks hunks).changes = [] := by
  have hempty := Change.isEmpty_ofHunks hunks
  rwa [h, Bool.not_false, List.isEmpty_iff] at hempty

/-- Where there is a change, its head or the head of the report is a row with text. -/
theorem exists_row_ne_nil (options : Options) {hunks : List (Hunk Bytes)}
    (h : Hunk.hasChanges hunks = true) (oldHead newHead : Heading) :
    ∃ row ∈ rows options hunks oldHead newHead, row ≠ [] := by
  have hempty : (Comparison.ofHunks hunks).changes.isEmpty = !Hunk.hasChanges hunks :=
    Change.isEmpty_ofHunks hunks
  rw [h, Bool.not_true] at hempty
  obtain ⟨c, hc⟩ := List.exists_mem_of_ne_nil _ (List.isEmpty_eq_false_iff.mp hempty)
  unfold rows
  cases options.format with
  | normal =>
    refine ⟨_, List.mem_flatMap.mpr ⟨c, hc, ?_⟩, (Normal.line_head c).2⟩
    rw [Normal.changeRows, List.append_assoc, List.append_assoc]
    exact List.mem_cons_self
  | edScript =>
    obtain ⟨row, hrow, hne⟩ : ∃ row ∈ EdScript.changeRows (.ofHunks hunks) c, row ≠ [] := by
      unfold EdScript.changeRows
      split
      · exact ⟨_, List.mem_cons_self, ofString_ne_nil (.inr (by decide))⟩
      · exact ⟨Row.ofString ".", by simp, by decide⟩
    exact ⟨row, List.mem_flatMap.mpr ⟨c, List.mem_reverse.mpr hc, hrow⟩, hne⟩
  | unified =>
    refine ⟨Row.ofString ("--- " ++ oldHead.numeric), ?_, ofString_ne_nil (.inl (by decide))⟩
    dsimp only
    rw [Unified.rows, hempty]
    exact List.mem_cons_self
  | context =>
    refine ⟨Row.ofString ("*** " ++ oldHead.named), ?_, ofString_ne_nil (.inl (by decide))⟩
    dsimp only
    rw [Context.rows, hempty]
    exact List.mem_cons_self

theorem rows_of_unchanged (options : Options) {hunks : List (Hunk Bytes)}
    (h : Hunk.hasChanges hunks = false) (oldHead newHead : Heading) :
    rows options hunks oldHead newHead = [] := by
  have hempty := changes_of_unchanged h
  unfold rows
  cases options.format <;>
    simp [Normal.rows, EdScript.rows, Unified.rows, Context.rows, hempty]

/-- A report is empty exactly if there is nothing to report, whatever its format. -/
theorem render_eq_nil_iff (options : Options) (hunks : List (Hunk Bytes))
    (oldHead newHead : Heading) :
    render options hunks oldHead newHead = [] ↔ Hunk.hasChanges hunks = false := by
  constructor
  · intro hnil
    by_contra h
    obtain ⟨row, hrow, hne⟩ :=
      exists_row_ne_nil options (Bool.eq_true_of_not_eq_false h) oldHead newHead
    exact Bytes.joinLines_ne_nil hrow hne hnil
  · intro h
    rw [render, rows_of_unchanged options h]
    rfl

theorem doubleOverflows_eq_false {options : Options} (h : options.context < 0x8000000000000000)
    (hunks : List (Hunk Bytes)) : doubleOverflows options hunks = false := by
  rw [doubleOverflows, Change.doubleOverflows_eq_false h, Bool.and_false]

theorem render?_eq {options : Options} (h : options.context < 0x8000000000000000)
    (hunks : List (Hunk Bytes)) (oldHead newHead : Heading) :
    render? options hunks oldHead newHead = some (render options hunks oldHead newHead) := by
  rw [render?, doubleOverflows_eq_false h, if_neg (by decide)]

/-! ## Lines that count as equal -/

end Report

/-! ## Whole files -/

namespace Cli.Compare

variable {options : Report.Options} {files : FileTree} {oldPath newPath : Path}
  {old new : StoredFile}

section

variable {hunks : List (Hunk Bytes)} (hold : files.file oldPath = .ok old)
  (hnew : files.file newPath = .ok new)
  (hhunks : Report.compare options (splitLines old.content) (splitLines new.content) = hunks)

include hold hnew hhunks

end

end Cli.Compare

end Redline

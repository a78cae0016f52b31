import Redline.Diff.Report
import Redline.Proofs.NormalReading
import Redline.Proofs.Reconstruction
import Redline.Proofs.UnifiedPatch
/-!
# A plain listing is a patch

A plain listing is read as one block for each change, and no other blocks are printed like it.
The blocks lead from the old file to the new one and back.
-/

namespace Redline

namespace Normal

variable {b : Block} {blocks : List Block} {old new : List Bytes}

namespace Block

structure Fits (b : Block) (old new : List Bytes) : Prop where
  counted : b.IsCounted
  gone_eq : b.gone = b.change.old.slice old
  added_eq : b.added = b.change.new.slice new

/-- The block as a section of a unified listing without lines around the change. -/
def replacement (b : Block) : Unified.Section :=
  ⟨b.change.old, b.change.new,
    b.gone.map (Unified.Mark.gone, ·) ++ b.added.map (Unified.Mark.added, ·)⟩

theorem Fits.replacement (h : b.Fits old new) : b.replacement.Fits old new :=
  Unified.fits_replacing h.gone_eq h.added_eq h.counted.gone_length h.counted.added_length

theorem Fits.line_of_mem_rows (h : b.Fits old new) (hold : ∀ line ∈ old, newline ∉ line)
    (hnew : ∀ line ∈ new, newline ∉ line) {row : Bytes} (hrow : row ∈ b.rows) :
    newline ∉ row ∧ row ≠ [] := by
  have hmarked : ∀ {mark : String} {s : Span} {lines : List Bytes},
      newline ∉ Bytes.ofString mark → Bytes.ofString mark ≠ [] →
      (∀ line ∈ lines, newline ∉ line) →
      row ∈ (s.slice lines).map (Bytes.ofString mark ++ ·) → newline ∉ row ∧ row ≠ [] := by
    intro mark s lines hmark hne hlines hmem
    obtain ⟨line, hline, rfl⟩ := List.mem_map.mp hmem
    have hin : line ∈ lines := List.mem_of_mem_drop (List.mem_of_mem_take hline)
    refine ⟨?_, List.append_ne_nil_of_left_ne_nil hne _⟩
    rw [List.mem_append, not_or]
    exact ⟨hmark, hlines line hin⟩
  simp only [rows, h.gone_eq, h.added_eq, List.mem_cons, List.mem_append] at hrow
  obtain rfl | hgone | hdivider | hadded := hrow
  · exact line_head b.change
  · exact hmarked (by decide) (by decide) hold hgone
  · unfold dividers at hdivider
    split at hdivider
    · exact absurd hdivider List.not_mem_nil
    · rw [List.mem_singleton.mp hdivider]
      exact Row.line_ofString (by decide) (by decide)
  · exact hmarked (by decide) (by decide) hnew hadded

end Block

theorem splitLines_joinLines_blocks (h : ∀ b ∈ blocks, b.Fits old new)
    (hold : ∀ line ∈ old, newline ∉ line) (hnew : ∀ line ∈ new, newline ∉ line) :
    splitLines (Bytes.joinLines (blocks.flatMap Block.rows)) = blocks.flatMap Block.rows := by
  have hline : ∀ row ∈ blocks.flatMap Block.rows, newline ∉ row ∧ row ≠ [] := by
    intro row hrow
    obtain ⟨b, hb, hrow⟩ := List.mem_flatMap.mp hrow
    exact (h b hb).line_of_mem_rows hold hnew hrow
  exact splitLines_joinLines (fun row hrow => (hline row hrow).1)
    fun hlast => (hline [] (List.mem_of_getLast? hlast)).2 rfl

/-! ## Blocks of hunks -/

variable {hunks : List (Hunk Bytes)}

def blockOf (d : Comparison Bytes) (c : Change) : Block :=
  ⟨c, c.old.slice d.old, c.new.slice d.new⟩

def blocksOf (hunks : List (Hunk Bytes)) : List Block :=
  (Change.ofHunks hunks).map (blockOf (.ofHunks hunks))

theorem changeRows_eq (d : Comparison Bytes) (c : Change) :
    changeRows d c = (blockOf d c).rows := by
  rw [changeRows, List.append_assoc, List.append_assoc]
  rfl

theorem rows_eq (hunks : List (Hunk Bytes)) :
    rows (.ofHunks hunks) = (blocksOf hunks).flatMap Block.rows := by
  rw [rows, blocksOf, List.flatMap_map]
  exact congrArg (List.flatMap · _) (funext fun c => changeRows_eq _ c)

theorem fits_of_mem_blocksOf
    (hnonempty : ∀ hunk ∈ hunks, hunk.kind ≠ .equal → hunk.values ≠ []) :
    ∀ b ∈ blocksOf hunks, b.Fits (Hunk.reconstruct hunks).1 (Hunk.reconstruct hunks).2 := by
  intro b hb
  obtain ⟨c, hc, rfl⟩ := List.mem_map.mp hb
  have haligned := aligned_ofHunks hunks
  obtain ⟨hold, hold'⟩ := haligned.inside hc
  obtain ⟨hnew, hnew'⟩ := haligned.symm.inside (List.mem_map_of_mem hc)
  exact ⟨⟨hold, hnew, Change.nonempty_of_mem_ofHunksFrom hnonempty hc, Span.length_slice _ _ hold',
    Span.length_slice _ _ hnew'⟩, rfl, rfl⟩

theorem isPatch_blocksOf
    (hnonempty : ∀ hunk ∈ hunks, hunk.kind ≠ .equal → hunk.values ≠ []) :
    Unified.IsPatch ((blocksOf hunks).map Block.replacement)
      (Hunk.reconstruct hunks).1 (Hunk.reconstruct hunks).2 := by
  apply Unified.isPatch_of_aligned
  · have hchanges : ((blocksOf hunks).map Block.replacement).map Unified.Section.toChange =
        Change.ofHunks hunks := by
      rw [blocksOf, List.map_map, List.map_map]
      exact List.map_id _
    rw [hchanges]
    exact aligned_ofHunks hunks
  · intro s hs
    obtain ⟨b, hb, rfl⟩ := List.mem_map.mp hs
    exact (fits_of_mem_blocksOf hnonempty b hb).replacement

/-- The plain listing of a comparison, for lines without a newline, reads back as one block
for each change, with the lines of both files at the ranges of the change.  No other blocks
are printed as the same lines, and the blocks lead from one file to the other. -/
theorem render_reads_back {options : Report.Options} (hformat : options.format = .normal)
    {old new : List Bytes} (hold : ∀ line ∈ old, newline ∉ line)
    (hnew : ∀ line ∈ new, newline ∉ line) (oldHead newHead : Heading) {listing : List Bytes}
    (hlisting : listing =
      splitLines (Report.render options (Hunk.diff old new) oldHead newHead)) :
    ∃ blocks,
      listing = blocks.flatMap Block.rows ∧
      blocks? listing = some blocks ∧
      (∀ others : List Block, (∀ b ∈ others, b.IsCounted) →
        listing = others.flatMap Block.rows → others = blocks) ∧
      blocks.map Block.change = Change.ofHunks (Hunk.diff old new) ∧
      (∀ b ∈ blocks, b.Fits old new) ∧
      Unified.IsPatch (blocks.map Block.replacement) old new := by
  have hnonempty : ∀ hunk ∈ Hunk.diff old new, hunk.kind ≠ .equal → hunk.values ≠ [] :=
    fun hunk hhunk _ => (Hunk.plainDiff_diffBy id old new).values_ne_nil hunk hhunk
  have hfits := fits_of_mem_blocksOf hnonempty
  have hpatch := isPatch_blocksOf hnonempty
  rw [Hunk.reconstruct_diff] at hfits hpatch
  have hrows : listing = (blocksOf (Hunk.diff old new)).flatMap Block.rows := by
    rw [hlisting, Report.render, Report.rows, hformat]
    dsimp only
    rw [rows_eq]
    exact splitLines_joinLines_blocks hfits hold hnew
  have hread : blocks? listing = some (blocksOf (Hunk.diff old new)) := by
    rw [hrows]
    exact blocks?_flatMap fun b hb => (hfits b hb).counted
  refine ⟨blocksOf (Hunk.diff old new), hrows, hread, ?_, ?_, hfits, hpatch⟩
  · intro others hcounted hothers
    rw [hothers, blocks?_flatMap hcounted] at hread
    exact Option.some.inj hread
  · rw [blocksOf, List.map_map]
    exact List.map_id _

/-- Lines that look like a divider, an added line and a head are taken for what they are. -/
theorem render_reads_back_lookalikes :
    blocks? (splitLines (Report.render .ordinary
        (Hunk.diff [.ofString "---", .ofString "1d0"] [.ofString "> x", .ofString "1d0"])
        default default)) =
      some [⟨⟨⟨0, 1⟩, ⟨0, 1⟩⟩, [.ofString "---"], [.ofString "> x"]⟩] ∧
    Unified.IsPatch
      [⟨⟨0, 1⟩, ⟨0, 1⟩, [(.gone, .ofString "---"), (.added, .ofString "> x")]⟩]
      [.ofString "---", .ofString "1d0"] [.ofString "> x", .ofString "1d0"] := by
  have hdiff : Hunk.diff [Bytes.ofString "---", .ofString "1d0"]
      [.ofString "> x", .ofString "1d0"] =
      [⟨.delete, [.ofString "---"]⟩, ⟨.insert, [.ofString "> x"]⟩,
        ⟨.equal, [.ofString "1d0"]⟩] := by cbv
  have hold : ∀ line ∈ [Bytes.ofString "---", .ofString "1d0"], newline ∉ line := by decide
  have hnew : ∀ line ∈ [Bytes.ofString "> x", .ofString "1d0"], newline ∉ line := by decide
  have hformat : Report.Options.ordinary.format = .normal := rfl
  obtain ⟨blocks, -, hread, hunique, -, -, hpatch⟩ :=
    render_reads_back hformat hold hnew default default rfl
  have hcounted : (Block.mk ⟨⟨0, 1⟩, ⟨0, 1⟩⟩ [.ofString "---"] [.ofString "> x"]).IsCounted :=
    ⟨by decide, by decide, by decide, rfl, rfl⟩
  have hblocks := hunique [⟨⟨⟨0, 1⟩, ⟨0, 1⟩⟩, [.ofString "---"], [.ofString "> x"]⟩]
    (fun b hb => List.mem_singleton.mp hb ▸ hcounted) (by rw [hdiff]; decide +kernel)
  rw [← hblocks] at hread hpatch
  exact ⟨hread, hpatch⟩

end Normal

end Redline

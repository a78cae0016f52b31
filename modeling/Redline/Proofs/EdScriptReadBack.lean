import Redline.Proofs.EdScriptRun
import Redline.Proofs.ReportLines
/-!
# Which editor scripts come back as they were printed

The new lines of a change stand in the script as they are.  So a line with nothing but a dot
closes the block that it should be in, the lines behind it are taken for commands, and a
carriage return at the end of a line is lost.  All other scripts are read as the commands for
their changes, and they alone.
-/

namespace Redline

namespace Script

/-! ## Blocks that are cut short -/

theorem length_blockLine_le (s : String) : (blockLine s).length ≤ s.length := by
  have hfront : (blockLine s).toList <+: s.toList := by
    rw [blockLine, String.toList_ofList]
    exact List.rdropWhile_prefix _ _
  exact hfront.length_le

theorem blockLine_eq_of_length_le {s : String} (h : s.length ≤ (blockLine s).length) :
    blockLine s = s := by
  have hfront : (blockLine s).toList <+: s.toList := by
    rw [blockLine, String.toList_ofList]
    exact List.rdropWhile_prefix _ _
  exact String.toList_inj.mp (hfront.eq_of_length_le h)

theorem length_blockText_cons (s : String) (block : List String) :
    (blockText (s :: block)).length = s.length + 1 + (blockText block).length := by
  rw [blockText_cons, String.length_append, String.length_append]
  rfl

/-- A block is not longer than the lines behind which it is closed, and shorter if one of
them is changed or closes it. -/
theorem length_blockText_takeBlock (texts : List String) (rest : List (Option String)) :
    (blockText (takeBlock (texts.map some ++ some "." :: rest)).1).length ≤
        (blockText texts).length ∧
      ((blockText texts).length ≤
          (blockText (takeBlock (texts.map some ++ some "." :: rest)).1).length →
        ∀ s ∈ texts, blockLine s = s ∧ s ≠ ".") := by
  induction texts with
  | nil =>
    have htake : takeBlock (some "." :: rest) = ([], rest) :=
      takeBlock_append (fun _ hs => absurd hs List.not_mem_nil) (by decide) rest
    rw [List.map_nil, List.nil_append, htake]
    exact ⟨Nat.le_refl _, fun _ s hs => absurd hs List.not_mem_nil⟩
  | cons s texts ih =>
    obtain ⟨hle, hall⟩ := ih
    have hline := length_blockLine_le s
    rw [List.map_cons, List.cons_append, takeBlock, length_blockText_cons]
    dsimp only
    by_cases hdot : blockLine s = "."
    · rw [if_pos hdot]
      have hnil : (blockText []).length = 0 := rfl
      dsimp only
      rw [hnil]
      exact ⟨Nat.zero_le _, fun hlength => by omega⟩
    · rw [if_neg hdot]
      dsimp only
      rw [length_blockText_cons]
      refine ⟨by omega, fun hlength => List.forall_mem_cons.mpr ⟨?_, hall (by omega)⟩⟩
      have hself := blockLine_eq_of_length_le (s := s) (by omega)
      exact ⟨hself, fun hs => hdot (hself.trans hs)⟩

end Script

namespace EdScript

variable {d : Comparison Bytes} {c : Change} {changes : List Change}

theorem block_of_isEmpty (d : Comparison Bytes) (hnew : c.new.isEmpty = true) : block d c = [] := by
  rw [block, Span.slice_of_isEmpty hnew, List.filterMap_nil]

/-! ## Items of changes -/

theorem carriable_of_head_eq (h : Legible d c) {rest : List (Option String)}
    {items : List Script.Item}
    (hitems : Script.items ((changeRows d c).map Text.decode? ++ rest) =
      .ok (command d c) :: items) :
    ∀ s ∈ block d c, Script.blockLine s = s ∧ s ≠ "." := by
  by_cases hnew : c.new.isEmpty = true
  · rw [block_of_isEmpty d hnew]
    exact fun s hs => absurd hs List.not_mem_nil
  · rw [items_changeRows_of_not_isEmpty h hnew] at hitems
    have hhead := Except.ok.inj (List.cons.inj hitems).1
    have htext := (withText_command d hnew _).mp hhead
    apply (Script.length_blockText_takeBlock (block d c) rest).2
    rw [htext]

theorem items_flatMap_eq_iff (h : ∀ c ∈ changes, Legible d c) :
    Script.items ((changes.flatMap (changeRows d)).map Text.decode?) =
        changes.map (fun c => .ok (command d c)) ↔
      ∀ c ∈ changes, ∀ s ∈ block d c, Script.blockLine s = s ∧ s ≠ "." := by
  constructor
  · intro hitems
    induction changes with
    | nil => exact fun c hc => absurd hc List.not_mem_nil
    | cons c rest ih =>
      rw [List.flatMap_cons, List.map_append, List.map_cons] at hitems
      have hfirst := carriable_of_head_eq (h c List.mem_cons_self) hitems
      rw [items_changeRows_of_ne_dot (h c List.mem_cons_self)
        fun s hs => (hfirst s hs).1.symm ▸ (hfirst s hs).2] at hitems
      refine List.forall_mem_cons.mpr ⟨hfirst, ?_⟩
      exact ih (fun c hc => h c (List.mem_cons_of_mem _ hc)) (List.cons.inj hitems).2
  · exact items_flatMap h

/-! ## The lines of a script -/

theorem splitLines_joinLines_rows (h : ∀ c ∈ d.changes, Legible d c) :
    splitLines (Bytes.joinLines (rows d)) = rows d := by
  refine splitLines_joinLines (fun row hrow => ?_) (getLast?_flatMap_changeRows d _)
  obtain ⟨c, hc, hrow⟩ := List.mem_flatMap.mp hrow
  refine (isPlainLine_or_mem_slice hrow).elim (·.newline_notMem) fun hline => ?_
  exact ((h c (List.mem_reverse.mp hc)).isText row hline).2

end EdScript

namespace Report

open EdScript

theorem legible_compare (options : Options) {old new : List Bytes} (hold : old.length ≤ maxOffset)
    (hnew : ∀ line ∈ new, (∃ s, Bytes.ofString s = line) ∧ newline ∉ line) :
    ∀ c ∈ (Comparison.ofHunks (compare options old new)).changes,
      Legible (.ofHunks (compare options old new)) c := by
  intro c hc
  have hdiff := plainDiff_compare options old new
  obtain ⟨hstart, hstop, hsome⟩ := place_of_mem_ofHunks hdiff.values_ne_nil hc
  have hlength : Hunk.oldLength (compare options old new) = old.length := hdiff.oldLength_eq
  have hlines : (Hunk.reconstruct (compare options old new)).2 = new := hdiff.flatMap_newValues
  refine ⟨hstart, by omega, hsome, fun line hline => hnew line ?_⟩
  rw [← hlines]
  exact List.mem_of_mem_drop (List.mem_of_mem_take hline)

/-- The script of a comparison, for new lines of text.  The text of a command is the new lines
of its change.  If none of these lines closes a block, the script is read as one command for
each change, the last change first, with no more than carriage returns lost; and the commands
are the ones that were printed if and only if a text block can carry all new lines. -/
theorem edScript_reads_back_iff {options : Options} (hformat : options.format = .edScript)
    {old new : List Bytes} (hold : old.length ≤ maxOffset)
    (hnew : ∀ line ∈ new, (∃ s, Bytes.ofString s = line) ∧ newline ∉ line)
    (oldHead newHead : Heading) {d : Comparison Bytes}
    (hd : d = .ofHunks (compare options old new)) {items : List Script.Item}
    (hitems : items = Script.items ((splitLines
      (render options (compare options old new) oldHead newHead)).map Text.decode?)) :
    (∀ c ∈ d.changes,
      Bytes.ofString (Script.blockText (block d c)) = ofLines (c.new.slice d.new)) ∧
    ((∀ c ∈ d.changes, ∀ s ∈ block d c, Script.blockLine s ≠ ".") →
      items = d.changes.reverse.map fun c => .ok (readBack d c)) ∧
    ((items = d.changes.reverse.map fun c => .ok (command d c)) ↔
      ∀ c ∈ d.changes, ∀ line ∈ c.new.slice d.new, Carriable line) := by
  have hlegible : ∀ c ∈ d.changes, Legible d c := hd ▸ legible_compare options hold hnew
  have hreverse : ∀ c ∈ d.changes.reverse, Legible d c := fun c hc =>
    hlegible c (List.mem_reverse.mp hc)
  have hrows : items =
      Script.items ((d.changes.reverse.flatMap (changeRows d)).map Text.decode?) := by
    rw [hitems, render, Report.rows, hformat, ← hd]
    exact congrArg (fun rows => Script.items (rows.map Text.decode?))
      (splitLines_joinLines_rows hlegible)
  refine ⟨fun c hc => ofString_blockText_block (hlegible c hc), fun hopen => ?_, ?_⟩
  · rw [hrows]
    exact items_flatMap_of_ne_dot hreverse fun c hc => hopen c (List.mem_reverse.mp hc)
  · rw [hrows, items_flatMap_eq_iff hreverse]
    constructor
    · intro hall c hc
      exact (forall_block_iff (hlegible c hc)).mp (hall c (List.mem_reverse.mpr hc))
    · intro hall c hc
      exact (forall_block_iff (hreverse c hc)).mpr (hall c (List.mem_reverse.mp hc))

theorem edScript_reads_back_two_dots :
    Script.items ((splitLines (render ⟨.edScript, 3, false⟩
        (compare ⟨.edScript, 3, false⟩ [] [.ofString ".."]) default default)).map Text.decode?) =
      [.ok ⟨.append "..\n", some (.line 0), some (.line 0)⟩] := by
  have hcompare : compare ⟨.edScript, 3, false⟩ [] [.ofString ".."] =
      [⟨.insert, [.ofString ".."]⟩] :=
    (plainDiff_compare _ _ _).unique (.insert (by decide))
  have hchanges : (Comparison.ofHunks [⟨.insert, [Bytes.ofString ".."]⟩]).changes =
      [⟨⟨0, 0⟩, ⟨0, 1⟩⟩] := rfl
  have htext : ∀ line ∈ [Bytes.ofString ".."], (∃ s, Bytes.ofString s = line) ∧ newline ∉ line := by
    intro line hline
    rw [List.mem_singleton.mp hline]
    exact ⟨⟨"..", rfl⟩, by decide⟩
  have hcarriable : ∀ c ∈ [(⟨⟨0, 0⟩, ⟨0, 1⟩⟩ : Change)],
      ∀ line ∈ c.new.slice [Bytes.ofString ".."], Carriable line := by
    intro c hc line hline
    rw [List.mem_singleton.mp hc] at hline
    rw [List.mem_singleton.mp hline]
    exact ⟨⟨"..", rfl⟩, by decide, by decide⟩
  have hformat : (⟨.edScript, 3, false⟩ : Options).format = .edScript := rfl
  have hold : ([] : List Bytes).length ≤ maxOffset := Nat.zero_le _
  have hreads := (edScript_reads_back_iff hformat hold htext default default rfl rfl).2.2
  rw [hcompare, hchanges] at hreads
  rw [hcompare, hreads.mpr hcarriable]
  rfl

/-- A line with a dot alone closes the block in which it stands, and the line behind it, which
is one of the new file, is carried out: it deletes the first line. -/
theorem edScript_dot_closes_block :
    Script.items ((splitLines (render ⟨.edScript, 3, false⟩
        (compare ⟨.edScript, 3, false⟩ [] [.ofString ".", .ofString "1d"]) default
        default)).map Text.decode?) =
      [.ok ⟨.append "", some (.line 0), some (.line 0)⟩,
        .ok ⟨.delete, some (.line 1), some (.line 1)⟩,
        .ok ⟨.goTo, some .current, some .current⟩] := by
  have hcompare : compare ⟨.edScript, 3, false⟩ [] [.ofString ".", .ofString "1d"] =
      [⟨.insert, [.ofString ".", .ofString "1d"]⟩] :=
    (plainDiff_compare _ _ _).unique (.insert (by decide))
  have hlines : (splitLines (render ⟨.edScript, 3, false⟩
      [⟨.insert, [.ofString ".", .ofString "1d"]⟩] default default)).map Text.decode? =
      [some "0a", some ".", some "1d", some "."] := by
    decide +kernel
  have hopen : Script.next "0a" [some ".", some "1d", some "."] =
      (.ok ⟨.append "", some (.line 0), some (.line 0)⟩, [some "1d", some "."]) :=
    Prod.ext (eq_ok_of_toOption (by decide +kernel)) (by decide +kernel)
  have hdelete : Script.next "1d" [some "."] =
      (.ok ⟨.delete, some (.line 1), some (.line 1)⟩, [some "."]) :=
    Prod.ext (eq_ok_of_toOption (by decide +kernel)) (by decide +kernel)
  have hdot : Script.next "." [] = (.ok ⟨.goTo, some .current, some .current⟩, []) :=
    Prod.ext (eq_ok_of_toOption (by decide +kernel)) (by decide +kernel)
  rw [hcompare, hlines, Script.items, hopen, Script.items, hdelete, Script.items, hdot,
    Script.items]

end Report

end Redline

import Redline.Proofs.ChangeDetection
import Redline.Proofs.ContextPatch
/-!
# Whose lines a context listing shows

A comparison has what is kept as the new list has it, so the old side that a listing shows is
put together from both files.  Its marked lines are those of the old file; the unmarked ones
count as equal to lines of the old file, but are written as in the new one.
-/

namespace Redline

variable {α κ : Type}

namespace Hunk

variable {hunk : Hunk α} {hunks rest : List (Hunk α)} {old new : List α} {i p : Nat} {s : Span}

/-! ## Deletions -/

/-- One of the hunks deletes the elements of a span, the first hunk being at a position. -/
def DeletesAt (i : Nat) (hunks : List (Hunk α)) (s : Span) : Prop :=
  ∃ before gone behind, hunks = before ++ ⟨.delete, gone⟩ :: behind ∧
    s = ⟨i + oldLength before, i + oldLength before + gone.length⟩

theorem deletesAt_cons (gone : List α) (rest : List (Hunk α)) :
    DeletesAt i (⟨.delete, gone⟩ :: rest) ⟨i, i + gone.length⟩ :=
  ⟨[], gone, rest, rfl, rfl⟩

theorem DeletesAt.cons (hunk : Hunk α) (h : DeletesAt (i + hunk.oldValues.length) rest s) :
    DeletesAt i (hunk :: rest) s := by
  obtain ⟨before, gone, behind, rfl, rfl⟩ := h
  refine ⟨hunk :: before, gone, behind, rfl, ?_⟩
  rw [oldLength_cons, ← Nat.add_assoc]

theorem deletesAt_of_mem_ofHunksFrom {j : Nat} {c : Change}
    (hc : c ∈ Change.ofHunksFrom i j hunks) (hold : c.old.isEmpty = false) :
    DeletesAt i hunks c.old := by
  fun_induction Change.ofHunksFrom i j hunks with
  | case1 i j => exact absurd hc List.not_mem_nil
  | case2 i j gone added rest ih =>
    obtain rfl | hc := List.mem_cons.mp hc
    · exact deletesAt_cons gone _
    · exact .cons ⟨.delete, gone⟩ (.cons ⟨.insert, added⟩ (ih hc))
  | case3 i j gone rest _ ih =>
    obtain rfl | hc := List.mem_cons.mp hc
    · exact deletesAt_cons gone rest
    · exact .cons ⟨.delete, gone⟩ (ih hc)
  | case4 i j added rest ih =>
    obtain rfl | hc := List.mem_cons.mp hc
    · exact absurd hold (by simp [Span.isEmpty])
    · exact .cons ⟨.insert, added⟩ (ih hc)
  | case5 i j kept rest ih => exact .cons ⟨.equal, kept⟩ (ih hc)

variable [BEq κ] {key : α → κ}

/-- Where hunks delete, the old list that they make up is the one that was compared. -/
theorem PlainDiff.getElem?_of_deletesAt (h : PlainDiff key old new hunks)
    (hs : DeletesAt 0 hunks s) (hstart : s.start ≤ p) (hstop : p < s.stop) :
    (hunks.flatMap oldValues)[p]? = old[p]? := by
  obtain ⟨before, gone, behind, hsplit, rfl⟩ := hs
  dsimp only at hstart hstop
  rw [Nat.zero_add] at hstart hstop
  obtain ⟨k, rfl⟩ := Nat.exists_eq_add_of_le hstart
  have hk : k < gone.length := by omega
  have hfront : ∀ xs : List α, gone <+: xs.drop (oldLength before) →
      xs[oldLength before + k]? = some gone[k] := by
    intro xs hxs
    rw [← List.getElem?_drop]
    exact List.prefix_iff_getElem?.mp hxs k hk
  rw [hfront _ (delete_isPrefix_oldValues hsplit), hfront _ (h.delete_isPrefix hsplit)]

/-- The old list that hunks make up has, place by place, the keys of the one compared. -/
theorem PlainDiff.exists_same_key [EquivBEq κ] (h : PlainDiff key old new hunks) {x : α}
    (hx : (hunks.flatMap oldValues)[p]? = some x) :
    ∃ own, old[p]? = some own ∧ (key x == key own) = true := by
  obtain ⟨hlength, hkeys⟩ := List.forall₂_iff_get.mp h.sameKeys_oldValues
  obtain ⟨hp, rfl⟩ := List.getElem?_eq_some_iff.mp hx
  have hold : p < old.length := hlength ▸ hp
  exact ⟨old[p], List.getElem?_eq_getElem hold, hkeys p hp hold⟩

theorem PlainDiff.mem_of_mem_values (h : PlainDiff key old new hunks) (hhunk : hunk ∈ hunks)
    {x : α} (hx : x ∈ hunk.values) : x ∈ old ∨ x ∈ new := by
  by_cases hkind : hunk.kind = .delete
  · obtain ⟨before, behind, hsplit⟩ := List.append_of_mem hhunk
    obtain ⟨kind, gone⟩ := hunk
    cases hkind
    exact .inl (List.mem_of_mem_drop ((h.delete_isPrefix hsplit).subset hx))
  · rw [← h.flatMap_newValues]
    refine .inr (List.mem_flatMap.mpr ⟨hunk, hhunk, ?_⟩)
    rwa [newValues, if_neg hkind]

end Hunk

namespace Context

variable {d : Comparison Bytes} {side : Side} {context i : Nat} {group : List Change}
  {line : Mark × Bytes} {window : Span} {half : Half}

/-! ## Printed lines by their positions -/

/-- Each line that is printed is, byte for byte, the one that a file has at its place. -/
def Half.Quotes (half : Half) (file : List Bytes) : Prop :=
  ∀ (i : Nat) (line : Mark × Bytes), half.lines[i]? = some line →
    file[half.range.start + i]? = some line.2

theorem Half.Shows.quotes (h : half.Shows d side window group) : half.Quotes (side.lines d) := by
  intro i line hline
  have htexts := congrArg (·[i]?) (h.texts_eq (List.ne_nil_of_mem (List.mem_of_getElem? hline)))
  rw [List.getElem?_map, hline, Option.map_some, Span.getElem?_slice] at htexts
  rw [h.range_eq]
  split at htexts
  · exact htexts.symm
  · cases htexts

theorem mem_window_of_kept (h : FillsWindow d.old d.new context group)
    (hline : line ∈ (halfOf d context group .old).lines) (hkept : line.1 = .kept) :
    line.2 ∈ (Window.ofGroup context d.old.length group).new.slice d.new := by
  unfold halfOf at hline
  dsimp only at hline
  split at hline
  · have htext : line.2 ∈ keptTexts _ :=
      List.mem_map_of_mem (List.mem_filter.mpr ⟨hline, decide_eq_true hkept⟩)
    rw [Side.window, keptTexts_body h] at htext
    have hnew := map_snd_body (d := d) (ordered_of_fillsWindow h .new).1
    obtain ⟨twin, htwin, htext⟩ := List.mem_map.mp htext
    rw [← htext]
    exact hnew ▸ List.mem_map_of_mem (List.mem_filter.mp htwin).1
  · exact absurd hline List.not_mem_nil

/-- The new side is quoted from the new file and the changed lines of the old side from the old
file.  Lines that are not marked count as equal to those of the old file. -/
structure Section.Attributes (s : Section) (key : Bytes → Bytes) (old new : List Bytes) :
    Prop where
  new_quotes : s.new.Quotes new
  old_eq : ∀ (i : Nat) (line : Mark × Bytes), s.old.lines[i]? = some line → line.1 ≠ .kept →
    old[s.old.range.start + i]? = some line.2
  kept_eq : ∀ (i : Nat) (line : Mark × Bytes), s.old.lines[i]? = some line → line.1 = .kept →
    line.2 ∈ s.new.range.slice new ∧
      ∃ own, old[s.old.range.start + i]? = some own ∧ key line.2 = key own

/-- If no two lines of the files differ and count as equal, both sides are quoted. -/
theorem Section.Attributes.old_quotes {s : Section} {key : Bytes → Bytes} {old new : List Bytes}
    (h : s.Attributes key old new) (hkey : ∀ x ∈ old, ∀ y ∈ new, key x = key y → x = y) :
    s.old.Quotes old := by
  intro i line hline
  by_cases hkept : line.1 = .kept
  · obtain ⟨hnew, own, hown, hsame⟩ := h.kept_eq i line hline hkept
    have hmem : line.2 ∈ new := List.mem_of_mem_drop (List.mem_of_mem_take hnew)
    rw [hown, hkey own (List.mem_of_getElem? hown) line.2 hmem hsame.symm]
  · exact h.old_eq i line hline hkept

/-! ## The whole listing -/

variable {options : Report.Options} {old new : List Bytes}

theorem getElem?_of_has {key : Bytes → Bytes} {hunks : List (Hunk Bytes)} {c : Change} {p : Nat}
    (h : Hunk.PlainDiff key old new hunks)
    (hgroup : group ∈ Change.groups context (Change.ofHunks hunks)) (hc : c ∈ group)
    (hhas : Side.old.Has c p) : (Hunk.reconstruct hunks).1[p]? = old[p]? := by
  have hnonempty : c.old.isEmpty = false :=
    decide_eq_false (Nat.not_le_of_lt (Nat.lt_of_le_of_lt hhas.1 hhas.2))
  have hdeletes :=
    Hunk.deletesAt_of_mem_ofHunksFrom (Change.mem_of_mem_groups hgroup hc) hnonempty
  exact h.getElem?_of_deletesAt hdeletes hhas.1 hhas.2

theorem attributes_sectionOf
    (hgroup : group ∈ Change.groups context (Change.ofHunks (Report.compare options old new))) :
    (sectionOf (.ofHunks (Report.compare options old new)) context group).Attributes options.key
      old new := by
  have hdiff := Report.plainDiff_compare options old new
  generalize Report.compare options old new = hunks at hdiff hgroup
  obtain ⟨hshows, hfills⟩ :=
    shows_of_mem_groups (fun hunk hhunk _ => hdiff.values_ne_nil hunk hhunk) hgroup
  have hnew : (Comparison.ofHunks hunks).new = new := hdiff.flatMap_newValues
  have holdShows := hshows.half .old
  have holdQuotes := holdShows.quotes
  have hnewQuotes := (hshows.half .new).quotes
  rw [Side.lines, hnew] at hnewQuotes
  refine ⟨hnewQuotes, fun i line hline hmarked => ?_, fun i line hline hkept => ⟨?_, ?_⟩⟩
  · -- a marked line is one of a change
    obtain ⟨c, hc, hhas⟩ : ∃ c ∈ group, Side.old.Has c _ := by
      by_contra hnone
      refine hmarked ((holdShows.kept_iff i line hline).mpr fun c hc hhas => ?_)
      exact hnone ⟨c, hc, hhas⟩
    rw [← holdShows.range_eq] at hhas
    rw [← holdQuotes i line hline]
    exact (getElem?_of_has hdiff hgroup hc hhas).symm
  · have hwindow := mem_window_of_kept hfills (List.mem_of_getElem? hline) hkept
    rwa [hnew] at hwindow
  · obtain ⟨own, hown, hkey⟩ := hdiff.exists_same_key (holdQuotes i line hline)
    exact ⟨own, hown, eq_of_beq hkey⟩

/-- Whatever the options, with less than 2⁶³ lines of context, each line under the head of a new
window is, byte for byte, the one that the new file has there, and each marked line under that of
an old window the one that the old file has there.  An unmarked line under an old window counts as
equal to the one of the old file, but is written as in the window of the new file; that makes no
difference unless blanks at the ends of lines are ignored and the files have lines which differ in
such blanks only. -/
theorem render_attributes (options : Report.Options) (hformat : options.format = .context)
    (hcontext : options.context < 0x8000000000000000) (old new : List Bytes)
    (oldHead newHead : Heading) :
    (Hunk.hasChanges (Report.compare options old new) = false →
      Report.render? options (Report.compare options old new) oldHead newHead = some []) ∧
    (Hunk.hasChanges (Report.compare options old new) = true →
      ∃ rest sections,
        Report.render? options (Report.compare options old new) oldHead newHead =
          some (Row.ofString ("*** " ++ oldHead.named) ++ newline ::
            (Row.ofString ("--- " ++ newHead.named) ++ newline :: rest)) ∧
        rest = Bytes.joinLines (sections.flatMap printed) ∧
        ((∀ line ∈ old ++ new, newline ∉ line) →
          sections? (splitLines rest) = some sections) ∧
        (∀ s ∈ sections, s.Attributes options.key old new) ∧
        ((options.ignoreTrailingBlanks = true →
            ∀ x ∈ old, ∀ y ∈ new, options.key x = options.key y → x = y) →
          ∀ s ∈ sections, s.old.Quotes old)) := by
  have hdiff := Report.plainDiff_compare options old new
  have hattributes : ∀ s ∈ sectionsOf (Report.compare options old new) options.context,
      s.Attributes options.key old new := by
    intro s hs
    obtain ⟨group, hgroup, rfl⟩ := List.mem_map.mp hs
    exact attributes_sectionOf hgroup
  rw [Report.render?_eq hcontext]
  refine ⟨fun hsame => congrArg some ((Report.render_eq_nil_iff ..).mpr hsame),
    fun hchanges => ?_⟩
  refine ⟨_, sectionsOf (Report.compare options old new) options.context, ?_, rfl,
    fun hlines => ?_, hattributes, fun hkey s hs => (hattributes s hs).old_quotes ?_⟩
  · have hrender := render_eq hchanges oldHead newHead options.context
      options.ignoreTrailingBlanks
    rw [← hformat] at hrender
    exact congrArg some hrender
  · exact sections?_splitLines
      (fun hunk hhunk line hline => hlines line
        (List.mem_append.mpr (hdiff.mem_of_mem_values hhunk hline)))
      (fun hunk hhunk _ => hdiff.values_ne_nil hunk hhunk) options.context
  · by_cases hblanks : options.ignoreTrailingBlanks = true
    · exact hkey hblanks
    · intro x _ y _ hsame
      rwa [Report.Options.key, if_neg hblanks] at hsame

theorem render_attributes_changed_blank :
    ∃ rest sections,
      Report.render? ⟨.context, 3, true⟩
          (Report.compare ⟨.context, 3, true⟩ [[97], [98, 32]] [[97], [99]])
          ⟨"", "old\tThu Jan  1 00:00:00 1970"⟩ ⟨"", "new\tThu Jan  1 00:00:00 1970"⟩ =
        some (Row.ofString "*** old\tThu Jan  1 00:00:00 1970" ++ newline ::
          (Row.ofString "--- new\tThu Jan  1 00:00:00 1970" ++ newline :: rest)) ∧
      rest = Bytes.joinLines (sections.flatMap printed) ∧
      sections? (splitLines rest) = some sections ∧
      (∀ s ∈ sections, s.Attributes Report.withoutTrailingBlanks [[97], [98, 32]] [[97], [99]]) ∧
      ∀ s ∈ sections, s.old.Quotes [[97], [98, 32]] := by
  have hchanges : Hunk.hasChanges
      (Report.compare ⟨.context, 3, true⟩ [[97], [98, 32]] [[97], [99]]) = true := by cbv
  obtain ⟨rest, sections, hrender, hrest, hread, hattributes, hquotes⟩ :=
    (render_attributes ⟨.context, 3, true⟩ rfl (by decide) [[97], [98, 32]] [[97], [99]]
      ⟨"", "old\tThu Jan  1 00:00:00 1970"⟩ ⟨"", "new\tThu Jan  1 00:00:00 1970"⟩).2 hchanges
  exact ⟨rest, sections, hrender, hrest, hread (by decide), hattributes,
    hquotes fun _ => by decide⟩

/-- The first line of the old file ends in a blank; below the old window it stands without. -/
theorem render_rewrites_old_line :
    ∃ rest s,
      Report.render? ⟨.context, 3, true⟩
          (Report.compare ⟨.context, 3, true⟩ [[97, 32], [98]] [[97], [99]])
          ⟨"", "old\tThu Jan  1 00:00:00 1970"⟩ ⟨"", "new\tThu Jan  1 00:00:00 1970"⟩ =
        some (Row.ofString "*** old\tThu Jan  1 00:00:00 1970" ++ newline ::
          (Row.ofString "--- new\tThu Jan  1 00:00:00 1970" ++ newline :: rest)) ∧
      sections? (splitLines rest) = some [s] ∧
      s.old = ⟨⟨0, 2⟩, [(.kept, [97]), (.changed, [98])]⟩ ∧ ¬s.old.Quotes [[97, 32], [98]] := by
  have hhunks : Report.compare ⟨.context, 3, true⟩ [[97, 32], [98]] [[97], [99]] =
      [⟨.equal, [[97]]⟩, ⟨.delete, [[98]]⟩, ⟨.insert, [[99]]⟩] := by cbv
  rw [hhunks, Report.render?_eq (by decide)]
  refine ⟨_, ⟨⟨⟨0, 2⟩, [(.kept, [97]), (.changed, [98])]⟩,
    ⟨⟨0, 2⟩, [(.kept, [97]), (.changed, [99])]⟩⟩,
    congrArg some (render_eq (by decide) _ _ 3 true),
    sections?_splitLines (by decide) (by decide) 3, rfl, fun hquotes => ?_⟩
  cases hquotes 0 (.kept, [97]) rfl

end Context

end Redline

import Redline.Diff.Report
import Redline.Proofs.UnifiedReading
/-!
# A unified listing is a patch

The sections that are read from a unified listing lead from the old file to the new one
and back.
-/

namespace Redline

namespace Unified

/-! ## Sections as patches -/

def oldSide (lines : List (Mark × Bytes)) : List Bytes :=
  (lines.filter (·.1 ≠ .added)).map (·.2)

def newSide (lines : List (Mark × Bytes)) : List Bytes :=
  (lines.filter (·.1 ≠ .gone)).map (·.2)

def Mark.reverse : Mark → Mark
  | kept => kept
  | gone => added
  | added => gone

namespace Section

def toChange (s : Section) : Change :=
  ⟨s.old, s.new⟩

def reverse (s : Section) : Section :=
  ⟨s.new, s.old, s.lines.map fun line => (line.1.reverse, line.2)⟩

def IsCounted (s : Section) : Prop :=
  (oldSide s.lines).length = s.old.length ∧ (newSide s.lines).length = s.new.length

instance (s : Section) : Decidable s.IsCounted :=
  inferInstanceAs (Decidable (_ ∧ _))

structure Fits (s : Section) (old new : List Bytes) : Prop where
  counted : s.IsCounted
  old_eq : oldSide s.lines = s.old.slice old
  new_eq : newSide s.lines = s.new.slice new

end Section

/-- Replaces the lines of each section, the lines from a position on being at hand.  A
section must be counted rightly, stand behind the one before, and find its old lines. -/
def applyFrom (position : Nat) : List Section → List Bytes → Option (List Bytes)
  | [], lines => some lines
  | s :: rest, lines =>
    let gap := s.old.start - position
    if s.IsCounted ∧ position ≤ s.old.start ∧ gap ≤ lines.length ∧
        (lines.drop gap).take s.old.length = oldSide s.lines then
      (applyFrom s.old.stop rest (lines.drop (gap + s.old.length))).map fun more =>
        lines.take gap ++ newSide s.lines ++ more
    else none

def applied? (sections : List Section) (lines : List Bytes) : Option (List Bytes) :=
  applyFrom 0 sections lines

/-! ## Both sides of a section -/

variable {lines more : List (Mark × Bytes)} {old new : List Bytes}

theorem oldSide_append : oldSide (lines ++ more) = oldSide lines ++ oldSide more := by
  rw [oldSide, List.filter_append, List.map_append]
  rfl

theorem newSide_append : newSide (lines ++ more) = newSide lines ++ newSide more := by
  rw [newSide, List.filter_append, List.map_append]
  rfl

theorem oldSide_map (mark : Mark) (texts : List Bytes) :
    oldSide (texts.map (mark, ·)) = if mark = .added then [] else texts := by
  unfold oldSide
  cases mark <;> simp [List.filter_map, Function.comp_def]

theorem newSide_map (mark : Mark) (texts : List Bytes) :
    newSide (texts.map (mark, ·)) = if mark = .gone then [] else texts := by
  unfold newSide
  cases mark <;> simp [List.filter_map, Function.comp_def]

theorem sides_gone_append_added (gone added : List Bytes) :
    oldSide (gone.map (Mark.gone, ·) ++ added.map (Mark.added, ·)) = gone ∧
      newSide (gone.map (Mark.gone, ·) ++ added.map (Mark.added, ·)) = added := by
  rw [oldSide_append, newSide_append, oldSide_map, oldSide_map, newSide_map, newSide_map]
  exact ⟨List.append_nil _, List.nil_append _⟩

/-- The lines between two pairs of positions that changes lead to are those of both files. -/
theorem sides_body {d : Comparison Bytes} {i j i' j' : Nat} {group : List Change}
    (h : Aligned d.old d.new i j group i' j') :
    oldSide (body d i' i group) = Span.slice ⟨i, i'⟩ d.old ∧
      newSide (body d i' i group) = Span.slice ⟨j, j'⟩ d.new := by
  induction h with
  | done hagree hi hj =>
    rw [body, oldSide_map, newSide_map, if_neg (by decide), if_neg (by decide), hi, hj]
    exact ⟨rfl, hagree.slice_eq⟩
  | @change i j n i' j' c changes hagree hold hnew holdOrder hnewOrder hrest ih =>
    obtain ⟨iholdSide, ihnewSide⟩ := ih
    have hcommon : Span.slice ⟨i, c.old.start⟩ d.old = Span.slice ⟨j, c.new.start⟩ d.new := by
      rw [hold, hnew]
      exact hagree.slice_eq
    rw [body, oldSide_append, oldSide_append, oldSide_append, newSide_append, newSide_append,
      newSide_append, iholdSide, ihnewSide]
    simp only [oldSide_map, newSide_map, reduceCtorEq, if_true, if_false, List.append_nil]
    constructor
    · rw [Span.slice_append (by omega) holdOrder, Span.slice_append (by omega) hrest.old_le]
    · rw [hcommon, Span.slice_append (by omega) hnewOrder,
        Span.slice_append (by omega) hrest.new_le]

theorem fits_sectionOf {d : Comparison Bytes} {context : Nat} {group : List Change}
    (h : FillsWindow d.old d.new context group) :
    (sectionOf d context group).Fits d.old d.new := by
  obtain ⟨hold, hnew⟩ := sides_body h
  refine ⟨⟨?_, ?_⟩, hold, hnew⟩
  · rw [sectionOf, hold]
    exact Span.length_slice _ _ h.old_le_length
  · rw [sectionOf, hnew]
    exact Span.length_slice _ _ h.new_le_length

theorem fits_replacing {s t : Span} {gone added : List Bytes} (hold : gone = s.slice old)
    (hnew : added = t.slice new) (hgone : gone.length = s.length)
    (hadded : added.length = t.length) :
    (Section.mk s t (gone.map (Mark.gone, ·) ++ added.map (Mark.added, ·))).Fits old new := by
  obtain ⟨holdSide, hnewSide⟩ := sides_gone_append_added gone added
  refine ⟨⟨?_, ?_⟩, holdSide.trans hold, hnewSide.trans hnew⟩
  · rw [holdSide]
    exact hgone
  · rw [hnewSide]
    exact hadded

/-! ## Applying sections -/

/-- Sections that fit lead from the old file to the new one. -/
theorem applyFrom_of_aligned {i j : Nat} {sections : List Section}
    (h : Aligned old new i j (sections.map Section.toChange) old.length new.length)
    (hfits : ∀ s ∈ sections, s.Fits old new) :
    applyFrom i sections (old.drop i) = some (new.drop j) := by
  induction sections generalizing i j with
  | nil =>
    cases h with
    | done hagree hi hj =>
      have hslice := hagree.slice_eq
      rw [← hi, ← hj] at hslice
      have hold := Span.slice_append_drop (Nat.le.intro hi.symm) old
      have hnew := Span.slice_append_drop (Nat.le.intro hj.symm) new
      rw [List.drop_length, List.append_nil] at hold hnew
      rw [applyFrom, ← hold, ← hnew, hslice]
  | cons s rest ih =>
    cases h with
    | @change _ _ n _ _ _ _ hagree hold hnew holdOrder hnewOrder hrest =>
      change s.old.start = i + n at hold
      change s.new.start = j + n at hnew
      change s.old.start ≤ s.old.stop at holdOrder
      change s.new.start ≤ s.new.stop at hnewOrder
      have hs := hfits s List.mem_cons_self
      -- in front of the section both files have the same lines, and behind it the next ones apply
      have hmore : applyFrom s.old.stop rest (old.drop s.old.stop) = some (new.drop s.new.stop) :=
        ih hrest fun t ht => hfits t (List.mem_cons_of_mem _ ht)
      have hgap : s.old.start - i = n := by omega
      have hbound : n ≤ (old.drop i).length := by
        rw [List.length_drop]
        exact Nat.le_sub_of_add_le' hagree.old_le
      have hlines : ((old.drop i).drop n).take s.old.length = oldSide s.lines := by
        rw [hs.old_eq, List.drop_drop, ← hold]
        rfl
      have hbehind : (old.drop i).drop (n + s.old.length) = old.drop s.old.stop := by
        rw [List.drop_drop, Span.length]
        congr 1
        omega
      have hfront : (old.drop i).take n = Span.slice ⟨j, s.new.start⟩ new := by
        rw [hnew, ← hagree.slice_eq, Span.slice, Span.length, Nat.add_sub_cancel_left]
      rw [applyFrom, hgap, if_pos ⟨hs.counted, by omega, hbound, hlines⟩, hbehind, hmore, Option.map_some,
        hfront, hs.new_eq, Span.slice_append (by omega) hnewOrder,
        Span.slice_append_drop (by omega)]

theorem applied?_of_aligned {sections : List Section}
    (h : Aligned old new 0 0 (sections.map Section.toChange) old.length new.length)
    (hfits : ∀ s ∈ sections, s.Fits old new) : applied? sections old = some new :=
  applyFrom_of_aligned h hfits

theorem Mark.reverse_eq_added (mark : Mark) : mark.reverse = .added ↔ mark = .gone := by
  cases mark <;> simp [reverse]

theorem Mark.reverse_eq_gone (mark : Mark) : mark.reverse = .gone ↔ mark = .added := by
  cases mark <;> simp [reverse]

theorem oldSide_reverse (s : Section) : oldSide s.reverse.lines = newSide s.lines := by
  simp [oldSide, newSide, Section.reverse, List.filter_map, Function.comp_def,
    Mark.reverse_eq_added]

theorem newSide_reverse (s : Section) : newSide s.reverse.lines = oldSide s.lines := by
  simp [oldSide, newSide, Section.reverse, List.filter_map, Function.comp_def,
    Mark.reverse_eq_gone]

theorem Section.Fits.reverse {s : Section} (h : s.Fits old new) : s.reverse.Fits new old where
  counted := by
    rw [IsCounted, oldSide_reverse, newSide_reverse]
    exact ⟨h.counted.2, h.counted.1⟩
  old_eq := (oldSide_reverse s).trans h.new_eq
  new_eq := (newSide_reverse s).trans h.old_eq

theorem unapply_of_aligned {sections : List Section}
    (h : Aligned old new 0 0 (sections.map Section.toChange) old.length new.length)
    (hfits : ∀ s ∈ sections, s.Fits old new) :
    applied? (sections.map Section.reverse) new = some old := by
  apply applied?_of_aligned
  · have hswap := h.symm
    rw [List.map_map] at hswap ⊢
    exact hswap
  · intro s hs
    obtain ⟨t, ht, rfl⟩ := List.mem_map.mp hs
    exact (hfits t ht).reverse

/-! ## The whole listing -/

/-- The sections lead from the old file to the new one and back: each fits, they stand in
order, and outside of them both files have the same lines. -/
structure IsPatch (sections : List Section) (old new : List Bytes) : Prop where
  fits : ∀ s ∈ sections, s.Fits old new
  ascending : sections.Pairwise fun s t => s.old.stop ≤ t.old.start ∧ s.new.stop ≤ t.new.start
  aligned : Aligned old new 0 0 (sections.map Section.toChange) old.length new.length
  applies : applied? sections old = some new
  reverts : applied? (sections.map Section.reverse) new = some old

theorem isPatch_of_aligned {sections : List Section}
    (h : Aligned old new 0 0 (sections.map Section.toChange) old.length new.length)
    (hfits : ∀ s ∈ sections, s.Fits old new) : IsPatch sections old new where
  fits := hfits
  ascending := List.pairwise_map.mp h.ascending.2
  aligned := h
  applies := applied?_of_aligned h hfits
  reverts := unapply_of_aligned h hfits

def sectionsOf (hunks : List (Hunk Bytes)) (context : Nat) : List Section :=
  (Change.groups context (Change.ofHunks hunks)).map (sectionOf (.ofHunks hunks) context)

theorem isPatch_sectionsOf (hunks : List (Hunk Bytes)) (context : Nat) :
    IsPatch (sectionsOf hunks context) (Hunk.reconstruct hunks).1 (Hunk.reconstruct hunks).2 := by
  obtain ⟨hwindows, hfills⟩ := aligned_windows context (aligned_ofHunks hunks)
  apply isPatch_of_aligned
  · rw [sectionsOf, List.map_map]
    exact hwindows
  · intro s hs
    obtain ⟨group, hgroup, rfl⟩ := List.mem_map.mp hs
    exact fits_sectionOf (d := .ofHunks hunks) (hfills group hgroup)

example : sectionsOf [⟨.equal, [[97], [98]]⟩, ⟨.insert, []⟩, ⟨.delete, [[99]]⟩] 1 =
    [⟨⟨1, 3⟩, ⟨1, 2⟩, [(.kept, [98]), (.gone, [99])]⟩] := by decide

/-! ## The rows as lines -/

theorem mem_of_mem_body {d : Comparison Bytes} {stop position : Nat} {changes : List Change}
    {line : Mark × Bytes} (h : line ∈ body d stop position changes) :
    line.2 ∈ d.old ∨ line.2 ∈ d.new := by
  have hslice : ∀ {s : Span} {mark : Mark} {texts : List Bytes},
      line ∈ (s.slice texts).map (mark, ·) → line.2 ∈ texts := by
    intro s mark texts hmem
    obtain ⟨text, htext, rfl⟩ := List.mem_map.mp hmem
    exact List.mem_of_mem_drop (List.mem_of_mem_take htext)
  induction changes generalizing position with
  | nil => exact .inl (hslice h)
  | cons c rest ih =>
    simp only [body, List.mem_append] at h
    obtain ((hkept | hgone) | hadded) | hrest := h
    · exact .inl (hslice hkept)
    · exact .inl (hslice hgone)
    · exact .inr (hslice hadded)
    · exact ih hrest

variable {hunks : List (Hunk Bytes)}

theorem exists_hunk_of_mem {line : Bytes}
    (h : line ∈ (Hunk.reconstruct hunks).1 ∨ line ∈ (Hunk.reconstruct hunks).2) :
    ∃ hunk ∈ hunks, line ∈ hunk.values := by
  obtain h | h := h
  · obtain ⟨hunk, hhunk, hline⟩ := List.mem_flatMap.mp h
    unfold Hunk.oldValues at hline
    split at hline
    · exact absurd hline List.not_mem_nil
    · exact ⟨hunk, hhunk, hline⟩
  · obtain ⟨hunk, hhunk, hline⟩ := List.mem_flatMap.mp h
    unfold Hunk.newValues at hline
    split at hline
    · exact absurd hline List.not_mem_nil
    · exact ⟨hunk, hhunk, hline⟩

private theorem line_nameRow {mark : String} (hmark : '\n' ∉ mark.toList)
    (hne : mark.toList ≠ []) {text : String} (h : '\n' ∉ text.toList) :
    newline ∉ Row.ofString (mark ++ text) ∧ Row.ofString (mark ++ text) ≠ [] := by
  apply Row.line_ofString
  · rw [String.toList_append]
    exact List.append_ne_nil_of_left_ne_nil hne _
  · rw [String.toList_append, List.mem_append, not_or]
    exact ⟨hmark, h⟩

private theorem line_groupHead (w : Window) :
    newline ∉ Row.ofString (groupHead w) ∧ Row.ofString (groupHead w) ≠ [] := by
  apply Row.line_ofString
  · rw [toList_groupHead]
    exact List.append_ne_nil_of_left_ne_nil (by decide) _
  · rw [toList_groupHead]
    simp only [List.mem_append, not_or]
    refine ⟨?_, Row.newline_notMem_countedText _, ?_, Row.newline_notMem_countedText _, ?_⟩
    all_goals decide

theorem line_of_mem_groupRows (hlines : ∀ hunk ∈ hunks, ∀ line ∈ hunk.values, newline ∉ line)
    {context : Nat} {group : List Change} {row : Bytes}
    (h : row ∈ groupRows (.ofHunks hunks) context group) : newline ∉ row ∧ row ≠ [] := by
  rw [groupRows_eq] at h
  obtain rfl | h := List.mem_cons.mp h
  · exact line_groupHead _
  · obtain ⟨line, hline, rfl⟩ := List.mem_map.mp h
    obtain ⟨hunk, hhunk, hvalue⟩ := exists_hunk_of_mem (mem_of_mem_body hline)
    have hmark : newline ≠ line.1.byte := by
      cases line.1 <;> decide
    exact ⟨List.not_mem_cons_of_ne_of_not_mem hmark (hlines hunk hhunk _ hvalue),
      List.cons_ne_nil _ _⟩

theorem line_of_mem_rows (hlines : ∀ hunk ∈ hunks, ∀ line ∈ hunk.values, newline ∉ line)
    {oldHead newHead : Heading} (hold : '\n' ∉ oldHead.numeric.toList)
    (hnew : '\n' ∉ newHead.numeric.toList) {context : Nat} {row : Bytes}
    (h : row ∈ rows (.ofHunks hunks) oldHead newHead context) : newline ∉ row ∧ row ≠ [] := by
  unfold rows at h
  split at h
  · exact absurd h List.not_mem_nil
  · obtain rfl | h := List.mem_cons.mp h
    · exact line_nameRow (by decide) (by decide) hold
    obtain rfl | h := List.mem_cons.mp h
    · exact line_nameRow (by decide) (by decide) hnew
    obtain ⟨group, _, hrow⟩ := List.mem_flatMap.mp h
    exact line_of_mem_groupRows hlines hrow

/-- A printed unified listing is empty if no hunk inserts or deletes.  Otherwise its lines
are the two names and, read back, sections that lead from one file to the other. -/
theorem render_isPatch (hunks : List (Hunk Bytes))
    (hlines : ∀ hunk ∈ hunks, ∀ line ∈ hunk.values, newline ∉ line) (oldHead newHead : Heading)
    (hold : '\n' ∉ oldHead.numeric.toList) (hnew : '\n' ∉ newHead.numeric.toList)
    (context : Nat) (ignoreTrailingBlanks : Bool) :
    (Hunk.hasChanges hunks = false →
      Report.render ⟨.unified, context, ignoreTrailingBlanks⟩ hunks oldHead newHead = []) ∧
    (Hunk.hasChanges hunks = true →
      ∃ rest sections,
        splitLines
            (Report.render ⟨.unified, context, ignoreTrailingBlanks⟩ hunks oldHead newHead) =
          Row.ofString ("--- " ++ oldHead.numeric) ::
            Row.ofString ("+++ " ++ newHead.numeric) :: rest ∧
        sections? rest = some sections ∧
        IsPatch sections (Hunk.reconstruct hunks).1 (Hunk.reconstruct hunks).2) := by
  have hempty : (Comparison.ofHunks hunks).changes.isEmpty = !Hunk.hasChanges hunks :=
    Change.isEmpty_ofHunks hunks
  constructor
  · intro hchanges
    rw [hchanges] at hempty
    have hrows : rows (.ofHunks hunks) oldHead newHead context = [] := if_pos hempty
    change Bytes.joinLines (rows (.ofHunks hunks) oldHead newHead context) = []
    rw [hrows]
    rfl
  · intro hchanges
    rw [hchanges] at hempty
    have hline : ∀ row ∈ rows (.ofHunks hunks) oldHead newHead context,
        newline ∉ row ∧ row ≠ [] := fun _ => line_of_mem_rows hlines hold hnew
    refine ⟨_, sectionsOf hunks context,
      (splitLines_joinLines (fun row h => (hline row h).1)
        fun hlast => (hline [] (List.mem_of_getLast? hlast)).2 rfl).trans ?_,
      sections?_groupRows _ context (aligned_windows context (aligned_ofHunks hunks)).2,
      isPatch_sectionsOf hunks context⟩
    exact if_neg (by rw [hempty]; decide)

/-- A hunk that inserts no line is a change too; the line in front of it is its context. -/
theorem render_isPatch_empty_hunk :
    ∃ rest sections,
      splitLines
          (Report.render ⟨.unified, 1, false⟩
            [⟨.equal, [[97], [98]]⟩, ⟨.insert, []⟩, ⟨.delete, [[99]]⟩]
            (Label.heading ⟨"old", ⟨0, 0⟩, 0⟩) (Label.heading ⟨"new", ⟨0, 0⟩, 0⟩)) =
        Row.ofString ("--- " ++ Label.numericText ⟨"old", ⟨0, 0⟩, 0⟩) ::
          Row.ofString ("+++ " ++ Label.numericText ⟨"new", ⟨0, 0⟩, 0⟩) :: rest ∧
      sections? rest = some sections ∧ IsPatch sections [[97], [98], [99]] [[97], [98]] :=
  (render_isPatch [⟨.equal, [[97], [98]]⟩, ⟨.insert, []⟩, ⟨.delete, [[99]]⟩] (by decide)
    (Label.heading ⟨"old", ⟨0, 0⟩, 0⟩) (Label.heading ⟨"new", ⟨0, 0⟩, 0⟩)
    (Label.newline_notMem_numericText (by decide)) (Label.newline_notMem_numericText (by decide))
    1 false).2 (by decide)

end Unified

end Redline

import Mathlib.Data.List.Forall2
import Redline.Proofs.ContextReading
import Redline.Proofs.UnifiedPatch
/-!
# A context listing shows both files

Each section that is read from a context listing shows the window of one group in both files
and marks the lines of its changes; a side without changed lines is the unmarked part of the
other one.  Taken together the sections lead from the old file to the new one and back.
-/

namespace Redline

namespace Span

def positions (s : Span) : List Nat :=
  List.range' s.start s.length

theorem mem_positions {s : Span} {i : Nat} : i ∈ s.positions ↔ s.start ≤ i ∧ i < s.stop := by
  rw [positions, List.mem_range'_1, length]
  omega

theorem eq_of_getElem?_positions {s : Span} {i p : Nat} (h : s.positions[i]? = some p) :
    p = s.start + i := by
  obtain ⟨hi, rfl⟩ := List.getElem?_eq_some_iff.mp h
  simp [positions]

theorem positions_append {i j k : Nat} (hij : i ≤ j) (hjk : j ≤ k) :
    positions ⟨i, j⟩ ++ positions ⟨j, k⟩ = positions ⟨i, k⟩ := by
  have hlength : k - i = (j - i) + (k - j) := by omega
  have hjoin : List.range' i (j - i) ++ List.range' (i + 1 * (j - i)) (k - j) =
      List.range' i ((j - i) + (k - j)) := List.range'_append
  rw [Nat.one_mul, Nat.add_sub_cancel' hij] at hjoin
  simp only [positions, length]
  rw [hlength, hjoin]

end Span

namespace Context

variable {d : Comparison Bytes} {side : Side} {context stop position i : Nat} {c : Change}
  {group rest : List Change}

/-! ## One side of a group -/

def Side.Has (side : Side) (c : Change) (i : Nat) : Prop :=
  (side.span c).start ≤ i ∧ i < (side.span c).stop

instance (side : Side) (c : Change) (i : Nat) : Decidable (side.Has c i) :=
  inferInstanceAs (Decidable (_ ∧ _))

def Ordered (side : Side) (stop : Nat) : Nat → List Change → Prop
  | position, [] => position ≤ stop
  | position, c :: rest =>
    position ≤ (side.span c).start ∧ (side.span c).start ≤ (side.span c).stop ∧
      Ordered side stop (side.span c).stop rest

theorem ordered_of_aligned {old new : List Bytes} {i j i' j' : Nat}
    (h : Aligned old new i j group i' j') : Ordered .old i' i group ∧ Ordered .new j' j group := by
  induction h with
  | done _ hi hj => exact ⟨by rw [Ordered]; omega, by rw [Ordered]; omega⟩
  | change _ hold hnew holdOrder hnewOrder _ ih =>
    exact ⟨⟨by rw [Side.span]; omega, holdOrder, ih.1⟩, ⟨by rw [Side.span]; omega, hnewOrder, ih.2⟩⟩

theorem Ordered.le_stop (h : Ordered side stop position group) : position ≤ stop := by
  induction group generalizing position with
  | nil => exact h
  | cons c rest ih =>
    obtain ⟨hstart, horder, hrest⟩ := h
    have := ih hrest
    omega

theorem Ordered.inside (h : Ordered side stop position group) (hc : c ∈ group) :
    position ≤ (side.span c).start ∧ (side.span c).stop ≤ stop := by
  induction group generalizing position with
  | nil => exact absurd hc List.not_mem_nil
  | cons first rest ih =>
    obtain ⟨hstart, horder, hrest⟩ := h
    obtain rfl | hc := List.mem_cons.mp hc
    · exact ⟨hstart, hrest.le_stop⟩
    · have := ih hrest hc
      omega

theorem map_snd_body (h : Ordered side stop position group) :
    (body d side stop position group).map (·.2) = Span.slice ⟨position, stop⟩ (side.lines d) := by
  have htexts : ∀ (mark : Mark) (texts : List Bytes), (texts.map (mark, ·)).map (·.2) = texts :=
    fun mark texts => by rw [List.map_map]; exact List.map_id texts
  induction group generalizing position with
  | nil => rw [body, htexts]
  | cons c rest ih =>
    obtain ⟨hstart, horder, hrest⟩ := h
    rw [body, List.map_append, List.map_append, htexts, htexts, ih hrest,
      Span.slice_append hstart horder, Span.slice_append (by omega) hrest.le_stop]

/-! ## Marks -/

def markAt (side : Side) (i : Nat) : List Change → Mark
  | [] => .kept
  | c :: rest => if side.Has c i then markOf side c else markAt side i rest

theorem markAt_of_mem (h : Ordered side stop position group) (hc : c ∈ group)
    (hi : side.Has c i) : markAt side i group = markOf side c := by
  induction group generalizing position with
  | nil => exact absurd hc List.not_mem_nil
  | cons first rest ih =>
    obtain ⟨-, -, hrest⟩ := h
    obtain rfl | hc := List.mem_cons.mp hc
    · exact if_pos hi
    · have hbehind := hrest.inside hc
      have hnot : ¬side.Has first i := fun hfirst => by
        have := hfirst.2
        have := hi.1
        omega
      rw [markAt, if_neg hnot, ih hrest hc]

theorem markAt_of_forall_not (h : ∀ c ∈ group, ¬side.Has c i) : markAt side i group = .kept := by
  induction group with
  | nil => rfl
  | cons c rest ih =>
    rw [markAt, if_neg (h c List.mem_cons_self)]
    exact ih fun c' hc' => h c' (List.mem_cons_of_mem _ hc')

theorem map_fst_marked {mark : Mark} {lines : List Bytes} {s : Span} {f : Nat → Mark}
    (hs : s.stop ≤ lines.length) (hf : ∀ i ∈ s.positions, f i = mark) :
    ((s.slice lines).map (mark, ·)).map (·.1) = s.positions.map f := by
  have hlength : s.positions.length = (s.slice lines).length := by
    rw [Span.length_slice _ _ hs, Span.positions, List.length_range']
  have hconst : s.positions.map f = s.positions.map fun _ => mark := List.map_congr_left hf
  rw [List.map_map, hconst, List.map_const', hlength]
  exact List.map_const'

theorem map_fst_body (h : Ordered side stop position group)
    (hstop : stop ≤ (side.lines d).length) :
    (body d side stop position group).map (·.1) =
      (Span.positions ⟨position, stop⟩).map (markAt side · group) := by
  induction group generalizing position with
  | nil => exact map_fst_marked hstop fun _ _ => rfl
  | cons c rest ih =>
    have hall := h
    obtain ⟨hstart, horder, hrest⟩ := h
    have hle := hrest.le_stop
    have hfront : ∀ i ∈ Span.positions ⟨position, (side.span c).start⟩,
        markAt side i (c :: rest) = .kept := by
      intro i hi
      have hbefore : i < (side.span c).start := (Span.mem_positions.mp hi).2
      refine markAt_of_forall_not fun c' hc' hhas => ?_
      have hfrom := hhas.1
      obtain rfl | hc' := List.mem_cons.mp hc'
      · exact Nat.not_lt_of_le hfrom hbefore
      · have hbehind := (hrest.inside hc').1
        omega
    have hinside : ∀ i ∈ (side.span c).positions, markAt side i (c :: rest) = markOf side c :=
      fun i hi => markAt_of_mem hall List.mem_cons_self (Span.mem_positions.mp hi)
    have hbehind : (Span.positions ⟨(side.span c).stop, stop⟩).map (markAt side · (c :: rest)) =
        (Span.positions ⟨(side.span c).stop, stop⟩).map (markAt side · rest) := by
      refine List.map_congr_left fun i hi => if_neg fun hhas => ?_
      exact Nat.not_lt_of_le (Span.mem_positions.mp hi).1 hhas.2
    rw [body, List.map_append, List.map_append, map_fst_marked (by dsimp only; omega) hfront,
      map_fst_marked (by omega) hinside, ih hrest, ← hbehind, ← List.map_append,
      Span.positions_append hstart horder, ← List.map_append, Span.positions_append (by omega) hle]

theorem mark_of_getElem? {line : Mark × Bytes} (h : Ordered side stop position group)
    (hstop : stop ≤ (side.lines d).length)
    (hline : (body d side stop position group)[i]? = some line) :
    line.1 = markAt side (position + i) group := by
  have hmarks := congrArg (·[i]?) (map_fst_body h hstop)
  rw [List.getElem?_map, List.getElem?_map, hline] at hmarks
  obtain ⟨p, hp, hmark⟩ := Option.map_eq_some_iff.mp hmarks.symm
  rw [Span.eq_of_getElem?_positions hp] at hmark
  exact hmark.symm

theorem body_ne_nil (h : Ordered side stop position group) (hstop : stop ≤ (side.lines d).length)
    (hc : c ∈ group) (hnonempty : (side.span c).isEmpty = false) :
    body d side stop position group ≠ [] := by
  intro hnil
  have hmarks := map_fst_body h hstop
  rw [hnil] at hmarks
  have hpositions := List.map_eq_nil_iff.mp hmarks.symm
  have hlength : ¬(side.span c).stop ≤ (side.span c).start :=
    of_decide_eq_false hnonempty
  have hinside := h.inside hc
  have hmem : (side.span c).start ∈ Span.positions ⟨position, stop⟩ :=
    Span.mem_positions.mpr ⟨hinside.1, by dsimp only; omega⟩
  rw [hpositions] at hmem
  exact absurd hmem List.not_mem_nil

theorem markOf_eq_changed_iff (side : Side) (c : Change) :
    markOf side c = .changed ↔ (side.other.span c).isEmpty = false := by
  unfold markOf
  split
  · rename_i hempty
    rw [hempty]
    cases side <;> decide
  · rename_i hnonempty
    exact iff_of_true rfl (eq_false_of_ne_true hnonempty)

theorem markOf_eq_solo_iff (side : Side) (c : Change) :
    markOf side c = side.solo ↔ (side.other.span c).isEmpty = true := by
  unfold markOf
  split
  · rename_i hempty
    exact iff_of_true rfl hempty
  · rename_i hnonempty
    rw [eq_false_of_ne_true hnonempty]
    cases side <;> decide

theorem markOf_ne_kept (side : Side) (c : Change) : markOf side c ≠ .kept := by
  unfold markOf
  split
  · cases side <;> decide
  · decide

theorem markAt_eq_iff (h : Ordered side stop position group) {mark : Mark} (hmark : mark ≠ .kept) :
    markAt side i group = mark ↔ ∃ c ∈ group, side.Has c i ∧ markOf side c = mark := by
  by_cases hsome : ∃ c ∈ group, side.Has c i
  · obtain ⟨c, hc, hi⟩ := hsome
    constructor
    · intro hat
      exact ⟨c, hc, hi, (markAt_of_mem h hc hi).symm.trans hat⟩
    · rintro ⟨c', hc', hi', rfl⟩
      exact markAt_of_mem h hc' hi'
  · have hkept : markAt side i group = .kept :=
      markAt_of_forall_not fun c hc hi => hsome ⟨c, hc, hi⟩
    rw [hkept]
    constructor
    · exact fun heq => absurd heq.symm hmark
    · rintro ⟨c, hc, hi, -⟩
      exact absurd ⟨c, hc, hi⟩ hsome

theorem markAt_eq_kept_iff (h : Ordered side stop position group) :
    markAt side i group = .kept ↔ ∀ c ∈ group, ¬side.Has c i := by
  constructor
  · intro hkept c hc hi
    rw [markAt_of_mem h hc hi] at hkept
    exact markOf_ne_kept side c hkept
  · exact markAt_of_forall_not

/-! ## Unmarked lines -/

theorem keptTexts_append (lines more : List (Mark × Bytes)) :
    keptTexts (lines ++ more) = keptTexts lines ++ keptTexts more := by
  rw [keptTexts, List.filter_append, List.map_append]
  rfl

theorem keptTexts_kept (texts : List Bytes) : keptTexts (texts.map (Mark.kept, ·)) = texts := by
  simp [keptTexts, List.filter_map, Function.comp_def]

theorem keptTexts_marked (side : Side) (c : Change) (texts : List Bytes) :
    keptTexts (texts.map (markOf side c, ·)) = [] := by
  simp [keptTexts, List.filter_map, Function.comp_def, markOf_ne_kept]

/-- Both sides of a window have the same unmarked lines. -/
theorem keptTexts_body {i j i' j' : Nat} (h : Aligned d.old d.new i j group i' j') :
    keptTexts (body d .old i' i group) = keptTexts (body d .new j' j group) := by
  induction h with
  | done hagree hi hj =>
    rw [body, body, keptTexts_kept, keptTexts_kept, hi, hj]
    exact hagree.slice_eq
  | change hagree hold hnew _ _ _ ih =>
    simp only [body, keptTexts_append, keptTexts_kept, keptTexts_marked, ih, Side.span, hold, hnew]
    rw [show Side.lines d .old = d.old from rfl, hagree.slice_eq]
    rfl

theorem keptTexts_body_of_isEmpty (h : ∀ c ∈ group, (side.span c).isEmpty = true) :
    keptTexts (body d side stop position group) = (body d side stop position group).map (·.2) := by
  induction group generalizing position with
  | nil =>
    rw [body, keptTexts_kept, List.map_map]
    exact (List.map_id _).symm
  | cons c rest ih =>
    have hempty := (Span.isEmpty_iff _).mp (h c List.mem_cons_self)
    have hnone : (side.span c).slice (side.lines d) = [] := by
      rw [Span.slice, hempty, List.take_zero]
    rw [body, hnone, List.map_nil, List.append_nil, keptTexts_append, List.map_append,
      ih fun c' hc' => h c' (List.mem_cons_of_mem _ hc'), keptTexts_kept, List.map_map]
    exact congrArg (· ++ _) (List.map_id _).symm

/-! ## What a section shows -/

/-- The half of a section shows a window of a side: it is left out if no change has a line on
the side, and otherwise its lines are those of the window, marked by the changes. -/
structure Half.Shows (h : Half) (d : Comparison Bytes) (side : Side) (window : Span)
    (group : List Change) : Prop where
  range_eq : h.range = window
  leftOut_iff : h.lines = [] ↔ ∀ c ∈ group, (side.span c).isEmpty = true
  texts_eq : h.lines ≠ [] → h.lines.map (·.2) = window.slice (side.lines d)
  kept_iff : ∀ (i : Nat) (line : Mark × Bytes), h.lines[i]? = some line →
    (line.1 = .kept ↔ ∀ c ∈ group, ¬side.Has c (window.start + i))
  changed_iff : ∀ (i : Nat) (line : Mark × Bytes), h.lines[i]? = some line →
    (line.1 = .changed ↔
      ∃ c ∈ group, side.Has c (window.start + i) ∧ (side.other.span c).isEmpty = false)
  solo_iff : ∀ (i : Nat) (line : Mark × Bytes), h.lines[i]? = some line →
    (line.1 = side.solo ↔
      ∃ c ∈ group, side.Has c (window.start + i) ∧ (side.other.span c).isEmpty = true)

/-- The section shows a group in its two windows; the unmarked lines of one half are the
window of the other if that is left out. -/
structure Section.Shows (s : Section) (d : Comparison Bytes) (context : Nat)
    (group : List Change) : Prop where
  half : ∀ side, (s.half side).Shows d side
    (side.window (Window.ofGroup context d.old.length group)) group
  leftOut_eq : ∀ side, (s.half side).lines = [] → keptTexts (s.half side.other).lines =
    (side.window (Window.ofGroup context d.old.length group)).slice (side.lines d)

theorem ordered_of_fillsWindow (h : FillsWindow d.old d.new context group) (side : Side) :
    Ordered side (side.window (Window.ofGroup context d.old.length group)).stop
      (side.window (Window.ofGroup context d.old.length group)).start group ∧
    (side.window (Window.ofGroup context d.old.length group)).stop ≤ (side.lines d).length := by
  obtain ⟨hold, hnew⟩ := ordered_of_aligned h
  cases side with
  | old => exact ⟨hold, h.old_le_length⟩
  | new => exact ⟨hnew, h.new_le_length⟩

theorem any_span_iff (side : Side) (group : List Change) :
    (group.any fun c => !(side.span c).isEmpty) = true ↔
      ∃ c ∈ group, (side.span c).isEmpty = false := by
  simp

theorem not_any_span_iff (side : Side) (group : List Change) :
    ¬(group.any fun c => !(side.span c).isEmpty) = true ↔
      ∀ c ∈ group, (side.span c).isEmpty = true := by
  simp

theorem shows_halfOf (h : FillsWindow d.old d.new context group) (side : Side) :
    (halfOf d context group side).Shows d side
      (side.window (Window.ofGroup context d.old.length group)) group := by
  obtain ⟨hordered, hstop⟩ := ordered_of_fillsWindow h side
  generalize hwindow : side.window (Window.ofGroup context d.old.length group) = window
    at hordered hstop
  have hhalf : halfOf d context group side =
      ⟨window, if group.any fun c => !(side.span c).isEmpty then
        body d side window.stop window.start group else []⟩ := by
    rw [halfOf, hwindow]
  rw [hhalf]
  by_cases hany : (group.any fun c => !(side.span c).isEmpty) = true
  · rw [if_pos hany]
    obtain ⟨c, hc, hnonempty⟩ := (any_span_iff side group).mp hany
    refine ⟨rfl, ?_, fun _ => map_snd_body hordered, ?_, ?_, ?_⟩
    · refine iff_of_false (body_ne_nil hordered hstop hc hnonempty) fun hall => ?_
      rw [hall c hc] at hnonempty
      cases hnonempty
    · intro i line hline
      rw [mark_of_getElem? hordered hstop hline]
      exact markAt_eq_kept_iff hordered
    · intro i line hline
      rw [mark_of_getElem? hordered hstop hline, markAt_eq_iff hordered (by decide)]
      simp only [markOf_eq_changed_iff]
    · intro i line hline
      rw [mark_of_getElem? hordered hstop hline, markAt_eq_iff hordered (by cases side <;> decide)]
      simp only [markOf_eq_solo_iff]
  · rw [if_neg hany]
    have hnone := (not_any_span_iff side group).mp hany
    refine ⟨rfl, ⟨fun _ => hnone, fun _ => rfl⟩, fun hne => absurd rfl hne, ?_, ?_, ?_⟩
    all_goals
      intro i line hline
      cases hline

theorem keptTexts_of_leftOut (h : FillsWindow d.old d.new context group)
    (hchanges : ∃ c ∈ group, c.old.isEmpty = false ∨ c.new.isEmpty = false) (side : Side)
    (hnone : ∀ c ∈ group, (side.span c).isEmpty = true) :
    keptTexts (halfOf d context group side.other).lines =
      (side.window (Window.ofGroup context d.old.length group)).slice (side.lines d) := by
  obtain ⟨c, hc, hchange⟩ := hchanges
  have hother : (side.other.span c).isEmpty = false := by
    cases side with
    | old =>
      have hold : c.old.isEmpty = true := hnone c hc
      exact hchange.resolve_left (by rw [hold]; decide)
    | new =>
      have hnew : c.new.isEmpty = true := hnone c hc
      exact hchange.resolve_right (by rw [hnew]; decide)
  have hlines : (halfOf d context group side.other).lines = body d side.other
      (side.other.window (Window.ofGroup context d.old.length group)).stop
      (side.other.window (Window.ofGroup context d.old.length group)).start group :=
    if_pos ((any_span_iff side.other group).mpr ⟨c, hc, hother⟩)
  have hkept := keptTexts_body h
  rw [hlines, ← map_snd_body (ordered_of_fillsWindow h side).1, ← keptTexts_body_of_isEmpty hnone]
  cases side with
  | old => exact hkept.symm
  | new => exact hkept

theorem shows_sectionOf (h : FillsWindow d.old d.new context group)
    (hchanges : ∃ c ∈ group, c.old.isEmpty = false ∨ c.new.isEmpty = false) :
    (sectionOf d context group).Shows d context group := by
  refine ⟨fun side => ?_, fun side hnil => ?_⟩
  · rw [half_sectionOf]
    exact shows_halfOf h side
  · rw [half_sectionOf] at hnil ⊢
    exact keptTexts_of_leftOut h hchanges side ((shows_halfOf h side).leftOut_iff.mp hnil)

/-- Either way a section gives the lines of both windows. -/
theorem Section.Shows.texts_eq {s : Section} (h : s.Shows d context group) (side : Side) :
    s.texts side =
      (side.window (Window.ofGroup context d.old.length group)).slice (side.lines d) := by
  unfold texts textsOf
  split
  · rename_i hnil
    exact h.leftOut_eq side hnil
  · rename_i hprinted
    exact (h.half side).texts_eq hprinted

theorem Section.Shows.isCounted {s : Section} (h : s.Shows d context group)
    (hfills : FillsWindow d.old d.new context group) : s.IsCounted := by
  intro side
  obtain ⟨hordered, hstop⟩ := ordered_of_fillsWindow hfills side
  rw [h.texts_eq, (h.half side).range_eq]
  exact ⟨hordered.le_stop, Span.length_slice _ _ hstop⟩

/-! ## Sections as patches -/

def Section.replacement (s : Section) : Unified.Section :=
  ⟨s.old.range, s.new.range,
    (s.texts .old).map (Unified.Mark.gone, ·) ++ (s.texts .new).map (Unified.Mark.added, ·)⟩

theorem Section.Shows.fits {s : Section} (h : s.Shows d context group)
    (hfills : FillsWindow d.old d.new context group) : s.replacement.Fits d.old d.new := by
  have hcounted := h.isCounted hfills
  have hold := h.texts_eq .old
  have hnew := h.texts_eq .new
  rw [← (h.half .old).range_eq] at hold
  rw [← (h.half .new).range_eq] at hnew
  exact Unified.fits_replacing hold hnew (hcounted .old).2 (hcounted .new).2

/-! ## The whole listing -/

variable {hunks : List (Hunk Bytes)}

def sectionsOf (hunks : List (Hunk Bytes)) (context : Nat) : List Section :=
  (Change.groups context (Change.ofHunks hunks)).map (sectionOf (.ofHunks hunks) context)

theorem shows_of_mem_groups
    (hnonempty : ∀ hunk ∈ hunks, hunk.kind ≠ .equal → hunk.values ≠ [])
    (hgroup : group ∈ Change.groups context (Change.ofHunks hunks)) :
    (sectionOf (.ofHunks hunks) context group).Shows (.ofHunks hunks) context group ∧
      FillsWindow (Hunk.reconstruct hunks).1 (Hunk.reconstruct hunks).2 context group := by
  have hne := (Change.flatten_groups context (Change.ofHunks hunks)).2
  have hfills := (aligned_windows context (aligned_ofHunks hunks)).2 group hgroup
  obtain ⟨c, rest, rfl⟩ := List.exists_cons_of_ne_nil (hne group hgroup)
  have hc := Change.mem_of_mem_groups hgroup List.mem_cons_self
  exact ⟨shows_sectionOf hfills
    ⟨c, List.mem_cons_self, Change.nonempty_of_mem_ofHunksFrom hnonempty hc⟩, hfills⟩

theorem shows_sectionsOf
    (hnonempty : ∀ hunk ∈ hunks, hunk.kind ≠ .equal → hunk.values ≠ []) (context : Nat) :
    List.Forall₂ (fun s group => s.Shows (.ofHunks hunks) context group)
      (sectionsOf hunks context) (Change.groups context (Change.ofHunks hunks)) := by
  rw [sectionsOf, List.forall₂_map_left_iff, List.forall₂_same]
  exact fun group hgroup => (shows_of_mem_groups hnonempty hgroup).1

theorem isPatch_sectionsOf
    (hnonempty : ∀ hunk ∈ hunks, hunk.kind ≠ .equal → hunk.values ≠ []) (context : Nat) :
    Unified.IsPatch ((sectionsOf hunks context).map Section.replacement)
      (Hunk.reconstruct hunks).1 (Hunk.reconstruct hunks).2 := by
  apply Unified.isPatch_of_aligned
  · rw [sectionsOf, List.map_map, List.map_map]
    exact (aligned_windows context (aligned_ofHunks hunks)).1
  · intro s hs
    obtain ⟨t, ht, rfl⟩ := List.mem_map.mp hs
    obtain ⟨group, hgroup, rfl⟩ := List.mem_map.mp ht
    obtain ⟨hshows, hfills⟩ := shows_of_mem_groups hnonempty hgroup
    exact hshows.fits hfills

example : sectionsOf [⟨.equal, [[97]]⟩, ⟨.delete, [[98]]⟩] 0 =
    [⟨⟨⟨1, 2⟩, [(.removed, [98])]⟩, ⟨⟨1, 1⟩, []⟩⟩] := by decide

/-! ## The rows as lines -/

theorem line_of_mem_lines {s : Section} (h : s.Shows d context group)
    {line : Mark × Bytes} (hline : line ∈ (s.half side).lines) : line.2 ∈ side.lines d := by
  have htexts := (h.half side).texts_eq (List.ne_nil_of_mem hline)
  have hmem := List.mem_map_of_mem (f := Prod.snd) hline
  change line.2 ∈ (s.half side).lines.map (·.2) at hmem
  rw [htexts] at hmem
  exact List.mem_of_mem_drop (List.mem_of_mem_take hmem)

theorem line_headRow (side : Side) (s : Span) :
    newline ∉ headRow side s ∧ headRow side s ≠ [] := by
  apply Row.line_ofString
  · rw [String.toList_append]
    exact List.append_ne_nil_of_right_ne_nil _ (by cases side <;> decide)
  · simp only [String.toList_append, List.mem_append, not_or]
    exact ⟨⟨by cases side <;> decide, Row.newline_notMem_sectionText s⟩, by cases side <;> decide⟩

theorem line_of_mem_printed (hlines : ∀ hunk ∈ hunks, ∀ line ∈ hunk.values, newline ∉ line)
    {s : Section} (h : s.Shows (.ofHunks hunks) context group) {row : Bytes}
    (hrow : row ∈ printed s) : newline ∉ row ∧ row ≠ [] := by
  have hmarked : ∀ side, row ∈ (s.half side).lines.map rowOf → newline ∉ row ∧ row ≠ [] := by
    intro side hmem
    obtain ⟨line, hline, rfl⟩ := List.mem_map.mp hmem
    have hside := line_of_mem_lines h hline
    obtain ⟨hunk, hhunk, hvalue⟩ : ∃ hunk ∈ hunks, line.2 ∈ hunk.values := by
      apply Unified.exists_hunk_of_mem
      cases side with
      | old => exact .inl hside
      | new => exact .inr hside
    have hmark : newline ≠ line.1.byte := by
      cases line.1 <;> decide
    refine ⟨List.not_mem_cons_of_ne_of_not_mem hmark ?_, List.cons_ne_nil _ _⟩
    exact List.not_mem_cons_of_ne_of_not_mem (by decide) (hlines hunk hhunk _ hvalue)
  simp only [printed, List.mem_cons, List.mem_append] at hrow
  obtain rfl | rfl | hold | rfl | hnew := hrow
  · exact Row.line_ofString (by decide) (by decide)
  · exact line_headRow _ _
  · exact hmarked .old hold
  · exact line_headRow _ _
  · exact hmarked .new hnew

/-- Behind the rows of names stand the sections, if there is a change. -/
theorem rows_eq (hchanges : Hunk.hasChanges hunks = true) (oldHead newHead : Heading)
    (context : Nat) :
    rows (.ofHunks hunks) oldHead newHead context =
        Row.ofString ("*** " ++ oldHead.named) ::
          Row.ofString ("--- " ++ newHead.named) ::
            (sectionsOf hunks context).flatMap printed ∧
      (sectionsOf hunks context).flatMap printed ≠ [] := by
  have hempty := Change.isEmpty_ofHunks hunks
  rw [hchanges, Bool.not_true] at hempty
  have hprinted : (sectionsOf hunks context).flatMap printed =
      (Change.groups context (Change.ofHunks hunks)).flatMap
        (groupRows (.ofHunks hunks) context) := by
    rw [sectionsOf, List.flatMap_map]
    exact congrArg (List.flatMap · _) (funext fun group => (groupRows_eq _ _ group).symm)
  constructor
  · rw [hprinted]
    exact if_neg (ne_true_of_eq_false hempty)
  · intro hnil
    have hgroups : Change.groups context (Change.ofHunks hunks) = [] := by
      refine List.eq_nil_iff_forall_not_mem.mpr fun group hgroup => ?_
      have hrows := List.flatMap_eq_nil_iff.mp hnil (sectionOf (.ofHunks hunks) context group)
        (List.mem_map_of_mem hgroup)
      cases hrows
    have hflat := (Change.flatten_groups context (Change.ofHunks hunks)).1
    rw [hgroups, List.flatten_nil] at hflat
    rw [← hflat] at hempty
    cases hempty

theorem render_eq (hchanges : Hunk.hasChanges hunks = true) (oldHead newHead : Heading)
    (context : Nat) (ignoreTrailingBlanks : Bool) :
    Report.render ⟨.context, context, ignoreTrailingBlanks⟩ hunks oldHead newHead =
      Row.ofString ("*** " ++ oldHead.named) ++ newline ::
        (Row.ofString ("--- " ++ newHead.named) ++ newline ::
          Bytes.joinLines ((sectionsOf hunks context).flatMap printed)) := by
  obtain ⟨hrows, hne⟩ := rows_eq hchanges oldHead newHead context
  obtain ⟨row, rest, hrest⟩ := List.exists_cons_of_ne_nil hne
  change Bytes.joinLines (rows (.ofHunks hunks) oldHead newHead context) = _
  rw [hrows, hrest, Bytes.joinLines_cons_cons, Bytes.joinLines_cons_cons]

theorem sections?_splitLines (hlines : ∀ hunk ∈ hunks, ∀ line ∈ hunk.values, newline ∉ line)
    (hnonempty : ∀ hunk ∈ hunks, hunk.kind ≠ .equal → hunk.values ≠ []) (context : Nat) :
    sections? (splitLines (Bytes.joinLines ((sectionsOf hunks context).flatMap printed))) =
      some (sectionsOf hunks context) := by
  have hsections : ∀ s ∈ sectionsOf hunks context, s.IsCounted ∧
      ∀ row ∈ printed s, newline ∉ row ∧ row ≠ [] := by
    intro s hs
    obtain ⟨group, hgroup, rfl⟩ := List.mem_map.mp hs
    obtain ⟨hshows, hfills⟩ := shows_of_mem_groups hnonempty hgroup
    exact ⟨hshows.isCounted hfills, fun row => line_of_mem_printed hlines hshows⟩
  have hrow : ∀ row ∈ (sectionsOf hunks context).flatMap printed, newline ∉ row ∧ row ≠ [] := by
    intro row hmem
    obtain ⟨s, hs, hrow⟩ := List.mem_flatMap.mp hmem
    exact (hsections s hs).2 row hrow
  rw [splitLines_joinLines (fun row hmem => (hrow row hmem).1)
    fun hlast => (hrow [] (List.mem_of_getLast? hlast)).2 rfl]
  exact sections?_printed fun s hs => (hsections s hs).1

/-- Behind the two names, a printed context listing reads back as one section for each group
of changes.  A section has the windows of its group for ranges and their lines, marked by the
changes, for lines; a side is left out if no change has lines on it, and is the unmarked part
of the other side then.  The sections stand in order, outside of them both files have the same
lines, and they lead from one file to the other. -/
theorem render_shows (hunks : List (Hunk Bytes))
    (hlines : ∀ hunk ∈ hunks, ∀ line ∈ hunk.values, newline ∉ line)
    (hnonempty : ∀ hunk ∈ hunks, hunk.kind ≠ .equal → hunk.values ≠ [])
    (hchanges : Hunk.hasChanges hunks = true) (oldHead newHead : Heading) (context : Nat)
    (ignoreTrailingBlanks : Bool) :
    ∃ rest sections,
      Report.render ⟨.context, context, ignoreTrailingBlanks⟩ hunks oldHead newHead =
        Row.ofString ("*** " ++ oldHead.named) ++ newline ::
          (Row.ofString ("--- " ++ newHead.named) ++ newline :: rest) ∧
      sections? (splitLines rest) = some sections ∧
      List.Forall₂ (fun s group => s.Shows (.ofHunks hunks) context group) sections
        (Change.groups context (Change.ofHunks hunks)) ∧
      Unified.IsPatch (sections.map Section.replacement)
        (Hunk.reconstruct hunks).1 (Hunk.reconstruct hunks).2 := by
  refine ⟨Bytes.joinLines ((sectionsOf hunks context).flatMap printed), sectionsOf hunks context,
    ?_, ?_, shows_sectionsOf hnonempty context, isPatch_sectionsOf hnonempty context⟩
  · exact render_eq hchanges oldHead newHead context ignoreTrailingBlanks
  · exact sections?_splitLines hlines hnonempty context

theorem render_shows_insert_delete :
    ∃ rest sections,
      Report.render ⟨.context, 1, false⟩
          [⟨.insert, [[120]]⟩, ⟨.equal, [[97]]⟩, ⟨.delete, [[98]]⟩]
          ⟨"", "old\tThu Jan  1 00:00:00 1970"⟩ ⟨"", "new\tThu Jan  1 00:00:00 1970"⟩ =
        Row.ofString "*** old\tThu Jan  1 00:00:00 1970" ++ newline ::
          (Row.ofString "--- new\tThu Jan  1 00:00:00 1970" ++ newline :: rest) ∧
      sections? (splitLines rest) = some sections ∧
      List.Forall₂ (fun s group => s.Shows
          (.ofHunks [⟨.insert, [[120]]⟩, ⟨.equal, [[97]]⟩, ⟨.delete, [[98]]⟩]) 1 group) sections
        [[⟨⟨0, 0⟩, ⟨0, 1⟩⟩, ⟨⟨1, 2⟩, ⟨2, 2⟩⟩]] ∧
      Unified.IsPatch (sections.map Section.replacement) [[97], [98]] [[120], [97]] :=
  render_shows [⟨.insert, [[120]]⟩, ⟨.equal, [[97]]⟩, ⟨.delete, [[98]]⟩] (by decide) (by decide)
    (by decide) ⟨"", "old\tThu Jan  1 00:00:00 1970"⟩ ⟨"", "new\tThu Jan  1 00:00:00 1970"⟩ 1
    false

end Context

end Redline

import Redline.Command.Script
import Redline.Proofs.TextEnds
/-!
# How lines fall into commands and text blocks

A frame is a command line with the text block behind it: the lines up to one that holds a
single dot, and that line.  Every list of lines falls into frames in exactly one way, and the
script has one item for each frame.  A line that is no command is a frame of its own.
-/

namespace Redline

theorem Command.withText_of_not_takesText {c : Command} (h : c.verb.takesText = false)
    (text : String) : c.withText text = c := by
  obtain ⟨verb, first, last⟩ := c
  cases verb <;> first | rfl | cases h

namespace Script

variable {close : String} {block : List String}

/-! ## Blocks -/

theorem takeBlock_append (hblock : ∀ s ∈ block, blockLine s ≠ ".")
    (hclose : blockLine close = ".") (rest : List (Option String)) :
    takeBlock (block.map some ++ some close :: rest) = (block.map blockLine, rest) := by
  induction block with
  | nil =>
    rw [List.map_nil, List.nil_append, takeBlock]
    exact if_pos hclose
  | cons s block ih =>
    rw [List.map_cons, List.cons_append, takeBlock]
    dsimp only
    rw [if_neg (hblock s List.mem_cons_self), ih fun t ht => hblock t (List.mem_cons_of_mem _ ht)]
    rfl

theorem takeBlock_of_forall_ne (hblock : ∀ s ∈ block, blockLine s ≠ ".") :
    takeBlock (block.map some) = (block.map blockLine, []) := by
  induction block with
  | nil => rfl
  | cons s block ih =>
    rw [List.map_cons, takeBlock]
    dsimp only
    rw [if_neg (hblock s List.mem_cons_self), ih fun t ht => hblock t (List.mem_cons_of_mem _ ht)]
    rfl

theorem exists_append_or_forall_ne (lines : List String) :
    (∃ block close rest, lines = block ++ close :: rest ∧ (∀ s ∈ block, blockLine s ≠ ".") ∧
      blockLine close = ".") ∨ ∀ s ∈ lines, blockLine s ≠ "." := by
  induction lines with
  | nil => exact .inr fun s hs => absurd hs List.not_mem_nil
  | cons line lines ih =>
    by_cases hdot : blockLine line = "."
    · exact .inl ⟨[], line, lines, rfl, fun s hs => absurd hs List.not_mem_nil, hdot⟩
    · obtain ⟨block, close, rest, rfl, hblock, hclose⟩ | hall := ih
      · exact .inl ⟨line :: block, close, rest, rfl, List.forall_mem_cons.mpr ⟨hdot, hblock⟩,
          hclose⟩
      · exact .inr (List.forall_mem_cons.mpr ⟨hdot, hall⟩)

theorem blockText_cons (s : String) (block : List String) :
    blockText (s :: block) = s ++ "\n" ++ blockText block := by
  simp [blockText]

theorem blockLine_eq_self_iff (s : String) : blockLine s = s ↔ s.toList.getLast? ≠ some '\r' := by
  have htrim : (blockLine s).toList = s.toList.rdropWhile (· = '\r') := String.toList_ofList
  constructor
  · intro hself hlast
    rw [hself] at htrim
    have hnot : ∀ c ∈ (s.toList.rdropWhile (· = '\r')).getLast?, decide (c = '\r') = false :=
      Text.of_mem_getLast?_rdropWhile
    rw [← htrim] at hnot
    exact absurd (hnot '\r' hlast) (by decide)
  · intro hlast
    have hkeep : s.toList.rdropWhile (· = '\r') = s.toList :=
      Text.rdropWhile_eq_self fun c hc => decide_eq_false fun hreturn => hlast (hreturn ▸ hc)
    rw [hkeep] at htrim
    exact String.toList_inj.mp htrim

/-! ## Frames -/

def opensBlock (line : String) : Bool :=
  match Command.parse line with
  | .ok c => c.verb.takesText
  | .error _ => false

/-- A command line, the lines of its text block and the line that closes the block.  Nothing
but the end of the input closes a block without such a line. -/
@[ext] structure Frame where
  line : String
  block : List String
  close : Option String
  bare : opensBlock line = false → block = [] ∧ close = none
  ne_dot : ∀ s ∈ block, blockLine s ≠ "."
  close_eq : ∀ s ∈ close, blockLine s = "."

namespace Frame

def alone (line : String) : Frame where
  line := line
  block := []
  close := none
  bare _ := ⟨rfl, rfl⟩
  ne_dot _ hs := absurd hs List.not_mem_nil
  close_eq _ hs := by cases hs

def withBlock (line : String) (block : List String) (close : Option String)
    (hopens : opensBlock line = true) (hblock : ∀ s ∈ block, blockLine s ≠ ".")
    (hclose : ∀ s ∈ close, blockLine s = ".") : Frame where
  line := line
  block := block
  close := close
  bare hbare := by
    rw [hopens] at hbare
    cases hbare
  ne_dot := hblock
  close_eq := hclose

def lines (f : Frame) : List String :=
  f.line :: (f.block ++ f.close.toList)

def item (f : Frame) : Item :=
  (Command.parse f.line).map (·.withText (blockText (f.block.map blockLine)))

def IsClosed (f : Frame) : Prop :=
  opensBlock f.line = true → f.close.isSome = true

end Frame

/-- The frames are the lines, cut into pieces; only the last block may be open at its end. -/
structure IsFraming (frames : List Frame) (lines : List String) : Prop where
  lines_eq : frames.flatMap Frame.lines = lines
  closed : ∀ f ∈ frames.dropLast, f.IsClosed

variable {f : Frame} {frames more : List Frame} {lines : List String}

theorem IsFraming.tail (h : IsFraming (f :: frames) lines) :
    IsFraming frames (frames.flatMap Frame.lines) ∧
      (f.IsClosed ∨ frames.flatMap Frame.lines = []) := by
  cases frames with
  | nil => exact ⟨⟨rfl, fun f hf => absurd hf List.not_mem_nil⟩, .inr rfl⟩
  | cons g frames =>
    have hclosed := h.closed
    rw [List.dropLast_cons_cons] at hclosed
    exact ⟨⟨rfl, fun f hf => hclosed f (List.mem_cons_of_mem _ hf)⟩,
      .inl (hclosed f List.mem_cons_self)⟩

/-! ## Reading frames -/

theorem Frame.eq_nil_of_open {α : Type} {rest : List α} (h : f.IsClosed ∨ rest = [])
    (hopens : opensBlock f.line = true) (hclose : f.close = none) : rest = [] := by
  refine h.resolve_left fun hclosed => ?_
  have hsome := hclosed hopens
  rw [hclose] at hsome
  cases hsome

theorem takeBlock_frame {rest : List (Option String)} (h : f.IsClosed ∨ rest = [])
    (hopens : opensBlock f.line = true) :
    takeBlock ((f.block ++ f.close.toList).map some ++ rest) = (f.block.map blockLine, rest) := by
  cases hclose : f.close with
  | none =>
    rw [f.eq_nil_of_open h hopens hclose, Option.toList_none, List.append_nil, List.append_nil]
    exact takeBlock_of_forall_ne f.ne_dot
  | some s =>
    rw [Option.toList_some, List.map_append, List.append_assoc]
    exact takeBlock_append f.ne_dot (f.close_eq s hclose) rest

/-- A frame is read as one item, and what stands behind it is left. -/
theorem next_frame (f : Frame) {rest : List (Option String)} (h : f.IsClosed ∨ rest = []) :
    next f.line ((f.block ++ f.close.toList).map some ++ rest) = (f.item, rest) := by
  unfold next Frame.item
  cases hparse : Command.parse f.line with
  | error e =>
    have hopens : opensBlock f.line = false := by rw [opensBlock, hparse]
    obtain ⟨hblock, hclose⟩ := f.bare hopens
    rw [hblock, hclose]
    rfl
  | ok c =>
    have hopens : opensBlock f.line = c.verb.takesText := by rw [opensBlock, hparse]
    dsimp only
    cases htakes : c.verb.takesText with
    | false =>
      obtain ⟨hblock, hclose⟩ := f.bare (hopens.trans htakes)
      rw [hblock, hclose, if_neg Bool.false_ne_true]
      dsimp only [Except.map]
      rw [Command.withText_of_not_takesText htakes]
      rfl
    | true =>
      rw [if_pos rfl, takeBlock_frame h (hopens.trans htakes)]
      rfl

/-- The script has one item for each frame. -/
theorem items_of_isFraming (h : IsFraming frames lines) :
    items (lines.map some) = frames.map Frame.item := by
  induction frames generalizing lines with
  | nil =>
    rw [← h.lines_eq]
    simp [items]
  | cons f frames ih =>
    obtain ⟨hrest, hend⟩ := h.tail
    have hlines : lines.map some =
        some f.line :: ((f.block ++ f.close.toList).map some ++
          (frames.flatMap Frame.lines).map some) := by
      rw [← h.lines_eq, List.flatMap_cons, List.map_append]
      rfl
    have hleft : f.IsClosed ∨ (frames.flatMap Frame.lines).map some = [] :=
      hend.imp_right fun hnil => by rw [hnil, List.map_nil]
    rw [hlines, items, next_frame f hleft, ih hrest, List.map_cons]

/-! ## Cutting lines into frames -/

theorem IsFraming.cons (h : IsFraming frames lines) (f : Frame) (hclosed : f.IsClosed) :
    IsFraming (f :: frames) (f.lines ++ lines) := by
  refine ⟨by rw [List.flatMap_cons, h.lines_eq], fun g hg => ?_⟩
  cases frames with
  | nil => exact absurd hg List.not_mem_nil
  | cons next frames =>
    rw [List.dropLast_cons_cons] at hg
    obtain rfl | hg := List.mem_cons.mp hg
    · exact hclosed
    · exact h.closed g hg

theorem isFraming_singleton (f : Frame) : IsFraming [f] f.lines :=
  ⟨List.append_nil _, fun _ hg => absurd hg List.not_mem_nil⟩

theorem exists_isFraming (lines : List String) : ∃ frames, IsFraming frames lines := by
  cases lines with
  | nil => exact ⟨[], rfl, fun f hf => absurd hf List.not_mem_nil⟩
  | cons line lines =>
    cases hopens : opensBlock line with
    | false =>
      obtain ⟨frames, hframes⟩ := exists_isFraming lines
      refine ⟨_, hframes.cons (.alone line) fun hline => ?_⟩
      rw [Frame.alone, hopens] at hline
      cases hline
    | true =>
      obtain ⟨block, close, rest, hlines, hblock, hclose⟩ | hall :=
        exists_append_or_forall_ne lines
      · obtain ⟨frames, hframes⟩ := exists_isFraming rest
        obtain ⟨f, hf, hclosed⟩ : ∃ f : Frame, f.lines = line :: (block ++ [close]) ∧ f.IsClosed :=
          ⟨.withBlock line block (some close) hopens hblock fun s hs => by cases hs; exact hclose,
            rfl, fun _ => rfl⟩
        refine ⟨f :: frames, ?_⟩
        have hall := hframes.cons f hclosed
        rwa [hf, List.cons_append, List.append_assoc, List.singleton_append, ← hlines] at hall
      -- nothing closes the block, which takes all lines
      · obtain ⟨f, hf⟩ : ∃ f : Frame, f.lines = line :: (lines ++ []) :=
          ⟨.withBlock line lines none hopens hall (fun s hs => by cases hs), rfl⟩
        rw [List.append_nil] at hf
        exact ⟨[f], hf ▸ isFraming_singleton f⟩
  termination_by lines.length
  decreasing_by
    · simp_wf
    · rw [hlines]
      simp_wf
      omega

/-! ## There is but one way -/

theorem Frame.takeWhile_block {rest : List String} (f : Frame) (hopens : opensBlock f.line = true)
    (h : f.IsClosed ∨ rest = []) :
    (f.block ++ f.close.toList ++ rest).takeWhile (blockLine · ≠ ".") = f.block ∧
      (f.block ++ f.close.toList ++ rest).dropWhile (blockLine · ≠ ".") =
        f.close.toList ++ rest ∧ (f.close = none → rest = []) := by
  have hblock : ∀ s ∈ f.block, decide (blockLine s ≠ ".") = true :=
    fun s hs => decide_eq_true (f.ne_dot s hs)
  cases hclose : f.close with
  | none =>
    have hrest := f.eq_nil_of_open h hopens hclose
    rw [hrest, Option.toList_none, List.append_nil, List.append_nil]
    refine ⟨List.takeWhile_eq_self_iff.mpr hblock, List.dropWhile_eq_nil_iff.mpr hblock,
      fun _ => rfl⟩
  | some s =>
    have hdot : ¬decide (blockLine s ≠ ".") = true := by
      rw [f.close_eq s hclose]
      decide
    have htake : (s :: rest).takeWhile (blockLine · ≠ ".") = [] := List.takeWhile_cons_of_neg hdot
    have hdrop : (s :: rest).dropWhile (blockLine · ≠ ".") = s :: rest :=
      List.dropWhile_cons_of_neg hdot
    rw [List.append_assoc, List.takeWhile_append_of_pos hblock, List.dropWhile_append_of_pos hblock,
      Option.toList_some, List.singleton_append, htake, hdrop, List.append_nil]
    exact ⟨rfl, rfl, fun hnone => by cases hnone⟩

theorem Frame.eq_of_lines_append_eq {f g : Frame} {rest left : List String}
    (hf : f.IsClosed ∨ rest = []) (hg : g.IsClosed ∨ left = [])
    (h : f.lines ++ rest = g.lines ++ left) : f = g ∧ rest = left := by
  simp only [Frame.lines, List.cons_append, List.cons.injEq] at h
  obtain ⟨hline, htail⟩ := h
  cases hopens : opensBlock f.line with
  | false =>
    obtain ⟨hfblock, hfclose⟩ := f.bare hopens
    obtain ⟨hgblock, hgclose⟩ := g.bare (hline ▸ hopens)
    rw [hfblock, hfclose, hgblock, hgclose] at htail
    exact ⟨Frame.ext hline (hfblock.trans hgblock.symm) (hfclose.trans hgclose.symm), htail⟩
  | true =>
    -- both blocks are the lines up to the first single dot
    obtain ⟨hfblock, hfrest, hfend⟩ := f.takeWhile_block hopens hf
    obtain ⟨hgblock, hgrest, hgend⟩ := g.takeWhile_block (hline ▸ hopens) hg
    rw [htail] at hfblock hfrest
    have hblock := hfblock.symm.trans hgblock
    have hrest := hfrest.symm.trans hgrest
    cases hfclose : f.close with
    | none =>
      cases hgclose : g.close with
      | none => exact ⟨Frame.ext hline hblock (hfclose.trans hgclose.symm),
          (hfend hfclose).trans (hgend hgclose).symm⟩
      | some t =>
        rw [hfclose, hgclose, hfend hfclose] at hrest
        cases hrest
    | some s =>
      cases hgclose : g.close with
      | none =>
        rw [hfclose, hgclose, hgend hgclose] at hrest
        cases hrest
      | some t =>
        rw [hfclose, hgclose] at hrest
        obtain ⟨hclose, hrest⟩ := List.cons.inj hrest
        refine ⟨Frame.ext hline hblock ?_, hrest⟩
        rw [hfclose, hgclose, hclose]

theorem IsFraming.unique (h : IsFraming frames lines) (hmore : IsFraming more lines) :
    frames = more := by
  induction frames generalizing lines more with
  | nil =>
    cases more with
    | nil => rfl
    | cons g more =>
      have hlines := h.lines_eq.trans hmore.lines_eq.symm
      cases hlines
  | cons f frames ih =>
    cases more with
    | nil =>
      have hlines := h.lines_eq.trans hmore.lines_eq.symm
      cases hlines
    | cons g more =>
      have hlines := h.lines_eq.trans hmore.lines_eq.symm
      rw [List.flatMap_cons, List.flatMap_cons] at hlines
      obtain ⟨hrest, hf⟩ := h.tail
      obtain ⟨hleft, hg⟩ := hmore.tail
      obtain ⟨rfl, htail⟩ := Frame.eq_of_lines_append_eq hf hg hlines
      rw [ih hrest (htail ▸ hleft)]

/-! ## Texts -/

theorem blockText_terminated (block : List String) :
    blockText block = "" ∨ ∃ front, blockText block = front ++ "\n" := by
  induction block with
  | nil => exact .inl rfl
  | cons s block ih =>
    refine .inr ?_
    rw [blockText_cons]
    obtain hnil | ⟨front, hfront⟩ := ih
    · exact ⟨s, by rw [hnil, String.append_empty]⟩
    · exact ⟨s ++ "\n" ++ front, by rw [hfront, ← String.append_assoc]⟩

theorem eq_of_withText {v : Verb} {t text : String}
    (h : v.withText t = .append text ∨ v.withText t = .insert text ∨ v.withText t = .change text) :
    text = t := by
  cases v <;> simp_all [Verb.withText]

theorem exists_block_of_mem_items {c : Command} {text : String}
    (hc : .ok c ∈ items (lines.map some))
    (htext : c.verb = .append text ∨ c.verb = .insert text ∨ c.verb = .change text) :
    ∃ block, text = blockText block := by
  obtain ⟨frames, hframes⟩ := exists_isFraming lines
  rw [items_of_isFraming hframes] at hc
  obtain ⟨f, -, hitem⟩ := List.mem_map.mp hc
  unfold Frame.item at hitem
  cases hparse : Command.parse f.line with
  | error e =>
    rw [hparse] at hitem
    cases hitem
  | ok d =>
    rw [hparse] at hitem
    cases hitem
    exact ⟨_, eq_of_withText htext⟩

/-- Every list of lines falls into frames in exactly one way, and reading gives one item for
each of them, in order: what the line says, with the lines of the block for its text, each
terminated.  So every text that is read is empty or ends in a newline. -/
theorem framing_loses_nothing :
    (∀ frames lines, IsFraming frames lines →
      items (lines.map some) = frames.map Frame.item) ∧
    (∀ f : Frame, (∀ s ∈ f.block, s.toList.getLast? ≠ some '\r') →
      f.item = (Command.parse f.line).map (·.withText (blockText f.block))) ∧
    (∀ lines, ∃ frames, IsFraming frames lines ∧ ∀ more, IsFraming more lines → more = frames) ∧
    ∀ (lines : List String) (c : Command) (text : String), .ok c ∈ items (lines.map some) →
      c.verb = .append text ∨ c.verb = .insert text ∨ c.verb = .change text →
      text = "" ∨ ∃ front, text = front ++ "\n" := by
  refine ⟨fun frames lines h => items_of_isFraming h, fun f hplain => ?_, fun lines => ?_,
    fun lines c text hc htext => ?_⟩
  · have hblock : f.block.map blockLine = f.block := by
      rw [List.map_congr_left fun s hs => (blockLine_eq_self_iff s).mpr (hplain s hs), List.map_id']
    rw [Frame.item, hblock]
  · obtain ⟨frames, hframes⟩ := exists_isFraming lines
    exact ⟨frames, hframes, fun more hmore => hmore.unique hframes⟩
  · obtain ⟨block, rfl⟩ := exists_block_of_mem_items hc htext
    exact blockText_terminated block

/-- A line that only begins with a dot stays in its block, one that is no command costs nothing
but itself, and the last block is closed by the end of the lines. -/
theorem framing_loses_nothing_open_end :
    (items (["a", "x", ". y", ".", "zz", "1p", "$c", "t"].map some)).map Except.toOption =
      [some ⟨.append "x\n. y\n", none, none⟩, none, some ⟨.print, some (.line 1), some (.line 1)⟩,
        some ⟨.change "t\n", some ⟨.last, 0⟩, some ⟨.last, 0⟩⟩] := by
  have hframing : IsFraming
      [.withBlock "a" ["x", ". y"] (some ".") (by decide +kernel) (by decide) (by decide),
        .alone "zz", .alone "1p",
        .withBlock "$c" ["t"] none (by decide +kernel) (by decide) (by decide)]
      ["a", "x", ". y", ".", "zz", "1p", "$c", "t"] := by
    have hlast := isFraming_singleton
      (.withBlock "$c" ["t"] none (by decide +kernel) (by decide) (by decide))
    have hprint := hlast.cons (.alone "1p") fun hopens => absurd hopens (by decide +kernel)
    have hbad := hprint.cons (.alone "zz") fun hopens => absurd hopens (by decide +kernel)
    exact hbad.cons _ fun _ => rfl
  rw [framing_loses_nothing.1 _ _ hframing]
  decide +kernel

end Script

end Redline

import Redline.Proofs.PrintedLines
/-!
# Listed lines are read back

A line that is made visible is printable from its first byte to the dollar sign at its end, and
a reader gets back from it byte for byte what it was.  As no newline is printable, the rows of a
listing stand apart, so that a listing tells how many lines it shows and which bytes each has.
-/

namespace Redline

namespace Visible

/-! ## A reader for visible lines -/

def byteNamed? (letter : UInt8) : Option UInt8 :=
  (named.find? (·.2 = letter)).map (·.1)

def isOctalDigit (b : UInt8) : Bool :=
  48 ≤ b && b ≤ 55

def readOctal? : Bytes → Option (UInt8 × Bytes)
  | d₂ :: d₁ :: d₀ :: rest =>
    if isOctalDigit d₂ && isOctalDigit d₁ && isOctalDigit d₀ then
      some (64 * (d₂ - 48) + (8 * (d₁ - 48) + (d₀ - 48)), rest)
    else none
  | _ => none

def readEscape? (text : Bytes) : Option (UInt8 × Bytes) :=
  match text.head?.bind byteNamed? with
  | some b => some (b, text.tail)
  | none => readOctal? text

def readByte? : Bytes → Option (UInt8 × Bytes)
  | [] => none
  | b :: rest =>
    if b = backslash then readEscape? rest
    else if isPlain b then some (b, rest)
    else none

theorem length_lt_of_readOctal? {text rest : Bytes} {b : UInt8}
    (h : readOctal? text = some (b, rest)) : rest.length < text.length := by
  unfold readOctal? at h
  split at h
  · split at h
    · cases h
      simp only [List.length_cons]
      omega
    · cases h
  · cases h

theorem length_lt_of_readByte? {text rest : Bytes} {b : UInt8}
    (h : readByte? text = some (b, rest)) : rest.length < text.length := by
  cases text with
  | nil => cases h
  | cons c text =>
    rw [readByte?] at h
    rw [List.length_cons]
    split at h
    · unfold readEscape? at h
      split at h
      · cases h
        rw [List.length_tail]
        omega
      · exact Nat.lt_succ_of_lt (length_lt_of_readOctal? h)
    · split at h
      · cases h
        exact Nat.lt_succ_self _
      · cases h

/-- The line whose visible form a text is.  A dollar sign ends the line only if nothing stands
behind it. -/
def readLine? (text : Bytes) : Option Bytes :=
  if text = [endMark] then some []
  else
    match _ : readByte? text with
    | none => none
    | some (b, rest) => (readLine? rest).map (b :: ·)
  termination_by text.length
  decreasing_by exact length_lt_of_readByte? ‹_›

def readLines? (listing : Bytes) : Option (List Bytes) :=
  (splitLines listing).mapM readLine?

/-! ## One byte -/

variable {b : UInt8}

theorem of_mem_named {p : UInt8 × UInt8} (h : p ∈ named) :
    byteNamed? p.2 = some p.1 ∧ isOctalDigit p.2 = false ∧ 32 ≤ p.2 ∧ p.2 ≤ 126 := by
  have hall : named.all (fun p =>
      byteNamed? p.2 = some p.1 ∧ isOctalDigit p.2 = false ∧ 32 ≤ p.2 ∧ p.2 ≤ 126) = true := by
    decide
  exact of_decide_eq_true (List.all_eq_true.mp hall p h)

theorem byteNamed?_of_isOctalDigit (h : isOctalDigit b = true) : byteNamed? b = none := by
  have hnone : named.find? (·.2 = b) = none := by
    rw [List.find?_eq_none]
    intro p hp heq
    rw [← of_decide_eq_true heq, (of_mem_named hp).2.1] at h
    cases h
  rw [byteNamed?, hnone]
  rfl

theorem isOctalDigit_octal (b : UInt8) :
    isOctalDigit (48 + b / 64) = true ∧ isOctalDigit (48 + b / 8 % 8) = true ∧
      isOctalDigit (48 + b % 8) = true := by
  simp only [isOctalDigit, Bool.and_eq_true, decide_eq_true_eq, UInt8.le_iff_toNat_le,
    UInt8.toNat_add, UInt8.toNat_div, UInt8.toNat_mod, UInt8.reduceToNat]
  have hb := b.toNat_lt
  omega

theorem octal_value (b : UInt8) :
    64 * (48 + b / 64 - 48) + (8 * (48 + b / 8 % 8 - 48) + (48 + b % 8 - 48)) = b := by
  have hdigit : ∀ d : UInt8, 48 + d - 48 = d := fun d => by
    rw [UInt8.add_comm, UInt8.add_sub_cancel]
  rw [hdigit, hdigit, hdigit, ← UInt8.toNat_inj]
  simp only [UInt8.toNat_add, UInt8.toNat_mul, UInt8.toNat_div, UInt8.toNat_mod,
    UInt8.reduceToNat]
  have hb := b.toNat_lt
  omega

theorem readOctal?_octal (b : UInt8) (rest : Bytes) :
    readOctal? (octal b ++ rest) = some (b, rest) := by
  obtain ⟨h₂, h₁, h₀⟩ := isOctalDigit_octal b
  change (if isOctalDigit (48 + b / 64) && isOctalDigit (48 + b / 8 % 8) &&
    isOctalDigit (48 + b % 8) then _ else _) = _
  rw [h₂, h₁, h₀, octal_value]
  rfl

theorem escapedByte_cases (b : UInt8) :
    (∃ letter, (b, letter) ∈ named ∧ escapedByte b = [backslash, letter]) ∨
      (b ≠ backslash ∧ isPlain b = true ∧ escapedByte b = [b]) ∨
      escapedByte b = backslash :: octal b := by
  unfold escapedByte
  cases hname : named.lookup b with
  | some letter =>
    obtain ⟨front, behind, hnamed, -⟩ := List.lookup_eq_some_iff.mp hname
    refine .inl ⟨letter, ?_, rfl⟩
    rw [hnamed]
    exact List.mem_append_right front List.mem_cons_self
  | none =>
    have hne : b ≠ backslash := by
      rintro rfl
      cases hname
    dsimp only
    split
    · exact .inr (.inl ⟨hne, ‹_›, rfl⟩)
    · exact .inr (.inr rfl)

/-- Whatever stands behind it, an escaped byte is read back: a letter that names a byte is no
digit, and a backslash never stands for itself. -/
theorem readByte?_escapedByte (b : UInt8) (rest : Bytes) :
    readByte? (escapedByte b ++ rest) = some (b, rest) := by
  obtain ⟨letter, hmem, h⟩ | ⟨hne, hplain, h⟩ | h := escapedByte_cases b
  · have hname : byteNamed? letter = some b := (of_mem_named hmem).1
    rw [h, List.cons_append, readByte?, if_pos rfl, readEscape?, List.cons_append, List.head?_cons,
      Option.bind_some, hname]
    rfl
  · rw [h, List.cons_append, readByte?, if_neg hne, if_pos hplain, List.nil_append]
  · have hdigit : byteNamed? (48 + b / 64) = none :=
      byteNamed?_of_isOctalDigit (isOctalDigit_octal b).1
    have hhead : ((octal b ++ rest).head?.bind byteNamed?) = none := hdigit
    rw [h, List.cons_append, readByte?, if_pos rfl, readEscape?, hhead]
    exact readOctal?_octal b rest

def IsPrintable (b : UInt8) : Prop :=
  32 ≤ b ∧ b ≤ 126

theorem isPrintable_of_isOctalDigit (h : isOctalDigit b = true) : IsPrintable b := by
  simp only [isOctalDigit, Bool.and_eq_true, decide_eq_true_eq] at h
  exact ⟨UInt8.le_trans (by decide) h.1, UInt8.le_trans h.2 (by decide)⟩

theorem isPrintable_of_mem_escapedByte {c : UInt8} (h : c ∈ escapedByte b) : IsPrintable c := by
  have hbackslash : IsPrintable backslash := ⟨by decide, by decide⟩
  obtain ⟨letter, hmem, hb⟩ | ⟨-, hplain, hb⟩ | hb := escapedByte_cases b
  · rw [hb, List.mem_cons, List.mem_singleton] at h
    obtain rfl | rfl := h
    · exact hbackslash
    · exact (of_mem_named hmem).2.2
  · rw [hb, List.mem_singleton] at h
    rw [isPlain, Bool.and_eq_true, decide_eq_true_eq, decide_eq_true_eq] at hplain
    rw [h]
    exact hplain
  · obtain ⟨h₂, h₁, h₀⟩ := isOctalDigit_octal b
    rw [hb, octal, List.mem_cons, List.mem_cons, List.mem_cons, List.mem_singleton] at h
    obtain rfl | rfl | rfl | rfl := h
    · exact hbackslash
    · exact isPrintable_of_isOctalDigit h₂
    · exact isPrintable_of_isOctalDigit h₁
    · exact isPrintable_of_isOctalDigit h₀

theorem escapedByte_ne_nil (b : UInt8) : escapedByte b ≠ [] := by
  obtain ⟨letter, -, h⟩ | ⟨-, -, h⟩ | h := escapedByte_cases b
  all_goals
    rw [h]
    exact List.cons_ne_nil _ _

/-! ## Whole lines -/

theorem visibleLine_nil : visibleLine [] = [endMark] := rfl

theorem visibleLine_cons (b : UInt8) (line : Bytes) :
    visibleLine (b :: line) = escapedByte b ++ visibleLine line := by
  rw [visibleLine, visibleLine, List.flatMap_cons, List.append_assoc]

theorem isPrintable_of_mem_visibleLine {line : Bytes} (h : b ∈ visibleLine line) :
    IsPrintable b := by
  induction line with
  | nil =>
    rw [visibleLine_nil, List.mem_singleton] at h
    rw [h]
    exact ⟨by decide, by decide⟩
  | cons c line ih =>
    rw [visibleLine_cons, List.mem_append] at h
    obtain h | h := h
    · exact isPrintable_of_mem_escapedByte h
    · exact ih h

theorem getLast?_visibleLine (line : Bytes) : (visibleLine line).getLast? = some endMark :=
  List.getLast?_concat

/-- The dollar sign at the end is the only one with nothing behind it. -/
theorem readLine?_visibleLine (line : Bytes) : readLine? (visibleLine line) = some line := by
  induction line with
  | nil =>
    rw [readLine?]
    rfl
  | cons b line ih =>
    have hlong : 1 < (visibleLine (b :: line)).length := by
      have hbyte := List.length_pos_iff.mpr (escapedByte_ne_nil b)
      have hline : (visibleLine line).length = (line.flatMap escapedByte).length + 1 :=
        List.length_append
      rw [visibleLine_cons, List.length_append]
      omega
    have hne : visibleLine (b :: line) ≠ [endMark] := by
      intro h
      rw [h] at hlong
      exact Nat.lt_irrefl _ hlong
    have hread : readByte? (visibleLine (b :: line)) = some (b, visibleLine line) := by
      rw [visibleLine_cons]
      exact readByte?_escapedByte b _
    rw [readLine?, if_neg hne]
    split
    · rename_i hnone
      rw [hread] at hnone
      cases hnone
    · rename_i hsome
      rw [hread] at hsome
      cases hsome
      rw [ih]
      rfl

theorem visibleLine_injective : Function.Injective visibleLine := by
  intro line line' h
  have hread := readLine?_visibleLine line
  rw [h, readLine?_visibleLine] at hread
  exact (Option.some.inj hread).symm

/-! ## Listings -/

theorem newline_notMem_visibleLine (line : Bytes) : newline ∉ visibleLine line := by
  intro h
  have hle : 32 ≤ newline := (isPrintable_of_mem_visibleLine h).1
  exact absurd hle (by decide)

theorem visibleLine_ne_nil (line : Bytes) : visibleLine line ≠ [] :=
  List.append_ne_nil_of_right_ne_nil _ (List.cons_ne_nil _ _)

private theorem mapM_readLine? (lines : List Bytes) :
    (lines.map visibleLine).mapM readLine? = some lines := by
  induction lines with
  | nil => rfl
  | cons line lines ih =>
    rw [List.map_cons, List.mapM_cons, readLine?_visibleLine, ih]
    rfl

/-- A listing is read back, with newlines between its rows as well as behind each of them. -/
theorem readLines?_visibleLines (lines : List Bytes) :
    readLines? (Bytes.joinLines (lines.map visibleLine)) = some lines ∧
      readLines? (ofLines (lines.map visibleLine)) = some lines := by
  have hrow : ∀ row ∈ lines.map visibleLine, newline ∉ row ∧ row ≠ [] := by
    intro row hmem
    obtain ⟨line, -, rfl⟩ := List.mem_map.mp hmem
    exact ⟨newline_notMem_visibleLine line, visibleLine_ne_nil line⟩
  have hplain : ∀ row ∈ lines.map visibleLine, newline ∉ row := fun row hmem => (hrow row hmem).1
  constructor
  · rw [readLines?, splitLines_joinLines hplain
      fun hlast => (hrow [] (List.mem_of_getLast? hlast)).2 rfl]
    exact mapM_readLine? lines
  · rw [readLines?, splitLines_ofLines hplain]
    exact mapM_readLine? lines

end Visible

/-! ## What a document shows of its lines -/

namespace Editor

variable {e : Editor} {k last : Nat} {content shown : Bytes}

theorem getElem?_of_lineContent (h : e.Indexed) (hcontent : e.lineContent (k + 1) = .ok content) :
    e.lineList[k]? = some content := by
  rw [lineContent, h.lines_eq, LineIndex.lineRange?_ofBytes] at hcontent
  cases hline : (splitLines e.bytes)[k]? with
  | none =>
    rw [hline] at hcontent
    cases hcontent
  | some line =>
    have hread : e.table.readAt (ofLines ((splitLines e.bytes).take k)).length line.length
        e.table.pieces = line :=
      (PieceTable.readAt_eq h.wellFormed _ _).trans (LineIndex.slice_lineRange hline)
    rw [hline, Option.map_some] at hcontent
    dsimp only at hcontent
    rw [readSpan, PieceTable.read, Span.length, Nat.add_sub_cancel_left, hread] at hcontent
    cases hcheck : e.table.checkRange (ofLines ((splitLines e.bytes).take k)).length
        line.length with
    | error cause =>
      rw [hcheck] at hcontent
      cases hcontent
    | ok _ =>
      rw [hcheck] at hcontent
      cases hcontent
      exact hline

private theorem eq_map_of_mapM_lineContent {shownAs : Bytes → Bytes} {first : Nat}
    {lines rows : List Bytes}
    (hlines : ∀ i content, i < lines.length → e.lineContent (first + i) = .ok content →
      lines[i]? = some content)
    (h : ((List.range' first lines.length).mapM fun n => (e.lineContent n).map shownAs) =
      .ok rows) : rows = lines.map shownAs := by
  induction lines generalizing first rows with
  | nil =>
    cases h
    rfl
  | cons line lines ih =>
    rw [List.length_cons, List.range'_succ, List.mapM_cons] at h
    obtain ⟨row, hrow, h⟩ := exists_of_bind_eq_ok h
    obtain ⟨more, hmore, h⟩ := exists_of_bind_eq_ok h
    cases h
    have hrest : more = lines.map shownAs := by
      refine ih (fun i content hi hcontent => ?_) hmore
      rw [Nat.add_assoc, Nat.add_comm 1] at hcontent
      exact hlines (i + 1) content (Nat.succ_lt_succ hi) hcontent
    cases hcontent : e.lineContent first with
    | error cause =>
      rw [hcontent] at hrow
      cases hrow
    | ok content =>
      rw [hcontent] at hrow
      cases hrow
      have hline := hlines 0 content (Nat.succ_pos _) hcontent
      cases hline
      rw [hrest, List.map_cons]

theorem eq_joinLines_of_joinedLines (h : e.Indexed) {shownAs : Bytes → Bytes}
    (hlast : last ≤ e.lineList.length)
    (hjoined : e.joinedLines (k + 1) last (fun _ => shownAs) = .ok shown) :
    shown = Bytes.joinLines ((LineEdit.between (k + 1) last e.lineList).map shownAs) := by
  have hlength : (LineEdit.between (k + 1) last e.lineList).length = last + 1 - (k + 1) :=
    LineEdit.length_between (Nat.succ_pos k) hlast
  have hlines : ∀ i content, i < (LineEdit.between (k + 1) last e.lineList).length →
      e.lineContent (k + 1 + i) = .ok content →
      (LineEdit.between (k + 1) last e.lineList)[i]? = some content := by
    intro i content hi hcontent
    rw [Nat.add_right_comm] at hcontent
    rw [LineEdit.between, Nat.add_sub_cancel, List.getElem?_drop,
      List.getElem?_take_of_lt (by omega)]
    exact getElem?_of_lineContent h hcontent
  rw [joinedLines, ← hlength] at hjoined
  obtain ⟨rows, hrows, hjoined⟩ := exists_of_bind_eq_ok hjoined
  cases hjoined
  rw [eq_map_of_mapM_lineContent hlines hrows]

end Editor

namespace Parser

theorem isBare_list : IsBare 'l' .list :=
  ⟨rfl, rfl⟩

end Parser

namespace EditM

variable {w w' : Workspace} {c : Command} {first last : Nat} {shown : Bytes}

theorem perform_list (hverb : c.verb = .list) (explicit : Bool) :
    perform c.withDefaults explicit = showRange c.withDefaults fun _ => visibleLine := by
  unfold perform
  rw [c.withDefaults_verb, hverb]

theorem exists_of_execute_list (h : w.editor.Indexed) (hverb : c.verb = .list)
    (hrun : (execute c).run w = .ok shown w') :
    w' = w ∧ ∃ first last, w.editor.resolveRange c.withDefaults = .ok (first, last) ∧
      shown = Bytes.joinLines
        ((LineEdit.between first last w.editor.lineList).map visibleLine) := by
  rw [run_execute_eq_ok_iff, perform_list hverb, showRange, run_ask] at hrun
  split at hrun
  · rename_i hshown
    cases hrun
    obtain ⟨⟨first, last⟩, hrange, hjoined⟩ := exists_of_bind_eq_ok hshown
    obtain ⟨k, rfl, -, hlast⟩ := Editor.exists_of_resolveRange hrange
    rw [h.lineCount_eq] at hlast
    exact ⟨rfl, k + 1, last, hrange, Editor.eq_joinLines_of_joinedLines h hlast hjoined⟩
  · cases hrun

theorem run_execute_list (h : w.editor.Indexed) (hfits : w.editor.bytes.length ≤ maxOffset)
    (hverb : c.verb = .list)
    (hrange : w.editor.resolveRange c.withDefaults = .ok (first, last)) :
    (execute c).run w = .ok (Bytes.joinLines
      ((LineEdit.between first last w.editor.lineList).map visibleLine)) w := by
  obtain ⟨k, rfl, -, hlast⟩ := Editor.exists_of_resolveRange hrange
  rw [h.lineCount_eq] at hlast
  have hrows := congrArg (List.map visibleLine)
    (List.zipIdx_map_fst (k + 1) (LineEdit.between (k + 1) last w.editor.lineList))
  rw [List.map_map] at hrows
  have hshow := run_showRange h hfits hrange hlast fun _ => visibleLine
  rw [run_execute_eq_ok_iff, perform_list hverb]
  exact hshow.trans (congrArg (fun rows => EStateM.Result.ok (Bytes.joinLines rows) w) hrows)

end EditM

namespace Session

variable {w : Workspace} {first last : Nat}

theorem run_list {shown : Bytes} (hfirst : first ≤ maxOffset) (hlast : last ≤ maxOffset)
    (hrun : (EditM.execute ⟨.list, some (.line first), some (.line last)⟩).run w = .ok shown w)
    (hne : shown ≠ []) :
    run (.ofString (rangeCommand first last 'l' ++ "\n")) w = (shown ++ [newline], w) := by
  have hshown : shown.isEmpty = false := List.isEmpty_eq_false_iff.mpr hne
  rw [run_of_items (items_rangeCommand hfirst hlast Parser.isBare_list rfl) rfl hrun, shownResult,
    hshown]
  rfl

/-- A line made visible is printable, ends in a dollar sign and is read back, so no two lines
look alike.  Therefore whatever is shown for a listing reads back as the lines of its range, in
a session with one more newline behind it; and all ranges of lines are shown. -/
theorem listing_determines_lines :
    (∀ line, (∀ b ∈ visibleLine line, Visible.IsPrintable b) ∧
      (visibleLine line).getLast? = some Visible.endMark ∧
      Visible.readLine? (visibleLine line) = some line) ∧
    Function.Injective visibleLine ∧
    ∀ w : Workspace, w.Reachable →
      (∀ c shown w', c.verb = .list → (EditM.execute c).run w = .ok shown w' →
        w' = w ∧ ∃ first last, w.editor.resolveRange c.withDefaults = .ok (first, last) ∧
          Visible.readLines? shown = some (LineEdit.between first last w.editor.lineList)) ∧
      (w.editor.bytes.length ≤ maxOffset →
        (∀ c first last, c.verb = .list →
          w.editor.resolveRange c.withDefaults = .ok (first, last) →
          ∃ shown, (EditM.execute c).run w = .ok shown w) ∧
        ∀ first last, 0 < first → first ≤ last → last ≤ w.editor.lineList.length →
          (LineEdit.between first last w.editor.lineList).length = last + 1 - first ∧
          ∃ shown,
            (EditM.execute ⟨.list, some (.line first), some (.line last)⟩).run w = .ok shown w ∧
            run (.ofString (rangeCommand first last 'l' ++ "\n")) w = (shown ++ [newline], w) ∧
            Visible.readLines? (shown ++ [newline]) =
              some (LineEdit.between first last w.editor.lineList)) := by
  refine ⟨fun line => ⟨fun b => Visible.isPrintable_of_mem_visibleLine,
    Visible.getLast?_visibleLine line, Visible.readLine?_visibleLine line⟩,
    Visible.visibleLine_injective, fun w h => ⟨?_, fun hfits => ⟨?_, ?_⟩⟩⟩
  · intro c shown w' hverb hrun
    obtain ⟨rfl, first, last, hrange, rfl⟩ := EditM.exists_of_execute_list h.indexed hverb hrun
    exact ⟨rfl, first, last, hrange, (Visible.readLines?_visibleLines _).1⟩
  · intro c first last hverb hrange
    exact ⟨_, EditM.run_execute_list h.indexed hfits hverb hrange⟩
  · intro first last hpos hle hlast
    have hlength := LineEdit.length_between hpos hlast
    have hne : LineEdit.between first last w.editor.lineList ≠ [] := by
      apply List.ne_nil_of_length_pos
      omega
    have hlisting : Bytes.joinLines (_ : List Bytes) ++ [newline] = ofLines _ :=
      joinLines_append_newline (mt (List.map_eq_nil_iff (f := visibleLine)).mp hne)
    have hword := Nat.le_trans (length_splitLines_le w.editor.bytes) hfits
    have hlast' : last ≤ maxOffset := Nat.le_trans hlast hword
    have hrun := EditM.run_execute_list (c := ⟨.list, some (.line first), some (.line last)⟩)
      h.indexed hfits rfl (EditM.resolveRange_lines h.indexed hfits hpos hle hlast .list)
    refine ⟨hlength, _, hrun, run_list (Nat.le_trans hle hlast') hlast' hrun ?_, ?_⟩
    · intro hnil
      have hread := (Visible.readLines?_visibleLines
        (LineEdit.between first last w.editor.lineList)).1
      rw [hnil] at hread
      exact hne (Option.some.inj hread).symm
    · rw [hlisting]
      exact (Visible.readLines?_visibleLines _).2

theorem listing_determines_lines_blank :
    (run (.ofString (rangeCommand 1 2 'l' ++ "\n")) ⟨.ofText "a\t\\\n\n$", .empty "/"⟩).1 =
        .ofString "a\\t\\\\$\n$\n" ∧
      Visible.readLines? (.ofString "a\\t\\\\$\n$\n") = some [[97, 9, 92], []] ∧
      Visible.readLines? (.ofString "a\\t\\\\$\n$") = some [[97, 9, 92], []] := by
  have hreachable : Workspace.Reachable ⟨.ofText "a\t\\\n\n$", .empty "/"⟩ := .ofText _ _
  have hresult : (EditM.execute ⟨.list, some (.line 1), some (.line 2)⟩).run
      ⟨.ofText "a\t\\\n\n$", .empty "/"⟩ =
      .ok (.ofString "a\\t\\\\$\n$") ⟨.ofText "a\t\\\n\n$", .empty "/"⟩ := rfl
  obtain ⟨-, -, hlists⟩ := listing_determines_lines
  obtain ⟨hshown, hall⟩ := hlists _ hreachable
  obtain ⟨-, first, last, hrange, hread⟩ := hshown _ _ _ rfl hresult
  obtain ⟨-, shown, hrun, hsession, hlisting⟩ :=
    (hall (by decide)).2 1 2 (by decide) (by decide) (by decide)
  cases hresult.symm.trans hrun
  cases (show Except.ok (1, 2) = Except.ok (first, last) from hrange)
  exact ⟨congrArg Prod.fst hsession, hlisting, hread⟩

end Session

end Redline

import Redline.Diff.Label
import Redline.Diff.Normal
import Redline.Proofs.Numerals
import Redline.Proofs.LineText
import Redline.Proofs.TextBytes
/-!
# The lines of a report

A report is its rows with newlines between them.  Rows that hold no newline are its lines,
unless the last one is empty; a label has none if its file name has none.
-/

namespace Redline

/-! ## Rows as lines -/

/-- An empty row at the end would be lost, as nothing stands behind it. -/
theorem splitLines_joinLines {rows : List Bytes} (h : ∀ row ∈ rows, newline ∉ row)
    (hlast : rows.getLast? ≠ some []) : splitLines (Bytes.joinLines rows) = rows := by
  induction rows with
  | nil => rfl
  | cons row rest ih =>
    have hrow := h row List.mem_cons_self
    cases rest with
    | nil =>
      have hne : row ≠ [] := fun hnil => hlast (congrArg some hnil)
      rw [Bytes.joinLines_singleton, splitLines_of_notMem hrow hne]
    | cons next rest =>
      have hrest := ih (fun r hr => h r (List.mem_cons_of_mem _ hr))
        (by rwa [List.getLast?_cons_cons] at hlast)
      rw [Bytes.joinLines_cons_cons, splitLines_append_newline row _ hrow, hrest]

/-! ## Text without a newline -/

theorem newline_notMem_utf8EncodeChar {c : Char} (h : c ≠ '\n') :
    newline ∉ String.utf8EncodeChar c := by
  have hvalue : c.val.toNat ≠ 10 := by
    intro heq
    exact h (Char.ext (UInt32.toNat_inj.mp heq))
  have hbyte : ∀ n, n % 256 ≠ 10 → newline ≠ UInt8.ofNat n := by
    intro n hn heq
    have htoNat := congrArg UInt8.toNat heq
    rw [UInt8.toNat_ofNat'] at htoNat
    exact hn htoNat.symm
  unfold String.utf8EncodeChar
  dsimp only
  split
  · rw [List.mem_singleton]
    exact hbyte _ (by omega)
  · split
    · simp only [List.mem_cons, List.not_mem_nil, or_false, not_or]
      exact ⟨hbyte _ (by omega), hbyte _ (by omega)⟩
    · split
      · simp only [List.mem_cons, List.not_mem_nil, or_false, not_or]
        exact ⟨hbyte _ (by omega), hbyte _ (by omega), hbyte _ (by omega)⟩
      · simp only [List.mem_cons, List.not_mem_nil, or_false, not_or]
        exact ⟨hbyte _ (by omega), hbyte _ (by omega), hbyte _ (by omega), hbyte _ (by omega)⟩

theorem newline_notMem_ofString {s : String} (h : '\n' ∉ s.toList) :
    newline ∉ Bytes.ofString s := by
  intro hmem
  obtain ⟨c, hc, hmem⟩ := List.mem_flatMap.mp hmem
  exact newline_notMem_utf8EncodeChar (fun heq => h (heq ▸ hc)) hmem

theorem newline_notMem_toString (n : Nat) : '\n' ∉ (toString n).toList := fun h =>
  absurd (Text.isDigit_of_mem_toString h) (by decide)

theorem Row.newline_notMem_countedText (s : Span) : '\n' ∉ (countedText s).toList := by
  unfold countedText
  split
  · simp only [String.toList_append, List.mem_append, not_or]
    exact ⟨newline_notMem_toString _, by decide⟩
  · split
    · exact newline_notMem_toString _
    · simp only [String.toList_append, List.mem_append, not_or]
      exact ⟨⟨newline_notMem_toString _, by decide⟩, newline_notMem_toString _⟩

theorem Row.newline_notMem_rangeText (s : Span) : '\n' ∉ (rangeText s).toList := by
  unfold rangeText
  split
  · exact newline_notMem_toString _
  · simp only [String.toList_append, List.mem_append, not_or]
    exact ⟨⟨newline_notMem_toString _, by decide⟩, newline_notMem_toString _⟩

theorem Row.newline_notMem_sectionText (s : Span) : '\n' ∉ (sectionText s).toList := by
  unfold sectionText
  split
  · exact newline_notMem_toString _
  · exact newline_notMem_rangeText s

theorem Row.line_ofString {text : String} (hne : text.toList ≠ [])
    (h : '\n' ∉ text.toList) : newline ∉ ofString text ∧ ofString text ≠ [] := by
  refine ⟨newline_notMem_ofString h, fun hnil => hne ?_⟩
  rw [Bytes.ofString_eq_nil_iff.mp hnil]
  rfl

theorem Normal.line_head (c : Change) :
    newline ∉ Row.ofString (head c) ∧ Row.ofString (head c) ≠ [] := by
  have hjoined : ∀ {left middle right : String}, middle.toList ≠ [] → '\n' ∉ left.toList →
      '\n' ∉ middle.toList → '\n' ∉ right.toList →
      newline ∉ Row.ofString (left ++ middle ++ right) ∧
        Row.ofString (left ++ middle ++ right) ≠ [] := by
    intro left middle right hne hleft hmiddle hright
    apply Row.line_ofString
    · rw [String.toList_append, String.toList_append]
      exact List.append_ne_nil_of_left_ne_nil (List.append_ne_nil_of_right_ne_nil _ hne) _
    · simp only [String.toList_append, List.mem_append, not_or]
      exact ⟨⟨hleft, hmiddle⟩, hright⟩
  have hplace := newline_notMem_toString
  have hrange := Row.newline_notMem_rangeText
  unfold head
  split
  · exact hjoined (by decide) (hplace _) (by decide) (hrange _)
  · split
    · exact hjoined (by decide) (hrange _) (by decide) (hplace _)
    · exact hjoined (by decide) (hrange _) (by decide) (hrange _)

namespace Calendar

theorem newline_notMem_padded {fill : Char} (h : fill ≠ '\n') (width n : Nat) :
    '\n' ∉ (padded fill width n).toList := by
  rw [padded, String.toList_ofList, List.leftpad, List.mem_append, not_or]
  exact ⟨fun hmem => h (List.eq_of_mem_replicate hmem).symm, newline_notMem_toString n⟩

theorem newline_notMem_yearText (year : Int) : '\n' ∉ (yearText year).toList := by
  have hdigits := newline_notMem_padded (show '0' ≠ '\n' by decide) 4 year.natAbs
  unfold yearText
  dsimp only
  split
  · rw [String.toList_append, List.mem_append, not_or]
    exact ⟨by decide, hdigits⟩
  · split
    · rw [String.toList_append, List.mem_append, not_or]
      exact ⟨by decide, hdigits⟩
    · exact hdigits

theorem newline_notMem_offsetText (minutes : Int) : '\n' ∉ (offsetText minutes).toList := by
  unfold offsetText
  simp only [String.toList_append, List.mem_append, not_or]
  refine ⟨⟨?_, newline_notMem_padded (by decide) _ _⟩, newline_notMem_padded (by decide) _ _⟩
  split <;> decide

theorem Reading.newline_notMem_clockText (r : Reading) : '\n' ∉ r.clockText.toList := by
  have hpadded := newline_notMem_padded (show '0' ≠ '\n' by decide)
  unfold clockText
  simp only [String.toList_append, List.mem_append, not_or]
  exact ⟨⟨⟨⟨hpadded _ _, by decide⟩, hpadded _ _⟩, by decide⟩, hpadded _ _⟩

theorem Reading.newline_notMem_numericText (r : Reading) : '\n' ∉ r.numericText.toList := by
  have hpadded := newline_notMem_padded (show '0' ≠ '\n' by decide)
  unfold numericText
  simp only [String.toList_append, List.mem_append, not_or]
  refine ⟨⟨⟨⟨⟨⟨⟨⟨⟨⟨newline_notMem_yearText _, ?_⟩, hpadded _ _⟩, ?_⟩, hpadded _ _⟩, ?_⟩,
    r.newline_notMem_clockText⟩, ?_⟩, hpadded _ _⟩, ?_⟩, newline_notMem_offsetText _⟩
  all_goals decide

end Calendar

theorem Label.newline_notMem_numericText {l : Label} (h : '\n' ∉ l.name.toList) :
    '\n' ∉ l.numericText.toList := by
  unfold numericText
  simp only [String.toList_append, List.mem_append, not_or]
  exact ⟨⟨h, by decide⟩, l.reading.newline_notMem_numericText⟩

end Redline

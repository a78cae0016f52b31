import Mathlib
import Redline.Proofs.LineText
/-!
# The boundaries of lines

The line index of a text says where its lines are: the ranges hold the contents of the lines,
one newline stands between two of them, and every offset is the length of the lines before it.
The lines are those that the text falls into at its newlines.
-/

namespace Redline

/-! ## Cutting at newlines -/

def Bytes.withoutFinalNewline (bytes : Bytes) : Bytes :=
  if bytes.getLast? = some newline then bytes.dropLast else bytes

theorem splitLines_ne_nil {bytes : Bytes} (h : bytes ≠ []) : splitLines bytes ≠ [] :=
  mt splitLines_eq_nil h

theorem joinLines_splitLines (bytes : Bytes) :
    Bytes.joinLines (splitLines bytes) = bytes.withoutFinalNewline := by
  by_cases hempty : bytes = []
  · rw [hempty]
    rfl
  have hjoined := joinLines_append_newline (splitLines_ne_nil hempty)
  rw [ofLines_splitLines] at hjoined
  unfold Bytes.withoutFinalNewline
  cases hlacks : bytes.lacksFinalNewline with
  | true =>
    rw [terminated_of_lacks hlacks] at hjoined
    rw [if_neg (Bytes.lacksFinalNewline_iff.mp hlacks).2]
    exact List.append_cancel_right hjoined
  | false =>
    have hlast : bytes.getLast? = some newline := Decidable.not_not.mp fun hlast =>
      absurd (Bytes.lacksFinalNewline_iff.mpr ⟨hempty, hlast⟩) (by rw [hlacks]; decide)
    have hfront := congrArg List.dropLast hjoined
    rw [List.dropLast_concat, terminated_of_not_lacks hlacks] at hfront
    rw [if_pos hlast, hfront]

/-- The lines of a text are what its newlines separate, the last newline left out. -/
theorem splitLines_eq_splitOn (bytes : Bytes) :
    splitLines bytes =
      if bytes = [] then [] else bytes.withoutFinalNewline.splitOn newline := by
  split
  · rename_i hempty
    rw [hempty, splitLines_nil]
  · rename_i hempty
    rw [← joinLines_splitLines, Bytes.joinLines,
      List.splitOn_intercalate newline
        (fun _ hline => newline_notMem_of_mem_splitLines hline) (splitLines_ne_nil hempty)]

/-! ## Slices that meet -/

namespace Span

theorem slice_succ {s : Span} (h : s.start ≤ s.stop) (xs : List α) :
    slice ⟨s.start, s.stop + 1⟩ xs = s.slice xs ++ xs[s.stop]?.toList := by
  have hlength : s.stop + 1 - s.start = s.stop - s.start + 1 := by omega
  have hstop : s.start + (s.stop - s.start) = s.stop := by omega
  rw [slice, slice, length, length, hlength, List.take_add_one, List.getElem?_drop, hstop]

theorem take_append_slice {a b : Nat} (h : a ≤ b) (xs : List α) :
    xs.take a ++ slice ⟨a, b⟩ xs = xs.take b := by
  rw [slice, length, ← List.take_add, Nat.add_sub_cancel' h]

end Span

namespace LineIndex

variable {bytes : Bytes} {n : Nat} {s : Span}

/-! ## The range of a line -/

def contents (index : LineIndex) (bytes : Bytes) : List Bytes :=
  index.lines.map (·.slice bytes)

def wholeLine (bytes : Bytes) (s : Span) : Bytes :=
  s.slice bytes ++ if bytes[s.stop]? = some newline then [newline] else []

theorem contents_ofBytes (bytes : Bytes) : (ofBytes bytes).contents bytes = splitLines bytes := by
  refine List.ext_getElem? fun k => ?_
  have hrange : (ofBytes bytes).lines[k]? = (ofBytes bytes).lineRange? (k + 1) := rfl
  rw [contents, List.getElem?_map, hrange, lineRange?_ofBytes]
  cases hline : (splitLines bytes)[k]? with
  | none => rfl
  | some line =>
    simp only [Option.map_some, Span.slice, Span.length, Nat.add_sub_cancel_left]
    rw [slice_lineRange hline]

theorem lineStart_of_lineRange? {index : LineIndex} (h : index.lineRange? n = some s) :
    index.lineStart n = s.start := by
  cases n with
  | zero => cases h
  | succ k =>
    rw [lineRange?] at h
    rw [lineStart, h]

structure HasLine (bytes : Bytes) (n : Nat) (s : Span) : Prop where
  start_le_stop : s.start ≤ s.stop
  stop_le_length : s.stop ≤ bytes.length
  stop_lt_length : n < (ofBytes bytes).lineCount → s.stop < bytes.length
  lineEnd_eq : (ofBytes bytes).lineEnd n = min (s.stop + 1) bytes.length
  getElem?_stop : s.stop < bytes.length → bytes[s.stop]? = some newline

private theorem getElem?_ofLines {lines : List Bytes} {line : Bytes} {k : Nat}
    (h : lines[k]? = some line) :
    (ofLines lines)[(ofLines (lines.take k)).length + line.length]? = some newline := by
  obtain ⟨hk, hline⟩ := List.getElem?_eq_some_iff.mp h
  have hlines : ofLines lines =
      (ofLines (lines.take k) ++ line) ++ newline :: ofLines (lines.drop (k + 1)) := by
    rw [List.append_assoc, ← ofLines_cons, ← hline, ← List.drop_eq_getElem_cons hk,
      ← ofLines_append, List.take_append_drop]
  rw [hlines, ← List.length_append, List.getElem?_append_right (Nat.le_refl _), Nat.sub_self]
  rfl

theorem hasLine_of_lineRange? (h : (ofBytes bytes).lineRange? n = some s) :
    HasLine bytes n s := by
  cases n with
  | zero => cases h
  | succ k =>
    rw [lineRange?_ofBytes] at h
    obtain ⟨line, hline, rfl⟩ := Option.map_eq_some_iff.mp h
    obtain ⟨hk, -⟩ := List.getElem?_eq_some_iff.mp hline
    have hnext : (ofLines ((splitLines bytes).take (k + 1))).length =
        (ofLines ((splitLines bytes).take k)).length + line.length + 1 := by
      rw [List.take_add_one, hline, Option.toList_some, ofLines_append, ofLines_cons, ofLines_nil,
        List.length_append, List.length_append, List.length_singleton, Nat.add_assoc]
    obtain ⟨range, hrange, -, hstop⟩ := exists_lineRange? hk
    rw [lineRange?_ofBytes, hline, Option.map_some, Option.some.injEq] at hrange
    rw [← hrange] at hstop
    refine ⟨Nat.le_add_right _ _, hstop, fun hcount => ?_, ?_, fun hlt => ?_⟩
    · -- the next line takes at least its newline, be it missing or not
      have hrest := length_ofLines_take (splitLines bytes) (k + 1)
      have hlength := length_ofLines_splitLines bytes
      rw [lineCount_ofBytes] at hcount
      dsimp only
      split at hlength <;> omega
    · rw [lineEnd, lineStart_ofBytes, hnext]
    · have hnewline := getElem?_ofLines hline
      rw [ofLines_splitLines] at hnewline
      unfold Bytes.terminated at hnewline
      split at hnewline
      · rwa [List.getElem?_append_left hlt] at hnewline
      · exact hnewline

theorem lineRange?_isSome (index : LineIndex) (n : Nat) :
    (index.lineRange? n).isSome ↔ 1 ≤ n ∧ n ≤ index.lineCount := by
  cases n with
  | zero => simp [lineRange?]
  | succ k => simp [lineRange?, lineCount]

theorem HasLine.next {t : Span} (h : HasLine bytes n s)
    (ht : (ofBytes bytes).lineRange? (n + 1) = some t) :
    t.start = s.stop + 1 ∧ bytes[s.stop]? = some newline := by
  have hcount : n < (ofBytes bytes).lineCount :=
    ((lineRange?_isSome _ _).mp (Option.isSome_of_mem ht)).2
  have hlt := h.stop_lt_length hcount
  refine ⟨?_, h.getElem?_stop hlt⟩
  rw [← lineStart_of_lineRange? ht]
  exact h.lineEnd_eq.trans (Nat.min_eq_left hlt)

theorem HasLine.slice_eq (h : HasLine bytes n s)
    (hs : (ofBytes bytes).lineRange? n = some s) :
    Span.slice ⟨(ofBytes bytes).lineStart n, (ofBytes bytes).lineEnd n⟩ bytes =
      wholeLine bytes s := by
  rw [lineStart_of_lineRange? hs, h.lineEnd_eq, wholeLine]
  by_cases hlt : s.stop < bytes.length
  · rw [Nat.min_eq_left hlt, Span.slice_succ h.start_le_stop, h.getElem?_stop hlt, if_pos rfl]
    rfl
  · have hstop : s.stop = bytes.length := Nat.le_antisymm h.stop_le_length (Nat.le_of_not_lt hlt)
    have hnone : bytes[s.stop]? = none := List.getElem?_eq_none (Nat.le_of_not_lt hlt)
    rw [hnone, if_neg (by simp), List.append_nil, ← hstop, Nat.min_eq_right (Nat.le_succ _)]

/-! ## Offsets -/

theorem take_lineStart_eq (bytes : Bytes) (k : Nat) :
    bytes.take ((ofBytes bytes).lineStart (k + 1)) =
      ((ofBytes bytes).lines.take k).flatMap (wholeLine bytes) := by
  induction k with
  | zero =>
    rw [lineStart_ofBytes]
    simp
  | succ k ih =>
    have hrange : (ofBytes bytes).lines[k]? = (ofBytes bytes).lineRange? (k + 1) := rfl
    rw [List.take_add_one, List.flatMap_append, ← ih, hrange]
    cases hs : (ofBytes bytes).lineRange? (k + 1) with
    | none =>
      -- no line is left, so that both start where the document ends
      have hcount : (ofBytes bytes).lines.length ≤ k := List.getElem?_eq_none_iff.mp hs
      have hnext : (ofBytes bytes).lines[k + 1]? = none :=
        List.getElem?_eq_none (Nat.le_succ_of_le hcount)
      rw [Option.toList_none, List.flatMap_nil, List.append_nil, lineStart, lineStart, hnext,
        hrange, hs]
    | some s =>
      have hline := (hasLine_of_lineRange? hs).slice_eq hs
      rw [Option.toList_some, List.flatMap_singleton, ← hline, Span.take_append_slice]
      · rfl
      · exact lineStart_mono bytes (Nat.le_succ k)

theorem lineStart_eq_sum (bytes : Bytes) (n : Nat) :
    (ofBytes bytes).lineStart n =
      (((ofBytes bytes).lines.take (min (n - 1) (ofBytes bytes).lineCount)).map fun s =>
        (wholeLine bytes s).length).sum := by
  cases n with
  | zero => simp [lineStart]
  | succ k =>
    have hfront := congrArg List.length (take_lineStart_eq bytes k)
    have hlines : (ofBytes bytes).lines.take (min (k + 1 - 1) (ofBytes bytes).lineCount) =
        (ofBytes bytes).lines.take k :=
      List.take_eq_take_iff.mpr (by rw [lineCount, Nat.add_sub_cancel, Nat.min_assoc, Nat.min_self])
    rw [List.length_take, Nat.min_eq_left (lineStart_le bytes _), List.length_flatMap] at hfront
    rw [hlines, hfront]

theorem lineStart_le_of_le (bytes : Bytes) {m : Nat} (h : m ≤ n) :
    (ofBytes bytes).lineStart m ≤ (ofBytes bytes).lineStart n := by
  cases m with
  | zero => exact Nat.zero_le _
  | succ j =>
    cases n with
    | zero => exact absurd h (Nat.not_succ_le_zero j)
    | succ k => exact lineStart_mono bytes (Nat.le_of_succ_le_succ h)

/-! ## The whole index -/

/-- A text with the lines that an index gives it.  A text without lines has no final newline
that could be missing. -/
structure Marks (index : LineIndex) (bytes : Bytes) : Prop where
  newline_notMem : ∀ s ∈ index.lines, newline ∉ s.slice bytes
  /-- One byte stands between two ranges, and it is a newline. -/
  next : ∀ n s t, index.lineRange? n = some s → index.lineRange? (n + 1) = some t →
    t.start = s.stop + 1 ∧ bytes[s.stop]? = some newline
  /-- The lines are joined by newlines, and the last one has one, too, unless it is missing. -/
  joined : (if index.missingFinalNewline then Bytes.joinLines (index.contents bytes)
    else ofLines (index.contents bytes)) = bytes
  missing_iff : index.missingFinalNewline = true ↔ bytes ≠ [] ∧ bytes.getLast? ≠ some newline
  lineStart_eq : ∀ n, index.lineStart n =
    ((index.lines.take (min (n - 1) index.lineCount)).map fun s =>
      (wholeLine bytes s).length).sum
  lineStart_mono : ∀ m n, m ≤ n → index.lineStart m ≤ index.lineStart n
  lineStart_le : ∀ n, index.lineStart n ≤ bytes.length
  isSome_iff : ∀ n, (index.lineRange? n).isSome ↔ 1 ≤ n ∧ n ≤ index.lineCount
  /-- From the start of a line to its end stands the line with its newline. -/
  slice_eq : ∀ n s, index.lineRange? n = some s →
    Span.slice ⟨index.lineStart n, index.lineEnd n⟩ bytes = wholeLine bytes s

theorem map_lineRange?_range' (index : LineIndex) :
    (List.range' 1 index.lineCount).map index.lineRange? = index.lines.map some := by
  refine List.ext_getElem (by rw [List.length_map, List.length_range', List.length_map]; rfl) ?_
  intro k hrange hlines
  rw [List.length_map] at hlines
  rw [List.getElem_map, List.getElem_map, List.getElem_range', Nat.one_mul, Nat.add_comm]
  exact List.getElem?_eq_getElem hlines

theorem joined_ofBytes (bytes : Bytes) :
    (if (ofBytes bytes).missingFinalNewline then
        Bytes.joinLines ((ofBytes bytes).contents bytes)
      else ofLines ((ofBytes bytes).contents bytes)) = bytes := by
  rw [missingFinalNewline_ofBytes, contents_ofBytes, joinLines_splitLines, ofLines_splitLines]
  split
  · rename_i hlacks
    exact if_neg (Bytes.lacksFinalNewline_iff.mp hlacks).2
  · rename_i hlacks
    exact terminated_of_not_lacks (eq_false_of_ne_true hlacks)

/-- The index of a text marks its lines, and these are the lines that the comparison of texts
works on: those between the newlines of the text, its final newline left out. -/
theorem marks_ofBytes (bytes : Bytes) :
    let index := ofBytes bytes
    index.Marks bytes ∧
      ((List.range' 1 index.lineCount).map fun n => (index.lineRange? n).map (·.slice bytes)) =
        (splitLines bytes).map some ∧
      splitLines bytes =
        if bytes = [] then [] else bytes.withoutFinalNewline.splitOn newline := by
  intro index
  refine ⟨?_, ?_, splitLines_eq_splitOn bytes⟩
  · constructor
    case newline_notMem =>
      intro s hs
      have hline : s.slice bytes ∈ splitLines bytes := by
        rw [← contents_ofBytes]
        exact List.mem_map_of_mem hs
      exact newline_notMem_of_mem_splitLines hline
    case next =>
      intro n s t hs ht
      exact (hasLine_of_lineRange? hs).next ht
    case joined => exact joined_ofBytes bytes
    case missing_iff => rw [missingFinalNewline_ofBytes, Bytes.lacksFinalNewline_iff]
    case lineStart_eq => exact lineStart_eq_sum bytes
    case lineStart_mono => exact fun m n h => lineStart_le_of_le bytes h
    case lineStart_le => exact lineStart_le bytes
    case isSome_iff => exact lineRange?_isSome _
    case slice_eq =>
      intro n s hs
      exact (hasLine_of_lineRange? hs).slice_eq hs
  · have hranges := congrArg (List.map (Option.map (·.slice bytes)))
      (map_lineRange?_range' (ofBytes bytes))
    rw [List.map_map, List.map_map] at hranges
    rw [← contents_ofBytes, contents, List.map_map]
    exact hranges

example : (ofBytes [97, 10, 10, 98]).lines = [⟨0, 1⟩, ⟨2, 2⟩, ⟨3, 4⟩] := rfl

end LineIndex

end Redline

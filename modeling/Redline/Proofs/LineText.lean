import Redline.Document.LineIndex
import Redline.Lines
/-!
# Bytes as lines

Terminated lines, one after the other, are the text of those lines; the text of
a document is that of its lines, but for the newline that its end may lack.  The
offsets of the line index cut a document between lines.
-/

namespace Redline

def ofLines (lines : List Bytes) : Bytes :=
  lines.flatMap (· ++ [newline])

@[simp] theorem ofLines_nil : ofLines [] = [] := rfl

@[simp] theorem ofLines_cons (line : Bytes) (lines : List Bytes) :
    ofLines (line :: lines) = line ++ newline :: ofLines lines := by
  simp [ofLines]

@[simp] theorem ofLines_append (a b : List Bytes) : ofLines (a ++ b) = ofLines a ++ ofLines b := by
  simp [ofLines]

theorem length_ofLines_le_append (a b : List Bytes) :
    (ofLines a).length + b.length ≤ (ofLines (a ++ b)).length := by
  induction b generalizing a with
  | nil => simp
  | cons line b ih =>
    have hshift := ih (a ++ [line])
    rw [List.append_assoc, List.singleton_append] at hshift
    simp only [ofLines_append, ofLines_cons, ofLines_nil, List.length_append, List.length_cons,
      List.length_nil] at hshift ⊢
    omega

theorem length_ofLines_take (lines : List Bytes) (k : Nat) :
    (ofLines (lines.take k)).length + (lines.length - k) ≤ (ofLines lines).length := by
  have h := length_ofLines_le_append (lines.take k) (lines.drop k)
  rwa [List.take_append_drop, List.length_drop] at h

/-! ## Terminated text -/

theorem lacksFinalNewline_append (a : Bytes) {b : Bytes} (h : b ≠ []) :
    (a ++ b).lacksFinalNewline = b.lacksFinalNewline := by
  unfold Bytes.lacksFinalNewline
  rw [List.getLast?_append, Option.or_of_isSome (by simpa using h)]

theorem terminated_append (a : Bytes) {b : Bytes} (h : b ≠ []) :
    (a ++ b : Bytes).terminated = a ++ b.terminated := by
  unfold Bytes.terminated
  rw [lacksFinalNewline_append a h]
  split <;> simp

theorem lacksFinalNewline_ofLines (lines : List Bytes) :
    (ofLines lines).lacksFinalNewline = false := by
  rcases List.eq_nil_or_concat lines with rfl | ⟨front, line, rfl⟩
  · rfl
  · rw [List.concat_eq_append, ofLines_append, ofLines_cons, ofLines_nil, ← List.append_assoc]
    exact Bytes.lacksFinalNewline_append_newline _

theorem Bytes.lacksFinalNewline_iff {bytes : Bytes} :
    bytes.lacksFinalNewline = true ↔ bytes ≠ [] ∧ bytes.getLast? ≠ some newline := by
  unfold lacksFinalNewline
  rcases List.eq_nil_or_concat bytes with rfl | ⟨front, b, rfl⟩
  · simp
  · simp

theorem terminated_of_not_lacks {bytes : Bytes} (h : bytes.lacksFinalNewline = false) :
    bytes.terminated = bytes := by
  simp [Bytes.terminated, h]

theorem terminated_of_lacks {bytes : Bytes} (h : bytes.lacksFinalNewline = true) :
    bytes.terminated = bytes ++ [newline] := by
  simp [Bytes.terminated, h]

theorem terminated_ofLines (lines : List Bytes) :
    Bytes.terminated (ofLines lines) = ofLines lines :=
  terminated_of_not_lacks (lacksFinalNewline_ofLines lines)

/-! ## Joining -/

theorem Bytes.joinLines_singleton (line : Bytes) : joinLines [line] = line :=
  List.intercalate_singleton

theorem Bytes.joinLines_cons_cons (line next : Bytes) (rest : List Bytes) :
    joinLines (line :: next :: rest) = line ++ newline :: joinLines (next :: rest) := by
  simp [joinLines, List.intercalate]

theorem joinLines_append_newline {lines : List Bytes} (h : lines ≠ []) :
    Bytes.joinLines lines ++ [newline] = ofLines lines := by
  induction lines with
  | nil => exact absurd rfl h
  | cons line rest ih =>
    cases rest with
    | nil => rw [Bytes.joinLines_singleton, ofLines_cons, ofLines_nil]
    | cons next rest =>
      rw [Bytes.joinLines_cons_cons, ofLines_cons, ← ih (List.cons_ne_nil _ _), List.append_assoc,
        List.cons_append]

/-! ## Splitting -/

theorem splitLines_eq_nil {bytes : Bytes} (h : splitLines bytes = []) : bytes = [] := by
  cases bytes with
  | nil => rfl
  | cons b rest =>
    rw [splitLines] at h
    split at h
    · exact absurd h (List.cons_ne_nil _ _)
    · split at h <;> exact absurd h (List.cons_ne_nil _ _)

theorem newline_notMem_of_mem_splitLines {bytes line : Bytes} (h : line ∈ splitLines bytes) :
    newline ∉ line := by
  induction bytes generalizing line with
  | nil => simp at h
  | cons b rest ih =>
    by_cases hb : b = newline
    · rw [hb, splitLines_newline, List.mem_cons] at h
      rcases h with rfl | h
      · exact List.not_mem_nil
      · exact ih h
    · rw [splitLines, if_neg hb] at h
      cases hrest : splitLines rest with
      | nil =>
        rw [hrest, List.mem_singleton] at h
        rw [h, List.mem_singleton]
        exact Ne.symm hb
      | cons first lines =>
        rw [hrest] at h ih
        rcases List.mem_cons.mp h with rfl | h
        · rw [List.mem_cons, not_or]
          exact ⟨Ne.symm hb, ih List.mem_cons_self⟩
        · exact ih (List.mem_cons_of_mem _ h)

theorem newline_notMem_of_mem_take (bytes : Bytes) (k : Nat) :
    ∀ line ∈ (splitLines bytes).take k, newline ∉ line := fun _ hline =>
  newline_notMem_of_mem_splitLines (List.mem_of_mem_take hline)

theorem splitLines_ofLines_append {lines : List Bytes} (h : ∀ line ∈ lines, newline ∉ line)
    (rest : Bytes) : splitLines (ofLines lines ++ rest) = lines ++ splitLines rest := by
  induction lines with
  | nil => rfl
  | cons line lines ih =>
    rw [ofLines_cons, List.append_assoc, List.cons_append,
      splitLines_append_newline line _ (h line List.mem_cons_self),
      ih fun l hl => h l (List.mem_cons_of_mem _ hl), List.cons_append]

theorem splitLines_ofLines {lines : List Bytes} (h : ∀ line ∈ lines, newline ∉ line) :
    splitLines (ofLines lines) = lines := by
  have h := splitLines_ofLines_append h []
  rwa [List.append_nil, splitLines_nil, List.append_nil] at h

theorem ofLines_splitLines (bytes : Bytes) : ofLines (splitLines bytes) = bytes.terminated := by
  induction bytes with
  | nil => rfl
  | cons b rest ih =>
    by_cases hb : b = newline
    · rw [hb, splitLines_newline, ofLines_cons, ih]
      cases rest with
      | nil => rfl
      | cons c rest => exact (terminated_append [newline] (List.cons_ne_nil c rest)).symm
    · rw [splitLines, if_neg hb]
      cases hrest : splitLines rest with
      | nil =>
        rw [splitLines_eq_nil hrest]
        simp [Bytes.terminated, Bytes.lacksFinalNewline, hb]
      | cons first lines =>
        have hne : rest ≠ [] := by
          rintro rfl
          simp at hrest
        rw [hrest] at ih
        change _ = Bytes.terminated ([b] ++ rest)
        rw [terminated_append [b] hne, ← ih]
        simp

theorem splitLines_append_cons {front bytes line : Bytes} {lines : List Bytes}
    (hfront : newline ∉ front) (h : splitLines bytes = line :: lines) :
    splitLines (front ++ bytes) = (front ++ line) :: lines := by
  induction front with
  | nil => exact h
  | cons b front ih =>
    rw [List.mem_cons, not_or] at hfront
    rw [List.cons_append, splitLines, if_neg (Ne.symm hfront.1), ih hfront.2, List.cons_append]

theorem splitLines_of_notMem {front : Bytes} (h : newline ∉ front) (hne : front ≠ []) :
    splitLines front = [front] := by
  induction front with
  | nil => exact absurd rfl hne
  | cons b front ih =>
    rw [List.mem_cons, not_or] at h
    rw [splitLines, if_neg (Ne.symm h.1)]
    cases front with
    | nil => rfl
    | cons c front => rw [ih h.2 (List.cons_ne_nil c front)]

theorem splitLines_terminated (bytes : Bytes) : splitLines bytes.terminated = splitLines bytes := by
  rw [← ofLines_splitLines]
  exact splitLines_ofLines fun _ hline => newline_notMem_of_mem_splitLines hline

/-- Text that ends in a newline shares no line with what follows. -/
theorem splitLines_append {text : Bytes} (h : text.lacksFinalNewline = false) (rest : Bytes) :
    splitLines (text ++ rest) = splitLines text ++ splitLines rest := by
  have htext : ofLines (splitLines text) = text := by
    rw [ofLines_splitLines, terminated_of_not_lacks h]
  have hsplit := splitLines_ofLines_append
    (fun line hline => newline_notMem_of_mem_splitLines hline : ∀ l ∈ splitLines text, _) rest
  rwa [htext] at hsplit

theorem isPrefix_of_splitLines_eq_cons {bytes line : Bytes} {lines : List Bytes}
    (h : splitLines bytes = line :: lines) : line <+: bytes := by
  induction bytes generalizing line lines with
  | nil => cases h
  | cons b rest ih =>
    rw [splitLines] at h
    split at h
    · cases h
      exact List.nil_prefix
    · cases hrest : splitLines rest with
      | nil =>
        rw [hrest] at h
        cases h
        exact List.prefix_append [b] rest
      | cons first more =>
        rw [hrest] at h
        cases h
        exact List.cons_prefix_cons.mpr ⟨rfl, ih hrest⟩

theorem length_splitLines_le (bytes : Bytes) : (splitLines bytes).length ≤ bytes.length := by
  induction bytes with
  | nil => exact Nat.le_refl _
  | cons b rest ih =>
    rw [splitLines, List.length_cons]
    split
    · exact Nat.succ_le_succ ih
    · cases hrest : splitLines rest with
      | nil => exact Nat.succ_le_succ (Nat.zero_le _)
      | cons first more =>
        rw [hrest] at ih
        exact Nat.le_succ_of_le ih

theorem length_splitLines_le_append (front bytes : Bytes) :
    (splitLines bytes).length ≤ (splitLines (front ++ bytes)).length := by
  induction front with
  | nil => exact Nat.le_refl _
  | cons b front ih =>
    rw [List.cons_append, splitLines]
    split
    · exact Nat.le_succ_of_le ih
    · split
      · rename_i hnil
        rw [hnil] at ih
        exact Nat.le_succ_of_le ih
      · rename_i hcons
        rwa [hcons] at ih

theorem length_ofLines_splitLines (bytes : Bytes) :
    (ofLines (splitLines bytes)).length =
      bytes.length + if bytes.lacksFinalNewline then 1 else 0 := by
  rw [ofLines_splitLines]
  unfold Bytes.terminated
  split <;> simp

theorem countNewlines_ofLines {lines : List Bytes} (h : ∀ line ∈ lines, newline ∉ line) :
    Bytes.countNewlines (ofLines lines) = lines.length := by
  induction lines with
  | nil => rfl
  | cons line lines ih =>
    have hline : line.count newline = 0 := List.count_eq_zero.mpr (h line List.mem_cons_self)
    have ih := ih fun l hl => h l (List.mem_cons_of_mem _ hl)
    unfold Bytes.countNewlines at ih ⊢
    rw [ofLines_cons, List.count_append, List.count_cons_self, hline, ih, List.length_cons,
      Nat.zero_add]

theorem countNewlines_eq_length_splitLines {bytes : Bytes}
    (h : bytes.lacksFinalNewline = false) : bytes.countNewlines = (splitLines bytes).length := by
  rw [← countNewlines_ofLines fun line hline => newline_notMem_of_mem_splitLines hline,
    ofLines_splitLines, terminated_of_not_lacks h]

/-! ## The line index -/

namespace LineIndex

private def spansFrom (start : Nat) : List Bytes → List Span
  | [] => []
  | line :: lines =>
    ⟨start, start + line.length⟩ :: spansFrom (start + line.length + 1) lines

private theorem scan_eq_spansFrom {front : Bytes} (hfront : newline ∉ front) (start : Nat)
    (bytes : Bytes) :
    scan start (start + front.length) bytes = spansFrom start (splitLines (front ++ bytes)) := by
  induction bytes generalizing front start with
  | nil =>
    rw [List.append_nil, scan]
    cases front with
    | nil => simp [spansFrom]
    | cons b front =>
      rw [if_pos (by simp), splitLines_of_notMem hfront (List.cons_ne_nil b front)]
      simp [spansFrom]
  | cons b rest ih =>
    rw [scan]
    by_cases hb : b = newline
    · have hrest := ih (List.not_mem_nil : newline ∉ []) (start + front.length + 1)
      rw [List.length_nil, Nat.add_zero, List.nil_append] at hrest
      rw [if_pos hb, hb, splitLines_append_newline front rest hfront, spansFrom, hrest]
    · have hgrown : newline ∉ front ++ [b] := by
        rw [List.mem_append, List.mem_singleton, not_or]
        exact ⟨hfront, Ne.symm hb⟩
      have hrest := ih hgrown start
      rw [List.length_append, List.length_singleton, List.append_assoc,
        List.singleton_append, ← Nat.add_assoc] at hrest
      rw [if_neg hb, hrest]

private theorem lines_ofBytes (bytes : Bytes) :
    (ofBytes bytes).lines = spansFrom 0 (splitLines bytes) := by
  have h := scan_eq_spansFrom (List.not_mem_nil : newline ∉ []) 0 bytes
  rwa [List.length_nil, List.nil_append] at h

private theorem getElem?_spansFrom (start : Nat) (lines : List Bytes) (k : Nat) :
    (spansFrom start lines)[k]? = lines[k]?.map fun line =>
      ⟨start + (ofLines (lines.take k)).length,
        start + (ofLines (lines.take k)).length + line.length⟩ := by
  induction lines generalizing start k with
  | nil => simp [spansFrom]
  | cons line lines ih =>
    cases k with
    | zero => simp [spansFrom]
    | succ k =>
      have hshift (n : Nat) : start + line.length + 1 + n = start + (line.length + (n + 1)) := by
        omega
      rw [spansFrom, List.getElem?_cons_succ, ih, List.getElem?_cons_succ, List.take_succ_cons,
        ofLines_cons, List.length_append, List.length_cons]
      simp only [hshift]

private theorem length_spansFrom (start : Nat) (lines : List Bytes) :
    (spansFrom start lines).length = lines.length := by
  induction lines generalizing start with
  | nil => rfl
  | cons line lines ih => rw [spansFrom, List.length_cons, ih, List.length_cons]

theorem lineCount_ofBytes (bytes : Bytes) :
    (ofBytes bytes).lineCount = (splitLines bytes).length := by
  rw [lineCount, lines_ofBytes, length_spansFrom]

/-- The content of a line stands behind the lines before it. -/
theorem lineRange?_ofBytes (bytes : Bytes) (k : Nat) :
    (ofBytes bytes).lineRange? (k + 1) = (splitLines bytes)[k]?.map fun line =>
      ⟨(ofLines ((splitLines bytes).take k)).length,
        (ofLines ((splitLines bytes).take k)).length + line.length⟩ := by
  rw [lineRange?, lines_ofBytes, getElem?_spansFrom, Nat.zero_add]

/-- A line starts behind the lines before it, but never behind the end. -/
theorem lineStart_ofBytes (bytes : Bytes) (k : Nat) :
    (ofBytes bytes).lineStart (k + 1) =
      min (ofLines ((splitLines bytes).take k)).length bytes.length := by
  have hlength := length_ofLines_splitLines bytes
  rw [lineStart, lines_ofBytes, getElem?_spansFrom, Nat.zero_add]
  by_cases hk : k < (splitLines bytes).length
  · have htake := length_ofLines_take (splitLines bytes) k
    rw [List.getElem?_eq_getElem hk]
    simp only [Option.map_some]
    split at hlength <;> omega
  · rw [List.getElem?_eq_none (Nat.le_of_not_lt hk), List.take_of_length_le (Nat.le_of_not_lt hk)]
    simp only [Option.map_none, ofBytes]
    omega

theorem exists_lineRange? {bytes : Bytes} {k : Nat} (hk : k < (splitLines bytes).length) :
    ∃ range, (ofBytes bytes).lineRange? (k + 1) = some range ∧ range.start ≤ range.stop ∧
      range.stop ≤ bytes.length := by
  refine ⟨_, by rw [lineRange?_ofBytes, List.getElem?_eq_getElem hk, Option.map_some],
    Nat.le_add_right _ _, ?_⟩
  have hlines := length_ofLines_take (splitLines bytes) (k + 1)
  have hlength := length_ofLines_splitLines bytes
  rw [List.take_add_one, List.getElem?_eq_getElem hk, Option.toList_some, ofLines_append,
    ofLines_cons, ofLines_nil, List.length_append, List.length_append] at hlines
  simp only [List.length_singleton] at hlines
  dsimp only
  split at hlength <;> omega

theorem lineStart_mono (bytes : Bytes) {k j : Nat} (hkj : k ≤ j) :
    (ofBytes bytes).lineStart (k + 1) ≤ (ofBytes bytes).lineStart (j + 1) := by
  have htake := length_ofLines_take ((splitLines bytes).take j) k
  rw [List.take_take, Nat.min_eq_left hkj] at htake
  rw [lineStart_ofBytes, lineStart_ofBytes]
  omega

theorem lineStart_le (bytes : Bytes) (line : Nat) :
    (ofBytes bytes).lineStart line ≤ bytes.length := by
  cases line with
  | zero => exact Nat.zero_le _
  | succ k =>
    rw [lineStart_ofBytes]
    exact Nat.min_le_right _ _

theorem missingFinalNewline_ofBytes (bytes : Bytes) :
    (ofBytes bytes).missingFinalNewline = bytes.lacksFinalNewline := by
  have hlength := length_ofLines_splitLines bytes
  rw [missingFinalNewline, lines_ofBytes, List.getLast?_eq_getElem?, length_spansFrom,
    getElem?_spansFrom]
  rcases List.eq_nil_or_concat (splitLines bytes) with hnil | ⟨front, line, hlast⟩
  · rw [splitLines_eq_nil hnil]
    rfl
  · -- the last line ends where the text of all lines ends, but for its newline
    rw [hlast, List.concat_eq_append, ofLines_append, ofLines_cons, ofLines_nil] at hlength
    rw [hlast, List.concat_eq_append, List.length_append, List.length_singleton,
      Nat.add_sub_cancel, List.getElem?_append_right (Nat.le_refl _), Nat.sub_self,
      List.take_append_of_le_length (Nat.le_refl _), List.take_length]
    simp only [List.length_append, List.length_cons, List.length_nil] at hlength
    simp only [List.getElem?_cons_zero, Option.map_some, Option.any_some, ofBytes, Nat.zero_add]
    cases hlacks : bytes.lacksFinalNewline with
    | false =>
      rw [hlacks] at hlength
      simp only [Bool.false_eq_true, if_false] at hlength
      exact decide_eq_false (by omega)
    | true =>
      rw [hlacks] at hlength
      simp only [if_true] at hlength
      exact decide_eq_true (by omega)

/-! ## Cutting a document between lines -/

private theorem ofLines_take_isPrefix {bytes : Bytes} {k : Nat}
    (hk : k < (splitLines bytes).length) : ofLines ((splitLines bytes).take k) <+: bytes := by
  have hlength := length_ofLines_splitLines bytes
  have htake := length_ofLines_take (splitLines bytes) k
  have hall : ofLines ((splitLines bytes).take k) <+: bytes.terminated := by
    refine ⟨ofLines ((splitLines bytes).drop k), ?_⟩
    rw [← ofLines_append, List.take_append_drop, ofLines_splitLines]
  have hbytes : bytes <+: bytes.terminated := by
    unfold Bytes.terminated
    split
    · exact List.prefix_append _ _
    · exact List.prefix_rfl
  apply List.prefix_of_prefix_length_le hall hbytes
  split at hlength <;> omega

theorem lineStart_of_lt {bytes : Bytes} {k : Nat} (hk : k < (splitLines bytes).length) :
    (ofBytes bytes).lineStart (k + 1) = (ofLines ((splitLines bytes).take k)).length := by
  rw [lineStart_ofBytes, Nat.min_eq_left (ofLines_take_isPrefix hk).length_le]

private theorem lineStart_of_le {bytes : Bytes} {k : Nat} (hk : (splitLines bytes).length ≤ k) :
    (ofBytes bytes).lineStart (k + 1) = bytes.length := by
  rw [lineStart_ofBytes, List.take_of_length_le hk, length_ofLines_splitLines,
    Nat.min_eq_right (Nat.le_add_right _ _)]

theorem take_lineStart_of_lt {bytes : Bytes} {k : Nat} (hk : k < (splitLines bytes).length) :
    bytes.take ((ofBytes bytes).lineStart (k + 1)) = ofLines ((splitLines bytes).take k) := by
  rw [lineStart_of_lt hk, ← List.prefix_iff_eq_take.mp (ofLines_take_isPrefix hk)]

/-- What stands before a line is the text of the lines before it; its end lacks
a newline only where that of the document does. -/
theorem terminated_take_lineStart (bytes : Bytes) (k : Nat) :
    Bytes.terminated (bytes.take ((ofBytes bytes).lineStart (k + 1))) =
      ofLines ((splitLines bytes).take k) := by
  by_cases hk : k < (splitLines bytes).length
  · rw [take_lineStart_of_lt hk, terminated_ofLines]
  · have hle := Nat.le_of_not_lt hk
    rw [lineStart_of_le hle, List.take_length, List.take_of_length_le hle, ofLines_splitLines]

theorem take_lineStart {bytes : Bytes} {k : Nat}
    (h : ¬((ofBytes bytes).lineStart (k + 1) = bytes.length ∧ bytes.lacksFinalNewline = true)) :
    bytes.take ((ofBytes bytes).lineStart (k + 1)) = ofLines ((splitLines bytes).take k) := by
  by_cases hk : k < (splitLines bytes).length
  · exact take_lineStart_of_lt hk
  · have hstart := lineStart_of_le (Nat.le_of_not_lt hk)
    rw [← terminated_take_lineStart, hstart, List.take_length, terminated_of_not_lacks]
    exact eq_false_of_ne_true fun hlacks => h ⟨hstart, hlacks⟩

theorem splitLines_drop_lineStart (bytes : Bytes) (k : Nat) :
    splitLines (bytes.drop ((ofBytes bytes).lineStart (k + 1))) = (splitLines bytes).drop k := by
  by_cases hk : k < (splitLines bytes).length
  · have hsplit := splitLines_ofLines_append (newline_notMem_of_mem_take bytes k)
      (bytes.drop ((ofBytes bytes).lineStart (k + 1)))
    rw [← take_lineStart_of_lt hk, List.take_append_drop] at hsplit
    refine (List.append_cancel_left (Eq.trans ?_ hsplit)).symm
    exact List.take_append_drop k (splitLines bytes)
  · have hle := Nat.le_of_not_lt hk
    rw [lineStart_of_le hle, List.drop_length, List.drop_eq_nil_of_le hle, splitLines_nil]

theorem slice_lineRange {bytes line : Bytes} {k : Nat} (h : (splitLines bytes)[k]? = some line) :
    (bytes.drop (ofLines ((splitLines bytes).take k)).length).take line.length = line := by
  obtain ⟨hk, hline⟩ := List.getElem?_eq_some_iff.mp h
  have hbehind := splitLines_drop_lineStart bytes k
  rw [lineStart_of_lt hk, List.drop_eq_getElem_cons hk, hline] at hbehind
  exact (List.prefix_iff_eq_take.mp (isPrefix_of_splitLines_eq_cons hbehind)).symm

theorem terminated_between {bytes : Bytes} {k last : Nat} (hk : k < (splitLines bytes).length)
    (hle : k ≤ last) :
    Bytes.terminated ((bytes.drop ((ofBytes bytes).lineStart (k + 1))).take
        ((ofBytes bytes).lineStart (last + 1) - (ofBytes bytes).lineStart (k + 1))) =
      ofLines (((splitLines bytes).take last).drop k) := by
  have hmono := lineStart_mono bytes hle
  have hfront := take_lineStart_of_lt hk
  have hwhole := terminated_take_lineStart bytes last
  have hcut := (List.take_append_drop ((ofBytes bytes).lineStart (k + 1))
    (bytes.take ((ofBytes bytes).lineStart (last + 1)))).symm
  have hlines := (List.take_append_drop k ((splitLines bytes).take last)).symm
  rw [List.take_take, Nat.min_eq_left hmono, List.drop_take, hfront] at hcut
  rw [List.take_take, Nat.min_eq_left hle] at hlines
  rw [hcut, hlines, ofLines_append] at hwhole
  cases hmiddle : (bytes.drop ((ofBytes bytes).lineStart (k + 1))).take
      ((ofBytes bytes).lineStart (last + 1) - (ofBytes bytes).lineStart (k + 1)) with
  | nil =>
    rw [hmiddle, List.append_nil, terminated_ofLines] at hwhole
    have hempty := List.append_cancel_left ((List.append_nil _).trans hwhole)
    rw [← hempty]
    rfl
  | cons b middle =>
    rw [hmiddle, terminated_append _ (List.cons_ne_nil b middle)] at hwhole
    exact List.append_cancel_left hwhole

end LineIndex

end Redline

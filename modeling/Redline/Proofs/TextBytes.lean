import Redline.Session
import Redline.Proofs.LineText
/-!
# Text and the lines of an input

A text comes back from its bytes, and lines come back from an input that holds
them with newlines between.
-/

namespace Redline

/-! ## Encoding -/

theorem Text.decode?_ofString (s : String) : Text.decode? (Bytes.ofString s) = some s := by
  have hbytes : ByteArray.mk (Bytes.ofString s).toArray = s.toByteArray := by
    rw [← String.utf8Encode_toList, List.utf8Encode, ← List.data_toByteArray]
    rfl
  rw [decode?, hbytes, String.fromUTF8?, dif_pos s.isValidUTF8]
  rfl

namespace Bytes

theorem ofString_inj {s t : String} (h : ofString s = ofString t) : s = t := by
  have hdecode := Text.decode?_ofString s
  rw [h, Text.decode?_ofString] at hdecode
  exact (Option.some.inj hdecode).symm

theorem ofString_eq_nil_iff {s : String} : ofString s = [] ↔ s = "" := by
  constructor
  · exact fun h => ofString_inj (h.trans (show ([] : Bytes) = ofString "" from rfl))
  · rintro rfl
    rfl

theorem utf8EncodeChar_of_le {c : Char} (h : c.toNat ≤ 127) :
    String.utf8EncodeChar c = [UInt8.ofNat c.toNat] := by
  unfold String.utf8EncodeChar
  exact if_pos h

theorem mem_ofString_of_ascii {s : String} (h : ∀ c ∈ s.toList, c.toNat ≤ 127) {b : UInt8}
    (hb : b ∈ ofString s) : ∃ c ∈ s.toList, b.toNat = c.toNat := by
  obtain ⟨c, hc, hb⟩ := List.mem_flatMap.mp hb
  rw [utf8EncodeChar_of_le (h c hc)] at hb
  refine ⟨c, hc, ?_⟩
  rw [List.mem_singleton.mp hb, UInt8.toNat_ofNat_of_lt' (Nat.lt_of_le_of_lt (h c hc) (by decide))]

theorem getLast?_ofString {s : String} {front : List Char} {c : Char} (h : c.toNat ≤ 127)
    (hs : s.toList = front ++ [c]) : (ofString s).getLast? = some (UInt8.ofNat c.toNat) := by
  rw [ofString, hs, List.flatMap_append, List.flatMap_singleton, utf8EncodeChar_of_le h,
    List.getLast?_append, List.getLast?_singleton, Option.some_or]

/-- Other characters end in bytes beyond the basic class. -/
theorem getLast?_utf8EncodeChar_of_gt {c : Char} (h : 127 < c.toNat) :
    ∃ n, 128 ≤ n ∧ n < 256 ∧ (String.utf8EncodeChar c).getLast? = some (UInt8.ofNat n) := by
  have hlow : ¬c.val.toNat ≤ 127 := Nat.not_le.mpr h
  unfold String.utf8EncodeChar
  dsimp only
  rw [if_neg hlow]
  split
  · exact ⟨_, by omega, by omega, rfl⟩
  · split
    · exact ⟨_, by omega, by omega, rfl⟩
    · exact ⟨_, by omega, by omega, rfl⟩

theorem getLast?_ofString_eq_return_iff (s : String) :
    (ofString s).getLast? = some 13 ↔ s.toList.getLast? = some '\r' := by
  rcases List.eq_nil_or_concat s.toList with hnil | ⟨front, c, hs⟩
  · rw [ofString, hnil]
    simp
  · rw [List.concat_eq_append] at hs
    rw [hs, List.getLast?_append, List.getLast?_singleton, Option.some_or]
    by_cases hc : c.toNat ≤ 127
    · rw [getLast?_ofString hc hs]
      constructor
      · intro hlast
        have hbyte := congrArg UInt8.toNat (Option.some.inj hlast)
        rw [UInt8.toNat_ofNat_of_lt' (Nat.lt_of_le_of_lt hc (by decide))] at hbyte
        exact congrArg some (Char.ext (UInt32.toNat_inj.mp hbyte))
      · intro hlast
        cases hlast
        rfl
    · obtain ⟨n, hlow, hhigh, hn⟩ := getLast?_utf8EncodeChar_of_gt (Nat.lt_of_not_le hc)
      rw [ofString, hs, List.flatMap_append, List.flatMap_singleton, List.getLast?_append, hn,
        Option.some_or]
      constructor
      · intro hlast
        have hbyte := congrArg UInt8.toNat (Option.some.inj hlast)
        rw [UInt8.toNat_ofNat_of_lt' hhigh] at hbyte
        change n = 13 at hbyte
        omega
      · intro hlast
        cases hlast
        exact absurd (by decide) hc

end Bytes

/-! ## Lines of an input -/

namespace Session

theorem rawLines_append_newline {line : Bytes} (h : newline ∉ line) (rest : Bytes) :
    rawLines (line ++ newline :: rest) = (line ++ [newline]) :: rawLines rest := by
  induction line with
  | nil => simp [rawLines]
  | cons b line ih =>
    rw [List.mem_cons, not_or] at h
    rw [List.cons_append, rawLines, if_neg (Ne.symm h.1), ih h.2]
    rfl

theorem rawLines_of_notMem {line : Bytes} (h : newline ∉ line) (hne : line ≠ []) :
    rawLines line = [line] := by
  induction line with
  | nil => exact absurd rfl hne
  | cons b line ih =>
    rw [List.mem_cons, not_or] at h
    rw [rawLines, if_neg (Ne.symm h.1)]
    cases line with
    | nil => rfl
    | cons c line => rw [ih h.2 (List.cons_ne_nil _ _)]

theorem chompLine_append_newline {line : Bytes} (h : line.getLast? ≠ some 13) :
    chompLine (line ++ [newline]) = line := by
  rw [chompLine, if_pos (by rw [List.getLast?_append, List.getLast?_singleton, Option.some_or])]
  dsimp only
  rw [List.dropLast_concat, if_neg h]

theorem chompLine_of_notMem {line : Bytes} (h : newline ∉ line) : chompLine line = line := by
  rw [chompLine, if_neg]
  intro hlast
  exact h (List.mem_of_getLast? hlast)

/-- A line that is read back as it was written. -/
structure IsPlainLine (line : Bytes) : Prop where
  newline_notMem : newline ∉ line
  getLast?_ne : line.getLast? ≠ some 13

theorem inputLines_joinLines {lines : List Bytes} (hlines : ∀ line ∈ lines, IsPlainLine line)
    (hlast : lines.getLast? ≠ some []) :
    inputLines (Bytes.joinLines lines) = lines.map Text.decode? := by
  induction lines with
  | nil => rfl
  | cons line rest ih =>
    have hline := hlines line List.mem_cons_self
    cases rest with
    | nil =>
      have hne : line ≠ [] := fun h => hlast (congrArg some h)
      rw [Bytes.joinLines_singleton, inputLines, rawLines_of_notMem hline.newline_notMem hne,
        List.map_singleton, chompLine_of_notMem hline.newline_notMem]
      rfl
    | cons next rest =>
      have hrest := ih (fun line h => hlines line (List.mem_cons_of_mem _ h))
        (by rwa [List.getLast?_cons_cons] at hlast)
      rw [Bytes.joinLines_cons_cons, inputLines, rawLines_append_newline hline.newline_notMem,
        List.map_cons, chompLine_append_newline hline.getLast?_ne]
      exact congrArg _ hrest

end Session

end Redline

import Redline.Command.Parser
/-!
# Reading numerals

The decimal digits of a number are read as that number, up to the first character that is no
digit.
-/

namespace Redline

namespace Text

theorem toList_toString (n : Nat) : (toString n).toList = Nat.toDigits 10 n :=
  Nat.toList_repr

theorem isDigit_of_mem_toString {n : Nat} {c : Char} (h : c ∈ (toString n).toList) :
    c.isDigit = true := by
  rw [toList_toString] at h
  exact Nat.isDigit_of_mem_toDigits (by decide) (by decide) h

theorem toString_ne_nil (n : Nat) : (toString n).toList ≠ [] := by
  rw [toList_toString]
  exact Nat.toDigits_ne_nil

theorem valueOf_toString (n : Nat) : valueOf (toString n).toList = n := by
  rw [toList_toString]
  exact Nat.ofDigitChars_ten_toDigits

theorem readWord?_toString {n : Nat} (h : n ≤ maxOffset) :
    readWord? (toString n).toList = some n := by
  have hsign : (toString n).toList.head? ≠ some '+' := by
    intro hhead
    have hdigit := isDigit_of_mem_toString (List.mem_of_head? hhead)
    exact absurd hdigit (by decide)
  have hall : (toString n).toList.all Char.isDigit = true :=
    List.all_eq_true.mpr fun c hc => isDigit_of_mem_toString hc
  rw [readWord?, if_neg hsign, valueOf_toString, if_pos ⟨toString_ne_nil n, hall, h⟩]

end Text

namespace Parser

theorem digits_append {ds rest : List Char} (hds : ∀ d ∈ ds, d.isDigit = true)
    (hrest : ∀ c ∈ rest.head?, c.isDigit = false) : digits (ds ++ rest) = (ds, rest) := by
  rw [digits, List.takeWhile_append_of_pos hds, List.dropWhile_append_of_pos hds]
  cases rest with
  | nil => rw [List.takeWhile_nil, List.dropWhile_nil, List.append_nil]
  | cons c rest =>
    have hc : ¬c.isDigit = true := by
      rw [hrest c rfl]
      exact Bool.false_ne_true
    rw [List.takeWhile_cons_of_neg hc, List.dropWhile_cons_of_neg hc, List.append_nil]

theorem digits_toString (n : Nat) {rest : List Char}
    (hrest : ∀ c ∈ rest.head?, c.isDigit = false) :
    digits ((toString n).toList ++ rest) = ((toString n).toList, rest) :=
  digits_append (fun _ hd => Text.isDigit_of_mem_toString hd) hrest

theorem digits_toString_cons (n : Nat) {c : Char} (hc : c.isDigit = false) (rest : List Char) :
    digits ((toString n).toList ++ c :: rest) = ((toString n).toList, c :: rest) :=
  digits_toString n fun d hd => by cases hd; exact hc

end Parser

end Redline

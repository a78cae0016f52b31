import Mathlib.Data.List.DropRight
import Redline.Proofs.Numerals
/-!
# Ends of texts

What is left of a text whose ends are cut off has no such ends, and a text without them is left
as it is.
-/

namespace Redline

/-! ## Blanks -/

namespace Text

variable {cs : List Char} {p : Char → Bool}

theorem of_mem_head?_dropWhile : ∀ c ∈ (cs.dropWhile p).head?, p c = false := by
  intro c hc
  have hnot := List.head?_dropWhile_not p cs
  rw [hc] at hnot
  exact hnot

theorem of_mem_getLast?_rdropWhile : ∀ c ∈ (cs.rdropWhile p).getLast?, p c = false := by
  rw [List.rdropWhile, List.getLast?_reverse]
  exact of_mem_head?_dropWhile

theorem dropWhile_eq_self (h : ∀ c ∈ cs.head?, p c = false) : cs.dropWhile p = cs := by
  cases cs with
  | nil => rfl
  | cons c cs => exact List.dropWhile_cons_of_neg (by rw [h c rfl]; exact Bool.false_ne_true)

theorem rdropWhile_eq_self (h : ∀ c ∈ cs.getLast?, p c = false) : cs.rdropWhile p = cs := by
  rw [← List.head?_reverse] at h
  rw [List.rdropWhile, dropWhile_eq_self h, List.reverse_reverse]

structure IsTrimmed (cs : List Char) : Prop where
  head : ∀ c ∈ cs.head?, isBlank c = false
  last : ∀ c ∈ cs.getLast?, isBlank c = false

theorem isTrimmed_trim (cs : List Char) : IsTrimmed (trim cs) := by
  refine ⟨fun c hc => ?_, of_mem_getLast?_rdropWhile⟩
  obtain ⟨behind, hbehind⟩ := List.rdropWhile_prefix isBlank (cs.dropWhile isBlank)
  have hfront : ((cs.dropWhile isBlank).rdropWhile isBlank).head? = some c := hc
  have hhead : (cs.dropWhile isBlank).head? = some c := by
    rw [← hbehind, List.head?_append, hfront, Option.some_or]
  exact of_mem_head?_dropWhile c hhead

theorem IsTrimmed.trim_eq (h : IsTrimmed cs) : trim cs = cs := by
  have hlast : cs.rdropWhile isBlank = cs := rdropWhile_eq_self h.last
  rw [trim, dropWhile_eq_self h.head]
  exact hlast

end Text

/-! ## Line ends -/

namespace Parser

variable {c : Char} {cs ds line : List Char}

def endsLine (c : Char) : Bool :=
  c = '\n' || c = '\r'

def NoLineEnd (cs : List Char) : Prop :=
  ∀ c ∈ cs.getLast?, endsLine c = false

theorem NoLineEnd.append (h : NoLineEnd cs) (hd : NoLineEnd ds) : NoLineEnd (cs ++ ds) := by
  intro c hc
  rw [List.getLast?_append] at hc
  cases hlast : ds.getLast? with
  | none =>
    rw [hlast, Option.none_or] at hc
    exact h c hc
  | some d =>
    rw [hlast, Option.some_or] at hc
    cases hc
    exact hd c hlast

theorem NoLineEnd.suffix (h : NoLineEnd line) (hcs : cs <:+ line) : NoLineEnd cs := by
  obtain ⟨front, rfl⟩ := hcs
  intro c hc
  refine h c ?_
  rw [List.getLast?_append, hc, Option.some_or]
  rfl

theorem noLineEnd_singleton (h : endsLine c = false) : NoLineEnd [c] := by
  intro d hd
  cases hd
  exact h

theorem NoLineEnd.withoutLineEnd_eq (h : NoLineEnd cs) : withoutLineEnd cs = cs :=
  Text.rdropWhile_eq_self h

theorem noLineEnd_withoutLineEnd (cs : List Char) : NoLineEnd (withoutLineEnd cs) :=
  Text.of_mem_getLast?_rdropWhile

theorem endsLine_eq_false {p : Char → Bool} (hp : (p '\n' || p '\r') = false)
    (hc : p c = true) : endsLine c = false := by
  rw [Bool.or_eq_false_iff] at hp
  rw [endsLine, Bool.or_eq_false_iff, decide_eq_false_iff_not, decide_eq_false_iff_not]
  constructor
  · rintro rfl
    exact absurd hc (by rw [hp.1]; exact Bool.false_ne_true)
  · rintro rfl
    exact absurd hc (by rw [hp.2]; exact Bool.false_ne_true)

theorem noLineEnd_nil : NoLineEnd [] := by
  intro c hc
  cases hc

theorem NoLineEnd.cons (h : NoLineEnd cs) (hc : endsLine c = false) :
    NoLineEnd (c :: cs) :=
  (noLineEnd_singleton hc).append h

theorem NoLineEnd.behind (h : NoLineEnd (c :: cs)) (front : List Char) :
    NoLineEnd (front ++ c :: cs) := by
  intro d hd
  rw [List.getLast?_append] at hd
  cases hlast : (c :: cs).getLast? with
  | none => simp at hlast
  | some e =>
    rw [hlast, Option.some_or] at hd
    cases hd
    exact h d hlast

theorem noLineEnd_toString (n : Nat) : NoLineEnd (toString n).toList := by
  intro c hc
  exact endsLine_eq_false (by decide) (Text.isDigit_of_mem_toString (List.mem_of_getLast? hc))

end Parser

end Redline

import Redline.Command.Script
import Redline.Diff.Row
import Redline.Proofs.CommandText
/-!
# Reading command lines with line numbers

Commands whose addresses are written out as numbers, as a script has them, are
read as what they are.
-/

namespace Redline

namespace Parser

structure IsBare (letter : Char) (v : Verb) : Prop where
  form : Form.ofLetter? letter = some (.bare v)
  takesAddress : v.defaultRange?.isSome = true

theorem isBare_append : IsBare 'a' (.append "") :=
  ⟨rfl, rfl⟩

theorem isBare_change : IsBare 'c' (.change "") :=
  ⟨rfl, rfl⟩

theorem isBare_delete : IsBare 'd' .delete :=
  ⟨rfl, rfl⟩

theorem isBare_print : IsBare 'p' .print :=
  ⟨rfl, rfl⟩

theorem isBare_number : IsBare 'n' .number :=
  ⟨rfl, rfl⟩

theorem wellFormed_line {n : Nat} (h : n ≤ maxOffset) : (Address.line n).WellFormed :=
  Address.wellFormed_of_base ⟨n, h, rfl⟩

end Parser

theorem Canonical.address_line (n : Nat) : address (.line n) = (toString n).toList := by
  simp [address, Address.line, base]

namespace Command

open Redline.Parser

variable {letter : Char} {v : Verb} {n m : Nat} {line : String}

theorem parse_one (hn : n ≤ maxOffset) (h : IsBare letter v)
    (hline : line.toList = (toString n).toList ++ [letter]) :
    parse line = .ok ⟨v, some (.line n), some (.line n)⟩ := by
  obtain ⟨hletter, hoperand, -⟩ := (Form.Makes.bare v).written h.form
  have hrange : IsRange (.line n, .line n) [letter] :=
    isRange_alone ⟨wellFormed_line hn, fun hopen => by cases hopen⟩
  have hc : WellFormed ⟨v, some (.line n), some (.line n)⟩ :=
    ⟨⟨some (.line n, .line n), rfl, rfl, fun p hp => by cases hp; rw [hletter]; exact hrange⟩,
      .lettered h.form (.bare v) trivial, fun _ => h.takesAddress⟩
  have hclose : v.operand.Delimits '/' :=
    Operand.delimits_of_parts_eq_nil (by rw [hoperand]; rfl)
  have htext : canonicalText '/' ⟨v, some (.line n), some (.line n)⟩ = line := by
    rw [← String.toList_inj, hline, canonicalText, String.toList_ofList, hletter, hoperand,
      Canonical.operand, List.append_nil, Option.toList_some, Canonical.range, if_pos rfl,
      Canonical.address_line]
  have hread := parse_canonicalText hc hclose
  rwa [htext] at hread

theorem parse_pair (hn : n ≤ maxOffset) (hm : m ≤ maxOffset) (h : IsBare letter v)
    (hline : line.toList = (toString n).toList ++ ',' :: ((toString m).toList ++ [letter])) :
    parse line = .ok ⟨v, some (.line n), some (.line m)⟩ := by
  obtain ⟨-, -, hdefault⟩ := (Form.Makes.bare v).written h.form
  obtain ⟨hends, hplain⟩ := endsRange_of_ofLetter? h.form
  have hwritten : line.toList =
      Canonical.address (.line n) ++ ',' :: (Canonical.address (.line m) ++ [letter]) := by
    rw [hline, Canonical.address_line, Canonical.address_line]
  have hend : NoLineEnd line.toList := by
    rw [hwritten]
    exact (noLineEnd_address (wellFormed_line hn)).append
      (((noLineEnd_address (wellFormed_line hm)).append hplain).cons rfl)
  have hrange : range? (Canonical.address (.line n) ++
      ',' :: (Canonical.address (.line m) ++ [letter])) =
      .ok (some (.line n, .line m), letter :: Canonical.operand '/' .nothing) :=
    range?_pair (wellFormed_line hn) (fun hopen => by cases hopen)
      ⟨wellFormed_line hm, fun hopen => by cases hopen⟩ fun c hc => Option.some.inj hc ▸ hends
  rw [parse, hend.withoutLineEnd_eq, hwritten]
  exact command_lettered h.form (.bare v) trivial (Operand.delimits_of_parts_eq_nil rfl)
    (fun _ => hdefault ▸ h.takesAddress) (skipSeparators_address (wellFormed_line hn) _) hrange

/-- The numbers of a range that is not empty, as rows of a comparison write them. -/
theorem parse_rangeText {s : Span} (hlt : s.start < s.stop) (hstop : s.stop ≤ maxOffset)
    (h : IsBare letter v) (hline : line.toList = (Row.rangeText s).toList ++ [letter]) :
    parse line = .ok ⟨v, some (.line (s.start + 1)), some (.line s.stop)⟩ := by
  unfold Row.rangeText at hline
  split at hline
  · rename_i hone
    have hone : s.stop = s.start + 1 := by
      rw [Span.length] at hone
      omega
    rw [hone]
    exact parse_one (by omega) h hline
  · have hcomma : (toString ",").toList = [','] := rfl
    refine parse_pair (by omega) hstop h ?_
    rw [hline, String.toList_append, String.toList_append, hcomma, List.append_assoc,
      List.append_assoc, List.singleton_append]

end Command

end Redline

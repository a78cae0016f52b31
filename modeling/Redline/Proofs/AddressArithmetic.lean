import Mathlib
import Redline.Proofs.AddressText
import Redline.Proofs.Addressing
/-!
# Address arithmetic

A base with signed terms behind it is a sum.  It is read if its number, its magnitudes and all
its partial sums are words, and it stands for the line that the sum is, if there is that line:
no sum is cut to a word on the way.
-/

namespace Redline

namespace Address

/-! ## Spelt addresses -/

structure Digits where
  chars : List Char
  isDigit : ∀ c ∈ chars, c.isDigit = true

def Digits.ofString (s : String) (h : s.toList.all Char.isDigit = true) : Digits where
  chars := s.toList
  isDigit := List.all_eq_true.mp h

def Digits.value (ds : Digits) : Nat :=
  Text.valueOf ds.chars

namespace Spelling

/-- The sign of a term; a caret is one more minus. -/
inductive Sign where
  | plus
  | minus
  | caret

def Sign.char : Sign → Char
  | plus => '+'
  | minus => '-'
  | caret => '^'

structure Term where
  sign : Sign
  /-- No digits mean one. -/
  digits : Digits

namespace Term

def text (t : Term) : List Char :=
  t.sign.char :: t.digits.chars

def magnitude (t : Term) : Nat :=
  if t.digits.chars = [] then 1 else t.digits.value

def value (t : Term) : Int :=
  match t.sign with
  | .plus => t.magnitude
  | .minus | .caret => -t.magnitude

end Term

inductive Base where
  | current
  | last
  | number (digits : Digits) (written : digits.chars ≠ [])
  /-- Nothing is written: the current line. -/
  | nothing

namespace Base

def text : Base → List Char
  | current => ['.']
  | last => ['$']
  | number ds _ => ds.chars
  | nothing => []

def value (e : Editor) : Base → Nat
  | current | nothing => e.currentLine
  | last => e.lineCount
  | number ds _ => ds.value

def TooLarge : Base → Prop
  | number ds _ => 2 ^ 64 ≤ ds.value
  | current | last | nothing => False

end Base

def total (ts : List Term) : Int :=
  (ts.map Term.value).sum

def IsSignedWord (n : Int) : Prop :=
  -2 ^ 63 ≤ n ∧ n < 2 ^ 63

instance (n : Int) : Decidable (IsSignedWord n) :=
  inferInstanceAs (Decidable (_ ∧ _))

/-- A magnitude, or the sum of some first terms added to `sum`, is no signed word. -/
def Overflows (sum : Int) (ts : List Term) : Prop :=
  (∃ t ∈ ts, 2 ^ 63 ≤ t.magnitude) ∨ ∃ k, ¬IsSignedWord (sum + total (ts.take k))

end Spelling

/-- A base and signed terms, one of which is there. -/
structure Spelling where
  base : Spelling.Base
  terms : List Spelling.Term
  written : base = .nothing → terms ≠ []

namespace Spelling

def text (a : Spelling) : List Char :=
  a.base.text ++ a.terms.flatMap Term.text

def value (a : Spelling) (e : Editor) : Int :=
  a.base.value e + total a.terms

def OutOfRange (a : Spelling) : Prop :=
  a.base.TooLarge ∨ Overflows 0 a.terms

/-! ## Terms -/

def Term.read (t : Term) : Parser.Term where
  negative := match t.sign with
    | .plus => false
    | .minus | .caret => true
  digits := t.digits.chars

@[simp] theorem Term.magnitude_read (t : Term) : t.read.magnitude = t.magnitude := rfl

@[simp] theorem Term.value_read (t : Term) : t.read.value = t.value := by
  obtain ⟨sign, ds⟩ := t
  cases sign <;> rfl

theorem Sign.isDigit_char (s : Sign) : s.char.isDigit = false := by
  cases s <;> rfl

variable {rest : List Char}

theorem isDigit_head?_terms (ts : List Term) (hrest : Parser.EndsAddress rest) :
    ∀ c ∈ (ts.flatMap Term.text ++ rest).head?, c.isDigit = false := by
  cases ts with
  | nil => exact fun c hc => (hrest c hc).notDigit
  | cons t ts =>
    intro c hc
    cases hc
    exact t.sign.isDigit_char

theorem terms_text (ts : List Term) (hrest : Parser.EndsAddress rest) :
    Parser.terms (ts.flatMap Term.text ++ rest) = (ts.map Term.read, rest) := by
  induction ts with
  | nil => exact Parser.terms_of_endsAddress hrest
  | cons t ts ih =>
    have hdigits := Parser.digits_append t.digits.isDigit (isDigit_head?_terms ts hrest)
    have hsign : Parser.sign? t.sign.char = some t.read.negative := by
      obtain ⟨sign, ds⟩ := t
      cases sign <;> rfl
    rw [List.flatMap_cons, Term.text, List.cons_append, List.cons_append, List.append_assoc,
      Parser.terms, hsign]
    dsimp only
    rw [hdigits, ih]
    rfl

/-! ## Sums of terms -/

theorem total_cons (t : Term) (ts : List Term) : total (t :: ts) = t.value + total ts :=
  List.sum_cons

theorem overflows_of_not_isSignedWord {sum : Int} (hsum : ¬IsSignedWord sum) (ts : List Term) :
    Overflows sum ts :=
  .inr ⟨0, by simpa [total] using hsum⟩

theorem not_overflows_nil {sum : Int} (hsum : IsSignedWord sum) : ¬Overflows sum [] := by
  rintro (⟨t, ht, -⟩ | ⟨k, hk⟩)
  · exact absurd ht List.not_mem_nil
  · exact absurd hsum (by simpa [total] using hk)

theorem overflows_cons {sum : Int} (hsum : IsSignedWord sum) (t : Term) (ts : List Term) :
    Overflows sum (t :: ts) ↔
      (2 ^ 63 ≤ t.magnitude ∨ ¬IsSignedWord (sum + t.value)) ∨
        Overflows (sum + t.value) ts := by
  constructor
  · rintro (⟨u, hu, hlarge⟩ | ⟨k, hk⟩)
    · rcases List.mem_cons.mp hu with rfl | hu
      · exact .inl (.inl hlarge)
      · exact .inr (.inl ⟨u, hu, hlarge⟩)
    · cases k with
      | zero => exact absurd hsum (by simpa [total] using hk)
      | succ k =>
        rw [List.take_succ_cons, total_cons, ← Int.add_assoc] at hk
        exact .inr (.inr ⟨k, hk⟩)
  · intro h
    rcases h with (hlarge | hnext) | hmore
    · exact .inl ⟨t, List.mem_cons_self, hlarge⟩
    · exact .inr ⟨1, by simpa [total] using hnext⟩
    · rcases hmore with ⟨u, hu, hlarge⟩ | ⟨k, hk⟩
      · exact .inl ⟨u, List.mem_cons_of_mem t hu, hlarge⟩
      · refine .inr ⟨k + 1, ?_⟩
        rwa [List.take_succ_cons, total_cons, ← Int.add_assoc]

instance decidableOverflows (sum : Int) : (ts : List Term) → Decidable (Overflows sum ts)
  | [] =>
    if h : IsSignedWord sum then isFalse (not_overflows_nil h)
    else isTrue (overflows_of_not_isSignedWord h [])
  | t :: ts =>
    if h : IsSignedWord sum then
      have := decidableOverflows (sum + t.value) ts
      decidable_of_iff _ (overflows_cons h t ts).symm
    else isTrue (overflows_of_not_isSignedWord h (t :: ts))

instance : (b : Base) → Decidable b.TooLarge
  | .number ds _ => inferInstanceAs (Decidable (2 ^ 64 ≤ ds.value))
  | .current | .last | .nothing => isFalse id

instance (a : Spelling) : Decidable a.OutOfRange :=
  inferInstanceAs (Decidable (_ ∨ _))

theorem sumFrom_cons (sum : Int) (t : Term) (ts : List Term) :
    Parser.sumFrom sum ((t :: ts).map Term.read) =
      if 2 ^ 63 ≤ t.magnitude ∨ ¬IsSignedWord (sum + t.value) then .error .numberOutOfRange
      else Parser.sumFrom (sum + t.value) (ts.map Term.read) := by
  have hmagnitude : Address.maxOffset < t.magnitude ↔ 2 ^ 63 ≤ t.magnitude := by
    unfold Address.maxOffset
    omega
  have hnext : (sum + t.value < Address.minOffset ∨ Address.maxOffset < sum + t.value) ↔
      ¬IsSignedWord (sum + t.value) := by
    unfold Address.minOffset Address.maxOffset IsSignedWord
    omega
  rw [List.map_cons, Parser.sumFrom, Term.magnitude_read, Term.value_read]
  dsimp only
  simp only [hmagnitude, hnext]
  split
  · rw [if_pos (.inl ‹_›)]
  · simp only [*, false_or]

/-- The terms are added up, or one of them or of their partial sums is refused. -/
theorem sumFrom_read {sum : Int} (hsum : IsSignedWord sum) (ts : List Term) :
    FailsIff (Overflows sum ts) .numberOutOfRange (Parser.sumFrom sum (ts.map Term.read))
      (sum + total ts) := by
  induction ts generalizing sum with
  | nil =>
    refine ⟨fun h => absurd h (not_overflows_nil hsum), fun _ => ?_⟩
    rw [total, List.map_nil, List.map_nil, List.sum_nil, Int.add_zero, Parser.sumFrom]
  | cons t ts ih =>
    rw [overflows_cons hsum, sumFrom_cons, total_cons, ← Int.add_assoc]
    exact .guard fun h => ih (Decidable.not_not.mp (not_or.mp h).2)

/-! ## Addresses -/

def Base.read? : Base → Option Address.Base
  | current => some .current
  | last => some .last
  | number ds _ => some (.number (toString ds.value))
  | nothing => none

def address (a : Spelling) : Address :=
  ⟨a.base.read?.getD .implied, total a.terms⟩

theorem base?_text (a : Spelling) (hrest : Parser.EndsAddress rest) :
    FailsIff a.base.TooLarge .numberOutOfRange (Parser.base? (a.text ++ rest))
      (a.base.read?, a.terms.flatMap Term.text ++ rest) := by
  obtain ⟨b, ts, hwritten⟩ := a
  rw [text, List.append_assoc]
  dsimp only
  cases b with
  | current => exact ⟨False.elim, fun _ => rfl⟩
  | last => exact ⟨False.elim, fun _ => rfl⟩
  | number ds hds =>
    have hread := Parser.base?_digits hds ds.isDigit (isDigit_head?_terms ts hrest)
    have hlarge : Redline.maxOffset < ds.value ↔ 2 ^ 64 ≤ ds.value := by
      unfold Redline.maxOffset
      omega
    rw [Base.text, hread]
    exact ⟨fun h => if_pos (hlarge.mpr h), fun h => if_neg fun hlt => h (hlarge.mp hlt)⟩
  | nothing =>
    refine ⟨False.elim, fun _ => ?_⟩
    cases ts with
    | nil => exact absurd rfl (hwritten rfl)
    | cons t ts =>
      obtain ⟨sign, ds⟩ := t
      cases sign <;> rfl

theorem offset?_terms (ts : List Term) (hrest : Parser.EndsAddress rest) :
    FailsIff (Overflows 0 ts) .numberOutOfRange
      (Parser.offset? (ts.flatMap Term.text ++ rest))
      (if ts = [] then none else some (total ts), rest) := by
  have hzero : IsSignedWord 0 := by decide
  cases ts with
  | nil =>
    exact ⟨fun h => absurd h (not_overflows_nil hzero),
      fun _ => Parser.offset?_of_endsAddress hrest⟩
  | cons t ts =>
    have hsum := (sumFrom_read hzero (t :: ts)).map fun sum => (some sum, rest)
    rw [Int.zero_add] at hsum
    rw [Parser.offset?_of_terms (terms_text (t :: ts) hrest), if_neg (List.cons_ne_nil t ts)]
    exact hsum

theorem address?_text (a : Spelling) (hrest : Parser.EndsAddress rest) :
    FailsIff a.OutOfRange .numberOutOfRange (Parser.address? (a.text ++ rest))
      (some a.address, rest) := by
  refine (base?_text a hrest).bind ?_
  rw [← or_false (Overflows 0 a.terms)]
  refine (offset?_terms a.terms hrest).bind ⟨False.elim, fun _ => ?_⟩
  obtain ⟨b, ts, hwritten⟩ := a
  dsimp only
  cases ts with
  | nil =>
    cases b with
    | nothing => exact absurd rfl (hwritten rfl)
    | _ => rfl
  | cons t ts => cases b <;> rfl

/-! ## Lines -/

def spells (c : Char) : Bool :=
  c.isDigit || c = '.' || c = '$' || c = '+' || c = '-' || c = '^'

theorem spells_of_isDigit {c : Char} (h : c.isDigit = true) : spells c = true := by
  simp [spells, h]

theorem spells_of_mem_text {a : Spelling} {c : Char} (h : c ∈ a.text) : spells c = true := by
  obtain ⟨b, ts, hwritten⟩ := a
  rcases List.mem_append.mp h with hbase | hterms
  · cases b with
    | current =>
      rw [List.mem_singleton.mp hbase]
      rfl
    | last =>
      rw [List.mem_singleton.mp hbase]
      rfl
    | number ds hds => exact spells_of_isDigit (ds.isDigit c hbase)
    | nothing => exact absurd hbase List.not_mem_nil
  · obtain ⟨⟨sign, ds⟩, -, hmem⟩ := List.mem_flatMap.mp hterms
    rcases List.mem_cons.mp hmem with rfl | hdigit
    · cases sign <;> rfl
    · exact spells_of_isDigit (ds.isDigit c hdigit)

theorem noLineEnd_text (a : Spelling) : Parser.NoLineEnd a.text := fun _ hc =>
  Parser.endsLine_eq_false (by decide) (spells_of_mem_text (List.mem_of_getLast? hc))

theorem skipSeparators_text (a : Spelling) : Parser.skipSeparators a.text = a.text := by
  cases htext : a.text with
  | nil => rfl
  | cons c cs =>
    have hspells : spells c = true := spells_of_mem_text (htext ▸ List.mem_cons_self)
    exact Parser.skipSeparators_cons (Parser.isSeparator_eq_false (by decide) hspells) cs

theorem parse_text (a : Spelling) :
    FailsIff a.OutOfRange .numberOutOfRange (Command.parse (String.ofList a.text))
      ⟨.goTo, some a.address, some a.address⟩ := by
  have hnothing : Parser.EndsAddress [] := fun c hc => by cases hc
  have hread := a.address?_text hnothing
  rw [List.append_nil] at hread
  rw [Command.parse, String.toList_ofList, (noLineEnd_text a).withoutLineEnd_eq, Parser.command,
    skipSeparators_text, Parser.range?]
  constructor
  · intro h
    rw [hread.error h]
    rfl
  · intro h
    rw [hread.ok h]
    rfl

/-! ## Resolution -/

theorem resolveBase_read (e : Editor) {b : Base} (h : ¬b.TooLarge) :
    e.resolveBase (b.read?.getD .implied) = .ok (b.value e) := by
  cases b with
  | current => rfl
  | last => rfl
  | nothing => rfl
  | number ds hds =>
    have hword : ds.value ≤ Redline.maxOffset := by
      unfold Base.TooLarge at h
      unfold Redline.maxOffset
      omega
    rw [Base.read?, Option.getD_some, Editor.resolveBase, Text.readWord?_toString hword]
    rfl

theorem resolve_address (e : Editor) {a : Spelling} (h : ¬a.OutOfRange) :
    e.resolve a.address =
      if 0 ≤ a.value e ∧ a.value e ≤ e.lineCount then .ok (a.value e).toNat
      else .error .invalidAddress := by
  have hbase : ¬a.base.TooLarge := fun hlarge => h (.inl hlarge)
  rw [Editor.resolve, address, resolveBase_read e hbase]
  rfl

/-- A spelt address is refused exactly if a number in it is out of range.  Otherwise it stands
for the integer that it sums up to, in every editor that has a line there. -/
theorem resolves_to_sum (a : Spelling) (hrest : Parser.EndsAddress rest) :
    (Parser.address? (a.text ++ rest) = .error .numberOutOfRange ↔ a.OutOfRange) ∧
      (Command.parse (String.ofList a.text) = .error .numberOutOfRange ↔ a.OutOfRange) ∧
      (¬a.OutOfRange →
        ∃ address, Parser.address? (a.text ++ rest) = .ok (some address, rest) ∧
          Command.parse (String.ofList a.text) = .ok ⟨.goTo, some address, some address⟩ ∧
          ∀ e : Editor, e.resolve address =
            if 0 ≤ a.value e ∧ a.value e ≤ e.lineCount then .ok (a.value e).toNat
            else .error .invalidAddress) := by
  have haddress := a.address?_text hrest
  exact ⟨haddress.error_iff, a.parse_text.error_iff, fun h =>
    ⟨a.address, haddress.ok h, a.parse_text.ok h, fun e => resolve_address e h⟩⟩

def hugeLine : Spelling where
  base := .number (.ofString "9223372036854775809" rfl) (by decide)
  terms := [⟨.minus, .ofString "9223372036854775807" rfl⟩, ⟨.minus, .ofString "" rfl⟩]
  written := by simp

theorem resolves_to_sum_first_line :
    Parser.EndsAddress ['p'] ∧ ¬hugeLine.OutOfRange ∧
      ∃ address, Parser.address? (hugeLine.text ++ ['p']) = .ok (some address, ['p']) ∧
        (Editor.ofText "a").resolve address = .ok 1 := by
  have hrest : Parser.EndsAddress ['p'] := by
    intro c hc
    cases hc
    exact ⟨by decide, by decide⟩
  have hfits : ¬hugeLine.OutOfRange := by decide
  obtain ⟨-, -, hresolves⟩ := resolves_to_sum hugeLine hrest
  obtain ⟨address, haddress, -, hline⟩ := hresolves hfits
  refine ⟨hrest, hfits, address, haddress, ?_⟩
  rw [hline (.ofText "a")]
  decide

/-- The terms of `+9223372036854775807+-` add up to a word, but the first two do not. -/
example :
    let terms : List Term :=
      [⟨.plus, .ofString "9223372036854775807" rfl⟩, ⟨.plus, .ofString "" rfl⟩,
        ⟨.minus, .ofString "" rfl⟩]
    Overflows 0 terms ∧ IsSignedWord (total terms) := by
  decide

end Spelling

end Address

end Redline

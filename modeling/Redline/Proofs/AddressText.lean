import Redline.Proofs.Binds
import Redline.Proofs.DelimitedText
/-!
# Canonical addresses

What is read of an address is a base, and an offset within bounds unless the base goes on to
the end of the line.  Written in its canonical form an address is read as what it was,
whatever follows that does not go on with it.
-/

namespace Redline

open Canonical (endsOpen)

namespace Parser

variable {c : Char} {cs rest : List Char}

/-- What a reader makes of `cs`: nothing, or something that it takes off the front. -/
inductive Takes (P : α → List Char → Prop) (cs : List Char) : Option α → List Char → Prop
  | nothing : Takes P cs none cs
  | front {a : α} {rest : List Char} (suffix : rest <:+ cs) (holds : P a rest) :
    Takes P cs (some a) rest

theorem Takes.suffix {P : α → List Char → Prop} {o : Option α} (h : Takes P cs o rest) :
    rest <:+ cs := by
  cases h with
  | nothing => exact List.suffix_rfl
  | front hsuffix _ => exact hsuffix

theorem Takes.holds {P : α → List Char → Prop} {x : α} (h : Takes P cs (some x) rest) :
    P x rest := by
  cases h with
  | front _ hholds => exact hholds

/-! ## Offsets -/

/-- A character that goes on with neither a numeral nor an address. -/
structure EndsNumber (c : Char) : Prop where
  notDigit : c.isDigit = false
  notSign : sign? c = none

/-- Nothing follows that goes on with an address. -/
def EndsAddress (rest : List Char) : Prop :=
  ∀ c ∈ rest.head?, EndsNumber c

def termOf (n : Int) : Term :=
  ⟨decide (n < 0), (toString n.natAbs).toList⟩

theorem magnitude_termOf (n : Int) : (termOf n).magnitude = n.natAbs := by
  rw [Term.magnitude, termOf, if_neg (Text.toString_ne_nil _), Text.valueOf_toString]

theorem value_termOf (n : Int) : (termOf n).value = n := by
  rw [Term.value, magnitude_termOf]
  by_cases h : n < 0
  · rw [termOf, decide_eq_true h, if_pos rfl]
    omega
  · rw [termOf, decide_eq_false h, if_neg Bool.false_ne_true]
    omega

theorem terms_term (n : Int) (h : ∀ c ∈ rest.head?, c.isDigit = false) :
    terms (Canonical.term n ++ rest) = (termOf n :: (terms rest).1, (terms rest).2) := by
  have hsign : sign? (if n < 0 then '-' else '+') = some (decide (n < 0)) := by
    split
    · rw [decide_eq_true ‹_›]
      rfl
    · rw [decide_eq_false ‹_›]
      rfl
  rw [Canonical.term, List.cons_append, terms, hsign]
  dsimp only
  rw [digits_toString _ h]
  rfl

theorem terms_of_endsAddress (h : EndsAddress rest) : terms rest = ([], rest) := by
  cases rest with
  | nil => rw [terms]
  | cons c rest => rw [terms, (h c rfl).notSign]

theorem sumFrom_termOf {sum n : Int} {ts : List Term} (hn : n.natAbs ≤ Address.maxOffset)
    (hmin : Address.minOffset ≤ sum + n) (hmax : sum + n ≤ Address.maxOffset) :
    sumFrom sum (termOf n :: ts) = sumFrom (sum + n) ts := by
  rw [sumFrom, magnitude_termOf, value_termOf, if_neg (by omega), if_neg (by omega)]

theorem offset?_of_terms {t : Term} {ts : List Term} (h : terms cs = (t :: ts, rest)) :
    offset? cs = (sumFrom 0 (t :: ts)).map fun sum => (some sum, rest) := by
  rw [offset?, h]

theorem offset?_canonical {n : Int} (hmin : Address.minOffset ≤ n) (hmax : n ≤ Address.maxOffset)
    (h : EndsAddress rest) : offset? (Canonical.offset n ++ rest) = .ok (some n, rest) := by
  have hdigit : ∀ c ∈ rest.head?, c.isDigit = false := fun c hc => (h c hc).notDigit
  have hlast : ∀ m, terms (Canonical.term m ++ rest) = ([termOf m], rest) := by
    intro m
    rw [terms_term m hdigit, terms_of_endsAddress h]
  unfold Address.minOffset at hmin
  unfold Address.maxOffset at hmax
  unfold Canonical.offset
  split
  · rename_i hleast
    have hsign : ∀ c ∈ (Canonical.term (-1) ++ rest).head?, c.isDigit = false := by
      intro c hc
      cases hc
      rfl
    have hboth : terms (Canonical.term (n + 1) ++ Canonical.term (-1) ++ rest) =
        ([termOf (n + 1), termOf (-1)], rest) := by
      rw [List.append_assoc, terms_term _ hsign, hlast]
    rw [offset?_of_terms hboth, hleast, sumFrom_termOf (by decide) (by decide) (by decide),
      sumFrom_termOf (by decide) (by decide) (by decide)]
    rfl
  · rename_i hgreater
    unfold Address.minOffset at hgreater
    rw [offset?_of_terms (hlast n), sumFrom_termOf, sumFrom, Int.zero_add]
    · rfl
    all_goals
      simp only [Address.minOffset, Address.maxOffset]
      omega

theorem suffix_terms (cs : List Char) : (terms cs).2 <:+ cs := by
  induction cs using terms.induct with
  | case1 =>
    have hnone : terms [] = ([], []) := by rw [terms]
    exact hnone ▸ List.suffix_rfl
  | case2 c rest hsign =>
    have hnone : terms (c :: rest) = ([], c :: rest) := by rw [terms, hsign]
    exact hnone ▸ List.suffix_rfl
  | case3 c rest negative hsign _ _ _ ih =>
    rw [terms, hsign]
    exact (ih.trans (List.dropWhile_suffix _)).trans (List.suffix_cons _ _)

theorem eq_of_terms_eq_nil (h : terms cs = ([], rest)) : rest = cs := by
  cases cs with
  | nil =>
    rw [terms] at h
    cases h
    rfl
  | cons c more =>
    rw [terms] at h
    split at h
    · cases h
      rfl
    · cases h

theorem bounds_of_sumFrom {sum n : Int} {ts : List Term}
    (hsum : Address.minOffset ≤ sum ∧ sum ≤ Address.maxOffset) (h : sumFrom sum ts = .ok n) :
    Address.minOffset ≤ n ∧ n ≤ Address.maxOffset := by
  induction ts generalizing sum with
  | nil =>
    cases h
    exact hsum
  | cons t ts ih =>
    rw [sumFrom] at h
    split at h
    · cases h
    dsimp only at h
    split at h
    · cases h
    · exact ih (by omega) h

theorem offset?_takes {o : Option Int} (h : offset? cs = .ok (o, rest)) :
    Takes (fun n _ => Address.minOffset ≤ n ∧ n ≤ Address.maxOffset) cs o rest := by
  have hsuffix := suffix_terms cs
  cases hterms : terms cs with
  | mk ts left =>
    rw [hterms] at hsuffix
    cases ts with
    | nil =>
      rw [offset?, hterms] at h
      cases h
      rw [eq_of_terms_eq_nil hterms]
      exact .nothing
    | cons t ts =>
      rw [offset?_of_terms hterms] at h
      cases hsum : sumFrom 0 (t :: ts) with
      | error e =>
        rw [hsum] at h
        cases h
      | ok sum =>
        rw [hsum] at h
        cases h
        exact .front hsuffix (bounds_of_sumFrom (by decide) hsum)

end Parser

/-! ## Bases -/

namespace Address

/-- Whether the base is a pattern that goes on to the end of its line. -/
def Base.isOpen : Base → Bool
  | forward pattern | backward pattern => endsOpen pattern.toList
  | _ => false

def Base.WellFormed : Base → Prop
  | current | last | implied => True
  | number digits => ∃ n ≤ Redline.maxOffset, digits = toString n
  | mark name => ∃ c : Char, c.isLower = true ∧ name = c.toString
  | forward pattern => Parser.delimited '/' pattern.toList = (pattern.toList, [])
  | backward pattern => Parser.delimited '?' pattern.toList = (pattern.toList, [])

structure WellFormed (a : Address) : Prop where
  base : a.base.WellFormed
  offset_ge : minOffset ≤ a.offset
  offset_le : a.offset ≤ maxOffset
  offset_of_open : a.base.isOpen = true → a.offset = 0

theorem wellFormed_of_base {b : Base} (h : b.WellFormed) : WellFormed ⟨b, 0⟩ :=
  have hzero : minOffset ≤ 0 ∧ 0 ≤ maxOffset := by decide
  ⟨h, hzero.1, hzero.2, fun _ => rfl⟩

end Address

namespace Parser

open Address (Base)

variable {b : Base} {a : Address} {o : Option (Address × Address)}

structure IsBase (b : Base) (rest : List Char) : Prop where
  wellFormed : b.WellFormed
  written : b ≠ .implied
  rest_of_open : b.isOpen = true → rest = []

theorem isBase_of_closed (hb : b.WellFormed) (hwritten : b ≠ .implied)
    (hclosed : ¬b.isOpen = true) : IsBase b rest :=
  ⟨hb, hwritten, fun hopen => absurd hopen hclosed⟩

theorem isBase_forward (cs : List Char) :
    IsBase (.forward (String.ofList (delimited '/' cs).1)) (delimited '/' cs).2 :=
  have hpattern := isDelimited_ofList '/' cs
  ⟨hpattern.whole, by simp, hpattern.rest_of_open⟩

theorem isBase_backward (cs : List Char) :
    IsBase (.backward (String.ofList (delimited '?' cs).1)) (delimited '?' cs).2 :=
  have hpattern := isDelimited_ofList '?' cs
  ⟨hpattern.whole, by simp, hpattern.rest_of_open⟩

theorem base?_takes {o : Option Base} (h : base? cs = .ok (o, rest)) :
    Takes IsBase cs o rest := by
  cases cs with
  | nil =>
    cases h
    exact .nothing
  | cons c more =>
    have hcons : ∀ {rest : List Char}, rest <:+ more → rest <:+ c :: more := fun h =>
      h.trans (List.suffix_cons _ _)
    -- in the order of the reader: current line, last line, number, mark, patterns
    rw [base?.eq_def] at h
    dsimp only at h
    split at h
    · cases h
      exact .front (List.suffix_cons _ _) (isBase_of_closed trivial (by simp) (by decide))
    split at h
    · cases h
      exact .front (List.suffix_cons _ _) (isBase_of_closed trivial (by simp) (by decide))
    split at h
    · split at h
      · cases h
      · rename_i hword
        cases h
        exact .front (List.dropWhile_suffix _)
          (isBase_of_closed ⟨_, Nat.not_lt.mp hword, rfl⟩ (by simp) Bool.false_ne_true)
    split at h
    · cases more with
      | nil => cases h
      | cons name more =>
        dsimp only at h
        split at h
        · cases h
          exact .front (hcons (List.suffix_cons _ _))
            (isBase_of_closed ⟨name, ‹_›, rfl⟩ (by simp) Bool.false_ne_true)
        · cases h
    split at h
    · rename_i hslash
      cases h
      rw [hslash]
      exact .front (hslash ▸ hcons (suffix_delimited _ _)) (isBase_forward more)
    split at h
    · rename_i hquestion
      cases h
      rw [hquestion]
      exact .front (hquestion ▸ hcons (suffix_delimited _ _)) (isBase_backward more)
    · cases h
      exact .nothing

theorem base?_digits {ds : List Char} (hne : ds ≠ []) (hds : ∀ d ∈ ds, d.isDigit = true)
    (hrest : ∀ c ∈ rest.head?, c.isDigit = false) :
    base? (ds ++ rest) =
      if Redline.maxOffset < Text.valueOf ds then .error .numberOutOfRange
      else .ok (some (.number (toString (Text.valueOf ds))), rest) := by
  cases ds with
  | nil => exact absurd rfl hne
  | cons d ds =>
    have hd : d.isDigit = true := hds d List.mem_cons_self
    have hcurrent : d ≠ '.' := by
      rintro rfl
      exact absurd hd (by decide)
    have hlast : d ≠ '$' := by
      rintro rfl
      exact absurd hd (by decide)
    have hdigits := digits_append hds hrest
    rw [List.cons_append] at hdigits ⊢
    unfold base?
    dsimp only
    rw [if_neg hcurrent, if_neg hlast, if_pos hd, hdigits]

theorem base?_canonical (h : IsBase b rest) (hrest : ∀ c ∈ rest.head?, c.isDigit = false) :
    base? (Canonical.base b ++ rest) = .ok (some b, rest) := by
  obtain ⟨hb, hwritten, hopen⟩ := h
  cases b with
  | current => rfl
  | last => rfl
  | implied => exact absurd rfl hwritten
  | number ds =>
    obtain ⟨n, hn, rfl⟩ := hb
    rw [Canonical.base,
      base?_digits (Text.toString_ne_nil n) (fun _ hd => Text.isDigit_of_mem_toString hd) hrest,
      Text.valueOf_toString, if_neg (Nat.not_lt.mpr hn)]
  | mark name =>
    obtain ⟨c, hlower, rfl⟩ := hb
    rw [Canonical.base, Char.toString_eq_singleton, String.toList_singleton]
    simp [base?, hlower]
  | forward pattern =>
    have hread := delimited_canonical (by decide) ⟨hb, hopen⟩
    rw [Canonical.base, List.cons_append, canonical_delimited_append hopen]
    unfold base?
    dsimp only
    rw [hread, String.ofList_toList]
    rfl
  | backward pattern =>
    have hread := delimited_canonical (by decide) ⟨hb, hopen⟩
    rw [Canonical.base, List.cons_append, canonical_delimited_append hopen]
    unfold base?
    dsimp only
    rw [hread, String.ofList_toList]
    rfl

/-! ## Addresses -/

theorem exists_offset_eq_cons (n : Int) :
    ∃ c more, Canonical.offset n = c :: more ∧ (c = '+' ∨ c = '-') := by
  unfold Canonical.offset Canonical.term
  split
  · exact ⟨_, _, rfl, by split <;> simp⟩
  · exact ⟨_, _, rfl, by split <;> simp⟩

theorem offset?_of_endsAddress (h : EndsAddress rest) : offset? rest = .ok (none, rest) := by
  rw [offset?, terms_of_endsAddress h]

structure IsAddress (a : Address) (rest : List Char) : Prop where
  wellFormed : a.WellFormed
  rest_of_open : a.base.isOpen = true → rest = []

theorem address?_takes {o : Option Address} (h : address? cs = .ok (o, rest)) :
    Takes IsAddress cs o rest := by
  obtain ⟨⟨b, middle⟩, hbase, h⟩ := exists_of_bind_eq_ok h
  obtain ⟨⟨n, left⟩, hoffset, h⟩ := exists_of_bind_eq_ok h
  cases base?_takes hbase with
  | nothing =>
    cases offset?_takes hoffset with
    | nothing =>
      cases h
      exact .nothing
    | front hsuffix hbounds =>
      cases h
      exact .front hsuffix
        ⟨⟨trivial, hbounds.1, hbounds.2, fun hopen => by cases hopen⟩, fun hopen => by cases hopen⟩
  | front hfront hb =>
    cases offset?_takes hoffset with
    | nothing =>
      cases h
      exact .front hfront ⟨Address.wellFormed_of_base hb.wellFormed, hb.rest_of_open⟩
    | front hsuffix hbounds =>
      cases h
      -- no offset stands behind an open pattern
      have hclosed : ∀ {P : Prop}, Base.isOpen _ = true → P := fun hopen => by
        rw [hb.rest_of_open hopen, offset?_of_endsAddress fun c hc => by cases hc] at hoffset
        cases hoffset
      exact .front (hsuffix.trans hfront)
        ⟨⟨hb.wellFormed, hbounds.1, hbounds.2, hclosed⟩, hclosed⟩

theorem address?_canonical (h : IsAddress a rest) (hrest : EndsAddress rest) :
    address? (Canonical.address a ++ rest) = .ok (some a, rest) := by
  obtain ⟨⟨hb, hmin, hmax, hzero⟩, hopen⟩ := h
  obtain ⟨b, n⟩ := a
  dsimp only at hb hmin hmax hzero hopen
  have hdigit : ∀ c ∈ rest.head?, c.isDigit = false := fun c hc => (hrest c hc).notDigit
  obtain ⟨sign, more, hoffset, hsign⟩ := exists_offset_eq_cons n
  have hread := offset?_canonical hmin hmax hrest
  unfold Canonical.address
  dsimp only
  by_cases himplied : b = .implied
  · have hnone : base? (Canonical.offset n ++ rest) = .ok (none, Canonical.offset n ++ rest) := by
      rw [hoffset]
      rcases hsign with rfl | rfl <;> rfl
    rw [himplied, if_neg (by simp), Canonical.base, List.nil_append, address?, hnone]
    change (offset? _ >>= fun p => _) = _
    rw [hread]
    rfl
  by_cases hn : n = 0
  · rw [if_pos ⟨hn, himplied⟩, List.append_nil, address?,
      base?_canonical ⟨hb, himplied, hopen⟩ hdigit]
    change (offset? _ >>= fun p => _) = _
    rw [offset?_of_endsAddress hrest, hn]
    rfl
  · have hclosed : b.isOpen = true → Canonical.offset n ++ rest = [] := fun hopen =>
      absurd (hzero hopen) hn
    have hnotDigit : ∀ c ∈ (Canonical.offset n ++ rest).head?, c.isDigit = false := by
      rw [hoffset]
      intro c hc
      cases hc
      rcases hsign with rfl | rfl <;> rfl
    rw [if_neg (fun h => hn h.1), List.append_assoc, address?,
      base?_canonical ⟨hb, himplied, hclosed⟩ hnotDigit]
    change (offset? _ >>= fun p => _) = _
    rw [hread]
    rfl

/-! ## Ranges -/

theorem suffix_skipSeparators (cs : List Char) : skipSeparators cs <:+ cs :=
  List.dropWhile_suffix _

theorem skipSeparators_cons (h : isSeparator c = false) (rest : List Char) :
    skipSeparators (c :: rest) = c :: rest :=
  List.dropWhile_cons_of_neg (by rw [h]; exact Bool.false_ne_true)

theorem isSeparator_eq_false {p : Char → Bool} (hp : (p ' ' || p '\t') = false)
    (hc : p c = true) : isSeparator c = false := by
  rw [Bool.or_eq_false_iff] at hp
  rw [isSeparator, Bool.or_eq_false_iff, decide_eq_false_iff_not, decide_eq_false_iff_not]
  constructor
  · rintro rfl
    exact absurd hc (by rw [hp.1]; exact Bool.false_ne_true)
  · rintro rfl
    exact absurd hc (by rw [hp.2]; exact Bool.false_ne_true)

theorem exists_address_eq_cons (h : a.WellFormed) :
    ∃ c more, Canonical.address a = c :: more ∧ isSeparator c = false := by
  obtain ⟨b, n⟩ := a
  unfold Canonical.address
  cases b with
  | current => exact ⟨_, _, rfl, rfl⟩
  | last => exact ⟨_, _, rfl, rfl⟩
  | number ds =>
    obtain ⟨m, -, hm⟩ := h.base
    dsimp only at hm ⊢
    rw [Canonical.base, hm]
    cases hlist : (toString m).toList with
    | nil => exact absurd hlist (Text.toString_ne_nil m)
    | cons d ds =>
      have hd : d.isDigit = true := Text.isDigit_of_mem_toString (hlist ▸ List.mem_cons_self)
      exact ⟨d, _, rfl, isSeparator_eq_false (by decide) hd⟩
  | implied =>
    obtain ⟨c, more, hoffset, hsign⟩ := exists_offset_eq_cons n
    refine ⟨c, more, ?_, ?_⟩
    · rw [if_neg (by simp)]
      exact hoffset
    · rcases hsign with rfl | rfl <;> rfl
  | mark name => exact ⟨_, _, rfl, rfl⟩
  | forward pattern => exact ⟨_, _, rfl, rfl⟩
  | backward pattern => exact ⟨_, _, rfl, rfl⟩

theorem skipSeparators_address (h : a.WellFormed) (rest : List Char) :
    skipSeparators (Canonical.address a ++ rest) = Canonical.address a ++ rest := by
  obtain ⟨c, more, haddress, hc⟩ := exists_address_eq_cons h
  rw [haddress, List.cons_append, skipSeparators_cons hc]

/-- A pair of addresses that ends the line if it is open.  Nothing stands behind an open first
address, so that it is the second one, too. -/
structure IsRange (p : Address × Address) (rest : List Char) : Prop where
  first : p.1.WellFormed
  last : IsAddress p.2 rest
  eq_of_open : p.1.base.isOpen = true → p.1 = p.2

structure EndsRange (c : Char) : Prop where
  endsNumber : EndsNumber c
  notSeparator : isSeparator c = false
  notRange : separator? c = none
  notBase : ∀ rest, base? (c :: rest) = .ok (none, c :: rest)

theorem isRange_alone (h : IsAddress a rest) : IsRange (a, a) rest :=
  ⟨h.wellFormed, h, fun _ => rfl⟩

theorem wellFormed_of_separator? (h : separator? c = some a) :
    a.WellFormed ∧ ¬a.base.isOpen = true := by
  unfold separator? at h
  split at h
  · cases h
    exact ⟨Address.wellFormed_of_base ⟨1, by decide, rfl⟩, Bool.false_ne_true⟩
  split at h
  · cases h
    exact ⟨Address.wellFormed_of_base trivial, Bool.false_ne_true⟩
  · cases h

theorem isAddress_last (rest : List Char) : IsAddress .last rest :=
  ⟨Address.wellFormed_of_base trivial, fun hopen => absurd hopen Bool.false_ne_true⟩

/-- What the reader of a range leaves and gives. -/
theorem range?_eq_ok (h : range? cs = .ok (o, rest)) :
    rest <:+ cs ∧ ∀ p ∈ o, IsRange p rest := by
  obtain ⟨⟨first, middle⟩, hfirst, h⟩ := exists_of_bind_eq_ok h
  have hfirst := address?_takes hfirst
  have hsuffix := (suffix_skipSeparators middle).trans hfirst.suffix
  dsimp only at h
  cases hskip : skipSeparators middle with
  | nil =>
    rw [hskip] at h
    cases h
    refine ⟨List.nil_suffix, fun p hp => ?_⟩
    obtain ⟨a, rfl, rfl⟩ := Option.map_eq_some_iff.mp hp
    exact isRange_alone ⟨hfirst.holds.wellFormed, fun _ => rfl⟩
  | cons c more =>
    rw [hskip] at h hsuffix
    -- something stands behind the first address
    have hclosed : ∀ {a : Address} {P : Prop}, first = some a → a.base.isOpen = true → P := by
      rintro a P rfl hopen
      rw [hfirst.holds.rest_of_open hopen] at hskip
      cases hskip
    cases hseparator : separator? c with
    | none =>
      simp only [hseparator] at h
      cases h
      refine ⟨hsuffix, fun p hp => ?_⟩
      obtain ⟨a, rfl, rfl⟩ := Option.map_eq_some_iff.mp hp
      exact isRange_alone ⟨hfirst.holds.wellFormed, hclosed rfl⟩
    | some start =>
      simp only [hseparator] at h
      obtain ⟨⟨second, left⟩, hsecond, h⟩ := exists_of_bind_eq_ok h
      obtain ⟨hstart, hstartClosed⟩ := wellFormed_of_separator? hseparator
      have hsecond := address?_takes hsecond
      have hleft := (hsecond.suffix.trans (suffix_skipSeparators more)).trans
        ((List.suffix_cons _ _).trans hsuffix)
      have hpair : ∀ {p : Address × Address}, IsRange p left →
          left <:+ cs ∧ ∀ q ∈ some p, IsRange q left := fun hp =>
        ⟨hleft, fun q hq => by cases hq; exact hp⟩
      cases first with
      | none =>
        cases second with
        | none =>
          cases h
          exact hpair ⟨hstart, isAddress_last _, fun hopen => absurd hopen hstartClosed⟩
        | some b =>
          cases h
          exact hpair ⟨hstart, hsecond.holds, fun hopen => absurd hopen hstartClosed⟩
      | some a =>
        cases second with
        | none =>
          cases h
          exact hpair (isRange_alone ⟨hfirst.holds.wellFormed, hclosed rfl⟩)
        | some b =>
          cases h
          exact hpair ⟨hfirst.holds.wellFormed, hsecond.holds, hclosed rfl⟩

theorem range?_none (h : ∀ c ∈ rest.head?, EndsRange c) : range? rest = .ok (none, rest) := by
  have hoffset : offset? rest = .ok (none, rest) :=
    offset?_of_endsAddress fun c hc => (h c hc).endsNumber
  have haddress : address? rest = .ok (none, rest) := by
    have hbase : base? rest = .ok (none, rest) := by
      cases rest with
      | nil => rfl
      | cons c more => exact (h c rfl).notBase more
    rw [address?, hbase]
    dsimp only [bind, Except.bind]
    rw [hoffset]
    rfl
  rw [range?, haddress]
  dsimp only [bind, Except.bind]
  cases rest with
  | nil => rfl
  | cons c more =>
    rw [skipSeparators_cons (h c rfl).notSeparator]
    dsimp only
    rw [(h c rfl).notRange]
    rfl

/-- Two addresses are read as they were written, even if they are the same. -/
theorem range?_pair {first last : Address} (hfirst : first.WellFormed)
    (hclosed : ¬first.base.isOpen = true) (hlast : IsAddress last rest)
    (hrest : ∀ c ∈ rest.head?, EndsRange c) :
    range? (Canonical.address first ++ ',' :: (Canonical.address last ++ rest)) =
      .ok (some (first, last), rest) := by
  have hend : EndsAddress rest := fun c hc => (hrest c hc).endsNumber
  have hcomma : EndsAddress (',' :: (Canonical.address last ++ rest)) := by
    intro c hc
    cases hc
    exact ⟨by decide, by decide⟩
  rw [range?, address?_canonical ⟨hfirst, fun h => absurd h hclosed⟩ hcomma]
  change (address? (skipSeparators (Canonical.address last ++ rest)) >>= fun p => _) = _
  rw [skipSeparators_address hlast.wellFormed, address?_canonical hlast hend]
  rfl

theorem range?_canonical {p : Address × Address} (h : IsRange p rest)
    (hrest : ∀ c ∈ rest.head?, EndsRange c) :
    range? (Canonical.range (some p.1) (some p.2) ++ rest) = .ok (some p, rest) := by
  obtain ⟨first, last⟩ := p
  obtain ⟨hfirst, hlast, hopen⟩ := h
  dsimp only at hfirst hlast hopen ⊢
  unfold Canonical.range
  dsimp only
  by_cases heq : first = last
  · subst heq
    rw [if_pos rfl, range?, address?_canonical hlast fun c hc => (hrest c hc).endsNumber]
    dsimp only [bind, Except.bind]
    cases rest with
    | nil => rfl
    | cons c more =>
      rw [skipSeparators_cons (hrest c rfl).notSeparator]
      dsimp only
      rw [(hrest c rfl).notRange]
      rfl
  · rw [if_neg heq, List.append_assoc, List.cons_append]
    exact range?_pair hfirst (fun h => absurd (hopen h) heq) hlast hrest

theorem range?_written (h : ∀ p ∈ o, IsRange p rest) (hrest : ∀ c ∈ rest.head?, EndsRange c) :
    range? (Canonical.range (o.map (·.1)) (o.map (·.2)) ++ rest) = .ok (o, rest) := by
  cases o with
  | none => exact range?_none hrest
  | some p => exact range?_canonical (h p rfl) hrest

theorem skipSeparators_range (h : ∀ p ∈ o, IsRange p rest) (hrest : ∀ c ∈ rest.head?, EndsRange c) :
    skipSeparators (Canonical.range (o.map (·.1)) (o.map (·.2)) ++ rest) =
      Canonical.range (o.map (·.1)) (o.map (·.2)) ++ rest := by
  cases o with
  | none =>
    cases rest with
    | nil => rfl
    | cons c more => exact skipSeparators_cons (hrest c rfl).notSeparator _
  | some p =>
    have hfirst := (h p rfl).first
    simp only [Option.map_some, Canonical.range]
    split
    · exact skipSeparators_address hfirst _
    · rw [List.append_assoc]
      exact skipSeparators_address hfirst _

/-! ## No line end is written -/

theorem noLineEnd_term (n : Int) : NoLineEnd (Canonical.term n) :=
  (noLineEnd_toString _).cons (by split <;> rfl)

theorem noLineEnd_offset (n : Int) : NoLineEnd (Canonical.offset n) := by
  unfold Canonical.offset
  split
  · exact (noLineEnd_term _).append (noLineEnd_term _)
  · exact noLineEnd_term n

theorem noLineEnd_base (h : b.WellFormed) : NoLineEnd (Canonical.base b) := by
  cases b with
  | current => exact noLineEnd_singleton rfl
  | last => exact noLineEnd_singleton rfl
  | implied => exact noLineEnd_nil
  | number ds =>
    obtain ⟨n, -, rfl⟩ := h
    exact noLineEnd_toString n
  | mark name =>
    obtain ⟨c, hlower, rfl⟩ := h
    rw [Canonical.base, Char.toString_eq_singleton, String.toList_singleton]
    exact (noLineEnd_singleton (endsLine_eq_false (by decide) hlower)).cons rfl
  | forward pattern => exact (noLineEnd_delimited rfl noLineEnd_nil).cons rfl
  | backward pattern => exact (noLineEnd_delimited rfl noLineEnd_nil).cons rfl

theorem noLineEnd_address (h : a.WellFormed) : NoLineEnd (Canonical.address a) := by
  refine (noLineEnd_base h.base).append ?_
  split
  · exact noLineEnd_nil
  · exact noLineEnd_offset _

theorem noLineEnd_range (h : ∀ p ∈ o, IsRange p rest) :
    NoLineEnd (Canonical.range (o.map (·.1)) (o.map (·.2))) := by
  cases o with
  | none => exact noLineEnd_nil
  | some p =>
    have hp := h p rfl
    simp only [Option.map_some, Canonical.range]
    split
    · exact noLineEnd_address hp.first
    · exact (noLineEnd_address hp.first).append
        ((noLineEnd_address hp.last.wellFormed).cons rfl)

end Parser

end Redline

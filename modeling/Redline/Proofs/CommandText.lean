import Redline.Proofs.AddressText
/-!
# Canonical command lines

A command that was read off a line is read again from its canonical line.  The letter settles
the form, the form what may stand behind the letter, and nothing that a reader leaves behind
can be taken for a part of what it read.
-/

namespace Redline

open Canonical (endsOpen)

/-! ## Operands -/

namespace Operand

open Redline.Parser

variable {close : Char} {o : Operand}

structure IsFileName (name : List Char) : Prop where
  ne_nil : name ≠ []
  trimmed : Text.IsTrimmed name

/-- An operand as it can be written.  What stands behind an open pattern is empty. -/
def WellFormed : Operand → Prop
  | nothing | pattern _ => True
  | file name => ∀ p ∈ name, IsFileName p.text.toList
  | mark name => ∃ c : Char, c.isLower = true ∧ name = c.toString
  | destination a => ∃ b : Address, a = some b ∧ b.WellFormed
  | patternAndRest text commands =>
    (endsOpen text.toList = true → commands.toList = []) ∧ NoLineEnd commands.toList
  | substitution text replacement flags =>
    (endsOpen text.toList = true → replacement.toList = [] ∧ flags.toList = []) ∧
      (endsOpen replacement.toList = true → flags.toList = []) ∧ NoLineEnd flags.toList
  | rest text => NoLineEnd text.toList

/-- A character by which the parts of the operand are read whole. -/
structure Delimits (close : Char) (o : Operand) : Prop where
  notBlank : Text.isBlank close = false
  notBackslash : close ≠ '\\'
  whole : ∀ part ∈ o.parts, delimited close part.toList = (part.toList, [])

theorem IsDelimiter.delimits (h : o.IsDelimiter close) : Delimits close o :=
  ⟨h.notBlank, h.notBackslash, fun part hpart =>
    delimited_of_not_mem (h.notMem part hpart) h.notBackslash.symm⟩

theorem delimits_of_parts_eq_nil (h : o.parts = []) : Delimits '/' o :=
  ⟨by decide, by decide, fun part hpart => by rw [h] at hpart; cases hpart⟩

end Operand

namespace Parser

variable {close letter : Char} {cs left : List Char} {f : Form} {v : Verb} {o : Operand}

inductive Form.Makes : Form → Verb → Operand → Prop
  | bare (v : Verb) : Makes (.bare v) v .nothing
  | file (verb : Option Path → Verb) (name : Option Path) :
    Makes (.file verb) (verb name) (.file name)
  | mark (name : String) : Makes .mark (.mark name) (.mark name)
  | destination (verb : Option Address → Verb) (a : Option Address) :
    Makes (.destination verb) (verb a) (.destination a)
  | pattern (verb : String → Verb) (text : String) :
    Makes (.pattern verb) (verb text) (.pattern text)
  | patternAndRest (verb : String → String → Verb) (text commands : String) :
    Makes (.patternAndRest verb) (verb text commands) (.patternAndRest text commands)
  | substitution (text replacement flags : String) :
    Makes .substitution (.substitute text replacement flags)
      (.substitution text replacement flags)
  | rest (verb : String → Verb) (text : String) : Makes (.rest verb) (verb text) (.rest text)

theorem Form.Makes.written (h : f.Makes v o) (hletter : Form.ofLetter? letter = some f) :
    v.letter? = some letter ∧ v.operand = o ∧
      v.defaultRange?.isSome = f.takesAddress := by
  unfold Form.ofLetter? at hletter
  split at hletter <;> cases hletter <;> cases h <;> exact ⟨rfl, rfl, rfl⟩

theorem endsRange_of_ofLetter? (h : Form.ofLetter? letter = some f) :
    EndsRange letter ∧ NoLineEnd [letter] := by
  unfold Form.ofLetter? at h
  split at h <;> cases h <;>
    exact ⟨⟨⟨by decide, by decide⟩, by decide, by decide, fun _ => rfl⟩,
      noLineEnd_singleton (by decide)⟩

theorem fileOperand_eq_ok {name : Option Path} (h : fileOperand cs = .ok (name, left)) :
    ∀ p ∈ name, Operand.IsFileName p.text.toList := by
  unfold fileOperand at h
  cases cs with
  | nil =>
    cases h
    intro p hp
    cases hp
  | cons c more =>
    dsimp only at h
    split at h
    · cases h
      intro p hp
      split at hp
      · cases hp
      · rename_i hne
        cases hp
        rw [String.toList_ofList]
        exact ⟨hne, Text.isTrimmed_trim more⟩
    · cases h

theorem fileOperand_canonical {name : Option Path}
    (h : ∀ p ∈ name, Operand.IsFileName p.text.toList) (close : Char) :
    fileOperand (Canonical.operand close (.file name)) = .ok (name, []) := by
  cases name with
  | none => rfl
  | some p =>
    obtain ⟨hne, htrimmed⟩ := h p rfl
    simp only [Canonical.operand, Option.map_some, Option.getD_some, fileOperand]
    rw [if_pos (by decide), htrimmed.trim_eq, if_neg hne, String.ofList_toList]

theorem patternDelimiter_eq_ok (h : patternDelimiter cs = .ok (close, left)) :
    Text.isBlank close = false ∧ close ≠ '\\' ∧ cs = close :: left := by
  unfold patternDelimiter at h
  cases cs with
  | nil => cases h
  | cons c more =>
    dsimp only at h
    split at h
    · cases h
    · rename_i hgood
      cases h
      rw [Bool.or_eq_true, not_or, decide_eq_true_eq] at hgood
      exact ⟨eq_false_of_ne_true hgood.1, hgood.2, rfl⟩

theorem patternDelimiter_cons (hblank : Text.isBlank close = false) (hescape : close ≠ '\\')
    (cs : List Char) : patternDelimiter (close :: cs) = .ok (close, cs) := by
  rw [patternDelimiter, if_neg (by simp [hblank, hescape])]

theorem Form.exists_of_read (h : f.read cs = .ok (v, left)) (hcs : NoLineEnd cs) :
    ∃ o, f.Makes v o ∧ o.WellFormed ∧ ∃ close, o.Delimits close := by
  cases f with
  | bare w =>
    cases h
    exact ⟨_, .bare _, trivial, '/', Operand.delimits_of_parts_eq_nil rfl⟩
  | file verb =>
    obtain ⟨⟨name, more⟩, hname, h⟩ := exists_of_bind_eq_ok h
    cases h
    exact ⟨_, .file verb name, fileOperand_eq_ok hname, '/', Operand.delimits_of_parts_eq_nil rfl⟩
  | mark =>
    cases cs with
    | nil => cases h
    | cons name more =>
      rw [Form.read] at h
      split at h
      · cases h
        exact ⟨_, .mark _, ⟨name, ‹_›, rfl⟩, '/', Operand.delimits_of_parts_eq_nil rfl⟩
      · cases h
  | destination verb =>
    obtain ⟨⟨a, more⟩, haddress, h⟩ := exists_of_bind_eq_ok h
    cases a with
    | none => cases h
    | some a =>
      cases h
      exact ⟨_, .destination verb _, ⟨a, rfl, (address?_takes haddress).holds.wellFormed⟩, '/',
        Operand.delimits_of_parts_eq_nil rfl⟩
  | pattern verb =>
    obtain ⟨⟨close, more⟩, hclose, hread⟩ := exists_of_bind_eq_ok h
    obtain ⟨hblank, hescape, -⟩ := patternDelimiter_eq_ok hclose
    cases hread
    -- the character behind the letter is one that ends the pattern where it ended
    refine ⟨_, .pattern verb _, trivial, close, hblank, hescape, fun part hpart => ?_⟩
    rw [List.mem_singleton.mp hpart]
    exact (isDelimited_ofList close more).whole
  | patternAndRest verb =>
    obtain ⟨⟨close, more⟩, hclose, hread⟩ := exists_of_bind_eq_ok h
    obtain ⟨hblank, hescape, hmore⟩ := patternDelimiter_eq_ok hclose
    have hsuffix := (suffix_delimited close more).trans (hmore ▸ List.suffix_cons close more)
    cases hread
    refine ⟨_, .patternAndRest verb _ _, ?_, close, hblank, hescape, fun part hpart => ?_⟩
    · rw [Operand.WellFormed, @String.toList_ofList (delimited close more).2]
      exact ⟨(isDelimited_ofList close more).rest_of_open, hcs.suffix hsuffix⟩
    · rw [List.mem_singleton.mp hpart]
      exact (isDelimited_ofList close more).whole
  | substitution =>
    obtain ⟨⟨close, more⟩, hclose, hread⟩ := exists_of_bind_eq_ok h
    obtain ⟨hblank, hescape, hmore⟩ := patternDelimiter_eq_ok hclose
    have hsuffix := (suffix_delimited close more).trans (hmore ▸ List.suffix_cons close more)
    have hflags := (suffix_delimited close (delimited close more).2).trans hsuffix
    cases hread
    refine ⟨_, .substitution _ _ _, ?_, close, hblank, hescape, fun part hpart => ?_⟩
    · rw [Operand.WellFormed, @String.toList_ofList (delimited close (delimited close more).2).2]
      refine ⟨fun hopen => ?_, (isDelimited_ofList close _).rest_of_open, hcs.suffix hflags⟩
      rw [(isDelimited_ofList close more).rest_of_open hopen]
      exact ⟨rfl, rfl⟩
    · rcases List.mem_cons.mp hpart with rfl | hpart
      · exact (isDelimited_ofList close more).whole
      · rw [List.mem_singleton.mp hpart]
        exact (isDelimited_ofList close _).whole
  | rest verb =>
    cases h
    refine ⟨_, .rest verb _, ?_, '/', Operand.delimits_of_parts_eq_nil rfl⟩
    rwa [Operand.WellFormed, String.toList_ofList]

theorem Form.Makes.read_canonical (h : f.Makes v o) (ho : o.WellFormed)
    (hclose : o.Delimits close) : f.read (Canonical.operand close o) = .ok (v, []) := by
  obtain ⟨hblank, hescape, hwhole⟩ := hclose
  cases h with
  | bare v => rfl
  | file verb name =>
    rw [Form.read, fileOperand_canonical ho]
    rfl
  | mark name =>
    obtain ⟨c, hlower, rfl⟩ := ho
    rw [Canonical.operand, Char.toString_eq_singleton, String.toList_singleton]
    simp [Form.read, hlower]
  | destination verb a =>
    obtain ⟨b, rfl, hb⟩ := ho
    have hskip := skipSeparators_address hb []
    have hread := address?_canonical ⟨hb, fun _ => rfl⟩ (fun c hc => by cases hc)
    rw [List.append_nil] at hskip hread
    simp only [Canonical.operand, Option.map_some, Option.getD_some, Form.read]
    rw [hskip, hread]
    rfl
  | pattern verb text =>
    have hread := delimited_canonical hescape.symm
      ⟨hwhole text List.mem_cons_self, fun _ => rfl⟩
    rw [Form.read, Canonical.operand, patternDelimiter_cons hblank hescape]
    dsimp only [bind, Except.bind]
    rw [hread]
    dsimp only
    rw [String.ofList_toList]
    rfl
  | patternAndRest verb text commands =>
    have hread := delimited_canonical hescape.symm
      ⟨hwhole text List.mem_cons_self, ho.1⟩
    rw [Form.read, Canonical.operand, patternDelimiter_cons hblank hescape]
    dsimp only [bind, Except.bind]
    rw [hread]
    dsimp only
    rw [String.ofList_toList, String.ofList_toList]
    rfl
  | substitution text replacement flags =>
    obtain ⟨hopen, hopen', -⟩ := ho
    have hread := hwhole text List.mem_cons_self
    have hread' := delimited_canonical hescape.symm
      ⟨hwhole replacement (List.mem_cons_of_mem _ List.mem_cons_self), hopen'⟩
    rw [Form.read, Canonical.operand, patternDelimiter_cons hblank hescape]
    dsimp only [bind, Except.bind]
    by_cases hends : endsOpen text.toList = true
    · -- the line ends with the pattern, and both other parts are empty
      obtain ⟨hreplacement, hflags⟩ := hopen hends
      rw [String.toList_eq_nil_iff] at hreplacement hflags
      rw [Canonical.delimited, if_pos hends, hread, hreplacement, hflags]
      dsimp only
      rw [String.ofList_toList]
      rfl
    · rw [delimited_canonical hescape.symm ⟨hread, fun h => absurd h hends⟩]
      dsimp only
      rw [hread']
      dsimp only
      rw [String.ofList_toList, String.ofList_toList, String.ofList_toList]
      rfl
  | rest verb text =>
    rw [Form.read, Canonical.operand, String.ofList_toList]

theorem noLineEnd_operand (h : o.WellFormed) (hclose : Text.isBlank close = false) :
    NoLineEnd (Canonical.operand close o) := by
  have hclose : endsLine close = false :=
    endsLine_eq_false (p := fun c => !Text.isBlank c) (by decide) (by rw [hclose]; rfl)
  cases o with
  | nothing => exact noLineEnd_nil
  | file name =>
    cases name with
    | none => exact noLineEnd_nil
    | some p =>
      refine NoLineEnd.cons (fun c hc => ?_) rfl
      have hblank := (h p rfl).trimmed.last c hc
      exact endsLine_eq_false (p := fun c => !Text.isBlank c) (by decide) (by rw [hblank]; rfl)
  | mark name =>
    obtain ⟨c, hlower, rfl⟩ := h
    rw [Canonical.operand, Char.toString_eq_singleton, String.toList_singleton]
    exact noLineEnd_singleton (endsLine_eq_false (by decide) hlower)
  | destination a =>
    obtain ⟨b, rfl, hb⟩ := h
    exact noLineEnd_address hb
  | pattern text => exact (noLineEnd_delimited hclose noLineEnd_nil).cons hclose
  | patternAndRest text commands => exact (noLineEnd_delimited hclose h.2).cons hclose
  | substitution text replacement flags =>
    exact (noLineEnd_delimited hclose (noLineEnd_delimited hclose h.2.2)).cons hclose
  | rest text => exact h

/-! ## Commands -/

inductive IsWritten : Verb → Prop
  | goTo : IsWritten .goTo
  | lettered {letter : Char} {f : Form} {v : Verb} {o : Operand}
    (letter_eq : Form.ofLetter? letter = some f) (makes : f.Makes v o) (operand : o.WellFormed) :
    IsWritten v

theorem IsWritten.operand_wellFormed (h : IsWritten v) : v.operand.WellFormed := by
  cases h with
  | goTo => exact trivial
  | lettered hletter hmakes ho =>
    rw [(hmakes.written hletter).2.1]
    exact ho

theorem verb_canonical {addressed : Bool} (hletter : Form.ofLetter? letter = some f)
    (h : f.Makes v o) (ho : o.WellFormed) (hclose : o.Delimits close)
    (haddressed : addressed = true → f.takesAddress = true) :
    verb addressed letter (Canonical.operand close o) = .ok v := by
  have hguard : (addressed && !f.takesAddress) = false := by
    cases haddr : addressed with
    | false => rfl
    | true => rw [haddressed haddr]; rfl
  rw [verb, hletter]
  dsimp only
  rw [hguard, h.read_canonical ho hclose]
  rfl

theorem exists_of_verb {addressed : Bool} (h : verb addressed letter cs = .ok v)
    (hcs : NoLineEnd cs) :
    IsWritten v ∧ (addressed = true → v.defaultRange?.isSome = true) ∧
      ∃ close, v.operand.Delimits close := by
  unfold verb at h
  cases hletter : Form.ofLetter? letter with
  | none =>
    rw [hletter] at h
    cases h
  | some f =>
    rw [hletter] at h
    dsimp only at h
    cases hguard : addressed && !f.takesAddress with
    | true =>
      rw [hguard] at h
      cases h
    | false =>
      rw [hguard] at h
      obtain ⟨⟨w, left⟩, hread, hend⟩ := exists_of_bind_eq_ok h
      dsimp only at hend
      split at hend
      · cases hend
        obtain ⟨o, hmakes, ho, close, hclose⟩ := Form.exists_of_read hread hcs
        obtain ⟨-, hoperand, hdefault⟩ := hmakes.written hletter
        refine ⟨.lettered hletter hmakes ho, ?_, close, hoperand ▸ hclose⟩
        rintro rfl
        rw [hdefault]
        simpa using hguard
      · cases hend

theorem noLineEnd_verb (h : IsWritten v) (hclose : Text.isBlank close = false) :
    NoLineEnd (v.letter?.toList ++ Canonical.operand close v.operand) := by
  cases h with
  | goTo => exact noLineEnd_nil
  | lettered hletter hmakes ho =>
    obtain ⟨hwritten, hoperand, -⟩ := hmakes.written hletter
    rw [hwritten, hoperand]
    exact (endsRange_of_ofLetter? hletter).2.append (noLineEnd_operand ho hclose)

theorem IsRange.cons {p : Address × Address} {c : Char} (h : IsRange p [c]) (rest : List Char) :
    IsRange p (c :: rest) :=
  ⟨h.first, ⟨h.last.wellFormed, fun hopen => by cases h.last.rest_of_open hopen⟩, h.eq_of_open⟩

/-- Behind a range a verb is read as what it was. -/
theorem command_lettered {r : Option (Address × Address)} (hletter : Form.ofLetter? letter = some f)
    (hmakes : f.Makes v o) (ho : o.WellFormed) (hclose : o.Delimits close)
    (haddressed : r.isSome = true → f.takesAddress = true) (hskip : skipSeparators cs = cs)
    (hrange : range? cs = .ok (r, letter :: Canonical.operand close o)) :
    command cs = .ok ⟨v, r.map (·.1), r.map (·.2)⟩ := by
  rw [command, hskip, hrange]
  dsimp only [bind, Except.bind]
  rw [skipSeparators_cons (endsRange_of_ofLetter? hletter).1.notSeparator]
  dsimp only
  rw [verb_canonical hletter hmakes ho hclose haddressed]
  rfl

theorem command_canonical {r : Option (Address × Address)} (h : IsWritten v)
    (hclose : v.operand.Delimits close) (hrange : ∀ p ∈ r, IsRange p v.letter?.toList)
    (haddressed : r.isSome = true → v.defaultRange?.isSome = true) :
    command (Canonical.range (r.map (·.1)) (r.map (·.2)) ++
        (v.letter?.toList ++ Canonical.operand close v.operand)) =
      .ok ⟨v, r.map (·.1), r.map (·.2)⟩ := by
  cases h with
  | goTo =>
    have hend : ∀ c ∈ ([] : List Char).head?, EndsRange c := fun c hc => by cases hc
    have hrange : ∀ p ∈ r, IsRange p [] := hrange
    change command (_ ++ []) = _
    rw [command, skipSeparators_range hrange hend, range?_written hrange hend]
    rfl
  | @lettered letter f _ o hletter hmakes ho =>
    obtain ⟨hwritten, hoperand, hdefault⟩ := hmakes.written hletter
    rw [hwritten, Option.toList_some] at hrange ⊢
    rw [hoperand] at hclose ⊢
    rw [hdefault] at haddressed
    have hend : ∀ c ∈ (letter :: Canonical.operand close o).head?, EndsRange c := fun c hc =>
      Option.some.inj hc ▸ (endsRange_of_ofLetter? hletter).1
    have hrange := fun p hp => (hrange p hp).cons (Canonical.operand close o)
    rw [List.singleton_append]
    exact command_lettered hletter hmakes ho hclose haddressed (skipSeparators_range hrange hend)
      (range?_written hrange hend)

end Parser

namespace Command

open Redline.Parser

variable {c : Command} {close : Char} {line : String}

structure WellFormed (c : Command) : Prop where
  range : ∃ r : Option (Address × Address), c.first = r.map (·.1) ∧ c.last = r.map (·.2) ∧
    ∀ p ∈ r, IsRange p c.verb.letter?.toList
  verb : IsWritten c.verb
  addressed : c.first.isSome = true → c.verb.defaultRange?.isSome = true

theorem parse_canonicalText (h : c.WellFormed) (hclose : c.verb.operand.Delimits close) :
    parse (c.canonicalText close) = .ok c := by
  obtain ⟨v, first, last⟩ := c
  obtain ⟨⟨r, hfirst, hlast, hrange⟩, hverb, haddressed⟩ := h
  dsimp only at hfirst hlast hrange hverb haddressed hclose
  subst hfirst hlast
  rw [Option.isSome_map] at haddressed
  have hline := (noLineEnd_range hrange).append (noLineEnd_verb hverb hclose.notBlank)
  rw [parse, canonicalText, String.toList_ofList, List.append_assoc, hline.withoutLineEnd_eq]
  exact command_canonical hverb hclose hrange haddressed

theorem wellFormed_of_parse (h : parse line = .ok c) :
    c.WellFormed ∧ ∃ close, c.verb.operand.Delimits close := by
  obtain ⟨⟨r, rest⟩, hrange, hread⟩ := exists_of_bind_eq_ok h
  obtain ⟨hsuffix, hwritten⟩ := range?_eq_ok hrange
  dsimp only at hread
  cases hskip : skipSeparators rest with
  | nil =>
    rw [hskip] at hread
    cases hread
    refine ⟨⟨⟨r, rfl, rfl, fun p hp => ?_⟩, .goTo, fun _ => rfl⟩, '/',
      Operand.delimits_of_parts_eq_nil rfl⟩
    exact ⟨(hwritten p hp).first, ⟨(hwritten p hp).last.wellFormed, fun _ => rfl⟩,
      (hwritten p hp).eq_of_open⟩
  | cons letter more =>
    rw [hskip] at hread
    obtain ⟨v, hverb, hread⟩ := exists_of_bind_eq_ok hread
    cases hread
    have hmore : more <:+ skipSeparators rest := hskip ▸ List.suffix_cons letter more
    have hcs : NoLineEnd more := (noLineEnd_withoutLineEnd line.toList).suffix
      ((hmore.trans (suffix_skipSeparators rest)).trans
        (hsuffix.trans (suffix_skipSeparators _)))
    obtain ⟨hv, haddressed, hclose⟩ := exists_of_verb hverb hcs
    refine ⟨⟨⟨r, rfl, rfl, fun p hp => ?_⟩, hv, ?_⟩, hclose⟩
    · have hp := hwritten p hp
      refine ⟨hp.first, ⟨hp.last.wellFormed, fun hopen => ?_⟩, hp.eq_of_open⟩
      rw [hp.last.rest_of_open hopen] at hskip
      cases hskip
    · rw [Option.isSome_map]
      exact haddressed

/-- The commands that lines can write. -/
theorem exists_parse_eq_ok_iff :
    (∃ line, parse line = .ok c) ↔ c.WellFormed ∧ ∃ close, c.verb.operand.Delimits close := by
  constructor
  · rintro ⟨line, h⟩
    exact wellFormed_of_parse h
  · rintro ⟨hc, close, hclose⟩
    exact ⟨c.canonicalText close, parse_canonicalText hc hclose⟩

theorem WellFormed.of_mem_addresses (h : c.WellFormed) {a : Address} (ha : a ∈ c.addresses) :
    a.WellFormed := by
  obtain ⟨⟨r, hfirst, hlast, hrange⟩, hverb, -⟩ := h
  rw [addresses, List.mem_append, List.mem_append, hfirst, hlast] at ha
  rcases ha with (ha | ha) | ha
  · obtain ⟨p, hp, rfl⟩ := Option.map_eq_some_iff.mp (Option.mem_toList.mp ha)
    exact (hrange p hp).first
  · obtain ⟨p, hp, rfl⟩ := Option.map_eq_some_iff.mp (Option.mem_toList.mp ha)
    exact (hrange p hp).last.wellFormed
  · have ho := hverb.operand_wellFormed
    split at ha
    · rename_i d hoperand
      rw [hoperand] at ho
      obtain ⟨b, rfl, hb⟩ := ho
      rw [Option.toList_some, List.mem_singleton] at ha
      rwa [ha]
    · cases ha

/-- Whatever line a command was read off, its canonical line means the same. -/
theorem parse_canonical (h : parse line = .ok c) :
    (∀ close, c.verb.operand.IsDelimiter close → parse (c.canonicalText close) = .ok c) ∧
      (∃ close, Text.isBlank close = false ∧ close ≠ '\\' ∧
        parse (c.canonicalText close) = .ok c) ∧
      c.first.isSome = c.last.isSome ∧
      (c.verb.defaultRange? = none → c.first = none ∧ c.last = none) ∧
      (∀ a ∈ c.addresses, Address.minOffset ≤ a.offset ∧ a.offset ≤ Address.maxOffset ∧
        ∀ ds, a.base = .number ds → ∃ n ≤ maxOffset, ds = toString n) ∧
      ∀ path, c.verb.operand = .file (some path) → Operand.IsFileName path.text.toList := by
  obtain ⟨hc, own, hown⟩ := wellFormed_of_parse h
  refine ⟨fun close hclose => parse_canonicalText hc hclose.delimits,
    ⟨own, hown.notBlank, hown.notBackslash, parse_canonicalText hc hown⟩, ?_, ?_, ?_, ?_⟩
  · obtain ⟨r, hfirst, hlast, -⟩ := hc.range
    rw [hfirst, hlast, Option.isSome_map, Option.isSome_map]
  · intro hnone
    obtain ⟨r, hfirst, hlast, -⟩ := hc.range
    have haddressed := hc.addressed
    rw [hnone, hfirst, Option.isSome_map] at haddressed
    cases r with
    | none => exact ⟨hfirst, hlast⟩
    | some p => cases haddressed rfl
  · intro a ha
    have ha := hc.of_mem_addresses ha
    refine ⟨ha.offset_ge, ha.offset_le, fun ds hds => ?_⟩
    have hbase := ha.base
    rw [hds] at hbase
    exact hbase
  · intro path hpath
    have ho := hc.verb.operand_wellFormed
    rw [hpath] at ho
    exact ho path rfl

/-- Blanks, three signs for one offset and the delimiter leave no trace in the canonical line;
the escape before what was the delimiter belongs to the pattern. -/
theorem parse_canonical_substitution :
    let line := " ; /x\\/y/+-+3 s|a\\|b|c|g"
    let c : Command := ⟨.substitute "a\\|b" "c" "g", some .current, some ⟨.forward "x\\/y", 3⟩⟩
    parse line = .ok c ∧ c.canonicalText '#' = ".,/x\\/y/+3s#a\\|b#c#g" ∧
      parse (c.canonicalText '#') = .ok c := by
  intro line c
  have h : parse line = .ok c := by decide +kernel
  exact ⟨h, by decide, (parse_canonical h).1 '#' ⟨by decide, by decide, by decide⟩⟩

end Command

end Redline

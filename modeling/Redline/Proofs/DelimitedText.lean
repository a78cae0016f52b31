import Redline.Command.Canonical
import Redline.Proofs.TextEnds
/-!
# Delimited text

A reader of delimited text stops at the delimiter or with the line.  What it gives holds no
delimiter but escaped ones, so that it is found again between two of them; any character that
does not occur in a text will do to end it.
-/

namespace Redline

open Canonical (endsOpen)

namespace Parser

variable {close c : Char} {cs text rest : List Char}

/-! ## Reading -/

theorem delimited_close (close : Char) (rest : List Char) :
    delimited close (close :: rest) = ([], rest) := by
  rw [delimited.eq_def]
  dsimp only
  rw [if_pos rfl]

theorem delimited_open (h : '\\' ≠ close) : delimited close ['\\'] = (['\\'], []) := by
  rw [delimited, if_neg h, if_pos rfl]

theorem delimited_escaped (h : '\\' ≠ close) (escaped : Char) (rest : List Char) :
    delimited close ('\\' :: escaped :: rest) =
      ('\\' :: escaped :: (delimited close rest).1, (delimited close rest).2) := by
  rw [delimited, if_neg h, if_pos rfl]

theorem delimited_plain (hclose : c ≠ close) (hescape : c ≠ '\\') (rest : List Char) :
    delimited close (c :: rest) =
      (c :: (delimited close rest).1, (delimited close rest).2) := by
  rw [delimited.eq_def]
  dsimp only
  rw [if_neg hclose, if_neg hescape]

theorem endsOpen_plain (h : c ≠ '\\') (rest : List Char) :
    endsOpen (c :: rest) = endsOpen rest := by
  rw [Canonical.endsOpen.eq_def]
  dsimp only
  rw [if_neg h]

theorem suffix_delimited (close : Char) (cs : List Char) : (delimited close cs).2 <:+ cs := by
  induction cs using delimited.induct close with
  | case1 => exact List.suffix_rfl
  | case2 rest =>
    rw [delimited_close]
    exact List.suffix_cons _ _
  | case3 h =>
    rw [delimited_open h]
    exact List.nil_suffix
  | case4 escaped rest _ _ _ h ih =>
    rw [delimited_escaped h]
    exact (ih.trans (List.suffix_cons _ _)).trans (List.suffix_cons _ _)
  | case5 c rest hclose hescape _ _ _ ih =>
    rw [delimited_plain hclose hescape]
    exact ih.trans (List.suffix_cons _ _)

/-- Read alone, what was read is read whole. -/
theorem delimited_fst (close : Char) (cs : List Char) :
    delimited close (delimited close cs).1 = ((delimited close cs).1, []) := by
  induction cs using delimited.induct close with
  | case1 => rfl
  | case2 rest =>
    rw [delimited_close]
    rfl
  | case3 h => rw [delimited_open h, delimited_open h]
  | case4 escaped rest _ _ _ h ih => rw [delimited_escaped h, delimited_escaped h, ih]
  | case5 c rest hclose hescape _ _ _ ih =>
    rw [delimited_plain hclose hescape, delimited_plain hclose hescape, ih]

theorem delimited_snd_of_endsOpen (h : endsOpen (delimited close cs).1 = true) :
    (delimited close cs).2 = [] := by
  induction cs using delimited.induct close with
  | case1 => rfl
  | case2 rest =>
    rw [delimited_close] at h
    cases h
  | case3 hclose => rw [delimited_open hclose]
  | case4 escaped rest _ _ _ hclose ih =>
    rw [delimited_escaped hclose] at h ⊢
    exact ih h
  | case5 c rest hclose hescape _ _ _ ih =>
    rw [delimited_plain hclose hescape] at h ⊢
    rw [endsOpen_plain hescape] at h
    exact ih h

/-! ## Writing -/

structure IsDelimited (close : Char) (text rest : List Char) : Prop where
  whole : delimited close text = (text, [])
  rest_of_open : endsOpen text = true → rest = []

theorem isDelimited_ofList (close : Char) (cs : List Char) :
    IsDelimited close (String.ofList (delimited close cs).1).toList (delimited close cs).2 := by
  rw [String.toList_ofList]
  exact ⟨delimited_fst close cs, delimited_snd_of_endsOpen⟩

theorem delimited_of_not_mem (h : close ∉ text) (hescape : '\\' ≠ close) :
    delimited close text = (text, []) := by
  induction text using Canonical.endsOpen.induct with
  | case1 => rfl
  | case2 => exact delimited_open hescape
  | case3 escaped rest ih =>
    rw [delimited_escaped hescape, ih (fun hmem => h (by simp [hmem]))]
  | case4 c rest hplain ih =>
    have hclose : c ≠ close := fun heq => h (by simp [heq])
    rw [delimited_plain hclose hplain, ih (fun hmem => h (by simp [hmem]))]

/-- A delimiter is found again where it is put. -/
theorem delimited_canonical (hescape : '\\' ≠ close) (h : IsDelimited close text rest) :
    delimited close (Canonical.delimited close text rest) = (text, rest) := by
  obtain ⟨hwhole, hopen⟩ := h
  unfold Canonical.delimited
  split
  · rename_i hends
    rw [hwhole, hopen hends]
  rename_i hends
  clear hopen
  induction text using delimited.induct close with
  | case1 => exact delimited_close _ _
  | case2 more =>
    rw [delimited_close] at hwhole
    cases hwhole
  | case3 => exact absurd rfl hends
  | case4 escaped more _ _ _ _ ih =>
    rw [delimited_escaped hescape] at hwhole
    simp only [Prod.mk.injEq, List.cons.injEq, true_and] at hwhole
    rw [List.cons_append, List.cons_append, delimited_escaped hescape,
      ih (Prod.ext hwhole.1 hwhole.2) hends]
  | case5 c more hclose hplain _ _ _ ih =>
    rw [delimited_plain hclose hplain] at hwhole
    simp only [Prod.mk.injEq, List.cons.injEq, true_and] at hwhole
    rw [endsOpen_plain hplain] at hends
    rw [List.cons_append, delimited_plain hclose hplain,
      ih (Prod.ext hwhole.1 hwhole.2) hends]

theorem canonical_delimited_append (h : endsOpen text = true → rest = []) :
    Canonical.delimited close text [] ++ rest = Canonical.delimited close text rest := by
  unfold Canonical.delimited
  split
  · rw [h ‹_›, List.append_nil]
  · rw [List.append_assoc, List.cons_append, List.nil_append]

theorem getLast?_of_endsOpen (h : endsOpen text = true) : text.getLast? = some '\\' := by
  induction text using Canonical.endsOpen.induct with
  | case1 => cases h
  | case2 => rfl
  | case3 escaped rest ih =>
    have hrest := ih h
    simp [List.getLast?_cons, hrest]
  | case4 c rest hplain ih =>
    rw [endsOpen_plain hplain] at h
    simp [List.getLast?_cons, ih h]

theorem noLineEnd_delimited (hclose : endsLine close = false)
    (hrest : NoLineEnd rest) : NoLineEnd (Canonical.delimited close text rest) := by
  unfold Canonical.delimited
  split
  · rename_i hopen
    intro c hc
    rw [getLast?_of_endsOpen hopen] at hc
    cases hc
    rfl
  · exact (hrest.cons hclose).behind text

end Parser

end Redline

import Redline.Diff.Blocks
import Redline.Diff.Report
import Redline.Proofs.CommonRun
/-!
# Block comparison as plain recursion

The recursion behind the list of pending steps: a longest common run is kept, and
the parts on both sides of it are compared in the same way.
-/

namespace Redline

variable {α κ : Type}

namespace Run

variable [BEq κ]

/-- The longest run that two lists have in common, and of several the first one. -/
structure IsFirstLongest (r : Run) (old new : List κ) : Prop where
  pos : 0 < r.length
  common : r.IsCommon old new
  beats : ∀ s : Run, 0 < s.length → s.IsCommon old new → r.Beats s

theorem IsFirstLongest.unique {r s : Run} {old new : List κ} (hr : r.IsFirstLongest old new)
    (hs : s.IsFirstLongest old new) : r = s :=
  (hr.beats s hs.pos hs.common).antisymm (hs.beats r hr.pos hr.common)

end Run

/-- The plain recursion, as a relation between two lists and their hunks. -/
inductive Hunk.PlainDiff [BEq κ] (key : α → κ) :
    List α → List α → List (Hunk α) → Prop where
  | nil : PlainDiff key [] [] []
  | insert {new : List α} (hnew : new ≠ []) : PlainDiff key [] new [⟨.insert, new⟩]
  | delete {old : List α} (hold : old ≠ []) : PlainDiff key old [] [⟨.delete, old⟩]
  | apart {old new : List α} (hold : old ≠ []) (hnew : new ≠ [])
      (hnone : ∀ r : Run, r.IsCommon (old.map key) (new.map key) → r.length = 0) :
      PlainDiff key old new [⟨.delete, old⟩, ⟨.insert, new⟩]
  | around {old new : List α} {before behind : List (Hunk α)} {r : Run}
      (hrun : r.IsFirstLongest (old.map key) (new.map key))
      (left : PlainDiff key (old.take r.oldStart) (new.take r.newStart) before)
      (right : PlainDiff key (old.drop (r.oldStart + r.length)) (new.drop (r.newStart + r.length))
        behind) :
      PlainDiff key old new
        (before ++ ⟨.equal, (new.drop r.newStart).take r.length⟩ :: behind)

namespace Hunk

variable [BEq κ] {key : α → κ} {old new : List α}

private theorem ne_nil_of_isFirstLongest {r : Run}
    (hrun : r.IsFirstLongest (old.map key) (new.map key)) : old ≠ [] ∧ new ≠ [] := by
  obtain ⟨a, b, ha, hb, -⟩ := hrun.common 0 hrun.pos
  constructor
  · rintro rfl
    cases ha
  · rintro rfl
    cases hb

theorem PlainDiff.unique {hunks hunks' : List (Hunk α)} (h : PlainDiff key old new hunks)
    (h' : PlainDiff key old new hunks') : hunks = hunks' := by
  -- the last rules are the same, as what one of them asks for is refused by the others
  induction h generalizing hunks' with
  | nil =>
    cases h' with
    | nil => rfl
    | insert hnew => exact absurd rfl hnew
    | delete hold => exact absurd rfl hold
    | apart hold => exact absurd rfl hold
    | around hrun => exact absurd rfl (ne_nil_of_isFirstLongest hrun).1
  | insert hnew =>
    cases h' with
    | nil => exact absurd rfl hnew
    | insert => rfl
    | delete hold => exact absurd rfl hold
    | apart hold => exact absurd rfl hold
    | around hrun => exact absurd rfl (ne_nil_of_isFirstLongest hrun).1
  | delete hold =>
    cases h' with
    | nil => exact absurd rfl hold
    | insert hnew => exact absurd rfl hnew
    | delete => rfl
    | apart _ hnew => exact absurd rfl hnew
    | around hrun => exact absurd rfl (ne_nil_of_isFirstLongest hrun).2
  | apart hold hnew hnone =>
    cases h' with
    | nil => exact absurd rfl hold
    | insert => exact absurd rfl hold
    | delete => exact absurd rfl hnew
    | apart => rfl
    | around hrun => exact absurd (hnone _ hrun.common) (Nat.ne_of_gt hrun.pos)
  | around hrun _ _ ihleft ihright =>
    cases h' with
    | nil => exact absurd rfl (ne_nil_of_isFirstLongest hrun).1
    | insert => exact absurd rfl (ne_nil_of_isFirstLongest hrun).1
    | delete => exact absurd rfl (ne_nil_of_isFirstLongest hrun).2
    | apart _ _ hnone => exact absurd (hnone _ hrun.common) (Nat.ne_of_gt hrun.pos)
    | around hrun' left right =>
      cases hrun.unique hrun'
      rw [ihleft left, ihright right]

end Hunk

/-! ## Parts as spans -/

namespace Span

theorem getElem?_slice (s : Span) (xs : List α) (i : Nat) :
    (s.slice xs)[i]? = if i < s.length then xs[s.start + i]? else none := by
  rw [slice, List.getElem?_take, List.getElem?_drop]

theorem slice_map (s : Span) (f : α → κ) (xs : List α) :
    s.slice (xs.map f) = (s.slice xs).map f := by
  rw [slice, slice, List.map_take, List.map_drop]

theorem slice_of_isEmpty {s : Span} (h : s.isEmpty = true) (xs : List α) : s.slice xs = [] := by
  rw [slice, s.isEmpty_iff.mp h, List.take_zero]

theorem slice_ne_nil {s : Span} {xs : List α} (h : ¬s.isEmpty = true) (hstop : s.stop ≤ xs.length) :
    s.slice xs ≠ [] := by
  intro hnil
  have hlength := s.length_slice xs hstop
  rw [hnil, List.length_nil] at hlength
  exact h (s.isEmpty_iff.mpr hlength.symm)

theorem slice_before {s : Span} {position : Nat} (h : position ≤ s.stop) (xs : List α) :
    slice ⟨s.start, position⟩ xs = (s.slice xs).take (position - s.start) := by
  rw [slice, slice, List.take_take, length, length, Nat.min_eq_left (by omega)]

theorem slice_behind {s : Span} {position : Nat} (h : s.start ≤ position) (xs : List α) :
    slice ⟨position, s.stop⟩ xs = (s.slice xs).drop (position - s.start) := by
  rw [slice, slice, List.drop_take, List.drop_drop, length, length, Nat.add_sub_cancel' h]
  congr 1
  dsimp only
  omega

theorem slice_inside {s : Span} {position count : Nat} (h : s.start ≤ position)
    (hstop : position + count ≤ s.stop) (xs : List α) :
    slice ⟨position, position + count⟩ xs =
      ((s.slice xs).drop (position - s.start)).take count := by
  rw [slice, slice, List.drop_take, List.drop_drop, List.take_take, length, length,
    Nat.add_sub_cancel' h]
  congr 1
  dsimp only
  omega

theorem slice_whole (xs : List α) : slice ⟨0, xs.length⟩ xs = xs := by
  rw [slice, length, List.drop_zero, Nat.sub_zero, List.take_length]

end Span

namespace Run

variable [BEq κ] {oldKeys newKeys : List κ} {old new : Span} {r s : Run}

private theorem keysMatch_slice {i j : Nat} :
    KeysMatch (old.slice oldKeys) (new.slice newKeys) i j ↔
      i < old.length ∧ j < new.length ∧
        KeysMatch oldKeys newKeys (old.start + i) (new.start + j) := by
  unfold KeysMatch
  rw [Span.getElem?_slice, Span.getElem?_slice]
  by_cases hi : i < old.length
  · by_cases hj : j < new.length
    · simp [hi, hj]
    · simp [hj]
  · simp [hi]

def inside (r : Run) (old new : Span) : Run :=
  ⟨r.oldStart - old.start, r.newStart - new.start, r.length⟩

theorem IsCommonIn.inside (h : r.IsCommonIn oldKeys newKeys old new) :
    (r.inside old new).IsCommon (old.slice oldKeys) (new.slice newKeys) := by
  intro i hi
  have hi : i < r.length := hi
  obtain ⟨hold, hold', hnew, hnew'⟩ := h.within
  rw [keysMatch_slice]
  refine ⟨?_, ?_, ?_⟩
  · show r.oldStart - old.start + i < old.stop - old.start
    omega
  · show r.newStart - new.start + i < new.stop - new.start
    omega
  · have hkeys := h.common i hi
    rwa [show r.oldStart + i = old.start + (r.oldStart - old.start + i) by omega,
      show r.newStart + i = new.start + (r.newStart - new.start + i) by omega] at hkeys

theorem isCommonIn_of_slice (hpos : 0 < s.length)
    (h : s.IsCommon (old.slice oldKeys) (new.slice newKeys)) :
    Run.IsCommonIn ⟨old.start + s.oldStart, new.start + s.newStart, s.length⟩
      oldKeys newKeys old new := by
  obtain ⟨hold, hnew, -⟩ := keysMatch_slice.mp (h (s.length - 1) (by omega))
  unfold Span.length at hold hnew
  refine ⟨⟨?_, ?_, ?_, ?_⟩, fun i hi => ?_⟩
  · exact Nat.le_add_right _ _
  · show old.start + s.oldStart + s.length ≤ old.stop
    omega
  · exact Nat.le_add_right _ _
  · show new.start + s.newStart + s.length ≤ new.stop
    omega
  · obtain ⟨-, -, hkeys⟩ := keysMatch_slice.mp (h i hi)
    rwa [← Nat.add_assoc, ← Nat.add_assoc] at hkeys

theorem isFirstLongest_inside (hpos : 0 < r.length) (hr : r.IsCommonIn oldKeys newKeys old new)
    (hbeats : ∀ s : Run, s.IsCommonIn oldKeys newKeys old new → 0 < s.length → r.Beats s) :
    (r.inside old new).IsFirstLongest (old.slice oldKeys) (new.slice newKeys) := by
  refine ⟨hpos, hr.inside, fun s hs hcommon => ?_⟩
  obtain ⟨hle, htie⟩ := hbeats _ (isCommonIn_of_slice hs hcommon) hs
  refine ⟨hle, fun heq => ?_⟩
  obtain ⟨hold, -, hnew, -⟩ := hr.within
  have htie := htie heq
  unfold inside
  dsimp only at htie ⊢
  omega

end Run

/-! ## Pending steps -/

namespace Block

variable [BEq κ] {key : α → κ} {old new : List α}

/-- What pending steps come to: the hunks of one after the hunks of the other. -/
inductive Yields (key : α → κ) (old new : List α) : List Step → List (Hunk α) → Prop where
  | nil : Yields key old new [] []
  | emit {pending : List Step} {hunks : List (Hunk α)} (block : Block)
      (rest : Yields key old new pending hunks) :
      Yields key old new (.emit block :: pending) (block.toHunk old new :: hunks)
  | split {pending : List Step} {front hunks : List (Hunk α)} {o n : Span}
      (first : Hunk.PlainDiff key (o.slice old) (n.slice new) front)
      (rest : Yields key old new pending hunks) :
      Yields key old new (.split o n :: pending) (front ++ hunks)

/-- Steps around a longest run come to what the step that they replace comes to. -/
theorem Yields.of_around {pending : List Step} {hunks : List (Hunk α)} {o n : Span} {r : Run}
    (hwithin : r.Within o n)
    (hrun : (r.inside o n).IsFirstLongest ((o.slice old).map key) ((n.slice new).map key))
    (h : Yields key old new (Step.around o n r ++ pending) hunks) :
    Yields key old new (.split o n :: pending) hunks := by
  obtain ⟨hold, hold', hnew, hnew'⟩ := hwithin
  cases h with
  | split left h =>
    cases h with
    | emit _ h =>
      cases h with
      | split right h =>
        rw [Span.slice_before (s := o) (by omega), Span.slice_before (s := n) (by omega)] at left
        rw [Span.slice_behind (s := o) (by omega), Span.slice_behind (s := n) (by omega),
          Nat.sub_add_comm hold, Nat.sub_add_comm hnew] at right
        have hdiff := Hunk.PlainDiff.around hrun left right
        have hyields := Yields.split hdiff h
        rw [List.append_assoc, List.cons_append] at hyields
        rw [toHunk]
        dsimp only
        rw [Span.slice_inside hnew hnew']
        exact hyields

/-- The steps are carried out as the recursion says, whatever the memo holds. -/
theorem yields_ofSteps {t : RunTable} (ht : t.Lists (old.map key) (new.map key)) (m : RunMemo)
    (hsize : m.ends.size = old.length) (pending : List Step)
    (hpending : ∀ o n, .split o n ∈ pending → o.stop ≤ old.length ∧ n.stop ≤ new.length) :
    Yields key old new pending ((ofSteps t m pending).map (toHunk old new)) := by
  induction m, pending using ofSteps.induct t with
  | case1 m =>
    rw [ofSteps]
    exact .nil
  | case2 m block pending ih =>
    rw [ofSteps]
    exact .emit block (ih hsize fun o n h => hpending o n (List.mem_cons_of_mem _ h))
  | case3 m o n pending ho hn ih =>
    have hdiff : Hunk.PlainDiff key (o.slice old) (n.slice new) [] := by
      rw [Span.slice_of_isEmpty ho, Span.slice_of_isEmpty hn]
      exact .nil
    rw [ofSteps, dif_pos ho, if_pos hn]
    exact .split hdiff (ih hsize fun o n h => hpending o n (List.mem_cons_of_mem _ h))
  | case4 m o n pending ho hn ih =>
    have hdiff : Hunk.PlainDiff key (o.slice old) (n.slice new) [⟨.insert, n.slice new⟩] := by
      rw [Span.slice_of_isEmpty ho]
      exact .insert (Span.slice_ne_nil hn (hpending o n List.mem_cons_self).2)
    rw [ofSteps, dif_pos ho, if_neg hn]
    exact .split hdiff (ih hsize fun o n h => hpending o n (List.mem_cons_of_mem _ h))
  | case5 m o n pending ho hn ih =>
    have hdiff : Hunk.PlainDiff key (o.slice old) (n.slice new) [⟨.delete, o.slice old⟩] := by
      rw [Span.slice_of_isEmpty hn]
      exact .delete (Span.slice_ne_nil ho (hpending o n List.mem_cons_self).1)
    rw [ofSteps, dif_neg ho, dif_pos hn]
    exact .split hdiff (ih hsize fun o n h => hpending o n (List.mem_cons_of_mem _ h))
  | case6 m o n pending ho hn found hrun ih =>
    obtain ⟨hold, hnew⟩ := hpending o n List.mem_cons_self
    have hspec := RunTable.longestCommonRun_spec ht (hsize.trans (List.length_map key).symm)
      (Span.start_le_stop_of_not_isEmpty ho) (Span.start_le_stop_of_not_isEmpty hn)
    -- the run that was found is empty, so the parts have no key in common
    have hdiff : Hunk.PlainDiff key (o.slice old) (n.slice new)
        [⟨.delete, o.slice old⟩, ⟨.insert, n.slice new⟩] := by
      refine .apart (Span.slice_ne_nil ho hold) (Span.slice_ne_nil hn hnew) fun r hr => ?_
      rw [← Span.slice_map, ← Span.slice_map] at hr
      apply Nat.eq_zero_of_not_pos
      intro hpos
      have hle := (hspec.2 _ (Run.isCommonIn_of_slice hpos hr) hpos).1
      rw [hrun] at hle
      exact Nat.not_lt.mpr hle hpos
    rw [ofSteps, dif_neg ho, dif_neg hn, dif_pos hrun]
    refine .split hdiff (ih ?_ fun o n h => hpending o n (List.mem_cons_of_mem _ h))
    rw [RunTable.size_ends_longestCommonRun, hsize]
  | case7 m o n pending ho hn found hrun _ ih =>
    obtain ⟨hold, hnew⟩ := hpending o n List.mem_cons_self
    have hspec := RunTable.longestCommonRun_spec ht (hsize.trans (List.length_map key).symm)
      (Span.start_le_stop_of_not_isEmpty ho) (Span.start_le_stop_of_not_isEmpty hn)
    have hcommon := hspec.1 (Nat.pos_of_ne_zero hrun)
    have hfirst := Run.isFirstLongest_inside (Nat.pos_of_ne_zero hrun) hcommon hspec.2
    rw [Span.slice_map, Span.slice_map] at hfirst
    rw [ofSteps, dif_neg ho, dif_neg hn, dif_neg hrun]
    -- the parts before and behind the run lie in both lists, as the run does
    refine .of_around hcommon.within hfirst (ih ?_ fun o' n' hmem => ?_)
    · rw [RunTable.size_ends_longestCommonRun, hsize]
    · obtain ⟨-, hold', -, hnew'⟩ := hcommon.within
      rcases List.mem_append.mp hmem with hmem | hmem
      · simp only [Step.around, List.mem_cons, Step.split.injEq, reduceCtorEq, List.not_mem_nil,
          or_false, false_or] at hmem
        rcases hmem with ⟨rfl, rfl⟩ | ⟨rfl, rfl⟩
        · have hfoundOld : found.1.oldStart ≤ o.stop := Nat.le_trans (Nat.le_add_right _ _) hold'
          have hfoundNew : found.1.newStart ≤ n.stop := Nat.le_trans (Nat.le_add_right _ _) hnew'
          exact ⟨Nat.le_trans hfoundOld hold, Nat.le_trans hfoundNew hnew⟩
        · exact ⟨hold, hnew⟩
      · exact hpending o' n' (List.mem_cons_of_mem _ hmem)

end Block

theorem Hunk.plainDiff_diffBy [BEq κ] [Hashable κ] [EquivBEq κ] [LawfulHashable κ]
    (key : α → κ) (old new : List α) : PlainDiff key old new (diffBy key old new) := by
  have hyields := Block.yields_ofSteps (RunTable.lists_ofKeys (old.map key) (new.map key))
    (.fresh (old.map key).length) (by rw [RunMemo.fresh, Array.size_replicate, List.length_map])
    [.split ⟨0, (old.map key).length⟩ ⟨0, (new.map key).length⟩] (fun o n hmem => by
      cases List.mem_singleton.mp hmem
      exact ⟨Nat.le_of_eq (List.length_map key), Nat.le_of_eq (List.length_map key)⟩)
  change Block.Yields key old new _ (diffBy key old new) at hyields
  generalize diffBy key old new = result at hyields ⊢
  cases hyields with
  | split first rest =>
    cases rest
    rw [List.length_map, List.length_map, Span.slice_whole, Span.slice_whole] at first
    rwa [List.append_nil]

namespace Report

def Options.key (options : Options) : Bytes → Bytes :=
  if options.ignoreTrailingBlanks then withoutTrailingBlanks else id

theorem plainDiff_compare (options : Options) (old new : List Bytes) :
    Hunk.PlainDiff options.key old new (compare options old new) := by
  unfold compare Options.key
  split
  · exact Hunk.plainDiff_diffBy _ old new
  · exact Hunk.plainDiff_diffBy id old new

end Report

/-- The comparison gives the hunks of the plain recursion, and these only. -/
theorem Hunk.plainDiff_iff_diffBy [BEq κ] [Hashable κ] [EquivBEq κ] [LawfulHashable κ]
    (key : α → κ) (old new : List α) (hunks : List (Hunk α)) :
    PlainDiff key old new hunks ↔ diffBy key old new = hunks := by
  constructor
  · intro h
    exact (plainDiff_diffBy key old new).unique h
  · rintro rfl
    exact plainDiff_diffBy key old new

/-- Of two runs of one element the one that is first in the new list is kept, as the
new list has it. -/
theorem Hunk.plainDiff_iff_diffBy_swapped :
    diffBy (· % 2) [1, 2] [4, 3] =
      [(⟨.delete, [1]⟩ : Hunk Nat), ⟨.equal, [4]⟩, ⟨.insert, [3]⟩] := by
  have hmatch : ∀ i j, KeysMatch ([1, 2].map (· % 2)) ([4, 3].map (· % 2)) i j →
      i = 0 ∧ j = 1 ∨ i = 1 ∧ j = 0 := by
    rintro i j ⟨a, b, ha, hb, hkey⟩
    match i, j with
    | 0, 1 => exact .inl ⟨rfl, rfl⟩
    | 1, 0 => exact .inr ⟨rfl, rfl⟩
    | 0, 0 | 1, 1 =>
      cases ha
      cases hb
      cases hkey
    | _ + 2, _ => cases ha
    | _, _ + 2 => cases hb
  have hrun : Run.IsFirstLongest ⟨1, 0, 1⟩ ([1, 2].map (· % 2)) ([4, 3].map (· % 2)) := by
    refine ⟨by decide, fun i hi => ?_, fun s hpos hs => ?_⟩
    · rw [show i = 0 from Nat.lt_one_iff.mp hi]
      exact ⟨0, 0, rfl, rfl, rfl⟩
    · have hfirst := hmatch _ _ (hs 0 hpos)
      have hlast := hmatch _ _ (hs (s.length - 1) (by omega))
      unfold Run.Beats
      dsimp only
      omega
  have hleft : PlainDiff (· % 2) [1] [] [(⟨.delete, [1]⟩ : Hunk Nat)] := .delete (by decide)
  have hright : PlainDiff (· % 2) [] [3] [(⟨.insert, [3]⟩ : Hunk Nat)] := .insert (by decide)
  exact (plainDiff_iff_diffBy (· % 2) [1, 2] [4, 3] _).mp (.around hrun hleft hright)

end Redline

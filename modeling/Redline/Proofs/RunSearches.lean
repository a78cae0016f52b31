import Mathlib.Data.List.Forall2
import Redline.Proofs.CommonRun
/-!
# Searches that share a memo

Many searches write to one memo, each in parts of its own.  What a search finds is the longest
run of its two parts, the first of several, and nothing that an earlier search has left in the
memo is ever taken for its own.
-/

namespace Redline

variable {κ : Type} [BEq κ]

namespace Run

/-- The run lies in both parts, no common run of them is longer, and none of the same length
starts earlier in the new list, or in the same place there and earlier in the old one.  The run
is empty, and at the front of both parts, if they have no key in common. -/
structure IsLongestIn (r : Run) (oldKeys newKeys : List κ) (old new : Span) : Prop where
  common : r.IsCommonIn oldKeys newKeys old new
  beats : ∀ s : Run, s.IsCommonIn oldKeys newKeys old new → 0 < s.length → r.Beats s
  none_iff : r = ⟨old.start, new.start, 0⟩ ↔ ∀ i j, old.start ≤ i → i < old.stop →
    new.start ≤ j → j < new.stop → ¬KeysMatch oldKeys newKeys i j

variable {r s : Run} {oldKeys newKeys : List κ} {old new : Span} {i j : Nat}

theorem isCommonIn_of_keysMatch (hi : old.start ≤ i) (hi' : i < old.stop) (hj : new.start ≤ j)
    (hj' : j < new.stop) (h : KeysMatch oldKeys newKeys i j) :
    Run.IsCommonIn ⟨i, j, 1⟩ oldKeys newKeys old new := by
  refine ⟨⟨hi, hi', hj, hj'⟩, fun k hk => ?_⟩
  have hk : k < 1 := hk
  rwa [show k = 0 by omega, Nat.add_zero, Nat.add_zero]

theorem IsCommonIn.exists_keysMatch (h : r.IsCommonIn oldKeys newKeys old new)
    (hpos : 0 < r.length) :
    ∃ i j, old.start ≤ i ∧ i < old.stop ∧ new.start ≤ j ∧ j < new.stop ∧
      KeysMatch oldKeys newKeys i j := by
  obtain ⟨hold, hold', hnew, hnew'⟩ := h.within
  exact ⟨r.oldStart, r.newStart, hold, by omega, hnew, by omega, h.common 0 hpos⟩

theorem isLongestIn_of_beats (hcommon : r.IsCommonIn oldKeys newKeys old new)
    (hbeats : ∀ s : Run, s.IsCommonIn oldKeys newKeys old new → 0 < s.length → r.Beats s)
    (hempty : r = ⟨old.start, new.start, 0⟩ ∨ 0 < r.length) :
    r.IsLongestIn oldKeys newKeys old new := by
  refine ⟨hcommon, hbeats, fun hr i j hi hi' hj hj' hkey => ?_, fun hnone => ?_⟩
  · have hle := (hbeats _ (isCommonIn_of_keysMatch hi hi' hj hj' hkey) Nat.one_pos).1
    rw [hr] at hle
    exact Nat.not_succ_le_zero 0 hle
  · apply hempty.resolve_right
    intro hpos
    obtain ⟨i, j, hi, hi', hj, hj', hkey⟩ := hcommon.exists_keysMatch hpos
    exact hnone i j hi hi' hj hj' hkey

theorem IsLongestIn.unique (hr : r.IsLongestIn oldKeys newKeys old new)
    (hs : s.IsLongestIn oldKeys newKeys old new) : r = s := by
  by_cases hnone : ∀ i j, old.start ≤ i → i < old.stop → new.start ≤ j → j < new.stop →
      ¬KeysMatch oldKeys newKeys i j
  · rw [hr.none_iff.mpr hnone, hs.none_iff.mpr hnone]
  · have hpos : ∀ q : Run, q.IsLongestIn oldKeys newKeys old new → 0 < q.length := by
      intro q hq
      simp only [not_forall, not_not] at hnone
      obtain ⟨i, j, hi, hi', hj, hj', hkey⟩ := hnone
      exact (hq.beats _ (isCommonIn_of_keysMatch hi hi' hj hj' hkey) Nat.one_pos).1
    exact (hr.beats s hs.common (hpos s hs)).antisymm (hs.beats r hr.common (hpos r hr))

theorem orEnding_eq_or_lt (best : Run) (i row n : Nat) :
    best.orEnding i row n = best ∨ best.length < (best.orEnding i row n).length := by
  unfold orEnding
  split
  · exact .inr ‹_›
  · exact .inl rfl

end Run

namespace RunTable

variable {t : RunTable} {m : RunMemo} {oldKeys newKeys : List κ} {old new : Span}

/-! ## One search -/

private theorem improved_eq_or_lt (best : Run) (row : Nat) (lengths : List (Nat × Nat)) :
    improved best row lengths = best ∨ best.length < (improved best row lengths).length := by
  induction lengths generalizing best with
  | nil => exact .inl rfl
  | cons entry rest ih =>
    change improved (best.orEnding entry.1 row entry.2) row rest = best ∨
      best.length < (improved (best.orEnding entry.1 row entry.2) row rest).length
    obtain hrest | hrest := ih (best.orEnding entry.1 row entry.2)
    · rw [hrest]
      exact best.orEnding_eq_or_lt entry.1 row entry.2
    · obtain hfirst | hfirst := best.orEnding_eq_or_lt entry.1 row entry.2
      · rw [hfirst] at hrest ⊢
        exact .inr hrest
      · exact .inr (Nat.lt_trans hfirst hrest)

private theorem search_eq_or_lt (t : RunTable) (old new : Span) (rows : List Nat) (best : Run)
    (m : RunMemo) : (t.search old new rows best m).1 = best ∨
      best.length < (t.search old new rows best m).1.length := by
  induction rows generalizing best m with
  | nil => exact .inl rfl
  | cons row rows ih =>
    rw [search]
    obtain hrest | hrest := ih (improved best row (t.measured m old new row))
        (m.record (t.measured m old new row))
    · rw [hrest]
      exact improved_eq_or_lt best row _
    · obtain hfirst | hfirst := improved_eq_or_lt best row (t.measured m old new row)
      · rw [hfirst] at hrest ⊢
        exact .inr hrest
      · exact .inr (Nat.lt_trans hfirst hrest)

/-- Whatever the memo holds, a search finds the longest run of its parts. -/
theorem isLongestIn_longestCommonRun (ht : t.Lists oldKeys newKeys)
    (hsize : m.ends.size = oldKeys.length) (hold : old.start ≤ old.stop)
    (hnew : new.start ≤ new.stop) :
    (t.longestCommonRun m old new).1.IsLongestIn oldKeys newKeys old new := by
  obtain ⟨hfound, hbeats⟩ := longestCommonRun_spec ht hsize hold hnew
  have hempty : (t.longestCommonRun m old new).1 = ⟨old.start, new.start, 0⟩ ∨
      0 < (t.longestCommonRun m old new).1.length := search_eq_or_lt t old new _ _ m
  refine Run.isLongestIn_of_beats ⟨longestCommonRun_within t m hold hnew, ?_⟩ hbeats hempty
  intro i hi
  exact (hfound (Nat.zero_lt_of_lt hi)).common i hi

/-! ## One search after the other -/

def searches (t : RunTable) : RunMemo → List (Span × Span) → List Run
  | _, [] => []
  | m, (old, new) :: calls =>
    let found := t.longestCommonRun m old new
    found.1 :: t.searches found.2 calls

variable {calls : List (Span × Span)}

/-- A search leaves a memo behind in which any other search can be made. -/
theorem forall₂_searches (ht : t.Lists oldKeys newKeys) (hsize : m.ends.size = oldKeys.length)
    (h : ∀ call ∈ calls, call.1.Inside oldKeys.length ∧ call.2.Inside newKeys.length) :
    List.Forall₂ (fun call r => r.IsLongestIn oldKeys newKeys call.1 call.2) calls
      (t.searches m calls) := by
  induction calls generalizing m with
  | nil => exact .nil
  | cons call calls ih =>
    obtain ⟨hold, hnew⟩ := h call List.mem_cons_self
    refine .cons ?_ (ih ?_ fun call hcall => h call (List.mem_cons_of_mem _ hcall))
    · exact isLongestIn_longestCommonRun ht hsize hold.start_le_stop hnew.start_le_stop
    · rw [size_ends_longestCommonRun, hsize]

theorem searches_eq_map (ht : t.Lists oldKeys newKeys) {m' : RunMemo}
    (hsize : m.ends.size = oldKeys.length) (hsize' : m'.ends.size = oldKeys.length)
    (h : ∀ call ∈ calls, call.1.Inside oldKeys.length ∧ call.2.Inside newKeys.length) :
    t.searches m calls = calls.map fun call => (t.longestCommonRun m' call.1 call.2).1 := by
  induction calls generalizing m with
  | nil => rfl
  | cons call calls ih =>
    obtain ⟨hold, hnew⟩ := h call List.mem_cons_self
    have hfirst := isLongestIn_longestCommonRun ht hsize hold.start_le_stop hnew.start_le_stop
    have hother := isLongestIn_longestCommonRun ht hsize' hold.start_le_stop hnew.start_le_stop
    have hrest := ih ((size_ends_longestCommonRun t m call.1 call.2).trans hsize)
      fun call hcall => h call (List.mem_cons_of_mem _ hcall)
    rw [List.map_cons, ← hrest, ← hfirst.unique hother]
    rfl

/-- Searches in any parts of two lists, in any order and on one memo, each find the longest run
of their parts, and what a search in a new memo finds. -/
theorem searches_find_longest [Hashable κ] [EquivBEq κ] [LawfulHashable κ]
    (oldKeys newKeys : List κ) (calls : List (Span × Span))
    (h : ∀ call ∈ calls, call.1.Inside oldKeys.length ∧ call.2.Inside newKeys.length) :
    let t := ofKeys oldKeys newKeys
    List.Forall₂ (fun call r => r.IsLongestIn oldKeys newKeys call.1 call.2) calls
        (t.searches (.fresh oldKeys.length) calls) ∧
      t.searches (.fresh oldKeys.length) calls =
        calls.map fun call => (t.longestCommonRun (.fresh oldKeys.length) call.1 call.2).1 := by
  intro t
  have hlists : t.Lists oldKeys newKeys := lists_ofKeys oldKeys newKeys
  have hsize : (RunMemo.fresh oldKeys.length).ends.size = oldKeys.length := Array.size_replicate
  exact ⟨forall₂_searches hlists hsize h, searches_eq_map hlists hsize hsize h⟩

/-- The first search measures the run of both keys; the second one does not go on with it, as
its parts have no key in common. -/
theorem searches_find_longest_twice :
    (∀ call ∈ [((⟨0, 2⟩, ⟨0, 2⟩) : Span × Span), (⟨1, 2⟩, ⟨0, 1⟩)],
      call.1.Inside [1, 2].length ∧ call.2.Inside [1, 2].length) ∧
    (ofKeys [1, 2] [1, 2]).searches (.fresh 2) [(⟨0, 2⟩, ⟨0, 2⟩), (⟨1, 2⟩, ⟨0, 1⟩)] =
      [⟨0, 0, 2⟩, ⟨1, 0, 0⟩] := by
  have hinside : ∀ call ∈ [((⟨0, 2⟩, ⟨0, 2⟩) : Span × Span), (⟨1, 2⟩, ⟨0, 1⟩)],
      call.1.Inside [1, 2].length ∧ call.2.Inside [1, 2].length := by
    decide
  refine ⟨hinside, ?_⟩
  obtain ⟨hfound, -⟩ := searches_find_longest [1, 2] [1, 2] _ hinside
  obtain ⟨first, more, hfirst, hmore, hruns⟩ := List.forall₂_cons_left_iff.mp hfound
  obtain ⟨second, tail, hsecond, htail, rfl⟩ := List.forall₂_cons_left_iff.mp hmore
  rw [List.forall₂_nil_left_iff] at htail
  have hboth : first = ⟨0, 0, 2⟩ := by
    have hcommon : Run.IsCommonIn ⟨0, 0, 2⟩ [1, 2] [1, 2] ⟨0, 2⟩ ⟨0, 2⟩ := by
      refine ⟨⟨Nat.le_refl 0, Nat.le_refl 2, Nat.le_refl 0, Nat.le_refl 2⟩, fun k hk => ?_⟩
      obtain rfl | rfl : k = 0 ∨ k = 1 := by dsimp only at hk; omega
      · exact ⟨1, 1, rfl, rfl, rfl⟩
      · exact ⟨2, 2, rfl, rfl, rfl⟩
    obtain ⟨-, hold, -, hnew⟩ := hfirst.common.within
    have hlength := (hfirst.beats _ hcommon Nat.two_pos).1
    cases first
    simp only [Run.mk.injEq]
    dsimp only at hold hnew hlength
    omega
  have hempty : second = ⟨1, 0, 0⟩ := by
    rw [hsecond.none_iff]
    intro i j hi hi' hj hj' hkey
    obtain rfl : i = 1 := by dsimp only at hi hi'; omega
    obtain rfl : j = 0 := by dsimp only at hj hj'; omega
    simp [KeysMatch] at hkey
  rw [← hboth, ← hempty, ← htail]
  exact hruns

end RunTable

end Redline

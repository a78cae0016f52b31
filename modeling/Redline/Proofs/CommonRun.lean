import Redline.Diff.RunTable
/-!
# The longest common run

What the search over the shared table finds, said without a table: of the runs
that two parts have in common the longest, and of the longest the first one.
Whatever earlier searches left in the memo makes no difference.
-/

namespace Redline

variable {κ : Type} [BEq κ]

def KeysMatch (old new : List κ) (i j : Nat) : Prop :=
  ∃ a b, old[i]? = some a ∧ new[j]? = some b ∧ (a == b) = true

namespace Run

def IsCommon (r : Run) (old new : List κ) : Prop :=
  ∀ i < r.length, KeysMatch old new (r.oldStart + i) (r.newStart + i)

/-- Longer than another run, or as long and not behind it: the new list decides,
and then the old one. -/
def Beats (r s : Run) : Prop :=
  s.length ≤ r.length ∧
    (s.length = r.length →
      r.newStart < s.newStart ∨ r.newStart = s.newStart ∧ r.oldStart ≤ s.oldStart)

theorem Beats.antisymm {r s : Run} (hrs : r.Beats s) (hsr : s.Beats r) : r = s := by
  have hlength : s.length = r.length := Nat.le_antisymm hrs.1 hsr.1
  have hstarts := hrs.2 hlength
  have hstarts' := hsr.2 hlength.symm
  cases r
  cases s
  simp only [mk.injEq]
  dsimp only at hlength hstarts hstarts'
  omega

end Run

/-! ## The table -/

namespace RunTable

private def positionsOf (key : κ) : Nat → List κ → List Nat
  | _, [] => []
  | position, first :: rest =>
    if first == key then position :: positionsOf key (position + 1) rest
    else positionsOf key (position + 1) rest

private theorem getD_positionsByKey [Hashable κ] [EquivBEq κ] [LawfulHashable κ] (key : κ)
    (position : Nat) (keys : List κ) :
    (positionsByKey position keys).getD key [] = positionsOf key position keys := by
  induction keys generalizing position with
  | nil => exact Std.HashMap.getD_empty
  | cons first rest ih =>
    rw [positionsByKey, Std.HashMap.getD_insert, positionsOf]
    split
    · rename_i hkey
      rw [Std.HashMap.getD_congr hkey, ih]
    · rw [ih]

private theorem mem_positionsOf {key : κ} {position : Nat} {keys : List κ} {i : Nat} :
    i ∈ positionsOf key position keys ↔
      position ≤ i ∧ ∃ a, keys[i - position]? = some a ∧ (a == key) = true := by
  induction keys generalizing position with
  | nil => simp [positionsOf]
  | cons first rest ih =>
    have hlater : i ∈ positionsOf key (position + 1) rest ↔ position < i ∧
        ∃ a, (first :: rest)[i - position]? = some a ∧ (a == key) = true := by
      rw [ih]
      constructor
      · rintro ⟨hle, a, ha, hkey⟩
        refine ⟨hle, a, ?_, hkey⟩
        rwa [show i - position = i - (position + 1) + 1 by omega, List.getElem?_cons_succ]
      · rintro ⟨hlt, a, ha, hkey⟩
        refine ⟨hlt, a, ?_, hkey⟩
        rwa [show i - position = i - (position + 1) + 1 by omega, List.getElem?_cons_succ] at ha
    have hhere : i = position →
        ((∃ a, (first :: rest)[i - position]? = some a ∧ (a == key) = true) ↔
          (first == key) = true) := by
      rintro rfl
      rw [Nat.sub_self]
      simp
    rw [positionsOf]
    split
    · rw [List.mem_cons, hlater]
      constructor
      · rintro (rfl | ⟨hlt, h⟩)
        · exact ⟨Nat.le_refl _, (hhere rfl).mpr ‹_›⟩
        · exact ⟨Nat.le_of_lt hlt, h⟩
      · rintro ⟨hle, h⟩
        rcases Nat.eq_or_lt_of_le hle with rfl | hlt
        · exact .inl rfl
        · exact .inr ⟨hlt, h⟩
    · rw [hlater]
      constructor
      · rintro ⟨hlt, h⟩
        exact ⟨Nat.le_of_lt hlt, h⟩
      · rintro ⟨hle, h⟩
        rcases Nat.eq_or_lt_of_le hle with heq | hlt
        · exact absurd ((hhere heq.symm).mp h) ‹_›
        · exact ⟨hlt, h⟩

private theorem pairwise_positionsOf (key : κ) (position : Nat) (keys : List κ) :
    (positionsOf key position keys).Pairwise (· < ·) := by
  induction keys generalizing position with
  | nil => exact .nil
  | cons first rest ih =>
    rw [positionsOf]
    split
    · refine .cons (fun i hi => ?_) (ih _)
      exact (mem_positionsOf.mp hi).1
    · exact ih _

structure Lists (t : RunTable) (old new : List κ) : Prop where
  mem_iff : ∀ i j, i ∈ t.occurrences.getD j [] ↔ KeysMatch old new i j
  pairwise : ∀ j, (t.occurrences.getD j []).Pairwise (· < ·)

theorem lists_ofKeys [Hashable κ] [EquivBEq κ] [LawfulHashable κ] (old new : List κ) :
    (ofKeys old new).Lists old new := by
  have hget : ∀ j, (ofKeys old new).occurrences.getD j [] =
      (new[j]?.map fun key => positionsOf key 0 old).getD [] := by
    intro j
    rw [ofKeys, Array.getD_eq_getD_getElem?, List.getElem?_toArray, List.getElem?_map]
    simp only [getD_positionsByKey]
  constructor
  · intro i j
    rw [hget]
    cases hj : new[j]? with
    | none => simp [KeysMatch, hj]
    | some key => simp [KeysMatch, hj, mem_positionsOf]
  · intro j
    rw [hget]
    cases new[j]? with
    | none => exact .nil
    | some key => exact pairwise_positionsOf key 0 old

variable {t : RunTable} {oldKeys newKeys : List κ} {old new : Span} {i row : Nat}

theorem Lists.mem_candidates (ht : t.Lists oldKeys newKeys) :
    i ∈ t.candidates old row ↔
      KeysMatch oldKeys newKeys i row ∧ old.start ≤ i ∧ i < old.stop := by
  rw [candidates, List.mem_filter, ht.mem_iff, Bool.and_eq_true, decide_eq_true_eq,
    decide_eq_true_eq]

theorem Lists.pairwise_candidates (ht : t.Lists oldKeys newKeys) :
    (t.candidates old row).Pairwise (· < ·) :=
  (ht.pairwise row).filter _

end RunTable

/-! ## Runs by where they end -/

/-- A run of some length ends at a position of each list and lies behind the
starts of both parts. -/
def RunEndsAt (oldKeys newKeys : List κ) (old new : Span) (length i j : Nat) : Prop :=
  old.start + length ≤ i + 1 ∧ new.start + length ≤ j + 1 ∧
    ∀ k < length, KeysMatch oldKeys newKeys (i - k) (j - k)

def LongestEndsAt (oldKeys newKeys : List κ) (old new : Span) (length i j : Nat) : Prop :=
  RunEndsAt oldKeys newKeys old new length i j ∧
    ∀ n, RunEndsAt oldKeys newKeys old new n i j → n ≤ length

section

variable {oldKeys newKeys : List κ} {old new : Span} {length i j : Nat}

theorem runEndsAt_succ_iff (hi : old.start < i) (hj : new.start < j) :
    RunEndsAt oldKeys newKeys old new (length + 1) i j ↔
      KeysMatch oldKeys newKeys i j ∧ RunEndsAt oldKeys newKeys old new length (i - 1) (j - 1) := by
  constructor
  · rintro ⟨hold, hnew, hkeys⟩
    refine ⟨hkeys 0 (Nat.succ_pos _), by omega, by omega, fun k hk => ?_⟩
    have h := hkeys (k + 1) (by omega)
    rwa [Nat.sub_add_eq, Nat.sub_right_comm, Nat.sub_add_eq, Nat.sub_right_comm j] at h
  · rintro ⟨hkey, hold, hnew, hkeys⟩
    refine ⟨by omega, by omega, fun k hk => ?_⟩
    cases k with
    | zero => exact hkey
    | succ k =>
      have h := hkeys k (by omega)
      rwa [← Nat.sub_add_eq, ← Nat.sub_add_eq, Nat.add_comm 1 k] at h

theorem runEndsAt_one (hi : old.start ≤ i) (hj : new.start ≤ j)
    (hkey : KeysMatch oldKeys newKeys i j) : RunEndsAt oldKeys newKeys old new 1 i j := by
  refine ⟨by omega, by omega, fun k hk => ?_⟩
  rw [show k = 0 by omega]
  exact hkey

theorem longestEndsAt_one (hi : old.start ≤ i) (hj : new.start ≤ j)
    (hkey : KeysMatch oldKeys newKeys i j)
    (hfirst : old.start < i → new.start < j → ¬KeysMatch oldKeys newKeys (i - 1) (j - 1)) :
    LongestEndsAt oldKeys newKeys old new 1 i j := by
  refine ⟨runEndsAt_one hi hj hkey, fun n ⟨hold, hnew, hkeys⟩ => ?_⟩
  apply Nat.le_of_not_lt
  intro hn
  exact hfirst (by omega) (by omega) (hkeys 1 hn)

theorem LongestEndsAt.succ (hi : old.start < i) (hj : new.start < j)
    (hkey : KeysMatch oldKeys newKeys i j)
    (h : LongestEndsAt oldKeys newKeys old new length (i - 1) (j - 1)) :
    LongestEndsAt oldKeys newKeys old new (length + 1) i j := by
  refine ⟨(runEndsAt_succ_iff hi hj).mpr ⟨hkey, h.1⟩, fun n hn => ?_⟩
  cases n with
  | zero => exact Nat.zero_le _
  | succ n =>
    have hbound := h.2 n ((runEndsAt_succ_iff hi hj).mp hn).2
    omega

end

/-! ## The memo -/

namespace RunMemo

private theorem getD_setEnds_map (row : Nat) (f : Nat → Nat) (positions : List Nat)
    (ends : Array RunEnd) (i : Nat) :
    (setEnds row ends (positions.map fun i => (i, f i))).getD i ⟨0, 0⟩ =
      if i ∈ positions ∧ i < ends.size then ⟨row, f i⟩ else ends.getD i ⟨0, 0⟩ := by
  induction positions generalizing ends with
  | nil => simp [setEnds]
  | cons p rest ih =>
    rw [List.map_cons, setEnds, ih, Array.size_setIfInBounds]
    by_cases hrest : i ∈ rest ∧ i < ends.size
    · rw [if_pos hrest, if_pos ⟨List.mem_cons_of_mem _ hrest.1, hrest.2⟩]
    · rw [if_neg hrest, Array.getD_eq_getD_getElem?, Array.getElem?_setIfInBounds]
      by_cases hp : p = i
      · subst hp
        by_cases hsize : p < ends.size
        · rw [if_pos rfl, if_pos hsize, if_pos ⟨List.mem_cons_self, hsize⟩, Option.getD_some]
        · rw [if_pos rfl, if_neg hsize, if_neg (fun h => hsize h.2), Array.getD_eq_getD_getElem?,
            Array.getElem?_eq_none (Nat.le_of_not_lt hsize)]
      · have hout : ¬(i ∈ p :: rest ∧ i < ends.size) := by
          rintro ⟨hmem, hsize⟩
          rcases List.mem_cons.mp hmem with heq | hmem
          · exact hp heq.symm
          · exact hrest ⟨hmem, hsize⟩
        rw [if_neg hp, if_neg hout, Array.getD_eq_getD_getElem?]

private theorem size_setEnds (row : Nat) (lengths : List (Nat × Nat)) (ends : Array RunEnd) :
    (setEnds row ends lengths).size = ends.size := by
  induction lengths generalizing ends with
  | nil => rfl
  | cons entry rest ih =>
    obtain ⟨position, length⟩ := entry
    rw [setEnds, ih, Array.size_setIfInBounds]

theorem size_ends_record (m : RunMemo) (lengths : List (Nat × Nat)) :
    (m.record lengths).ends.size = m.ends.size :=
  size_setEnds _ lengths m.ends

/-- What the latest row holds for a part of the old list are the longest runs that
end in the row before the given one; in the first row of a part nothing counts. -/
def IsMeasured (m : RunMemo) (oldKeys newKeys : List κ) (old new : Span) (row : Nat) : Prop :=
  new.start < row → ∀ i, old.start ≤ i → i < old.stop →
    ((m.endAt i).row = m.clock ↔ KeysMatch oldKeys newKeys i (row - 1)) ∧
      ((m.endAt i).row = m.clock →
        LongestEndsAt oldKeys newKeys old new (m.endAt i).length i (row - 1))

variable {m : RunMemo} {oldKeys newKeys : List κ} {old new : Span} {row : Nat}

theorem IsMeasured.longestEndsAt (hm : m.IsMeasured oldKeys newKeys old new row)
    (hrow : new.start ≤ row) {i : Nat} (hi : old.start ≤ i) (hstop : i < old.stop)
    (hkey : KeysMatch oldKeys newKeys i row) :
    LongestEndsAt oldKeys newKeys old new (m.lengthAt old (row = new.start) i) i row := by
  unfold lengthAt
  simp only [Bool.and_eq_true, Bool.not_eq_true', decide_eq_false_iff_not, decide_eq_true_eq]
  by_cases hinner : new.start < row ∧ old.start < i
  · obtain ⟨hstamp, hlongest⟩ := hm hinner.1 (i - 1) (by omega) (by omega)
    split
    · exact (hlongest (by omega)).succ hinner.2 hinner.1 hkey
    · apply longestEndsAt_one hi hrow hkey
      intro _ _ hbefore
      exact absurd (hstamp.mpr hbefore) (by omega)
  · rw [if_neg (by omega)]
    exact longestEndsAt_one hi hrow hkey fun hi hrow => absurd ⟨hrow, hi⟩ hinner

theorem IsMeasured.record {t : RunTable} (ht : t.Lists oldKeys newKeys)
    (hm : m.IsMeasured oldKeys newKeys old new row) (hsize : m.ends.size = oldKeys.length)
    (hrow : new.start ≤ row) :
    (m.record (t.measured m old new row)).IsMeasured oldKeys newKeys old new (row + 1) := by
  intro _ i hi hstop
  have hend : (m.record (t.measured m old new row)).endAt i =
      if i ∈ t.candidates old row ∧ i < m.ends.size then
        ⟨m.clock + 1, m.lengthAt old (row = new.start) i⟩ else m.endAt i :=
    getD_setEnds_map _ _ _ _ _
  have hclock : (m.record (t.measured m old new row)).clock = m.clock + 1 := rfl
  rw [Nat.add_sub_cancel, hend, hclock]
  by_cases hkey : KeysMatch oldKeys newKeys i row
  · have hin : i < m.ends.size := by
      obtain ⟨a, b, ha, -⟩ := hkey
      rw [hsize]
      exact (List.getElem?_eq_some_iff.mp ha).1
    rw [if_pos ⟨ht.mem_candidates.mpr ⟨hkey, hi, hstop⟩, hin⟩]
    exact ⟨iff_of_true rfl hkey, fun _ => hm.longestEndsAt hrow hi hstop hkey⟩
  · have hle := m.row_endAt_le i
    rw [if_neg fun h => hkey (ht.mem_candidates.mp h.1).1]
    refine ⟨iff_of_false (by omega) hkey, fun h => ?_⟩
    omega

end RunMemo

/-! ## The search -/

namespace Run

structure IsCommonIn (r : Run) (oldKeys newKeys : List κ) (old new : Span) : Prop where
  within : r.Within old new
  common : r.IsCommon oldKeys newKeys

/-- The run ends in an earlier row, or in the same row before a position of the old list. -/
def EndsBefore (r : Run) (row position : Nat) : Prop :=
  r.newStart + r.length ≤ row ∨
    r.newStart + r.length = row + 1 ∧ r.oldStart + r.length ≤ position

structure IsBestBefore (r : Run) (oldKeys newKeys : List κ) (old new : Span)
    (row position : Nat) : Prop where
  common : 0 < r.length → r.IsCommonIn oldKeys newKeys old new ∧ r.EndsBefore row position
  beats : ∀ s : Run, s.IsCommonIn oldKeys newKeys old new → 0 < s.length →
    s.EndsBefore row position → r.Beats s

variable {r s : Run} {oldKeys newKeys : List κ} {old new : Span} {row position i n : Nat}

theorem IsCommonIn.runEndsAt (hs : s.IsCommonIn oldKeys newKeys old new)
    (hold : s.oldStart + s.length = i + 1) (hnew : s.newStart + s.length = row + 1) :
    RunEndsAt oldKeys newKeys old new s.length i row := by
  obtain ⟨⟨hstart, -, hstart', -⟩, hkeys⟩ := hs
  refine ⟨by omega, by omega, fun k hk => ?_⟩
  have h := hkeys (s.length - 1 - k) (by omega)
  rwa [show s.oldStart + (s.length - 1 - k) = i - k by omega,
    show s.newStart + (s.length - 1 - k) = row - k by omega] at h

theorem isCommonIn_of_runEndsAt (h : RunEndsAt oldKeys newKeys old new n i row)
    (hi : i < old.stop) (hrow : row < new.stop) :
    Run.IsCommonIn ⟨i + 1 - n, row + 1 - n, n⟩ oldKeys newKeys old new := by
  obtain ⟨hold, hnew, hkeys⟩ := h
  refine ⟨⟨?_, ?_, ?_, ?_⟩, fun k hk => ?_⟩
  · show old.start ≤ i + 1 - n
    omega
  · show i + 1 - n + n ≤ old.stop
    omega
  · show new.start ≤ row + 1 - n
    omega
  · show row + 1 - n + n ≤ new.stop
    omega
  · have hk : k < n := hk
    have h := hkeys (n - 1 - k) (by omega)
    rwa [show i - (n - 1 - k) = i + 1 - n + k by omega,
      show row - (n - 1 - k) = row + 1 - n + k by omega] at h

theorem IsBestBefore.skip (h : r.IsBestBefore oldKeys newKeys old new row position)
    (hle : position ≤ i)
    (hnone : ∀ p, position ≤ p → p < i → ¬KeysMatch oldKeys newKeys p row) :
    r.IsBestBefore oldKeys newKeys old new row i := by
  refine ⟨fun hpos => ⟨(h.common hpos).1, ?_⟩, fun s hs hpos hbefore => ?_⟩
  · rcases (h.common hpos).2 with hrow | ⟨hrow, hold⟩
    · exact .inl hrow
    · exact .inr ⟨hrow, Nat.le_trans hold hle⟩
  · apply h.beats s hs hpos
    rcases hbefore with hrow | ⟨hrow, hold⟩
    · exact .inl hrow
    · refine .inr ⟨hrow, Nat.le_of_not_lt fun hlt => ?_⟩
      have hend := hs.runEndsAt (i := s.oldStart + s.length - 1) (by omega) hrow
      exact hnone (s.oldStart + s.length - 1) (by omega) (by omega) (hend.2.2 0 hpos)

theorem IsBestBefore.orEnding (h : r.IsBestBefore oldKeys newKeys old new row i)
    (hn : LongestEndsAt oldKeys newKeys old new n i row) (hi : i < old.stop)
    (hrow : row < new.stop) :
    (r.orEnding i row n).IsBestBefore oldKeys newKeys old new row (i + 1) := by
  have hbefore : ∀ s : Run, s.IsCommonIn oldKeys newKeys old new → s.EndsBefore row (i + 1) →
      s.EndsBefore row i ∨ s.oldStart + s.length = i + 1 ∧ s.newStart + s.length = row + 1 ∧
        s.length ≤ n := by
    intro s hs hbefore
    rcases hbefore with hrow | ⟨hrow, hold⟩
    · exact .inl (.inl hrow)
    · by_cases hend : s.oldStart + s.length ≤ i
      · exact .inl (.inr ⟨hrow, hend⟩)
      · have hend : s.oldStart + s.length = i + 1 := by omega
        exact .inr ⟨hend, hrow, hn.2 s.length (hs.runEndsAt hend hrow)⟩
  have hold := hn.1.1
  have hnew := hn.1.2.1
  unfold Run.orEnding
  split
  · -- longer than all before, so only those that end here matter
    refine ⟨fun _ => ⟨isCommonIn_of_runEndsAt hn.1 hi hrow, .inr ⟨?_, ?_⟩⟩, fun s hs hpos hs' => ?_⟩
    · show row + 1 - n + n = row + 1
      omega
    · show i + 1 - n + n ≤ i + 1
      omega
    · show s.length ≤ n ∧ (s.length = n → row + 1 - n < s.newStart ∨
        row + 1 - n = s.newStart ∧ i + 1 - n ≤ s.oldStart)
      rcases hbefore s hs hs' with hs' | ⟨hold, hnew, hle⟩
      · have hle := (h.beats s hs hpos hs').1
        omega
      · omega
  · refine ⟨fun hpos => ⟨(h.common hpos).1, ?_⟩, fun s hs hpos hs' => ?_⟩
    · rcases (h.common hpos).2 with hrow | ⟨hrow, hold⟩
      · exact .inl hrow
      · exact .inr ⟨hrow, Nat.le_succ_of_le hold⟩
    · rcases hbefore s hs hs' with hs' | ⟨hold, hnew, hle⟩
      · exact h.beats s hs hpos hs'
      · refine ⟨by omega, fun heq => ?_⟩
        rcases (h.common (by omega)).2 with hrow | ⟨hrow, hold⟩
        · omega
        · omega

end Run

namespace RunTable

variable {t : RunTable} {m : RunMemo} {oldKeys newKeys : List κ} {old new : Span} {best : Run}

/-- The positions of one row are gone through in order, so an earlier one wins a tie. -/
private theorem isBestBefore_improved {row position : Nat} {f : Nat → Nat}
    (positions : List Nat) (hbest : best.IsBestBefore oldKeys newKeys old new row position)
    (hpositions : ∀ i, i ∈ positions ↔
      KeysMatch oldKeys newKeys i row ∧ position ≤ i ∧ i < old.stop)
    (hpairwise : positions.Pairwise (· < ·)) (hposition : position ≤ old.stop)
    (hlengths : ∀ i ∈ positions, LongestEndsAt oldKeys newKeys old new (f i) i row)
    (hrow : row < new.stop) :
    (improved best row (positions.map fun i => (i, f i))).IsBestBefore oldKeys newKeys old new
      row old.stop := by
  induction positions generalizing best position with
  | nil =>
    apply hbest.skip hposition
    intro p hp hstop hkey
    exact List.not_mem_nil ((hpositions p).mpr ⟨hkey, hp, hstop⟩)
  | cons i rest ih =>
    obtain ⟨-, hi, hstop⟩ := (hpositions i).mp List.mem_cons_self
    obtain ⟨hfirst, hrest⟩ := List.pairwise_cons.mp hpairwise
    have hskip := hbest.skip hi fun p hp hlt hkey => by
      rcases List.mem_cons.mp ((hpositions p).mpr ⟨hkey, hp, by omega⟩) with rfl | hmem
      · exact Nat.lt_irrefl _ hlt
      · exact Nat.lt_asymm hlt (hfirst p hmem)
    have hnext := hskip.orEnding (hlengths i List.mem_cons_self) hstop hrow
    refine ih hnext (fun p => ?_) hrest hstop fun p hp => hlengths p (List.mem_cons_of_mem _ hp)
    constructor
    · intro hp
      obtain ⟨hkey, -, hp'⟩ := (hpositions p).mp (List.mem_cons_of_mem _ hp)
      exact ⟨hkey, hfirst p hp, hp'⟩
    · rintro ⟨hkey, hlt, hp⟩
      rcases List.mem_cons.mp ((hpositions p).mpr ⟨hkey, by omega, hp⟩) with rfl | hmem
      · exact absurd hlt (Nat.lt_irrefl _)
      · exact hmem

private theorem isBestBefore_row (ht : t.Lists oldKeys newKeys) {row : Nat}
    (hm : m.IsMeasured oldKeys newKeys old new row)
    (hbest : best.IsBestBefore oldKeys newKeys old new row old.start) (hold : old.start ≤ old.stop)
    (hrow : new.start ≤ row) (hstop : row < new.stop) :
    (improved best row (t.measured m old new row)).IsBestBefore oldKeys newKeys old new
      (row + 1) old.start := by
  have hlast := isBestBefore_improved (t.candidates old row) hbest
    (fun i => ht.mem_candidates) ht.pairwise_candidates hold (fun i hi => by
      obtain ⟨hkey, hi, hstop⟩ := ht.mem_candidates.mp hi
      exact hm.longestEndsAt hrow hi hstop hkey) hstop
  refine ⟨fun hpos => ?_, fun s hs hpos hbefore => hlast.beats s hs hpos ?_⟩
  · obtain ⟨hcommon, hbefore⟩ := hlast.common hpos
    refine ⟨hcommon, .inl ?_⟩
    rcases hbefore with hrow | ⟨hrow, -⟩
    · exact Nat.le_succ_of_le hrow
    · exact Nat.le_of_eq hrow
  · obtain ⟨hstart, hend, -, -⟩ := hs.within
    rcases hbefore with hrow | ⟨hrow, hposition⟩
    · rcases Nat.lt_or_eq_of_le hrow with hrow | hrow
      · exact .inl (Nat.le_of_lt_succ hrow)
      · exact .inr ⟨hrow, hend⟩
    · omega

private theorem isBestBefore_search (ht : t.Lists oldKeys newKeys) (hold : old.start ≤ old.stop)
    (count row : Nat) (hm : m.IsMeasured oldKeys newKeys old new row)
    (hsize : m.ends.size = oldKeys.length)
    (hbest : best.IsBestBefore oldKeys newKeys old new row old.start) (hrow : new.start ≤ row)
    (hstop : row + count ≤ new.stop) :
    (t.search old new (List.range' row count) best m).1.IsBestBefore oldKeys newKeys old new
      (row + count) old.start := by
  induction count generalizing row best m with
  | zero => exact hbest
  | succ count ih =>
    rw [List.range'_succ, search, show row + (count + 1) = row + 1 + count by omega]
    refine ih (row + 1) (hm.record ht hsize hrow) ?_ ?_ (by omega) (by omega)
    · rw [RunMemo.size_ends_record, hsize]
    · exact isBestBefore_row ht hm hbest hold hrow (by omega)

private theorem size_ends_search (t : RunTable) (old new : Span) (rows : List Nat) (best : Run)
    (m : RunMemo) : (t.search old new rows best m).2.ends.size = m.ends.size := by
  induction rows generalizing best m with
  | nil => rfl
  | cons row rows ih => rw [search, ih, RunMemo.size_ends_record]

theorem size_ends_longestCommonRun (t : RunTable) (m : RunMemo) (old new : Span) :
    (t.longestCommonRun m old new).2.ends.size = m.ends.size :=
  size_ends_search t old new _ _ m

/-- The search finds a common run, if there is one, that beats all others. -/
theorem longestCommonRun_spec (ht : t.Lists oldKeys newKeys)
    (hsize : m.ends.size = oldKeys.length) (hold : old.start ≤ old.stop)
    (hnew : new.start ≤ new.stop) :
    (0 < (t.longestCommonRun m old new).1.length →
      (t.longestCommonRun m old new).1.IsCommonIn oldKeys newKeys old new) ∧
    ∀ s : Run, s.IsCommonIn oldKeys newKeys old new → 0 < s.length →
      (t.longestCommonRun m old new).1.Beats s := by
  have hbest : Run.IsBestBefore ⟨old.start, new.start, 0⟩ oldKeys newKeys old new
      new.start old.start := by
    refine ⟨fun h => absurd h (Nat.lt_irrefl 0), fun s hs hpos hbefore => ?_⟩
    obtain ⟨hstart, -, hstart', -⟩ := hs.within
    rcases hbefore with hrow | ⟨-, hposition⟩
    · omega
    · omega
  have hsearch := isBestBefore_search ht hold new.length new.start
    (m := m) (fun h => absurd h (Nat.lt_irrefl _)) hsize hbest (Nat.le_refl _)
    (by unfold Span.length; omega)
  refine ⟨fun hpos => (hsearch.common hpos).1, fun s hs hpos => ?_⟩
  refine hsearch.beats s hs hpos (.inl ?_)
  obtain ⟨-, -, -, hend⟩ := hs.within
  unfold Span.length
  omega

end RunTable

end Redline

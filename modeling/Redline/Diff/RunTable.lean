import Redline.Span
import Std.Data.HashMap
/-!
# Longest common runs

Two lists are searched for the longest contiguous run that parts of both have in
common.  The lengths of runs are kept by the position in the old list where the
run ends, each with the row in which it was measured; an entry counts only in
the row after its own, so one table serves any number of searches.
-/

namespace Redline

/-- Equal elements from two starting positions on. -/
structure Run where
  oldStart : Nat
  newStart : Nat
  length : Nat
  deriving DecidableEq, Inhabited, Repr

namespace Run

def Within (r : Run) (old new : Span) : Prop :=
  old.start ≤ r.oldStart ∧ r.oldStart + r.length ≤ old.stop ∧
    new.start ≤ r.newStart ∧ r.newStart + r.length ≤ new.stop

/-- The longer one of two runs, the second being given by its length and the
positions where it ends; the first wins a tie. -/
def orEnding (best : Run) (oldEnd newEnd length : Nat) : Run :=
  if best.length < length then ⟨oldEnd + 1 - length, newEnd + 1 - length, length⟩ else best

end Run

/-- For each position of the new list the positions of the old list with an
equal key, in ascending order. -/
structure RunTable where
  occurrences : Array (List Nat)

/-- The length of the run that ends at some position, and the row it was
measured in. -/
structure RunEnd where
  row : Nat
  length : Nat
  deriving DecidableEq, Inhabited, Repr

structure RunMemo where
  /-- By positions of the old list. -/
  ends : Array RunEnd
  /-- The number of the latest row. -/
  clock : Nat
  row_le_clock : ∀ e ∈ ends, e.row ≤ clock

namespace RunMemo

def fresh (length : Nat) : RunMemo where
  ends := Array.replicate length ⟨0, 0⟩
  clock := 0
  row_le_clock := by simp [Array.mem_replicate]

def endAt (m : RunMemo) (position : Nat) : RunEnd :=
  m.ends.getD position ⟨0, 0⟩

theorem row_endAt_le (m : RunMemo) (position : Nat) :
    (m.endAt position).row ≤ m.clock := by
  unfold endAt
  by_cases h : position < m.ends.size
  · rw [Array.getD_eq_getD_getElem?, Array.getElem?_eq_getElem h]
    exact m.row_le_clock _ (Array.getElem_mem h)
  · rw [Array.getD_eq_getD_getElem?, Array.getElem?_eq_none (Nat.le_of_not_lt h)]
    exact Nat.zero_le _

/-- Length of the run that ends at a position of the old list and in the row
after the latest one.  It goes on from the position before if a run ended there
in the latest row; nothing goes on in the first row or at the first position. -/
def lengthAt (m : RunMemo) (old : Span) (firstRow : Bool) (position : Nat) : Nat :=
  let before := m.endAt (position - 1)
  if !firstRow && old.start < position && before.row = m.clock then before.length + 1 else 1

def setEnds (row : Nat) (ends : Array RunEnd) : List (Nat × Nat) → Array RunEnd
  | [] => ends
  | (position, length) :: rest => setEnds row (ends.setIfInBounds position ⟨row, length⟩) rest

theorem row_le_of_mem_setEnds {row clock : Nat} (h : row ≤ clock) (lengths : List (Nat × Nat))
    (ends : Array RunEnd) (hends : ∀ e ∈ ends, e.row ≤ clock) :
    ∀ e ∈ setEnds row ends lengths, e.row ≤ clock := by
  induction lengths generalizing ends with
  | nil => exact hends
  | cons entry rest ih =>
    refine ih _ fun e he => ?_
    rcases Array.mem_or_eq_of_mem_setIfInBounds he with he | rfl
    · exact hends e he
    · exact h

/-- Notes the lengths of the runs of the next row, by the positions they end at. -/
def record (m : RunMemo) (lengths : List (Nat × Nat)) : RunMemo where
  ends := setEnds (m.clock + 1) m.ends lengths
  clock := m.clock + 1
  row_le_clock :=
    row_le_of_mem_setEnds (Nat.le_refl _) lengths m.ends fun e he =>
      Nat.le_succ_of_le (m.row_le_clock e he)

end RunMemo

namespace RunTable

/-- The positions of each key, in ascending order, the first element having the
given position. -/
def positionsByKey [BEq κ] [Hashable κ] : Nat → List κ → Std.HashMap κ (List Nat)
  | _, [] => ∅
  | position, key :: rest =>
    let later := positionsByKey (position + 1) rest
    later.insert key (position :: later.getD key [])

def ofKeys [BEq κ] [Hashable κ] (old new : List κ) : RunTable :=
  let positions := positionsByKey 0 old
  ⟨(new.map fun key => positions.getD key []).toArray⟩

def candidates (t : RunTable) (old : Span) (newPosition : Nat) : List Nat :=
  (t.occurrences.getD newPosition []).filter fun i => old.start ≤ i && i < old.stop

def measured (t : RunTable) (m : RunMemo) (old new : Span) (newPosition : Nat) :
    List (Nat × Nat) :=
  (t.candidates old newPosition).map fun i => (i, m.lengthAt old (newPosition = new.start) i)

def improved (best : Run) (newPosition : Nat) (lengths : List (Nat × Nat)) : Run :=
  lengths.foldl (fun best entry => best.orEnding entry.1 newPosition entry.2) best

def search (t : RunTable) (old new : Span) : List Nat → Run → RunMemo → Run × RunMemo
  | [], best, m => (best, m)
  | newPosition :: rest, best, m =>
    let lengths := t.measured m old new newPosition
    t.search old new rest (improved best newPosition lengths) (m.record lengths)

/-- The longest run that two parts have in common: of several, the one that
starts first in the new list, and of these the one that starts first in the old
list.  Its length is zero if no keys are equal. -/
def longestCommonRun (t : RunTable) (m : RunMemo) (old new : Span) : Run × RunMemo :=
  t.search old new (List.range' new.start new.length) ⟨old.start, new.start, 0⟩ m

/-! ## The run lies in both parts -/

private theorem getD_setEnds (row : Nat) (lengths : List (Nat × Nat)) (ends : Array RunEnd)
    (i : Nat) :
    (RunMemo.setEnds row ends lengths).getD i ⟨0, 0⟩ = ends.getD i ⟨0, 0⟩ ∨
      ∃ n, (i, n) ∈ lengths ∧ (RunMemo.setEnds row ends lengths).getD i ⟨0, 0⟩ = ⟨row, n⟩ := by
  induction lengths generalizing ends with
  | nil => exact .inl rfl
  | cons entry rest ih =>
    obtain ⟨p, n⟩ := entry
    rcases ih (ends.setIfInBounds p ⟨row, n⟩) with h | ⟨k, hk, h⟩
    · rw [RunMemo.setEnds, h]
      simp only [Array.getD_eq_getD_getElem?, Array.getElem?_setIfInBounds]
      by_cases hp : p = i
      · by_cases hi : i < ends.size
        · subst hp
          exact .inr ⟨n, by simp, by simp [hi]⟩
        · left
          simp [hp, hi]
      · left
        simp [hp]
    · exact .inr ⟨k, List.mem_cons_of_mem _ hk, h⟩

theorem endAt_record (m : RunMemo) (lengths : List (Nat × Nat)) (i : Nat) :
    (m.record lengths).endAt i = m.endAt i ∨
      ∃ n, (i, n) ∈ lengths ∧ (m.record lengths).endAt i = ⟨m.clock + 1, n⟩ :=
  getD_setEnds _ lengths m.ends i

/-- Every run of the latest row lies behind `old.start` and in the rows from
`new.start` up to `row`. -/
private def Confined (m : RunMemo) (old new : Span) (row : Nat) : Prop :=
  new.start < row → ∀ i, old.start ≤ i → (m.endAt i).row = m.clock →
    (m.endAt i).length ≤ i + 1 - old.start ∧ (m.endAt i).length ≤ row - new.start

private theorem le_of_mem_measured {t : RunTable} {m : RunMemo} {old new : Span} {row i n : Nat}
    (hm : Confined m old new row) (hrow : new.start ≤ row)
    (h : (i, n) ∈ t.measured m old new row) :
    (old.start ≤ i ∧ i < old.stop) ∧ n ≤ i + 1 - old.start ∧ n ≤ row + 1 - new.start := by
  simp only [measured, candidates, List.mem_map, List.mem_filter, Bool.and_eq_true,
    decide_eq_true_eq, Prod.mk.injEq] at h
  obtain ⟨k, ⟨_, hk⟩, rfl, rfl⟩ := h
  refine ⟨hk, ?_⟩
  simp only [RunMemo.lengthAt, Bool.and_eq_true, Bool.not_eq_true', decide_eq_false_iff_not,
    decide_eq_true_eq]
  split
  · have := hm (by omega) (k - 1) (by omega) (by omega)
    omega
  · omega

private theorem Confined.record {t : RunTable} {m : RunMemo} {old new : Span} {row : Nat}
    (hm : Confined m old new row) (hrow : new.start ≤ row) :
    Confined (m.record (t.measured m old new row)) old new (row + 1) := by
  intro _ i hi hstamp
  rcases endAt_record m (t.measured m old new row) i with h | ⟨n, hn, h⟩
  · have := m.row_endAt_le i
    rw [h] at hstamp
    simp only [RunMemo.record] at hstamp
    omega
  · have := le_of_mem_measured hm hrow hn
    rw [h]
    exact this.2

private theorem improved_within {best : Run} {old new : Span} {row : Nat}
    {lengths : List (Nat × Nat)} (hbest : best.Within old new)
    (hrow : row < new.stop)
    (h : ∀ e ∈ lengths, (old.start ≤ e.1 ∧ e.1 < old.stop) ∧
      e.2 ≤ e.1 + 1 - old.start ∧ e.2 ≤ row + 1 - new.start) :
    (improved best row lengths).Within old new := by
  induction lengths generalizing best with
  | nil => exact hbest
  | cons e rest ih =>
    refine ih ?_ fun e' he' => h e' (List.mem_cons_of_mem _ he')
    have := h e List.mem_cons_self
    show (best.orEnding e.1 row e.2).Within old new
    unfold Run.orEnding
    split
    · simp only [Run.Within] at *
      omega
    · exact hbest

private theorem search_within (t : RunTable) (old new : Span) (count row : Nat) (best : Run)
    (m : RunMemo) (hm : Confined m old new row) (hbest : best.Within old new)
    (hrow : new.start ≤ row) (hstop : row + count ≤ new.stop) :
    (t.search old new (List.range' row count) best m).1.Within old new := by
  induction count generalizing row best m with
  | zero => exact hbest
  | succ count ih =>
    rw [List.range'_succ]
    refine ih (row + 1) _ _ (hm.record hrow) ?_ (by omega) (by omega)
    exact improved_within hbest (by omega) fun e he => le_of_mem_measured hm hrow he

theorem longestCommonRun_within (t : RunTable) (m : RunMemo) {old new : Span}
    (hold : old.start ≤ old.stop) (hnew : new.start ≤ new.stop) :
    (t.longestCommonRun m old new).1.Within old new := by
  refine search_within t old new _ _ _ _ (fun h => absurd h (Nat.lt_irrefl _)) ?_
    (Nat.le_refl _) ?_
  · simp only [Run.Within]
    omega
  · simp only [Span.length]
    omega

end RunTable

end Redline

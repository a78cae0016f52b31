import Redline.Proofs.BlockDiff
/-!
# Hunks as a patch

A comparison, read as instructions for the old list: keep, remove, put in.  What
that makes of the old list is the new one, as far as the keys can tell.
-/

namespace Redline

variable {α κ : Type}

namespace Hunk

/-- The old list with the changes of the hunks; kept elements stay as they are. -/
def patch : List (Hunk α) → List α → List α
  | [], old => old
  | ⟨.equal, kept⟩ :: rest, old => old.take kept.length ++ patch rest (old.drop kept.length)
  | ⟨.delete, gone⟩ :: rest, old => patch rest (old.drop gone.length)
  | ⟨.insert, added⟩ :: rest, old => added ++ patch rest old

def oldLength (hunks : List (Hunk α)) : Nat :=
  (hunks.flatMap oldValues).length

theorem oldLength_cons (h : Hunk α) (rest : List (Hunk α)) :
    oldLength (h :: rest) = h.oldValues.length + oldLength rest := by
  rw [oldLength, List.flatMap_cons, List.length_append]
  rfl

theorem oldLength_equal (kept : List α) (rest : List (Hunk α)) :
    oldLength (⟨.equal, kept⟩ :: rest) = kept.length + oldLength rest :=
  oldLength_cons _ rest

theorem oldLength_delete (gone : List α) (rest : List (Hunk α)) :
    oldLength (⟨.delete, gone⟩ :: rest) = gone.length + oldLength rest :=
  oldLength_cons _ rest

theorem oldLength_insert (added : List α) (rest : List (Hunk α)) :
    oldLength (⟨.insert, added⟩ :: rest) = oldLength rest :=
  (oldLength_cons _ rest).trans (Nat.zero_add _)

theorem oldLength_append (a b : List (Hunk α)) :
    oldLength (a ++ b) = oldLength a + oldLength b := by
  rw [oldLength, List.flatMap_append, List.length_append]
  rfl

theorem patch_append {a b : List (Hunk α)} {front back : List α}
    (ha : oldLength a = front.length) :
    patch (a ++ b) (front ++ back) = patch a front ++ patch b back := by
  induction a generalizing front with
  | nil =>
    rw [List.eq_nil_of_length_eq_zero ha.symm]
    rfl
  | cons h rest ih =>
    obtain ⟨kind, values⟩ := h
    cases kind with
    | equal =>
      rw [oldLength_equal] at ha
      have hle : values.length ≤ front.length := by omega
      have hrest : oldLength rest = (front.drop values.length).length := by
        rw [List.length_drop]
        omega
      rw [List.cons_append, patch, patch, List.take_append_of_le_length hle,
        List.drop_append_of_le_length hle, ih hrest, List.append_assoc]
    | delete =>
      rw [oldLength_delete] at ha
      have hle : values.length ≤ front.length := by omega
      have hrest : oldLength rest = (front.drop values.length).length := by
        rw [List.length_drop]
        omega
      rw [List.cons_append, patch, patch, List.drop_append_of_le_length hle, ih hrest]
    | insert =>
      rw [oldLength_insert] at ha
      rw [List.cons_append, patch, patch, ih ha, List.append_assoc]

variable [BEq κ] {key : α → κ} {old new : List α} {hunks : List (Hunk α)}

theorem length_le_of_isFirstLongest {r : Run}
    (hrun : r.IsFirstLongest (old.map key) (new.map key)) :
    r.oldStart + r.length ≤ old.length ∧ r.newStart + r.length ≤ new.length := by
  have hpos := hrun.pos
  obtain ⟨a, b, ha, hb, -⟩ := hrun.common (r.length - 1) (by omega)
  have hold := (List.getElem?_eq_some_iff.mp ha).1
  have hnew := (List.getElem?_eq_some_iff.mp hb).1
  rw [List.length_map] at hold hnew
  omega

theorem split_at_run (xs : List α) (start count : Nat) :
    xs = xs.take start ++ ((xs.drop start).take count ++ xs.drop (start + count)) := by
  rw [← List.drop_drop, List.take_append_drop, List.take_append_drop]

theorem PlainDiff.values_ne_nil (h : PlainDiff key old new hunks) :
    ∀ hunk ∈ hunks, hunk.values ≠ [] := by
  induction h with
  | nil => exact fun hunk hmem => absurd hmem List.not_mem_nil
  | insert hnew =>
    intro hunk hmem
    rw [List.mem_singleton.mp hmem]
    exact hnew
  | delete hold =>
    intro hunk hmem
    rw [List.mem_singleton.mp hmem]
    exact hold
  | apart hold hnew =>
    intro hunk hmem
    rcases List.mem_cons.mp hmem with rfl | hmem
    · exact hold
    · rw [List.mem_singleton.mp hmem]
      exact hnew
  | around hrun _ _ ihleft ihright =>
    intro hunk hmem
    rcases List.mem_append.mp hmem with hmem | hmem
    · exact ihleft hunk hmem
    · rcases List.mem_cons.mp hmem with rfl | hmem
      · have hpos := hrun.pos
        obtain ⟨-, hlength⟩ := length_le_of_isFirstLongest hrun
        apply List.ne_nil_of_length_pos
        rw [List.length_take, List.length_drop]
        omega
      · exact ihright hunk hmem

theorem PlainDiff.flatMap_newValues (h : PlainDiff key old new hunks) :
    hunks.flatMap newValues = new := by
  induction h with
  | nil => rfl
  | insert hnew => exact List.append_nil _
  | delete hold => rfl
  | apart hold hnew => exact List.append_nil _
  | @around old new before behind r hrun _ _ ihleft ihright =>
    rw [List.flatMap_append, List.flatMap_cons, ihleft, ihright]
    exact (split_at_run new r.newStart r.length).symm

theorem PlainDiff.oldLength_eq (h : PlainDiff key old new hunks) :
    oldLength hunks = old.length := by
  induction h with
  | nil => rfl
  | insert hnew => rfl
  | @delete old hold =>
    change (old ++ []).length = old.length
    rw [List.append_nil]
  | @apart old new hold hnew =>
    change (old ++ []).length = old.length
    rw [List.append_nil]
  | @around old new before behind r hrun _ _ ihleft ihright =>
    obtain ⟨hold, hnew⟩ := length_le_of_isFirstLongest hrun
    rw [oldLength_append, oldLength_equal, ihleft, ihright]
    simp only [List.length_take, List.length_drop]
    omega

private theorem map_run_eq [LawfulBEq κ] {r : Run}
    (hcommon : r.IsCommon (old.map key) (new.map key)) :
    ((old.drop r.oldStart).take r.length).map key =
      ((new.drop r.newStart).take r.length).map key := by
  rw [List.map_take, List.map_take, List.map_drop, List.map_drop]
  apply List.ext_getElem?
  intro i
  rw [List.getElem?_take, List.getElem?_take, List.getElem?_drop, List.getElem?_drop]
  split
  · obtain ⟨a, b, ha, hb, hkey⟩ := hcommon i ‹_›
    rw [ha, hb, eq_of_beq hkey]
  · rfl

/-- A patch reaches the new list up to what the keys leave out. -/
theorem PlainDiff.map_patch [LawfulBEq κ] (h : PlainDiff key old new hunks) :
    (patch hunks old).map key = new.map key := by
  induction h with
  | nil => rfl
  | insert hnew =>
    rw [patch, patch, List.append_nil]
  | delete hold =>
    rw [patch, patch, List.drop_length]
  | apart hold hnew =>
    rw [patch, patch, patch, List.drop_length, List.append_nil]
  | @around old new before behind r hrun left _ ihleft ihright =>
    obtain ⟨hold, hnew⟩ := length_le_of_isFirstLongest hrun
    have hlength : ((new.drop r.newStart).take r.length).length =
        ((old.drop r.oldStart).take r.length).length := by
      rw [List.length_take, List.length_take, List.length_drop, List.length_drop]
      omega
    have hpatch : patch (before ++ ⟨.equal, (new.drop r.newStart).take r.length⟩ :: behind) old =
        patch before (old.take r.oldStart) ++ ((old.drop r.oldStart).take r.length ++
          patch behind (old.drop (r.oldStart + r.length))) := by
      rw [split_at_run old r.oldStart r.length, patch_append left.oldLength_eq, patch, hlength,
        List.take_left, List.drop_left, ← split_at_run]
    calc (patch (before ++ ⟨.equal, (new.drop r.newStart).take r.length⟩ :: behind) old).map key
        = (patch before (old.take r.oldStart)).map key ++
            (((old.drop r.oldStart).take r.length).map key ++
              (patch behind (old.drop (r.oldStart + r.length))).map key) := by
          rw [hpatch, List.map_append, List.map_append]
      _ = (new.take r.newStart).map key ++ (((new.drop r.newStart).take r.length).map key ++
            (new.drop (r.newStart + r.length)).map key) := by
          rw [ihleft, ihright, map_run_eq hrun.common]
      _ = new.map key := by
          rw [← List.map_append, ← List.map_append, ← split_at_run]

end Hunk

end Redline

import Mathlib
import Redline.Proofs.Patch
/-!
# Hunks make up both lists

The kept and the inserted elements are the new list.  The kept and the deleted ones
are the old list as far as the keys can tell, and what was deleted is there as it was.
-/

namespace Redline

variable {α β κ : Type}

namespace Hunk

variable [BEq κ] {key : α → κ} {old new : List α} {hunks : List (Hunk α)}

abbrev SameKeys (key : α → κ) (a b : List α) : Prop :=
  List.Forall₂ (fun x y => (key x == key y) = true) a b

theorem SameKeys.append {a b c d : List α} (hab : SameKeys key a b) (hcd : SameKeys key c d) :
    SameKeys key (a ++ c) (b ++ d) :=
  List.rel_append hab hcd

theorem sameKeys_run [EquivBEq κ] {r : Run} (hrun : r.IsFirstLongest (old.map key) (new.map key)) :
    SameKeys key ((new.drop r.newStart).take r.length) ((old.drop r.oldStart).take r.length) := by
  obtain ⟨hold, hnew⟩ := length_le_of_isFirstLongest hrun
  rw [SameKeys, List.forall₂_iff_get]
  refine ⟨?_, fun i hi hi' => ?_⟩
  · simp only [List.length_take, List.length_drop]
    omega
  · simp only [List.length_take, List.length_drop] at hi
    obtain ⟨a, b, ha, hb, hkey⟩ := hrun.common i (by omega)
    simp only [List.getElem?_map, Option.map_eq_some_iff] at ha hb
    obtain ⟨x, hx, rfl⟩ := ha
    obtain ⟨y, hy, rfl⟩ := hb
    obtain ⟨_, rfl⟩ := List.getElem?_eq_some_iff.mp hx
    obtain ⟨_, rfl⟩ := List.getElem?_eq_some_iff.mp hy
    simpa using BEq.symm hkey

theorem PlainDiff.sameKeys_oldValues [EquivBEq κ] (h : PlainDiff key old new hunks) :
    SameKeys key (hunks.flatMap oldValues) old := by
  induction h with
  | nil => exact .nil
  | insert hnew => exact .nil
  | delete hold =>
    simp [oldValues]
  | apart hold hnew =>
    simp [oldValues]
  | @around old new before behind r hrun _ _ ihleft ihright =>
    have hmiddle := sameKeys_run hrun
    rw [List.flatMap_append, List.flatMap_cons, split_at_run old r.oldStart r.length]
    exact ihleft.append (hmiddle.append ihright)

/-- Deleted elements stand in the old list, behind those that the hunks before have of it. -/
theorem PlainDiff.delete_isPrefix (h : PlainDiff key old new hunks) {before behind : List (Hunk α)}
    {gone : List α} (hsplit : hunks = before ++ ⟨.delete, gone⟩ :: behind) :
    gone <+: old.drop (oldLength before) := by
  induction h generalizing before behind with
  | nil => simp at hsplit
  | insert hnew => simp [List.cons_eq_append_iff] at hsplit
  | delete hold =>
    simp only [List.cons_eq_append_iff, List.nil_eq_append_iff] at hsplit
    obtain ⟨rfl, hsplit⟩ | ⟨_, -, -, hsplit⟩ := hsplit
    · simp_all [oldLength]
    · simp at hsplit
  | @apart old new hold hnew =>
    simp only [List.cons_eq_append_iff, List.nil_eq_append_iff] at hsplit
    obtain ⟨rfl, hsplit⟩ | ⟨_, rfl, ⟨rfl, hsplit⟩ | ⟨_, -, -, hsplit⟩⟩ := hsplit
    · simp_all [oldLength]
    · simp at hsplit
    · simp at hsplit
  | @around old new front back r hrun left right ihleft ihright =>
    obtain ⟨hold, hnew⟩ := length_le_of_isFirstLongest hrun
    rcases List.append_eq_append_iff.mp hsplit with ⟨more, hbefore, hrest⟩ | ⟨more, hfront, hrest⟩
    · -- the deletion is behind the run
      rcases more with _ | ⟨kept, more⟩
      · simp at hrest
      · rw [List.cons_append, List.cons.injEq] at hrest
        obtain ⟨rfl, hback⟩ := hrest
        have hlength : oldLength before = r.oldStart + r.length + oldLength more := by
          rw [hbefore, oldLength_append, oldLength_equal, left.oldLength_eq]
          simp only [List.length_take, List.length_drop]
          omega
        rw [hlength, ← List.drop_drop]
        exact ihright hback
    · rcases more with _ | ⟨deleted, more⟩
      · simp at hrest
      · rw [List.cons_append, List.cons.injEq] at hrest
        obtain ⟨rfl, -⟩ := hrest
        have hgone := ihleft hfront
        rw [List.drop_take] at hgone
        exact hgone.trans (List.take_prefix _ _)

theorem delete_isPrefix_oldValues {before behind : List (Hunk α)} {gone : List α}
    (hsplit : hunks = before ++ ⟨.delete, gone⟩ :: behind) :
    gone <+: (hunks.flatMap oldValues).drop (oldLength before) := by
  rw [hsplit, List.flatMap_append, oldLength, List.drop_left]
  exact List.prefix_append _ _

theorem reconstruct_diff [BEq α] [Hashable α] [LawfulBEq α] [LawfulHashable α]
    (old new : List α) : reconstruct (diff old new) = (old, new) := by
  have h := plainDiff_diffBy id old new
  have hold := h.sameKeys_oldValues
  simp only [SameKeys, id_eq, beq_iff_eq, List.forall₂_eq_eq_eq] at hold
  rw [diff, reconstruct, hold, h.flatMap_newValues]

/-- Comparing loses no element, doubles none and changes no order: hunks make up both
lists again, the old one with the new spelling of what was kept. -/
theorem reconstruct_recovers [BEq α] [Hashable α] [LawfulBEq α] [LawfulHashable α]
    [Hashable κ] [EquivBEq κ] [LawfulHashable κ] :
    (∀ old new : List α, reconstruct (diff old new) = (old, new)) ∧
      ∀ (key : β → κ) (old new : List β), ∃ old',
        reconstruct (diffBy key old new) = (old', new) ∧
          SameKeys key old' old ∧
            ∀ before gone behind, diffBy key old new = before ++ ⟨.delete, gone⟩ :: behind →
              gone <+: old'.drop (oldLength before) ∧ gone <+: old.drop (oldLength before) := by
  constructor
  · exact reconstruct_diff
  · intro key old new
    have h := plainDiff_diffBy key old new
    refine ⟨_, congrArg (Prod.mk _) h.flatMap_newValues, h.sameKeys_oldValues, ?_⟩
    intro before gone behind hsplit
    exact ⟨delete_isPrefix_oldValues hsplit, h.delete_isPrefix hsplit⟩

theorem reconstruct_recovers_parity :
    reconstruct (diff [1, 2, 1] [2, 1, 2]) = ([1, 2, 1], [2, 1, 2]) ∧
      reconstruct (diffBy (· % 2) [1, 2] [4, 3]) = ([1, 4], [4, 3]) ∧
        SameKeys (· % 2) [1, 4] [1, 2] := by
  have hresult : reconstruct (diffBy (· % 2) [1, 2] [4, 3]) = ([1, 4], [4, 3]) := by cbv
  obtain ⟨hplain, hkeyed⟩ := @reconstruct_recovers Nat Nat Nat _ _ _ _ _ _ _ _
  obtain ⟨old', hlists, hkeys, -⟩ := hkeyed (· % 2) [1, 2] [4, 3]
  cases hresult.symm.trans hlists
  exact ⟨hplain _ _, hresult, hkeys⟩

end Hunk

end Redline

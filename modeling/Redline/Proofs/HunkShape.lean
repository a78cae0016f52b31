import Mathlib
import Redline.Proofs.Reconstruction
/-!
# How hunks follow one another

No hunk is empty, and neighbours are of different kinds: two kept runs side by side would
be one longer run, and the recursion keeps a longest one first.  Between kept runs stands
a deletion, an insertion, or both in this order and then with no key in common.
-/

namespace Redline

variable {α κ : Type}

namespace Hunk

variable [BEq κ] {key : α → κ} {old new : List α} {hunks : List (Hunk α)}

/-- What may stand side by side: hunks of different kinds, and of a deletion and an
insertion the deletion first, without a key that both have. -/
structure Adjoins (key : α → κ) (a b : Hunk α) : Prop where
  kind_ne : a.kind ≠ b.kind
  deletion_first : a.kind = .insert → b.kind ≠ .delete
  keys_apart : a.kind = .delete → b.kind = .insert →
    ∀ x ∈ a.values, ∀ y ∈ b.values, (key x == key y) = false

/-- Before and behind a kept run any hunk may stand that is not kept itself. -/
theorem adjoins_equal {a b : Hunk α} (ha : a.kind ≠ .equal) (hb : b.kind = .equal) :
    Adjoins key a b ∧ Adjoins key b a := by
  constructor
  · exact ⟨by rwa [hb], fun _ => by simp [hb], fun _ h => by simp [hb] at h⟩
  · exact ⟨by rw [hb]; exact ha.symm, fun h => by simp [hb] at h, fun h => by simp [hb] at h⟩

/-! ## Kept runs side by side -/

private theorem getElem?_middle (front middle back : List α) {i : Nat} (hi : i < middle.length) :
    (front ++ (middle ++ back))[front.length + i]? = some middle[i] := by
  rw [List.getElem?_append_right (Nat.le_add_right _ _), Nat.add_sub_cancel_left,
    List.getElem?_append_left hi, List.getElem?_eq_getElem hi]

theorem isCommon_of_sameKeys [EquivBEq κ] {front front' kept back back' : List α}
    (hold : SameKeys key (front ++ (kept ++ back)) old) (hnew : front' ++ (kept ++ back') = new) :
    Run.IsCommon ⟨front.length, front'.length, kept.length⟩ (old.map key) (new.map key) := by
  intro i (hi : i < kept.length)
  obtain ⟨hlt, hkept⟩ := List.getElem?_eq_some_iff.mp (getElem?_middle front kept back hi)
  have hlt' : front.length + i < old.length := hold.length_eq ▸ hlt
  have hkey := hold.get hlt hlt'
  rw [List.get_eq_getElem, List.get_eq_getElem, hkept] at hkey
  refine ⟨key old[front.length + i], key kept[i], ?_, ?_, BEq.symm hkey⟩
  · rw [List.getElem?_map, List.getElem?_eq_getElem hlt', Option.map_some]
  · rw [← hnew, List.getElem?_map, getElem?_middle front' kept back' hi, Option.map_some]

/-- No two kept runs side by side are together longer than the run that was kept first. -/
theorem PlainDiff.length_le_of_adjacent [EquivBEq κ] {front back : List (Hunk α)} {a b : List α}
    {r : Run} (hrun : r.IsFirstLongest (old.map key) (new.map key))
    (h : PlainDiff key old new (front ++ ⟨.equal, a⟩ :: ⟨.equal, b⟩ :: back)) :
    a.length + b.length ≤ r.length := by
  have hold := h.sameKeys_oldValues
  have hnew := h.flatMap_newValues
  simp only [List.flatMap_append, List.flatMap_cons] at hold hnew
  rw [← List.append_assoc (oldValues _)] at hold
  rw [← List.append_assoc (newValues _)] at hnew
  have hcommon : Run.IsCommon ⟨_, _, (a ++ b).length⟩ (old.map key) (new.map key) :=
    isCommon_of_sameKeys hold hnew
  rw [← List.length_append]
  rcases Nat.eq_zero_or_pos (a ++ b).length with hzero | hpos
  · exact hzero ▸ Nat.zero_le _
  · exact (hrun.beats _ hpos hcommon).1

/-- Neighbours in a comparison are as they may be. -/
theorem PlainDiff.isChain_adjoins [EquivBEq κ] (h : PlainDiff key old new hunks) :
    hunks.IsChain (Adjoins key) := by
  induction h with
  | nil => exact .nil
  | insert hnew => exact .singleton _
  | delete hold => exact .singleton _
  | @apart old new hold hnew hnone =>
    rw [List.isChain_pair]
    refine ⟨HunkKind.noConfusion, fun _ => HunkKind.noConfusion, fun _ _ x hx y hy => ?_⟩
    -- a common key would be a common run of one
    obtain ⟨i, hi, rfl⟩ := List.getElem_of_mem hx
    obtain ⟨j, hj, rfl⟩ := List.getElem_of_mem hy
    by_contra hkey
    have hcommon : Run.IsCommon ⟨i, j, 1⟩ (old.map key) (new.map key) := by
      intro k (hk : k < 1)
      obtain rfl : k = 0 := by omega
      exact ⟨key old[i], key new[j], by simp [hi], by simp [hj], by simpa using hkey⟩
    exact absurd (hnone _ hcommon) Nat.one_ne_zero
  | @around old new before behind r hrun left right ihleft ihright =>
    have whole := PlainDiff.around hrun left right
    have hlength : ((new.drop r.newStart).take r.length).length = r.length := by
      have := (length_le_of_isFirstLongest hrun).2
      rw [List.length_take, List.length_drop]
      omega
    have hbefore : ∀ x ∈ before.getLast?, x.kind ≠ .equal := by
      rintro ⟨kind, a⟩ hx (rfl : kind = .equal)
      obtain ⟨front, rfl⟩ := List.getLast?_eq_some_iff.mp hx
      have hpos := List.length_pos_of_ne_nil (left.values_ne_nil ⟨.equal, a⟩ (by simp))
      rw [List.append_assoc, List.singleton_append] at whole
      have := whole.length_le_of_adjacent hrun
      dsimp only at hpos
      omega
    have hbehind : ∀ x ∈ behind.head?, x.kind ≠ .equal := by
      rintro ⟨kind, b⟩ hx (rfl : kind = .equal)
      obtain ⟨back, rfl⟩ := List.head?_eq_some_iff.mp hx
      have hpos := List.length_pos_of_ne_nil (right.values_ne_nil ⟨.equal, b⟩ (by simp))
      have := whole.length_le_of_adjacent hrun
      dsimp only at hpos
      omega
    refine List.isChain_append.mpr ⟨ihleft, List.isChain_cons.mpr ⟨?_, ihright⟩, ?_⟩
    · intro y hy
      exact (adjoins_equal (hbehind y hy) rfl).2
    · intro x hx y hy
      cases hy
      exact (adjoins_equal (hbefore x hx) rfl).1

/-! ## Stretches between kept runs -/

theorem Adjoins.kinds {a b : Hunk α} (h : Adjoins key a b) (ha : a.kind ≠ .equal)
    (hb : b.kind ≠ .equal) : a.kind = .delete ∧ b.kind = .insert := by
  have hne := h.kind_ne
  have hfirst := h.deletion_first
  cases hkind : a.kind <;> cases hkind' : b.kind <;> simp_all

theorem map_kind_sublist {gap : List (Hunk α)} (hchain : gap.IsChain (Adjoins key))
    (hgap : ∀ hunk ∈ gap, hunk.kind ≠ .equal) :
    (gap.map kind).Sublist [.delete, .insert] := by
  rcases gap with _ | ⟨a, _ | ⟨b, rest⟩⟩
  · exact List.nil_sublist _
  · have ha := hgap a List.mem_cons_self
    rw [List.map_singleton, List.singleton_sublist]
    cases hkind : a.kind <;> simp_all
  · obtain ⟨hab, hrest⟩ := List.isChain_cons_cons.mp hchain
    obtain ⟨hdelete, hinsert⟩ := hab.kinds (hgap a (by simp)) (hgap b (by simp))
    rcases rest with _ | ⟨c, rest⟩
    · rw [List.map_cons, List.map_singleton, hdelete, hinsert]
    · -- a third hunk would need the second one to be a deletion
      have hbc := (List.isChain_cons_cons.mp hrest).1
      have hthird := (hbc.kinds (hgap b (by simp)) (hgap c (by simp))).1
      rw [hinsert] at hthird
      cases hthird

/-- The hunks of a comparison: none is empty, neighbours are of different kinds, and between
kept runs there is a deletion, an insertion, or both in this order with no key in common. -/
theorem diffBy_alternates [Hashable κ] [EquivBEq κ] [LawfulHashable κ] (key : α → κ)
    (old new : List α) :
    (∀ hunk ∈ diffBy key old new, hunk.values ≠ []) ∧
      (diffBy key old new).IsChain (Adjoins key) ∧
      (∀ front gap back, diffBy key old new = front ++ gap ++ back →
        (∀ hunk ∈ gap, hunk.kind ≠ .equal) → (gap.map kind).Sublist [.delete, .insert]) ∧
      ∀ front a gap b back, diffBy key old new = front ++ a :: (gap ++ b :: back) →
        a.kind = .equal → b.kind = .equal → gap ≠ [] := by
  have h := plainDiff_diffBy key old new
  have hchain := h.isChain_adjoins
  refine ⟨h.values_ne_nil, hchain, fun front gap back hsplit hgap => ?_, ?_⟩
  · rw [hsplit] at hchain
    obtain ⟨hfront, -, -⟩ := List.isChain_append.mp hchain
    exact map_kind_sublist (List.isChain_append.mp hfront).2.1 hgap
  · rintro front a gap b back hsplit ha hb rfl
    rw [hsplit, List.nil_append] at hchain
    have hab := (List.isChain_append_cons_cons.mp hchain).2.1
    exact hab.kind_ne (ha.trans hb.symm)

theorem diffBy_alternates_lastDigit :
    diffBy (· % 10) [1, 2, 3, 4] [11, 12, 18, 14] =
        [⟨.equal, [11, 12]⟩, ⟨.delete, [3]⟩, ⟨.insert, [18]⟩, ⟨.equal, [14]⟩] ∧
      (diffBy (· % 10) [1, 2, 3, 4] [11, 12, 18, 14]).IsChain (Adjoins (· % 10)) ∧
      [HunkKind.delete, .insert].Sublist [.delete, .insert] ∧
      [(⟨.delete, [3]⟩ : Hunk Nat), ⟨.insert, [18]⟩] ≠ [] := by
  have hresult : diffBy (· % 10) [1, 2, 3, 4] [11, 12, 18, 14] =
      [⟨.equal, [11, 12]⟩, ⟨.delete, [3]⟩, ⟨.insert, [18]⟩, ⟨.equal, [14]⟩] := by cbv
  obtain ⟨-, hchain, hgaps, hkept⟩ := diffBy_alternates (· % 10) [1, 2, 3, 4] [11, 12, 18, 14]
  refine ⟨hresult, hchain, ?_, ?_⟩
  · exact hgaps [⟨.equal, [11, 12]⟩] [⟨.delete, [3]⟩, ⟨.insert, [18]⟩] [⟨.equal, [14]⟩] hresult
      (by decide)
  · exact hkept [] ⟨.equal, [11, 12]⟩ _ ⟨.equal, [14]⟩ [] hresult rfl rfl

end Hunk

end Redline

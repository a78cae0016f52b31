import Redline.Diff.Change
import Redline.Proofs.BlockDiff
/-!
# Changes and what lies between them

Between two changes, before the first and behind the last, both lists have the same
elements.  The same holds of the windows of groups of changes, and inside of each window
of the changes that it shows.
-/

namespace Redline

namespace Span

theorem slice_append {i j k : Nat} (hij : i ≤ j) (hjk : j ≤ k) (xs : List α) :
    slice ⟨i, j⟩ xs ++ slice ⟨j, k⟩ xs = slice ⟨i, k⟩ xs := by
  have hdrop : xs.drop j = (xs.drop i).drop (j - i) := by
    rw [List.drop_drop, Nat.add_sub_cancel' hij]
  have hlength : k - i = (j - i) + (k - j) := by omega
  simp only [slice, length]
  rw [hdrop, hlength, List.take_add]

theorem slice_append_drop {i j : Nat} (hij : i ≤ j) (xs : List α) :
    slice ⟨i, j⟩ xs ++ xs.drop j = xs.drop i := by
  have hdrop : xs.drop j = (xs.drop i).drop (j - i) := by
    rw [List.drop_drop, Nat.add_sub_cancel' hij]
  rw [hdrop]
  exact List.take_append_drop _ _

theorem slice_self (i : Nat) (xs : List α) : slice ⟨i, i⟩ xs = [] := by
  rw [slice, length, Nat.sub_self, List.take_zero]

end Span

variable {α : Type} {old new : List α} {i j n m i' j' : Nat}

/-! ## Common stretches -/

structure Agree (old new : List α) (i j n : Nat) : Prop where
  old_le : i + n ≤ old.length
  new_le : j + n ≤ new.length
  slice_eq : Span.slice ⟨i, i + n⟩ old = Span.slice ⟨j, j + n⟩ new

namespace Agree

theorem zero (hi : i ≤ old.length) (hj : j ≤ new.length) : Agree old new i j 0 :=
  ⟨hi, hj, by rw [Nat.add_zero, Nat.add_zero, Span.slice_self, Span.slice_self]⟩

theorem symm (h : Agree old new i j n) : Agree new old j i n :=
  ⟨h.new_le, h.old_le, h.slice_eq.symm⟩

theorem append (h : Agree old new i j n) (h' : Agree old new (i + n) (j + n) m) :
    Agree old new i j (n + m) := by
  refine ⟨by have := h'.old_le; omega, by have := h'.new_le; omega, ?_⟩
  rw [← Nat.add_assoc, ← Nat.add_assoc, ← Span.slice_append (Nat.le_add_right i n)
    (Nat.le_add_right _ m), ← Span.slice_append (Nat.le_add_right j n) (Nat.le_add_right _ m),
    h.slice_eq, h'.slice_eq]

theorem inside (h : Agree old new i j n) {k : Nat} (hk : k + m ≤ n) :
    Agree old new (i + k) (j + k) m := by
  refine ⟨by have := h.old_le; omega, by have := h.new_le; omega, ?_⟩
  have hinside : ∀ (p : Nat) (xs : List α), Span.slice ⟨p + k, p + k + m⟩ xs =
      ((Span.slice ⟨p, p + n⟩ xs).drop k).take m := by
    intro p xs
    have hstop : p + k + m ≤ p + n := by omega
    have hslice := Span.slice_inside (s := ⟨p, p + n⟩) (Nat.le_add_right p k) hstop xs
    rwa [Nat.add_sub_cancel_left] at hslice
  rw [hinside, hinside, h.slice_eq]

theorem front (h : Agree old new i j n) (hm : m ≤ n) : Agree old new i j m :=
  h.inside (k := 0) (by omega)

end Agree

/-! ## Changes -/

/-- The changes lead from two positions to two others: in front of, between and behind
them both lists have the same elements. -/
inductive Aligned (old new : List α) : Nat → Nat → List Change → Nat → Nat → Prop where
  | done {i j n i' j' : Nat} (h : Agree old new i j n) (hi : i' = i + n) (hj : j' = j + n) :
      Aligned old new i j [] i' j'
  | change {i j n i' j' : Nat} {c : Change} {changes : List Change} (h : Agree old new i j n)
      (hold : c.old.start = i + n) (hnew : c.new.start = j + n)
      (holdOrder : c.old.start ≤ c.old.stop) (hnewOrder : c.new.start ≤ c.new.stop)
      (rest : Aligned old new c.old.stop c.new.stop changes i' j') :
      Aligned old new i j (c :: changes) i' j'

def Change.swap (c : Change) : Change :=
  ⟨c.new, c.old⟩

namespace Aligned

variable {changes : List Change} {c : Change}

theorem old_le (h : Aligned old new i j changes i' j') : i ≤ i' := by
  induction h with
  | done _ hi _ => omega
  | change _ hold _ holdOrder _ _ ih => omega

theorem old_le_length (h : Aligned old new i j changes i' j') : i' ≤ old.length := by
  induction h with
  | done hagree hi _ => exact hi ▸ hagree.old_le
  | change _ _ _ _ _ _ ih => exact ih

theorem symm (h : Aligned old new i j changes i' j') :
    Aligned new old j i (changes.map Change.swap) j' i' := by
  induction h with
  | done hagree hi hj => exact .done hagree.symm hj hi
  | change hagree hold hnew holdOrder hnewOrder _ ih =>
    exact .change hagree.symm hnew hold hnewOrder holdOrder ih

theorem new_le (h : Aligned old new i j changes i' j') : j ≤ j' :=
  h.symm.old_le

theorem new_le_length (h : Aligned old new i j changes i' j') : j' ≤ new.length :=
  h.symm.old_le_length

theorem extend (hagree : Agree old new i j n) (h : Aligned old new (i + n) (j + n) changes i' j') :
    Aligned old new i j changes i' j' := by
  cases h with
  | done hmore hi hj =>
    exact .done (hagree.append hmore) (by omega) (by omega)
  | change hmore hold hnew holdOrder hnewOrder rest =>
    exact .change (hagree.append hmore) (by omega) (by omega) holdOrder hnewOrder rest

theorem cons (holdOrder : c.old.start ≤ c.old.stop) (hnewOrder : c.new.start ≤ c.new.stop)
    (h : Aligned old new c.old.stop c.new.stop changes i' j') :
    Aligned old new c.old.start c.new.start (c :: changes) i' j' := by
  have hold := Nat.le_trans h.old_le h.old_le_length
  have hnew := Nat.le_trans h.new_le h.new_le_length
  exact .change (.zero (Nat.le_trans holdOrder hold) (Nat.le_trans hnewOrder hnew)) rfl rfl
    holdOrder hnewOrder h

theorem ascending (h : Aligned old new i j changes i' j') :
    (∀ c ∈ changes, i ≤ c.old.start ∧ j ≤ c.new.start) ∧
      changes.Pairwise fun c d => c.old.stop ≤ d.old.start ∧ c.new.stop ≤ d.new.start := by
  induction h with
  | done _ _ _ => exact ⟨nofun, .nil⟩
  | change _ hold hnew holdOrder hnewOrder _ ih =>
    refine ⟨fun d hd => ?_, .cons ih.1 ih.2⟩
    obtain rfl | hd := List.mem_cons.mp hd
    · omega
    · have := ih.1 d hd
      omega

theorem inside (h : Aligned old new i j changes i' j') (hc : c ∈ changes) :
    c.old.start ≤ c.old.stop ∧ c.old.stop ≤ i' := by
  induction h with
  | done _ _ _ => exact absurd hc List.not_mem_nil
  | change _ _ _ holdOrder _ hrest ih =>
    obtain rfl | hc := List.mem_cons.mp hc
    · exact ⟨holdOrder, hrest.old_le⟩
    · exact ih hc

end Aligned

/-! ## Changes of hunks -/

private theorem agree_of_drop {kept oldRest newRest : List α} (hi : i ≤ old.length)
    (hj : j ≤ new.length) (hold : old.drop i = kept ++ oldRest)
    (hnew : new.drop j = kept ++ newRest) : Agree old new i j kept.length := by
  have hslice : ∀ (p : Nat) (xs rest : List α), xs.drop p = kept ++ rest →
      Span.slice ⟨p, p + kept.length⟩ xs = kept := by
    intro p xs rest hxs
    simp only [Span.slice, Span.length]
    rw [Nat.add_sub_cancel_left, hxs, List.take_left]
  have holdLength := congrArg List.length hold
  have hnewLength := congrArg List.length hnew
  rw [List.length_drop, List.length_append] at holdLength hnewLength
  exact ⟨by omega, by omega, (hslice i old oldRest hold).trans (hslice j new newRest hnew).symm⟩

private theorem drop_of_drop {front rest : List α} (hi : i ≤ old.length)
    (hold : old.drop i = front ++ rest) :
    i + front.length ≤ old.length ∧ old.drop (i + front.length) = rest := by
  have hlength := congrArg List.length hold
  rw [List.length_drop, List.length_append] at hlength
  refine ⟨by omega, ?_⟩
  rw [← List.drop_drop, hold, List.drop_left]

theorem aligned_ofHunksFrom {hunks : List (Hunk α)} (hi : i ≤ old.length) (hj : j ≤ new.length)
    (hold : old.drop i = hunks.flatMap Hunk.oldValues)
    (hnew : new.drop j = hunks.flatMap Hunk.newValues) :
    Aligned old new i j (Change.ofHunksFrom i j hunks) old.length new.length := by
  fun_induction Change.ofHunksFrom i j hunks with
  | case1 i j =>
    have hi' := List.drop_eq_nil_iff.mp hold
    have hj' := List.drop_eq_nil_iff.mp hnew
    exact .done (.zero hi hj) (by omega) (by omega)
  | case2 i j gone added rest ih =>
    have hgone : old.drop i = gone ++ rest.flatMap Hunk.oldValues := hold
    have hadded : new.drop j = added ++ rest.flatMap Hunk.newValues := hnew
    obtain ⟨hi', hold'⟩ := drop_of_drop hi hgone
    obtain ⟨hj', hnew'⟩ := drop_of_drop hj hadded
    exact .cons (c := ⟨⟨i, i + gone.length⟩, ⟨j, j + added.length⟩⟩) (Nat.le_add_right _ _)
      (Nat.le_add_right _ _) (ih hi' hj' hold' hnew')
  | case3 i j gone rest _ ih =>
    have hgone : old.drop i = gone ++ rest.flatMap Hunk.oldValues := hold
    obtain ⟨hi', hold'⟩ := drop_of_drop hi hgone
    exact .cons (c := ⟨⟨i, i + gone.length⟩, ⟨j, j⟩⟩) (Nat.le_add_right _ _) (Nat.le_refl _)
      (ih hi' hj hold' hnew)
  | case4 i j added rest ih =>
    have hadded : new.drop j = added ++ rest.flatMap Hunk.newValues := hnew
    obtain ⟨hj', hnew'⟩ := drop_of_drop hj hadded
    exact .cons (c := ⟨⟨i, i⟩, ⟨j, j + added.length⟩⟩) (Nat.le_refl _) (Nat.le_add_right _ _)
      (ih hi hj' hold hnew')
  | case5 i j kept rest ih =>
    obtain ⟨hi', hold'⟩ := drop_of_drop hi hold
    obtain ⟨hj', hnew'⟩ := drop_of_drop hj hnew
    exact (ih hi' hj' hold' hnew').extend (agree_of_drop hi hj hold hnew)

/-- The changes of hunks lead from the front of both lists to their ends. -/
theorem aligned_ofHunks (hunks : List (Hunk α)) :
    Aligned (Hunk.reconstruct hunks).1 (Hunk.reconstruct hunks).2 0 0 (Change.ofHunks hunks)
      (Hunk.reconstruct hunks).1.length (Hunk.reconstruct hunks).2.length :=
  aligned_ofHunksFrom (Nat.zero_le _) (Nat.zero_le _) rfl rfl

theorem Change.isEmpty_ofHunksFrom (i j : Nat) (hunks : List (Hunk α)) :
    (ofHunksFrom i j hunks).isEmpty = !Hunk.hasChanges hunks := by
  fun_induction ofHunksFrom i j hunks with
  | case1 i j => rfl
  | case2 i j gone added rest ih => rfl
  | case3 i j gone rest _ ih => rfl
  | case4 i j added rest ih => rfl
  | case5 i j kept rest ih => exact ih

/-- Hunks have changes if one of them inserts or deletes, be it no element. -/
theorem Change.isEmpty_ofHunks (hunks : List (Hunk α)) :
    (ofHunks hunks).isEmpty = !Hunk.hasChanges hunks :=
  isEmpty_ofHunksFrom 0 0 hunks

private theorem isEmpty_of_ne_nil {values : List α} (h : values ≠ []) (p : Nat) :
    Span.isEmpty ⟨p, p + values.length⟩ = false := by
  have hpos := List.length_pos_iff.mpr h
  exact decide_eq_false (by dsimp only; omega)

theorem Change.nonempty_of_mem_ofHunksFrom {hunks : List (Hunk α)}
    (h : ∀ hunk ∈ hunks, hunk.kind ≠ .equal → hunk.values ≠ []) {c : Change}
    (hc : c ∈ ofHunksFrom i j hunks) : c.old.isEmpty = false ∨ c.new.isEmpty = false := by
  fun_induction ofHunksFrom i j hunks with
  | case1 i j => exact absurd hc List.not_mem_nil
  | case2 i j gone added rest ih =>
    obtain rfl | hc := List.mem_cons.mp hc
    · exact .inl (isEmpty_of_ne_nil (h ⟨.delete, gone⟩ (by simp) (by simp)) i)
    · exact ih (fun hunk hhunk => h hunk (by simp [hhunk])) hc
  | case3 i j gone rest _ ih =>
    obtain rfl | hc := List.mem_cons.mp hc
    · exact .inl (isEmpty_of_ne_nil (h ⟨.delete, gone⟩ (by simp) (by simp)) i)
    · exact ih (fun hunk hhunk => h hunk (by simp [hhunk])) hc
  | case4 i j added rest ih =>
    obtain rfl | hc := List.mem_cons.mp hc
    · exact .inr (isEmpty_of_ne_nil (h ⟨.insert, added⟩ (by simp) (by simp)) j)
    · exact ih (fun hunk hhunk => h hunk (by simp [hhunk])) hc
  | case5 i j kept rest ih => exact ih (fun hunk hhunk => h hunk (by simp [hhunk])) hc

/-! ## Windows of groups -/

/-- A window, taken for one change. -/
def Window.toChange (w : Window) : Change :=
  ⟨w.old, w.new⟩

namespace Change

variable {context : Nat} {c next : Change} {group rest : List Change}

theorem groups_cons {more : List (List Change)}
    (h : groups context (next :: rest) = (next :: group) :: more) :
    groups context (c :: next :: rest) =
      if 2 * context < next.old.start - c.old.stop then [c] :: (next :: group) :: more
      else (c :: next :: group) :: more := by
  rw [groups, h]

/-- Put together again, the groups are the changes; and no group is empty. -/
theorem flatten_groups (context : Nat) (changes : List Change) :
    (groups context changes).flatten = changes ∧ ∀ group ∈ groups context changes, group ≠ [] := by
  induction changes with
  | nil => exact ⟨rfl, fun group hgroup => absurd hgroup List.not_mem_nil⟩
  | cons c rest ih =>
    obtain ⟨hflat, hne⟩ := ih
    cases hgroups : groups context rest with
    | nil =>
      rw [hgroups, List.flatten_nil] at hflat
      rw [← hflat]
      exact ⟨rfl, by simp [groups]⟩
    | cons first more =>
      rw [hgroups] at hflat hne
      obtain ⟨next, group, rfl⟩ := List.exists_cons_of_ne_nil (hne first List.mem_cons_self)
      obtain ⟨rest, rfl⟩ : ∃ tail, rest = next :: tail := ⟨group ++ more.flatten, hflat.symm⟩
      rw [groups_cons hgroups]
      split
      · refine ⟨congrArg (c :: ·) hflat, fun g hg => ?_⟩
        obtain rfl | hg := List.mem_cons.mp hg
        · exact List.cons_ne_nil _ _
        · exact hne g hg
      · refine ⟨congrArg (c :: ·) hflat, fun g hg => ?_⟩
        obtain rfl | hg := List.mem_cons.mp hg
        · exact List.cons_ne_nil _ _
        · exact hne g (List.mem_cons_of_mem _ hg)

theorem mem_of_mem_groups {changes : List Change} (hgroup : group ∈ groups context changes)
    (hc : c ∈ group) : c ∈ changes := by
  rw [← (flatten_groups context changes).1]
  exact List.mem_flatten_of_mem hgroup hc

end Change

theorem Window.stop_ofGroup_cons (context oldLength : Nat) (c next : Change)
    (group : List Change) :
    (ofGroup context oldLength (c :: next :: group)).old.stop =
        (ofGroup context oldLength (next :: group)).old.stop ∧
      (ofGroup context oldLength (c :: next :: group)).new.stop =
        (ofGroup context oldLength (next :: group)).new.stop := by
  unfold ofGroup
  rw [List.getLast?_cons_cons]
  cases (next :: group).getLast? <;> exact ⟨rfl, rfl⟩

theorem Window.start_ofGroup (context oldLength : Nat) (c : Change) (group : List Change) :
    (ofGroup context oldLength (c :: group)).old.start = c.old.start - min context c.old.start ∧
      (ofGroup context oldLength (c :: group)).new.start =
        c.new.start - min context c.old.start := by
  unfold ofGroup
  rw [List.getLast?_cons]
  exact ⟨rfl, rfl⟩

theorem Window.stop_ofGroup_singleton (context oldLength : Nat) (c : Change) :
    (ofGroup context oldLength [c]).old.stop =
        c.old.stop + min context (oldLength - c.old.stop) ∧
      (ofGroup context oldLength [c]).new.stop =
        c.new.stop + min context (oldLength - c.old.stop) :=
  ⟨rfl, rfl⟩

/-- Inside of the window of a group its changes lead from the start to the stop. -/
def FillsWindow (old new : List α) (context : Nat) (group : List Change) : Prop :=
  Aligned old new (Window.ofGroup context old.length group).old.start
    (Window.ofGroup context old.length group).new.start group
    (Window.ofGroup context old.length group).old.stop
    (Window.ofGroup context old.length group).new.stop

theorem fillsWindow_of_agree {context : Nat} {c : Change} {group : List Change}
    (hagree : Agree old new i j n) (hold : c.old.start = i + n) (hnew : c.new.start = j + n)
    (hbefore : min context c.old.start ≤ n)
    (hbody : Aligned old new c.old.start c.new.start (c :: group)
      (Window.ofGroup context old.length (c :: group)).old.stop
      (Window.ofGroup context old.length (c :: group)).new.stop) :
    FillsWindow old new context (c :: group) := by
  obtain ⟨hstart, hstart'⟩ := Window.start_ofGroup context old.length c group
  have hfront := hagree.inside (k := n - min context c.old.start) (m := min context c.old.start)
    (by omega)
  have hi : i + (n - min context c.old.start) = c.old.start - min context c.old.start := by omega
  have hj : j + (n - min context c.old.start) = c.new.start - min context c.old.start := by omega
  rw [hi, hj] at hfront
  unfold FillsWindow
  rw [hstart, hstart']
  apply Aligned.extend hfront
  rwa [Nat.sub_add_cancel (by omega), Nat.sub_add_cancel (by omega)]

/-- The window of a first group, behind a common stretch that reaches at least as far back
as the window. -/
theorem aligned_windows_of_agree {context : Nat} {c : Change} {group : List Change}
    {more : List Change} (hagree : Agree old new i j n) (hold : c.old.start = i + n)
    (hnew : c.new.start = j + n) (hbefore : min context c.old.start ≤ n)
    (hbody : Aligned old new c.old.start c.new.start (c :: group)
      (Window.ofGroup context old.length (c :: group)).old.stop
      (Window.ofGroup context old.length (c :: group)).new.stop)
    (hmore : Aligned old new (Window.ofGroup context old.length (c :: group)).old.stop
      (Window.ofGroup context old.length (c :: group)).new.stop more i' j') :
    Aligned old new i j ((Window.ofGroup context old.length (c :: group)).toChange :: more)
      i' j' := by
  obtain ⟨hstart, hstart'⟩ := Window.start_ofGroup context old.length c group
  have hle := hbody.old_le
  have hle' := hbody.new_le
  refine .change (hagree.front (Nat.sub_le n (min context c.old.start))) ?_ ?_ ?_ ?_ hmore
  all_goals
    dsimp only [Window.toChange]
    omega

/-- Groups of changes, the first change of the first group being known: up to where its
window stops the changes of the first group stand, and the windows of the others behind. -/
structure Grouped (old new : List α) (context : Nat) (c : Change) (group : List Change)
    (more : List (List Change)) : Prop where
  first : Aligned old new c.old.start c.new.start (c :: group)
    (Window.ofGroup context old.length (c :: group)).old.stop
    (Window.ofGroup context old.length (c :: group)).new.stop
  others : Aligned old new (Window.ofGroup context old.length (c :: group)).old.stop
    (Window.ofGroup context old.length (c :: group)).new.stop
    (more.map fun g => (Window.ofGroup context old.length g).toChange) old.length new.length
  fills : ∀ g ∈ more, FillsWindow old new context g

namespace Grouped

variable {context : Nat} {c next : Change} {group : List Change} {more : List (List Change)}

theorem last (holdOrder : c.old.start ≤ c.old.stop) (hnewOrder : c.new.start ≤ c.new.stop)
    (hagree : Agree old new c.old.stop c.new.stop n) (hi : old.length = c.old.stop + n)
    (hj : new.length = c.new.stop + n) : Grouped old new context c [] [] := by
  obtain ⟨hold, hnew⟩ := Window.stop_ofGroup_singleton context old.length c
  have hafter : old.length - c.old.stop = n := by omega
  rw [hafter] at hold hnew
  refine ⟨?_, ?_, nofun⟩
  · exact .cons holdOrder hnewOrder (.done (hagree.front (Nat.min_le_right context n)) hold hnew)
  · rw [hold, hnew]
    exact .done (hagree.inside (m := n - min context n) (by omega)) (by omega) (by omega)

/-- A change with more lines behind it than both windows take is a group of its own. -/
theorem apart (holdOrder : c.old.start ≤ c.old.stop) (hnewOrder : c.new.start ≤ c.new.stop)
    (hagree : Agree old new c.old.stop c.new.stop n) (hold : next.old.start = c.old.stop + n)
    (hnew : next.new.start = c.new.stop + n) (hfar : 2 * context < n)
    (h : Grouped old new context next group more) :
    Grouped old new context c [] ((next :: group) :: more) := by
  have hfits := hagree.old_le
  obtain ⟨hstop, hstop'⟩ := Window.stop_ofGroup_singleton context old.length c
  have hafter : min context (old.length - c.old.stop) = context := by omega
  rw [hafter] at hstop hstop'
  refine ⟨?_, ?_, ?_⟩
  · exact .cons holdOrder hnewOrder (.done (hagree.front (by omega)) hstop hstop')
  · rw [hstop, hstop']
    exact aligned_windows_of_agree (hagree.inside (m := n - context) (by omega)) (by omega)
      (by omega) (by omega) h.first h.others
  · intro g hg
    obtain rfl | hg := List.mem_cons.mp hg
    · exact fillsWindow_of_agree hagree hold hnew (by omega) h.first
    · exact h.fills g hg

theorem join (holdOrder : c.old.start ≤ c.old.stop) (hnewOrder : c.new.start ≤ c.new.stop)
    (hagree : Agree old new c.old.stop c.new.stop n) (hold : next.old.start = c.old.stop + n)
    (hnew : next.new.start = c.new.stop + n) (h : Grouped old new context next group more) :
    Grouped old new context c (next :: group) more := by
  obtain ⟨hstop, hstop'⟩ := Window.stop_ofGroup_cons context old.length c next group
  have hfirst := h.first
  rw [hold, hnew] at hfirst
  refine ⟨?_, ?_, h.fills⟩
  · rw [hstop, hstop']
    exact .cons holdOrder hnewOrder (hfirst.extend hagree)
  · rw [hstop, hstop']
    exact h.others

end Grouped

theorem exists_grouped (context : Nat) {c : Change} {rest : List Change}
    (h : Aligned old new c.old.start c.new.start (c :: rest) old.length new.length) :
    ∃ group more, Change.groups context (c :: rest) = (c :: group) :: more ∧
      Grouped old new context c group more := by
  induction rest generalizing c with
  | nil =>
    cases h with
    | change _ _ _ holdOrder hnewOrder hrest =>
      cases hrest with
      | done hagree hi hj => exact ⟨[], [], rfl, .last holdOrder hnewOrder hagree hi hj⟩
  | cons next rest ih =>
    cases h with
    | change _ _ _ holdOrder hnewOrder hrest =>
      cases hrest with
      | @change _ _ n _ _ _ _ hagree hold hnew holdOrder' hnewOrder' hrest =>
        obtain ⟨group, more, hgroups, hgrouped⟩ := ih (.cons holdOrder' hnewOrder' hrest)
        have hgap : next.old.start - c.old.stop = n := by omega
        rw [Change.groups_cons hgroups, hgap]
        split
        · rename_i hfar
          exact ⟨[], _, rfl, .apart holdOrder hnewOrder hagree hold hnew hfar hgrouped⟩
        · exact ⟨_, more, rfl, .join holdOrder hnewOrder hagree hold hnew hgrouped⟩

/-- The windows of the groups lead from the front of both lists to their ends, like the
changes, and the changes of each group fill its window. -/
theorem aligned_windows {changes : List Change} (context : Nat)
    (h : Aligned old new 0 0 changes old.length new.length) :
    Aligned old new 0 0
        ((Change.groups context changes).map fun g => (Window.ofGroup context old.length g).toChange)
        old.length new.length ∧
      ∀ g ∈ Change.groups context changes, FillsWindow old new context g := by
  cases h with
  | done hagree hi hj => exact ⟨.done hagree hi hj, fun g hg => absurd hg List.not_mem_nil⟩
  | change hagree hold hnew holdOrder hnewOrder hrest =>
    obtain ⟨group, more, hgroups, hgrouped⟩ :=
      exists_grouped context (.cons holdOrder hnewOrder hrest)
    rw [hgroups]
    constructor
    · exact aligned_windows_of_agree hagree hold hnew (by omega) hgrouped.first hgrouped.others
    · intro g hg
      obtain rfl | hg := List.mem_cons.mp hg
      · exact fillsWindow_of_agree hagree hold hnew (by omega) hgrouped.first
      · exact hgrouped.fills g hg

end Redline

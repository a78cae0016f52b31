import Mathlib.Data.List.Chain
import Redline.Proofs.Alignment
/-!
# Where changes, groups and windows lie

Whatever the hunks are, their changes follow one another, and between two of them both lists
have the same elements.  Groups part where more elements follow than both windows take, so
windows do not touch, and a window shows as many elements before and behind its changes as the
context asks for and the neighbours leave.
-/

namespace Redline

variable {α : Type} {old new : List α} {i j i' j' n context : Nat}
  {c next previous first last : Change} {changes group rest : List Change}
  {before behind : List (List Change)}

namespace Change

/-! ## Neighbours -/

def point (i j : Nat) : Change :=
  ⟨⟨i, i⟩, ⟨j, j⟩⟩

def gap (c next : Change) : Nat :=
  next.old.start - c.old.stop

/-- A change stands before the next one, and both lists have the same elements between them. -/
structure Leads (old new : List α) (c next : Change) : Prop where
  agree : Agree old new c.old.stop c.new.stop (c.gap next)
  old_start : next.old.start = c.old.stop + c.gap next
  new_start : next.new.start = c.new.stop + c.gap next

theorem leads_of_agree (hagree : Agree old new c.old.stop c.new.stop n)
    (hold : next.old.start = c.old.stop + n) (hnew : next.new.start = c.new.stop + n) :
    Leads old new c next := by
  have hgap : c.gap next = n := by
    rw [gap, hold, Nat.add_sub_cancel_left]
  rw [← hgap] at hagree hold hnew
  exact ⟨hagree, hold, hnew⟩

end Change

/-- Aligned changes lead from one to the next, from the positions where they begin to those
where they end. -/
theorem Aligned.isChain_leads (h : Aligned old new i j changes i' j') (hi : c.old.stop = i)
    (hj : c.new.stop = j) :
    (c :: (changes ++ [.point i' j'])).IsChain (Change.Leads old new) := by
  induction h generalizing c with
  | done hagree hi' hj' =>
    rw [← hi, ← hj] at hagree
    exact .cons_cons (Change.leads_of_agree hagree (by rw [hi]; exact hi') (by rw [hj]; exact hj'))
      (.singleton _)
  | change hagree hold hnew _ _ _ ih =>
    rw [← hi, ← hj] at hagree
    exact .cons_cons (Change.leads_of_agree hagree (by rw [hi, hold]) (by rw [hj, hnew]))
      (ih rfl rfl)

namespace Change

/-! ## Groups -/

theorem exists_groups_cons (context : Nat) (c : Change) (rest : List Change) :
    ∃ group more, groups context (c :: rest) = (c :: group) :: more := by
  obtain ⟨hflat, hne⟩ := flatten_groups context (c :: rest)
  cases hgroups : groups context (c :: rest) with
  | nil =>
    rw [hgroups] at hflat
    cases hflat
  | cons first more =>
    rw [hgroups] at hflat hne
    obtain ⟨d, group, rfl⟩ := List.exists_cons_of_ne_nil (hne first List.mem_cons_self)
    cases hflat
    exact ⟨group, more, rfl⟩

/-- Neighbours in a group are near to one another, and groups are far apart. -/
theorem isChain_groups (context : Nat) (changes : List Change) :
    (∀ group ∈ groups context changes, group.IsChain fun c next => c.gap next ≤ 2 * context) ∧
      (groups context changes).IsChain fun group later =>
        ∀ c ∈ group.getLast?, ∀ next ∈ later.head?, 2 * context < c.gap next := by
  induction changes with
  | nil => exact ⟨fun group hgroup => absurd hgroup List.not_mem_nil, .nil⟩
  | cons c rest ih =>
    cases rest with
    | nil =>
      refine ⟨fun group hgroup => ?_, .singleton _⟩
      rw [List.mem_singleton.mp hgroup]
      exact .singleton c
    | cons next rest =>
      -- the first change joins the first group of the others or stands alone before it
      obtain ⟨group, more, hgroups⟩ := exists_groups_cons context next rest
      rw [hgroups] at ih
      obtain ⟨hnear, hfar⟩ := ih
      rw [groups_cons hgroups]
      split
      case isTrue hgap =>
        refine ⟨fun g hg => ?_, .cons_cons (fun d hd e he => ?_) hfar⟩
        · obtain rfl | hg := List.mem_cons.mp hg
          · exact .singleton c
          · exact hnear g hg
        · cases hd
          cases he
          exact hgap
      case isFalse hgap =>
        refine ⟨fun g hg => ?_, hfar.imp_head fun hlater d hd => ?_⟩
        · obtain rfl | hg := List.mem_cons.mp hg
          · exact .cons_cons (Nat.le_of_not_lt hgap) (hnear _ List.mem_cons_self)
          · exact hnear g (List.mem_cons_of_mem _ hg)
        · rw [List.getLast?_cons_cons] at hd
          exact hlater d hd

theorem far_before (hgroups : groups context changes = before ++ group :: behind)
    (hprevious : before.flatten.getLast? = some previous) (hfirst : group.head? = some first) :
    2 * context < previous.gap first := by
  obtain rfl | ⟨front, g, rfl⟩ := List.eq_nil_or_concat before
  · cases hprevious
  · have hg : g ≠ [] := (flatten_groups context changes).2 g (by simp [hgroups])
    have hfar := (isChain_groups context changes).2
    rw [List.concat_eq_append] at hgroups hprevious
    rw [hgroups] at hfar
    rw [List.flatten_concat, List.getLast?_append_of_ne_nil _ hg] at hprevious
    exact (List.isChain_append.mp hfar).2.2 g List.getLast?_concat group rfl previous hprevious
      first hfirst

theorem far_behind (hgroups : groups context changes = before ++ group :: behind)
    (hlast : group.getLast? = some last) (hnext : behind.flatten.head? = some next) :
    2 * context < last.gap next := by
  cases behind with
  | nil => cases hnext
  | cons g more =>
    have hg : g ≠ [] := (flatten_groups context changes).2 g (by simp [hgroups])
    rw [List.flatten_cons, List.head?_append_of_ne_nil _ hg] at hnext
    have hfar := (isChain_groups context changes).2
    rw [hgroups, List.isChain_append_cons_cons] at hfar
    exact hfar.2.1 last hlast next hnext

end Change

/-! ## Windows -/

namespace Window

/-- A window from a first to a last change begins and ends so many elements away from them as
the context asks for, and not more than lie up to the changes before and behind; on both sides
these are the same elements. -/
structure Surrounds (w : Window) (old new : List α) (context : Nat)
    (previous first last next : Change) : Prop where
  old_start : w.old.start + min context (previous.gap first) = first.old.start
  new_start : w.new.start + min context (previous.gap first) = first.new.start
  before : Agree old new w.old.start w.new.start (min context (previous.gap first))
  old_stop : w.old.stop = last.old.stop + min context (last.gap next)
  new_stop : w.new.stop = last.new.stop + min context (last.gap next)
  behind : Agree old new last.old.stop last.new.stop (min context (last.gap next))

/-- The window counts from the ends of the old list, which makes no difference: where a change
lies between, it is farther away than the context reaches. -/
theorem surrounds_between (hprevious : Change.Leads old new previous first)
    (hnext : Change.Leads old new last next)
    (hbefore : previous.old.stop = 0 ∨ context ≤ previous.gap first)
    (hbehind : next.old.start = old.length ∨ context ≤ last.gap next) :
    (between context old.length first last).Surrounds old new context previous first last
      next := by
  have hold := hprevious.old_start
  have hnew := hprevious.new_start
  -- with nothing before it the gap is all that stands before the change
  have hstart : min context first.old.start = min context (previous.gap first) := by omega
  have hstop : min context (old.length - last.old.stop) = min context (last.gap next) := by
    have := hnext.old_start
    have := hnext.agree.old_le
    omega
  have hle : min context (previous.gap first) ≤ previous.gap first := Nat.min_le_right _ _
  have hfront := hprevious.agree.inside (Nat.le_of_eq (Nat.sub_add_cancel hle))
  unfold between
  rw [hstart, hstop]
  constructor
  case old_start =>
    dsimp only
    omega
  case new_start =>
    dsimp only
    omega
  case before =>
    dsimp only
    rwa [← Nat.add_sub_assoc hle, ← Nat.add_sub_assoc hle, ← hold, ← hnew] at hfront
  case old_stop => rfl
  case new_stop => rfl
  case behind => exact hnext.agree.front (Nat.min_le_right _ _)

theorem ofGroup_eq_between (context oldLength : Nat) (hfirst : group.head? = some first)
    (hlast : group.getLast? = some last) :
    ofGroup context oldLength group = between context oldLength first last := by
  rw [ofGroup, hfirst, hlast]

structure Before (w later : Window) : Prop where
  old_lt : w.old.stop < later.old.start
  new_lt : w.new.stop < later.new.start

theorem Before.trans {u v w : Window} (h : u.Before v) (hold : v.old.start ≤ v.old.stop)
    (hnew : v.new.start ≤ v.new.stop) (h' : v.Before w) : u.Before w :=
  ⟨Nat.lt_of_lt_of_le h.old_lt (Nat.le_trans hold (Nat.le_of_lt h'.old_lt)),
    Nat.lt_of_lt_of_le h.new_lt (Nat.le_trans hnew (Nat.le_of_lt h'.new_lt))⟩

theorem pairwise_before {windows : List Window}
    (hforward : ∀ w ∈ windows, w.old.start ≤ w.old.stop ∧ w.new.start ≤ w.new.stop)
    (h : windows.IsChain Before) : windows.Pairwise Before := by
  induction windows with
  | nil => exact .nil
  | cons w windows ih =>
    cases windows with
    | nil => exact List.pairwise_singleton _ _
    | cons v windows =>
      obtain ⟨hfirst, hrest⟩ := List.isChain_cons_cons.mp h
      have hpairs := ih (fun u hu => hforward u (List.mem_cons_of_mem _ hu)) hrest
      refine .cons (fun u hu => ?_) hpairs
      obtain rfl | hu := List.mem_cons.mp hu
      · exact hfirst
      · obtain ⟨hold, hnew⟩ := hforward v (by simp)
        exact hfirst.trans hold hnew ((List.pairwise_cons.mp hpairs).1 u hu)

theorem before_of_far {later : List Change} (hlast : group.getLast? = some last)
    (hfirst : later.head? = some first) (hleads : Change.Leads old new last first)
    (hfar : 2 * context < last.gap first) (oldLength : Nat) :
    (ofGroup context oldLength group).Before (ofGroup context oldLength later) := by
  obtain ⟨c, group, rfl⟩ := List.exists_cons_of_ne_nil
    (List.ne_nil_of_mem (List.mem_of_getLast? hlast))
  obtain ⟨d, later, rfl⟩ := List.exists_cons_of_ne_nil
    (List.ne_nil_of_mem (List.mem_of_head? hfirst))
  have hold := hleads.old_start
  have hnew := hleads.new_start
  rw [ofGroup_eq_between context oldLength rfl hlast,
    ofGroup_eq_between context oldLength hfirst List.getLast?_cons]
  constructor
  all_goals
    dsimp only [between]
    omega

/-- The windows of groups stand one before the other, and none of them touches another. -/
theorem pairwise_windows (context : Nat)
    (h : Aligned old new 0 0 changes old.length new.length) :
    ((Change.groups context changes).map (ofGroup context old.length)).Pairwise Before := by
  apply pairwise_before
  · intro w hw
    obtain ⟨group, hgroup, rfl⟩ := List.mem_map.mp hw
    have hfills := (aligned_windows context h).2 group hgroup
    exact ⟨hfills.old_le, hfills.new_le⟩
  · obtain ⟨hflat, hne⟩ := Change.flatten_groups context changes
    have hfar := (Change.isChain_groups context changes).2
    have hleads := (h.isChain_leads (c := .point 0 0) rfl rfl).tail.left_of_append
    rw [← hflat, List.isChain_flatten fun hnil => hne [] hnil rfl] at hleads
    rw [List.isChain_map, List.isChain_iff_forall_rel_of_append_cons_cons]
    intro group later before behind hgroups
    have hgroup : group ≠ [] := hne group (by simp [hgroups])
    have hlater : later ≠ [] := hne later (by simp [hgroups])
    have hlast := List.getLast?_eq_some_getLast hgroup
    have hfirst := List.head?_eq_some_head hlater
    rw [List.isChain_iff_forall_rel_of_append_cons_cons] at hfar
    exact before_of_far hlast hfirst
      (List.isChain_iff_forall_rel_of_append_cons_cons.mp hleads.2 hgroups _ hlast _ hfirst)
      (hfar hgroups _ hlast _ hfirst) old.length

theorem surrounds_ofGroup (h : Aligned old new 0 0 changes old.length new.length)
    (hgroups : Change.groups context changes = before ++ group :: behind)
    (hfirst : group.head? = some first) (hlast : group.getLast? = some last) :
    (ofGroup context old.length group).Surrounds old new context
      (before.flatten.getLast?.getD (.point 0 0)) first last
      (behind.flatten.head?.getD (.point old.length new.length)) := by
  have hleads := h.isChain_leads (c := .point 0 0) rfl rfl
  have hflat := (Change.flatten_groups context changes).1
  rw [hgroups, List.flatten_append, List.flatten_cons] at hflat
  have hprevious : Change.Leads old new (before.flatten.getLast?.getD (.point 0 0)) first := by
    rw [← hflat, List.append_assoc, ← List.cons_append] at hleads
    refine (List.isChain_append.mp hleads).2.2 _ List.getLast?_cons first ?_
    rw [List.append_assoc, List.head?_append, hfirst]
    rfl
  have hnext : Change.Leads old new last
      (behind.flatten.head?.getD (.point old.length new.length)) := by
    rw [← hflat, ← List.append_assoc, List.append_assoc, ← List.cons_append] at hleads
    refine (List.isChain_append.mp hleads).2.2 last ?_ _ ?_
    · rw [List.getLast?_cons, List.getLast?_append, hlast]
      rfl
    · rw [List.head?_append]
      exact Option.or_some
  rw [ofGroup_eq_between context old.length hfirst hlast]
  apply surrounds_between hprevious hnext
  · cases hbefore : before.flatten.getLast? with
    | none => exact .inl rfl
    | some previous =>
      have hfar := Change.far_before hgroups hbefore hfirst
      exact .inr (by dsimp only [Option.getD_some]; omega)
  · cases hbehind : behind.flatten.head? with
    | none => exact .inl rfl
    | some next =>
      have hfar := Change.far_behind hgroups hlast hbehind
      exact .inr (by dsimp only [Option.getD_some]; omega)

end Window

namespace Comparison

/-- Changes and windows of a comparison lie in its lists, in order, and with the same elements
around them on both sides. -/
structure Windowed (d : Comparison α) (context : Nat) : Prop where
  /-- Each change goes forward. -/
  forward : ∀ c ∈ d.changes, c.old.start ≤ c.old.stop ∧ c.new.start ≤ c.new.stop
  /-- The changes ascend and do not overlap. -/
  ascending : d.changes.Pairwise fun c later =>
    c.old.stop ≤ later.old.start ∧ c.new.stop ≤ later.new.start
  /-- Before the first, between two and behind the last of the changes nothing changes. -/
  leads : (.point 0 0 :: (d.changes ++ [.point d.old.length d.new.length])).IsChain
    (Change.Leads d.old d.new)
  /-- The groups are parts of the changes, in order. -/
  flatten_groups : (Change.groups context d.changes).flatten = d.changes
  group_ne_nil : ∀ group ∈ Change.groups context d.changes, group ≠ []
  /-- Neighbours in a group have at most twice the context between them. -/
  near : ∀ group ∈ Change.groups context d.changes,
    group.IsChain fun c next => c.gap next ≤ 2 * context
  /-- Between two groups is more than that. -/
  far : (Change.groups context d.changes).IsChain fun group later =>
    ∀ c ∈ group.getLast?, ∀ next ∈ later.head?, 2 * context < c.gap next
  window_inside : ∀ group ∈ Change.groups context d.changes,
    (Window.ofGroup context d.old.length group).old.Inside d.old.length ∧
      (Window.ofGroup context d.old.length group).new.Inside d.new.length
  /-- A window holds the changes of its group. -/
  change_inside : ∀ group ∈ Change.groups context d.changes, ∀ c ∈ group,
    (Window.ofGroup context d.old.length group).old.start ≤ c.old.start ∧
      c.old.stop ≤ (Window.ofGroup context d.old.length group).old.stop ∧
      (Window.ofGroup context d.old.length group).new.start ≤ c.new.start ∧
      c.new.stop ≤ (Window.ofGroup context d.old.length group).new.stop
  /-- Around its changes a window shows what lies between them and the changes of other groups,
  or the ends of the lists, as far as the context reaches. -/
  surrounds : ∀ before group behind,
    Change.groups context d.changes = before ++ group :: behind →
    ∀ first ∈ group.head?, ∀ last ∈ group.getLast?,
      (Window.ofGroup context d.old.length group).Surrounds d.old d.new context
        (before.flatten.getLast?.getD (.point 0 0)) first last
        (behind.flatten.head?.getD (.point d.old.length d.new.length))
  /-- The windows stand one before the other, with an element between any two of them. -/
  windows : ((Change.groups context d.changes).map
    (Window.ofGroup context d.old.length)).Pairwise Window.Before

theorem windowed_of_aligned {d : Comparison α}
    (h : Aligned d.old d.new 0 0 d.changes d.old.length d.new.length) (context : Nat) :
    d.Windowed context := by
  obtain ⟨hnear, hfar⟩ := Change.isChain_groups context d.changes
  have hfills := (aligned_windows context h).2
  constructor
  case forward => exact fun c hc => ⟨(h.inside hc).1, (h.symm.inside (List.mem_map_of_mem hc)).1⟩
  case ascending => exact h.ascending.2
  case leads => exact h.isChain_leads rfl rfl
  case flatten_groups => exact (Change.flatten_groups context d.changes).1
  case group_ne_nil => exact (Change.flatten_groups context d.changes).2
  case near => exact hnear
  case far => exact hfar
  case window_inside =>
    intro group hgroup
    have hwindow := hfills group hgroup
    exact ⟨⟨hwindow.old_le, hwindow.old_le_length⟩, hwindow.new_le, hwindow.new_le_length⟩
  case change_inside =>
    intro group hgroup c hc
    have hwindow := hfills group hgroup
    obtain ⟨hold, hnew⟩ := hwindow.ascending.1 c hc
    exact ⟨hold, (hwindow.inside hc).2, hnew, (hwindow.symm.inside (List.mem_map_of_mem hc)).2⟩
  case surrounds =>
    exact fun before group behind hgroups first hfirst last hlast =>
      Window.surrounds_ofGroup h hgroups hfirst hlast
  case windows => exact Window.pairwise_windows context h

/-- Whatever hunks there are, and whatever the context is. -/
theorem windowed_ofHunks (hunks : List (Hunk α)) (context : Nat) :
    (ofHunks hunks).Windowed context :=
  windowed_of_aligned (aligned_ofHunks hunks) context

end Comparison

end Redline

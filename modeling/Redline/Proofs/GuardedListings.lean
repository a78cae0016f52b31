import Redline.Proofs.ChangeWindows
import Redline.Proofs.ContextPatch
import Redline.Proofs.RangeReads
/-!
# Listings made with guards

Changes are put into groups by a walk over their positions; windows are differences of positions,
and rows are slices of the two lists.  With a guard at every difference, every slice and at the
double of the context, each of these gives what it gives without, whatever hunks the changes come
from: the one guard that can refuse something is that at the double.
-/

namespace Redline

def double? (n : Nat) : Option Nat :=
  if 2 * n ≤ maxOffset then some (2 * n) else none

theorem double?_eq {n : Nat} (h : ¬maxOffset < 2 * n) : double? n = some (2 * n) :=
  if_pos (Nat.le_of_not_lt h)

theorem double?_eq_none {n : Nat} (h : maxOffset < 2 * n) : double? n = none :=
  if_neg (Nat.not_le_of_lt h)

theorem Span.Inside.slice?_eq {s : Span} {xs : List α} (h : s.Inside xs.length) :
    s.slice? xs = some (s.slice xs) :=
  Span.slice?_eq h.start_le_stop h.stop_le

theorem Span.slice_succ_of_eq_append {xs front rest : List α} {x : α} {start : Nat}
    (hstart : start ≤ front.length) (hxs : xs = front ++ x :: rest) :
    slice ⟨start, front.length + 1⟩ xs = slice ⟨start, front.length⟩ xs ++ [x] := by
  have hx : slice ⟨front.length, front.length + 1⟩ xs = [x] := by
    rw [hxs, slice, length, List.drop_left, Nat.add_sub_cancel_left]
    rfl
  rw [← slice_append hstart (Nat.le_succ _), hx]

theorem mapM_eq_some_map {f : α → Option β} {g : α → β} {xs : List α}
    (h : ∀ x ∈ xs, f x = some (g x)) : xs.mapM f = some (xs.map g) := by
  induction xs with
  | nil => rfl
  | cons x xs ih =>
    rw [List.mapM_cons, h x List.mem_cons_self, ih fun y hy => h y (List.mem_cons_of_mem _ hy)]
    rfl

variable {context : Nat} {c next : Change} {changes group rest : List Change}

theorem Aligned.isChain_old {old new : List α} {i j i' j' : Nat}
    (h : Aligned old new i j changes i' j') :
    changes.IsChain fun c next => c.old.stop ≤ next.old.start :=
  h.ascending.2.isChain.imp fun _ _ hle => hle.1

/-! ## Groups -/

namespace Change

/-- Groups of changes by a walk over positions, the changes from `start` on being those of a group
that is still open. -/
def guardedGroupsFrom (context : Nat) (changes : List Change) :
    Nat → List Nat → Option (List (List Change))
  | start, [] =>
    if start < changes.length then do
      let group ← Span.slice? ⟨start, changes.length⟩ changes
      return [group]
    else some []
  | start, position :: rest => do
    let next ← changes[position]?
    let previous ← changes[← difference? position 1]?
    let gap ← difference? next.old.start previous.old.stop
    let widest ← double? context
    if widest < gap then
      let group ← Span.slice? ⟨start, position⟩ changes
      let more ← guardedGroupsFrom context changes position rest
      return group :: more
    else guardedGroupsFrom context changes start rest

def guardedGroups (context : Nat) (changes : List Change) : Option (List (List Change)) :=
  guardedGroupsFrom context changes 0 (List.range' 1 (changes.length - 1))

theorem guardedGroupsFrom_cons (context start : Nat) (positions : List Nat) {front : List Change}
    (hchanges : changes = front ++ c :: next :: rest) (hgap : c.old.stop ≤ next.old.start) :
    guardedGroupsFrom context changes start ((front.length + 1) :: positions) =
      (double? context).bind fun widest =>
        if widest < c.gap next then do
          let group ← Span.slice? ⟨start, front.length + 1⟩ changes
          let more ← guardedGroupsFrom context changes (front.length + 1) positions
          return group :: more
        else guardedGroupsFrom context changes start positions := by
  have hnext : changes[front.length + 1]? = some next := by simp [hchanges]
  have hprevious : changes[front.length]? = some c := by simp [hchanges]
  have hposition : difference? (front.length + 1) 1 = some front.length :=
    difference?_eq (Nat.succ_pos _)
  rw [guardedGroupsFrom]
  simp only [hnext, hposition, hprevious, difference?_eq hgap, Option.bind_eq_bind,
    Option.bind_some, gap]
  rfl

/-- The walk from behind a change on finds the groups from this change on, the first of them
being the end of the one that is open. -/
theorem guardedGroupsFrom_eq (hcontext : ¬maxOffset < 2 * context) (front : List Change)
    {start : Nat} (hstart : start ≤ front.length) (hchanges : changes = front ++ c :: rest)
    (horder : (c :: rest).IsChain fun c next => c.old.stop ≤ next.old.start) :
    ∃ group more, groups context (c :: rest) = (c :: group) :: more ∧
      guardedGroupsFrom context changes start (List.range' (front.length + 1) rest.length) =
        some ((Span.slice ⟨start, front.length⟩ changes ++ c :: group) :: more) := by
  induction rest generalizing front c start with
  | nil =>
    have hlength : changes.length = front.length + 1 := by simp [hchanges]
    have hinside : Span.Inside ⟨start, front.length + 1⟩ changes.length :=
      ⟨by dsimp only; omega, Nat.le_of_eq hlength.symm⟩
    refine ⟨[], [], rfl, ?_⟩
    rw [List.length_nil, List.range'_zero, guardedGroupsFrom, hlength, if_pos (by omega),
      hinside.slice?_eq, Span.slice_succ_of_eq_append hstart hchanges]
    rfl
  | cons next rest ih =>
    obtain ⟨hgap, hrest⟩ := List.isChain_cons_cons.mp horder
    have hlength : (front ++ [c]).length = front.length + 1 := List.length_append
    have hchanges' : changes = (front ++ [c]) ++ next :: rest := by
      rw [hchanges, List.append_assoc]
      rfl
    rw [List.length_cons, List.range'_succ, guardedGroupsFrom_cons context start _ hchanges hgap,
      double?_eq hcontext, Option.bind_some]
    by_cases hfar : 2 * context < c.gap next
    -- the open group ends here, and the next change opens another one
    · obtain ⟨group, more, hgroups, hwalk⟩ := ih _ (Nat.le_refl _) hchanges' hrest
      have hinside : Span.Inside ⟨start, front.length + 1⟩ changes.length :=
        ⟨by dsimp only; omega, by simp [hchanges]⟩
      refine ⟨[], (next :: group) :: more, (groups_cons hgroups).trans (if_pos hfar), ?_⟩
      rw [hlength, Span.slice_self] at hwalk
      rw [if_pos hfar, hinside.slice?_eq, Span.slice_succ_of_eq_append hstart hchanges, hwalk]
      rfl
    · have hstart' : start ≤ (front ++ [c]).length := by omega
      obtain ⟨group, more, hgroups, hwalk⟩ := ih _ hstart' hchanges' hrest
      refine ⟨next :: group, more, (groups_cons hgroups).trans (if_neg hfar), ?_⟩
      rw [hlength, Span.slice_succ_of_eq_append hstart hchanges, List.append_assoc] at hwalk
      rw [if_neg hfar]
      exact hwalk

theorem guardedGroups_eq (context : Nat)
    (horder : changes.IsChain fun c next => c.old.stop ≤ next.old.start) :
    guardedGroups context changes =
      if doubleOverflows context changes then none else some (groups context changes) := by
  by_cases hword : maxOffset < 2 * context
  · rcases changes with _ | ⟨c, _ | ⟨next, rest⟩⟩
    · rfl
    · rfl
    · have hwalk := guardedGroupsFrom_cons context 0 (List.range' 2 rest.length)
        (List.nil_append (c :: next :: rest)).symm (List.isChain_cons_cons.mp horder).1
      have hoverflows : doubleOverflows context (c :: next :: rest) = true := by
        simp [doubleOverflows, hword]
      rw [double?_eq_none hword] at hwalk
      rw [hoverflows, if_pos rfl]
      exact hwalk
  · have hfits : doubleOverflows context changes = false := by
      rw [doubleOverflows, decide_eq_false hword, Bool.and_false]
    rw [hfits, if_neg (by decide)]
    cases changes with
    | nil => rfl
    | cons c rest =>
      obtain ⟨group, more, hgroups, hwalk⟩ :=
        guardedGroupsFrom_eq hword [] (Nat.le_refl 0) rfl horder
      have hopen : Span.slice ⟨0, 0⟩ (c :: rest) ++ c :: group = c :: group := by
        rw [Span.slice_self, List.nil_append]
      rw [hgroups, ← hopen]
      exact hwalk

end Change

/-! ## Windows -/

namespace Window

/-- The window of a group, with every difference looked at before it is taken. -/
def guardedOfGroup (context oldLength : Nat) (group : List Change) : Option Window :=
  match group.head?, group.getLast? with
  | some first, some last => do
    let before := min context first.old.start
    let after := min context (← difference? oldLength last.old.stop)
    let oldStart ← difference? first.old.start before
    let newStart ← difference? first.new.start before
    return ⟨⟨oldStart, last.old.stop + after⟩, ⟨newStart, last.new.stop + after⟩⟩
  | _, _ => some ⟨⟨0, 0⟩, ⟨0, 0⟩⟩

theorem guardedOfGroup_eq {old new : List α} (h : FillsWindow old new context group)
    (hne : group ≠ []) :
    guardedOfGroup context old.length group = some (ofGroup context old.length group) := by
  obtain ⟨first, rest, rfl⟩ := List.exists_cons_of_ne_nil hne
  have hlast : (first :: rest).getLast? = some (rest.getLast?.getD first) := List.getLast?_cons
  have hstop := Nat.le_trans (h.inside (List.mem_of_getLast? hlast)).2 h.old_le_length
  have hstart := (start_ofGroup context old.length first rest).1
  -- what is shown before the changes is as long on both sides
  have hnew : min context first.old.start ≤ first.new.start := by
    cases h with
    | change _ hold hnew _ _ _ =>
      rw [hstart] at hold
      omega
  rw [guardedOfGroup, ofGroup, hlast]
  simp only [List.head?_cons, difference?_eq hstop, difference?_eq hnew,
    difference?_eq (Nat.min_le_right context first.old.start), Option.bind_eq_bind,
    Option.bind_some]
  rfl

end Window

/-! ## Rows -/

namespace Row

def guardedMarked (mark : String) (lines : List Bytes) (s : Span) : Option (List Bytes) :=
  (s.slice? lines).map fun shown => shown.map (Bytes.ofString mark ++ ·)

theorem guardedMarked_eq {lines : List Bytes} {s : Span} (mark : String)
    (h : s.Inside lines.length) : guardedMarked mark lines s = some (marked mark lines s) := by
  rw [guardedMarked, h.slice?_eq]
  rfl

end Row

namespace Comparison

variable {d : Comparison Bytes}

def guardedListing (d : Comparison Bytes) (context : Nat) (head : List Bytes)
    (groupRows : List Change → Option (List Bytes)) : Option (List Bytes) :=
  if d.changes.isEmpty then some []
  else do
    let groups ← Change.guardedGroups context d.changes
    let rows ← groups.mapM groupRows
    return head ++ rows.flatten

/-- If the guards let the rows pass of every group that fills its window, the whole listing
passes, unless the double of the context overflows. -/
theorem guardedListing_eq (context : Nat)
    (h : Aligned d.old d.new 0 0 d.changes d.old.length d.new.length) (head : List Bytes)
    {guarded : List Change → Option (List Bytes)} {groupRows : List Change → List Bytes}
    (hrows : ∀ group, FillsWindow d.old d.new context group → group ≠ [] →
      guarded group = some (groupRows group)) :
    d.guardedListing context head guarded =
      if Change.doubleOverflows context d.changes then none
      else some (if d.changes.isEmpty then []
        else head ++ (Change.groups context d.changes).flatMap groupRows) := by
  have hfills := (aligned_windows context h).2
  have hne := (Change.flatten_groups context d.changes).2
  have hall : (Change.groups context d.changes).mapM guarded =
      some ((Change.groups context d.changes).map groupRows) :=
    mapM_eq_some_map fun group hgroup => hrows group (hfills group hgroup) (hne group hgroup)
  rw [guardedListing, Change.guardedGroups_eq context h.isChain_old]
  by_cases hempty : d.changes.isEmpty
  · rw [if_pos hempty, if_pos hempty, List.isEmpty_iff.mp hempty]
    rfl
  · rw [if_neg hempty, if_neg hempty]
    split
    · rfl
    · simp only [Option.bind_eq_bind, Option.bind_some, hall, List.flatMap_def]
      rfl

end Comparison

namespace Unified

variable {d : Comparison Bytes} {i j i' j' : Nat}

def guardedBodyRows (d : Comparison Bytes) (stop : Nat) : Nat → List Change → Option (List Bytes)
  | position, [] => Row.guardedMarked " " d.old ⟨position, stop⟩
  | position, c :: rest => do
    let kept ← Row.guardedMarked " " d.old ⟨position, c.old.start⟩
    let gone ← Row.guardedMarked "-" d.old c.old
    let added ← Row.guardedMarked "+" d.new c.new
    let more ← guardedBodyRows d stop c.old.stop rest
    return kept ++ gone ++ added ++ more

def guardedGroupRows (d : Comparison Bytes) (context : Nat) (group : List Change) :
    Option (List Bytes) := do
  let w ← Window.guardedOfGroup context d.old.length group
  let body ← guardedBodyRows d w.old.stop w.old.start group
  return Row.ofString (groupHead w) :: body

def guardedRows (d : Comparison Bytes) (oldHead newHead : Heading) (context : Nat) :
    Option (List Bytes) :=
  d.guardedListing context [Row.ofString ("--- " ++ oldHead.numeric),
    Row.ofString ("+++ " ++ newHead.numeric)] (guardedGroupRows d context)

theorem guardedBodyRows_eq (h : Aligned d.old d.new i j group i' j') :
    guardedBodyRows d i' i group = some (bodyRows d i' i group) := by
  induction h with
  | done hagree hi hj =>
    have hlast := hagree.old_le
    exact Row.guardedMarked_eq _ ⟨by dsimp only; omega, by dsimp only; omega⟩
  | @change i j n i' j' c rest hagree hold hnew holdOrder hnewOrder hrest ih =>
    have holdStop := Nat.le_trans hrest.old_le hrest.old_le_length
    have hnewStop := Nat.le_trans hrest.new_le hrest.new_le_length
    have hkept : Span.Inside ⟨i, c.old.start⟩ d.old.length :=
      ⟨by dsimp only; omega, Nat.le_trans holdOrder holdStop⟩
    rw [guardedBodyRows, Row.guardedMarked_eq _ hkept, Row.guardedMarked_eq _ ⟨holdOrder, holdStop⟩,
      Row.guardedMarked_eq _ ⟨hnewOrder, hnewStop⟩, ih]
    rfl

theorem guardedGroupRows_eq (h : FillsWindow d.old d.new context group) (hne : group ≠ []) :
    guardedGroupRows d context group = some (groupRows d context group) := by
  rw [guardedGroupRows, Window.guardedOfGroup_eq h hne]
  simp only [Option.bind_eq_bind, Option.bind_some, guardedBodyRows_eq h]
  rfl

theorem guardedRows_eq (context : Nat)
    (h : Aligned d.old d.new 0 0 d.changes d.old.length d.new.length) (oldHead newHead : Heading) :
    guardedRows d oldHead newHead context =
      if Change.doubleOverflows context d.changes then none
      else some (rows d oldHead newHead context) :=
  Comparison.guardedListing_eq context h _ fun _ => guardedGroupRows_eq

end Unified

namespace Context

variable {d : Comparison Bytes} {side : Side} {position stop : Nat}

def guardedBodyRows (d : Comparison Bytes) (side : Side) (stop : Nat) :
    Nat → List Change → Option (List Bytes)
  | position, [] => Row.guardedMarked "  " (side.lines d) ⟨position, stop⟩
  | position, c :: rest => do
    let s := side.span c
    let kept ← Row.guardedMarked "  " (side.lines d) ⟨position, s.start⟩
    let changed ← Row.guardedMarked (mark side c) (side.lines d) s
    let more ← guardedBodyRows d side stop s.stop rest
    return kept ++ changed ++ more

def guardedSideRows (d : Comparison Bytes) (side : Side) (w : Span) (group : List Change) :
    Option (List Bytes) :=
  if group.any fun c => !(side.span c).isEmpty then guardedBodyRows d side w.stop w.start group
  else some []

def guardedGroupRows (d : Comparison Bytes) (context : Nat) (group : List Change) :
    Option (List Bytes) := do
  let w ← Window.guardedOfGroup context d.old.length group
  let old ← guardedSideRows d .old w.old group
  let new ← guardedSideRows d .new w.new group
  return [Row.ofString "***************", Row.ofString s!"*** {Row.sectionText w.old} ****"] ++
    old ++ [Row.ofString s!"--- {Row.sectionText w.new} ----"] ++ new

def guardedRows (d : Comparison Bytes) (oldHead newHead : Heading) (context : Nat) :
    Option (List Bytes) :=
  d.guardedListing context [Row.ofString ("*** " ++ oldHead.named),
    Row.ofString ("--- " ++ newHead.named)] (guardedGroupRows d context)

theorem guardedBodyRows_eq (h : Ordered side stop position group)
    (hstop : stop ≤ (side.lines d).length) :
    guardedBodyRows d side stop position group = some (bodyRows d side stop position group) := by
  induction group generalizing position with
  | nil => exact Row.guardedMarked_eq _ ⟨h, hstop⟩
  | cons c rest ih =>
    obtain ⟨hstart, horder, hrest⟩ := h
    have hbehind := hrest.le_stop
    have hkept : Span.Inside ⟨position, (side.span c).start⟩ (side.lines d).length :=
      ⟨hstart, by dsimp only; omega⟩
    have hchanged : (side.span c).Inside (side.lines d).length := ⟨horder, by omega⟩
    rw [guardedBodyRows, Row.guardedMarked_eq _ hkept, Row.guardedMarked_eq _ hchanged, ih hrest]
    rfl

theorem guardedSideRows_eq (h : FillsWindow d.old d.new context group) (side : Side) :
    guardedSideRows d side (side.window (Window.ofGroup context d.old.length group)) group =
      some (sideRows d side (side.window (Window.ofGroup context d.old.length group)) group) := by
  obtain ⟨hordered, hstop⟩ := ordered_of_fillsWindow h side
  rw [guardedSideRows, sideRows, guardedBodyRows_eq hordered hstop]
  split <;> rfl

theorem guardedGroupRows_eq (h : FillsWindow d.old d.new context group) (hne : group ≠ []) :
    guardedGroupRows d context group = some (groupRows d context group) := by
  have hold := guardedSideRows_eq h .old
  have hnew := guardedSideRows_eq h .new
  dsimp only [Side.window] at hold hnew
  rw [guardedGroupRows, Window.guardedOfGroup_eq h hne]
  simp only [Option.bind_eq_bind, Option.bind_some, hold, hnew]
  rfl

theorem guardedRows_eq (context : Nat)
    (h : Aligned d.old d.new 0 0 d.changes d.old.length d.new.length) (oldHead newHead : Heading) :
    guardedRows d oldHead newHead context =
      if Change.doubleOverflows context d.changes then none
      else some (rows d oldHead newHead context) :=
  Comparison.guardedListing_eq context h _ fun _ => guardedGroupRows_eq

end Context

namespace Report

def guardedRows (options : Options) (hunks : List (Hunk Bytes)) (oldHead newHead : Heading) :
    Option (List Bytes) :=
  let d := Comparison.ofHunks hunks
  match options.format with
  | .normal => some (Normal.rows d)
  | .edScript => some (EdScript.rows d)
  | .unified => Unified.guardedRows d oldHead newHead options.context
  | .context => Context.guardedRows d oldHead newHead options.context

/-- With guards at every step there is a report in the same cases, and the same one. -/
theorem map_guardedRows (options : Options) (hunks : List (Hunk Bytes))
    (oldHead newHead : Heading) :
    (guardedRows options hunks oldHead newHead).map Bytes.joinLines =
      render? options hunks oldHead newHead := by
  have hchanges : (Comparison.ofHunks hunks).changes = Change.ofHunks hunks := rfl
  have hunified := Unified.guardedRows_eq (d := .ofHunks hunks) options.context
    (aligned_ofHunks hunks) oldHead newHead
  have hcontext := Context.guardedRows_eq (d := .ofHunks hunks) options.context
    (aligned_ofHunks hunks) oldHead newHead
  rw [hchanges] at hunified hcontext
  rw [guardedRows, render?, render, rows, doubleOverflows]
  cases options.format with
  | normal => rfl
  | edScript => rfl
  | unified =>
    simp only [hunified, Format.hasContext, Bool.true_and]
    split <;> rfl
  | context =>
    simp only [hcontext, Format.hasContext, Bool.true_and]
    split <;> rfl

end Report

namespace Comparison

/-- Whatever the hunks are, changes, groups and windows stay in their lists, and with a guard at
every step groups, windows and both listings are the same: nothing falls below zero and nothing
is cut out of a list that does not have it. -/
theorem guarded_listings (hunks : List (Hunk Bytes)) (hcontext : context < 0x8000000000000000)
    (oldHead newHead : Heading) :
    let d := ofHunks hunks
    d.Windowed context ∧
      Change.guardedGroups context d.changes = some (Change.groups context d.changes) ∧
      (∀ group ∈ Change.groups context d.changes,
        Window.guardedOfGroup context d.old.length group =
          some (Window.ofGroup context d.old.length group)) ∧
      Unified.guardedRows d oldHead newHead context =
        some (Unified.rows d oldHead newHead context) ∧
      Context.guardedRows d oldHead newHead context =
        some (Context.rows d oldHead newHead context) := by
  intro d
  have haligned : Aligned d.old d.new 0 0 d.changes d.old.length d.new.length :=
    aligned_ofHunks hunks
  have hwindows : d.Windowed context := windowed_ofHunks hunks context
  have hgroups := Change.guardedGroups_eq context haligned.isChain_old
  have hunified := Unified.guardedRows_eq context haligned oldHead newHead
  have hlisting := Context.guardedRows_eq context haligned oldHead newHead
  rw [Change.doubleOverflows_eq_false hcontext, if_neg (by decide)] at hgroups hunified hlisting
  refine ⟨hwindows, hgroups, fun group hgroup => ?_, hunified, hlisting⟩
  exact Window.guardedOfGroup_eq ((aligned_windows context haligned).2 group hgroup)
    (hwindows.group_ne_nil group hgroup)

/-- The first two changes are neighbours with nothing between them, and one of them is empty; the
third is one line too far away for one window. -/
theorem guarded_listings_parted :
    let d := ofHunks [⟨.insert, [[97]]⟩, ⟨.delete, []⟩, ⟨.equal, [[98], [99], [100]]⟩,
      ⟨.delete, [[101]]⟩, ⟨.insert, [[102]]⟩]
    1 < 0x8000000000000000 ∧
      (Change.groups 1 d.changes).map (Window.ofGroup 1 d.old.length) =
        [⟨⟨0, 1⟩, ⟨0, 2⟩⟩, ⟨⟨2, 4⟩, ⟨3, 5⟩⟩] ∧
      d.Windowed 1 ∧
      Unified.guardedRows d ⟨"old", "old"⟩ ⟨"new", "new"⟩ 1 =
        some (Unified.rows d ⟨"old", "old"⟩ ⟨"new", "new"⟩ 1) := by
  intro d
  obtain ⟨hwindows, -, -, hunified, -⟩ := guarded_listings
    [⟨.insert, [[97]]⟩, ⟨.delete, []⟩, ⟨.equal, [[98], [99], [100]]⟩, ⟨.delete, [[101]]⟩,
      ⟨.insert, [[102]]⟩] (show 1 < 0x8000000000000000 by decide) ⟨"old", "old"⟩ ⟨"new", "new"⟩
  exact ⟨by decide, rfl, hwindows, hunified⟩

end Comparison

end Redline

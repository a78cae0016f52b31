import Redline.Proofs.PathWalks
/-!
# Replacing a file is all or nothing

While a file is being replaced its path shows the old file, complete, until the rename
shows the new one.  The stale scratch file that is removed, the scratch file that is
written and the target are three names in one directory, and what a path shows does not
depend on another name there.
-/

namespace Redline

/-- The states that a tree goes through in an operation, the latest first. -/
def Disk.statesFrom (x : Disk α) (t : FileTree) : List FileTree :=
  match x.run (.start t) with
  | .ok _ h => h.states
  | .error _ h => h.states

theorem Path.ofList_append_swapSuffix_ne (text : List Char) :
    String.ofList text ≠ String.ofList (text ++ swapSuffix.toList) := by
  intro h
  have hlength := congrArg List.length (String.ofList_injective h)
  rw [List.length_append] at hlength
  exact absurd hlength (Nat.ne_of_lt (Nat.lt_add_of_pos_right (by decide)))

namespace FileTree

variable {t u v w : FileTree} {l k parent : Location} {p : Path} {chunks : List Bytes}
  {front idle : List (List Char)} {text : List Char}

/-! ## Before the rename -/

theorem eq_child_of_enter {part : List Char} (hpart : Path.componentOfPart part = some (.name text))
    (h : t.enter l part = .ok k) : k = l.child (String.ofList text) ∧ (t.node? k).isSome := by
  unfold enter at h
  dsimp only at h
  rw [if_neg (Path.ne_nil_of_componentOfPart hpart), hpart] at h
  obtain ⟨_, -, h⟩ := exists_of_bind_eq_ok h
  obtain ⟨name, hname, h⟩ := exists_of_bind_eq_ok h
  obtain rfl := eq_of_checkName hname
  split at h
  · cases h
    exact ⟨rfl, ‹_›⟩
  · cases h

/-- The scratch path leads to a name beside the last part of the target's. -/
theorem exists_of_locate_swap (h : t.locate p.swap = .ok k) :
    ∃ front last parent mode, p.parts = front ++ [last] ∧
      front.foldlM t.enter (t.start p) = .ok parent ∧ t.node? parent = some (.directory mode) ∧
      k = parent.child (String.ofList (last ++ Path.swapSuffix.toList)) ∧ (t.node? k).isSome := by
  obtain ⟨front, last, hparts, hswap⟩ := p.parts_swap
  obtain ⟨-, hwalk⟩ := locate_eq_ok_iff.mp h
  rw [hswap, List.foldlM_append, start_congr rfl p.isAbsolute_swap] at hwalk
  obtain ⟨parent, hfront, henter⟩ := exists_of_bind_eq_ok hwalk
  obtain ⟨next, henter, hnil⟩ := exists_of_bind_eq_ok henter
  cases hnil
  obtain ⟨mode, hparent⟩ := directory_of_enter henter
  obtain ⟨hk, hsome⟩ := eq_child_of_enter (Path.componentOfPart_append_swapSuffix last) henter
  exact ⟨front, last, parent, mode, hparts, hfront, hparent, hk, hsome⟩

theorem Cleared.stat_eq (h : t.Cleared p u) : u.stat p = t.stat p := by
  obtain rfl | hremove := h
  · rfl
  obtain ⟨k, hlocate, hremove⟩ := exists_of_bind_eq_ok hremove
  obtain ⟨-, -, hremove⟩ := exists_of_bind_eq_ok hremove
  obtain ⟨front, last, parent, mode, hparts, hwalk, hparent, rfl, -⟩ :=
    exists_of_locate_swap hlocate
  split at hremove
  · rename_i stored hfile
    cases hremove
    refine stat_eq_of_beside rfl (fun k hk => node?_erase_of_ne hk) ?_ hparts nofun hwalk hparent ?_
    · rw [isDirectory, hfile]
    · intro text htext
      rw [Path.eq_of_componentOfPart htext]
      exact Path.ofList_append_swapSuffix_ne last
  · cases hremove
  · cases hremove

theorem IsBeside.stat_eq (h : u.IsBeside l p front text idle parent)
    (hworking : v.workingDirectory = u.workingDirectory)
    (hsame : ∀ k, k ≠ l → v.node? k = u.node? k) : v.stat p = u.stat p := by
  obtain ⟨mode, hparent⟩ := directory_of_requireDirectory h.search
  have hfree := h.free
  rw [h.location_eq] at hsame hfree
  refine stat_eq_of_beside hworking hsame ?_ h.parts_eq h.idle h.walk hparent ?_
  · rw [isDirectory, hfree]
  · intro name hname
    rw [Path.eq_of_componentOfPart hname]
    exact Path.ofList_append_swapSuffix_ne text

theorem IsBeside.stat_erase_eq {content : Bytes} {mode : Nat}
    (h : u.IsBeside l p front text idle parent) (hscratch : u.HasScratch l content mode v) :
    (v.erase l).stat p = u.stat p :=
  h.stat_eq hscratch.workingDirectory_eq fun k _ => hscratch.node?_erase k

/-- The states before the rename show the old file. -/
theorem stat_eq_of_before {s : FileTree} (hclear : t.Cleared p u) (hl : u.IsScratchOf l p)
    (hs : t.Cleared p s ∨ u.IsPartial l s) : s.stat p = t.stat p := by
  obtain hs | ⟨content, mode, hscratch⟩ := hs
  · exact hs.stat_eq
  · obtain ⟨front, text, idle, parent, hbeside⟩ := hl.exists_isBeside
    rw [hbeside.stat_eq hscratch.workingDirectory_eq hscratch.elsewhere, hclear.stat_eq]

/-! ## The rename -/

/-- The target of the rename and the scratch file have the same directory, and the
scratch file has the name of the target with its ending. -/
theorem IsBeside.eq_of_isRenamed {front' : List (List Char)} {text' : List Char}
    {parent' : Location} {name content mode}
    (h : u.IsBeside l p front text idle parent) (hscratch : u.HasScratch l content mode v)
    (hrenamed : v.IsRenamed l p (.ofContent content mode) front' text' parent' name w) :
    p.parts = front ++ [text] ∧ front.foldlM w.enter (w.start p) = .ok parent ∧
      parent'.child name = parent.child (String.ofList text) := by
  have hidle : idle = [] := by
    rcases List.eq_nil_or_concat idle with hnil | ⟨more, last, rfl⟩
    · exact hnil
    · have hlast := congrArg List.getLast? (h.parts_eq.symm.trans hrenamed.parts_eq)
      rw [List.getLast?_concat, List.concat_eq_append, ← List.cons_append, ← List.append_assoc,
        List.getLast?_concat] at hlast
      cases hlast
      have hnone := Path.componentOfPart_of_idle (h.idle text' (by simp))
      rw [hrenamed.isName] at hnone
      cases hnone
  subst hidle
  obtain ⟨rfl, htext⟩ := List.append_inj' (h.parts_eq.symm.trans hrenamed.parts_eq) rfl
  cases htext
  -- the directories of the first tree are still there in the other two
  obtain ⟨mode', hparent⟩ := directory_of_requireDirectory h.search
  have hkeep : ∀ k m, u.node? k = some (.directory m) → v.node? k = some (.directory m) := by
    intro k m hk
    rw [hscratch.elsewhere, hk]
    rintro rfl
    rw [h.free] at hk
    cases hk
  obtain ⟨-, hwalk⟩ := foldlM_enter_of_directories hkeep hparent h.walk
  rw [← start_congr hscratch.workingDirectory_eq rfl] at hwalk
  have hwalks := hrenamed.target.walk.symm.trans hwalk
  cases hwalks
  obtain ⟨-, hwalk'⟩ := foldlM_enter_of_directories hrenamed.keeps (hkeep _ _ hparent) hwalk
  rw [← start_congr hrenamed.workingDirectory_eq rfl] at hwalk'
  exact ⟨h.parts_eq, hwalk', by rw [eq_of_checkName hrenamed.target.name_ok]⟩

theorem IsBeside.node?_of_isRenamed {front' : List (List Char)} {text' : List Char}
    {parent' : Location} {name content mode}
    (h : u.IsBeside l p front text idle parent) (hscratch : u.HasScratch l content mode v)
    (hrenamed : v.IsRenamed l p (.ofContent content mode) front' text' parent' name w) :
    l ≠ parent'.child name ∧ ∀ k, k ≠ parent'.child name → w.node? k = u.node? k := by
  obtain ⟨-, -, htarget⟩ := h.eq_of_isRenamed hscratch hrenamed
  constructor
  · rw [htarget, h.location_eq, ne_eq, Location.child_inj]
    exact (Path.ofList_append_swapSuffix_ne text).symm
  · intro k hk
    rw [hrenamed.tree_eq, node?_set_of_ne hk, hscratch.node?_erase]

/-- What a finished replacement leaves: the new file where the path leads, no scratch
file, and every other entry. -/
structure IsReplaced (t : FileTree) (p : Path) (stored : StoredFile) (u : FileTree)
    (target : Location) : Prop where
  located : u.locate p = .ok target
  holds : u.node? target = some (.file stored)
  noScratch : (u.stat p.swap).isOk = false
  elsewhere : ∀ l, l ≠ target → u.node? l = t.node? l ∨ t.LostStale p u l

theorem exists_file_of_stat {node : Node} (hparts : p.parts = front ++ [text])
    (hname : Path.componentOfPart text = some (.name text))
    (hwalk : front.foldlM t.enter (t.start p) = .ok parent)
    (hfile : t.isDirectory (parent.child (String.ofList text)) = false)
    (hstat : t.stat p = .ok node) : ∃ old, node = .file old := by
  obtain ⟨k, hlocate, hnode⟩ := exists_of_bind_eq_ok hstat
  obtain ⟨-, hlocate⟩ := locate_eq_ok_iff.mp hlocate
  rw [hparts, List.foldlM_append, hwalk] at hlocate
  obtain ⟨next, henter, hnil⟩ := exists_of_bind_eq_ok (x := t.enter parent text) hlocate
  cases hnil
  rw [← (eq_child_of_enter hname henter).1] at hfile
  split at hnode
  · rename_i hfound
    cases hnode
    cases node with
    | file old => exact ⟨old, rfl⟩
    | directory mode => simp [isDirectory, hfound] at hfile
  · cases hnode

theorem exists_isReplaced_of_rename {content : Bytes} {mode : Nat} (hclear : t.Cleared p u)
    (hl : u.IsScratchOf l p) (hscratch : u.HasScratch l content mode v)
    (hrename : v.rename l p = .ok w) :
    (∃ target, t.IsReplaced p (.ofContent content mode) w target) ∧
      ∀ node, t.stat p = .ok node → ∃ old, node = .file old := by
  obtain ⟨front, text, idle, parent, hbeside⟩ := hl.exists_isBeside
  obtain ⟨front', text', parent', name, hrenamed⟩ := exists_of_rename hscratch.written hrename
  obtain ⟨hparts, hwalk, htarget⟩ := hbeside.eq_of_isRenamed hscratch hrenamed
  obtain ⟨hne, hsame⟩ := hbeside.node?_of_isRenamed hscratch hrenamed
  refine ⟨⟨parent'.child name, hrenamed.locate_eq, hrenamed.node_eq, ?_, fun k hk => ?_⟩,
    fun node hstat => ?_⟩
  · cases hstat : w.stat p.swap with
    | error e => rfl
    | ok node =>
      obtain ⟨k, hlocate, -⟩ := exists_of_bind_eq_ok hstat
      obtain ⟨front'', last, parent'', mode', hparts'', hwalk'', -, hk, hsome⟩ :=
        exists_of_locate_swap hlocate
      obtain ⟨rfl, hlast⟩ := List.append_inj' (hparts''.symm.trans hparts) rfl
      cases hlast
      cases hwalk''.symm.trans hwalk
      rw [← hbeside.location_eq] at hk
      rw [hk, hsame l hne, hbeside.free] at hsome
      cases hsome
  · obtain hkept | ⟨hlocate, hfile, hgone⟩ := hclear.node? k
    · exact .inl ((hsame k hk).trans hkept)
    · exact .inr ⟨hlocate, hfile, (hsame k hk).trans hgone⟩
  · rw [← hclear.stat_eq] at hstat
    have hfile := hrenamed.target.notDirectory
    rw [isDirectory, hscratch.elsewhere _ hne.symm, htarget] at hfile
    exact exists_file_of_stat hparts hbeside.isName hbeside.walk hfile hstat

/-! ## The whole run -/

theorem replace_of_stat_error {e : FileError} (h : t.stat p = .error e) (he : e ≠ .notFound) :
    t.replace p chunks = (.error e, t) := by
  have hmode : (Disk.modeAt? p).run (.start t) = .error e (.start t) := by
    have hcurrent : (History.start t).current = t := rfl
    rw [Disk.modeAt?, Disk.run_look, hcurrent, h]
    cases e <;> first | rfl | exact absurd rfl he
  have hrun : Disk.replace p chunks (.start t) = .error e (.start t) := by
    change (Disk.replace p chunks).run (.start t) = _
    rw [Disk.replace, EStateM.run_bind, hmode]
  rw [replace, hrun]
  rfl

theorem run_of_replace_ok {count : Nat} (h : t.replace p chunks = (.ok count, u)) :
    ∃ hist, (Disk.replace p chunks).run (.start t) = .ok count hist ∧ hist.current = u := by
  unfold replace at h
  split at h <;> cases h
  exact ⟨_, ‹_›, rfl⟩

theorem run_of_replace_error {e : FileError} (h : t.replace p chunks = (.error e, u)) :
    ∃ hist, (Disk.replace p chunks).run (.start t) = .error e hist ∧ hist.current = u := by
  unfold replace at h
  split at h <;> cases h
  exact ⟨_, ‹_›, rfl⟩

theorem exists_isReplaced_of_replace {count : Nat} (h : t.replace p chunks = (.ok count, u)) :
    (∃ target, t.IsReplaced p (.ofContent chunks.flatten (t.keptMode p)) u target) ∧
      ((∃ old, t.stat p = .ok (.file old) ∧ t.keptMode p = old.mode) ∨
        t.stat p = .error .notFound ∧ t.keptMode p = ordinaryMode) := by
  obtain ⟨hist, hrun, rfl⟩ := run_of_replace_ok h
  have htraced := traced t p chunks
  rw [hrun] at htraced
  cases htraced with
  | renamed hclear hl hscratch hrename _ =>
    obtain ⟨htarget, hfile⟩ := exists_isReplaced_of_rename hclear hl hscratch hrename
    refine ⟨htarget, ?_⟩
    cases hstat : t.stat p with
    | ok node =>
      obtain ⟨old, rfl⟩ := hfile node hstat
      exact .inl ⟨old, rfl, by rw [keptMode, hstat]; rfl⟩
    | error e =>
      by_cases he : e = .notFound
      · exact .inr ⟨by rw [he], by rw [keptMode, hstat]⟩
      · rw [replace_of_stat_error hstat he] at h
        cases h

theorem stat_eq_of_replace_error {e : FileError} (h : t.replace p chunks = (.error e, u)) :
    u.stat p = t.stat p := by
  obtain ⟨hist, hrun, rfl⟩ := run_of_replace_error h
  have htraced := traced t p chunks
  rw [hrun] at htraced
  cases htraced with
  | stopped hstates => exact (hstates _ (Disk.current_mem_states hist)).stat_eq
  | refused hclear hl hscratch _ _ =>
    obtain ⟨front, text, idle, parent, hbeside⟩ := hl.exists_isBeside
    rw [← hclear.stat_eq]
    exact hbeside.stat_erase_eq hscratch

theorem stat_of_mem_statesFrom {s : FileTree} (hs : s ∈ (Disk.replace p chunks).statesFrom t) :
    s.stat p = t.stat p ∨
      s.stat p = .ok (.file (.ofContent chunks.flatten (t.keptMode p))) := by
  have htraced := traced t p chunks
  rw [Disk.statesFrom] at hs
  cases hrun : (Disk.replace p chunks).run (.start t) with
  | ok count hist =>
    rw [hrun] at hs htraced
    cases htraced with
    | renamed hclear hl hscratch hrename hstates =>
      obtain rfl | hs := Disk.mem_states_push.mp hs
      · obtain ⟨⟨target, hreplaced⟩, -⟩ := exists_isReplaced_of_rename hclear hl hscratch hrename
        exact .inr (stat_of_locate hreplaced.located hreplaced.holds)
      · exact .inl (stat_eq_of_before hclear hl (hstates s hs))
  | error e hist =>
    rw [hrun] at hs htraced
    cases htraced with
    | stopped hstates => exact .inl (hstates s hs).stat_eq
    | refused hclear hl hscratch hrename hstates =>
      obtain rfl | hs := Disk.mem_states_push.mp hs
      · obtain ⟨front, text, idle, parent, hbeside⟩ := hl.exists_isBeside
        exact .inl ((hbeside.stat_erase_eq hscratch).trans hclear.stat_eq)
      · exact .inl (stat_eq_of_before hclear hl (hstates s hs))

/-- Replacing a file is all or nothing.  When it succeeds, the path shows the chunks one
after the other, with the permission bits of the old file or the ordinary ones, and no
scratch file is left; when it fails, the path shows what it did.  No other entry changes,
but a stale scratch file goes.  In every state on the way the path shows the complete old
file or the complete new one. -/
theorem replace_all_or_nothing (t : FileTree) (p : Path) (chunks : List Bytes) :
    (∀ count u, t.replace p chunks = (.ok count, u) →
      count = chunks.flatten.length ∧
      (∃ target, t.IsReplaced p (.ofContent chunks.flatten (t.keptMode p)) u target) ∧
      ((∃ old, t.stat p = .ok (.file old) ∧ t.keptMode p = old.mode) ∨
        t.stat p = .error .notFound ∧ t.keptMode p = ordinaryMode)) ∧
    (∀ e u, t.replace p chunks = (.error e, u) →
      u.stat p = t.stat p ∧ ∀ l, u.node? l = t.node? l ∨ t.LostStale p u l) ∧
    ∀ s ∈ (Disk.replace p chunks).statesFrom t,
      s.stat p = t.stat p ∨
        s.stat p = .ok (.file (.ofContent chunks.flatten (t.keptMode p))) := by
  refine ⟨fun count u h => ⟨(stat_of_replace h).1, exists_isReplaced_of_replace h⟩,
    fun e u h => ⟨stat_eq_of_replace_error h, node?_of_replace_error h⟩, fun s hs => ?_⟩
  exact stat_of_mem_statesFrom hs

def scriptAndScratch : FileTree :=
  ⟨"/", [(⟨["run"]⟩, .file (.ofContent [1] 0o750)),
    (⟨["run.swp"]⟩, .file (.ofContent [2] privateMode))]⟩

/-- Two chunks replace the script, and in seven states no other content is seen. -/
theorem replace_all_or_nothing_script :
    (∃ u, scriptAndScratch.replace ⟨"run"⟩ [[3], [4]] = (.ok 2, u) ∧
      ∃ target, scriptAndScratch.IsReplaced ⟨"run"⟩ (.ofContent [3, 4] 0o750) u target) ∧
    ((Disk.replace ⟨"run"⟩ [[3], [4]]).statesFrom scriptAndScratch).length = 7 ∧
    ∀ s ∈ (Disk.replace ⟨"run"⟩ [[3], [4]]).statesFrom scriptAndScratch,
      s.stat ⟨"run"⟩ = .ok (.file (.ofContent [1] 0o750)) ∨
        s.stat ⟨"run"⟩ = .ok (.file (.ofContent [3, 4] 0o750)) := by
  have hmode : scriptAndScratch.keptMode ⟨"run"⟩ = 0o750 := by decide +kernel
  have hold : scriptAndScratch.stat ⟨"run"⟩ = .ok (.file (.ofContent [1] 0o750)) :=
    eq_ok_of_toOption (by decide +kernel)
  have hcount : (scriptAndScratch.replace ⟨"run"⟩ [[3], [4]]).1 = .ok 2 :=
    eq_ok_of_toOption (by decide +kernel)
  have hall := replace_all_or_nothing scriptAndScratch ⟨"run"⟩ [[3], [4]]
  rw [hmode, hold] at hall
  refine ⟨?_, by decide +kernel, hall.2.2⟩
  generalize scriptAndScratch.replace ⟨"run"⟩ [[3], [4]] = result at hall hcount ⊢
  obtain ⟨count, u⟩ := result
  obtain rfl : count = .ok 2 := hcount
  exact ⟨u, rfl, (hall.1 _ _ rfl).2.1⟩

/-! ## Once more -/

theorem renameTarget_of_isTarget {name : String} (hparts : p.parts = front ++ [text])
    (hname : Path.componentOfPart text = some (.name text))
    (h : t.IsTarget p front text parent name) : t.renameTarget p = .ok (parent.child name) := by
  have hkept : ((front ++ [text]).reverse.dropWhile (· = [])).reverse = front ++ [text] := by
    rw [List.reverse_append, List.reverse_singleton, List.singleton_append,
      List.dropWhile_cons_of_neg (by simpa using Path.ne_nil_of_componentOfPart hname),
      List.reverse_cons, List.reverse_reverse]
  rw [renameTarget, h.path_ok]
  change (((p.parts.reverse.dropWhile (· = [])).reverse.dropLast.foldlM t.enter (t.start p)) >>=
    fun parent => _) = _
  rw [hparts, hkept, List.dropLast_concat, h.walk]
  change (t.requireDirectory .search parent >>= fun _ => _) = _
  rw [h.search, List.getLast?_concat, Option.bind_some, hname]
  change (checkName text >>= fun name => _) = _
  rw [h.name_ok]
  change (if (front ++ [text]).length < (front ++ [text]).length then _
    else if t.isDirectory (parent.child name) = true then _ else _) = _
  rw [if_neg (Nat.lt_irrefl _), h.notDirectory, if_neg Bool.false_ne_true]
  rfl

theorem freeLocation_of_directories {directory : Path} {name : String}
    (hkeep : ∀ k m, t.node? k = some (.directory m) → u.node? k = some (.directory m))
    (hworking : u.workingDirectory = t.workingDirectory) (hfree : u.node? l = none)
    (h : t.freeLocation directory name = .ok l) : u.freeLocation directory name = .ok l := by
  obtain ⟨parent, hpath, hlocate, hsearch, hname, -, hwrite, rfl⟩ := freeLocation_eq_ok_iff.mp h
  obtain ⟨mode, hparent⟩ := directory_of_requireDirectory hsearch
  obtain ⟨hdirectory, hwalk⟩ := locate_eq_ok_iff.mp hlocate
  obtain ⟨-, hwalk'⟩ := foldlM_enter_of_directories hkeep hparent hwalk
  have htext : u.absoluteText directory name = t.absoluteText directory name := by
    rw [absoluteText, absoluteText, hworking]
  rw [← htext] at hpath
  rw [← start_congr hworking rfl] at hwalk'
  exact freeLocation_eq_ok_iff.mpr ⟨parent, hpath, locate_eq_ok_iff.mpr ⟨hdirectory, hwalk'⟩,
    requireDirectory_of_directories hkeep hsearch, hname, hfree,
    requireDirectory_of_directories hkeep hwrite, rfl⟩

theorem IsScratchOf.of_directories
    (hkeep : ∀ k m, t.node? k = some (.directory m) → u.node? k = some (.directory m))
    (hworking : u.workingDirectory = t.workingDirectory) (hfree : u.node? l = none)
    (h : t.IsScratchOf l p) : u.IsScratchOf l p := by
  obtain ⟨directory, name, hname, hl⟩ := h
  exact ⟨directory, name, hname, freeLocation_of_directories hkeep hworking hfree hl⟩

/-- With no scratch file about and nothing in the way of the rename, a file is replaced. -/
theorem exists_replace_eq_ok {node : Node} (hstat : t.stat p = .ok node)
    (hswap : (t.stat p.swap).isOk = false) (hl : t.IsScratchOf l p)
    (hrename : ∀ content mode v, t.HasScratch l content mode v → ∃ w, v.rename l p = .ok w)
    (chunks : List Bytes) : ∃ u, t.replace p chunks = (.ok chunks.flatten.length, u) := by
  obtain ⟨directory, name, hname, hfree⟩ := hl
  have hmode : (Disk.modeAt? p).run (.start t) = .ok (some node.mode) (.start t) := by
    have hcurrent : (History.start t).current = t := rfl
    rw [Disk.modeAt?, Disk.run_look, hcurrent, hstat]
  have hstale : (Disk.removeStale p.swap).run (.start t) = .ok () (.start t) := by
    have hcurrent : (History.start t).current = t := rfl
    rw [Disk.removeStale, EStateM.run_bind, Disk.run_look]
    dsimp only
    rw [hcurrent, hswap]
    rfl
  have hcreate : (Disk.createScratch (if directory.text = "" then ⟨"."⟩ else directory)
      (name ++ Path.swapSuffix)).run (.start t) =
        .ok l ((History.start t).push (t.set l (.file (.ofContent [] privateMode)))) := by
    have hcurrent : (History.start t).current = t := rfl
    rw [Disk.createScratch, EStateM.run_bind, Disk.run_look, hcurrent, hfree]
    rfl
  have hempty := hasScratch_set (node?_of_freeLocation hfree)
  obtain ⟨h, happend, hfull, -⟩ := Disk.run_appendAll
    (h := (History.start t).push (t.set l (.file (.ofContent [] privateMode)))) hempty chunks
  obtain ⟨w, hw⟩ := hrename _ _ _ (hfull.setMode ((some node.mode).getD ordinaryMode))
  have hrun : (Disk.replace p chunks).run (.start t) = .ok chunks.flatten.length
      ((h.push (h.current.setMode l ((some node.mode).getD ordinaryMode))).push w) := by
    rw [Disk.replace]
    simp only [EStateM.run_bind, hmode, hname, hstale, hcreate, happend, Disk.run_change,
      Disk.run_settle, Disk.current_push, hw]
    rfl
  refine ⟨w, ?_⟩
  have hrun' : Disk.replace p chunks (.start t) = (Disk.replace p chunks).run (.start t) := rfl
  rw [replace, hrun', hrun]
  rfl

theorem exists_replace_again {count : Nat} (h : t.replace p chunks = (.ok count, w))
    (chunks' : List Bytes) : ∃ x, w.replace p chunks' = (.ok chunks'.flatten.length, x) := by
  have hstat := (stat_of_replace h).2
  obtain ⟨⟨target, hreplaced⟩, -⟩ := exists_isReplaced_of_replace h
  obtain ⟨hist, hrun, rfl⟩ := run_of_replace_ok h
  have htraced := traced t p chunks
  rw [hrun] at htraced
  cases htraced with
  | @renamed _ u v w l hclear hl hscratch hrename _ =>
    rw [Disk.current_push] at hstat hreplaced ⊢
    obtain ⟨front, text, idle, parent, hbeside⟩ := hl.exists_isBeside
    obtain ⟨front', text', parent', name', hrenamed⟩ := exists_of_rename hscratch.written hrename
    obtain ⟨hne, hsame⟩ := hbeside.node?_of_isRenamed hscratch hrenamed
    -- the way leads along the same directories, and the name of the scratch file is free again
    have hkeep : ∀ k m, u.node? k = some (.directory m) → w.node? k = some (.directory m) := by
      intro k m hk
      apply hrenamed.keeps
      rw [hscratch.elsewhere, hk]
      rintro rfl
      rw [hbeside.free] at hk
      cases hk
    have hworking : w.workingDirectory = u.workingDirectory :=
      hrenamed.workingDirectory_eq.trans hscratch.workingDirectory_eq
    have hagain := hl.of_directories hkeep hworking ((hsame l hne).trans hbeside.free)
    refine exists_replace_eq_ok hstat hreplaced.noScratch hagain ?_ chunks'
    intro content mode x hx
    have hkeep' : ∀ k m, v.node? k = some (.directory m) → x.node? k = some (.directory m) := by
      intro k m hk
      rw [hx.elsewhere, hrenamed.keeps k m hk]
      rintro rfl
      rw [hscratch.written] at hk
      cases hk
    obtain ⟨mode', hparent⟩ := directory_of_requireDirectory hrenamed.target.search
    have hstart : x.start p = v.start p :=
      start_congr (hx.workingDirectory_eq.trans hrenamed.workingDirectory_eq) rfl
    have htarget : x.IsTarget p front' text' parent' name' := {
      path_ok := hrenamed.target.path_ok
      walk := hstart ▸ (foldlM_enter_of_directories hkeep' hparent hrenamed.target.walk).2
      search := requireDirectory_of_directories hkeep' hrenamed.target.search
      name_ok := hrenamed.target.name_ok
      notDirectory := by rw [isDirectory, hx.elsewhere _ hne.symm, hrenamed.node_eq] }
    rw [rename, renameTarget_of_isTarget hrenamed.parts_eq hrenamed.isName htarget]
    dsimp only [bind, Except.bind]
    rw [hx.written]
    exact ⟨_, rfl⟩

end FileTree

end Redline

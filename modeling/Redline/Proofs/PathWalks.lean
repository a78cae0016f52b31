import Redline.Proofs.Replacement
/-!
# Walks along paths

A target and its scratch file stand beside each other: the text of the scratch path is
the target's with an ending, and the directory that the scratch file is made in is the
one that the walk along the target's path comes to.  What a path shows does not depend
on another name in that directory.
-/

namespace Redline

namespace Path

/-! ## Parts -/

theorem slash_notMem_of_mem_splitAtSlash {cs part : List Char} (h : part ∈ splitAtSlash cs) :
    '/' ∉ part := by
  induction cs generalizing part with
  | nil =>
    rw [List.mem_singleton.mp h]
    exact List.not_mem_nil
  | cons c rest ih =>
    rw [splitAtSlash] at h
    split at h
    · obtain rfl | h := List.mem_cons.mp h
      · exact List.not_mem_nil
      · exact ih h
    · rename_i hc
      split at h
      · rw [List.mem_singleton.mp h, List.mem_singleton]
        exact Ne.symm hc
      · rename_i hrest
        rw [hrest] at ih
        obtain rfl | h := List.mem_cons.mp h
        · rw [List.mem_cons, not_or]
          exact ⟨Ne.symm hc, ih List.mem_cons_self⟩
        · exact ih (List.mem_cons_of_mem _ h)

theorem splitAtSlash_ne_nil (cs : List Char) : splitAtSlash cs ≠ [] := by
  cases cs with
  | nil => exact List.cons_ne_nil _ _
  | cons c rest =>
    rw [splitAtSlash]
    split
    · exact List.cons_ne_nil _ _
    · split <;> exact List.cons_ne_nil _ _

theorem splitAtSlash_of_notMem {part : List Char} (h : '/' ∉ part) : splitAtSlash part = [part] := by
  induction part with
  | nil => rfl
  | cons c rest ih =>
    rw [List.mem_cons, not_or] at h
    rw [splitAtSlash, if_neg (Ne.symm h.1), ih h.2]

theorem splitAtSlash_append_slash {part : List Char} (h : '/' ∉ part) (rest : List Char) :
    splitAtSlash (part ++ '/' :: rest) = part :: splitAtSlash rest := by
  induction part with
  | nil => rw [List.nil_append, splitAtSlash, if_pos rfl]
  | cons c part ih =>
    rw [List.mem_cons, not_or] at h
    rw [List.cons_append, splitAtSlash, if_neg (Ne.symm h.1), ih h.2]

theorem splitAtSlash_intercalate {parts : List (List Char)} (hne : parts ≠ [])
    (h : ∀ part ∈ parts, '/' ∉ part) : splitAtSlash (['/'].intercalate parts) = parts := by
  induction parts with
  | nil => exact absurd rfl hne
  | cons part parts ih =>
    have hpart := h part List.mem_cons_self
    cases parts with
    | nil => rw [List.intercalate_singleton, splitAtSlash_of_notMem hpart]
    | cons next more =>
      have hjoin : ['/'].intercalate (part :: next :: more) =
          part ++ '/' :: ['/'].intercalate (next :: more) := by
        simp [List.intercalate]
      rw [hjoin, splitAtSlash_append_slash hpart,
        ih (List.cons_ne_nil _ _) fun q hq => h q (List.mem_cons_of_mem _ hq)]

theorem splitAtSlash_append {suffix : List Char} (h : '/' ∉ suffix) (cs : List Char) :
    ∃ front last, splitAtSlash cs = front ++ [last] ∧
      splitAtSlash (cs ++ suffix) = front ++ [last ++ suffix] := by
  induction cs with
  | nil => exact ⟨[], [], rfl, splitAtSlash_of_notMem h⟩
  | cons c rest ih =>
    obtain ⟨front, last, hrest, happend⟩ := ih
    rw [List.cons_append, splitAtSlash, splitAtSlash, hrest, happend]
    split
    · exact ⟨[] :: front, last, rfl, rfl⟩
    · cases front with
      | nil => exact ⟨[], c :: last, rfl, rfl⟩
      | cons first front => exact ⟨(c :: first) :: front, last, rfl, rfl⟩

theorem parts_swap (p : Path) :
    ∃ front last, p.parts = front ++ [last] ∧
      p.swap.parts = front ++ [last ++ swapSuffix.toList] := by
  have hsuffix : '/' ∉ swapSuffix.toList := by decide
  have h := splitAtSlash_append hsuffix p.text.toList
  rwa [← String.toList_append] at h

theorem isAbsolute_swap (p : Path) : p.swap.isAbsolute = p.isAbsolute := by
  unfold isAbsolute swap
  rw [String.toList_append]
  cases p.text.toList with
  | nil => decide
  | cons c rest => rfl

theorem isAbsolute_of_parts {p : Path} {part : List Char} {rest : List (List Char)}
    (h : p.parts = part :: rest) : p.isAbsolute = (decide (part = []) && decide (rest ≠ [])) := by
  unfold parts at h
  unfold isAbsolute
  cases hcs : p.text.toList with
  | nil =>
    rw [hcs] at h
    cases h
    rfl
  | cons c cs =>
    rw [hcs, splitAtSlash] at h
    split at h
    · rename_i hc
      cases h
      simp [hc, splitAtSlash_ne_nil]
    · rename_i hc
      have hpart : part ≠ [] := by
        split at h <;> cases h <;> exact List.cons_ne_nil _ _
      simp [hc, hpart]

/-! ## Names and idle parts -/

theorem ne_nil_of_componentOfPart {part text : List Char}
    (h : componentOfPart part = some (.name text)) : part ≠ [] := by
  rintro rfl
  cases h

theorem componentOfPart_of_idle {part : List Char} (h : isIdle part = true) :
    componentOfPart part = none := by
  rw [componentOfPart, if_pos h]

theorem componentOfPart_append_swapSuffix (part : List Char) :
    componentOfPart (part ++ swapSuffix.toList) = some (.name (part ++ swapSuffix.toList)) := by
  have hlength : 4 ≤ (part ++ swapSuffix.toList).length := by
    rw [List.length_append]
    exact Nat.le_add_left 4 part.length
  have hidle : ¬isIdle (part ++ swapSuffix.toList) = true := by
    intro h
    simp only [isIdle, Bool.or_eq_true, decide_eq_true_eq] at h
    obtain h | h := h <;> simp [h] at hlength
  have hup : part ++ swapSuffix.toList ≠ ['.', '.'] := by
    intro h
    simp [h] at hlength
  rw [componentOfPart, if_neg hidle, if_neg hup]

theorem exists_of_dropTrailingIdle (parts : List (List Char)) :
    ∃ idle, parts = dropTrailingIdle parts ++ idle ∧ ∀ part ∈ idle, isIdle part = true := by
  cases parts with
  | nil => exact ⟨[], rfl, nofun⟩
  | cons first rest =>
    refine ⟨(rest.reverse.takeWhile isIdle).reverse, ?_, fun part hpart => ?_⟩
    · rw [dropTrailingIdle, List.cons_append, ← List.reverse_append, List.takeWhile_append_dropWhile,
        List.reverse_reverse]
    · rw [List.mem_reverse] at hpart
      exact List.all_eq_true.mp List.all_takeWhile part hpart

/-- A path that names a file has the name as a part, with idle parts alone behind it. -/
theorem exists_of_directoryAndName? {p directory : Path} {name : String}
    (h : p.directoryAndName? = some (directory, name)) :
    ∃ front text idle, p.parts = front ++ text :: idle ∧ (∀ part ∈ idle, isIdle part = true) ∧
      componentOfPart text = some (.name text) ∧ name = String.ofList text ∧
      directory = ⟨textOfParts (dropTrailingIdle front)⟩ := by
  obtain ⟨idle, hparts, hidle⟩ := exists_of_dropTrailingIdle p.parts
  unfold directoryAndName? at h
  dsimp only at h
  split at h
  · cases h
  · rename_i last hlast
    split at h
    · rename_i text hpart
      obtain ⟨front, hfront⟩ := List.getLast?_eq_some_iff.mp hlast
      rw [hfront] at h hparts
      rw [List.dropLast_concat] at h
      cases h
      obtain rfl := eq_of_componentOfPart hpart
      refine ⟨front, text, idle, ?_, hidle, hpart, rfl, rfl⟩
      rw [hparts, List.append_assoc, List.singleton_append]
    · cases h

theorem parts_textOfParts {pieces : List (List Char)} (hne : pieces ≠ []) (hroot : pieces ≠ [[]])
    (hslash : ∀ piece ∈ pieces, '/' ∉ piece) :
    parts ⟨textOfParts pieces⟩ = pieces ∧ textOfParts pieces ≠ "" := by
  have hparts : parts ⟨textOfParts pieces⟩ = pieces := by
    rw [parts, textOfParts, if_neg hroot, String.toList_ofList]
    exact splitAtSlash_intercalate hne hslash
  refine ⟨hparts, fun hempty => ?_⟩
  rw [hempty] at hparts
  exact hroot hparts.symm

end Path

namespace Location

theorem child_inj {l : Location} {a b : String} : l.child a = l.child b ↔ a = b := by
  simp [child]

theorem child_ne_self (l : Location) (name : String) : l ≠ l.child name := by
  intro h
  have hlength := congrArg (fun l : Location => l.names.length) h
  simp [child] at hlength

theorem child_ne_parent (l : Location) (name : String) : l.parent ≠ l.child name := by
  intro h
  have hlength := congrArg (fun l : Location => l.names.length) h
  simp only [parent, child, List.length_dropLast, List.length_append, List.length_singleton]
    at hlength
  omega

end Location

namespace FileTree

variable {t u : FileTree} {l k parent : Location} {p : Path}

/-! ## Steps of a walk -/

theorem eq_of_checkName {part : List Char} {name : String} (h : checkName part = .ok name) :
    name = String.ofList part := by
  unfold checkName at h
  dsimp only at h
  split at h <;> cases h
  rfl

/-- A step leads to the location itself, to the one above, or to a name in it. -/
theorem eq_of_enter {part : List Char} (h : t.enter l part = .ok k) :
    k = l ∨ k = l.parent ∨
      ∃ text, Path.componentOfPart part = some (.name text) ∧ k = l.child (String.ofList text) := by
  unfold enter at h
  dsimp only at h
  split at h
  · obtain ⟨_, -, h⟩ := exists_of_bind_eq_ok h
    cases h
    exact .inl rfl
  · obtain ⟨_, -, h⟩ := exists_of_bind_eq_ok h
    split at h
    · rename_i text hpart
      obtain ⟨name, hname, h⟩ := exists_of_bind_eq_ok h
      obtain rfl := eq_of_checkName hname
      split at h <;> cases h
      exact .inr (.inr ⟨text, hpart, rfl⟩)
    · cases h
      exact .inr (.inl rfl)
    · cases h
      exact .inl rfl

theorem enter_eq_of_node? {part : List Char} (hl : u.node? l = t.node? l)
    (hchild : ∀ text, Path.componentOfPart part = some (.name text) →
      u.node? (l.child (String.ofList text)) = t.node? (l.child (String.ofList text))) :
    u.enter l part = t.enter l part := by
  have hmode : u.directoryModeAt l = t.directoryModeAt l := by
    rw [directoryModeAt, directoryModeAt, hl]
  have hrequire : u.requireDirectory .search l = t.requireDirectory .search l := by
    rw [requireDirectory, requireDirectory, hmode]
  unfold enter
  dsimp only
  rw [hmode, hrequire]
  split
  · rfl
  · congr 1
    funext _
    split
    · rename_i text hpart
      unfold checkName
      dsimp only
      split
      · rfl
      · change ite _ _ _ = ite _ _ _
        rw [hchild text hpart]
    · rfl
    · rfl

theorem eq_of_foldlM_enter_idle {idle : List (List Char)}
    (hidle : ∀ part ∈ idle, Path.isIdle part = true) (h : idle.foldlM t.enter l = .ok k) :
    k = l := by
  induction idle with
  | nil =>
    cases h
    rfl
  | cons part idle ih =>
    rw [List.foldlM_cons] at h
    obtain ⟨next, henter, hrest⟩ := exists_of_bind_eq_ok h
    have hnone := Path.componentOfPart_of_idle (hidle part List.mem_cons_self)
    have hnext : next = l := by
      unfold enter at henter
      dsimp only at henter
      rw [hnone] at henter
      split at henter
      · obtain ⟨_, -, henter⟩ := exists_of_bind_eq_ok henter
        cases henter
        rfl
      · obtain ⟨_, -, henter⟩ := exists_of_bind_eq_ok henter
        cases henter
        rfl
    rw [hnext] at hrest
    exact ih (fun q hq => hidle q (List.mem_cons_of_mem _ hq)) hrest

theorem foldlM_enter_idle_eq {idle : List (List Char)}
    (hidle : ∀ part ∈ idle, Path.isIdle part = true) (hl : u.node? l = t.node? l) :
    idle.foldlM u.enter l = idle.foldlM t.enter l := by
  induction idle with
  | nil => rfl
  | cons part idle ih =>
    have hpart := hidle part List.mem_cons_self
    have hsame : u.enter l part = t.enter l part := by
      refine enter_eq_of_node? hl fun text htext => ?_
      rw [Path.componentOfPart_of_idle hpart] at htext
      cases htext
    rw [List.foldlM_cons, List.foldlM_cons, hsame]
    cases henter : t.enter l part with
    | error e => rfl
    | ok next =>
      have hnext : next = l := by
        have hsingle : [part].foldlM t.enter l = .ok next := by
          rw [List.foldlM_cons, henter]
          rfl
        exact eq_of_foldlM_enter_idle (by simpa using hpart) hsingle
      rw [hnext]
      exact ih fun q hq => hidle q (List.mem_cons_of_mem _ hq)

theorem foldlM_enter_idle {idle : List (List Char)}
    (hidle : ∀ part ∈ idle, Path.isIdle part = true)
    (hsearch : t.requireDirectory .search l = .ok ()) : idle.foldlM t.enter l = .ok l := by
  induction idle with
  | nil => rfl
  | cons part idle ih =>
    have hnone := Path.componentOfPart_of_idle (hidle part List.mem_cons_self)
    have henter : t.enter l part = .ok l := by
      obtain ⟨mode, hmode, -⟩ := exists_of_bind_eq_ok hsearch
      unfold enter
      dsimp only
      rw [hsearch, hmode, hnone]
      split <;> rfl
    rw [List.foldlM_cons, henter]
    exact ih fun q hq => hidle q (List.mem_cons_of_mem _ hq)

/-! ## The directory of a scratch file -/

theorem locate_eq_ok_iff :
    t.locate p = .ok l ↔ checkPath p = .ok () ∧ p.parts.foldlM t.enter (t.start p) = .ok l := by
  unfold locate
  cases checkPath p with
  | ok _ => exact ⟨fun h => ⟨rfl, h⟩, fun h => h.2⟩
  | error e =>
    constructor
    · intro h
      cases h
    · rintro ⟨h, -⟩
      cases h

/-- Where the walk along the parts before a name ends, there lies the directory that the
path is given. -/
theorem foldlM_enter_directory {front idle : List (List Char)} {text : List Char}
    (hparts : p.parts = front ++ text :: idle) (htext : text ≠ [])
    (hlocate : t.locate (if Path.textOfParts (Path.dropTrailingIdle front) = "" then ⟨"."⟩
      else ⟨Path.textOfParts (Path.dropTrailingIdle front)⟩) = .ok parent)
    (hsearch : t.requireDirectory .search parent = .ok ()) :
    front.foldlM t.enter (t.start p) = .ok parent := by
  obtain ⟨more, hfront, hmore⟩ := Path.exists_of_dropTrailingIdle front
  have hslash : ∀ part ∈ Path.dropTrailingIdle front, '/' ∉ part := by
    intro part hpart
    have hmem : part ∈ p.parts := by
      rw [hparts, hfront]
      simp [hpart]
    exact Path.slash_notMem_of_mem_splitAtSlash hmem
  suffices hkept : (Path.dropTrailingIdle front).foldlM t.enter (t.start p) = .ok parent by
    rw [hfront, List.foldlM_append, hkept]
    exact foldlM_enter_idle hmore hsearch
  cases front with
  | nil =>
    -- a name alone is looked up in the working directory
    have habsolute := Path.isAbsolute_of_parts hparts
    rw [decide_eq_false htext, Bool.false_and] at habsolute
    rw [Path.dropTrailingIdle, Path.textOfParts, if_pos (by decide)] at hlocate
    obtain ⟨-, hwalk⟩ := locate_eq_ok_iff.mp hlocate
    have hidle : ∀ part ∈ Path.parts ⟨"."⟩, Path.isIdle part = true := by decide
    rw [eq_of_foldlM_enter_idle hidle hwalk, start, habsolute]
    rfl
  | cons first rest =>
    have hfirst : ∃ kept, Path.dropTrailingIdle (first :: rest) = first :: kept := ⟨_, rfl⟩
    obtain ⟨kept, hkept⟩ := hfirst
    have habsolute := Path.isAbsolute_of_parts hparts
    rw [hkept] at hlocate hslash ⊢
    by_cases hroot : first :: kept = [[]]
    · -- the name stands behind the root alone
      rw [Path.textOfParts, if_pos hroot, if_neg (by decide)] at hlocate
      obtain ⟨-, hwalk⟩ := locate_eq_ok_iff.mp hlocate
      cases hroot
      have hidle : ∀ part ∈ Path.parts ⟨"/"⟩, Path.isIdle part = true := by decide
      have hstart : t.start p = t.start ⟨"/"⟩ := by
        apply start_congr rfl
        rw [habsolute]
        simp [Path.isAbsolute]
      have hparent : parent = t.start p := by
        rw [hstart]
        exact eq_of_foldlM_enter_idle hidle hwalk
      rw [← hparent]
      exact foldlM_enter_idle (by decide) hsearch
    · obtain ⟨hparts', hne⟩ := Path.parts_textOfParts (List.cons_ne_nil _ _) hroot hslash
      rw [if_neg hne] at hlocate
      obtain ⟨-, hwalk⟩ := locate_eq_ok_iff.mp hlocate
      have hstart : t.start p = t.start ⟨Path.textOfParts (first :: kept)⟩ := by
        apply start_congr rfl
        rw [habsolute, Path.isAbsolute_of_parts hparts']
        by_cases hempty : first = []
        · have hmore : kept ≠ [] := fun hnil => hroot (by rw [hempty, hnil])
          simp [hempty, hmore]
        · rw [decide_eq_false hempty, Bool.false_and, Bool.false_and]
      rw [hparts'] at hwalk
      rw [hstart, hwalk]

theorem freeLocation_eq_ok_iff {directory : Path} {name : String} :
    t.freeLocation directory name = .ok l ↔
      ∃ parent, checkPath ⟨t.absoluteText directory name⟩ = .ok () ∧
        t.locate directory = .ok parent ∧ t.requireDirectory .search parent = .ok () ∧
        checkName name.toList = .ok name ∧ t.node? (parent.child name) = none ∧
        t.requireDirectory .write parent = .ok () ∧ l = parent.child name := by
  constructor
  · intro h
    obtain ⟨_, hpath, h⟩ := exists_of_bind_eq_ok h
    obtain ⟨parent, hlocate, h⟩ := exists_of_bind_eq_ok h
    obtain ⟨_, hsearch, h⟩ := exists_of_bind_eq_ok h
    obtain ⟨checked, hname, h⟩ := exists_of_bind_eq_ok h
    have hchecked := eq_of_checkName hname
    rw [String.ofList_toList] at hchecked
    rw [hchecked] at h hname
    dsimp only at h
    split at h
    · cases h
    · rename_i hfree
      obtain ⟨_, hwrite, h⟩ := exists_of_bind_eq_ok h
      cases h
      exact ⟨parent, hpath, hlocate, hsearch, hname, by simpa using hfree, hwrite, rfl⟩
  · rintro ⟨parent, hpath, hlocate, hsearch, hname, hfree, hwrite, rfl⟩
    rw [freeLocation, hpath, hlocate]
    change (t.requireDirectory .search parent >>= fun _ => _) = _
    rw [hsearch]
    change (checkName name.toList >>= fun checked => _) = _
    rw [hname]
    change (if (t.node? (parent.child name)).isSome = true then _ else _) = _
    rw [hfree, if_neg (by simp)]
    change (t.requireDirectory .write parent >>= fun _ => _) = _
    rw [hwrite]
    rfl

/-- The parts of a path up to its name lead to a directory in which the name of the
scratch file is free. -/
structure IsBeside (l : Location) (p : Path) (u : FileTree) (front : List (List Char))
    (text : List Char) (idle : List (List Char)) (parent : Location) : Prop where
  parts_eq : p.parts = front ++ text :: idle
  idle : ∀ part ∈ idle, Path.isIdle part = true
  isName : Path.componentOfPart text = some (.name text)
  walk : front.foldlM u.enter (u.start p) = .ok parent
  search : u.requireDirectory .search parent = .ok ()
  location_eq : l = parent.child (String.ofList (text ++ Path.swapSuffix.toList))
  free : u.node? l = none

theorem IsScratchOf.exists_isBeside (h : u.IsScratchOf l p) :
    ∃ front text idle parent, u.IsBeside l p front text idle parent := by
  obtain ⟨directory, name, hnamed, hl⟩ := h
  obtain ⟨front, text, idle, hparts, hidle, hname, rfl, rfl⟩ :=
    Path.exists_of_directoryAndName? hnamed
  obtain ⟨parent, -, hlocate, hsearch, -, hfree, -, rfl⟩ := freeLocation_eq_ok_iff.mp hl
  have hwalk := foldlM_enter_directory hparts (Path.ne_nil_of_componentOfPart hname) hlocate hsearch
  refine ⟨front, text, idle, parent, hparts, hidle, hname, hwalk, hsearch, ?_, hfree⟩
  rw [String.ofList_append, String.ofList_toList]

/-! ## What a path shows -/

/-- Another name in the directory of its last part does not count for a path. -/
theorem stat_eq_of_beside {front idle : List (List Char)} {part : List Char} {mode : Nat}
    {name : String} (hworking : u.workingDirectory = t.workingDirectory)
    (hsame : ∀ k, k ≠ parent.child name → u.node? k = t.node? k)
    (hfile : t.isDirectory (parent.child name) = false)
    (hparts : p.parts = front ++ part :: idle) (hidle : ∀ part ∈ idle, Path.isIdle part = true)
    (hwalk : front.foldlM t.enter (t.start p) = .ok parent)
    (hparent : t.node? parent = some (.directory mode))
    (hother : ∀ text, Path.componentOfPart part = some (.name text) → String.ofList text ≠ name) :
    u.stat p = t.stat p := by
  have hkeep : ∀ k m, t.node? k = some (.directory m) → u.node? k = some (.directory m) := by
    intro k m hk
    rw [hsame, hk]
    rintro rfl
    simp [isDirectory, hk] at hfile
  obtain ⟨-, hwalk'⟩ := foldlM_enter_of_directories hkeep hparent hwalk
  rw [← start_congr hworking rfl] at hwalk'
  have henter : u.enter parent part = t.enter parent part := by
    refine enter_eq_of_node? (hsame _ (Location.child_ne_self parent name)) fun text htext => ?_
    apply hsame
    rw [ne_eq, Location.child_inj]
    exact hother text htext
  -- what stands at the end of both walks is not the other name
  have hnext : ∀ next, t.enter parent part = .ok next → u.node? next = t.node? next := by
    intro next hstep
    apply hsame
    obtain rfl | rfl | ⟨text, htext, rfl⟩ := eq_of_enter hstep
    · exact Location.child_ne_self _ name
    · exact Location.child_ne_parent _ name
    · rw [ne_eq, Location.child_inj]
      exact hother text htext
  have hlocate : ∀ v : FileTree, front.foldlM v.enter (v.start p) = .ok parent →
      v.locate p = (checkPath p >>= fun _ => v.enter parent part >>= fun next =>
        idle.foldlM v.enter next) := by
    intro v hv
    rw [locate, hparts, List.foldlM_append, hv]
    rfl
  unfold stat
  rw [hlocate t hwalk, hlocate u hwalk', henter]
  cases checkPath p with
  | error e => rfl
  | ok _ =>
    cases hstep : t.enter parent part with
    | error e => rfl
    | ok next =>
      change (idle.foldlM u.enter next >>= fun k => _) = (idle.foldlM t.enter next >>= fun k => _)
      rw [foldlM_enter_idle_eq hidle (hnext next hstep)]
      cases hend : idle.foldlM t.enter next with
      | error e => rfl
      | ok k =>
        rw [eq_of_foldlM_enter_idle hidle hend]
        dsimp only [bind, Except.bind]
        rw [hnext next hstep]

end FileTree

end Redline

import Redline.Files.Replace
import Redline.Files.Source
import Redline.Proofs.Binds
/-!
# What replacing a file does to the tree

Replacing clears a stale scratch file away, writes a scratch file of its own and
renames it.  A failure leaves the tree as it was but for the stale file; a file that
was replaced holds the new content and can be opened again if its permission bits let
it be read.
-/

namespace Redline

theorem Path.eq_of_componentOfPart {part text : List Char}
    (h : componentOfPart part = some (.name text)) : text = part := by
  unfold componentOfPart at h
  split at h
  · cases h
  · split at h <;> cases h
    rfl

namespace FileTree

variable {t u v : FileTree} {l k : Location} {p : Path} {chunks : List Bytes}

/-! ## Looking up after a change -/

theorem isFixed_of_file {stored : StoredFile} (h : t.node? l = some (.file stored)) :
    t.isFixed l = false :=
  isFixed_of_node? fun mode hmode => by simp [h] at hmode

theorem isFixed_of_free (h : t.node? l = none) : t.isFixed l = false :=
  isFixed_of_node? fun mode hmode => by simp [h] at hmode

theorem isFixed_of_isDirectory (h : t.isDirectory l = false) : t.isFixed l = false :=
  isFixed_of_node? fun mode hmode => by simp [isDirectory, hmode] at h

theorem start_congr {q : Path} (hworking : u.workingDirectory = t.workingDirectory)
    (habsolute : p.isAbsolute = q.isAbsolute) : u.start p = t.start q := by
  rw [start, start, home, home, hworking, habsolute]

theorem node?_modifyFile_of_ne {f : StoredFile → StoredFile} (h : k ≠ l) :
    (t.modifyFile l f).node? k = t.node? k := by
  unfold modifyFile
  split
  · exact node?_set_of_ne h
  · rfl

theorem node?_modifyFile_self {f : StoredFile → StoredFile} {stored : StoredFile}
    (h : t.node? l = some (.file stored)) :
    (t.modifyFile l f).node? l = some (.file (f stored)) := by
  simp only [modifyFile, h]
  exact node?_set_self (isFixed_of_file h)

theorem node?_setMode_of_ne {mode : Nat} (h : k ≠ l) : (t.setMode l mode).node? k = t.node? k := by
  unfold setMode
  split
  · split
    · rfl
    · exact node?_set_of_ne h
  · rfl

theorem node?_setMode_self {mode : Nat} {stored : StoredFile}
    (h : t.node? l = some (.file stored)) :
    (t.setMode l mode).node? l = some (.file { stored with mode }) := by
  simp only [setMode, h, isFixed_of_file h]
  exact node?_set_self (isFixed_of_file h)

theorem set_set (t : FileTree) (l : Location) (a b : Node) : (t.set l a).set l b = t.set l b := by
  simp [set, erase, List.filter_filter]

theorem modifyFile_set {l : Location} (hl : t.isFixed l = false) (stored : StoredFile)
    (f : StoredFile → StoredFile) :
    (t.set l (.file stored)).modifyFile l f = t.set l (.file (f stored)) := by
  rw [modifyFile, node?_set_self hl]
  exact set_set t l _ _

@[simp] theorem workingDirectory_modifyFile (t : FileTree) (l : Location)
    (f : StoredFile → StoredFile) : (t.modifyFile l f).workingDirectory = t.workingDirectory := by
  unfold modifyFile
  split <;> rfl

@[simp] theorem workingDirectory_setMode (t : FileTree) (l : Location) (mode : Nat) :
    (t.setMode l mode).workingDirectory = t.workingDirectory := by
  unfold setMode
  split
  · split <;> rfl
  · rfl

/-! ## The scratch file -/

/-- Nothing but a stale scratch file for the path was removed. -/
def Cleared (t : FileTree) (p : Path) (u : FileTree) : Prop :=
  u = t ∨ t.removeFile p.swap = .ok u

structure HasScratch (t : FileTree) (l : Location) (content : Bytes) (mode : Nat)
    (u : FileTree) : Prop where
  free : t.node? l = none
  written : u.node? l = some (.file (.ofContent content mode))
  elsewhere : ∀ k, k ≠ l → u.node? k = t.node? k
  workingDirectory_eq : u.workingDirectory = t.workingDirectory

theorem HasScratch.appendContent {content : Bytes} {mode : Nat}
    (h : t.HasScratch l content mode u) (bytes : Bytes) :
    t.HasScratch l (content ++ bytes) mode (u.appendContent l bytes) where
  free := h.free
  written := node?_modifyFile_self h.written
  elsewhere k hk := (node?_modifyFile_of_ne hk).trans (h.elsewhere k hk)
  workingDirectory_eq := (workingDirectory_modifyFile _ _ _).trans h.workingDirectory_eq

theorem HasScratch.setMode {content : Bytes} {mode : Nat} (h : t.HasScratch l content mode u)
    (mode' : Nat) : t.HasScratch l content mode' (u.setMode l mode') where
  free := h.free
  written := node?_setMode_self h.written
  elsewhere k hk := (node?_setMode_of_ne hk).trans (h.elsewhere k hk)
  workingDirectory_eq := (workingDirectory_setMode _ _ _).trans h.workingDirectory_eq

theorem HasScratch.node?_erase {content : Bytes} {mode : Nat} (h : t.HasScratch l content mode u)
    (k : Location) : (u.erase l).node? k = t.node? k := by
  by_cases hk : k = l
  · rw [hk, h.free, node?_erase_self (isFixed_of_file h.written)]
  · rw [node?_erase_of_ne hk, h.elsewhere k hk]

theorem node?_of_freeLocation {directory : Path} {name : String}
    (h : t.freeLocation directory name = .ok l) : t.node? l = none := by
  obtain ⟨-, -, h⟩ := exists_of_bind_eq_ok h
  obtain ⟨parent, -, h⟩ := exists_of_bind_eq_ok h
  obtain ⟨-, -, h⟩ := exists_of_bind_eq_ok h
  obtain ⟨checked, -, h⟩ := exists_of_bind_eq_ok h
  dsimp only at h
  split at h
  · cases h
  · rename_i hfree
    obtain ⟨-, -, h⟩ := exists_of_bind_eq_ok h
    cases h
    simpa using hfree

theorem hasScratch_set (hfree : t.node? l = none) :
    t.HasScratch l [] privateMode (t.set l (.file (.ofContent [] privateMode))) where
  free := hfree
  written := node?_set_self (isFixed_of_free hfree)
  elsewhere _ hk := node?_set_of_ne hk
  workingDirectory_eq := rfl

def keptMode (t : FileTree) (p : Path) : Nat :=
  match t.stat p with
  | .ok node => node.mode
  | .error _ => ordinaryMode

inductive Replacing (t : FileTree) (p : Path) (chunks : List Bytes) :
    Except FileError Nat × FileTree → Prop where
  | stopped {e : FileError} {u : FileTree} (hclear : t.Cleared p u) :
      Replacing t p chunks (.error e, u)
  | refused {e : FileError} {u v : FileTree} {l : Location} (hclear : t.Cleared p u)
      (hscratch : u.HasScratch l chunks.flatten (t.keptMode p) v)
      (hrename : v.rename l p = .error e) : Replacing t p chunks (.error e, v.erase l)
  | renamed {u v w : FileTree} {l : Location} (hclear : t.Cleared p u)
      (hscratch : u.HasScratch l chunks.flatten (t.keptMode p) v)
      (hrename : v.rename l p = .ok w) : Replacing t p chunks (.ok chunks.flatten.length, w)

def IsScratchOf (l : Location) (p : Path) (u : FileTree) : Prop :=
  ∃ directory name, p.directoryAndName? = some (directory, name) ∧
    u.freeLocation (if directory.text = "" then ⟨"."⟩ else directory) (name ++ Path.swapSuffix) =
      .ok l

def IsPartial (u : FileTree) (l : Location) (s : FileTree) : Prop :=
  ∃ content mode, u.HasScratch l content mode s

/-- What replacing a file can come to, with all states that the tree goes through. -/
inductive Traced (t : FileTree) (p : Path) (chunks : List Bytes) :
    EStateM.Result FileError History Nat → Prop where
  | stopped {e : FileError} {h : History} (hstates : ∀ s ∈ h.states, t.Cleared p s) :
      Traced t p chunks (.error e h)
  | refused {e : FileError} {h : History} {u v : FileTree} {l : Location}
      (hclear : t.Cleared p u) (hl : u.IsScratchOf l p)
      (hscratch : u.HasScratch l chunks.flatten (t.keptMode p) v)
      (hrename : v.rename l p = .error e)
      (hstates : ∀ s ∈ h.states, t.Cleared p s ∨ u.IsPartial l s) :
      Traced t p chunks (.error e (h.push (v.erase l)))
  | renamed {h : History} {u v w : FileTree} {l : Location}
      (hclear : t.Cleared p u) (hl : u.IsScratchOf l p)
      (hscratch : u.HasScratch l chunks.flatten (t.keptMode p) v)
      (hrename : v.rename l p = .ok w)
      (hstates : ∀ s ∈ h.states, t.Cleared p s ∨ u.IsPartial l s) :
      Traced t p chunks (.ok chunks.flatten.length (h.push w))

end FileTree

namespace Disk

open FileTree

variable {h : History} {p : Path}

@[simp] theorem run_look (f : FileTree → Except FileError α) :
    (look f).run h =
      match f h.current with
      | .ok a => .ok a h
      | .error e => .error e h := rfl

@[simp] theorem run_change (f : FileTree → Except FileError FileTree) :
    (change f).run h =
      match f h.current with
      | .ok t => .ok () (h.push t)
      | .error e => .error e h := rfl

@[simp] theorem current_push (h : History) (t : FileTree) : (h.push t).current = t := rfl

theorem mem_states_push {s t : FileTree} : s ∈ (h.push t).states ↔ s = t ∨ s ∈ h.states :=
  List.mem_cons

theorem current_mem_states (h : History) : h.current ∈ h.states :=
  List.mem_cons_self

theorem run_modeAt? (p : Path) :
    (∃ e, (modeAt? p).run h = .error e h) ∨
      ∃ mode, (modeAt? p).run h = .ok mode h ∧ mode.getD ordinaryMode = h.current.keptMode p := by
  rw [modeAt?, run_look, keptMode]
  cases h.current.stat p with
  | ok node => exact .inr ⟨some node.mode, rfl, rfl⟩
  | error e =>
    cases e with
    | notFound => exact .inr ⟨none, rfl, rfl⟩
    | _ => exact .inl ⟨_, rfl⟩

theorem run_removeStale (t : FileTree) (p : Path) :
    ∃ h, (∀ s ∈ h.states, t.Cleared p s) ∧
      ((∃ e, (removeStale p.swap).run (.start t) = .error e h) ∨
        (removeStale p.swap).run (.start t) = .ok () h) := by
  have hsame : ∀ s ∈ (History.start t).states, t.Cleared p s := fun s hs =>
    .inl (List.mem_singleton.mp hs)
  rw [removeStale, EStateM.run_bind, run_look]
  dsimp only
  split
  · rw [run_change]
    cases hremove : (History.start t).current.removeFile p.swap with
    | ok u =>
      refine ⟨_, fun s hs => ?_, .inr rfl⟩
      obtain rfl | hs := mem_states_push.mp hs
      · exact .inr hremove
      · exact hsame s hs
    | error e => exact ⟨_, hsame, .inl ⟨e, rfl⟩⟩
  · exact ⟨_, hsame, .inr rfl⟩

theorem run_createScratch (directory : Path) (name : String) :
    (∃ e, (createScratch directory name).run h = .error e h) ∨
      ∃ l, h.current.freeLocation directory name = .ok l ∧
        (createScratch directory name).run h =
          .ok l (h.push (h.current.set l (.file (.ofContent [] privateMode)))) := by
  rw [createScratch, EStateM.run_bind, run_look]
  cases h.current.freeLocation directory name with
  | error e => exact .inl ⟨_, rfl⟩
  | ok l => exact .inr ⟨l, rfl, rfl⟩

theorem run_appendAll {t : FileTree} {l : Location} {content : Bytes} {mode : Nat}
    (hscratch : t.HasScratch l content mode h.current) (chunks : List Bytes) :
    ∃ h', (appendAll l chunks).run h = .ok () h' ∧
      t.HasScratch l (content ++ chunks.flatten) mode h'.current ∧
      ∀ s ∈ h'.states, s ∈ h.states ∨ t.IsPartial l s := by
  induction chunks generalizing h content with
  | nil => exact ⟨h, rfl, by simpa using hscratch, fun s hs => .inl hs⟩
  | cons chunk chunks ih =>
    have hnext := hscratch.appendContent chunk
    obtain ⟨h', hrun, hscratch', hstates⟩ :=
      ih (h := h.push (h.current.appendContent l chunk)) hnext
    refine ⟨h', hrun, by simpa using hscratch', fun s hs => ?_⟩
    obtain hs | hs := hstates s hs
    · exact (mem_states_push.mp hs).elim (fun heq => .inr ⟨_, _, heq ▸ hnext⟩) .inl
    · exact .inr hs

@[simp] theorem run_settle (scratch : Location) :
    (settle scratch p).run h =
      match h.current.rename scratch p with
      | .ok t => .ok () (h.push t)
      | .error e => .error e (h.push (h.current.erase scratch)) := rfl

end Disk

namespace FileTree

variable {t : FileTree} {p : Path} {chunks : List Bytes}

theorem traced (t : FileTree) (p : Path) (chunks : List Bytes) :
    t.Traced p chunks ((Disk.replace p chunks).run (.start t)) := by
  have hstart : ∀ s ∈ (History.start t).states, t.Cleared p s := fun s hs =>
    .inl (List.mem_singleton.mp hs)
  unfold Disk.replace
  -- each step stops the run, or goes on with its states behind those so far
  obtain ⟨e, hmode⟩ | ⟨mode, hmode, hkept⟩ := Disk.run_modeAt? (h := .start t) p
  · simp only [EStateM.run_bind, hmode]
    exact .stopped hstart
  cases hname : p.directoryAndName? with
  | none =>
    simp only [EStateM.run_bind, hmode]
    exact .stopped hstart
  | some target =>
    obtain ⟨h₁, hclear, ⟨e, hstale⟩ | hstale⟩ := Disk.run_removeStale t p
    · simp only [EStateM.run_bind, hmode, hstale]
      exact .stopped hclear
    obtain ⟨e, hcreate⟩ | ⟨l, hfree, hcreate⟩ := Disk.run_createScratch (h := h₁)
      (if target.1.text = "" then ⟨"."⟩ else target.1) (target.2 ++ Path.swapSuffix)
    · simp only [EStateM.run_bind, hmode, hstale, hcreate]
      exact .stopped hclear
    have hempty := hasScratch_set (node?_of_freeLocation hfree)
    obtain ⟨h₃, happend, hfull, hstates⟩ := Disk.run_appendAll
      (h := h₁.push (h₁.current.set l (.file (.ofContent [] privateMode)))) hempty chunks
    have hscratch := hfull.setMode (mode.getD ordinaryMode)
    have hpast : ∀ s ∈ (h₃.push (h₃.current.setMode l (mode.getD ordinaryMode))).states,
        t.Cleared p s ∨ h₁.current.IsPartial l s := by
      intro s hs
      obtain rfl | hs := Disk.mem_states_push.mp hs
      · exact .inr ⟨_, _, hscratch⟩
      obtain hs | hs := hstates s hs
      · obtain rfl | hs := Disk.mem_states_push.mp hs
        · exact .inr ⟨_, _, hempty⟩
        · exact .inl (hclear s hs)
      · exact .inr hs
    have hcleared := hclear _ (Disk.current_mem_states h₁)
    have hl : h₁.current.IsScratchOf l p := ⟨target.1, target.2, hname, hfree⟩
    simp only [EStateM.run_bind, hmode, hstale, hcreate, happend, Disk.run_change,
      Disk.run_settle, Disk.current_push]
    rw [List.nil_append, hkept] at hscratch
    rw [hkept] at hpast ⊢
    cases hrename : (h₃.current.setMode l ((History.start t).current.keptMode p)).rename l p with
    | ok w => exact .renamed hcleared hl hscratch hrename hpast
    | error e => exact .refused hcleared hl hscratch hrename hpast

theorem replacing (t : FileTree) (p : Path) (chunks : List Bytes) :
    t.Replacing p chunks (t.replace p chunks) := by
  have htraced := traced t p chunks
  have hrun : Disk.replace p chunks (.start t) = (Disk.replace p chunks).run (.start t) := rfl
  rw [replace, hrun]
  cases hresult : (Disk.replace p chunks).run (.start t) with
  | ok count h =>
    rw [hresult] at htraced
    cases htraced with
    | renamed hclear _ hscratch hrename _ => exact .renamed hclear hscratch hrename
  | error e h =>
    rw [hresult] at htraced
    cases htraced with
    | stopped hstates => exact .stopped (hstates _ (Disk.current_mem_states h))
    | refused hclear _ hscratch hrename _ => exact .refused hclear hscratch hrename

/-! ## Failure -/

/-- The file at a location was a stale scratch file for the path, and it is gone. -/
structure LostStale (t : FileTree) (p : Path) (u : FileTree) (l : Location) : Prop where
  located : t.locate p.swap = .ok l
  isFile : ∃ stored, t.node? l = some (.file stored)
  gone : u.node? l = none

theorem Cleared.node? {u : FileTree} (h : t.Cleared p u) (l : Location) :
    u.node? l = t.node? l ∨ t.LostStale p u l := by
  obtain rfl | hremove := h
  · exact .inl rfl
  obtain ⟨k, hlocate, hremove⟩ := exists_of_bind_eq_ok hremove
  obtain ⟨-, -, hremove⟩ := exists_of_bind_eq_ok hremove
  cases hnode : t.node? k with
  | none => simp [hnode] at hremove
  | some node =>
    cases node with
    | directory mode => simp [hnode] at hremove
    | file stored =>
      simp only [hnode] at hremove
      cases hremove
      by_cases hl : l = k
      · rw [hl]
        exact .inr ⟨hlocate, ⟨stored, hnode⟩, node?_erase_self (isFixed_of_file hnode)⟩
      · exact .inl (node?_erase_of_ne hl)

/-- A failed replacement leaves every entry as it was, but a stale scratch file may be gone. -/
theorem node?_of_replace_error {u : FileTree} {e : FileError}
    (h : t.replace p chunks = (.error e, u)) (l : Location) :
    u.node? l = t.node? l ∨ t.LostStale p u l := by
  have hreplacing := replacing t p chunks
  rw [h] at hreplacing
  cases hreplacing with
  | stopped hclear => exact hclear.node? l
  | refused hclear hscratch hrename =>
    obtain hsame | ⟨hlocate, hfile, hgone⟩ := hclear.node? l
    · exact .inl ((hscratch.node?_erase l).trans hsame)
    · exact .inr ⟨hlocate, hfile, (hscratch.node?_erase l).trans hgone⟩

/-! ## Opening what was replaced -/

theorem directory_of_directoryModeAt {mode : Nat} (h : t.directoryModeAt l = .ok mode) :
    t.node? l = some (.directory mode) := by
  unfold directoryModeAt at h
  split at h
  · cases h
    assumption
  · cases h
  · cases h

theorem directory_of_requireDirectory {a : Access} {x : Unit}
    (h : t.requireDirectory a l = .ok x) : ∃ mode, t.node? l = some (.directory mode) := by
  obtain ⟨mode, hmode, -⟩ := exists_of_bind_eq_ok h
  exact ⟨mode, directory_of_directoryModeAt hmode⟩

theorem directory_of_enter {part : List Char} (h : t.enter l part = .ok k) :
    ∃ mode, t.node? l = some (.directory mode) := by
  unfold enter at h
  dsimp only at h
  split at h
  · obtain ⟨mode, hmode, -⟩ := exists_of_bind_eq_ok h
    exact ⟨mode, directory_of_directoryModeAt hmode⟩
  · obtain ⟨_, hsearch, -⟩ := exists_of_bind_eq_ok h
    exact directory_of_requireDirectory hsearch

theorem enter_congr {u : FileTree} {part : List Char} (hl : u.node? l = t.node? l)
    (hk : (u.node? k).isSome) (h : t.enter l part = .ok k) : u.enter l part = .ok k := by
  have hmode : u.directoryModeAt l = t.directoryModeAt l := by
    rw [directoryModeAt, directoryModeAt, hl]
  have hrequire : u.requireDirectory .search l = t.requireDirectory .search l := by
    rw [requireDirectory, requireDirectory, hmode]
  unfold enter at h ⊢
  dsimp only at h ⊢
  rw [hmode, hrequire]
  split at h
  · rwa [if_pos ‹_›]
  · rw [if_neg ‹_›]
    cases hpart : Path.componentOfPart part with
    | none => simpa only [hpart] using h
    | some component =>
      cases component with
      | name text =>
        simp only [hpart] at h ⊢
        obtain ⟨_, hsearch, h⟩ := exists_of_bind_eq_ok h
        obtain ⟨name, hname, h⟩ := exists_of_bind_eq_ok h
        split at h
        · cases h
          rw [hsearch, hname]
          exact if_pos hk
        · cases h
      | _ => simpa only [hpart] using h

theorem requireDirectory_of_directories {u : FileTree} {a : Access}
    (hkeep : ∀ k m, t.node? k = some (.directory m) → u.node? k = some (.directory m))
    (h : t.requireDirectory a l = .ok ()) : u.requireDirectory a l = .ok () := by
  obtain ⟨mode, hl⟩ := directory_of_requireDirectory h
  rw [requireDirectory, directoryModeAt, hl] at h
  rwa [requireDirectory, directoryModeAt, hkeep _ _ hl]

/-- A walk along directories goes the same way in a tree that has these directories. -/
theorem foldlM_enter_of_directories {u : FileTree} {parts : List (List Char)}
    {start stop : Location} {mode : Nat}
    (hkeep : ∀ k m, t.node? k = some (.directory m) → u.node? k = some (.directory m))
    (hstop : t.node? stop = some (.directory mode))
    (h : parts.foldlM t.enter start = .ok stop) :
    (∃ m, t.node? start = some (.directory m)) ∧ parts.foldlM u.enter start = .ok stop := by
  induction parts generalizing start with
  | nil =>
    cases h
    exact ⟨⟨mode, hstop⟩, rfl⟩
  | cons part parts ih =>
    rw [List.foldlM_cons] at h ⊢
    obtain ⟨next, henter, hrest⟩ := exists_of_bind_eq_ok h
    obtain ⟨m, hstart⟩ := directory_of_enter henter
    obtain ⟨⟨m', hnext⟩, hwalk⟩ := ih hrest
    have hsame : u.node? start = t.node? start := (hkeep _ _ hstart).trans hstart.symm
    have hsome : (u.node? next).isSome := by rw [hkeep _ _ hnext, Option.isSome_some]
    rw [enter_congr hsame hsome henter]
    exact ⟨⟨m, hstart⟩, hwalk⟩

theorem enter_name {part text : List Char} {name : String} {x : Unit}
    (hpart : Path.componentOfPart part = some (.name text))
    (hsearch : t.requireDirectory .search l = .ok x) (hname : checkName text = .ok name)
    (hsome : (t.node? (l.child name)).isSome) : t.enter l part = .ok (l.child name) := by
  have hne : part ≠ [] := by
    rintro rfl
    cases hpart
  unfold enter
  simp only [if_neg hne, hpart, hsearch]
  change (checkName text >>= fun name => _) = _
  rw [hname]
  exact if_pos hsome

private theorem eq_of_trimmed {parts : List (List Char)}
    (h : ¬(parts.reverse.dropWhile (· = [])).reverse.length < parts.length) :
    (parts.reverse.dropWhile (· = [])).reverse = parts := by
  have hsub := (List.dropWhile_sublist (fun part : List Char => decide (part = [])) (l := parts.reverse)).reverse
  rw [List.reverse_reverse] at hsub
  exact hsub.eq_of_length_le (Nat.le_of_not_lt h)

structure IsTarget (t : FileTree) (p : Path) (front : List (List Char)) (text : List Char)
    (parent : Location) (name : String) : Prop where
  path_ok : checkPath p = .ok ()
  walk : front.foldlM t.enter (t.start p) = .ok parent
  search : t.requireDirectory .search parent = .ok ()
  name_ok : checkName text = .ok name
  notDirectory : t.isDirectory (parent.child name) = false

theorem exists_of_renameTarget {target : Location} (h : t.renameTarget p = .ok target) :
    ∃ front last text parent name, p.parts = front ++ [last] ∧
      Path.componentOfPart last = some (.name text) ∧ t.IsTarget p front text parent name ∧
        target = parent.child name := by
  obtain ⟨_, hpath, h⟩ := exists_of_bind_eq_ok h
  obtain ⟨parent, hwalk, h⟩ := exists_of_bind_eq_ok h
  obtain ⟨_, hsearch, h⟩ := exists_of_bind_eq_ok h
  dsimp only at h hwalk
  split at h
  · rename_i text hpart
    obtain ⟨name, hname, h⟩ := exists_of_bind_eq_ok h
    split at h
    · cases h
    rename_i hwhole
    rw [eq_of_trimmed hwhole] at hwalk hpart
    obtain ⟨last, hlast, hpart⟩ := Option.bind_eq_some_iff.mp hpart
    obtain ⟨front, hparts⟩ := List.getLast?_eq_some_iff.mp hlast
    rw [hparts, List.dropLast_concat] at hwalk
    split at h
    · cases h
    rename_i hdirectory
    cases h
    exact ⟨front, last, text, parent, name, hparts, hpart,
      ⟨hpath, hwalk, hsearch, hname, eq_false_of_ne_true hdirectory⟩, rfl⟩
  · cases h

/-- What a rename gives its target can be found at the path, once something is there. -/
theorem locate_of_isTarget {u : FileTree} {front : List (List Char)} {last text : List Char}
    {parent : Location} {name : String} (hworking : u.workingDirectory = t.workingDirectory)
    (hkeep : ∀ k m, t.node? k = some (.directory m) → u.node? k = some (.directory m))
    (htarget : (u.node? (parent.child name)).isSome) (hparts : p.parts = front ++ [last])
    (hpart : Path.componentOfPart last = some (.name text))
    (h : t.IsTarget p front text parent name) : u.locate p = .ok (parent.child name) := by
  obtain ⟨mode, hparent⟩ := directory_of_requireDirectory h.search
  obtain ⟨-, hwalk⟩ := foldlM_enter_of_directories hkeep hparent h.walk
  have hsearch := requireDirectory_of_directories hkeep h.search
  calc u.locate p
      = p.parts.foldlM u.enter (t.start p) := by
        rw [locate, h.path_ok, start_congr hworking rfl]
        rfl
    _ = u.enter parent last := by
        rw [hparts, List.foldlM_append, hwalk]
        exact bind_pure (u.enter parent last)
    _ = .ok (parent.child name) := enter_name hpart hsearch h.name_ok htarget

theorem stat_of_locate {node : Node} (hlocate : t.locate p = .ok l)
    (hnode : t.node? l = some node) : t.stat p = .ok node := by
  unfold stat
  rw [hlocate]
  dsimp only [bind, Except.bind]
  rw [hnode]
  rfl

theorem read_of_stat {stored : StoredFile} (hstat : t.stat p = .ok (.file stored))
    (hgrants : (Node.file stored).grants .read = true) : t.read p = .ok stored.content := by
  rw [read, file, hstat]
  change Except.map _ ((Node.file stored).require .read >>= fun _ => pure stored) = _
  rw [Node.require, if_pos hgrants]
  rfl

theorem eq_of_read {stored : StoredFile} {content : Bytes}
    (hstat : t.stat p = .ok (.file stored)) (h : t.read p = .ok content) :
    content = stored.content := by
  rw [read, file, hstat] at h
  change Except.map _ ((Node.file stored).require .read >>= fun _ => pure stored) = _ at h
  unfold Node.require at h
  split at h
  · cases h
    rfl
  · cases h

structure IsRenamed (t : FileTree) (l : Location) (p : Path) (stored : StoredFile)
    (front : List (List Char)) (text : List Char) (parent : Location) (name : String)
    (u : FileTree) : Prop where
  parts_eq : p.parts = front ++ [text]
  isName : Path.componentOfPart text = some (.name text)
  target : t.IsTarget p front text parent name
  tree_eq : u = (t.erase l).set (parent.child name) (.file stored)
  node_eq : u.node? (parent.child name) = some (.file stored)
  keeps : ∀ k m, t.node? k = some (.directory m) → u.node? k = some (.directory m)
  locate_eq : u.locate p = .ok (parent.child name)

theorem exists_of_rename {u : FileTree} {stored : StoredFile}
    (hnode : t.node? l = some (.file stored)) (h : t.rename l p = .ok u) :
    ∃ front text parent name, t.IsRenamed l p stored front text parent name u := by
  obtain ⟨target, hrenames, h⟩ := exists_of_bind_eq_ok h
  obtain ⟨front, last, text, parent, name, hparts, hpart, htarget, rfl⟩ :=
    exists_of_renameTarget hrenames
  obtain rfl := Path.eq_of_componentOfPart hpart
  rw [hnode] at h
  cases h
  have hfixed : t.isFixed (parent.child name) = false := isFixed_of_isDirectory htarget.notDirectory
  have hplaced : ((t.erase l).set (parent.child name) (.file stored)).node? (parent.child name) =
      some (.file stored) := node?_set_self hfixed
  have hkeep : ∀ k m, t.node? k = some (.directory m) →
      ((t.erase l).set (parent.child name) (.file stored)).node? k = some (.directory m) := by
    intro k m hk
    have hkt : k ≠ parent.child name := by
      rintro rfl
      simpa [isDirectory, hk] using htarget.notDirectory
    have hkl : k ≠ l := by
      rintro rfl
      simp [hnode] at hk
    rw [node?_set_of_ne hkt, node?_erase_of_ne hkl, hk]
  have hworking : ((t.erase l).set (parent.child name) (.file stored)).workingDirectory =
      t.workingDirectory := rfl
  have hlocate := locate_of_isTarget hworking hkeep (by rw [hplaced, Option.isSome_some]) hparts hpart
    htarget
  exact ⟨front, text, parent, name, hparts, hpart, htarget, rfl, hplaced, hkeep, hlocate⟩

theorem IsRenamed.workingDirectory_eq {u : FileTree} {stored : StoredFile}
    {front : List (List Char)} {text : List Char} {parent : Location} {name : String}
    (h : t.IsRenamed l p stored front text parent name u) :
    u.workingDirectory = t.workingDirectory := by
  rw [h.tree_eq]
  rfl

theorem stat_of_replace {u : FileTree} {count : Nat} (h : t.replace p chunks = (.ok count, u)) :
    count = chunks.flatten.length ∧
      u.stat p = .ok (.file (.ofContent chunks.flatten (t.keptMode p))) := by
  have hreplacing := replacing t p chunks
  rw [h] at hreplacing
  cases hreplacing with
  | renamed hclear hscratch hrename =>
    obtain ⟨front, text, parent, name, hrenamed⟩ := exists_of_rename hscratch.written hrename
    exact ⟨rfl, stat_of_locate hrenamed.locate_eq hrenamed.node_eq⟩

theorem grants_of_replace {u : FileTree} {count : Nat} (h : t.replace p chunks = (.ok count, u))
    (hread : ∀ node, t.stat p = .ok node → node.grants .read = true) (node : Node)
    (hstat : u.stat p = .ok node) : node.grants .read = true := by
  cases (stat_of_replace h).2.symm.trans hstat
  change (t.keptMode p).testBit _ = true
  unfold keptMode
  split
  · exact hread _ ‹_›
  · decide

theorem read_of_replace {u : FileTree} {count : Nat} (h : t.replace p chunks = (.ok count, u))
    (hread : ∀ node, t.stat p = .ok node → node.grants .read = true) :
    u.read p = .ok chunks.flatten :=
  read_of_stat (stat_of_replace h).2 (grants_of_replace h hread _ (stat_of_replace h).2)

/-! ## Trees in which a replaced file can be opened -/

/-- Whatever file is replaced can be opened afterwards. -/
def Reopens (t : FileTree) : Prop :=
  ∀ p chunks count u, t.replace p chunks = (.ok count, u) → ∃ source, u.openSource p = .ok source

theorem reopens_of_readable (h : ∀ p node, t.stat p = .ok node → node.grants .read = true) :
    t.Reopens := by
  intro p chunks count u hreplace
  exact ⟨_, openSource_of_read (read_of_replace hreplace (h p))⟩

theorem reopens_of_entries (h : ∀ e ∈ t.entries, e.2.grants .read = true) : t.Reopens := by
  refine reopens_of_readable fun p node hstat => ?_
  obtain ⟨l, -, hstat⟩ := exists_of_bind_eq_ok hstat
  cases hnode : t.node? l with
  | none => simp [hnode] at hstat
  | some found =>
    simp only [hnode] at hstat
    cases hstat
    unfold node? at hnode
    split at hnode
    · cases hnode
      decide
    · obtain ⟨front, back, hentries, -⟩ := List.lookup_eq_some_iff.mp hnode
      exact h (l, node) (by simp [hentries])

end FileTree

/-! ## How the content is cut into chunks -/

namespace Disk

variable {h : History}

theorem exists_run_appendAll {t : FileTree} {l : Location} (hl : t.isFixed l = false)
    {content : Bytes} {mode : Nat}
    (hscratch : h.current = t.set l (.file (.ofContent content mode))) (chunks : List Bytes) :
    ∃ h', (appendAll l chunks).run h = .ok () h' ∧
      h'.current = t.set l (.file (.ofContent (content ++ chunks.flatten) mode)) := by
  induction chunks generalizing h content with
  | nil => exact ⟨h, rfl, by rw [hscratch, List.flatten_nil, List.append_nil]⟩
  | cons chunk chunks ih =>
    have hnext : (h.push (h.current.appendContent l chunk)).current =
        t.set l (.file (.ofContent (content ++ chunk) mode)) := by
      rw [current_push, hscratch]
      exact FileTree.modifyFile_set hl _ _
    obtain ⟨h', hrun, hcurrent⟩ := ih hnext
    refine ⟨h', hrun, ?_⟩
    rw [hcurrent, List.flatten_cons, List.append_assoc]

end Disk

namespace FileTree

variable {t : FileTree} {p : Path}

/-- What replacing a file comes to does not depend on how the content is cut into chunks. -/
theorem replace_congr {a b : List Bytes} (hab : a.flatten = b.flatten) :
    t.replace p a = t.replace p b := by
  have hrun : ∀ chunks, Disk.replace p chunks (.start t) = (Disk.replace p chunks).run (.start t) :=
    fun _ => rfl
  rw [replace, replace, hrun, hrun]
  unfold Disk.replace
  obtain ⟨e, hmode⟩ | ⟨mode, hmode, -⟩ := Disk.run_modeAt? (h := .start t) p
  · simp only [EStateM.run_bind, hmode]
  cases hname : p.directoryAndName? with
  | none =>
    simp only [EStateM.run_bind, hmode]
  | some target =>
    obtain ⟨h₁, -, ⟨e, hstale⟩ | hstale⟩ := Disk.run_removeStale t p
    · simp only [EStateM.run_bind, hmode, hstale]
    obtain ⟨e, hcreate⟩ | ⟨l, hfree, hcreate⟩ := Disk.run_createScratch (h := h₁)
      (if target.1.text = "" then ⟨"."⟩ else target.1) (target.2 ++ Path.swapSuffix)
    · simp only [EStateM.run_bind, hmode, hstale, hcreate]
    have hfixed := isFixed_of_free (node?_of_freeLocation hfree)
    obtain ⟨h₂, happend, hcurrent⟩ := Disk.exists_run_appendAll
      (h := h₁.push (h₁.current.set l (.file (.ofContent [] privateMode)))) hfixed rfl a
    obtain ⟨h₃, happend', hcurrent'⟩ := Disk.exists_run_appendAll
      (h := h₁.push (h₁.current.set l (.file (.ofContent [] privateMode)))) hfixed rfl b
    rw [hab, ← hcurrent'] at hcurrent
    simp only [EStateM.run_bind, hmode, hstale, hcreate, happend, happend', Disk.run_change,
      Disk.run_settle, Disk.current_push, hcurrent, hab]
    cases (h₃.current.setMode l (mode.getD ordinaryMode)).rename l p with
    | ok u => rfl
    | error e => rfl

end FileTree

end Redline

import Mathlib.Data.List.Induction
import Mathlib.Logic.Relation
import Redline.Proofs.Replacement
import Redline.Session
/-!
# A session in two threads

A reader goes through the lines of a script, puts its items together and sends them
through a channel that holds one; an executor receives them and carries them out.  The
two take their steps in any order.  However they do, what was received is the front of
the script's items, and what was written and done is what the same items do one after
the other.
-/

namespace Redline

namespace Relay

open Script Session

inductive Reader where
  /-- Looking for a command. -/
  | between (rest : List (Option String))
  /-- In the text block of a command, with the lines that it gathered. -/
  | inBlock (c : Command) (block : List String) (rest : List (Option String))
  /-- With an item for the channel. -/
  | ready (item : Item) (rest : List (Option String))
  | ended

/-- Reads one line, or the end of the input.  A line that is no text ends the reading
for the one who asked for a line, which is the block if there is one. -/
def Reader.advance : Reader → Option Reader
  | between [] | between (none :: _) => some ended
  | between (some line :: rest) =>
    match Command.parse line with
    | .error cause => some (ready (.error cause) rest)
    | .ok c => some (if c.verb.takesText then inBlock c [] rest else ready (.ok c) rest)
  | inBlock c block [] => some (ready (.ok (c.withText (blockText block))) [])
  | inBlock c block (none :: rest) => some (ready (.ok (c.withText (blockText block))) rest)
  | inBlock c block (some line :: rest) =>
    let line := blockLine line
    some (if line = "." then ready (.ok (c.withText (blockText block))) rest
      else inBlock c (block ++ [line]) rest)
  | ready .. | ended => none

inductive Executor where
  | waiting
  /-- With an item that it received and has not carried out. -/
  | holding (item : Item)
  /-- With a command to quit, about to leave. -/
  | quitting (item : Item)
  /-- Gone after a command to quit, and the receiving end of the channel with it. -/
  | left (item : Item)
  /-- Through with all that the reader sent. -/
  | drained

namespace Executor

/-- The item that was received last, unless it was carried out. -/
def inHand : Executor → List Item
  | holding item | quitting item | left item => [item]
  | waiting | drained => []

/-- A command to quit is all that makes the executor leave. -/
def Minds : Executor → Prop
  | holding item => isQuit item = false
  | quitting item | left item => isQuit item = true
  | waiting | drained => True

def IsOver : Executor → Prop
  | left _ | drained => True
  | waiting | holding _ | quitting _ => False

end Executor

structure State where
  reader : Reader
  channel : Option Item
  executor : Executor
  /-- The items that were carried out. -/
  done : List Item
  written : Bytes
  workspace : Workspace

namespace State

def start (script : Bytes) (w : Workspace) : State where
  reader := .between (inputLines script)
  channel := none
  executor := .waiting
  done := []
  written := []
  workspace := w

def received (s : State) : List Item :=
  s.done ++ s.executor.inHand

end State

inductive Step : State → State → Prop where
  | read {s : State} {r : Reader} (h : s.reader.advance = some r) : Step s { s with reader := r }
  | send {s : State} {item : Item} {rest : List (Option String)}
      (hreader : s.reader = .ready item rest) (hempty : s.channel = none)
      (halive : ¬s.executor.IsOver) :
      Step s { s with reader := .between rest, channel := some item }
  /-- Nobody receives any more. -/
  | drop {s : State} {item : Item} {rest : List (Option String)}
      (hreader : s.reader = .ready item rest) (hover : s.executor.IsOver) :
      Step s { s with reader := .ended }
  | receive {s : State} {item : Item} (hwaiting : s.executor = .waiting)
      (hitem : s.channel = some item) :
      Step s { s with
        channel := none
        executor := if isQuit item then .quitting item else .holding item }
  | act {s : State} {item : Item} (hholding : s.executor = .holding item) :
      Step s { s with
        executor := .waiting
        done := s.done ++ [item]
        written := s.written ++ (step item s.workspace).1
        workspace := (step item s.workspace).2 }
  /-- What is in the channel is lost. -/
  | leave {s : State} {item : Item} (hquitting : s.executor = .quitting item) :
      Step s { s with channel := none, executor := .left item }
  | finish {s : State} (hwaiting : s.executor = .waiting) (hempty : s.channel = none)
      (hended : s.reader = .ended) : Step s { s with executor := .drained }

abbrev Steps : State → State → Prop :=
  Relation.ReflTransGen Step

/-! ## The reader -/

def Reader.items : Reader → List Item
  | between rest => Script.items rest
  | inBlock c block rest =>
    .ok (c.withText (blockText (block ++ (takeBlock rest).1))) :: Script.items (takeBlock rest).2
  | ready item rest => item :: Script.items rest
  | ended => []

/-- Reading on changes nothing about the items to come. -/
theorem Reader.items_advance {r r' : Reader} (h : r.advance = some r') : r'.items = r.items := by
  match r with
  | between [] | between (none :: _) =>
    cases h
    simp only [items, Script.items]
  | between (some line :: rest) =>
    rw [items, Script.items, next]
    rw [advance] at h
    cases hparse : Command.parse line with
    | error cause =>
      rw [hparse] at h
      cases h
      rfl
    | ok c =>
      rw [hparse] at h
      cases h
      by_cases htakes : c.verb.takesText = true
      · simp only [if_pos htakes, items, List.nil_append]
      · simp only [if_neg htakes, items]
  | inBlock c block [] | inBlock c block (none :: rest) =>
    cases h
    simp only [items, takeBlock, List.append_nil]
  | inBlock c block (some line :: rest) =>
    cases h
    by_cases hdot : blockLine line = "."
    · simp only [if_pos hdot, items, takeBlock, List.append_nil]
    · simp only [if_neg hdot, items, takeBlock, List.append_assoc, List.singleton_append]
  | ready .. | ended => cases h

/-! ## The executor -/

/-- Carries out items one after the other. -/
def carryOut (items : List Item) (w : Workspace) : Bytes × Workspace :=
  items.foldl (fun r item => (r.1 ++ (step item r.2).1, (step item r.2).2)) ([], w)

theorem carryOut_concat (items : List Item) (item : Item) (w : Workspace) :
    carryOut (items ++ [item]) w =
      ((carryOut items w).1 ++ (step item (carryOut items w).2).1,
        (step item (carryOut items w).2).2) := by
  rw [carryOut, List.foldl_append, List.foldl_cons, List.foldl_nil]
  rfl

theorem runItems_append {items : List Item} (h : ∀ item ∈ items, isQuit item = false)
    (more : List Item) (w : Workspace) :
    runItems (items ++ more) w =
      ((carryOut items w).1 ++ (runItems more (carryOut items w).2).1,
        (runItems more (carryOut items w).2).2) := by
  induction items using List.reverseRecOn generalizing more with
  | nil => rfl
  | append_singleton items item ih =>
    have hitem := h item (by simp)
    rw [List.append_assoc, List.singleton_append, ih (fun i hi => h i (by simp [hi])),
      carryOut_concat, runItems, hitem, if_neg Bool.false_ne_true, List.append_assoc]

theorem runItems_eq_carryOut {items : List Item} (h : ∀ item ∈ items, isQuit item = false)
    (w : Workspace) : runItems items w = carryOut items w := by
  have hall := runItems_append h [] w
  rw [List.append_nil] at hall
  rw [hall, runItems, List.append_nil]

theorem runItems_of_quit {items : List Item} {quit : Item}
    (h : ∀ item ∈ items, isQuit item = false) (hquit : isQuit quit = true) (more : List Item)
    (w : Workspace) : runItems (items ++ quit :: more) w = carryOut items w := by
  rw [runItems_append h, runItems, if_pos hquit, List.append_nil]

/-! ## What every step keeps -/

/-- Where a session in two threads is, seen from the items of its script. -/
structure InOrder (script : Bytes) (w : Workspace) (s : State) : Prop where
  result : (s.written, s.workspace) = carryOut s.done w
  going : ∀ item ∈ s.done, isQuit item = false
  minds : s.executor.Minds
  /-- No item is lost or doubled on its way. -/
  ahead : ¬s.executor.IsOver →
    s.received ++ (s.channel.toList ++ s.reader.items) = items (inputLines script)
  front : s.received <+: items (inputLines script)
  drained : s.executor = .drained → s.done = items (inputLines script)

theorem inOrder_start (script : Bytes) (w : Workspace) : InOrder script w (.start script w) where
  result := rfl
  going _ hitem := absurd hitem List.not_mem_nil
  minds := trivial
  ahead _ := by simp only [State.start, State.received, Executor.inHand, Reader.items,
    Option.toList_none, List.nil_append]
  front := List.nil_prefix
  drained hexecutor := by cases hexecutor

variable {script : Bytes} {w : Workspace} {s s' : State}

theorem InOrder.receive (h : InOrder script w s) {item : Item} (hwaiting : s.executor = .waiting)
    (hitem : s.channel = some item) :
    InOrder script w { s with
      channel := none
      executor := if isQuit item then .quitting item else .holding item } := by
  have halive : ¬s.executor.IsOver := by
    rw [hwaiting]
    exact id
  have hahead := h.ahead halive
  rw [State.received, hwaiting, hitem] at hahead
  simp only [Executor.inHand, Option.toList_some, List.append_nil, List.singleton_append]
    at hahead
  have hfront : s.done ++ [item] <+: items (inputLines script) := by
    rw [← hahead]
    exact ⟨s.reader.items, by rw [List.append_assoc, List.singleton_append]⟩
  by_cases hquit : isQuit item = true
  · rw [if_pos hquit]
    refine ⟨h.result, h.going, hquit, fun _ => ?_, hfront, fun hexecutor => by cases hexecutor⟩
    rw [← hahead, State.received, List.append_assoc]
    rfl
  · rw [if_neg hquit]
    refine ⟨h.result, h.going, eq_false_of_ne_true hquit, fun _ => ?_, hfront,
      fun hexecutor => by cases hexecutor⟩
    rw [← hahead, State.received, List.append_assoc]
    rfl

theorem InOrder.act (h : InOrder script w s) {item : Item} (hholding : s.executor = .holding item) :
    InOrder script w { s with
      executor := .waiting
      done := s.done ++ [item]
      written := s.written ++ (Session.step item s.workspace).1
      workspace := (Session.step item s.workspace).2 } := by
  have halive : ¬s.executor.IsOver := by
    rw [hholding]
    exact id
  have hminds := h.minds
  have hahead := h.ahead halive
  have hfront := h.front
  rw [State.received, hholding] at hahead hfront
  rw [hholding] at hminds
  refine ⟨?_, fun i hi => ?_, trivial, fun _ => ?_, ?_, fun hexecutor => by cases hexecutor⟩
  · rw [carryOut_concat, ← h.result]
  · obtain hi | hi := List.mem_append.mp hi
    · exact h.going i hi
    · rw [List.mem_singleton.mp hi]
      exact hminds
  · change s.done ++ [item] ++ [] ++ (s.channel.toList ++ s.reader.items) = _
    rw [List.append_nil]
    exact hahead
  · change s.done ++ [item] ++ [] <+: _
    rw [List.append_nil]
    exact hfront

theorem InOrder.step (h : InOrder script w s) (hstep : Step s s') : InOrder script w s' := by
  -- in all steps but `receive` and `act` the items ahead are the same, or matter no more
  cases hstep with
  | @read r hr =>
    refine ⟨h.result, h.going, h.minds, fun halive => ?_, h.front, h.drained⟩
    rw [← h.ahead halive, ← Reader.items_advance hr]
    rfl
  | @send item rest hreader hempty halive =>
    refine ⟨h.result, h.going, h.minds, fun _ => ?_, h.front, h.drained⟩
    rw [← h.ahead halive, hreader, hempty]
    rfl
  | @drop item rest hreader hover =>
    exact ⟨h.result, h.going, h.minds, fun halive => absurd hover halive, h.front, h.drained⟩
  | receive hwaiting hitem => exact h.receive hwaiting hitem
  | act hholding => exact h.act hholding
  | @leave item hquitting =>
    have hminds := h.minds
    have hfront := h.front
    rw [State.received, hquitting] at hfront
    rw [hquitting] at hminds
    exact ⟨h.result, h.going, hminds, fun halive => absurd trivial halive, hfront,
      fun hexecutor => by cases hexecutor⟩
  | finish hwaiting hempty hended =>
    have halive : ¬s.executor.IsOver := by
      rw [hwaiting]
      exact id
    have hahead := h.ahead halive
    have hfront := h.front
    rw [State.received, hwaiting] at hfront
    rw [State.received, hwaiting, hempty, hended] at hahead
    simp only [Executor.inHand, Reader.items, Option.toList_none, List.append_nil] at hahead
    exact ⟨h.result, h.going, trivial, fun halive => absurd trivial halive, hfront,
      fun _ => hahead⟩

theorem inOrder_of_steps (h : Steps (.start script w) s) : InOrder script w s := by
  induction h with
  | refl => exact inOrder_start script w
  | tail _ hstep ih => exact ih.step hstep

/-! ## After a command to quit -/

def Executor.HasQuit : Executor → Prop
  | quitting _ | left _ => True
  | waiting | holding _ | drained => False

theorem Step.of_hasQuit (hstep : Step s s') (hquit : s.executor.HasQuit) :
    s'.executor.HasQuit ∧ s'.received = s.received ∧ s'.written = s.written ∧
      s'.workspace = s.workspace := by
  cases hstep with
  | read _ | send _ _ _ | drop _ _ => exact ⟨hquit, rfl, rfl, rfl⟩
  | receive hwaiting _ | finish hwaiting _ _ =>
    rw [hwaiting] at hquit
    exact hquit.elim
  | act hholding =>
    rw [hholding] at hquit
    exact hquit.elim
  | leave hquitting =>
    refine ⟨trivial, ?_, rfl, rfl⟩
    rw [State.received, State.received, hquitting]
    rfl

theorem eq_of_steps_of_hasQuit (h : Steps s s') (hquit : s.executor.HasQuit) :
    s'.executor.HasQuit ∧ s'.received = s.received ∧ s'.written = s.written ∧
      s'.workspace = s.workspace := by
  induction h with
  | refl => exact ⟨hquit, rfl, rfl, rfl⟩
  | tail _ hstep ih =>
    obtain ⟨hquit', hreceived, hwritten, hworkspace⟩ := ih
    obtain ⟨hquit'', hreceived', hwritten', hworkspace'⟩ := hstep.of_hasQuit hquit'
    exact ⟨hquit'', hreceived'.trans hreceived, hwritten'.trans hwritten,
      hworkspace'.trans hworkspace⟩

/-! ## The end of a session -/

/-- A session that is over has come to what its script does in one thread. -/
theorem InOrder.eq_run (h : InOrder script w s) (hover : s.executor.IsOver) :
    (s.written, s.workspace) = Session.run script w := by
  rw [h.result, Session.run]
  cases hexecutor : s.executor with
  | left item =>
    have hminds := h.minds
    obtain ⟨more, hfront⟩ := h.front
    rw [State.received, hexecutor] at hfront
    rw [hexecutor] at hminds
    rw [← hfront, List.append_assoc]
    exact (runItems_of_quit h.going hminds more w).symm
  | drained =>
    rw [← h.drained hexecutor]
    exact (runItems_eq_carryOut h.going w).symm
  | _ =>
    rw [hexecutor] at hover
    exact hover.elim

theorem Reader.of_advance_eq_none {r : Reader} (h : r.advance = none) :
    (∃ item rest, r = .ready item rest) ∨ r = .ended := by
  match r with
  | ready item rest => exact .inl ⟨item, rest, rfl⟩
  | ended => exact .inr rfl
  | between [] | between (none :: _) => cases h
  | between (some line :: rest) =>
    rw [advance] at h
    split at h <;> cases h
  | inBlock c block [] | inBlock c block (none :: _) | inBlock c block (some _ :: _) => cases h

/-- A thread can go on as long as the session is not over. -/
theorem exists_step (hgoing : ¬s.executor.IsOver) : ∃ s', Step s s' := by
  cases hexecutor : s.executor with
  | holding item => exact ⟨_, .act hexecutor⟩
  | quitting item => exact ⟨_, .leave hexecutor⟩
  | left item | drained =>
    rw [hexecutor] at hgoing
    exact absurd trivial hgoing
  | waiting =>
    cases hchannel : s.channel with
    | some item => exact ⟨_, .receive hexecutor hchannel⟩
    | none =>
      cases hread : s.reader.advance with
      | some r => exact ⟨_, .read hread⟩
      | none =>
        obtain ⟨item, rest, hready⟩ | hended := Reader.of_advance_eq_none hread
        · exact ⟨_, .send hready hchannel hgoing⟩
        · exact ⟨_, .finish hexecutor hchannel hended⟩

/-- More than the steps that the reader can still take, and those they lead to. -/
def Reader.size : Reader → Nat
  | between rest => 5 * rest.length + 1
  | inBlock _ _ rest => 5 * rest.length + 5
  | ready _ rest => 5 * rest.length + 4
  | ended => 0

def Executor.size : Executor → Nat
  | holding _ => 2
  | waiting | quitting _ => 1
  | left _ | drained => 0

def State.size (s : State) : Nat :=
  s.reader.size + 2 * s.channel.toList.length + s.executor.size

theorem Reader.size_advance {r r' : Reader} (h : r.advance = some r') : r'.size < r.size := by
  match r with
  | between [] | between (none :: _) | inBlock c block [] | inBlock c block (none :: rest) =>
    cases h
    simp only [size, List.length_cons, List.length_nil]
    omega
  | between (some line :: rest) =>
    rw [advance] at h
    split at h
    · cases h
      simp only [size, List.length_cons]
      omega
    · cases h
      split <;> simp only [size, List.length_cons] <;> omega
  | inBlock c block (some line :: rest) =>
    cases h
    split <;> simp only [size, List.length_cons] <;> omega
  | ready .. | ended => cases h

/-- The two threads come to an end, whichever goes first. -/
theorem Step.size_lt (hstep : Step s s') : s'.size < s.size := by
  cases hstep with
  | read hr =>
    have hlt := Reader.size_advance hr
    simp only [State.size]
    omega
  | send hreader hempty _ =>
    simp only [State.size, hreader, hempty, Reader.size, Option.toList_some, Option.toList_none,
      List.length_cons, List.length_nil]
    omega
  | drop hreader _ =>
    simp only [State.size, hreader, Reader.size]
    omega
  | receive hwaiting hitem =>
    simp only [State.size, hwaiting, hitem, Option.toList_some, Option.toList_none,
      List.length_cons, List.length_nil]
    split <;> simp only [Executor.size] <;> omega
  | act hholding =>
    simp only [State.size, hholding, Executor.size]
    omega
  | leave hquitting =>
    simp only [State.size, hquitting, Executor.size, Option.toList_none, List.length_nil]
    omega
  | finish hwaiting _ _ =>
    simp only [State.size, hwaiting, Executor.size]
    omega

theorem exists_steps_isOver (s : State) : ∃ s', Steps s s' ∧ s'.executor.IsOver := by
  by_cases hover : s.executor.IsOver
  · exact ⟨s, .refl, hover⟩
  · obtain ⟨s₁, hstep⟩ := exists_step hover
    have hlt := hstep.size_lt
    obtain ⟨s', hsteps, hover'⟩ := exists_steps_isOver s₁
    exact ⟨s', .head hstep hsteps, hover'⟩
  termination_by s.size

/-- In whatever order the two threads take their steps, what was received is the front of
the items of the script, and what was written and done is what the items that were carried
out do one after the other.  Once a command to quit was received nothing changes; a session
that is over has done what the script does in one thread, all of it unless it quit; and
until then some thread can go on, though not for ever. -/
theorem session_in_order (h : Steps (.start script w) s) :
    s.received <+: items (inputLines script) ∧
    (s.written, s.workspace) = carryOut s.done w ∧
    (∀ item ∈ s.done, isQuit item = false) ∧
    (s.executor.HasQuit → ∀ s', Steps s s' →
      s'.received = s.received ∧ s'.written = s.written ∧ s'.workspace = s.workspace) ∧
    (s.executor.IsOver → (s.written, s.workspace) = Session.run script w) ∧
    (s.executor.IsOver → ¬s.executor.HasQuit → s.done = items (inputLines script)) ∧
    (¬s.executor.IsOver → ∃ s', Step s s') ∧ ∀ s', Step s s' → s'.size < s.size := by
  have hinorder := inOrder_of_steps h
  refine ⟨hinorder.front, hinorder.result, hinorder.going, fun hquit s' hsteps => ?_,
    hinorder.eq_run, fun hover hnot => ?_, exists_step, fun s' hstep => hstep.size_lt⟩
  · exact (eq_of_steps_of_hasQuit hsteps hquit).2
  · cases hexecutor : s.executor with
    | drained => exact hinorder.drained hexecutor
    | left item =>
      rw [hexecutor] at hnot
      exact absurd trivial hnot
    | _ =>
      rw [hexecutor] at hover
      exact hover.elim

theorem session_in_order_quit :
    ∃ s, Steps (.start (.ofString "q\n1d\n") ⟨.ofText "a\nb", .empty "/"⟩) s ∧
      s.executor.IsOver ∧ s.written = [] ∧ s.workspace = ⟨.ofText "a\nb", .empty "/"⟩ := by
  obtain ⟨s, hsteps, hover⟩ :=
    exists_steps_isOver (.start (.ofString "q\n1d\n") ⟨.ofText "a\nb", .empty "/"⟩)
  have hlines : inputLines (.ofString "q\n1d\n") = [some "q", some "1d"] := by decide +kernel
  have hquit : (next "q" [some "1d"]).1 = .ok ⟨.quit, none, none⟩ :=
    eq_ok_of_toOption (by decide +kernel)
  have hrun : Session.run (.ofString "q\n1d\n") ⟨.ofText "a\nb", .empty "/"⟩ =
      ([], ⟨.ofText "a\nb", .empty "/"⟩) := by
    have hisQuit : isQuit (.ok ⟨.quit, none, none⟩) = true := rfl
    rw [Session.run, hlines, Script.items, hquit, runItems, if_pos hisQuit]
  have hresult := (session_in_order hsteps).2.2.2.2.1 hover
  rw [hrun] at hresult
  exact ⟨s, hsteps, hover, congrArg Prod.fst hresult, congrArg Prod.snd hresult⟩

/-! ## Lines that are no text -/

/-- Lines behind one that is no text matter to no block: a block that comes to it ends. -/
theorem takeBlock_takeWhile (lines : List (Option String)) :
    ∃ rest, takeBlock (lines.takeWhile Option.isSome) = ((takeBlock lines).1, rest) ∧
      (rest = [] ∨ rest = (takeBlock lines).2.takeWhile Option.isSome) := by
  induction lines with
  | nil => exact ⟨[], rfl, .inl rfl⟩
  | cons line lines ih =>
    cases line with
    | none => exact ⟨[], rfl, .inl rfl⟩
    | some line =>
      obtain ⟨rest, hblock, hrest⟩ := ih
      rw [List.takeWhile_cons_of_pos rfl]
      simp only [takeBlock]
      by_cases hdot : blockLine line = "."
      · simp only [if_pos hdot]
        exact ⟨_, rfl, .inr rfl⟩
      · simp only [if_neg hdot]
        exact ⟨rest, by rw [hblock], hrest⟩

theorem next_takeWhile (line : String) (lines : List (Option String)) :
    ∃ rest, next line (lines.takeWhile Option.isSome) = ((next line lines).1, rest) ∧
      (rest = [] ∨ rest = (next line lines).2.takeWhile Option.isSome) := by
  unfold next
  cases Command.parse line with
  | error cause => exact ⟨_, rfl, .inr rfl⟩
  | ok c =>
    obtain ⟨rest, hblock, hrest⟩ := takeBlock_takeWhile lines
    by_cases htakes : c.verb.takesText = true
    · simp only [if_pos htakes]
      exact ⟨rest, by rw [hblock], hrest⟩
    · simp only [if_neg htakes]
      exact ⟨_, rfl, .inr rfl⟩

/-- Reading that stops at the first line that is no text gives the front of the items. -/
theorem items_takeWhile_prefix (lines : List (Option String)) :
    items (lines.takeWhile Option.isSome) <+: items lines := by
  induction lines using Script.items.induct with
  | case1 => exact List.prefix_refl _
  | case2 rest =>
    simp only [List.takeWhile_cons, Option.isSome_none, Bool.false_eq_true, if_false, Script.items]
    exact List.prefix_refl _
  | case3 line rest ih =>
    obtain ⟨left, hnext, hleft⟩ := next_takeWhile line rest
    rw [List.takeWhile_cons_of_pos rfl, Script.items, Script.items, hnext]
    refine List.cons_prefix_cons.mpr ⟨rfl, ?_⟩
    obtain rfl | rfl := hleft
    · simp only [Script.items]
      exact List.nil_prefix
    · exact ih

def brokenBlock : Bytes :=
  [97, 10, 120, 10, 255, 10, 49, 100, 10]

/-- Reading goes on behind a line that is no text when a block was open: the deletion is
carried out, though the lines up to there hold no deletion. -/
theorem session_past_brokenBlock :
    (runItems (items ((inputLines brokenBlock).takeWhile Option.isSome))
        ⟨.ofText "a\nb", .empty "/"⟩).2.editor.bytes = .ofString "a\nb\nx\n" ∧
      ∃ s, Steps (.start brokenBlock ⟨.ofText "a\nb", .empty "/"⟩) s ∧ s.executor.IsOver ∧
        s.workspace.editor.bytes = .ofString "b\nx\n" := by
  have hlines : inputLines brokenBlock = [some "a", some "x", none, some "1d"] := by
    decide +kernel
  have htext : (inputLines brokenBlock).takeWhile Option.isSome = [some "a", some "x"] := by
    rw [hlines]
    rfl
  have hblock : next "a" [some "x"] = (.ok ⟨.append "x\n", none, none⟩, []) :=
    Prod.ext (eq_ok_of_toOption (by decide +kernel)) (by decide +kernel)
  have hbroken : next "a" [some "x", none, some "1d"] =
      (.ok ⟨.append "x\n", none, none⟩, [some "1d"]) :=
    Prod.ext (eq_ok_of_toOption (by decide +kernel)) (by decide +kernel)
  have hdelete : next "1d" [] = (.ok ⟨.delete, some (.line 1), some (.line 1)⟩, []) :=
    Prod.ext (eq_ok_of_toOption (by decide +kernel)) (by decide +kernel)
  constructor
  · rw [htext, Script.items, hblock, Script.items]
    decide +kernel
  · obtain ⟨s, hsteps, hover⟩ :=
      exists_steps_isOver (.start brokenBlock ⟨.ofText "a\nb", .empty "/"⟩)
    have hworkspace : s.workspace = (Session.run brokenBlock ⟨.ofText "a\nb", .empty "/"⟩).2 :=
      congrArg Prod.snd ((inOrder_of_steps hsteps).eq_run hover)
    refine ⟨s, hsteps, hover, ?_⟩
    rw [hworkspace, Session.run, hlines, Script.items, hbroken, Script.items, hdelete,
      Script.items]
    decide +kernel

end Relay

end Redline

import Redline.Cli.Compare
import Redline.Cli.Edit
/-!
# Outputs that run short

An output that takes some bytes and refuses all others gets the front of what would have been
written.  A session then ends with the first item of which something is refused, which has been
carried out with all items before it; if nothing is refused, the room makes no difference.
-/

namespace Redline

namespace Session

variable {item : Script.Item} {items rest : List Script.Item} {w : Workspace} {room : Nat}

theorem runItems_cons (h : isQuit item = false) (rest : List Script.Item) (w : Workspace) :
    runItems (item :: rest) w =
      ((step item w).1 ++ (runItems rest (step item w).2).1,
        (runItems rest (step item w).2).2) := by
  rw [runItems, h, if_neg Bool.false_ne_true]

theorem runItems_singleton (h : isQuit item = false) (w : Workspace) :
    runItems [item] w = step item w := by
  rw [runItems_cons h, runItems, List.append_nil]

theorem runItemsWithin_cons_of_fits (h : isQuit item = false)
    (hroom : (step item w).1.length ≤ room) (rest : List Script.Item) :
    runItemsWithin room (item :: rest) w =
      { runItemsWithin (room - (step item w).1.length) rest (step item w).2 with
        written := (step item w).1 ++
          (runItemsWithin (room - (step item w).1.length) rest (step item w).2).written } := by
  rw [runItemsWithin, h, if_neg Bool.false_ne_true]
  exact if_neg (Nat.not_lt_of_le hroom)

theorem runItemsWithin_cons_of_refused (h : isQuit item = false)
    (hroom : room < (step item w).1.length) (rest : List Script.Item) :
    runItemsWithin room (item :: rest) w =
      ⟨(step item w).1.take room, true, (step item w).2⟩ := by
  rw [runItemsWithin, h, if_neg Bool.false_ne_true]
  exact if_pos hroom

/-- What is written is the front of what a session without a limit writes, and something is
refused exactly if that is longer than the room. -/
theorem written_runItemsWithin (room : Nat) (items : List Script.Item) (w : Workspace) :
    (runItemsWithin room items w).written = (runItems items w).1.take room ∧
      ((runItemsWithin room items w).refused = true ↔ room < (runItems items w).1.length) := by
  induction items generalizing room w with
  | nil => simp [runItemsWithin, runItems]
  | cons item rest ih =>
    cases hquit : isQuit item with
    | true => simp [runItemsWithin, runItems, hquit]
    | false =>
      rw [runItems_cons hquit]
      by_cases hroom : room < (step item w).1.length
      · rw [runItemsWithin_cons_of_refused hquit hroom, List.take_append_of_le_length (by omega),
          List.length_append]
        exact ⟨rfl, iff_of_true rfl (by omega)⟩
      · have hfits := Nat.le_of_not_lt hroom
        obtain ⟨hwritten, hrefused⟩ := ih (room - (step item w).1.length) (step item w).2
        rw [runItemsWithin_cons_of_fits hquit hfits, List.length_append]
        refine ⟨?_, hrefused.trans (by omega)⟩
        rw [hwritten, List.take_append, List.take_of_length_le hfits]

theorem workspace_runItemsWithin_of_fits (h : (runItems items w).1.length ≤ room) :
    (runItemsWithin room items w).workspace = (runItems items w).2 := by
  induction items generalizing room w with
  | nil => rfl
  | cons item rest ih =>
    cases hquit : isQuit item with
    | true => simp [runItemsWithin, runItems, hquit]
    | false =>
      rw [runItems_cons hquit, List.length_append] at h
      rw [runItems_cons hquit, runItemsWithin_cons_of_fits hquit (by omega)]
      exact ih (by omega)

/-- Where something is refused, the items up to the one it belongs to have been carried out. -/
theorem workspace_runItemsWithin_of_refused (h : room < (runItems items w).1.length) :
    ∃ front item, front ++ [item] <+: items ∧ (runItems front w).1.length ≤ room ∧
      room < (runItems (front ++ [item]) w).1.length ∧
      (runItemsWithin room items w).workspace = (runItems (front ++ [item]) w).2 := by
  induction items generalizing room w with
  | nil => exact absurd h (Nat.not_lt_zero room)
  | cons item rest ih =>
    cases hquit : isQuit item with
    | true =>
      rw [runItems, if_pos hquit] at h
      exact absurd h (Nat.not_lt_zero room)
    | false =>
      by_cases hroom : room < (step item w).1.length
      · refine ⟨[], item, ⟨rest, rfl⟩, Nat.zero_le room, ?_, ?_⟩
        · rwa [List.nil_append, runItems_singleton hquit]
        · rw [List.nil_append, runItems_singleton hquit, runItemsWithin_cons_of_refused hquit hroom]
      · rw [runItems_cons hquit, List.length_append] at h
        have hrest : room - (step item w).1.length < (runItems rest (step item w).2).1.length := by
          omega
        obtain ⟨front, last, hprefix, hfits, hrefused, hworkspace⟩ := ih hrest
        refine ⟨item :: front, last, List.cons_prefix_cons.mpr ⟨rfl, hprefix⟩, ?_, ?_, ?_⟩
        · rw [runItems_cons hquit, List.length_append]
          omega
        · rw [List.cons_append, runItems_cons hquit, List.length_append]
          omega
        · rw [List.cons_append, runItems_cons hquit,
            runItemsWithin_cons_of_fits hquit (Nat.le_of_not_lt hroom)]
          exact hworkspace

end Session

namespace Cli

theorem Edit.runWithin_of_fits {room : Nat} {arguments : List String} {input : Bytes}
    {files : FileTree} (h : (run arguments input files).output.length ≤ room) (cause : String) :
    runWithin room cause arguments input files = run arguments input files := by
  unfold run at h
  unfold runWithin run
  generalize Arguments.read usage arguments = result at h ⊢
  cases result with
  | error stop => rfl
  | ok a =>
    dsimp only [Session.run, Session.runWithin] at h ⊢
    generalize start a.operands.head? files = begun at h ⊢
    obtain ⟨before, w⟩ := begun
    dsimp only at h ⊢
    rw [List.length_append] at h
    have hsession : (Session.runItems (Script.items (Session.inputLines input)) w).1.length ≤
        room - before.length := by omega
    obtain ⟨hwritten, hrefused⟩ := Session.written_runItemsWithin (room - before.length)
      (Script.items (Session.inputLines input)) w
    have hnone := Bool.eq_false_iff.mpr (mt hrefused.mp (Nat.not_lt_of_le hsession))
    rw [if_neg (by omega), hwritten, List.take_of_length_le hsession, hnone,
      Session.workspace_runItemsWithin_of_fits hsession]
    rfl

/-- A comparison of which the report is refused is not taken for one without changes. -/
theorem Compare.code_outcomeWithin_eq_zero_iff (room : Nat) (cause : String)
    (options : Report.Options) (files : FileTree) (oldPath newPath : Path) :
    (outcomeWithin room cause options files oldPath newPath).code = 0 ↔
      (outcome options files oldPath newPath).code = 0 := by
  have hempty : (outcome options files oldPath newPath).code = 0 →
      (outcome options files oldPath newPath).output = [] := by
    unfold outcome
    split <;> simp [failure]
  unfold outcomeWithin
  dsimp only
  split
  · rename_i hroom
    refine iff_of_false (by simp [failure]) fun hcode => ?_
    rw [hempty hcode] at hroom
    exact Nat.not_lt_zero room hroom
  · rfl

end Cli

end Redline

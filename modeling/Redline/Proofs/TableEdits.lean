import Redline.Proofs.TableText
/-!
# Runs of edits on a piece table

A table and a byte string go through the same calls.  The table shows the byte
string after each of them, and refuses exactly the calls that make no sense on
it.
-/

namespace Redline

namespace PieceTable

inductive Edit where
  | insert (position : Nat) (bytes : Bytes)
  | delete (position count : Nat)
  /-- The text is that of another source from now on. -/
  | reset (bytes : Bytes)

namespace Edit

def apply (t : PieceTable) : Edit → Except Fault PieceTable
  | insert position bytes => t.insert position bytes
  | delete position count => t.delete position count
  | reset bytes => .ok (ofBytes bytes)

/-- What the call makes of a byte string, if it makes sense there. -/
def applyFlat? (text : Bytes) : Edit → Option Bytes
  | insert position bytes =>
    if position ≤ text.length then some (text.take position ++ bytes ++ text.drop position)
    else none
  | delete position count =>
    if position + count ≤ maxOffset ∧ position + count ≤ text.length then
      some (text.take position ++ text.drop (position + count))
    else none
  | reset bytes => some bytes

end Edit

def run (t : PieceTable) : List Edit → PieceTable
  | [] => t
  | e :: edits =>
    match e.apply t with
    | .ok t => t.run edits
    | .error _ => t.run edits

def Edit.runFlat (text : Bytes) : List Edit → Bytes
  | [] => text
  | e :: edits => runFlat ((e.applyFlat? text).getD text) edits

/-! ## Single calls -/

theorem insert_eq_error_iff {t : PieceTable} {position : Nat} {bytes : Bytes} {fault : Fault} :
    t.insert position bytes = .error fault ↔
      t.length < position ∧ fault = .outOfBounds position t.length := by
  unfold insert checkPosition
  by_cases h : position ≤ t.length
  · have hnot : ¬t.length < position := by omega
    simp [h, hnot, Except.map]
  · have hlt : t.length < position := by omega
    simp [h, hlt, Except.map, eq_comm]

theorem insert_eq_ok_iff {t u : PieceTable} {position : Nat} {bytes : Bytes} :
    t.insert position bytes = .ok u ↔ position ≤ t.length ∧ t.inserted position bytes = u := by
  unfold insert checkPosition
  by_cases h : position ≤ t.length <;> simp [h, Except.map]

theorem checkRange_eq_error_iff {t : PieceTable} {position count : Nat} {fault : Fault} :
    t.checkRange position count = .error fault ↔
      maxOffset < position + count ∧ fault = .overflow ∨
        position + count ≤ maxOffset ∧ t.length < position + count ∧
          fault = .outOfBounds (position + count) t.length := by
  unfold checkRange checkPosition
  by_cases hword : maxOffset < position + count
  · have hnot : ¬position + count ≤ maxOffset := by omega
    simp [hword, hnot, eq_comm]
  · have hle : position + count ≤ maxOffset := by omega
    by_cases h : position + count ≤ t.length
    · have hnot : ¬t.length < position + count := by omega
      simp [hword, h, hnot]
    · have hlt : t.length < position + count := by omega
      simp [hword, hle, h, hlt, eq_comm]

theorem checkRange_eq_ok_iff {t : PieceTable} {position count : Nat} :
    t.checkRange position count = .ok () ↔
      position + count ≤ maxOffset ∧ position + count ≤ t.length := by
  unfold checkRange checkPosition
  by_cases hword : maxOffset < position + count
  · have hnot : ¬position + count ≤ maxOffset := by omega
    simp [hword, hnot]
  · have hle : position + count ≤ maxOffset := by omega
    by_cases h : position + count ≤ t.length <;> simp [hword, hle, h]

theorem delete_eq_error_iff {t : PieceTable} {position count : Nat} {fault : Fault} :
    t.delete position count = .error fault ↔ t.checkRange position count = .error fault := by
  unfold delete
  cases t.checkRange position count <;> simp [Except.map]

theorem delete_eq_ok_iff {t u : PieceTable} {position count : Nat} :
    t.delete position count = .ok u ↔
      position + count ≤ maxOffset ∧ position + count ≤ t.length ∧
        t.deleted position count = u := by
  rw [← and_assoc, ← checkRange_eq_ok_iff]
  unfold delete
  cases t.checkRange position count <;> simp [Except.map]

theorem exists_insert_eq_ok {t : PieceTable} (h : t.WellFormed) {position : Nat}
    (hposition : position ≤ t.toBytes.length) (bytes : Bytes) :
    ∃ u, t.insert position bytes = .ok u ∧ u.WellFormed ∧
      u.toBytes = t.toBytes.take position ++ bytes ++ t.toBytes.drop position := by
  rw [length_toBytes h] at hposition
  exact ⟨t.inserted position bytes, insert_eq_ok_iff.mpr ⟨hposition, rfl⟩,
    h.inserted position bytes, toBytes_inserted h position bytes⟩

theorem exists_delete_eq_ok {t : PieceTable} (h : t.WellFormed) {position count : Nat}
    (hword : position + count ≤ maxOffset) (hlength : position + count ≤ t.toBytes.length) :
    ∃ u, t.delete position count = .ok u ∧ u.WellFormed ∧
      u.toBytes = t.toBytes.take position ++ t.toBytes.drop (position + count) := by
  rw [length_toBytes h] at hlength
  exact ⟨t.deleted position count, delete_eq_ok_iff.mpr ⟨hword, hlength, rfl⟩,
    h.deleted position count, toBytes_deleted h position count⟩

/-! ## Runs -/

theorem applyFlat?_toBytes {t : PieceTable} (h : t.WellFormed) (e : Edit) :
    e.applyFlat? t.toBytes = (e.apply t).toOption.map toBytes := by
  cases e with
  | insert position bytes =>
    rw [Edit.applyFlat?, Edit.apply, length_toBytes h]
    cases hu : t.insert position bytes with
    | error fault =>
      have := (insert_eq_error_iff.mp hu).1
      rw [if_neg (by omega)]
      rfl
    | ok u =>
      obtain ⟨hposition, rfl⟩ := insert_eq_ok_iff.mp hu
      rw [if_pos hposition, ← toBytes_inserted h]
      rfl
  | delete position count =>
    rw [Edit.applyFlat?, Edit.apply, length_toBytes h]
    cases hu : t.delete position count with
    | error fault =>
      have := checkRange_eq_error_iff.mp (delete_eq_error_iff.mp hu)
      rw [if_neg (by omega)]
      rfl
    | ok u =>
      obtain ⟨hword, hlength, rfl⟩ := delete_eq_ok_iff.mp hu
      rw [if_pos ⟨hword, hlength⟩, ← toBytes_deleted h]
      rfl
  | reset bytes => simp [Edit.applyFlat?, Edit.apply, Except.toOption, toBytes_ofBytes]

theorem WellFormed.apply {t u : PieceTable} {e : Edit} (h : t.WellFormed)
    (hu : e.apply t = .ok u) : u.WellFormed := by
  cases e with
  | insert position bytes =>
    obtain ⟨-, rfl⟩ := insert_eq_ok_iff.mp hu
    exact h.inserted position bytes
  | delete position count =>
    obtain ⟨-, -, rfl⟩ := delete_eq_ok_iff.mp hu
    exact h.deleted position count
  | reset bytes =>
    cases hu
    exact WellFormed.ofBytes bytes

theorem run_of_wellFormed {t : PieceTable} (h : t.WellFormed) (edits : List Edit) :
    (t.run edits).WellFormed ∧ (t.run edits).toBytes = Edit.runFlat t.toBytes edits := by
  induction edits generalizing t with
  | nil => exact ⟨h, rfl⟩
  | cons e edits ih =>
    have hflat := applyFlat?_toBytes h e
    rw [run, Edit.runFlat, hflat]
    cases hu : e.apply t with
    | ok u => exact ih (h.apply hu)
    | error fault => exact ih h

/-- A table refines the byte string that it shows, over every run of calls. -/
theorem run_refines_runFlat (init : Bytes) (edits : List Edit) :
    let t := (ofBytes init).run edits
    let text := Edit.runFlat init edits
    t.toBytes = text ∧ t.length = text.length ∧
      (∀ position bytes fault, t.insert position bytes = .error fault ↔
        text.length < position ∧ fault = .outOfBounds position text.length) ∧
      (∀ position count fault, t.delete position count = .error fault ↔
        maxOffset < position + count ∧ fault = .overflow ∨
          position + count ≤ maxOffset ∧ text.length < position + count ∧
            fault = .outOfBounds (position + count) text.length) ∧
      (∀ bytes, (Edit.reset bytes).apply t = .ok (ofBytes bytes)) ∧
      ∀ e fault, e.apply t = .error fault → t.run [e] = t := by
  intro t text
  obtain ⟨hwell, hbytes⟩ := run_of_wellFormed (WellFormed.ofBytes init) edits
  rw [toBytes_ofBytes] at hbytes
  have hlength : t.length = text.length := by
    rw [← length_toBytes hwell, hbytes]
  refine ⟨hbytes, hlength, ?_, ?_, fun bytes => rfl, ?_⟩
  · intro position bytes fault
    rw [← hlength]
    exact insert_eq_error_iff
  · intro position count fault
    rw [← hlength, delete_eq_error_iff]
    exact checkRange_eq_error_iff
  · intro e fault hfault
    rw [run, hfault, run]

end PieceTable

end Redline

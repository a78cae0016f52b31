import Redline.Proofs.TableEdits
import Redline.Span
/-!
# Reading a range out of a table

A read walks over the pieces and cuts what it wants out of each.  It copies what stands in the
range in the whole document, and on its way no number falls below zero and no cut leaves the
bytes that it is made in.
-/

namespace Redline

def Span.slice? (s : Span) (xs : List α) : Option (List α) :=
  if s.start ≤ s.stop ∧ s.stop ≤ xs.length then some (s.slice xs) else none

theorem Span.slice?_eq {s : Span} {xs : List α} (hspan : s.start ≤ s.stop)
    (hstop : s.stop ≤ xs.length) : s.slice? xs = some (s.slice xs) :=
  if_pos ⟨hspan, hstop⟩

def difference? (a b : Nat) : Option Nat :=
  if b ≤ a then some (a - b) else none

theorem difference?_eq {a b : Nat} (h : b ≤ a) : difference? a b = some (a - b) :=
  if_pos h

namespace PieceTable

/-- The bytes that the pieces show from a position on, at most `count`, with every difference and
every cut looked at before it is made. -/
def guardedRead (t : PieceTable) : Nat → Nat → List Piece → Option Bytes
  | _, _, [] => some []
  | position, count, p :: rest =>
    if count = 0 then some []
    else do
      let length ← difference? p.stop p.start
      if length ≤ position then t.guardedRead (← difference? position length) count rest
      else
        let taken := min count (← difference? length position)
        let shown ← Span.slice? ⟨p.start, p.stop⟩ (t.store p.store)
        let bytes ← Span.slice? ⟨position, position + taken⟩ shown
        let more ← t.guardedRead 0 (← difference? count taken) rest
        return bytes ++ more

variable {t : PieceTable} {p : Piece} {pieces : List Piece}

theorem slice?_store (h : t.Holds p) :
    Span.slice? ⟨p.start, p.stop⟩ (t.store p.store) = some (t.chunk p) :=
  Span.slice?_eq (Nat.le_of_lt h.1) h.2

theorem chunk_ne_nil (h : t.Holds p) : t.chunk p ≠ [] := by
  rw [← List.length_pos_iff, length_chunk h]
  exact Nat.sub_pos_of_lt h.1

private theorem guardedRead_skip (h : t.Holds p) {position count : Nat} (hcount : count ≠ 0)
    (hskip : p.length ≤ position) (rest : List Piece) :
    t.guardedRead position count (p :: rest) =
      t.guardedRead (position - p.length) count rest := by
  have hlength : difference? p.stop p.start = some p.length := difference?_eq (Nat.le_of_lt h.1)
  rw [guardedRead, if_neg hcount, hlength]
  change (if p.length ≤ position then _ else _) = _
  rw [if_pos hskip, difference?_eq hskip]
  rfl

private theorem guardedRead_take (h : t.Holds p) {position count : Nat} (hcount : count ≠ 0)
    (htake : ¬p.length ≤ position) (rest : List Piece) :
    t.guardedRead position count (p :: rest) =
      (t.guardedRead 0 (count - min count (p.length - position)) rest).map
        (((t.chunk p).drop position).take (min count (p.length - position)) ++ ·) := by
  have hlength : difference? p.stop p.start = some p.length := difference?_eq (Nat.le_of_lt h.1)
  have hinside : difference? p.length position = some (p.length - position) :=
    difference?_eq (Nat.le_of_not_le htake)
  have hleft : difference? count (min count (p.length - position)) =
      some (count - min count (p.length - position)) := difference?_eq (Nat.min_le_left _ _)
  have hcut : Span.slice? ⟨position, position + min count (p.length - position)⟩ (t.chunk p) =
      some (((t.chunk p).drop position).take (min count (p.length - position))) := by
    have hstop : position + min count (p.length - position) ≤ (t.chunk p).length := by
      rw [length_chunk h]
      omega
    rw [Span.slice?_eq (Nat.le_add_right _ _) hstop, Span.slice, Span.length,
      Nat.add_sub_cancel_left]
  rw [guardedRead, if_neg hcount, hlength]
  change (if p.length ≤ position then _ else _) = _
  rw [if_neg htake]
  simp only [hinside, hleft, slice?_store h, hcut, Option.bind_eq_bind, Option.bind_some]
  exact Option.map_eq_bind.symm

/-- No guard refuses anything where the pieces lie in their stores. -/
theorem guardedRead_eq (h : ∀ p ∈ pieces, t.Holds p) (position count : Nat) :
    t.guardedRead position count pieces = some (t.readAt position count pieces) := by
  induction pieces generalizing position count with
  | nil => rfl
  | cons p rest ih =>
    have hp : t.Holds p := h p List.mem_cons_self
    have ih := ih fun q hq => h q (List.mem_cons_of_mem _ hq)
    by_cases hcount : count = 0
    · rw [guardedRead, readAt, if_pos hcount, if_pos hcount]
    by_cases hskip : p.length ≤ position
    · rw [guardedRead_skip hp hcount hskip, readAt, if_neg hcount, if_pos hskip, ih]
    · rw [guardedRead_take hp hcount hskip, readAt, if_neg hcount, if_neg hskip, ih]
      rfl

theorem read_eq (h : t.WellFormed) (position count : Nat) :
    t.read position count =
      if maxOffset < position + count then .error .overflow
      else if t.length < position + count then
        .error (.outOfBounds (position + count) t.length)
      else .ok (Span.slice ⟨position, position + count⟩ t.toBytes) := by
  have hcount : position + count - position = count := Nat.add_sub_cancel_left position count
  unfold read checkRange checkPosition
  split
  · rfl
  by_cases hlength : position + count ≤ t.length
  · rw [if_pos hlength, if_neg (Nat.not_lt.mpr hlength), Span.slice, Span.length, hcount,
      toBytes_eq_textOf, ← readAt_eq h]
    rfl
  · rw [if_neg hlength, if_pos (Nat.lt_of_not_le hlength)]
    rfl

/-- What a range read gives after every run of calls: the bytes of the range in the whole
document, or the refusal that fits.  The guarded read goes the same way and is stopped nowhere,
and the slices of the document, none of them empty, are the document. -/
theorem run_reads (init : Bytes) (edits : List Edit) (position count : Nat) :
    let t := (ofBytes init).run edits
    (t.read position count =
      if maxOffset < position + count then .error .overflow
      else if t.length < position + count then
        .error (.outOfBounds (position + count) t.length)
      else .ok (Span.slice ⟨position, position + count⟩ t.toBytes)) ∧
      (position + count ≤ t.length →
        (Span.slice ⟨position, position + count⟩ t.toBytes).length = count) ∧
      t.guardedRead position count t.pieces = some (t.readAt position count t.pieces) ∧
      t.chunks.flatten = t.toBytes ∧ (∀ chunk ∈ t.chunks, chunk ≠ []) := by
  intro t
  have hwell : t.WellFormed := (run_of_wellFormed (.ofBytes init) edits).1
  refine ⟨read_eq hwell position count, fun hstop => ?_, guardedRead_eq hwell position count, rfl,
    fun chunk hchunk => ?_⟩
  · rw [← length_toBytes hwell] at hstop
    rw [Span.length_slice _ _ hstop]
    exact Nat.add_sub_cancel_left position count
  · obtain ⟨p, hp, rfl⟩ := List.mem_map.mp hchunk
    exact chunk_ne_nil (hwell p hp)

theorem run_reads_across :
    let t := (ofBytes [97, 98, 99, 100]).run [.insert 2 [120, 121]]
    t.pieces.length = 3 ∧ 1 + 4 ≤ t.length ∧ t.read 1 4 = .ok [98, 120, 121, 99] ∧
      (Span.slice ⟨1, 1 + 4⟩ t.toBytes).length = 4 := by
  intro t
  obtain ⟨hread, hlength, -⟩ := run_reads [97, 98, 99, 100] [.insert 2 [120, 121]] 1 4
  exact ⟨rfl, by decide, hread.trans rfl, hlength (by decide)⟩

end PieceTable

end Redline

import Redline.Proofs.Binds
import Redline.Proofs.TableEdits
/-!
# Putting text in forwards

Bytes that are put in right behind the last ones make the piece of those longer, wherever they
stand.  A run of such insertions so leaves the very table that one insertion of all the bytes
leaves, and makes no more pieces than the first of them that puts something in.
-/

namespace Redline

namespace Piece

variable {p new more : Piece} {pieces : List Piece} {position k : Nat}

/-! ## Where a position leads -/

theorem insertAt_zero (new : Piece) (pieces : List Piece) :
    insertAt new 0 pieces = new :: pieces := by
  cases pieces with
  | nil => rfl
  | cons p rest => rw [insertAt, if_pos rfl]

theorem insertAt_inside (hpos : 0 < position) (hposition : position < p.length)
    (rest : List Piece) :
    insertAt new position (p :: rest) =
      { p with stop := p.start + position } :: new ::
        { p with start := p.start + position } :: rest := by
  rw [insertAt, if_neg (Nat.ne_of_gt hpos), if_pos hposition]

theorem insertAt_end (hpos : 0 < position) (hposition : position = p.length)
    (hnext : p.continuedBy new = true) (rest : List Piece) :
    insertAt new position (p :: rest) = { p with stop := new.stop } :: rest := by
  rw [insertAt, if_neg (Nat.ne_of_gt hpos), if_neg (by omega), if_pos hposition, if_pos hnext]

theorem insertAt_behind (hk : 0 < k) (hposition : position = p.length + k) (rest : List Piece) :
    insertAt new position (p :: rest) = p :: insertAt new k rest := by
  have hrest : position - p.length = k := by omega
  rw [insertAt, if_neg (by omega), if_neg (by omega), if_neg (by omega), hrest]

theorem insertAt_apart (hpos : 0 < position) (hposition : position = p.length)
    (hnext : ¬p.continuedBy new = true) (rest : List Piece) :
    insertAt new position (p :: rest) = p :: new :: rest := by
  rw [insertAt, if_neg (Nat.ne_of_gt hpos), if_neg (by omega), if_pos hposition, if_neg hnext]

/-! ## One insertion behind the other -/

/-- Whichever way a piece was put in, the next one is found to continue it. -/
theorem insertAt_insertAt (hpieces : ∀ p ∈ pieces, p.start < p.stop)
    (hnew : new.start < new.stop) (hnext : new.continuedBy more = true)
    (hposition : position ≤ total pieces) :
    insertAt more (position + new.length) (insertAt new position pieces) =
      insertAt { new with stop := more.stop } position pieces := by
  have hlength : 0 < new.length := Nat.sub_pos_of_lt hnew
  induction pieces generalizing position with
  | nil =>
    rw [Nat.le_zero.mp hposition, Nat.zero_add]
    exact insertAt_end hlength rfl hnext []
  | cons p rest ih =>
    have hp : p.start < p.stop := hpieces p List.mem_cons_self
    have hrest : ∀ q ∈ rest, q.start < q.stop := fun q hq => hpieces q (List.mem_cons_of_mem _ hq)
    rw [total] at hposition
    by_cases hzero : position = 0
    · rw [hzero, Nat.zero_add, insertAt_zero, insertAt_zero, insertAt_end hlength rfl hnext]
    have hpos : 0 < position := Nat.pos_of_ne_zero hzero
    by_cases hinside : position < p.length
    · have hfront : position = Piece.length { p with stop := p.start + position } :=
        (Nat.add_sub_cancel_left p.start position).symm
      rw [insertAt_inside hpos hinside, insertAt_inside hpos hinside,
        insertAt_behind hlength (by rw [← hfront]), insertAt_end hlength rfl hnext]
    by_cases hend : position = p.length
    · by_cases hcontinued : p.continuedBy new = true
      · have hwhole : p.continuedBy { new with stop := more.stop } = true := hcontinued
        obtain ⟨hstore, hstop⟩ := IsExtensionOf.continued ⟨hcontinued, rfl⟩
        -- the piece that was made longer ends where the new one does
        have hlonger : position + new.length = Piece.length { p with stop := new.stop } := by
          simp only [length] at hend ⊢
          omega
        have hlongerNext : Piece.continuedBy { p with stop := new.stop } more = true := by
          rw [continuedBy] at hnext ⊢
          rw [hstore]
          exact hnext
        rw [insertAt_end hpos hend hcontinued, insertAt_end (by omega) hlonger hlongerNext,
          insertAt_end hpos hend hwhole]
      · have hwhole : ¬p.continuedBy { new with stop := more.stop } = true := hcontinued
        rw [insertAt_apart hpos hend hcontinued, insertAt_apart hpos hend hwhole,
          insertAt_behind hlength (by rw [hend]), insertAt_end hlength rfl hnext]
    · have hpast : position = p.length + (position - p.length) := by omega
      have hbehind : position + new.length = p.length + (position - p.length + new.length) := by
        omega
      rw [insertAt_behind (by omega) hpast, insertAt_behind (by omega) hpast,
        insertAt_behind (by omega) hbehind, ih hrest (by omega)]

/-- Where a piece goes does not depend on where it ends. -/
theorem length_insertAt_stop (new : Piece) (stop position : Nat) (pieces : List Piece) :
    (insertAt { new with stop } position pieces).length = (insertAt new position pieces).length := by
  induction pieces generalizing position with
  | nil => rfl
  | cons p rest ih =>
    have hnext : p.continuedBy { new with stop } = p.continuedBy new := rfl
    rw [insertAt, insertAt, hnext]
    split
    · rfl
    split
    · rfl
    split
    · split <;> rfl
    · exact congrArg Nat.succ (ih _)

def ofAdded (start count : Nat) : Piece :=
  ⟨.added, start, start + count⟩

theorem insertAt_ofAdded (hpieces : ∀ p ∈ pieces, p.start < p.stop) {count : Nat}
    (hcount : 0 < count) (hposition : position ≤ total pieces) (start more : Nat) :
    insertAt (ofAdded (start + count) more) (position + count)
        (insertAt (ofAdded start count) position pieces) =
      insertAt (ofAdded start (count + more)) position pieces := by
  have hlength : (ofAdded start count).length = count := Nat.add_sub_cancel_left start count
  have hnext : (ofAdded start count).continuedBy (ofAdded (start + count) more) = true := by
    simp [continuedBy, ofAdded]
  have hwhole : { ofAdded start count with stop := (ofAdded (start + count) more).stop } =
      ofAdded start (count + more) := by
    rw [ofAdded, ofAdded, ofAdded, Nat.add_assoc]
  have htwo := insertAt_insertAt hpieces (Nat.lt_add_of_pos_right hcount) hnext hposition
  rwa [hlength, hwhole] at htwo

end Piece

namespace PieceTable

variable {t : PieceTable} {position : Nat}

theorem inserted_nil (t : PieceTable) (position : Nat) : t.inserted position [] = t := rfl

theorem inserted_of_ne_nil (t : PieceTable) (position : Nat) {bytes : Bytes} (h : bytes ≠ []) :
    t.inserted position bytes =
      ⟨t.initial, t.added ++ bytes,
        Piece.insertAt (.ofAdded t.added.length bytes.length) position t.pieces⟩ := by
  rw [inserted, if_neg (by simpa using h)]
  rfl

theorem length_inserted (h : t.WellFormed) (hposition : position ≤ t.length) (bytes : Bytes) :
    (t.inserted position bytes).length = t.length + bytes.length := by
  rw [← length_toBytes h] at hposition ⊢
  rw [← length_toBytes (h.inserted position bytes), toBytes_inserted h]
  simp only [List.length_append, List.length_take, List.length_drop]
  omega

/-- Two insertions, the second right behind what the first put in, are one. -/
theorem inserted_inserted (h : t.WellFormed) (hposition : position ≤ t.length) (a b : Bytes) :
    (t.inserted position a).inserted (position + a.length) b = t.inserted position (a ++ b) := by
  by_cases ha : a = []
  · rw [ha, inserted_nil, List.length_nil, Nat.add_zero, List.nil_append]
  by_cases hb : b = []
  · rw [hb, inserted_nil, List.append_nil]
  have hpieces := Piece.insertAt_ofAdded (fun p hp => (h p hp).1) (List.length_pos_iff.mpr ha)
    hposition t.added.length b.length
  rw [inserted_of_ne_nil t position ha, inserted_of_ne_nil _ _ hb,
    inserted_of_ne_nil t position (List.append_ne_nil_of_left_ne_nil ha b)]
  dsimp only
  rw [List.length_append, List.length_append, List.append_assoc, hpieces]

theorem length_pieces_inserted (t : PieceTable) (position : Nat) {a b : Bytes}
    (h : a = [] ↔ b = []) :
    (t.inserted position a).pieces.length = (t.inserted position b).pieces.length := by
  by_cases ha : a = []
  · rw [ha, h.mp ha]
  · rw [inserted_of_ne_nil t position ha, inserted_of_ne_nil t position (mt h.mpr ha)]
    exact Piece.length_insertAt_stop (.ofAdded t.added.length b.length) _ position t.pieces

/-! ## Runs of insertions -/

/-- Insertions one behind the other, the first of them at a position. -/
def Edit.forward (position : Nat) : List Bytes → List Edit
  | [] => []
  | bytes :: chunks => .insert position bytes :: forward (position + bytes.length) chunks

def applyAll (t : PieceTable) (edits : List Edit) : Except Fault PieceTable :=
  edits.foldlM Edit.apply t

theorem run_of_applyAll {u : PieceTable} {edits : List Edit} (h : t.applyAll edits = .ok u) :
    t.run edits = u := by
  induction edits generalizing t with
  | nil =>
    cases h
    rfl
  | cons e edits ih =>
    obtain ⟨v, hv, hrest⟩ := exists_of_bind_eq_ok h
    rw [run, hv]
    exact ih hrest

theorem applyAll_forward (h : t.WellFormed) (hposition : position ≤ t.length)
    (chunks : List Bytes) :
    t.applyAll (Edit.forward position chunks) = .ok (t.inserted position chunks.flatten) := by
  induction chunks generalizing t position with
  | nil => rfl
  | cons bytes chunks ih =>
    have hgrown : position + bytes.length ≤ (t.inserted position bytes).length := by
      rw [length_inserted h hposition]
      exact Nat.add_le_add_right hposition _
    have hfirst : (Edit.insert position bytes).apply t = .ok (t.inserted position bytes) :=
      insert_eq_ok_iff.mpr ⟨hposition, rfl⟩
    rw [Edit.forward, applyAll, List.foldlM_cons, hfirst, List.flatten_cons,
      ← inserted_inserted h hposition]
    exact ih (h.inserted position bytes) hgrown

theorem run_forward_of_lt (hposition : t.length < position) (chunks : List Bytes) :
    t.run (Edit.forward position chunks) = t := by
  induction chunks generalizing position with
  | nil => rfl
  | cons bytes chunks ih =>
    have hrefused : (Edit.insert position bytes).apply t =
        .error (.outOfBounds position t.length) := insert_eq_error_iff.mpr ⟨hposition, rfl⟩
    rw [Edit.forward, run, hrefused]
    exact ih (Nat.lt_add_right _ hposition)

theorem run_forward_of_le (h : t.WellFormed) (hposition : position ≤ t.length)
    (chunks : List Bytes) :
    t.run (Edit.forward position chunks) = t.inserted position chunks.flatten :=
  run_of_applyAll (applyAll_forward h hposition chunks)

theorem run_insert (t : PieceTable) (position : Nat) (bytes : Bytes) :
    t.run [.insert position bytes] = t.run (Edit.forward position [bytes]) := rfl

/-- The first chunk that puts something in, or no bytes. -/
def firstFilled (chunks : List Bytes) : Bytes :=
  (chunks.find? (!·.isEmpty)).getD []

theorem flatten_eq_nil_iff_firstFilled (chunks : List Bytes) :
    chunks.flatten = [] ↔ firstFilled chunks = [] := by
  induction chunks with
  | nil => exact iff_of_true rfl rfl
  | cons bytes chunks ih =>
    cases bytes with
    | nil => exact ih
    | cons b bytes => exact iff_of_false (List.cons_ne_nil _ _) (List.cons_ne_nil _ _)

/-- Putting text in chunk by chunk, each behind the one before, leaves the same table as putting
it in at once, be the position one of the document or not; and it makes as many pieces as the
first chunk that is not empty. -/
theorem run_forward (init : Bytes) (edits : List Edit) (position : Nat) (chunks : List Bytes) :
    let t := (ofBytes init).run edits
    let u := t.run (Edit.forward position chunks)
    u = t.run [.insert position chunks.flatten] ∧
      (position ≤ t.length → t.applyAll (Edit.forward position chunks) = .ok u ∧
        t.insert position chunks.flatten = .ok u) ∧
      (t.length < position → u = t) ∧
      u.pieces.length = (t.run [.insert position (firstFilled chunks)]).pieces.length := by
  intro t u
  have hwell : t.WellFormed := (run_of_wellFormed (.ofBytes init) edits).1
  by_cases hposition : position ≤ t.length
  · have hu : u = t.inserted position chunks.flatten := run_forward_of_le hwell hposition chunks
    have hone : ∀ bytes, t.run [.insert position bytes] = t.inserted position bytes := by
      intro bytes
      rw [run_insert, run_forward_of_le hwell hposition, List.flatten_singleton]
    refine ⟨by rw [hu, hone], fun _ => ⟨?_, ?_⟩, fun hlt => absurd hposition (by omega), ?_⟩
    · rw [applyAll_forward hwell hposition, hu]
    · exact insert_eq_ok_iff.mpr ⟨hposition, hu.symm⟩
    · rw [hone, hu]
      exact length_pieces_inserted t position (flatten_eq_nil_iff_firstFilled chunks)
  · have hlt : t.length < position := Nat.lt_of_not_le hposition
    have hu : u = t := run_forward_of_lt hlt chunks
    have hone : ∀ bytes, t.run [.insert position bytes] = t := by
      intro bytes
      rw [run_insert, run_forward_of_lt hlt]
    exact ⟨by rw [hu, hone], fun hle => absurd hle hposition, fun _ => hu, by rw [hu, hone]⟩

theorem run_forward_split :
    let t := (ofBytes [97, 98]).run []
    let u := t.run (Edit.forward 1 [[], [120], [121, 122]])
    t.insert 1 [120, 121, 122] = .ok u ∧
      u.pieces = [⟨.initial, 0, 1⟩, ⟨.added, 0, 3⟩, ⟨.initial, 1, 2⟩] ∧
      u.added = [120, 121, 122] ∧ u.pieces.length = (t.run [.insert 1 [120]]).pieces.length := by
  intro t u
  obtain ⟨-, hall, -, hpieces⟩ := run_forward [97, 98] [] 1 [[], [120], [121, 122]]
  exact ⟨(hall (by decide)).2, rfl, rfl, hpieces⟩

end PieceTable

end Redline

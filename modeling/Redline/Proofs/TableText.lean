import Redline.Document.PieceTable
/-!
# The text of a piece table

A table whose pieces lie in their stores behaves like the byte string that it
shows: insertion splices bytes into it, deletion cuts a range out of it, and
reading copies a range.  Nothing is said here about how the text is cut into
pieces.
-/

namespace Redline

/-! ## Where pieces come from -/

namespace Piece

variable {p q new : Piece} {pieces : List Piece} {position count : Nat}

structure IsPartOf (q p : Piece) : Prop where
  pos : q.start < q.stop
  store_eq : q.store = p.store
  start_le : p.start ≤ q.start
  stop_le : q.stop ≤ p.stop

theorem IsPartOf.refl (h : p.start < p.stop) : p.IsPartOf p :=
  ⟨h, rfl, Nat.le_refl _, Nat.le_refl _⟩

structure IsExtensionOf (q p new : Piece) : Prop where
  continues : p.continuedBy new = true
  eq : q = { p with stop := new.stop }

theorem IsExtensionOf.continued (h : q.IsExtensionOf p new) :
    p.store = new.store ∧ p.stop = new.start := by
  simpa [continuedBy] using h.continues

theorem mem_without :
    q ∈ p.without position count ↔
      position ≠ 0 ∧ q = { p with stop := p.start + position } ∨
        position + count ≠ p.length ∧ q = { p with start := p.start + position + count } := by
  unfold without
  by_cases hfront : position = 0 <;> by_cases hback : position + count = p.length <;>
    simp [hfront, hback]

theorem isPartOf_of_mem_without (hposition : position < p.length)
    (hcount : position + count ≤ p.length) (hq : q ∈ p.without position count) :
    q.IsPartOf p := by
  unfold length at hposition hcount
  rcases mem_without.mp hq with ⟨hne, rfl⟩ | ⟨hne, rfl⟩
  · refine ⟨?_, rfl, Nat.le_refl _, ?_⟩
    all_goals
      dsimp only
      omega
  · unfold length at hne
    refine ⟨?_, rfl, ?_, Nat.le_refl _⟩
    all_goals
      dsimp only
      omega

theorem exists_of_mem_removeAt (h : ∀ p ∈ pieces, p.start < p.stop)
    (hq : q ∈ removeAt position count pieces) : ∃ p ∈ pieces, q.IsPartOf p := by
  induction pieces generalizing position count with
  | nil => exact absurd hq List.not_mem_nil
  | cons p rest ih =>
    have hrest : ∀ {position count : Nat}, q ∈ removeAt position count rest →
        ∃ p' ∈ p :: rest, q.IsPartOf p' := fun hq =>
      have ⟨p', hp', hpart⟩ := ih (fun p' hp' => h p' (List.mem_cons_of_mem _ hp')) hq
      ⟨p', List.mem_cons_of_mem _ hp', hpart⟩
    rw [removeAt] at hq
    split at hq
    · exact ⟨q, hq, .refl (h q hq)⟩
    split at hq
    · rcases List.mem_cons.mp hq with rfl | hq
      · exact ⟨q, List.mem_cons_self, .refl (h q List.mem_cons_self)⟩
      · exact hrest hq
    · rcases List.mem_append.mp hq with hq | hq
      · exact ⟨p, List.mem_cons_self, isPartOf_of_mem_without (by omega) (by omega) hq⟩
      · exact hrest hq

theorem exists_of_mem_insertAt (h : ∀ p ∈ pieces, p.start < p.stop)
    (hq : q ∈ insertAt new position pieces) :
    q = new ∨ ∃ p ∈ pieces, q.IsPartOf p ∨ q.IsExtensionOf p new := by
  induction pieces generalizing position with
  | nil => exact .inl (List.mem_singleton.mp hq)
  | cons p rest ih =>
    have hpos := h p List.mem_cons_self
    have hold : ∀ {q : Piece}, q ∈ p :: rest →
        q = new ∨ ∃ p' ∈ p :: rest, q.IsPartOf p' ∨ q.IsExtensionOf p' new := fun {q} hq =>
      .inr ⟨q, hq, .inl (.refl (h q hq))⟩
    -- in front of the piece, inside of it, at its end and behind it
    rw [insertAt] at hq
    split at hq
    · rcases List.mem_cons.mp hq with rfl | hq
      · exact .inl rfl
      · exact hold hq
    split at hq
    · rename_i hzero hinside
      unfold length at hinside
      simp only [List.mem_cons] at hq
      rcases hq with rfl | rfl | rfl | hq
      · refine .inr ⟨p, List.mem_cons_self, .inl ⟨?_, rfl, Nat.le_refl _, ?_⟩⟩
        all_goals
          dsimp only
          omega
      · exact .inl rfl
      · refine .inr ⟨p, List.mem_cons_self, .inl ⟨?_, rfl, Nat.le_add_right _ _, Nat.le_refl _⟩⟩
        dsimp only
        omega
      · exact hold (List.mem_cons_of_mem _ hq)
    split at hq
    · split at hq
      · rcases List.mem_cons.mp hq with rfl | hq
        · exact .inr ⟨p, List.mem_cons_self, .inr ⟨‹_›, rfl⟩⟩
        · exact hold (List.mem_cons_of_mem _ hq)
      · simp only [List.mem_cons] at hq
        rcases hq with rfl | rfl | hq
        · exact hold List.mem_cons_self
        · exact .inl rfl
        · exact hold (List.mem_cons_of_mem _ hq)
    · rcases List.mem_cons.mp hq with rfl | hq
      · exact hold List.mem_cons_self
      · rcases ih (fun p' hp' => h p' (List.mem_cons_of_mem _ hp')) hq with
          rfl | ⟨p', hp', hcases⟩
        · exact .inl rfl
        · exact .inr ⟨p', List.mem_cons_of_mem _ hp', hcases⟩

end Piece

namespace PieceTable

/-- The piece shows at least one byte, and all that it shows is stored. -/
def Holds (t : PieceTable) (p : Piece) : Prop :=
  p.start < p.stop ∧ p.stop ≤ (t.store p.store).length

def WellFormed (t : PieceTable) : Prop :=
  ∀ p ∈ t.pieces, t.Holds p

theorem Holds.part {t : PieceTable} {p q : Piece} (h : t.Holds p) (hpart : q.IsPartOf p) :
    t.Holds q := by
  refine ⟨hpart.pos, ?_⟩
  rw [hpart.store_eq]
  exact Nat.le_trans hpart.stop_le h.2

def textOf (t : PieceTable) (pieces : List Piece) : Bytes :=
  (pieces.map t.chunk).flatten

@[simp] theorem textOf_nil (t : PieceTable) : t.textOf [] = [] := rfl

@[simp] theorem textOf_cons (t : PieceTable) (p : Piece) (pieces : List Piece) :
    t.textOf (p :: pieces) = t.chunk p ++ t.textOf pieces := by
  simp [textOf]

@[simp] theorem textOf_append (t : PieceTable) (a b : List Piece) :
    t.textOf (a ++ b) = t.textOf a ++ t.textOf b := by
  simp [textOf]

theorem toBytes_eq_textOf (t : PieceTable) : t.toBytes = t.textOf t.pieces := rfl

/-! ## Pieces -/

theorem length_chunk {t : PieceTable} {p : Piece} (h : t.Holds p) :
    (t.chunk p).length = p.length := by
  have hstop := h.2
  simp only [chunk, Piece.length, List.length_take, List.length_drop]
  omega

theorem chunk_upto (t : PieceTable) (p : Piece) {k : Nat} (hk : k ≤ p.length) :
    t.chunk { p with stop := p.start + k } = (t.chunk p).take k := by
  simp only [chunk, Piece.length] at hk ⊢
  rw [List.take_take, Nat.min_eq_left hk, Nat.add_sub_cancel_left]

theorem chunk_from (t : PieceTable) (p : Piece) (k : Nat) :
    t.chunk { p with start := p.start + k } = (t.chunk p).drop k := by
  simp only [chunk, Piece.length]
  rw [List.drop_take, List.drop_drop, Nat.sub_add_eq]

theorem length_textOf {t : PieceTable} {pieces : List Piece} (h : ∀ p ∈ pieces, t.Holds p) :
    (t.textOf pieces).length = Piece.total pieces := by
  induction pieces with
  | nil => rfl
  | cons p rest ih =>
    rw [textOf_cons, List.length_append, length_chunk (h p List.mem_cons_self),
      ih fun q hq => h q (List.mem_cons_of_mem _ hq), Piece.total]

theorem length_toBytes {t : PieceTable} (h : t.WellFormed) : t.toBytes.length = t.length :=
  length_textOf h

/-! ## Deletion -/

theorem textOf_without (t : PieceTable) (p : Piece) {position count : Nat}
    (h : position + count ≤ p.length) (hp : t.Holds p) :
    t.textOf (p.without position count) =
      (t.chunk p).take position ++ (t.chunk p).drop (position + count) := by
  have hlength := length_chunk hp
  have hfront : t.textOf (if position = 0 then [] else [{ p with stop := p.start + position }]) =
      (t.chunk p).take position := by
    split
    · simp [*]
    · simp [chunk_upto t p (show position ≤ p.length by omega)]
  have hback : t.textOf (if position + count = p.length then []
        else [{ p with start := p.start + position + count }]) =
      (t.chunk p).drop (position + count) := by
    split
    · rw [List.drop_eq_nil_of_le (by omega), textOf_nil]
    · simp [Nat.add_assoc, chunk_from]
  rw [Piece.without, textOf_append, hfront, hback]

theorem textOf_removeAt {t : PieceTable} {pieces : List Piece} (h : ∀ p ∈ pieces, t.Holds p)
    (position count : Nat) :
    t.textOf (Piece.removeAt position count pieces) =
      (t.textOf pieces).take position ++ (t.textOf pieces).drop (position + count) := by
  induction pieces generalizing position count with
  | nil => simp [Piece.removeAt]
  | cons p rest ih =>
    have hp : t.Holds p := h p List.mem_cons_self
    have hlength := length_chunk hp
    have ih := ih fun q hq => h q (List.mem_cons_of_mem _ hq)
    rw [Piece.removeAt]
    by_cases hcount : count = 0
    · rw [if_pos hcount, hcount, Nat.add_zero, List.take_append_drop]
    rw [if_neg hcount]
    by_cases hskip : p.length ≤ position
    · have htake : (t.chunk p).take position = t.chunk p := List.take_of_length_le (by omega)
      have hdrop : (t.chunk p).drop (position + count) = [] :=
        List.drop_eq_nil_of_le (by omega)
      rw [if_pos hskip]
      calc t.textOf (p :: Piece.removeAt (position - p.length) count rest)
          = t.chunk p ++ ((t.textOf rest).take (position - p.length) ++
              (t.textOf rest).drop (position - p.length + count)) := by
            rw [textOf_cons, ih]
        _ = (t.textOf (p :: rest)).take position ++
              (t.textOf (p :: rest)).drop (position + count) := by
            rw [textOf_cons, List.take_append, List.drop_append, htake, hdrop, hlength,
              Nat.sub_add_comm hskip, List.nil_append, List.append_assoc]
    · -- the piece is cut; what is still to be deleted starts the next one
      have htake : position - (t.chunk p).length = 0 := by omega
      rw [if_neg hskip]
      simp only [textOf_append, textOf_cons]
      rw [textOf_without t p (by omega) hp, ih, List.take_append, List.drop_append, htake,
        Nat.zero_add, List.take_zero, List.append_nil, List.nil_append,
        List.append_assoc]
      by_cases hinside : count ≤ p.length - position
      · have hrest : position + count - (t.chunk p).length = 0 := by omega
        rw [Nat.min_eq_left hinside, Nat.sub_self, hrest]
      · have hcut : position + min count (p.length - position) = (t.chunk p).length := by omega
        have hrest : count - min count (p.length - position) =
            position + count - (t.chunk p).length := by omega
        have hend : (t.chunk p).drop (position + count) = [] :=
          List.drop_eq_nil_of_le (by omega)
        rw [hcut, hrest, hend, List.drop_length]

theorem toBytes_deleted {t : PieceTable} (h : t.WellFormed) (position count : Nat) :
    (t.deleted position count).toBytes =
      t.toBytes.take position ++ t.toBytes.drop (position + count) :=
  textOf_removeAt h position count

private theorem holds_of_mem_removeAt {t : PieceTable} {pieces : List Piece}
    (h : ∀ p ∈ pieces, t.Holds p) (position count : Nat) :
    ∀ q ∈ Piece.removeAt position count pieces, t.Holds q := by
  intro q hq
  obtain ⟨p, hp, hpart⟩ := Piece.exists_of_mem_removeAt (fun p hp => (h p hp).1) hq
  exact (h p hp).part hpart

theorem WellFormed.deleted {t : PieceTable} (h : t.WellFormed) (position count : Nat) :
    (t.deleted position count).WellFormed :=
  holds_of_mem_removeAt h position count

/-! ## Insertion -/

/-- The table with bytes at the end of its added text, shown nowhere yet. -/
private def grown (t : PieceTable) (bytes : Bytes) : PieceTable :=
  { t with added := t.added ++ bytes }

private theorem store_isPrefix_grown (t : PieceTable) (bytes : Bytes) (s : Store) :
    ∃ more, (t.grown bytes).store s = t.store s ++ more := by
  cases s with
  | initial => exact ⟨[], (List.append_nil _).symm⟩
  | added => exact ⟨bytes, rfl⟩

private theorem holds_grown {t : PieceTable} {p : Piece} (bytes : Bytes) (h : t.Holds p) :
    (t.grown bytes).Holds p := by
  obtain ⟨more, hmore⟩ := store_isPrefix_grown t bytes p.store
  refine ⟨h.1, ?_⟩
  rw [hmore, List.length_append]
  exact Nat.le_add_right_of_le h.2

private theorem chunk_grown {t : PieceTable} {p : Piece} (bytes : Bytes) (h : t.Holds p) :
    (t.grown bytes).chunk p = t.chunk p := by
  obtain ⟨more, hmore⟩ := store_isPrefix_grown t bytes p.store
  have hstart := h.1
  have hstop := h.2
  rw [chunk, chunk, hmore, List.drop_append_of_le_length (by omega),
    List.take_append_of_le_length]
  rw [Piece.length, List.length_drop]
  omega

private theorem textOf_grown {t : PieceTable} {pieces : List Piece} (bytes : Bytes)
    (h : ∀ p ∈ pieces, t.Holds p) : (t.grown bytes).textOf pieces = t.textOf pieces := by
  unfold textOf
  rw [List.map_congr_left fun p hp => chunk_grown bytes (h p hp)]

private def latest (t : PieceTable) (bytes : Bytes) : Piece :=
  ⟨.added, t.added.length, t.added.length + bytes.length⟩

private theorem chunk_latest (t : PieceTable) (bytes : Bytes) :
    (t.grown bytes).chunk (t.latest bytes) = bytes := by
  simp [chunk, grown, latest, store, Piece.length]

/-- A piece that ends where the added text ended shows the new bytes, too, once
it is extended over them. -/
private theorem chunk_extended {t : PieceTable} {p : Piece} {bytes : Bytes} (h : t.Holds p)
    (hnext : p.continuedBy (t.latest bytes) = true) :
    (t.grown bytes).chunk { p with stop := (t.latest bytes).stop } = t.chunk p ++ bytes := by
  simp only [Piece.continuedBy, Bool.and_eq_true, decide_eq_true_eq] at hnext
  have hstore : p.store = .added := hnext.1
  have hstop : p.stop = t.added.length := hnext.2
  have hstart : p.start ≤ t.added.length := by
    have := h.1
    omega
  simp only [chunk, latest, grown, Piece.length, hstore, store, hstop]
  rw [List.drop_append_of_le_length hstart, List.take_of_length_le, List.take_of_length_le]
  · exact Nat.le_of_eq List.length_drop
  · rw [List.length_append, List.length_drop]
    omega

private theorem textOf_insertAt {t : PieceTable} {pieces : List Piece}
    (h : ∀ p ∈ pieces, t.Holds p) (position : Nat) (bytes : Bytes) :
    (t.grown bytes).textOf (Piece.insertAt (t.latest bytes) position pieces) =
      (t.textOf pieces).take position ++ bytes ++ (t.textOf pieces).drop position := by
  induction pieces generalizing position with
  | nil => simp [Piece.insertAt, chunk_latest]
  | cons p rest ih =>
    have hp : t.Holds p := h p List.mem_cons_self
    have hrest : ∀ q ∈ rest, t.Holds q := fun q hq => h q (List.mem_cons_of_mem _ hq)
    have hlength := length_chunk hp
    have hsame := textOf_grown bytes hrest
    rw [Piece.insertAt, textOf_cons]
    by_cases hzero : position = 0
    · rw [if_pos hzero]
      simp [hzero, chunk_latest, chunk_grown bytes hp, hsame]
    rw [if_neg hzero]
    by_cases hinside : position < p.length
    · rw [if_pos hinside, List.take_append_of_le_length (by omega),
        List.drop_append_of_le_length (by omega)]
      simp [chunk_latest, chunk_upto _ p (Nat.le_of_lt hinside), chunk_from,
        chunk_grown bytes hp, hsame]
    rw [if_neg hinside]
    by_cases hend : position = p.length
    · have htake : (t.chunk p ++ t.textOf rest).take position = t.chunk p :=
        List.take_left' (by omega)
      have hdrop : (t.chunk p ++ t.textOf rest).drop position = t.textOf rest :=
        List.drop_left' (by omega)
      rw [if_pos hend, htake, hdrop]
      split
      · rename_i hnext
        rw [textOf_cons, chunk_extended hp hnext, hsame]
      · simp [chunk_latest, chunk_grown bytes hp, hsame]
    · have htake : (t.chunk p).take position = t.chunk p := List.take_of_length_le (by omega)
      have hdrop : (t.chunk p).drop position = [] := List.drop_eq_nil_of_le (by omega)
      rw [if_neg hend, textOf_cons, chunk_grown bytes hp, ih hrest, List.take_append,
        List.drop_append, htake, hdrop, hlength]
      simp

theorem toBytes_inserted {t : PieceTable} (h : t.WellFormed) (position : Nat) (bytes : Bytes) :
    (t.inserted position bytes).toBytes =
      t.toBytes.take position ++ bytes ++ t.toBytes.drop position := by
  unfold inserted
  split
  · rename_i hempty
    simp [List.isEmpty_iff.mp hempty]
  · exact textOf_insertAt h position bytes

private theorem holds_of_mem_insertAt {t : PieceTable} {new : Piece} (hnew : t.Holds new)
    {pieces : List Piece} (h : ∀ p ∈ pieces, t.Holds p) (position : Nat) :
    ∀ q ∈ Piece.insertAt new position pieces, t.Holds q := by
  intro q hq
  rcases Piece.exists_of_mem_insertAt (fun p hp => (h p hp).1) hq with
    rfl | ⟨p, hp, hpart | hextension⟩
  · exact hnew
  · exact (h p hp).part hpart
  · obtain ⟨hstore, hstop⟩ := hextension.continued
    have hfront := (h p hp).1
    have hbounds := hnew
    rw [hextension.eq]
    simp only [Holds, ← hstore, ← hstop] at hbounds ⊢
    omega

theorem WellFormed.inserted {t : PieceTable} (h : t.WellFormed) (position : Nat)
    (bytes : Bytes) : (t.inserted position bytes).WellFormed := by
  unfold PieceTable.inserted
  split
  · exact h
  · rename_i hempty
    have hlatest : (t.grown bytes).Holds (t.latest bytes) := by
      have hpos : 0 < bytes.length := by
        rw [List.length_pos_iff]
        simpa using hempty
      refine ⟨?_, ?_⟩
      · simp only [latest]
        omega
      · simp [latest, grown, store]
    exact holds_of_mem_insertAt hlatest (fun p hp => holds_grown bytes (h p hp)) position

/-! ## A table for a text -/

theorem WellFormed.ofBytes (bytes : Bytes) : (ofBytes bytes).WellFormed := by
  intro p hp
  cases bytes with
  | nil => simp [PieceTable.ofBytes] at hp
  | cons b bytes =>
    simp only [PieceTable.ofBytes, List.isEmpty_cons, Bool.false_eq_true, if_false,
      List.mem_singleton] at hp
    subst hp
    exact ⟨Nat.succ_pos _, Nat.le_refl _⟩

theorem WellFormed.empty : empty.WellFormed := by
  simp [WellFormed, PieceTable.empty]

theorem toBytes_ofBytes (bytes : Bytes) : (ofBytes bytes).toBytes = bytes := by
  cases bytes with
  | nil => rfl
  | cons b bytes => simp [toBytes_eq_textOf, ofBytes, chunk, store, Piece.length]

/-! ## Reading -/

theorem readAt_eq {t : PieceTable} {pieces : List Piece} (h : ∀ p ∈ pieces, t.Holds p)
    (position count : Nat) :
    t.readAt position count pieces = ((t.textOf pieces).drop position).take count := by
  induction pieces generalizing position count with
  | nil => simp [readAt]
  | cons p rest ih =>
    have hlength := length_chunk (h p List.mem_cons_self)
    have ih := ih fun q hq => h q (List.mem_cons_of_mem _ hq)
    rw [readAt, textOf_cons, List.drop_append, hlength]
    by_cases hcount : count = 0
    · rw [if_pos hcount, hcount, List.take_zero]
    rw [if_neg hcount]
    by_cases hskip : p.length ≤ position
    · have hdrop : (t.chunk p).drop position = [] := List.drop_eq_nil_of_le (by omega)
      rw [if_pos hskip, ih, hdrop, List.nil_append]
    · have hfront : position - p.length = 0 := by omega
      have hleft : ((t.chunk p).drop position).length = p.length - position := by
        rw [List.length_drop, hlength]
      have hrest : count - min count (p.length - position) = count - (p.length - position) := by
        omega
      rw [if_neg hskip, hfront, List.drop_zero, List.take_append, hleft]
      simp only [ih, List.drop_zero, hrest]
      rw [← List.take_take, ← hleft, List.take_length]

end PieceTable

end Redline

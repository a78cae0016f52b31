import Mathlib.Data.List.Nodup
import Redline.Proofs.TableEdits
/-!
# How the pieces of a table lie in its stores

Whatever calls a table has been through, no piece is empty, no stored byte is shown twice,
and what is left of the initial text stands in its old order.  The added text is what the
calls put in, and a call adds few pieces.
-/

namespace Redline

namespace Piece

variable {p q p' q' new : Piece} {pieces : List Piece}

/-- What holds of a piece `p` and a piece `q` behind it: they have no stored byte in common,
and of the initial text `p` shows an earlier part. -/
def Precedes (p q : Piece) : Prop :=
  p.store = q.store → p.stop ≤ q.start ∨ p.store = .added ∧ q.stop ≤ p.start

theorem Precedes.parts (h : p.Precedes q) (hp : p'.IsPartOf p) (hq : q'.IsPartOf q) :
    p'.Precedes q' := by
  intro hstore
  rw [hp.store_eq, hq.store_eq] at hstore
  have hstart := hp.start_le
  have hstop := hp.stop_le
  have hstart' := hq.start_le
  have hstop' := hq.stop_le
  rcases h hstore with hle | ⟨hadded, hle⟩
  · exact .inl (by omega)
  · exact .inr ⟨hp.store_eq.trans hadded, by omega⟩

/-- The pieces of a document: each shows something, and they do not get in each other's way. -/
structure Laid (pieces : List Piece) : Prop where
  pos : ∀ p ∈ pieces, p.start < p.stop
  pairwise : pieces.Pairwise Precedes

theorem Laid.tail (h : Laid (p :: pieces)) : Laid pieces :=
  ⟨fun q hq => h.pos q (List.mem_cons_of_mem _ hq), h.pairwise.tail⟩

theorem Laid.precedes (h : Laid (p :: pieces)) : ∀ q ∈ pieces, p.Precedes q :=
  (List.pairwise_cons.mp h.pairwise).1

/-! ## Deletion -/

private theorem pairwise_without (p : Piece) (position count : Nat) :
    (p.without position count).Pairwise Precedes := by
  have hpair : Precedes { p with stop := p.start + position }
      { p with start := p.start + position + count } := fun _ => .inl (Nat.le_add_right _ _)
  unfold without
  split <;> split <;> simp [hpair]

private theorem pairwise_removeAt (h : Laid pieces) (position count : Nat) :
    (removeAt position count pieces).Pairwise Precedes := by
  induction pieces generalizing position count with
  | nil => exact .nil
  | cons p rest ih =>
    have hpos := h.pos p List.mem_cons_self
    have hbehind : ∀ {position count : Nat}, ∀ q ∈ removeAt position count rest,
        ∃ p' ∈ rest, q.IsPartOf p' := fun q hq => exists_of_mem_removeAt h.tail.pos hq
    rw [removeAt]
    split
    · exact h.pairwise
    split
    · refine List.pairwise_cons.mpr ⟨fun q hq => ?_, ih h.tail _ _⟩
      obtain ⟨p', hp', hpart⟩ := hbehind q hq
      exact (h.precedes p' hp').parts (.refl hpos) hpart
    · refine List.pairwise_append.mpr
        ⟨pairwise_without _ _ _, ih h.tail _ _, fun q hq q' hq' => ?_⟩
      obtain ⟨p', hp', hpart⟩ := hbehind q' hq'
      exact (h.precedes p' hp').parts
        (isPartOf_of_mem_without (by omega) (by omega) hq) hpart

theorem Laid.removeAt (h : Laid pieces) (position count : Nat) :
    Laid (removeAt position count pieces) := by
  refine ⟨fun q hq => ?_, pairwise_removeAt h position count⟩
  obtain ⟨p, -, hpart⟩ := exists_of_mem_removeAt h.pos hq
  exact hpart.pos

private theorem length_without_le (p : Piece) (position count : Nat) :
    (p.without position count).length ≤ 2 ∧ (p.without 0 count).length ≤ 1 := by
  unfold without
  constructor
  · split <;> split <;> simp
  · rw [if_pos rfl]
    split <;> simp

private theorem length_removeAt_zero_le (count : Nat) (pieces : List Piece) :
    (Piece.removeAt 0 count pieces).length ≤ pieces.length := by
  induction pieces generalizing count with
  | nil => exact Nat.le_refl _
  | cons p rest ih =>
    rw [Piece.removeAt]
    split
    · exact Nat.le_refl _
    split
    · rw [Nat.zero_sub]
      exact Nat.succ_le_succ (ih count)
    · have hcut := (p.length_without_le 0 (min count (p.length - 0))).2
      have hrest := ih (count - min count (p.length - 0))
      rw [List.length_append, List.length_cons]
      omega

/-- Only a range inside of one piece leaves a piece more, as all behind it is cut in front. -/
theorem length_removeAt_le (position count : Nat) (pieces : List Piece) :
    (Piece.removeAt position count pieces).length ≤ pieces.length + 1 := by
  induction pieces generalizing position count with
  | nil => exact Nat.zero_le _
  | cons p rest ih =>
    rw [Piece.removeAt]
    split
    · exact Nat.le_succ _
    split
    · exact Nat.succ_le_succ (ih _ count)
    · have hcut := (p.length_without_le position (min count (p.length - position))).1
      have hrest := length_removeAt_zero_le (count - min count (p.length - position)) rest
      rw [List.length_append, List.length_cons]
      omega

/-! ## Insertion -/

/-- The piece shows added text that is stored behind all that the pieces show of it. -/
structure IsLatest (new : Piece) (pieces : List Piece) : Prop where
  pos : new.start < new.stop
  store_eq : new.store = .added
  stop_le : ∀ p ∈ pieces, p.store = .added → p.stop ≤ new.start

theorem IsLatest.tail (h : new.IsLatest (p :: pieces)) : new.IsLatest pieces :=
  ⟨h.pos, h.store_eq, fun q hq => h.stop_le q (List.mem_cons_of_mem _ hq)⟩

theorem IsLatest.precedes (h : new.IsLatest pieces) (hp : p ∈ pieces) :
    p.Precedes new ∧ new.Precedes p := by
  constructor
  · intro hstore
    exact .inl (h.stop_le p hp (hstore.trans h.store_eq))
  · intro hstore
    exact .inr ⟨h.store_eq, h.stop_le p hp (hstore.symm.trans h.store_eq)⟩

/-- An extended piece stands to the others as it did before: none shows what lies behind it. -/
theorem IsLatest.precedes_extension (h : new.IsLatest pieces) (hp : p ∈ pieces)
    (hpos : p.start < p.stop) (hextension : q'.IsExtensionOf q new) :
    (p.Precedes q → p.Precedes q') ∧ (q.Precedes p → q'.Precedes p) := by
  obtain ⟨hstore, hstop⟩ := hextension.continued
  have hadded : q.store = .added := hstore.trans h.store_eq
  rw [hextension.eq]
  constructor
  · intro hprecedes hsame
    have hle := h.stop_le p hp (hsame.trans hadded)
    rcases hprecedes hsame with hbefore | ⟨-, hbehind⟩
    · exact .inl hbefore
    · omega
  · intro hprecedes hsame
    have hle := h.stop_le p hp (hsame.symm.trans hadded)
    rcases hprecedes hsame with hbefore | ⟨-, hbehind⟩
    · omega
    · exact .inr ⟨hadded, hbehind⟩

private theorem pairwise_insertAt (hnew : new.IsLatest pieces) (h : Laid pieces)
    (position : Nat) : (insertAt new position pieces).Pairwise Precedes := by
  induction pieces generalizing position with
  | nil => exact List.pairwise_singleton _ _
  | cons p rest ih =>
    have hpos := h.pos p List.mem_cons_self
    have hbefore : p.Precedes new := (hnew.precedes List.mem_cons_self).1
    have hbehind : ∀ q ∈ p :: rest, new.Precedes q := fun q hq => (hnew.precedes hq).2
    have hrest : (new :: rest).Pairwise Precedes :=
      List.pairwise_cons.mpr ⟨fun q hq => hbehind q (List.mem_cons_of_mem _ hq), h.pairwise.tail⟩
    rw [insertAt]
    split
    · exact List.pairwise_cons.mpr ⟨hbehind, h.pairwise⟩
    split
    · -- the piece is split, and its parts stand to the others as it did
      rename_i hzero hinside
      unfold length at hinside
      have hfront : IsPartOf { p with stop := p.start + position } p :=
        ⟨by dsimp only; omega, rfl, Nat.le_refl _, by dsimp only; omega⟩
      have hback : IsPartOf { p with start := p.start + position } p :=
        ⟨by dsimp only; omega, rfl, Nat.le_add_right _ _, Nat.le_refl _⟩
      have hparts : Precedes { p with stop := p.start + position }
          { p with start := p.start + position } := fun _ => .inl (Nat.le_refl _)
      have hmore : ∀ {part : Piece}, part.IsPartOf p → ∀ q ∈ rest, part.Precedes q :=
        fun hpart q hq => (h.precedes q hq).parts hpart
          (.refl (h.pos q (List.mem_cons_of_mem _ hq)))
      have hnewBack := (hbehind p List.mem_cons_self).parts (.refl hnew.pos) hback
      have htail : ({ p with start := p.start + position } :: rest).Pairwise Precedes :=
        List.pairwise_cons.mpr ⟨hmore hback, h.pairwise.tail⟩
      refine List.pairwise_cons.mpr ⟨?_, List.pairwise_cons.mpr ⟨?_, htail⟩⟩
      · rw [List.forall_mem_cons, List.forall_mem_cons]
        exact ⟨hbefore.parts hfront (.refl hnew.pos), hparts, hmore hfront⟩
      · rw [List.forall_mem_cons]
        exact ⟨hnewBack, fun q hq => hbehind q (List.mem_cons_of_mem _ hq)⟩
    split
    · split
      · rename_i hcontinues
        refine List.pairwise_cons.mpr ⟨fun q hq => ?_, h.pairwise.tail⟩
        have hq' := List.mem_cons_of_mem p hq
        exact (hnew.precedes_extension hq' (h.pos q hq') ⟨hcontinues, rfl⟩).2 (h.precedes q hq)
      · refine List.pairwise_cons.mpr ⟨?_, hrest⟩
        rw [List.forall_mem_cons]
        exact ⟨hbefore, h.precedes⟩
    · refine List.pairwise_cons.mpr ⟨fun q hq => ?_, ih hnew.tail h.tail _⟩
      rcases exists_of_mem_insertAt h.tail.pos hq with rfl | ⟨p', hp', hpart | hextension⟩
      · exact hbefore
      · exact (h.precedes p' hp').parts (.refl hpos) hpart
      · exact (hnew.precedes_extension List.mem_cons_self hpos hextension).1 (h.precedes p' hp')

theorem Laid.insertAt (hnew : new.IsLatest pieces) (h : Laid pieces) (position : Nat) :
    Laid (insertAt new position pieces) := by
  refine ⟨fun q hq => ?_, pairwise_insertAt hnew h position⟩
  rcases exists_of_mem_insertAt h.pos hq with rfl | ⟨p, hp, hpart | hextension⟩
  · exact hnew.pos
  · exact hpart.pos
  · have hpos := h.pos p hp
    have hnewPos := hnew.pos
    obtain ⟨-, hstop⟩ := hextension.continued
    rw [hextension.eq]
    dsimp only
    omega

theorem length_insertAt_le (new : Piece) (position : Nat) (pieces : List Piece) :
    (Piece.insertAt new position pieces).length ≤ pieces.length + 2 := by
  induction pieces generalizing position with
  | nil => exact Nat.le_succ _
  | cons p rest ih =>
    rw [Piece.insertAt]
    split
    · exact Nat.le_succ _
    split
    · exact Nat.le_refl _
    split
    · split
      · exact Nat.le_add_right _ _
      · exact Nat.le_succ _
    · exact Nat.succ_le_succ (ih _)

/-! ## Stored bytes -/

def places (p : Piece) : List (Store × Nat) :=
  (List.range' p.start p.length).map (p.store, ·)

theorem Laid.nodup_places (h : Laid pieces) : (pieces.flatMap places).Nodup := by
  refine List.nodup_flatMap.mpr ⟨fun p _ => ?_, h.pairwise.imp fun {p q} hprecedes => ?_⟩
  · exact List.Nodup.map (fun i j heq => congrArg Prod.snd heq) List.nodup_range'
  · intro place hp hq
    obtain ⟨i, hi, rfl⟩ := List.mem_map.mp hp
    obtain ⟨j, hj, heq⟩ := List.mem_map.mp hq
    obtain ⟨hstore, rfl⟩ := Prod.mk.inj heq
    rw [List.mem_range'_1] at hi hj
    unfold length at hi hj
    rcases hprecedes hstore.symm with hle | ⟨-, hle⟩
    · omega
    · omega

end Piece

namespace PieceTable

variable {t u : PieceTable}

theorem laid_ofBytes (bytes : Bytes) : Piece.Laid (ofBytes bytes).pieces := by
  refine ⟨fun p hp => (WellFormed.ofBytes bytes p hp).1, ?_⟩
  unfold ofBytes
  dsimp only
  split
  · exact .nil
  · exact List.pairwise_singleton _ _

theorem laid_inserted (hwell : t.WellFormed) (h : Piece.Laid t.pieces) (position : Nat)
    (bytes : Bytes) : Piece.Laid (t.inserted position bytes).pieces := by
  unfold inserted
  split
  · exact h
  · rename_i hempty
    have hpos : 0 < bytes.length := List.length_pos_of_ne_nil (by simpa using hempty)
    refine Piece.Laid.insertAt ⟨?_, rfl, fun p hp hadded => ?_⟩ h position
    · dsimp only
      omega
    · have hstop := (hwell p hp).2
      rw [hadded] at hstop
      exact hstop

theorem laid_apply {e : Edit} (hwell : t.WellFormed) (h : Piece.Laid t.pieces)
    (hu : e.apply t = .ok u) : Piece.Laid u.pieces := by
  cases e with
  | insert position bytes =>
    obtain ⟨-, rfl⟩ := insert_eq_ok_iff.mp hu
    exact laid_inserted hwell h position bytes
  | delete position count =>
    obtain ⟨-, -, rfl⟩ := delete_eq_ok_iff.mp hu
    exact h.removeAt position count
  | reset bytes =>
    cases hu
    exact laid_ofBytes bytes

/-! ## Runs -/

def Edit.addedAfter (count : Nat) : Edit → Nat
  | insert _ bytes => count + bytes.length
  | delete _ _ => count
  | reset _ => 0

/-- How many bytes the calls that make sense on a byte string insert, from the last reset on;
`count` have been inserted before. -/
def Edit.insertedLength (text : Bytes) (count : Nat) : List Edit → Nat
  | [] => count
  | e :: edits =>
    match e.applyFlat? text with
    | some text => insertedLength text (e.addedAfter count) edits
    | none => insertedLength text count edits

theorem length_added_apply {e : Edit} (hu : e.apply t = .ok u) :
    u.added.length = e.addedAfter t.added.length := by
  cases e with
  | insert position bytes =>
    obtain ⟨-, rfl⟩ := insert_eq_ok_iff.mp hu
    unfold inserted
    split
    · rename_i hempty
      rw [Edit.addedAfter, List.isEmpty_iff.mp hempty, List.length_nil, Nat.add_zero]
    · exact List.length_append
  | delete position count =>
    obtain ⟨-, -, rfl⟩ := delete_eq_ok_iff.mp hu
    rfl
  | reset bytes =>
    cases hu
    rfl

theorem laid_run (hwell : t.WellFormed) (h : Piece.Laid t.pieces) (edits : List Edit) :
    Piece.Laid (t.run edits).pieces := by
  induction edits generalizing t with
  | nil => exact h
  | cons e edits ih =>
    rw [run]
    cases hu : e.apply t with
    | ok u => exact ih (hwell.apply hu) (laid_apply hwell h hu)
    | error fault => exact ih hwell h

theorem length_added_run (hwell : t.WellFormed) (edits : List Edit) :
    (t.run edits).added.length = Edit.insertedLength t.toBytes t.added.length edits := by
  induction edits generalizing t with
  | nil => rfl
  | cons e edits ih =>
    rw [run, Edit.insertedLength, applyFlat?_toBytes hwell e]
    cases hu : e.apply t with
    | ok u =>
      have hadded := length_added_apply hu
      have hrest := ih (hwell.apply hu)
      rw [hadded] at hrest
      exact hrest
    | error fault => exact ih hwell

/-! ## Single calls -/

theorem isEmpty_iff_length_eq_zero (h : Piece.Laid t.pieces) :
    t.isEmpty = true ↔ t.length = 0 := by
  unfold isEmpty length
  cases hpieces : t.pieces with
  | nil => exact iff_of_true rfl rfl
  | cons p rest =>
    have hpos := h.pos p (hpieces ▸ List.mem_cons_self)
    refine iff_of_false Bool.false_ne_true ?_
    rw [Piece.total, Piece.length]
    omega

theorem length_pieces_inserted_le (t : PieceTable) (position : Nat) (bytes : Bytes) :
    (t.inserted position bytes).pieces.length ≤ t.pieces.length + 2 := by
  unfold inserted
  split
  · exact Nat.le_add_right _ _
  · exact Piece.length_insertAt_le _ _ _

/-- The pieces after every run of calls: each shows something that is stored, no stored byte
is shown twice, the initial text keeps its order, the added text is as long as what was put
in, and a call makes few pieces more. -/
theorem run_layout (init : Bytes) (edits : List Edit) :
    let t := (ofBytes init).run edits
    (∀ p ∈ t.pieces, p.start < p.stop ∧ p.stop ≤ (t.store p.store).length) ∧
      (t.pieces.filter (·.store = .initial)).Pairwise (fun p q => p.stop ≤ q.start) ∧
      (t.pieces.filter (·.store = .added)).Pairwise
        (fun p q => p.stop ≤ q.start ∨ q.stop ≤ p.start) ∧
      (t.pieces.flatMap Piece.places).Nodup ∧
      t.added.length = Edit.insertedLength init 0 edits ∧
      (t.isEmpty = true ↔ t.length = 0) ∧
      (∀ position bytes u, t.insert position bytes = .ok u →
        u.pieces.length ≤ t.pieces.length + 2) ∧
      ∀ position count u, t.delete position count = .ok u →
        u.pieces.length ≤ t.pieces.length + 1 ∧ u.added = t.added := by
  intro t
  have hstart : (ofBytes init).WellFormed := .ofBytes init
  have hwell : t.WellFormed := (run_of_wellFormed hstart edits).1
  have hlaid : Piece.Laid t.pieces := laid_run hstart (laid_ofBytes init) edits
  have hadded : t.added.length = Edit.insertedLength init 0 edits := by
    have hrun := length_added_run hstart edits
    rwa [toBytes_ofBytes] at hrun
  refine ⟨hwell, ?_, ?_, hlaid.nodup_places, hadded, isEmpty_iff_length_eq_zero hlaid, ?_, ?_⟩
  · refine List.pairwise_filter.mpr (hlaid.pairwise.imp fun {p q} h hp hq => ?_)
    have hp : p.store = .initial := of_decide_eq_true hp
    have hq : q.store = .initial := of_decide_eq_true hq
    rcases h (hp.trans hq.symm) with hle | ⟨hadded, -⟩
    · exact hle
    · exact Store.noConfusion (hp.symm.trans hadded)
  · refine List.pairwise_filter.mpr (hlaid.pairwise.imp fun {p q} h hp hq => ?_)
    have hp : p.store = .added := of_decide_eq_true hp
    have hq : q.store = .added := of_decide_eq_true hq
    exact (h (hp.trans hq.symm)).imp_right And.right
  · intro position bytes u hu
    obtain ⟨-, rfl⟩ := insert_eq_ok_iff.mp hu
    exact length_pieces_inserted_le t position bytes
  · intro position count u hu
    obtain ⟨-, -, rfl⟩ := delete_eq_ok_iff.mp hu
    exact ⟨Piece.length_removeAt_le position count t.pieces, rfl⟩

/-- A piece is split, the one put in between is extended and then loses its middle: the last
insertion splits one more, and the deletion behind it leaves the added text as it is. -/
theorem run_layout_abcd :
    let edits : List Edit := [.insert 2 [120, 121], .insert 4 [122], .delete 3 1]
    let t := (ofBytes [97, 98, 99, 100]).run edits
    let u := t.inserted 1 [63]
    t.pieces = [⟨.initial, 0, 2⟩, ⟨.added, 0, 1⟩, ⟨.added, 2, 3⟩, ⟨.initial, 2, 4⟩] ∧
      t.toBytes = [97, 98, 120, 122, 99, 100] ∧
      t.added.length = Edit.insertedLength [97, 98, 99, 100] 0 edits ∧
      t.insert 1 [63] = .ok u ∧ u.pieces.length ≤ t.pieces.length + 2 ∧
      t.delete 3 2 = .ok (t.deleted 3 2) ∧ (t.deleted 3 2).added = t.added := by
  intro edits t u
  obtain ⟨-, -, -, -, hadded, -, hinsert, hdelete⟩ := run_layout [97, 98, 99, 100] edits
  exact ⟨rfl, rfl, hadded, rfl, hinsert 1 [63] u rfl, rfl, (hdelete 3 2 _ rfl).2⟩

/-- The runs of a table made empty are among them. -/
example (edits : List Edit) : empty.run edits = (ofBytes []).run edits := rfl

end PieceTable

end Redline

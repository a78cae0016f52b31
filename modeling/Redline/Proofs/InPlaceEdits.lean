import Redline.Proofs.RangeReads
/-!
# Edits of a table in place

Done in place, an insertion stores its text before it looks for the place of the new piece, and
each sum of offsets is looked at before it is taken.  A sum that is refused after the text has been
stored would leave a table with text that no piece shows; as long as a machine word holds the
number of stored bytes none is refused, and a call that fails leaves the table as it was.
-/

namespace Redline

def sum? (a b : Nat) : Option Nat :=
  if maxOffset < a + b then none else some (a + b)

theorem sum?_eq {a b : Nat} (h : a + b ≤ maxOffset) : sum? a b = some (a + b) :=
  if_neg (Nat.not_lt_of_le h)

theorem sum?_eq_none {a b : Nat} (h : maxOffset < a + b) : sum? a b = none :=
  if_pos h

namespace Piece

/-- The index of the piece that a position belongs to, and the position in it.  A position between
two pieces belongs to the left one. -/
def locate : Nat → List Piece → Nat × Nat
  | _, [] => (0, 0)
  | position, p :: rest =>
    if position ≤ p.length then (0, position)
    else ((locate (position - p.length) rest).1 + 1, (locate (position - p.length) rest).2)

/-- The index of the piece that ends where a new one would be put. -/
def previousIndex? (pieces : List Piece) (index offset : Nat) : Option Nat :=
  if index = pieces.length ∨ offset = 0 then difference? index 1
  else if pieces[index]?.map length = some offset then some index
  else none

def splice (pieces : List Piece) (first stop : Nat) (others : List Piece) : List Piece :=
  pieces.take first ++ others ++ pieces.drop stop

def extended? (new : Piece) (pieces : List Piece) (index offset : Nat) : Option (List Piece) := do
  let previous ← previousIndex? pieces index offset
  let p ← pieces[previous]?
  if p.continuedBy new then some (splice pieces previous (previous + 1) [{ p with stop := new.stop }])
  else none

def putAt? (new : Piece) (pieces : List Piece) (index offset : Nat) : Option (List Piece) :=
  match extended? new pieces index offset, pieces[index]? with
  | some extended, _ => some extended
  | none, none => some (pieces ++ [new])
  | none, some p =>
    if offset = 0 then some (splice pieces index index [new])
    else if offset = p.length then some (splice pieces (index + 1) (index + 1) [new])
    else
      (sum? p.start offset).map fun cut =>
        splice pieces index (index + 1) [{ p with stop := cut }, new, { p with start := cut }]

def put? (new : Piece) (position : Nat) (pieces : List Piece) : Option (List Piece) :=
  putAt? new pieces (locate position pieces).1 (locate position pieces).2

variable {p new : Piece} {front behind pieces : List Piece} {position offset : Nat}

theorem splice_piece (front behind others : List Piece) :
    splice (front ++ p :: behind) front.length (front.length + 1) others =
      front ++ others ++ behind := by
  simp [splice]

theorem splice_nothing (front behind others : List Piece) :
    splice (front ++ behind) front.length front.length others = front ++ others ++ behind := by
  simp [splice]

/-- Where a position lies that belongs to a piece. -/
structure IsPlace (position : Nat) (front : List Piece) (p : Piece) (offset : Nat) : Prop where
  position_eq : position = total front + offset
  offset_le : offset ≤ p.length
  pos_of_front : front ≠ [] → 0 < offset

theorem exists_isPlace (hpieces : ∀ p ∈ pieces, 0 < p.length) (hne : pieces ≠ [])
    (hposition : position ≤ total pieces) :
    ∃ front p behind offset, pieces = front ++ p :: behind ∧ IsPlace position front p offset ∧
      locate position pieces = (front.length, offset) := by
  induction pieces generalizing position with
  | nil => exact absurd rfl hne
  | cons p rest ih =>
    by_cases hhere : position ≤ p.length
    · refine ⟨[], p, rest, position, rfl, ⟨(Nat.zero_add _).symm, hhere, fun h => absurd rfl h⟩, ?_⟩
      rw [locate, if_pos hhere]
      rfl
    · rw [total] at hposition
      have hrest : rest ≠ [] := by
        rintro rfl
        rw [total] at hposition
        omega
      have hbehind : position - p.length ≤ total rest := by omega
      obtain ⟨front, q, behind, offset, rfl, hplace, hlocate⟩ :=
        ih (fun q hq => hpieces q (List.mem_cons_of_mem _ hq)) hrest hbehind
      have hposition_eq := hplace.position_eq
      refine ⟨p :: front, q, behind, offset, rfl, ⟨?_, hplace.offset_le, fun _ => ?_⟩, ?_⟩
      · rw [total]
        omega
      · by_cases hfront : front = []
        · rw [hfront, total] at hposition_eq
          omega
        · exact hplace.pos_of_front hfront
      · rw [locate, if_neg hhere, hlocate]
        rfl

theorem insertAt_of_isPlace (hplace : IsPlace position front p offset) (behind : List Piece) :
    insertAt new position (front ++ p :: behind) = front ++ insertAt new offset (p :: behind) := by
  induction front generalizing position with
  | nil =>
    have hposition := hplace.position_eq
    rw [total, Nat.zero_add] at hposition
    rw [List.nil_append, List.nil_append, hposition]
  | cons q front ih =>
    have hposition := hplace.position_eq
    have hpos := hplace.pos_of_front (List.cons_ne_nil q front)
    rw [total] at hposition
    rw [List.cons_append, insertAt, if_neg (by omega), if_neg (by omega), if_neg (by omega),
      ih ⟨by omega, hplace.offset_le, fun _ => hpos⟩, List.cons_append]

theorem previousIndex?_of_isPlace (hplace : IsPlace position front p offset) :
    previousIndex? (front ++ p :: behind) front.length offset =
      if offset = p.length ∧ offset ≠ 0 then some front.length else none := by
  have hindex : front.length ≠ (front ++ p :: behind).length := by simp
  have hlength : (front ++ p :: behind)[front.length]?.map length = some p.length := by simp
  unfold previousIndex?
  rw [hlength]
  by_cases hzero : offset = 0
  · have hfront : front = [] := Decidable.byContradiction fun hne => by
      have hpos := hplace.pos_of_front hne
      omega
    rw [if_pos (.inr hzero), if_neg (fun h => h.2 hzero), hfront]
    rfl
  · rw [if_neg (not_or.mpr ⟨hindex, hzero⟩)]
    by_cases hend : offset = p.length
    · rw [if_pos (congrArg some hend.symm), if_pos ⟨hend, hzero⟩]
    · rw [if_neg (fun h => hend (Option.some_inj.mp h).symm), if_neg (fun h => hend h.1)]

theorem extended?_of_isPlace (hplace : IsPlace position front p offset) :
    extended? new (front ++ p :: behind) front.length offset =
      if (offset = p.length ∧ offset ≠ 0) ∧ p.continuedBy new then
        some (front ++ { p with stop := new.stop } :: behind)
      else none := by
  have hget : (front ++ p :: behind)[front.length]? = some p := by simp
  rw [extended?, previousIndex?_of_isPlace hplace]
  by_cases hend : offset = p.length ∧ offset ≠ 0
  · rw [if_pos hend]
    simp only [Option.bind_eq_bind, Option.bind_some, hget, splice_piece, List.append_assoc]
    by_cases hcontinued : p.continuedBy new
    · rw [if_pos hcontinued, if_pos ⟨hend, hcontinued⟩]
      rfl
    · rw [if_neg hcontinued, if_neg fun h => hcontinued h.2]
  · rw [if_neg hend, if_neg fun h => hend h.1]
    rfl

theorem putAt?_of_isPlace (hplace : IsPlace position front p offset)
    (hword : p.start + offset ≤ maxOffset) :
    putAt? new (front ++ p :: behind) front.length offset =
      some (front ++ insertAt new offset (p :: behind)) := by
  have hget : (front ++ p :: behind)[front.length]? = some p := by simp
  have hle := hplace.offset_le
  rw [putAt?, extended?_of_isPlace hplace, hget, insertAt]
  by_cases hzero : offset = 0
  · rw [if_neg fun h => h.1.2 hzero, if_pos hzero]
    dsimp only
    rw [if_pos hzero, splice_nothing, List.append_assoc]
    rfl
  rw [if_neg hzero]
  by_cases hend : offset = p.length
  · rw [if_neg (show ¬offset < p.length by omega), if_pos hend]
    by_cases hcontinued : p.continuedBy new
    · rw [if_pos ⟨⟨hend, hzero⟩, hcontinued⟩, if_pos hcontinued]
    · have hbehind := splice_nothing (front ++ [p]) behind [new]
      rw [List.length_append, List.append_assoc, List.append_assoc, List.append_assoc] at hbehind
      rw [if_neg fun h => hcontinued h.2, if_neg hcontinued]
      dsimp only
      rw [if_neg hzero, if_pos hend]
      exact congrArg some hbehind
  · rw [if_neg fun h => hend h.1.1, if_pos (show offset < p.length by omega)]
    dsimp only
    rw [if_neg hzero, if_neg hend, sum?_eq hword, Option.map_some, splice_piece, List.append_assoc]
    rfl

theorem put?_eq (hpieces : ∀ p ∈ pieces, p.start < p.stop ∧ p.stop ≤ maxOffset)
    (hposition : position ≤ total pieces) (new : Piece) :
    put? new position pieces = some (insertAt new position pieces) := by
  by_cases hne : pieces = []
  · rw [hne]
    rfl
  · obtain ⟨front, p, behind, offset, rfl, hplace, hlocate⟩ :=
      exists_isPlace (fun p hp => Nat.sub_pos_of_lt (hpieces p hp).1) hne hposition
    obtain ⟨hpos, hstop⟩ := hpieces p (by simp)
    have hle := hplace.offset_le
    unfold length at hle
    rw [put?, hlocate, insertAt_of_isPlace hplace]
    exact putAt?_of_isPlace hplace (by omega)

end Piece

namespace PieceTable

/-- Calls that change a table; one that fails leaves the table that it has got to. -/
abbrev InPlace := EStateM Fault PieceTable

namespace InPlace

def orOverflow (x : Option α) : InPlace α := fun t =>
  match x with
  | some a => .ok a t
  | none => .error .overflow t

def check (position : Nat) : InPlace Unit := fun t =>
  match t.checkPosition position with
  | .ok _ => .ok () t
  | .error fault => .error fault t

/-- The text is stored before the place of its piece is looked for. -/
def insert (position : Nat) (bytes : Bytes) : InPlace Unit := do
  check position
  if bytes.isEmpty then return
  let start := (← get).added.length
  let stop ← orOverflow (sum? start bytes.length)
  modify fun t => { t with added := t.added ++ bytes }
  let pieces ← orOverflow (Piece.put? ⟨.added, start, stop⟩ position (← get).pieces)
  modify fun t => { t with pieces }

def delete (position count : Nat) : InPlace Unit := do
  check (← orOverflow (sum? position count))
  modify (·.deleted position count)

def call : Edit → InPlace Unit
  | .insert position bytes => insert position bytes
  | .delete position count => delete position count
  | .reset bytes => set (ofBytes bytes)

def runCalls (t : PieceTable) (edits : List Edit) : PieceTable :=
  edits.foldl (fun t e =>
    match (call e).run t with
    | .ok _ u => u
    | .error _ u => u) t

/-- What a call comes to that leaves the table alone if it fails. -/
def settled (t : PieceTable) : Except Fault PieceTable → EStateM.Result Fault PieceTable Unit
  | .ok u => .ok () u
  | .error fault => .error fault t

/-! ## Single calls -/

variable {t : PieceTable} {position count : Nat} {bytes : Bytes}

theorem run_check (position : Nat) :
    (check position).run t = settled t ((t.checkPosition position).map fun _ => t) := by
  change check position t = _
  unfold check
  cases t.checkPosition position <;> rfl

theorem run_orOverflow_some {a : α} : (orOverflow (some a)).run t = .ok a t := rfl

theorem run_orOverflow_none : (orOverflow (none : Option α)).run t = .error .overflow t := rfl

theorem put?_of_wellFormed (h : t.WellFormed) (hinitial : t.initial.length ≤ maxOffset)
    (hadded : t.added.length ≤ maxOffset) (hposition : position ≤ t.length) (new : Piece) :
    Piece.put? new position t.pieces = some (Piece.insertAt new position t.pieces) := by
  refine Piece.put?_eq (fun p hp => ?_) hposition new
  obtain ⟨hpos, hstop⟩ := h p hp
  have hstore : (t.store p.store).length ≤ maxOffset := by
    cases p.store
    · exact hinitial
    · exact hadded
  exact ⟨hpos, Nat.le_trans hstop hstore⟩

/-- No sum of an insertion is refused that keeps the stored text within a machine word. -/
theorem run_insert (h : t.WellFormed) (hinitial : t.initial.length ≤ maxOffset)
    (hadded : t.added.length + bytes.length ≤ maxOffset) (position : Nat) :
    (insert position bytes).run t = settled t (t.insert position bytes) := by
  rw [insert, EStateM.run_bind, run_check, PieceTable.insert]
  cases hcheck : t.checkPosition position with
  | error fault => rfl
  | ok _ =>
    have hposition : position ≤ t.length := by
      unfold checkPosition at hcheck
      split at hcheck
      · assumption
      · cases hcheck
    have hput := put?_of_wellFormed h hinitial (by omega) hposition
      ⟨.added, t.added.length, t.added.length + bytes.length⟩
    change _ = EStateM.Result.ok () (t.inserted position bytes)
    dsimp only [settled, Except.map]
    unfold inserted
    split
    · rfl
    · simp only [EStateM.run_bind, EStateM.run_get, EStateM.run_modify, sum?_eq hadded,
        run_orOverflow_some, hput]

theorem run_delete (position count : Nat) :
    (delete position count).run t = settled t (t.delete position count) := by
  rw [delete, EStateM.run_bind, PieceTable.delete, checkRange]
  by_cases hword : maxOffset < position + count
  · rw [sum?_eq_none hword, run_orOverflow_none, if_pos hword]
    rfl
  · rw [sum?_eq (Nat.le_of_not_lt hword), run_orOverflow_some, if_neg hword]
    dsimp only
    rw [EStateM.run_bind, run_check]
    cases t.checkPosition (position + count) <;> rfl

/-! ## Runs -/

def stored : List Edit → Nat
  | [] => 0
  | .insert _ bytes :: edits | .reset bytes :: edits => bytes.length + stored edits
  | .delete .. :: edits => stored edits

theorem run_call {e : Edit} (h : t.WellFormed)
    (hfits : t.initial.length + t.added.length + stored [e] ≤ maxOffset) :
    (call e).run t = settled t (e.apply t) := by
  cases e with
  | insert position bytes =>
    rw [stored, stored] at hfits
    exact run_insert h (by omega) (by omega) position
  | delete position count => exact run_delete position count
  | reset bytes => rfl

theorem stored_apply {u : PieceTable} {e : Edit} (hu : e.apply t = .ok u) :
    u.initial.length + u.added.length ≤ t.initial.length + t.added.length + stored [e] := by
  cases e with
  | insert position bytes =>
    obtain ⟨-, rfl⟩ := insert_eq_ok_iff.mp hu
    rw [stored, stored, inserted]
    split
    · omega
    · dsimp only
      rw [List.length_append]
      omega
  | delete position count =>
    obtain ⟨-, -, rfl⟩ := delete_eq_ok_iff.mp hu
    exact Nat.le_refl _
  | reset bytes =>
    cases hu
    rw [stored, stored]
    exact Nat.le_add_left _ _

theorem stored_cons (e : Edit) (edits : List Edit) :
    stored (e :: edits) = stored [e] + stored edits := by
  cases e <;> simp [stored]

theorem run_cons (t : PieceTable) (e : Edit) (edits : List Edit) :
    t.run (e :: edits) = (t.run [e]).run edits := by
  rw [PieceTable.run, PieceTable.run]
  cases e.apply t <;> rfl

theorem stored_run_singleton (t : PieceTable) (e : Edit) :
    (t.run [e]).initial.length + (t.run [e]).added.length ≤
      t.initial.length + t.added.length + stored [e] := by
  rw [PieceTable.run]
  cases hu : e.apply t with
  | ok u => exact stored_apply hu
  | error fault => exact Nat.le_add_right _ _

theorem runCalls_cons (h : t.WellFormed) {e : Edit}
    (hfits : t.initial.length + t.added.length + stored [e] ≤ maxOffset) (edits : List Edit) :
    runCalls t (e :: edits) = runCalls (t.run [e]) edits := by
  rw [runCalls, List.foldl_cons, run_call h hfits, PieceTable.run]
  cases e.apply t <;> rfl

theorem runCalls_of_wellFormed (h : t.WellFormed) (edits : List Edit)
    (hfits : t.initial.length + t.added.length + stored edits ≤ maxOffset) :
    runCalls t edits = t.run edits ∧
      (t.run edits).initial.length + (t.run edits).added.length ≤
        t.initial.length + t.added.length + stored edits := by
  induction edits generalizing t with
  | nil => exact ⟨rfl, Nat.le_refl _⟩
  | cons e edits ih =>
    rw [stored_cons] at hfits ⊢
    have hstep := stored_run_singleton t e
    obtain ⟨hrun, hstored⟩ := ih (run_of_wellFormed h [e]).1 (by omega)
    rw [run_cons t e edits, runCalls_cons h (by omega)]
    exact ⟨hrun, by omega⟩

/-- Calls that fail leave the table alone, as long as no more bytes are stored than a machine word
counts: after each run the table is the one that the calls without an effect are left out of. -/
theorem runCalls_eq_run (init : Bytes) (edits : List Edit) (e : Edit)
    (hfits : init.length + stored edits + stored [e] ≤ maxOffset) :
    let t := runCalls (ofBytes init) edits
    t = (ofBytes init).run edits ∧ (call e).run t = settled t (e.apply t) := by
  obtain ⟨hrun, hstored⟩ := runCalls_of_wellFormed (.ofBytes init) edits (by
    dsimp only [ofBytes, List.length_nil]
    omega)
  dsimp only [ofBytes, List.length_nil] at hstored
  dsimp only
  rw [hrun]
  exact ⟨rfl, run_call (run_of_wellFormed (.ofBytes init) edits).1 (by
    dsimp only [ofBytes]
    omega)⟩

end InPlace

end PieceTable

end Redline

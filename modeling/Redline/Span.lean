/-!
# Half-open ranges of positions
-/

namespace Redline

/-- The positions from `start` up to, and without, `stop`. -/
structure Span where
  start : Nat
  stop : Nat
  deriving DecidableEq, Inhabited, Repr

namespace Span

def length (s : Span) : Nat :=
  s.stop - s.start

def isEmpty (s : Span) : Bool :=
  s.stop ≤ s.start

def slice (s : Span) (xs : List α) : List α :=
  (xs.drop s.start).take s.length

/-- The span goes forward, and a list of some length has all of its positions. -/
structure Inside (s : Span) (length : Nat) : Prop where
  start_le_stop : s.start ≤ s.stop
  stop_le : s.stop ≤ length

instance (s : Span) (length : Nat) : Decidable (s.Inside length) :=
  decidable_of_iff (s.start ≤ s.stop ∧ s.stop ≤ length)
    ⟨fun h => ⟨h.1, h.2⟩, fun h => ⟨h.start_le_stop, h.stop_le⟩⟩

theorem isEmpty_iff (s : Span) : s.isEmpty = true ↔ s.length = 0 := by
  simp [isEmpty, length]
  omega

theorem start_le_stop_of_not_isEmpty {s : Span} (h : ¬s.isEmpty) : s.start ≤ s.stop := by
  simp [isEmpty] at h
  omega

theorem length_slice (s : Span) (xs : List α) (h : s.stop ≤ xs.length) :
    (s.slice xs).length = s.length := by
  simp [slice, length]
  omega

end Span

end Redline

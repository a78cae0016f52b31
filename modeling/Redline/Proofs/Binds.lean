/-!
# Steps that may fail

A run of steps ends well when all of them do, and badly at the first that does not.
-/

namespace Redline

theorem exists_of_bind_eq_ok {x : Except ε α} {f : α → Except ε β} {b : β}
    (h : (x >>= f) = .ok b) : ∃ a, x = .ok a ∧ f a = .ok b := by
  cases x with
  | error e => cases h
  | ok a => exact ⟨a, rfl, h⟩

theorem error_or_exists_of_bind {x : Except ε α} {f : α → Except ε β} {cause : ε}
    (h : (x >>= f) = .error cause) : x = .error cause ∨ ∃ a, x = .ok a ∧ f a = .error cause := by
  cases x with
  | error e =>
    cases h
    exact .inl rfl
  | ok a => exact .inr ⟨a, rfl, h⟩

theorem exists_of_mapM_eq_error {f : α → Except ε β} {xs : List α} {cause : ε}
    (h : xs.mapM f = .error cause) : ∃ x ∈ xs, f x = .error cause := by
  induction xs with
  | nil => cases h
  | cons x xs ih =>
    rw [List.mapM_cons] at h
    obtain hx | ⟨b, -, h⟩ := error_or_exists_of_bind h
    · exact ⟨x, List.mem_cons_self, hx⟩
    · obtain hxs | ⟨bs, -, h⟩ := error_or_exists_of_bind h
      · obtain ⟨y, hy, hfail⟩ := ih hxs
        exact ⟨y, List.mem_cons_of_mem x hy, hfail⟩
      · cases h

/-- A step that fails with `cause` exactly under a condition, and gives `a` otherwise. -/
structure FailsIff (refused : Prop) (cause : ε) (x : Except ε α) (a : α) : Prop where
  error : refused → x = .error cause
  ok : ¬refused → x = .ok a

namespace FailsIff

variable {p q : Prop} {cause : ε} {x : Except ε α} {a : α}

theorem error_iff (h : FailsIff p cause x a) : x = .error cause ↔ p := by
  constructor
  · intro hx
    by_cases hp : p
    · exact hp
    · rw [h.ok hp] at hx
      cases hx
  · exact h.error

theorem bind {f : α → Except ε β} {b : β} (h : FailsIff p cause x a)
    (hf : FailsIff q cause (f a) b) : FailsIff (p ∨ q) cause (x >>= f) b := by
  constructor
  · intro hpq
    by_cases hp : p
    · rw [h.error hp]
      rfl
    · rw [h.ok hp]
      exact hf.error (hpq.resolve_left hp)
  · intro hpq
    rw [h.ok fun hp => hpq (.inl hp)]
    exact hf.ok fun hq => hpq (.inr hq)

theorem map (h : FailsIff p cause x a) (f : α → β) : FailsIff p cause (x.map f) (f a) := by
  constructor
  · intro hp
    rw [h.error hp]
    rfl
  · intro hp
    rw [h.ok hp]
    rfl

theorem guard [Decidable p] (h : ¬p → FailsIff q cause x a) :
    FailsIff (p ∨ q) cause (if p then .error cause else x) a := by
  by_cases hp : p
  · rw [if_pos hp]
    exact ⟨fun _ => rfl, fun hnot => absurd (.inl hp) hnot⟩
  · rw [if_neg hp, or_iff_right hp]
    exact h hp

end FailsIff

theorem eq_ok_of_toOption {x : Except ε α} {a : α} (h : x.toOption = some a) : x = .ok a := by
  cases x with
  | error e => cases h
  | ok b =>
    cases h
    rfl

end Redline

import Redline.Editor.Addressing
/-!
# What addresses resolve to
-/

namespace Redline

namespace Editor

variable {e : Editor}

theorem resolve_eq_ok_iff {a : Address} {line : Nat} :
    e.resolve a = .ok line ↔
      ∃ base, e.resolveBase a.base = .ok base ∧ (base : Int) + a.offset = line ∧
        line ≤ e.lineCount := by
  unfold resolve
  cases hbase : e.resolveBase a.base with
  | error cause =>
    constructor
    · intro h
      cases h
    · rintro ⟨base, h, -⟩
      cases h
  | ok base =>
    change (if 0 ≤ (base : Int) + a.offset ∧ (base : Int) + a.offset ≤ e.lineCount then
      Except.ok ((base : Int) + a.offset).toNat else Except.error EditError.invalidAddress) =
        .ok line ↔ _
    constructor
    · intro h
      split at h
      · cases h
        exact ⟨base, rfl, by omega, by omega⟩
      · cases h
    · rintro ⟨base', h, hline, hle⟩
      cases h
      rw [if_pos (by omega), hline, Int.toNat_natCast]

theorem resolve?_le {a : Option Address} {line : Nat} (h : e.resolve? a = .ok line) :
    line ≤ e.lineCount := by
  cases a with
  | none => cases h
  | some a =>
    obtain ⟨-, -, -, hle⟩ := resolve_eq_ok_iff.mp h
    exact hle

theorem resolveRange_eq_ok_iff {c : Command} {first last : Nat} :
    e.resolveRange c = .ok (first, last) ↔
      e.resolve? c.first = .ok first ∧ e.resolve? c.last = .ok last ∧ 0 < first ∧
        first ≤ last := by
  unfold resolveRange
  cases hfirst : e.resolve? c.first with
  | error cause =>
    constructor
    · intro h
      cases h
    · rintro ⟨h, -⟩
      cases h
  | ok s =>
    cases hlast : e.resolve? c.last with
    | error cause =>
      constructor
      · intro h
        cases h
      · rintro ⟨-, h, -⟩
        cases h
    | ok t =>
      change (if s = 0 ∨ t < s then Except.error EditError.invalidAddress else
        Except.ok (s, t)) = .ok (first, last) ↔ _
      constructor
      · intro h
        split at h
        · cases h
        · cases h
          exact ⟨rfl, rfl, by omega, by omega⟩
      · rintro ⟨hs, ht, hpos, hle⟩
        cases hs
        cases ht
        rw [if_neg (by omega)]

/-- A range that resolves starts behind some number of lines, and ends in the document. -/
theorem exists_of_resolveRange {c : Command} {first last : Nat}
    (h : e.resolveRange c = .ok (first, last)) :
    ∃ k, first = k + 1 ∧ k < last ∧ last ≤ e.lineCount := by
  obtain ⟨-, hlast, hpos, hle⟩ := resolveRange_eq_ok_iff.mp h
  exact ⟨first - 1, by omega, by omega, resolve?_le hlast⟩

theorem resolveDestination_eq_ok_iff {a : Option Address} {line : Nat} :
    e.resolveDestination a = .ok line ↔ e.resolve? a = .ok line := by
  unfold resolveDestination
  cases e.resolve? a with
  | ok line => exact Iff.rfl
  | error cause =>
    constructor
    · intro h
      split at h <;> cases h
    · intro h
      cases h

end Editor

end Redline

import Redline.Editor.Basic
/-!
# From addresses to lines

An address resolves to a line from zero to the number of lines, or fails; sums
never wrap.
-/

namespace Redline

namespace Editor

def resolveBase (e : Editor) : Address.Base → Except EditError Nat
  | .current | .implied => .ok e.currentLine
  | .last => .ok e.lineCount
  | .number digits =>
    match Text.readWord? digits.toList with
    | some n => .ok n
    | none => .error .invalidAddress
  | .mark _ => .error .unsupportedMark
  | .forward _ | .backward _ => .error .unsupportedSearch

def resolve (e : Editor) (a : Address) : Except EditError Nat := do
  let base ← e.resolveBase a.base
  let line : Int := base + a.offset
  if 0 ≤ line ∧ line ≤ e.lineCount then return line.toNat else throw .invalidAddress

def resolve? (e : Editor) : Option Address → Except EditError Nat
  | some a => e.resolve a
  | none => .error .invalidAddress

def resolveDestination (e : Editor) (a : Option Address) : Except EditError Nat :=
  match e.resolve? a with
  | .error .invalidAddress => .error .invalidDestination
  | result => result

def resolveRange (e : Editor) (c : Command) : Except EditError (Nat × Nat) := do
  let first ← e.resolve? c.first
  let last ← e.resolve? c.last
  if first = 0 ∨ last < first then throw .invalidAddress
  return (first, last)

end Editor

end Redline

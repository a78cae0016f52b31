/-!
# Line addresses

An address is a base and a signed offset.  The text of a line number is kept as
written; reading it is part of resolving the address.
-/

namespace Redline

inductive Address.Base where
  /-- The current line, written `.`. -/
  | current
  /-- The last line, written `$`. -/
  | last
  | number (digits : String)
  /-- Nothing written before the offset: the current line. -/
  | implied
  | mark (name : String)
  | forward (pattern : String)
  | backward (pattern : String)
  deriving DecidableEq, Inhabited, Repr

structure Address where
  base : Address.Base
  offset : Int
  deriving DecidableEq, Inhabited, Repr

namespace Address

def current : Address :=
  ⟨.current, 0⟩

def last : Address :=
  ⟨.last, 0⟩

def line (n : Nat) : Address :=
  ⟨.number (toString n), 0⟩

/-- The greatest offset; the least one is one more below zero. -/
def maxOffset : Int := 0x7FFFFFFFFFFFFFFF

def minOffset : Int := -0x8000000000000000

end Address

end Redline

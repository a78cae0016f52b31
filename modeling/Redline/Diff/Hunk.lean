/-!
# Hunks

A comparison of two lists is a list of hunks: runs of elements that both lists
have, that only the new list has, or that only the old list has.
-/

namespace Redline

inductive HunkKind where
  | equal
  | insert
  | delete
  deriving DecidableEq, Inhabited, Repr

structure Hunk (α : Type) where
  kind : HunkKind
  values : List α
  deriving DecidableEq, Inhabited, Repr

namespace Hunk

def oldValues (h : Hunk α) : List α :=
  if h.kind = .insert then [] else h.values

def newValues (h : Hunk α) : List α :=
  if h.kind = .delete then [] else h.values

/-- The old and the new list that hunks make up. -/
def reconstruct (hunks : List (Hunk α)) : List α × List α :=
  (hunks.flatMap oldValues, hunks.flatMap newValues)

def hasChanges (hunks : List (Hunk α)) : Bool :=
  hunks.any (·.kind ≠ .equal)

end Hunk

end Redline

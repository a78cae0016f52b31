import Redline.Bytes
import Redline.Diff.Hunk
import Redline.Span
/-!
# Changes

A change replaces some old elements by some new ones; either side may be empty.
Changes are put into groups whose surroundings touch, and each group gets a
window of the old and of the new list.
-/

namespace Redline

structure Change where
  old : Span
  new : Span
  deriving DecidableEq, Inhabited, Repr

namespace Change

/-- The changes of hunks, both lists having been read up to some position.  A
deletion with an insertion directly behind it is one change. -/
def ofHunksFrom (oldStart newStart : Nat) : List (Hunk α) → List Change
  | [] => []
  | ⟨.delete, gone⟩ :: ⟨.insert, added⟩ :: rest =>
    ⟨⟨oldStart, oldStart + gone.length⟩, ⟨newStart, newStart + added.length⟩⟩ ::
      ofHunksFrom (oldStart + gone.length) (newStart + added.length) rest
  | ⟨.delete, gone⟩ :: rest =>
    ⟨⟨oldStart, oldStart + gone.length⟩, ⟨newStart, newStart⟩⟩ ::
      ofHunksFrom (oldStart + gone.length) newStart rest
  | ⟨.insert, added⟩ :: rest =>
    ⟨⟨oldStart, oldStart⟩, ⟨newStart, newStart + added.length⟩⟩ ::
      ofHunksFrom oldStart (newStart + added.length) rest
  | ⟨.equal, kept⟩ :: rest =>
    ofHunksFrom (oldStart + kept.length) (newStart + kept.length) rest

def ofHunks (hunks : List (Hunk α)) : List Change :=
  ofHunksFrom 0 0 hunks

/-- Parts of a list of changes; neighbours with at most twice the context between
them stay together.  Where `doubleOverflows`, a machine word does not hold the double. -/
def groups (context : Nat) : List Change → List (List Change)
  | [] => []
  | c :: rest =>
    match groups context rest with
    | (next :: group) :: more =>
      if 2 * context < next.old.start - c.old.stop then [c] :: (next :: group) :: more
      else (c :: next :: group) :: more
    | _ => [[c]]

/-- The double of the context is taken where there are neighbours to be looked at. -/
def doubleOverflows (context : Nat) (changes : List Change) : Bool :=
  2 ≤ changes.length && maxOffset < 2 * context

theorem doubleOverflows_eq_false {context : Nat} (h : context < 0x8000000000000000)
    (changes : List Change) : doubleOverflows context changes = false := by
  have hword : ¬maxOffset < 2 * context := by
    rw [maxOffset]
    omega
  rw [doubleOverflows, decide_eq_false hword, Bool.and_false]

end Change

/-- The part of both lists that a group of changes is shown in. -/
structure Window where
  old : Span
  new : Span
  deriving DecidableEq, Inhabited, Repr

/-- The window from a first to a last change, with as many elements around them
as the old list has, at most `context` on either side. -/
def Window.between (context oldLength : Nat) (first last : Change) : Window :=
  let before := min context first.old.start
  let after := min context (oldLength - last.old.stop)
  ⟨⟨first.old.start - before, last.old.stop + after⟩,
   ⟨first.new.start - before, last.new.stop + after⟩⟩

def Window.ofGroup (context oldLength : Nat) (group : List Change) : Window :=
  match group.head?, group.getLast? with
  | some first, some last => .between context oldLength first last
  | _, _ => ⟨⟨0, 0⟩, ⟨0, 0⟩⟩

/-- Two lists with the changes between them. -/
structure Comparison (α : Type) where
  old : List α
  new : List α
  changes : List Change
  deriving DecidableEq, Inhabited, Repr

def Comparison.ofHunks (hunks : List (Hunk α)) : Comparison α where
  old := (Hunk.reconstruct hunks).1
  new := (Hunk.reconstruct hunks).2
  changes := Change.ofHunks hunks

end Redline

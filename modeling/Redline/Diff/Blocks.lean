import Redline.Diff.Hunk
import Redline.Diff.RunTable
/-!
# Block comparison

The longest run that two lists have in common is kept, and the parts before and
behind it are compared in the same way.  Parts that wait for their turn stand on
a list of pending steps, and all searches share one table.
-/

namespace Redline

/-- A hunk as ranges of positions in both lists. -/
structure Block where
  kind : HunkKind
  old : Span
  new : Span
  deriving DecidableEq, Inhabited, Repr

namespace Block

inductive Step where
  | split (old new : Span)
  | emit (block : Block)

/-- Bounds how many steps a pending one can still lead to. -/
def Step.weight : Step → Nat
  | split old new => 2 * (old.length + new.length) + 1
  | emit _ => 1

/-- Replaces the comparison of two parts by three steps around a common run. -/
def Step.around (old new : Span) (r : Run) : List Step :=
  [.split ⟨old.start, r.oldStart⟩ ⟨new.start, r.newStart⟩,
   .emit ⟨.equal, ⟨r.oldStart, r.oldStart + r.length⟩, ⟨r.newStart, r.newStart + r.length⟩⟩,
   .split ⟨r.oldStart + r.length, old.stop⟩ ⟨r.newStart + r.length, new.stop⟩]

def totalWeight : List Step → Nat
  | [] => 0
  | s :: pending => s.weight + totalWeight pending

theorem totalWeight_append (a b : List Step) :
    totalWeight (a ++ b) = totalWeight a + totalWeight b := by
  induction a with
  | nil => simp [totalWeight]
  | cons s a ih =>
    simp only [List.cons_append, totalWeight, ih]
    omega

theorem totalWeight_around_lt {old new : Span} {r : Run} (h : r.Within old new)
    (hr : r.length ≠ 0) :
    totalWeight (Step.around old new r) < (Step.split old new).weight := by
  simp only [Run.Within] at h
  simp only [totalWeight, Step.around, Step.weight, Span.length]
  omega

def ofSteps (t : RunTable) (m : RunMemo) : List Step → List Block
  | [] => []
  | .emit block :: pending => block :: ofSteps t m pending
  | .split old new :: pending =>
    if hold : old.isEmpty then
      if new.isEmpty then ofSteps t m pending
      else ⟨.insert, old, new⟩ :: ofSteps t m pending
    else if hnew : new.isEmpty then ⟨.delete, old, new⟩ :: ofSteps t m pending
    else
      let found := t.longestCommonRun m old new
      if hrun : found.1.length = 0 then
        ⟨.delete, old, ⟨new.start, new.start⟩⟩ :: ⟨.insert, ⟨old.stop, old.stop⟩, new⟩ ::
          ofSteps t found.2 pending
      else
        have := totalWeight_around_lt
          (t.longestCommonRun_within m (Span.start_le_stop_of_not_isEmpty hold)
            (Span.start_le_stop_of_not_isEmpty hnew)) hrun
        ofSteps t found.2 (Step.around old new found.1 ++ pending)
  termination_by pending => totalWeight pending
  decreasing_by
    all_goals simp only [totalWeight, totalWeight_append, Step.weight] at *
    all_goals omega

def ofKeys [BEq κ] [Hashable κ] (old new : List κ) : List Block :=
  ofSteps (.ofKeys old new) (.fresh old.length)
    [.split ⟨0, old.length⟩ ⟨0, new.length⟩]

def toHunk (old new : List α) (b : Block) : Hunk α :=
  match b.kind with
  | .delete => ⟨.delete, b.old.slice old⟩
  | kind => ⟨kind, b.new.slice new⟩

end Block

namespace Hunk

def diffBy [BEq κ] [Hashable κ] (key : α → κ) (old new : List α) : List (Hunk α) :=
  (Block.ofKeys (old.map key) (new.map key)).map (Block.toHunk old new)

def diff [BEq α] [Hashable α] (old new : List α) : List (Hunk α) :=
  diffBy id old new

end Hunk

end Redline

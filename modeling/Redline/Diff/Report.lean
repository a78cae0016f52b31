import Redline.Diff.Blocks
import Redline.Diff.Context
import Redline.Diff.EdScript
import Redline.Diff.Normal
import Redline.Diff.Unified
/-!
# Reports on two files
-/

namespace Redline

namespace Report

inductive Format where
  | normal
  | edScript
  | unified
  | context
  deriving DecidableEq, Inhabited, Repr

def Format.hasContext : Format → Bool
  | normal | edScript => false
  | unified | context => true

structure Options where
  format : Format
  /-- How many unchanged lines are shown around a change. -/
  context : Nat
  /-- Whether blanks at the end of a line do not count. -/
  ignoreTrailingBlanks : Bool
  deriving DecidableEq, Repr

def defaultContext : Nat := 3

def Options.ordinary : Options :=
  ⟨.normal, defaultContext, false⟩

/-- Space, tab, line feed, form feed and carriage return. -/
def isTrailingBlank (b : UInt8) : Bool :=
  b = 32 || b = 9 || b = 10 || b = 12 || b = 13

def withoutTrailingBlanks (line : Bytes) : Bytes :=
  (line.reverse.dropWhile isTrailingBlank).reverse

def compare (options : Options) (old new : List Bytes) : List (Hunk Bytes) :=
  if options.ignoreTrailingBlanks then Hunk.diffBy withoutTrailingBlanks old new
  else Hunk.diff old new

def rows (options : Options) (hunks : List (Hunk Bytes)) (oldHead newHead : Heading) :
    List Bytes :=
  let d := Comparison.ofHunks hunks
  match options.format with
  | .normal => Normal.rows d
  | .edScript => EdScript.rows d
  | .unified => Unified.rows d oldHead newHead options.context
  | .context => Context.rows d oldHead newHead options.context

/-- The printed report, without a newline at its end. -/
def render (options : Options) (hunks : List (Hunk Bytes)) (oldHead newHead : Heading) : Bytes :=
  Bytes.joinLines (rows options hunks oldHead newHead)

/-- Only the listings with context put changes into groups. -/
def doubleOverflows (options : Options) (hunks : List (Hunk Bytes)) : Bool :=
  options.format.hasContext && Change.doubleOverflows options.context (Change.ofHunks hunks)

/-- The printed report, if no machine word overflows on the way to it. -/
def render? (options : Options) (hunks : List (Hunk Bytes)) (oldHead newHead : Heading) :
    Option Bytes :=
  if doubleOverflows options hunks then none else some (render options hunks oldHead newHead)

end Report

end Redline

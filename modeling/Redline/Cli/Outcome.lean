import Redline.Bytes
import Redline.Cli.Arguments
import Redline.Files.Tree
/-!
# What a run of a program leaves behind
-/

namespace Redline.Cli

structure Outcome where
  code : Nat
  output : Bytes
  /-- A message about a failure; empty if there is none. -/
  complaint : String
  files : FileTree
  deriving Inhabited, Repr

namespace Outcome

/-- A run that ends with its arguments: a request for help, or wrong use. -/
def ofStop (files : FileTree) : Stop → Outcome
  | .help => ⟨0, [], "", files⟩
  | .misuse => ⟨2, [], "", files⟩

end Outcome

end Redline.Cli

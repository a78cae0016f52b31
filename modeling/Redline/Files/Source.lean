import Redline.Files.Tree
/-!
# Opened files

The content of a file that was opened for reading.  It stays what it was when
the file at the path is replaced.
-/

namespace Redline

inductive Source where
  /-- Mapped into memory, which asks for at least one byte. -/
  | mapped (content : Bytes)
  | owned (content : Bytes)
  deriving DecidableEq, Inhabited, Repr

namespace Source

def ofContent (content : Bytes) : Source :=
  if content.isEmpty then .owned content else .mapped content

def bytes : Source → Bytes
  | mapped content => content
  | owned content => content

def isMapped : Source → Bool
  | mapped _ => true
  | owned _ => false

@[simp] theorem bytes_ofContent (content : Bytes) : (ofContent content).bytes = content := by
  unfold ofContent
  split <;> rfl

end Source

/-- Opens what is at a path.  Also a directory can be opened, but it is not mapped then. -/
def FileTree.openSource (t : FileTree) (p : Path) : Except FileError Source :=
  match t.read p with
  | .ok content => .ok (.ofContent content)
  | .error .isDirectory => .error .unmappable
  | .error e => .error e

theorem FileTree.openSource_of_read {t : FileTree} {p : Path} {content : Bytes}
    (h : t.read p = .ok content) : t.openSource p = .ok (.ofContent content) := by
  rw [openSource, h]

theorem FileTree.read_of_openSource {t : FileTree} {p : Path} {source : Source}
    (h : t.openSource p = .ok source) :
    ∃ content, t.read p = .ok content ∧ source = .ofContent content := by
  unfold openSource at h
  split at h
  · rename_i content hread
    cases h
    exact ⟨content, hread, rfl⟩
  · cases h
  · cases h

end Redline

import Redline.Bytes
/-!
# Piece tables

A document is a list of pieces, each a range of one of two stores: the initial
text, which never changes, and the added text, which only grows at its end.
Insertion splits the piece that holds the position, or makes the piece to the
left of it longer when that piece ends where the added text ended; deletion
shortens, splits or drops pieces.  A call that fails changes nothing.
-/

namespace Redline

inductive Store where
  | initial
  | added
  deriving DecidableEq, Inhabited, Repr

/-- The bytes of a store from `start` up to, and without, `stop`. -/
structure Piece where
  store : Store
  start : Nat
  stop : Nat
  deriving DecidableEq, Inhabited, Repr

namespace Piece

def length (p : Piece) : Nat :=
  p.stop - p.start

/-- Whether `q` begins where `p` ends, in the same store. -/
def continuedBy (p q : Piece) : Bool :=
  p.store = q.store && p.stop = q.start

def total : List Piece → Nat
  | [] => 0
  | p :: rest => p.length + total rest

/-- Puts a piece at a position.  A position between two pieces belongs to the
end of the left one, which absorbs the new piece if that continues it. -/
def insertAt (new : Piece) : Nat → List Piece → List Piece
  | _, [] => [new]
  | position, p :: rest =>
    if position = 0 then new :: p :: rest
    else if position < p.length then
      { p with stop := p.start + position } :: new ::
        { p with start := p.start + position } :: rest
    else if position = p.length then
      if p.continuedBy new then { p with stop := new.stop } :: rest
      else p :: new :: rest
    else p :: insertAt new (position - p.length) rest

def without (p : Piece) (position count : Nat) : List Piece :=
  (if position = 0 then [] else [{ p with stop := p.start + position }]) ++
    if position + count = p.length then [] else [{ p with start := p.start + position + count }]

def removeAt : Nat → Nat → List Piece → List Piece
  | _, _, [] => []
  | position, count, p :: rest =>
    if count = 0 then p :: rest
    else if p.length ≤ position then p :: removeAt (position - p.length) count rest
    else
      let cut := min count (p.length - position)
      p.without position cut ++ removeAt 0 (count - cut) rest

end Piece

structure PieceTable where
  initial : Bytes
  added : Bytes
  pieces : List Piece
  deriving DecidableEq, Inhabited, Repr

namespace PieceTable

/-- Why a call was refused: a position past the end, or a range whose end is no
machine word. -/
inductive Fault where
  | outOfBounds (position length : Nat)
  | overflow
  deriving DecidableEq, Inhabited, Repr

def Fault.message : Fault → String
  | outOfBounds position length => s!"position {position} out of bounds (len={length})"
  | overflow => "arithmetic overflow"

def empty : PieceTable :=
  ⟨[], [], []⟩

def ofBytes (bytes : Bytes) : PieceTable where
  initial := bytes
  added := []
  pieces := if bytes.isEmpty then [] else [⟨.initial, 0, bytes.length⟩]

def length (t : PieceTable) : Nat :=
  Piece.total t.pieces

def isEmpty (t : PieceTable) : Bool :=
  t.pieces.isEmpty

def store (t : PieceTable) : Store → Bytes
  | .initial => t.initial
  | .added => t.added

def chunk (t : PieceTable) (p : Piece) : Bytes :=
  ((t.store p.store).drop p.start).take p.length

def chunks (t : PieceTable) : List Bytes :=
  t.pieces.map t.chunk

def toBytes (t : PieceTable) : Bytes :=
  t.chunks.flatten

def checkPosition (t : PieceTable) (position : Nat) : Except Fault Unit :=
  if position ≤ t.length then .ok () else .error (.outOfBounds position t.length)

def checkRange (t : PieceTable) (position count : Nat) : Except Fault Unit :=
  if maxOffset < position + count then .error .overflow
  else t.checkPosition (position + count)

/-- The table with bytes put at a position that it has. -/
def inserted (t : PieceTable) (position : Nat) (bytes : Bytes) : PieceTable :=
  if bytes.isEmpty then t
  else
    { t with
      added := t.added ++ bytes
      pieces :=
        Piece.insertAt ⟨.added, t.added.length, t.added.length + bytes.length⟩ position t.pieces }

def deleted (t : PieceTable) (position count : Nat) : PieceTable :=
  { t with pieces := Piece.removeAt position count t.pieces }

def insert (t : PieceTable) (position : Nat) (bytes : Bytes) : Except Fault PieceTable :=
  (t.checkPosition position).map fun _ => t.inserted position bytes

def delete (t : PieceTable) (position count : Nat) : Except Fault PieceTable :=
  (t.checkRange position count).map fun _ => t.deleted position count

/-- The bytes that the pieces show from a position on, at most `count`. -/
def readAt (t : PieceTable) : Nat → Nat → List Piece → Bytes
  | _, _, [] => []
  | position, count, p :: rest =>
    if count = 0 then []
    else if p.length ≤ position then t.readAt (position - p.length) count rest
    else
      let taken := min count (p.length - position)
      ((t.chunk p).drop position).take taken ++ t.readAt 0 (count - taken) rest

def read (t : PieceTable) (position count : Nat) : Except Fault Bytes :=
  (t.checkRange position count).map fun _ => t.readAt position count t.pieces

end PieceTable

end Redline

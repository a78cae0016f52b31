import Redline.Bytes
/-!
# Reading bytes as UTF-8

`decode?` accepts well-formed UTF-8 only.  `decodeLossy` accepts everything and
puts one replacement character in place of each maximal ill-formed part: the
longest beginning of a sequence that could still have become well-formed, or
else a single byte.
-/

namespace Redline.Text

def decode? (bytes : Bytes) : Option String :=
  String.fromUTF8? ⟨bytes.toArray⟩

def replacement : Char := Char.ofNat 0xFFFD

/-- What a lead byte announces: how many bytes follow it, and the bounds of the
first of these.  The bounds leave out overlong forms, surrogates and values
above the last code point; all later bytes lie between `0x80` and `0xBF`.  What
the lead adds to the code point is its remainder by `modulus`. -/
structure Sequence where
  following : Nat
  modulus : Nat
  least : UInt8
  greatest : UInt8

def Sequence.ofLead? (lead : UInt8) : Option Sequence :=
  if lead < 0xC2 then none
  else if lead ≤ 0xDF then some ⟨1, 32, 0x80, 0xBF⟩
  else if lead = 0xE0 then some ⟨2, 16, 0xA0, 0xBF⟩
  else if lead = 0xED then some ⟨2, 16, 0x80, 0x9F⟩
  else if lead ≤ 0xEF then some ⟨2, 16, 0x80, 0xBF⟩
  else if lead = 0xF0 then some ⟨3, 8, 0x90, 0xBF⟩
  else if lead ≤ 0xF3 then some ⟨3, 8, 0x80, 0xBF⟩
  else if lead = 0xF4 then some ⟨3, 8, 0x80, 0x8F⟩
  else none

/-- The longest beginning of `rest` that continues the sequence. -/
def Sequence.tail (s : Sequence) : Bytes → Bytes
  | [] => []
  | b :: rest =>
    if s.least ≤ b ∧ b ≤ s.greatest then
      b :: (rest.take (s.following - 1)).takeWhile fun c => 0x80 ≤ c && c ≤ 0xBF
    else []

def Sequence.scalar (s : Sequence) (lead : UInt8) (tail : Bytes) : Nat :=
  tail.foldl (fun n b => n * 64 + b.toNat % 64) (lead.toNat % s.modulus)

/-- The characters of the bytes, ill-formed parts replaced. -/
def lossyChars : Bytes → List Char
  | [] => []
  | b :: rest =>
    if b < 0x80 then Char.ofNat b.toNat :: lossyChars rest
    else
      match Sequence.ofLead? b with
      | none => replacement :: lossyChars rest
      | some s =>
        let tail := s.tail rest
        let c := if tail.length = s.following then Char.ofNat (s.scalar b tail) else replacement
        c :: lossyChars (rest.drop tail.length)
  termination_by bytes => bytes.length

def decodeLossy (bytes : Bytes) : String :=
  (decode? bytes).getD (String.ofList (lossyChars bytes))

end Redline.Text

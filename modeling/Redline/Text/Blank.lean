/-!
# White space of the Unicode standard

The code points with the property `White_Space`.  Every blank of the basic
class of `Char` is among them.
-/

namespace Redline.Text

/-- The twenty-five code points with the property `White_Space`. -/
def blankCodePoints : List Nat :=
  [0x0009, 0x000A, 0x000B, 0x000C, 0x000D, 0x0020, 0x0085, 0x00A0, 0x1680,
   0x2000, 0x2001, 0x2002, 0x2003, 0x2004, 0x2005, 0x2006, 0x2007, 0x2008,
   0x2009, 0x200A, 0x2028, 0x2029, 0x202F, 0x205F, 0x3000]

def isBlank (c : Char) : Bool :=
  blankCodePoints.contains c.toNat

def trim (cs : List Char) : List Char :=
  ((cs.dropWhile isBlank).reverse.dropWhile isBlank).reverse

end Redline.Text

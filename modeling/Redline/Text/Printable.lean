import Redline.Text.Mark
import Redline.Text.Unassigned
/-!
# Characters that can be shown

A character can be shown when it is assigned, has a shape, and stands on its
own.  The sets are those of the Unicode standard.
-/

namespace Redline.Text

/-- Control, format and private code points, surrogates and all separators but
the space: the general categories `Cc`, `Cf`, `Co`, `Cs`, `Zl`, `Zp` and `Zs`. -/
def shapelessRanges : List (Nat × Nat) :=
  [(0x0000, 0x001F), (0x007F, 0x00A0), (0x00AD, 0x00AD), (0x0600, 0x0605), (0x061C, 0x061C),
   (0x06DD, 0x06DD), (0x070F, 0x070F), (0x0890, 0x0891), (0x08E2, 0x08E2), (0x1680, 0x1680),
   (0x180E, 0x180E), (0x2000, 0x200F), (0x2028, 0x202F), (0x205F, 0x2064), (0x2066, 0x206F),
   (0x3000, 0x3000), (0xD800, 0xF8FF), (0xFEFF, 0xFEFF), (0xFFF9, 0xFFFB), (0x110BD, 0x110BD),
   (0x110CD, 0x110CD), (0x13430, 0x1343F), (0x1BCA0, 0x1BCA3), (0x1D173, 0x1D17A),
   (0xE0001, 0xE0001), (0xE0020, 0xE007F), (0xF0000, 0xFFFFD), (0x100000, 0x10FFFD)]

/-- The fillers of Hangul syllables.  They are the letters with the property
`Default_Ignorable_Code_Point`, and are drawn as nothing. -/
def fillerCodePoints : List Nat :=
  [0x115F, 0x1160, 0x3164, 0xFFA0]

/-- Whether a character has a shape of its own. -/
def isPrintable (c : Char) : Bool :=
  !inRanges markRanges c && !inRanges shapelessRanges c && !inRanges unassignedRanges c &&
    !fillerCodePoints.contains c.toNat

end Redline.Text

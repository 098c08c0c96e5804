/-
Topiary.Text.Ignorable — the characters that are left out where they cannot
be shown.

Fillers, joiners and variation selectors are invisible unless a font knows
better.  These are the characters with the property
Default_Ignorable_Code_Point in Unicode 17.0.
-/
import Topiary.Text.CodeRange

namespace Topiary.Text

/-- The code points that are ignored by default. -/
def ignorableRanges : CodeRanges :=
  [(0xAD, 0xAD), (0x34F, 0x34F), (0x61C, 0x61C), (0x115F, 0x1160),
   (0x17B4, 0x17B5), (0x180B, 0x180F), (0x200B, 0x200F), (0x202A, 0x202E),
   (0x2060, 0x206F), (0x3164, 0x3164), (0xFE00, 0xFE0F), (0xFEFF, 0xFEFF),
   (0xFFA0, 0xFFA0), (0xFFF0, 0xFFF8), (0x1BCA0, 0x1BCA3), (0x1D173, 0x1D17A),
   (0xE0000, 0xE0FFF)]

/-- The character is ignored by default. -/
def isIgnorable (c : Char) : Bool := ignorableRanges.contains c

theorem ignorableRanges_ascend : ignorableRanges.ascendsFrom 128 := by
  decide

/-- No character of ASCII is ignored. -/
theorem isIgnorable_ascii (c : Char) (h : c.toNat < 128) : isIgnorable c = false :=
  CodeRanges.contains_eq_false_of_lt ignorableRanges_ascend h

end Topiary.Text

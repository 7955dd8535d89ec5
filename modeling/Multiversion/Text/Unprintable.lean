import Multiversion.Text.Combining
import Multiversion.Text.Unassigned
/- Characters that leave no mark of their own on a line: those that show nothing, those that combine
   with the character before them, and code points without a character. -/
namespace Multiversion.Text

/-- The ranges of characters that show nothing, ends included: controls, format characters, line and
paragraph separators, spaces other than U+0020, the four fillers of Hangul, private use. -/
def invisibleRanges : List (Nat × Nat) := [
  (0x0, 0x1f), (0x7f, 0xa0), (0xad, 0xad), (0x600, 0x605), (0x61c, 0x61c), (0x6dd, 0x6dd),
  (0x70f, 0x70f), (0x890, 0x891), (0x8e2, 0x8e2), (0x115f, 0x1160), (0x1680, 0x1680),
  (0x180e, 0x180e), (0x2000, 0x200f), (0x2028, 0x202f), (0x205f, 0x2064), (0x2066, 0x206f),
  (0x3000, 0x3000), (0x3164, 0x3164), (0xe000, 0xf8ff), (0xfeff, 0xfeff), (0xffa0, 0xffa0),
  (0xfff9, 0xfffb), (0x110bd, 0x110bd), (0x110cd, 0x110cd), (0x13430, 0x1343f), (0x1bca0, 0x1bca3),
  (0x1d173, 0x1d17a), (0xe0001, 0xe0001), (0xe0020, 0xe007f), (0xf0000, 0xffffd),
  (0x100000, 0x10fffd)]

/-- Whether a code point lies in one of the ranges. -/
def inRanges (ranges : List (Nat × Nat)) (n : Nat) : Bool := ranges.any fun r => r.1 ≤ n && n ≤ r.2

/-- The tables of the characters that are not printed as themselves. -/
def unprintable : List (List (Nat × Nat)) := [invisibleRanges, combiningRanges, unassignedRanges]

/-- Whether a character is printed as itself. Of the ASCII characters these are the space and those
after it, up to the tilde. -/
def isPrintable (c : Char) : Bool :=
  let n := c.toNat
  if n < 0x7f then 0x20 ≤ n else !unprintable.any (inRanges · n)

end Multiversion.Text

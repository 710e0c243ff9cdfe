/-
  File:      Osclan/Text/Blank.lean
  Subject:   Blank characters: code points with the Unicode property White_Space.
-/
import Osclan.Text.Ranges

namespace Osclan.Text

/-- The ranges of the property White_Space. -/
def blankRanges : List (Nat × Nat) :=
  [(0x9, 0xd), (0x20, 0x20), (0x85, 0x85), (0xa0, 0xa0), (0x1680, 0x1680), (0x2000, 0x200a),
   (0x2028, 0x2029), (0x202f, 0x202f), (0x205f, 0x205f), (0x3000, 0x3000)]

/-- Is the character blank? -/
def isBlank (c : Char) : Bool := covers blankRanges c.toNat

end Osclan.Text

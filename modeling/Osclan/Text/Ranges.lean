/-
  File:      Osclan/Text/Ranges.lean
  Subject:   Sets of characters given by ranges of code points.

  A property of characters is a list of closed ranges in increasing order. The look-up walks the
  list and stops at the first range that begins above the code point, so that an ASCII character
  is answered by the head of a long table.
-/
namespace Osclan.Text

/-- Does one of the increasing closed ranges hold the code point? -/
def covers : List (Nat × Nat) → Nat → Bool
  | [], _ => false
  | (lo, hi) :: rest, n => decide (lo ≤ n) && (decide (n ≤ hi) || covers rest n)

end Osclan.Text

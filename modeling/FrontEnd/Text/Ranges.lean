/-!
# Ranges of code points

A property of characters is stored as a list of closed ranges of code points, in increasing order
and without overlap. Membership is a plain search: the lists are short, are asked about rarely
(ASCII never reaches them), and a search needs no invariant to be right.
-/

namespace FrontEnd.Text

/-- Whether a code point lies in one of the closed `ranges`. -/
def inRanges (ranges : List (Nat × Nat)) (point : Nat) : Bool :=
  ranges.any fun range ↦ range.1 ≤ point && point ≤ range.2

end FrontEnd.Text

/-!
# Classes of code points

A class is given by its ranges, closed at both ends and ascending.
-/

namespace PatternAutomata.Text

set_option autoImplicit false

/-- Ranges of code points, each with its first and last member. -/
abbrev Ranges := List (Nat × Nat)

/-- Whether a range holds `n`; the search ends at the first range that begins after `n`. -/
def Ranges.contains : Ranges → Nat → Bool
  | [], _ => false
  | (low, high) :: rest, n => if n < low then false else if n ≤ high then true else contains rest n

end PatternAutomata.Text

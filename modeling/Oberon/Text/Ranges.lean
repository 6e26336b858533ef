/-!
# Sets of code points as boundaries

A set of code points is given by the ascending list of the places at which membership changes: the
first code point of a run, the first one after it, the first one of the next run, and so on.
-/

namespace Oberon.Text

/-- True if a code point lies in the set with these boundaries, where `inside` tells whether the
code points before the first boundary do. -/
def changes (inside : Bool) (code : Nat) : List Nat → Bool
  | [] => inside
  | bound :: rest => if code < bound then inside else changes (!inside) code rest

/-- True if a code point lies in the set with these boundaries. -/
def inRanges (bounds : List Nat) (code : Nat) : Bool := changes false code bounds

end Oberon.Text

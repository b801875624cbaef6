namespace PathQuery.Text

/-- Membership in a sorted list of closed ranges of code points. -/
def inRanges (n : Nat) : List (Nat × Nat) → Bool
  | [] => false
  | (first, last) :: rest => if n < first then false else n ≤ last || inRanges n rest

end PathQuery.Text

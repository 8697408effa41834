/-!
# Ranges of code points

Classes of characters are kept as inclusive ranges in ascending order, and searched by halving.
-/

namespace StyleGrammar

namespace Ranges

/-- Whether a code point lies in one of the ranges from `low` up to `high`. -/
def search (ranges : Array (Nat × Nat)) (n : Nat) : (fuel low high : Nat) → Bool
  | 0, _, _ => false
  | fuel + 1, low, high =>
    if low < high then
      let mid := (low + high) / 2
      match ranges[mid]? with
      | none => false
      | some (first, last) =>
        if n < first then search ranges n fuel low mid
        else if last < n then search ranges n fuel (mid + 1) high
        else true
    else false

/-- Whether a code point lies in one of the ranges. -/
def contains (ranges : Array (Nat × Nat)) (n : Nat) : Bool :=
  search ranges n (ranges.size.log2 + 1) 0 ranges.size

end Ranges

end StyleGrammar

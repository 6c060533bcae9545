/-! Sets of characters given by inclusive ranges of code points. -/
namespace BindingPower.Text

/-- Whether the code point of `c` lies in one of the inclusive ranges. -/
def within (ranges : List (Nat × Nat)) (c : Char) : Bool :=
  ranges.any fun (low, high) => low ≤ c.toNat && c.toNat ≤ high

end BindingPower.Text

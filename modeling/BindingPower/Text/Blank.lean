import BindingPower.Text.Range

/-! White space: the characters that a scanner may skip between tokens.
Four separator controls and the wide spaces count as well as the ASCII ones. -/
namespace BindingPower.Text

def blankRanges : List (Nat × Nat) := [
  (0x09, 0x0d), (0x1c, 0x20), (0x85, 0x85), (0xa0, 0xa0), (0x1680, 0x1680), (0x2000, 0x200a),
  (0x2028, 0x2029), (0x202f, 0x202f), (0x205f, 0x205f), (0x3000, 0x3000)]

def isBlank (c : Char) : Bool := within blankRanges c

end BindingPower.Text

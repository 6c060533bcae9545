import BindingPower.Pattern

/-! Colour codes in text, which are taken out where the output is no terminal. -/
namespace BindingPower.Text

/-- An escape, a bracket, parameters and a letter. -/
def colourCode : Pattern := .all [
  .char '\x1b', .char '[', .many (.within [.range ';' ';', .range '?' '?', .range '0' '9']),
  .within [.range 'a' 'z', .range 'A' 'Z']]

/-- A text without its codes, taken out in at most `room` steps. -/
def stripCodes : (room : Nat) → List Char → List Char
  | _, [] => []
  | 0, s => s
  | room + 1, c :: s =>
    match colourCode.width? (c :: s) with
    | some width => stripCodes room ((c :: s).drop width)
    | none => c :: stripCodes room s

def stripColours (text : String) : String :=
  String.ofList (stripCodes text.length text.toList)

end BindingPower.Text

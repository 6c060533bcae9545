import BindingPower.Grammar.Arithmetic
import BindingPower.Grammar.Ebnf
import BindingPower.Grammar.C

/-! The grammars that come with the library, found by name. -/
namespace BindingPower.Grammar

def bundled : List Grammar := [arithmetic, ebnf, c]

def find? (name : String) : Option Grammar := bundled.find? (·.name == name)

/-- The message for a name of no bundled grammar, given as it is shown. -/
def unknownMessage (shown : String) : String :=
  "unknown grammar " ++ shown ++ "; choose from " ++ ", ".intercalate (bundled.map (·.name))

end BindingPower.Grammar

/-! The symbols of the EBNF grammar, with the markers that only trees carry at the end. -/
namespace BindingPower

inductive EbnfSymbol
  | star | plus | question | bar | leftBracket | rightBracket | semicolon | colon | number | ident
  | string | repeats | optional | group | sequence | rule
  deriving DecidableEq, Repr

namespace EbnfSymbol

/-- The name under which a symbol is printed. -/
def name : EbnfSymbol → String
  | .star => "STAR" | .plus => "PLUS" | .question => "QUESTION" | .bar => "PIPE"
  | .leftBracket => "LBRACKET" | .rightBracket => "RBRACKET" | .semicolon => "SEMICOLON"
  | .colon => "COLON" | .number => "NUMBER" | .ident => "IDENT" | .string => "STRING"
  | .repeats => "REPEATS" | .optional => "OPT" | .group => "GROUP" | .sequence => "SEQUENCE"
  | .rule => "RULE"

/-- Every symbol, in the order of declaration. -/
def all : List EbnfSymbol := [
  .star, .plus, .question, .bar, .leftBracket, .rightBracket, .semicolon, .colon, .number, .ident,
  .string, .repeats, .optional, .group, .sequence, .rule]

def ofName? (name : String) : Option EbnfSymbol := all.find? (·.name == name)

def punctuation : List (String × EbnfSymbol) := [
  ("*", .star), ("+", .plus), ("?", .question), ("|", .bar), ("[", .leftBracket),
  ("]", .rightBracket), (";", .semicolon), (":", .colon)]

/-- A marker is spelled as its name in lower case. -/
def spelling (s : EbnfSymbol) : String := String.ofList (s.name.toList.map Char.toLower)

end EbnfSymbol

end BindingPower

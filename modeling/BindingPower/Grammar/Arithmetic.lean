import BindingPower.Grammar.Basic

/-! Integer arithmetic over words. Powers group to the right and bind tighter than a sign, and
a sign binds tighter than products. -/
namespace BindingPower

namespace Arithmetic
open BindingPower.Action

/-- Words of ASCII letters and digits, and every other character for itself. -/
def lexemes : List ScanRule := [
  ⟨.many1 (.within [.blank]), .skip⟩,
  ⟨.many1 (.within [.range 'A' 'Z', .range 'a' 'z', .range '0' '9']), .kind (.text "word")⟩,
  ⟨.within [.nonblank], .kind (.text "symbol")⟩]

/-- Only the text of the lexemes is kept. -/
def scan (text : String) : Scan :=
  let found := ScanRule.scan lexemes text
  { found with tokens := found.tokens.map fun
      | .lexeme _ value _ => .word value
      | t => t }

def parentheses : PrefixRule := ⟨Level.first, fun _ _ => do
  let inner ← expr Level.root
  consume (.word ")")
  return inner⟩

def rules : RuleTable where
  prefixRules :=
    Grammar.each [.text "ident", .text "number"] (.leaf Level.root) ++
    [(.text "(", parentheses), (.text "-", .unary Level.third)]
  infixRules :=
    Grammar.each [.text "+", .text "-"] (.binary Level.first Level.first) ++
    Grammar.each [.text "*", .text "/", .text "%"] (.binary Level.second Level.second) ++
    [(.text "^", .binary Level.fourth Level.third)]

/-- One expression with nothing after it. -/
def program : Action (List Node) := do
  let n ← expr Level.root
  match ← peek with
  | none => return [n]
  | some t => raise (.missingRule t .continuing)

end Arithmetic

def Grammar.arithmetic : Grammar where
  name := "arithmetic"
  description := "integer arithmetic with + - * / % ^ and parentheses"
  scan := Arithmetic.scan
  rules := Arithmetic.rules
  program := Arithmetic.program
  classifier := Classifier.byText

end BindingPower

import BindingPower.Grammar.C.Statement

/-! The C grammar: expressions on a ladder of fifteen ranks, declarations and statements. -/
namespace BindingPower

namespace C

def eachSymbol {α : Type 1} (symbols : List CSymbol) (rule : α) : List (Kind × α) :=
  Grammar.each (symbols.map .c) rule

def leftward (symbols : List CSymbol) (power : Int) : List (Kind × InfixRule) :=
  eachSymbol symbols (.binary power power)

def prefixRules : List (Kind × PrefixRule) :=
  eachSymbol [.ident, .intConst, .charConst, .floatConst, .string] (.leaf Level.root) ++
  eachSymbol specifierSymbols (.leaf Level.root) ++
  eachSymbol taggedSymbols taggedFirst ++
  eachSymbol [.increment, .decrement, .kwSizeof, .ampersand, .star, .plus, .minus, .tilde, .bang]
    (.unary Level.thirteenth) ++
  eachSymbol [.leftParen] parentheses ++
  eachSymbol [.kwGoto] gotoRule ++
  eachSymbol [.kwContinue, .kwBreak] jump ++
  eachSymbol [.kwReturn] returnRule ++
  eachSymbol [.kwDefault] defaultRule ++
  eachSymbol [.kwCase] caseRule ++
  eachSymbol [.kwIf] ifRule ++
  eachSymbol [.kwWhile] whileRule ++
  eachSymbol [.leftBrace] block

def infixRules : List (Kind × InfixRule) :=
  eachSymbol specifierSymbols specifierAfter ++
  eachSymbol taggedSymbols taggedAfter ++
  eachSymbol [.ident] declarator ++
  eachSymbol assignmentSymbols (.binary Level.second Level.first) ++
  eachSymbol [.question] conditional ++
  leftward [.orOr] Level.fourth ++
  leftward [.andAnd] Level.fifth ++
  leftward [.bar] Level.sixth ++
  leftward [.caret] Level.seventh ++
  leftward [.ampersand] Level.eighth ++
  leftward [.equals, .notEquals] Level.ninth ++
  leftward [.less, .greater, .lessEq, .greaterEq] Level.tenth ++
  leftward [.shiftLeft, .shiftRight] Level.eleventh ++
  leftward [.plus, .minus] Level.twelfth ++
  leftward [.slash, .percent] Level.thirteenth ++
  eachSymbol [.star] starAfter ++
  eachSymbol [.increment, .decrement] stepAfter ++
  eachSymbol [.leftParen] call ++
  eachSymbol [.leftBracket] index ++
  eachSymbol [.dot, .arrow] member

def rules : RuleTable := ⟨prefixRules, infixRules⟩

end C

def Grammar.c : Grammar where
  name := "cdecl"
  description := "C expressions, declarations and simple statements"
  scan := ScanRule.scan C.lexemes
  rules := C.rules
  program := C.program

end BindingPower

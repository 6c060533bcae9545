import BindingPower.Grammar.Basic

/-! The lexemes of C programs. Comments are skipped, numbers with a point are tried before
plain ones, and of the operators the longest that fits is taken. -/
namespace BindingPower

/-- The token of a symbol as programs write it. -/
def CSymbol.token (s : CSymbol) : Token := .lexeme (.c s) s.spelling none

namespace C

private def letters : List CharItem := [.range 'A' 'Z', .range 'a' 'z', .range '_' '_']
private def digits : List CharItem := [.range '0' '9']
private def hexDigits : List CharItem := [.range '0' '9', .range 'a' 'f', .range 'A' 'F']
private def oneOfChars (cs : List Char) : Pattern := .within (cs.map fun c => .range c c)

def comment : Pattern := .oneOf [
  .seq (.literal ['/', '/']) (.many (.without [.range '\n' '\n'])),
  .all [.literal ['/', '*'], .star false .any, .literal ['*', '/']]]

def exponent : Pattern := .opt (.all [
  oneOfChars ['e', 'E'], .opt (oneOfChars ['+', '-']), .many1 (.within digits)])

def floatConst : Pattern := .oneOf [
  .all [.many1 (.within digits), .char '.', .many (.within digits), exponent],
  .all [.char '.', .many1 (.within digits), exponent]]

def intConst : Pattern := .oneOf [
  .all [.char '0', oneOfChars ['x', 'X'], .many1 (.within hexDigits)],
  .many1 (.within digits)]

/-- A character between quotes: any but the quote and the backslash, or an escape, which does
not reach over the end of the row. -/
def quotable (quote : Char) : Pattern := .oneOf [
  .seq (.char '\\') .anyInRow,
  .without [.range quote quote, .range '\\' '\\']]

def charConst : Pattern := .all [.char '\'', quotable '\'', .char '\'']
def string : Pattern := .all [.char '"', .many (quotable '"'), .char '"']

def word : Pattern := .seq (.within letters) (.many (.within (letters ++ digits)))

def operator : Pattern := .oneOf (CSymbol.operators.map fun (text, _) => .literal text.toList)

/-- Words that are no keywords are identifiers. -/
def wordKind (text : String) : Kind := .c ((CSymbol.keywords.lookup text).getD .ident)

def operatorKind (text : String) : Kind := ((CSymbol.operators.lookup text).map .c).getD .absent

def lexemes : List ScanRule := [
  ⟨.many1 (.within [.blank]), .skip⟩,
  ⟨comment, .skip⟩,
  ⟨floatConst, .kind (.c .floatConst)⟩,
  ⟨intConst, .kind (.c .intConst)⟩,
  ⟨charConst, .kind (.c .charConst)⟩,
  ⟨string, .kind (.c .string)⟩,
  ⟨word, .byText wordKind⟩,
  ⟨operator, .byText operatorKind⟩]

end C

end BindingPower

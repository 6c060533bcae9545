import BindingPower.Grammar.Basic

/-! Rule definitions in EBNF, each ended by a semicolon. Elements side by side grow into one
flat sequence, and a repetition mark applies to the last element of the sequence before it. -/
namespace BindingPower

namespace EbnfSymbol

/-- The token of a marker, which only trees carry. -/
def marker (s : EbnfSymbol) : Token := .lexeme (.ebnf s) s.spelling none

end EbnfSymbol

namespace Ebnf
open BindingPower.Action

private def letters : List CharItem := [.range 'A' 'Z', .range 'a' 'z', .range '_' '_']
private def digits : List CharItem := [.range '0' '9']

def quoted : Pattern := .oneOf [
  .all [.char '\'', .many (.oneOf [.literal ['\'', '\''], .without [.range '\'' '\'']]),
    .char '\''],
  .all [.char '"', .many (.without [.range '"' '"']), .char '"']]

/-- The symbol of a punctuation mark. -/
def markKind (text : String) : Kind := ((EbnfSymbol.punctuation.lookup text).map .ebnf).getD .absent

def lexemes : List ScanRule := [
  ⟨.many1 (.within [.blank]), .skip⟩,
  ⟨quoted, .kind (.ebnf .string)⟩,
  ⟨.many1 (.within digits), .kind (.ebnf .number)⟩,
  ⟨.seq (.within letters) (.many (.within (letters ++ digits))), .kind (.ebnf .ident)⟩,
  ⟨.within (['*', '+', '?', '|', '[', ']', ';', ':'].map fun c => .range c c), .byText markKind⟩]

def semicolon : Token := .lexeme (.ebnf .semicolon) ";" none
def rightBracket : Token := .lexeme (.ebnf .rightBracket) "]" none

/-- Whether a node is a branch under a symbol. -/
def isBranch (n : Node) (s : EbnfSymbol) : Action Bool :=
  match n with
  | .leaf _ => pure false
  | .branch t _ => return (← kindOf t) == .ebnf s

def extendSequence (left item : Node) : Action Node := do
  if ← isBranch left .sequence then
    match left.withChild? item with
    | some n => return n
    | none => defect (.noChildren left)
  else return .branch (EbnfSymbol.marker .sequence) [left, item]

/-- Applies a mark to the last element of a sequence, or to a node that is none. -/
def onLast (left : Node) (mark : Node → Action Node) : Action Node := do
  if ← isBranch left .sequence then
    let children := left.children?.getD []
    match children.getLast? with
    | none => defect (.noLastChild left)
    | some last => return .branch left.token (children.dropLast ++ [← mark last])
  else mark left

/-- A count after a repetition joins it; any other mark starts one. -/
def repeatMark (t : Token) (n : Node) : Action Node := do
  if (← kindOf t) == .ebnf .number then
    if ← isBranch n .repeats then
      match n.withChild? (.leaf t) with
      | some n => return n
      | none => defect (.noChildren n)
    else return .branch (EbnfSymbol.marker .repeats) [n, .leaf t]
  else return .branch (EbnfSymbol.marker .repeats) [n, .leaf t]

/-- A bracketed group, after its opening bracket. -/
def group : Action Node := do
  let inner ← expr Level.first
  consume rightBracket
  return .branch (EbnfSymbol.marker .group) [inner]

def definition : InfixRule := ⟨Level.first, Level.first, fun _ power left =>
  return .branch (EbnfSymbol.marker .rule) [left, ← expr power]⟩

def repetition : InfixRule := ⟨Level.fourth, Level.fourth, fun t _ left =>
  onLast left (repeatMark t)⟩

def option : InfixRule := ⟨Level.fourth, Level.fourth, fun _ _ left =>
  onLast left fun n => return .branch (EbnfSymbol.marker .optional) [n]⟩

def juxtaposition : InfixRule := ⟨Level.third, Level.third, fun t _ left =>
  extendSequence left (.leaf t)⟩

def groupAfter : InfixRule := ⟨Level.third, Level.third, fun _ _ left => do
  extendSequence left (← group)⟩

def rules : RuleTable where
  prefixRules :=
    Grammar.each [.ebnf .ident, .ebnf .string] (.leaf Level.root) ++
    [(.ebnf .leftBracket, ⟨Level.root, fun _ _ => group⟩)]
  infixRules :=
    [(.ebnf .colon, definition), (.ebnf .bar, .binary Level.second Level.second)] ++
    Grammar.each [.ebnf .star, .ebnf .plus, .ebnf .number] repetition ++
    [(.ebnf .question, option)] ++
    Grammar.each [.ebnf .ident, .ebnf .string] juxtaposition ++
    [(.ebnf .leftBracket, groupAfter)]

/-- Definitions with semicolons between them. -/
def program : Action (List Node) := do
  collect (← sequence Level.root (some semicolon) none)

end Ebnf

def Grammar.ebnf : Grammar where
  name := "ebnf"
  description := "EBNF rule definitions terminated by ';'"
  scan := ScanRule.scan Ebnf.lexemes
  rules := Ebnf.rules
  program := Ebnf.program

end BindingPower

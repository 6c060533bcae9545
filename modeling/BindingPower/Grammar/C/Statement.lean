import BindingPower.Grammar.C.Declaration

/-! C statements. A statement that starts with a keyword or a brace is read at the highest
level, so that no operator takes the finished statement as its operand. -/
namespace BindingPower.C
open BindingPower.Action

def statementSymbols : List CSymbol := [
  .kwGoto, .kwContinue, .kwBreak, .kwReturn, .kwCase, .kwDefault, .kwIf, .kwWhile, .leftBrace]

/-- One statement. The semicolon after an expression is optional only at the end of the input. -/
def statement (semicolonRequired : Bool) : Action Node := do
  let keyword ← match ← peek with
    | none => pure false
    | some t => pure (among statementSymbols (← kindOf t))
  if keyword then expr Level.highest
  else
    let n ← expr Level.root
    if semicolonRequired then require .semicolon n
    else if (← peek).isSome then require .semicolon n
    return n

def gotoRule : PrefixRule := ⟨Level.root, fun t _ => do
  let label ← expr Level.highest
  if ← isIdent label then
    let n : Node := .branch t [label]
    require .semicolon n
    return n
  else raise (.malformed (.leaf t) label.token)⟩

def jump : PrefixRule := ⟨Level.root, fun t _ => do
  require .semicolon (.branch t [])
  return .branch t []⟩

def returnRule : PrefixRule := ⟨Level.root, fun t _ => do
  if ← accept .semicolon then return .branch t []
  else
    let n : Node := .branch t [← expr Level.root]
    require .semicolon n
    return n⟩

def defaultRule : PrefixRule := ⟨Level.root, fun t _ => do
  require .colon (.leaf t)
  return .branch t [← statement true]⟩

def caseRule : PrefixRule := ⟨Level.root, fun t _ => do
  let value ← expr Level.root
  require .colon (.branch t [value])
  return .branch t [value, ← statement true]⟩

/-- A condition in parentheses. -/
def condition : Action Node := do
  consume CSymbol.leftParen.token
  let n ← expr Level.root
  consume CSymbol.rightParen.token
  return n

def ifRule : PrefixRule := ⟨Level.root, fun t _ => do
  let test ← condition
  let yes ← statement true
  if ← acceptOrEnd .kwElse then return .branch t [test, yes, ← statement true]
  else return .branch t [test, yes]⟩

def whileRule : PrefixRule := ⟨Level.root, fun t _ => do
  let test ← condition
  return .branch t [test, ← statement true]⟩

def block : PrefixRule := ⟨Level.root, fun _ _ => do
  let body ← repeated do
    if ← accept .rightBrace then return .done
    else return .item (← statement true)
  return .branch CSymbol.block.token body⟩

/-- Statements to the end of the input. -/
def program : Action (List Node) := repeated do
  match ← peek with
  | none => return .done
  | some _ => return .item (← statement false)

end BindingPower.C

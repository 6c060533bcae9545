import BindingPower.Grammar.C.Lexeme

/-! C expressions, and the tests on trees that tell types and identifiers from the rest. -/
namespace BindingPower.C
open BindingPower.Action

/-- Type names, qualifiers and storage classes. -/
def specifierSymbols : List CSymbol := [
  .kwConst, .kwVolatile, .kwVoid, .kwChar, .kwShort, .kwInt, .kwLong, .kwFloat, .kwDouble,
  .kwSigned, .kwUnsigned, .kwAuto, .kwRegister, .kwStatic, .kwExtern, .kwTypedef]

def taggedSymbols : List CSymbol := [.kwStruct, .kwUnion, .kwEnum]

def assignmentSymbols : List CSymbol := [
  .assign, .starAssign, .slashAssign, .percentAssign, .plusAssign, .minusAssign,
  .shiftLeftAssign, .shiftRightAssign, .ampersandAssign, .caretAssign, .barAssign]

/-- Whether a kind is one of some symbols. -/
def among (symbols : List CSymbol) (kind : Kind) : Bool := symbols.any (kind == .c ·)

def isIdent : Node → Action Bool
  | .leaf t => return (← kindOf t) == .c .ident
  | .branch .. => return false

/-- A type is a specifier, several of them, or a tagged type. -/
def isType (n : Node) : Action Bool := do
  let kind ← kindOf n.token
  match n with
  | .leaf _ => return among specifierSymbols kind
  | .branch .. => return kind == .c .specifiers || among taggedSymbols kind

/-- Consumes a token whose absence makes the node before it malformed. -/
def require (expected : CSymbol) (n : Node) : Action Unit := do
  match ← attempt (.consume expected.token) with
  | .ok () => return ()
  | .error (.consumeFailed _ found) => raise (.malformed n found)
  | .error e => raise e

/-- Whether a token comes next; it is consumed if it does. -/
def accept (expected : CSymbol) : Action Bool := do
  match ← attempt (.consume expected.token) with
  | .ok () => return true
  | .error (.consumeFailed ..) => return false
  | .error e => raise e

/-- The same, where the input may end instead. -/
def acceptOrEnd (expected : CSymbol) : Action Bool := do
  match ← attempt (.consume expected.token) with
  | .ok () => return true
  | .error (.consumeFailed ..) | .error .incomplete => return false
  | .error e => raise e

/-- After a type a star starts a pointer declarator; elsewhere it is a product. -/
def starAfter : InfixRule := ⟨Level.thirteenth, Level.thirteenth, fun t power left => do
  if ← isType left then
    return .branch CSymbol.declaration.token [left, .branch t [← expr power]]
  else return .branch t [left, ← expr power]⟩

def parentheses : PrefixRule := ⟨Level.root, fun _ _ => do
  let inner ← expr Level.root
  consume CSymbol.rightParen.token
  return inner⟩

def conditional : InfixRule := ⟨Level.third, Level.second, fun _ power condition => do
  let yes ← expr Level.root
  require .colon yes
  return .branch CSymbol.conditional.token [condition, yes, ← expr power]⟩

def stepAfter : InfixRule := ⟨Level.highest, Level.highest, fun t _ left =>
  return .branch CSymbol.stepped.token [left, .leaf t]⟩

def call : InfixRule := ⟨Level.highest, Level.highest, fun _ _ callee => do
  if ← accept .rightParen then return .branch CSymbol.call.token [callee]
  else
    let arguments ← collect
      (← sequence Level.root (some CSymbol.comma.token) (some CSymbol.rightParen.token))
    return .branch CSymbol.call.token (callee :: arguments)⟩

def index : InfixRule := ⟨Level.highest, Level.highest, fun _ _ left => do
  let position ← expr Level.root
  consume CSymbol.rightBracket.token
  return .branch CSymbol.index.token [left, position]⟩

def member : InfixRule := ⟨Level.highest, Level.highest, fun t _ left => do
  let name ← expr Level.highest
  if ← isIdent name then return .branch t [left, name]
  else raise (.malformed name t)⟩

end BindingPower.C

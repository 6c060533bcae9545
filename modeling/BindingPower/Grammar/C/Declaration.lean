import BindingPower.Grammar.C.Expression

/-! C declarations. Specifiers side by side grow into one flat list, and a type before an
identifier is a declaration. Tagged types may have a tag, a body or both. -/
namespace BindingPower.C
open BindingPower.Action

/-- A type with one more specifier, which `t` begins. -/
def extendSpecifiers (left : Node) (t : Token) (specifier : Node) : Action Node := do
  if (← kindOf left.token) == .c .specifiers then
    match left.withChild? specifier with
    | some n => return n
    | none => defect (.noChildren left)
  else if ← isType left then return .branch CSymbol.specifiers.token [left, specifier]
  else raise (.malformed left t)

def specifierAfter : InfixRule := ⟨Level.highest, Level.highest, fun t _ left =>
  extendSpecifiers left t (.leaf t)⟩

def declarator : InfixRule := ⟨Level.highest, Level.highest, fun t _ left => do
  if ← isType left then return .branch CSymbol.declaration.token [left, .leaf t]
  else raise (.malformed left t)⟩

/-- Fields up to the closing brace, each with its semicolon. -/
def recordBody : Action Node := do
  let fields ← repeated do
    if ← accept .rightBrace then return .done
    else
      let field ← expr Level.root
      require .semicolon field
      return .item field
  return .branch CSymbol.body.token fields

/-- The name that an enumerator defines, with or without a value. -/
def enumeratorName (item : Node) : Action Node := do
  if (← kindOf item.token) == .c .assign then
    match item with
    | .leaf _ => defect (.noChildren item)
    | .branch _ [] => defect (.noFirstChild item)
    | .branch _ (name :: _) => return name
  else return item

/-- Every enumerator is an identifier, or one with a value. -/
def checkEnumerators (t : Token) : List Node → Action Unit
  | [] => return ()
  | item :: rest => do
    if ← isIdent (← enumeratorName item) then checkEnumerators t rest
    else raise (.malformed item t)

/-- Enumerators up to the closing brace, with commas between them and perhaps after them. -/
def enumBody (t : Token) : Action Node := do
  let items ← repeated do
    if ← accept .rightBrace then return .done
    else
      let item ← expr Level.root
      if ← accept .comma then return .item item
      else
        consume CSymbol.rightBrace.token
        return .last item
  checkEnumerators t items
  return .branch CSymbol.body.token items

def taggedBody (t : Token) : Action Node := do
  if (← kindOf t) == .c .kwEnum then enumBody t else recordBody

def tagged (t : Token) : Action Node := do
  if ← accept .leftBrace then return .branch t [← taggedBody t]
  else
    let tag ← expr Level.highest
    if ← isIdent tag then
      if ← acceptOrEnd .leftBrace then return .branch t [tag, ← taggedBody t]
      else return .branch t [tag]
    else raise (.malformed tag t)

def taggedFirst : PrefixRule := ⟨Level.root, fun t _ => tagged t⟩

def taggedAfter : InfixRule := ⟨Level.highest, Level.highest, fun t _ left => do
  extendSpecifiers left t (← tagged t)⟩

end BindingPower.C

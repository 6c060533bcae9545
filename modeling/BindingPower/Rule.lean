import BindingPower.Action
import BindingPower.Level

/-! Rules and the tables they are looked up in. One table starts expressions, the other
continues them; a kind has at most one rule in each, the first that was registered, and shares it with
the kinds that are the same. -/
namespace BindingPower

structure PrefixRule where
  power : Int
  action : Token → Int → Action Node

/-- The left power decides whether the rule may take what has been built as its operand; the
right power is handed to the action. A right power below the left one groups to the right. -/
structure InfixRule where
  left : Int
  right : Int
  action : Token → Int → Node → Action Node

/-- An operand that is the token itself. -/
def PrefixRule.leaf (power : Int) : PrefixRule :=
  ⟨power, fun t _ => return .leaf t⟩

/-- An operator before its operand, which binds tighter than the rule's power. -/
def PrefixRule.unary (power : Int) : PrefixRule :=
  ⟨power, fun t power => return .branch t [← Action.expr power]⟩

/-- An operator between its operands. -/
def InfixRule.binary (left right : Int) : InfixRule :=
  ⟨left, right, fun t power n => return .branch t [n, ← Action.expr power]⟩

structure RuleTable where
  prefixRules : List (Kind × PrefixRule) := []
  infixRules : List (Kind × InfixRule) := []

namespace RuleTable

def prefixRule? (t : RuleTable) (kind : Kind) : Option PrefixRule := kind.lookup t.prefixRules
def infixRule? (t : RuleTable) (kind : Kind) : Option InfixRule := kind.lookup t.infixRules

def contains (t : RuleTable) (kind : Kind) : Bool :=
  (t.prefixRule? kind).isSome || (t.infixRule? kind).isSome

end RuleTable

/-- A grammar under construction: rules are added until the table is handed to a parser. -/
structure Spec where
  table : RuleTable := {}
  sealed : Bool := false

/-- Registering yields the grammar as it then stands, and the error if there was one. -/
abbrev Registered := Spec × Option SpecError

namespace Spec

def addPrefix (s : Spec) (kind : Kind) (rule : PrefixRule) : Registered :=
  if s.sealed then (s, some .sealed)
  else if (s.table.prefixRule? kind).isSome then (s, some (.duplicate kind .starting))
  else ({ s with table.prefixRules := s.table.prefixRules ++ [(kind, rule)] }, none)

def addInfix (s : Spec) (kind : Kind) (rule : InfixRule) : Registered :=
  if s.sealed then (s, some .sealed)
  else if (s.table.infixRule? kind).isSome then (s, some (.duplicate kind .continuing))
  else ({ s with table.infixRules := s.table.infixRules ++ [(kind, rule)] }, none)

/-- One rule for many kinds, in order; a failure keeps the kinds before it. -/
def addPrefixes (s : Spec) (kinds : List Kind) (rule : PrefixRule) : Registered :=
  match kinds with
  | [] => (s, none)
  | kind :: kinds =>
    match s.addPrefix kind rule with
    | (s, none) => s.addPrefixes kinds rule
    | failed => failed

def addInfixes (s : Spec) (kinds : List Kind) (rule : InfixRule) : Registered :=
  match kinds with
  | [] => (s, none)
  | kind :: kinds =>
    match s.addInfix kind rule with
    | (s, none) => s.addInfixes kinds rule
    | failed => failed

/-- Seals the grammar and hands out its table. -/
def build (s : Spec) : RuleTable × Spec := (s.table, { s with sealed := true })

end Spec

end BindingPower

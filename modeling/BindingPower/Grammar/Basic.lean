import BindingPower.Parser
import BindingPower.Scanner

/-! A grammar: how its text is cut into tokens, its rules, and what a whole program is. -/
namespace BindingPower

structure Grammar where
  name : String
  description : String
  scan : String → Scan
  rules : RuleTable
  program : Action (List Node)
  classifier : Classifier := Classifier.byKind

namespace Grammar

def parser (g : Grammar) (limit : Option Int) : Parser :=
  { table := g.rules, classifier := g.classifier, limit }

/-- The parse of a text as it begins. -/
def start (g : Grammar) (text : String) : Progress := { lexer := .ofScan (g.scan text) }

/-- A parse with all that happened in it. -/
def run (g : Grammar) (text : String) (limit : Option Int) :
    Except Failure (List Node) × Progress :=
  (g.parser limit).perform g.program (g.start text)

/-- The top-level nodes of a text, or what went wrong first. -/
def parse (g : Grammar) (text : String) (limit : Option Int) : Except Failure (List Node) :=
  (g.run text limit).1

/-- One rule for each of several kinds. -/
def each {α : Type 1} (kinds : List Kind) (rule : α) : List (Kind × α) := kinds.map (·, rule)

end Grammar

namespace Action

/-- The kind of a token that must be a lexeme. -/
def kindOf (t : Token) : Action Kind :=
  match t.kind? with
  | some kind => pure kind
  | none => defect (.noKind t)

/-- All the nodes of a sequence, unless something stopped it. -/
def collect (outcomes : List (Outcome Node)) : Action (List Node) :=
  match outcomes with
  | [] => pure []
  | .error e :: _ => raise e
  | .ok n :: rest => return n :: (← collect rest)

end Action

end BindingPower

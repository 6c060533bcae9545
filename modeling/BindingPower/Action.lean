import BindingPower.Failure

/-! What a rule does when it is applied: a tree of requests to the parser, each followed by what
to do with its answer. A request that fails is answered with the error, so a rule may go on. -/
namespace BindingPower

/-- What a rule may ask of the parser that applies it. -/
inductive Request
  | peek
  | binds (threshold : Int)
  | expr (threshold : Int)
  | consume (expected : Token)
  | sequence (level : Int) (separator closing : Option Token)

abbrev Outcome (α : Type) := Except ParseError α

def Request.Answer : Request → Type
  | peek => Option Token
  | binds _ => Bool
  | expr _ => Node
  | consume _ => Unit
  | sequence .. => List (Outcome Node)

/-- How one round of a repetition ends. -/
inductive Round
  | done
  | item (n : Node)
  | last (n : Node)

inductive Action : Type → Type 1
  | give {α : Type} (a : α) : Action α
  | fail {α : Type} (cause : Failure) : Action α
  | ask {α : Type} (q : Request) (next : Outcome q.Answer → Action α) : Action α
  /-- Takes the items of the rounds, up to the one that ends the repetition. -/
  | gather {α : Type} (round : Action Round) (next : Outcome (List Node) → Action α) : Action α

namespace Action

protected def bind {α β : Type} : Action α → (α → Action β) → Action β
  | .give a, f => f a
  | .fail cause, _ => .fail cause
  | .ask q next, f => .ask q fun answer => (next answer).bind f
  | .gather round next, f => .gather round fun items => (next items).bind f

instance : Monad Action where
  pure := .give
  bind := Action.bind

def raise {α : Type} (e : ParseError) : Action α := .fail (.error e)
def defect {α : Type} (d : Defect) : Action α := .fail (.defect d)

/-- Go on with an answer, or end in its error. -/
def ofOutcome {α : Type} : Outcome α → Action α
  | .ok a => .give a
  | .error e => raise e

/-- The answer to a request or its error, whichever comes. -/
def attempt (q : Request) : Action (Outcome q.Answer) := .ask q .give

def peek : Action (Option Token) := .ask .peek ofOutcome
def binds (threshold : Int) : Action Bool := .ask (.binds threshold) ofOutcome
def expr (threshold : Int) : Action Node := .ask (.expr threshold) ofOutcome
def consume (expected : Token) : Action Unit := .ask (.consume expected) ofOutcome
def sequence (level : Int) (separator closing : Option Token) : Action (List (Outcome Node)) :=
  .ask (.sequence level separator closing) ofOutcome
def repeated (round : Action Round) : Action (List Node) := .gather round ofOutcome

end Action

end BindingPower

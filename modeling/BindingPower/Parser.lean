import BindingPower.Lexer
import BindingPower.Rule

/-! The engine: a prefix rule reads the first token, then infix rules take what has been built
as their left operand for as long as their left power exceeds the threshold. -/
namespace BindingPower

/-- Tells the kind a token is dispatched on, given how many tokens were classified before. -/
abbrev Classifier := Nat → Token → Except Defect Kind

namespace Classifier

/-- Lexemes by the kind they carry, words by their text. -/
def byKind : Classifier := fun _ t => .ok t.kind

/-- Words as numbers, identifiers or themselves. -/
def byText : Classifier
  | _, .word text => .ok (.text (classifyText text))
  | _, t => .error (.notText t)

/-- Every token as itself for a number of times, and a fixed kind from then on. -/
def wearing (times : Int) (after : Kind) : Classifier := fun asked t =>
  .ok <| if times ≤ asked then after
    else match t with
      | .word text => .text text
      | t => .other t.toText

end Classifier

/-- What happened in a parse, for traces and for counting. -/
inductive Event
  | enter (threshold : Int)
  | refuse (threshold : Int)
  | classify (token : Token) (kind : Kind)
  | left (n : Node)
  | result (n : Node)
  | leave
  deriving DecidableEq, Repr

structure Parser where
  table : RuleTable
  classifier : Classifier := Classifier.byKind
  /-- How many expressions may be open at once, if there is a limit. -/
  limit : Option Int := none

/-- What a parse changes. The depth counts the expressions that are open; the log has the
latest event first. -/
structure Progress where
  lexer : Lexer
  depth : Nat := 0
  classified : Nat := 0
  log : List Event := []
  deriving DecidableEq, Repr

abbrev ParseM := ExceptT Failure (StateM Progress)

namespace ParseM

def record (e : Event) : ParseM Unit := modify fun s => { s with log := e :: s.log }

def raise {α : Type} (e : ParseError) : ParseM α := throw (.error e)

def peek : ParseM (Option Token) := fun s =>
  match s.lexer.peek with
  | (.ok t, lexer) => (.ok t, { s with lexer })
  | (.error e, lexer) => (.error (.error e), { s with lexer })

def advance : ParseM Token := fun s =>
  match s.lexer.advance with
  | (.ok t, lexer) => (.ok t, { s with lexer })
  | (.error e, lexer) => (.error (.error e), { s with lexer })

/-- An answer or the error in its place. Defects pass through. -/
def outcome {α : Type} (m : ParseM α) : ParseM (Outcome α) := fun s =>
  match m s with
  | (.ok a, s) => (.ok (.ok a), s)
  | (.error (.error e), s) => (.ok (.error e), s)
  | (.error (.defect d), s) => (.error (.defect d), s)

def consume (expected : Token) : ParseM Unit := do
  match ← peek with
  | none => raise .incomplete
  | some t =>
    if t.same expected then
      let _ ← advance
      return
    else raise (.consumeFailed expected t)

/-- How many tokens are still to come. Whatever takes a token in each of its rounds has no more
rounds than that. -/
def room : ParseM Nat := return (← get).lexer.room

/-- Whether a certain token comes next. -/
def at? (t : Token) : ParseM Bool := return (← peek).any (·.same t)

end ParseM

namespace Parser

open ParseM

def kindOf (p : Parser) (t : Token) : ParseM Kind := fun s =>
  match p.classifier s.classified t with
  | .ok kind => (.ok kind, { s with classified := s.classified + 1 })
  | .error d => (.error (.defect d), s)

/-- Whether the next token continues an expression at this threshold. -/
def binds (p : Parser) (threshold : Int) : ParseM Bool := do
  match ← peek with
  | none => return false
  | some t =>
    match p.table.infixRule? (← p.kindOf t) with
    | none => return false
    | some rule => return decide (threshold < rule.left)

/-- Opens an expression, unless the limit is reached, and closes it however it ends. -/
def nested (p : Parser) (threshold : Int) (body : ParseM Node) : ParseM Node := fun s =>
  if p.limit.any fun limit => limit ≤ (s.depth : Int) then
    (.error (.error (.tooDeep (p.limit.getD 0))), { s with log := .refuse threshold :: s.log })
  else
    let (r, s) := body { s with depth := s.depth + 1, log := .enter threshold :: s.log }
    (r, { s with depth := s.depth - 1, log := .leave :: s.log })

/-- Without separators the closing token may come before any element. -/
def closes (separator closing : Option Token) : ParseM Bool :=
  match separator, closing with
  | none, some closing => at? closing
  | _, _ => pure false

/-- How an error ends a sequence: the end of the input counts only if a closing token is due. -/
def ending (closing : Option Token) : ParseError → List (Outcome Node)
  | .incomplete => if closing.isSome then [.error .incomplete] else []
  | e => [.error e]

/-- Elements at a level with separators between them, to the end of the input or the closing
token. Whatever stops the sequence otherwise is its last outcome. `times` bounds the elements. -/
def elements (expr : Int → ParseM Node) (level : Int) (separator closing : Option Token) :
    (times : Nat) → ParseM (List (Outcome Node))
  | 0 => pure []
  | times + 1 => do
    if ← closes separator closing then
      let _ ← advance
      return []
    else
      match ← outcome (expr level) with
      | .error e => return ending closing e
      | .ok n =>
        match separator with
        | none => return .ok n :: (← elements expr level none closing times)
        | some separator =>
          match ← outcome (consume separator) with
          | .ok () => return .ok n :: (← elements expr level (some separator) closing times)
          | .error .incomplete => return .ok n :: ending closing .incomplete
          | .error (.consumeFailed expected found) =>
            if closing.any found.same then
              let _ ← advance
              return [.ok n]
            else return [.ok n, .error (.consumeFailed expected found)]
          | .error e => raise e

/-- Answers a request, given how to read an expression. -/
def answer (p : Parser) (expr : Int → ParseM Node) : (q : Request) → ParseM q.Answer
  | .peek => peek
  | .binds threshold => p.binds threshold
  | .expr threshold => expr threshold
  | .consume expected => consume expected
  | .sequence level separator closing => do
    elements expr level separator closing ((← room) + 1)

/-- The items of at most so many rounds. -/
def rounds (round : ParseM Round) : Nat → ParseM (List Node)
  | 0 => return []
  | n + 1 => do
    match ← round with
    | .done => return []
    | .last item => return [item]
    | .item item => return item :: (← rounds round n)

/-- Carries out an action, given how to read an expression. -/
def run (p : Parser) (expr : Int → ParseM Node) {α : Type} : Action α → ParseM α
  | .give a => pure a
  | .fail cause => throw cause
  | .ask q next => do
    let a ← outcome (p.answer expr q)
    p.run expr (next a)
  | .gather round next => do
    let items ← outcome (do rounds (p.run expr round) ((← room) + 1))
    p.run expr (next items)

/-- Takes the next token and applies its prefix rule. -/
def start (p : Parser) (expr : Int → ParseM Node) : ParseM Node := do
  let t ← advance
  let kind ← p.kindOf t
  record (.classify t kind)
  match p.table.prefixRule? kind with
  | none => raise (.missingRule t .starting)
  | some rule =>
    let left ← p.run expr (rule.action t rule.power)
    record (.left left)
    return left

/-- Takes the next token and applies its infix rule to what has been built. -/
def extend (p : Parser) (expr : Int → ParseM Node) (left : Node) : ParseM Node := do
  let t ← advance
  match p.table.infixRule? (← p.kindOf t) with
  | none => raise (.missingRule t .continuing)
  | some rule =>
    let left ← p.run expr (rule.action t rule.right left)
    record (.left left)
    return left

/-- Lets infix rules take what has been built, while their left power exceeds the threshold. Each
takes a token, so a bound on the tokens to come bounds how often. -/
def continued (p : Parser) (expr : Int → ParseM Node) (threshold : Int) :
    (bound : Nat) → Node → ParseM Node
  | 0, left => do
    let _ ← p.binds threshold
    return left
  | bound + 1, left => do
    if ← p.binds threshold then
      let left ← p.extend expr left
      p.continued expr threshold bound left
    else return left

/-- Reads the longest expression whose operators bind tighter than the threshold. Every
expression takes a token, so a bound on the tokens to come bounds the nesting too. -/
def expr (p : Parser) : (bound : Nat) → (threshold : Int) → ParseM Node
  | 0, threshold => p.nested threshold do
    let _ ← peek
    raise .incomplete
  | bound + 1, threshold => p.nested threshold do
    match ← peek with
    | none => raise .incomplete
    | some _ =>
      let left ← p.start (p.expr bound)
      let n ← p.continued (p.expr bound) threshold bound left
      record (.result n)
      return n

/-- Carries out an action on the tokens that are left. -/
def perform (p : Parser) {α : Type} (action : Action α) : ParseM α := do
  p.run (p.expr (← room)) action

end Parser

namespace Event

/-- What a trace shows of an event. -/
def message? : Event → Option String
  | enter threshold => some ("parse_expr(rbp: " ++ Level.toText threshold ++ ")")
  | classify t kind => some (t.toText ++ " => " ++ kind.toText)
  | left n => some ("left: " ++ n.toText)
  | result n => some ("returning " ++ n.toText)
  | _ => none

end Event

def Progress.trace (s : Progress) : List String := s.log.reverse.filterMap Event.message?

end BindingPower

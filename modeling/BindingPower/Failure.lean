import BindingPower.Diagnostic
import BindingPower.Node
import BindingPower.Text.Quoted

/-! What can go wrong: errors of the input, which rules may catch, defects of the rules
themselves, which nothing catches, and errors in the making of a grammar. -/
namespace BindingPower

/-- The table that a rule is registered in. -/
inductive Role
  | starting | continuing
  deriving DecidableEq, Repr

def Role.name : Role → String
  | starting => "prefix" | continuing => "infix"

inductive ParseError
  | incomplete
  | missingRule (token : Token) (role : Role)
  | consumeFailed (expected found : Token)
  | malformed (node : Node) (token : Token)
  | tooDeep (limit : Int)
  | unexpectedCharacter (character : String) (offset : Int)
  | general (text : String)
  deriving DecidableEq, Repr

/-- A label on the token's place in the source; a token of unknown place has none. -/
def Token.labels (t : Token) (message : String) : List Label :=
  match t with
  | .lexeme _ value (some offset) => [⟨offset, max 1 value.length, message⟩]
  | _ => []

namespace ParseError

def code : ParseError → String
  | general _ => "P000" | incomplete => "P001" | missingRule .. => "P002"
  | consumeFailed .. => "P003" | malformed .. => "P004" | tooDeep _ => "P005"
  | unexpectedCharacter .. => "P006"

def message : ParseError → String
  | incomplete => "token iteration ended before parsing context finished"
  | missingRule t role => "missing a " ++ role.name ++ " syntax rule for: " ++ t.toText
  | consumeFailed expected found => "consume(expected: " ++ expected.toText ++
      ") didn't find expected token, instead found: " ++ found.toText
  | malformed node t => "incorrect syntax at " ++ t.toText ++ ", failed on node: " ++ node.toText
  | tooDeep limit => "expression nesting exceeds the limit of " ++ toString limit
  | unexpectedCharacter c offset =>
    "unexpected character " ++ Text.quoted c ++ " at offset " ++ toString offset
  | general text => text

def labels : ParseError → List Label
  | missingRule t role => t.labels ("no " ++ role.name ++ " rule")
  | consumeFailed expected found => found.labels ("expected \x60" ++ expected.toText ++ "\x60")
  | malformed _ t => t.labels ""
  | unexpectedCharacter _ offset => [⟨offset, 1, "not part of any token"⟩]
  | _ => []

def notes : ParseError → List String
  | missingRule t role =>
    ["\x60" ++ t.toText ++ "\x60 cannot be used in " ++ role.name ++ " position"]
  | malformed node _ => ["while building: " ++ node.toText]
  | _ => []

def diagnostic (e : ParseError) : Diagnostic :=
  { code := e.code, message := e.message, labels := e.labels, notes := e.notes }

/-- Equal causes. An error with a text of its own is like no other. -/
def same : ParseError → ParseError → Bool
  | incomplete, incomplete => true
  | missingRule t r, missingRule u s => t.same u && decide (r = s)
  | consumeFailed t u, consumeFailed v w => t.same v && u.same w
  | malformed n t, malformed m u => n.same m && t.same u
  | tooDeep l, tooDeep m => decide (l = m)
  | unexpectedCharacter c o, unexpectedCharacter d p => decide (c = d) && decide (o = p)
  | _, _ => false

end ParseError

/-- A rule that asked of a token or a node what it does not have. -/
inductive Defect
  | noKind (token : Token)
  | notText (token : Token)
  | noChildren (node : Node)
  | noFirstChild (node : Node)
  | noLastChild (node : Node)
  deriving DecidableEq, Repr

inductive Failure
  | error (cause : ParseError)
  | defect (cause : Defect)
  deriving DecidableEq, Repr

inductive SpecError
  | sealed
  | duplicate (kind : Kind) (role : Role)
  | general (text : String)
  deriving DecidableEq, Repr

namespace SpecError

def message : SpecError → String
  | sealed => "specification was already handed to a parser and can no longer change"
  | duplicate kind role => "a " ++ role.name ++ " rule is already registered for: " ++ kind.toText
  | general text => text

def diagnostic (e : SpecError) : Diagnostic :=
  { code := match e with | duplicate .. => "S001" | _ => "S002", message := e.message }

end SpecError

end BindingPower

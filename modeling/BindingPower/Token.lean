import BindingPower.Kind

/-! Tokens. Where a lexeme stood is kept for diagnostics and plays no part in comparison. Whether two are the
same goes by their kinds as such, which of two is less by the keys of the kinds. -/
namespace BindingPower

inductive Token
  | word (text : String)
  | lexeme (kind : Kind) (value : String) (offset : Option Int)
  /-- A gap among the tokens: looked at, it cannot be told from the end of the input. -/
  | absent
  deriving DecidableEq, Repr

namespace Token

def toText : Token → String
  | word text => text
  | lexeme kind value _ =>
    if value = "" || value = kind.name then kind.name
    else "(" ++ kind.name ++ ": " ++ value ++ ")"
  | absent => "None"

/-- The token without its place. -/
def bare : Token → Token
  | lexeme kind value _ => lexeme kind value none
  | t => t

def same : Token → Token → Bool
  | word s, word t => decide (s = t)
  | lexeme k v _, lexeme l w _ => k.same l && decide (v = w)
  | absent, absent => true
  | _, _ => false

/-- A token that is no lexeme is its own kind. -/
def kind : Token → Kind
  | word text => .text text
  | lexeme kind _ _ => kind
  | absent => .absent

/-- The kind of a lexeme; no other token carries one. -/
def kind? : Token → Option Kind
  | lexeme kind _ _ => some kind
  | _ => none

/-- What looking at a token shows. -/
def present? : Token → Option Token
  | absent => none
  | t => some t

/-- Lexemes are ordered by the key of the kind, then by value, and words by their text; the two
sorts cannot be ordered against each other. -/
def lt? : Token → Token → Option Bool
  | lexeme k v _, lexeme k' v' _ =>
    some (k.key < k'.key || (k.key = k'.key && v < v'))
  | word s, word t => some (s < t)
  | _, _ => none

def le? (a b : Token) : Option Bool := (a.lt? b).map (· || a.same b)
def gt? (a b : Token) : Option Bool := (a.lt? b).map fun less => !less && !a.same b
def ge? (a b : Token) : Option Bool := (a.lt? b).map (!·)

end Token

/-- Words are numbers or identifiers when they consist of ASCII letters and digits, by whether
a letter occurs, and stand for themselves otherwise. The empty word counts as a number. -/
def classifyText (text : String) : String :=
  if text.toList.all Char.isDigit then "number"
  else if text.toList.all Char.isAlphanum then "ident"
  else text

end BindingPower

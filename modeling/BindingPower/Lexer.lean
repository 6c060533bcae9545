import BindingPower.Failure

/-! Sources of tokens: a list with a cursor, and a stream that is read one token ahead and may
break off with an error. Both can be looked at and moved past. -/
namespace BindingPower

/-- The tokens of a text up to its end or to the first error. -/
structure Scan where
  tokens : List Token
  fault : Option ParseError := none
  deriving DecidableEq, Repr

structure ListLexer where
  position : Nat := 0
  remaining : List Token
  deriving DecidableEq, Repr

namespace ListLexer

def extend (l : ListLexer) (tokens : List Token) : ListLexer :=
  { l with remaining := l.remaining ++ tokens }

def toText (l : ListLexer) : String :=
  "ListLexer(position=" ++ toString l.position ++ ", remaining=" ++ toString l.remaining.length ++ ")"

def peek (l : ListLexer) : Option Token := l.remaining.head?.bind Token.present?

def advance (l : ListLexer) : Except ParseError Token × ListLexer :=
  match l.remaining with
  | [] => (.error .incomplete, l)
  | t :: rest => (.ok t, ⟨l.position + 1, rest⟩)

end ListLexer

/-- A stream with the token that has been read ahead, if any. -/
structure StreamLexer where
  ahead : Option Token := none
  rest : Scan
  deriving DecidableEq, Repr

namespace StreamLexer

/-- Reads one token ahead unless that is done. An error is met once; after it the stream is
at its end. -/
def fill (l : StreamLexer) : Except ParseError (Option Token) × StreamLexer :=
  match l.ahead, l.rest.tokens, l.rest.fault with
  | some t, _, _ => (.ok (some t), l)
  | none, t :: rest, fault => (.ok (some t), ⟨some t, ⟨rest, fault⟩⟩)
  | none, [], some e => (.error e, ⟨none, ⟨[], none⟩⟩)
  | none, [], none => (.ok none, l)

def peek (l : StreamLexer) : Except ParseError (Option Token) × StreamLexer :=
  match l.fill with
  | (.ok t, l) => (.ok (t.bind Token.present?), l)
  | (.error e, l) => (.error e, l)

def advance (l : StreamLexer) : Except ParseError Token × StreamLexer :=
  match l.fill with
  | (.ok (some t), l) => (.ok t, { l with ahead := none })
  | (.ok none, l) => (.error .incomplete, l)
  | (.error e, l) => (.error e, l)

end StreamLexer

inductive Lexer
  | list (l : ListLexer)
  | stream (l : StreamLexer)
  deriving DecidableEq, Repr

namespace Lexer

def ofList (tokens : List Token) : Lexer := list { remaining := tokens }
def ofScan (scan : Scan) : Lexer := stream { rest := scan }

/-- The next token, left in place; nothing at the end and at a gap. -/
def peek : Lexer → Except ParseError (Option Token) × Lexer
  | list l => (.ok l.peek, list l)
  | stream l => (l.peek.1, stream l.peek.2)

def advance : Lexer → Except ParseError Token × Lexer
  | list l => (l.advance.1, list l.advance.2)
  | stream l => (l.advance.1, stream l.advance.2)

/-- How many tokens are still to come. -/
def room : Lexer → Nat
  | list l => l.remaining.length
  | stream l => l.ahead.toList.length + l.rest.tokens.length

end Lexer

end BindingPower

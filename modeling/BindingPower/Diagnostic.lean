import BindingPower.Text.Integer

/-! Diagnostics and how they are shown: a header, then for each label the row of the source
it points at with carets below the labelled columns, then the notes. -/
namespace BindingPower

inductive Severity
  | error | warning | note
  deriving DecidableEq, Repr

/-- A range of columns of the source, from an offset in code points. -/
structure Label where
  offset : Int
  width : Int := 1
  message : String := ""
  deriving DecidableEq, Repr

structure Diagnostic where
  severity : Severity := .error
  code : String
  message : String
  labels : List Label := []
  notes : List String := []
  deriving DecidableEq, Repr

/-- Where an offset lies: line and column from 1, and the row of text that holds it. -/
structure Place where
  line : Nat
  column : Nat
  row : List Char
  deriving DecidableEq, Repr

/-- Offsets outside the source count as its nearest end. A newline belongs to the row it ends. -/
def locate (source : List Char) (offset : Int) : Place :=
  let before := source.take offset.toNat
  let head := (before.reverse.takeWhile (· != '\n')).reverse
  { line := before.count '\n' + 1
    column := head.length + 1
    row := head ++ (source.drop offset.toNat).takeWhile (· != '\n') }

namespace Severity

def name : Severity → String
  | error => "error" | warning => "warning" | note => "note"

def colour : Severity → String
  | error => "\x1b[1;31m" | warning => "\x1b[1;33m" | note => "\x1b[1;36m"

end Severity

def bold : String := "\x1b[1m"
def blue : String := "\x1b[1;34m"
def resetColour : String := "\x1b[0m"

/-- Text in a colour, or as it is where colours are off. -/
def paint (colours : Bool) (colour text : String) : String :=
  if colours then colour ++ text ++ resetColour else text

private def blanks (n : Nat) : String := String.ofList (List.replicate n ' ')

/-- A line number, right-aligned in four columns. -/
def gutter (line : Nat) : String := blanks (4 - (toString line).length) ++ toString line

namespace Diagnostic

def header (d : Diagnostic) (colours : Bool) : String :=
  paint colours d.severity.colour (d.severity.name ++ "[" ++ d.code ++ "]") ++
    paint colours bold (": " ++ d.message)

/-- The rows of one label. Without a source only the position is shown, on line 1. -/
def labelRows (d : Diagnostic) (colours : Bool) (source : Option (List Char)) (label : Label) :
    List String :=
  let mark := paint colours d.severity.colour
  let rail := paint colours blue
  let position (line column : String) :=
    ["  " ++ rail "-->" ++ " input:" ++ line ++ ":" ++ column, "  " ++ rail "   |"]
  match source with
  | none => position "1" (toString (label.offset + 1))
  | some source =>
    let place := locate source label.offset
    position (toString place.line) (toString place.column) ++
    ["  " ++ rail (gutter place.line ++ " |") ++ " " ++ String.ofList place.row,
     "  " ++ rail "   |" ++ " " ++ blanks (place.column - 1) ++
        mark (String.ofList (List.replicate (max 1 label.width).toNat '^'))] ++
    (if label.message = "" then [] else ["  " ++ rail "   |" ++ "   " ++ mark label.message])

def rows (d : Diagnostic) (colours : Bool) (source : Option (List Char)) : List String :=
  d.header colours :: (d.labels.flatMap (d.labelRows colours source) ++
    d.notes.map fun note => "  " ++ paint colours blue "=" ++ " note: " ++ note)

/-- The diagnostic as it is shown, unless `renderError?` says what keeps it from that. -/
def render (d : Diagnostic) (colours : Bool) (source : Option String) : String :=
  "\n".intercalate (d.rows colours (source.map String.toList))

end Diagnostic

/-- The length that no text exceeds. -/
def longest : Int := 9223372036854775807

/-- What keeps a diagnostic from being shown. -/
inductive RenderError
  /-- A label wider than any text. -/
  | tooWide (width : Int)
  /-- A column that is too large a number to be written. -/
  | column (cause : Text.IntegerError)
  deriving DecidableEq, Repr

namespace Diagnostic

/-- The first label that cannot be shown decides. Without a source its width does not matter, and
with one its offset does not. -/
def renderError? (d : Diagnostic) (source : Option String) : Option RenderError :=
  d.labels.findSome? fun label =>
    match source with
    | none => if Text.isWritable (label.offset + 1) then none else some (.column .unwritable)
    | some _ => if label.width ≤ longest then none else some (.tooWide label.width)

end Diagnostic

end BindingPower

import BindingPower.Text.Integer
import BindingPower.Toml.Value

/-! How strings, numbers and points in time are written in TOML. Each reader answers what it
read and the text after it. -/
namespace BindingPower.Toml

inductive Fault
  | malformed
  | tooLong (digits : Nat)
  deriving DecidableEq, Repr

def malformed {α : Type} : Except Fault α := .error .malformed

/-- Blanks within a row. -/
def isGap (c : Char) : Bool := c == ' ' || c == '\t'

/-- Control characters, of which only the tab may stand in a row. -/
def isForbidden (c : Char) : Bool := (c.toNat < 32 && c != '\t') || c.toNat == 127

/-! ### Strings -/

/-- A character given by so many hexadecimal digits. -/
def codePoint (width : Nat) (s : List Char) : Except Fault (Char × List Char) :=
  match (s.take width).mapM Text.hexDigit? with
  | none => malformed
  | some digits =>
    let n := Text.ofDigits 16 digits
    if digits.length = width ∧ n.isValidChar then .ok (Char.ofNat n, s.drop width) else malformed

/-- What an escape stands for, after its backslash. -/
def escape : List Char → Except Fault (Char × List Char)
  | 'b' :: s => .ok ('\x08', s)
  | 't' :: s => .ok ('\t', s)
  | 'n' :: s => .ok ('\n', s)
  | 'f' :: s => .ok ('\x0c', s)
  | 'r' :: s => .ok ('\r', s)
  | '"' :: s => .ok ('"', s)
  | '\\' :: s => .ok ('\\', s)
  | 'u' :: s => codePoint 4 s
  | 'U' :: s => codePoint 8 s
  | _ => malformed

/-- The text after a backslash that ends its row: all blanks and newlines are passed over. -/
def joinedRows? (s : List Char) : Option (List Char) :=
  match s with
  | c :: _ =>
    if isGap c || c == '\n' then
      match s.dropWhile isGap with
      | '\n' :: rest => some (rest.dropWhile fun c => isGap c || c == '\n')
      | _ => none
    else none
  | [] => none

/-- The rest of a string in double quotes, up to one quote or to three. -/
def basicBody (rows : Bool) : (room : Nat) → List Char → Except Fault (List Char × List Char)
  | 0, _ | _, [] => malformed
  | room + 1, '"' :: s =>
    match rows, s with
    | false, s => .ok ([], s)
    | true, '"' :: '"' :: s => .ok ([], s)
    | true, s => do
      let (text, s) ← basicBody rows room s
      return ('"' :: text, s)
  | room + 1, '\\' :: s =>
    match if rows then joinedRows? s else none with
    | some s => basicBody rows room s
    | none => do
      let (c, s) ← escape s
      let (text, s) ← basicBody rows room s
      return (c :: text, s)
  | room + 1, c :: s =>
    if isForbidden c && !(rows && c == '\n') then malformed
    else do
      let (text, s) ← basicBody rows room s
      return (c :: text, s)

/-- The rest of a string in single quotes. -/
def literalBody : List Char → Except Fault (List Char × List Char)
  | [] => malformed
  | '\'' :: s => .ok ([], s)
  | c :: s =>
    if isForbidden c then malformed
    else do
      let (text, s) ← literalBody s
      return (c :: text, s)

/-- The rest of a string in three single quotes. -/
def literalRows : List Char → Except Fault (List Char × List Char)
  | [] => malformed
  | '\'' :: '\'' :: '\'' :: s => .ok ([], s)
  | c :: s =>
    if isForbidden c && c != '\n' then malformed
    else do
      let (text, s) ← literalRows s
      return (c :: text, s)

/-- Up to two more quotes after the three that end a string belong to it. -/
def moreQuotes (quote : Char) (text s : List Char) : List Char × List Char :=
  match s with
  | c :: d :: rest =>
    if c = quote then if d = quote then (text ++ [quote, quote], rest) else (text ++ [quote], d :: rest)
    else (text, s)
  | [c] => if c = quote then (text ++ [quote], []) else (text, s)
  | [] => (text, s)

def dropNewline : List Char → List Char
  | '\n' :: s => s
  | s => s

/-- A string of one row, as keys are written. -/
def oneRow : List Char → Except Fault (List Char × List Char)
  | '"' :: s => basicBody false s.length.succ s
  | '\'' :: s => literalBody s
  | _ => malformed

/-- A string of one row or several. -/
def string (s : List Char) : Except Fault (List Char × List Char) :=
  match s with
  | '"' :: '"' :: '"' :: s => do
    let (text, s) ← basicBody true s.length.succ (dropNewline s)
    return moreQuotes '"' text s
  | '\'' :: '\'' :: '\'' :: s => do
    let (text, s) ← literalRows (dropNewline s)
    return moreQuotes '\'' text s
  | s => oneRow s

/-! ### Numbers -/

/-- Further digits, each perhaps after an underscore. -/
def moreDigits (isDigit : Char → Bool) : List Char → List Char × List Char
  | '_' :: c :: s =>
    if isDigit c then
      let (digits, s) := moreDigits isDigit s
      (c :: digits, s)
    else ([], '_' :: c :: s)
  | c :: s =>
    if isDigit c then
      let (digits, s) := moreDigits isDigit s
      (c :: digits, s)
    else ([], c :: s)
  | [] => ([], [])

def digitRun? (isDigit : Char → Bool) : List Char → Option (List Char × List Char)
  | c :: s =>
    if isDigit c then
      let (digits, s) := moreDigits isDigit s
      some (c :: digits, s)
    else none
  | [] => none

private def valueOf (base : Nat) (digits : List Char) : Nat :=
  Text.ofDigits base (digits.filterMap Text.hexDigit?)

/-- The base that a letter after a zero announces, with its digits. -/
def radix? : Char → Option (Nat × (Char → Bool))
  | 'x' => some (16, fun c => (Text.hexDigit? c).isSome)
  | 'o' => some (8, fun c => '0' ≤ c && c ≤ '7')
  | 'b' => some (2, fun c => c == '0' || c == '1')
  | _ => none

def based? : List Char → Option (Value × List Char)
  | '0' :: letter :: s => do
    let (base, isDigit) ← radix? letter
    let (digits, s) ← digitRun? isDigit s
    return (.integer (valueOf base digits), s)
  | _ => none

/-- A sign that may be left out; whether it is a minus. -/
def sign : List Char → Bool × List Char
  | '-' :: s => (true, s)
  | '+' :: s => (false, s)
  | s => (false, s)

/-- The digits before the point: a zero alone, or no zero first. -/
def whole? : List Char → Option (List Char × List Char)
  | '0' :: s => some (['0'], s)
  | s => digitRun? Char.isDigit s

def fraction? : List Char → Option (List Char × List Char)
  | '.' :: s => digitRun? Char.isDigit s
  | _ => none

def exponent? : List Char → Option (Int × List Char)
  | c :: s =>
    if c = 'e' ∨ c = 'E' then do
      let (negative, s) := sign s
      let (digits, s) ← digitRun? Char.isDigit s
      let n : Int := valueOf 10 digits
      return (if negative then -n else n, s)
    else none
  | [] => none

/-- A decimal number, which is a float if it has a fraction or an exponent. -/
def decimal? (s : List Char) : Option (Except Fault (Value × List Char)) := do
  let (negative, s) := sign s
  let (whole, s) ← whole? s
  let (part, s) := (fraction? s).getD ([], s)
  let (power, s') := (exponent? s).getD (0, s)
  if part.isEmpty && s'.length = s.length then
    let n : Int := valueOf 10 whole
    if Text.digitLimit < whole.length then return .error (.tooLong whole.length)
    else return .ok (.integer (if negative then -n else n), s)
  else
    let x := Binary64.ofDecimal negative (valueOf 10 (whole ++ part)) (power - part.length)
    return .ok (.float x, s')

def special? (s : List Char) : Option (Value × List Char) :=
  let (negative, s) := sign s
  match s with
  | 'i' :: 'n' :: 'f' :: s => some (.float (.infinite negative), s)
  | 'n' :: 'a' :: 'n' :: s => some (.float .nan, s)
  | _ => none

/-! ### Points in time -/

/-- A number of exactly so many digits. -/
def fixed? (width : Nat) (s : List Char) : Option (Nat × List Char) :=
  let digits := s.take width
  if digits.length = width ∧ digits.all Char.isDigit then some (valueOf 10 digits, s.drop width)
  else none

def mark? (c : Char) : List Char → Option (List Char)
  | d :: s => if c = d then some s else none
  | [] => none

def date? (s : List Char) : Option (Date × List Char) := do
  let (year, s) ← fixed? 4 s
  let (month, s) ← fixed? 2 (← mark? '-' s)
  let (day, s) ← fixed? 2 (← mark? '-' s)
  if 1 ≤ month ∧ month ≤ 12 ∧ 1 ≤ day ∧ day ≤ 31 then return (⟨year, month, day⟩, s) else none

/-- Hours and minutes of a day. -/
def hours? (s : List Char) : Option ((Nat × Nat) × List Char) := do
  let (hour, s) ← fixed? 2 s
  let (minute, s) ← fixed? 2 (← mark? ':' s)
  if hour ≤ 23 ∧ minute ≤ 59 then return ((hour, minute), s) else none

/-- Of a fraction of a second six digits count. -/
def microseconds (s : List Char) : Nat × List Char :=
  match s with
  | '.' :: rest =>
    let digits := rest.takeWhile Char.isDigit
    if digits.isEmpty then (0, s)
    else
      let six := digits.take 6
      (valueOf 10 six * Nat.pow 10 (6 - six.length), rest.drop digits.length)
  | _ => (0, s)

def time? (s : List Char) : Option (Time × List Char) := do
  let ((hour, minute), s) ← hours? s
  let (second, s) ← fixed? 2 (← mark? ':' s)
  if second ≤ 59 then
    let (part, s) := microseconds s
    return (⟨hour, minute, second, part⟩, s)
  else none

/-- The offset from universal time, in minutes. -/
def zone? : List Char → Option (Int × List Char)
  | 'Z' :: s | 'z' :: s => some (0, s)
  | '+' :: s => (hours? s).map fun ((h, m), s) => ((60 * h + m : Nat), s)
  | '-' :: s => (hours? s).map fun ((h, m), s) => (-(60 * h + m : Nat), s)
  | _ => none

/-- The time of a date, after a letter or a blank. -/
def timeAfter? : List Char → Option (Time × List Char)
  | c :: s => if c = 'T' ∨ c = 't' ∨ c = ' ' then time? s else none
  | [] => none

/-- A date, a time or both; a date that is in no calendar is an error. -/
def moment? (s : List Char) : Option (Except Fault (Moment × List Char)) :=
  match date? s with
  | some (d, s) =>
    some <| if d.isValid then
      match timeAfter? s with
      | none => .ok (.date d, s)
      | some (t, s) =>
        match zone? s with
        | some (offset, s) => .ok (.dateTime d t (some offset), s)
        | none => .ok (.dateTime d t none, s)
    else malformed
  | none => (time? s).map fun (t, s) => .ok (.time t, s)

end BindingPower.Toml

import BindingPower.Text.Blank
import BindingPower.Text.Digit
import BindingPower.Text.Quoted

/-! Integers as people write them: blanks around, a sign, and decimal digits of any script with
single underscores between them. Neither reading nor writing goes beyond a number of digits. -/
namespace BindingPower.Text

/-- How many digits an integer may be written with. -/
def digitLimit : Nat := 4300

inductive IntegerError
  | malformed (text : String)
  | tooLong (digits : Nat)
  | unwritable
  deriving DecidableEq, Repr

/-- The text that could not be read is shown quoted, and no more than two hundred characters of it. -/
def IntegerError.message : IntegerError → String
  | malformed text => "invalid literal for int() with base 10: " ++
      String.ofList ((quoted text).toList.take 200)
  | tooLong digits => limitText ++ ": value has " ++ toString digits ++ " digits" ++ remedyText
  | unwritable => limitText ++ remedyText
where
  limitText := "Exceeds the limit (" ++ toString digitLimit ++
    " digits) for integer string conversion"
  remedyText := "; use sys.set_int_max_str_digits() to increase the limit"

/-- Whether an integer can be written with the digits that are allowed. -/
def isWritable (n : Int) : Bool := n.natAbs < Nat.pow 10 digitLimit

/-- The separator controls are no margin of a number. -/
def isMargin (c : Char) : Bool := isBlank c && !(0x1c ≤ c.toNat && c.toNat ≤ 0x1f)

/-- The digits of a text that begins and ends with one and has no two underscores together. -/
def digits? : List Char → Option (List Nat)
  | [] => none
  | [c] => (digit? c).map ([·])
  | c :: '_' :: rest => do return (← digit? c) :: (← digits? rest)
  | c :: rest => do return (← digit? c) :: (← digits? rest)

/-- The number with these digits, highest first. -/
def ofDigits (base : Nat) (digits : List Nat) : Nat := digits.foldl (fun n d => base * n + d) 0

/-- Reads the digits after the sign. That there are too many of them is noticed before what
follows them is looked at. -/
def readInteger (text : String) : Except IntegerError Int :=
  let (negative, written) := match text.toList.dropWhile isMargin with
    | '-' :: rest => (true, rest)
    | '+' :: rest => (false, rest)
    | rest => (false, rest)
  let isPart := fun c => c = '_' || (digit? c).isSome
  match digits? (written.takeWhile isPart) with
  | none => .error (.malformed text)
  | some digits =>
    if digitLimit < digits.length then .error (.tooLong digits.length)
    else if (written.dropWhile isPart).all isMargin then
      let n : Int := ofDigits 10 digits
      .ok (if negative then -n else n)
    else .error (.malformed text)

end BindingPower.Text

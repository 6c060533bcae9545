import BindingPower.Number.Shortest
import BindingPower.Text.Integer

/-! The values that a TOML document may hold, and how they are shown in messages. -/
namespace BindingPower.Toml

structure Date where
  year : Nat
  month : Nat
  day : Nat
  deriving DecidableEq, Repr

structure Time where
  hour : Nat
  minute : Nat
  second : Nat
  microsecond : Nat
  deriving DecidableEq, Repr

/-- A point in time; an offset from universal time is in minutes. -/
inductive Moment
  | date (d : Date)
  | time (t : Time)
  | dateTime (d : Date) (t : Time) (offset : Option Int)
  deriving DecidableEq, Repr

inductive Value
  | string (s : String)
  | integer (n : Int)
  | float (x : Binary64)
  | boolean (b : Bool)
  | moment (m : Moment)
  | array (items : List Value)
  | table (entries : List (String × Value))
  deriving Repr

abbrev Table := List (String × Value)

def Date.isValid (d : Date) : Bool :=
  let leap := d.year % 4 = 0 && (d.year % 100 ≠ 0 || d.year % 400 = 0)
  let days := match d.month with
    | 2 => if leap then 29 else 28
    | 4 | 6 | 9 | 11 => 30
    | _ => 31
  1 ≤ d.year && 1 ≤ d.month && d.month ≤ 12 && 1 ≤ d.day && d.day ≤ days

/-- Seconds are left out if they and their fraction are zero, and a fraction that is zero. -/
def Time.fields (t : Time) : List Nat :=
  [t.hour, t.minute] ++
    (if t.microsecond ≠ 0 then [t.second, t.microsecond]
     else if t.second ≠ 0 then [t.second] else [])

/-- An offset before universal time counts from the day before. -/
def offsetText (minutes : Int) : String :=
  if minutes = 0 then "datetime.timezone.utc"
  else
    let seconds := toString (minutes * 60 % 86400)
    "datetime.timezone(datetime.timedelta(" ++
      (if minutes < 0 then "days=-1, seconds=" else "seconds=") ++ seconds ++ "))"

def Moment.shown : Moment → String
  | date d => "datetime.date(" ++ fieldText [d.year, d.month, d.day] ++ ")"
  | time t => "datetime.time(" ++ fieldText t.fields ++ ")"
  | dateTime d t offset =>
    "datetime.datetime(" ++ fieldText ([d.year, d.month, d.day] ++ t.fields) ++
      (offset.elim "" fun minutes => ", tzinfo=" ++ offsetText minutes) ++ ")"
where
  fieldText (fields : List Nat) : String := ", ".intercalate (fields.map toString)

namespace Value

mutual
def shown : Value → String
  | string s => Text.quoted s
  | integer n => toString n
  | float x => x.toText
  | boolean b => if b then "True" else "False"
  | moment m => m.shown
  | array items => "[" ++ ", ".intercalate (shownAll items) ++ "]"
  | table entries => "\x7b" ++ ", ".intercalate (shownEntries entries) ++ "\x7d"
def shownAll : List Value → List String
  | [] => []
  | v :: rest => v.shown :: shownAll rest
def shownEntries : List (String × Value) → List String
  | [] => []
  | (key, v) :: rest => (Text.quoted key ++ ": " ++ v.shown) :: shownEntries rest
end

mutual
/-- Whether a value can be shown: every integer in it must be writable. -/
def canBeShown : Value → Bool
  | integer n => Text.isWritable n
  | array items => canAllBeShown items
  | table entries => canEntriesBeShown entries
  | _ => true
def canAllBeShown : List Value → Bool
  | [] => true
  | v :: rest => v.canBeShown && canAllBeShown rest
def canEntriesBeShown : List (String × Value) → Bool
  | [] => true
  | (_, v) :: rest => v.canBeShown && canEntriesBeShown rest
end

def text? : Value → Option String
  | string s => some s
  | _ => none

/-- Nothing, zero and false do not count as true. -/
def isTrue : Value → Bool
  | string s => s != ""
  | integer n => n != 0
  | float x => !x.isZero
  | boolean b => b
  | moment _ => true
  | array items => !items.isEmpty
  | table entries => !entries.isEmpty

/-- Whether a value equals `true`, which a one does. -/
def isOne : Value → Bool
  | integer n => n == 1
  | float x => x.isOne
  | boolean b => b
  | _ => false

end Value

end BindingPower.Toml

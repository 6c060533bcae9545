import BindingPower.Number.Binary64

/-! The shortest decimal text that reads back as the same number. Of the grids of one, two and
more digits the first with a point that rounds to the number is taken, and on it the nearest
such point. -/
namespace BindingPower.Binary64

/-- Compares a · 2^p with c · 10^e. -/
def compareDecimal (a : Nat) (p : Int) (c : Nat) (e : Int) : Ordering :=
  compare (a * twoTo p * tenTo (-e)) (c * tenTo e * twoTo (-p))

/-- Whether c · 10^e rounds to m · 2^q: it lies between the middles to the neighbours, which
count if m is even. The neighbour below a power of two is half as far. -/
def roundsTo (m : Nat) (q : Int) (c : Nat) (e : Int) : Bool :=
  let below := if m = twoTo 52 ∧ -1074 < q then 4 * m - 1 else 4 * m - 2
  let low := compareDecimal below (q - 2) c e
  let high := compareDecimal (4 * m + 2) (q - 2) c e
  (low == .lt || (low == .eq && m % 2 == 0)) && (high == .gt || (high == .eq && m % 2 == 0))

/-- The integer part of m · 2^q / 10^e. -/
def floorAt (m : Nat) (q e : Int) : Nat :=
  m * twoTo q * tenTo (-e) / (tenTo e * twoTo (-q))

/-- The point of the grid of 10^e that rounds to m · 2^q and is nearest to it, if there is one;
of two as near, the even one. -/
def onGrid? (m : Nat) (q e : Int) : Option Nat :=
  let c := floorAt m q e
  match roundsTo m q c e, roundsTo m q (c + 1) e with
  | true, true => some (match compareDecimal (2 * m) q (2 * c + 1) e with
      | .lt => c
      | .eq => c + c % 2
      | .gt => c + 1)
  | true, false => some c
  | false, true => some (c + 1)
  | false, false => none

/-- The place of the point before the digits of m · 2^q: the least power of ten above it. -/
def place (m : Nat) (q : Int) : Int := (decimalLength (floorAt m q (-400)) : Int) - 400

/-- The digits and the power of ten of the shortest decimal; seventeen digits always do. -/
def shortest (m : Nat) (q : Int) : Nat × Int :=
  let top := place m q
  match (List.range 17).findSome? fun (i : Nat) =>
      (onGrid? m q (top - 1 - i)).map (·, top - 1 - (i : Int)) with
  | some found => found
  | none => (floorAt m q (top - 17), top - 17)

private def digitZeros (n : Nat) : List Char := List.replicate n '0'

/-- Digits with a point among them, or as a power of ten where more than sixteen digits stand
before the point or more than three zeros after it. -/
def layout (digits : List Char) (point : Int) : List Char :=
  let shown := (digits.reverse.dropWhile (· == '0')).reverse
  if -4 < point ∧ point ≤ 16 then
    if point ≤ 0 then '0' :: '.' :: digitZeros (-point).toNat ++ shown
    else
      let whole := shown.take point.toNat ++ digitZeros (point.toNat - shown.length)
      let part := shown.drop point.toNat
      whole ++ '.' :: (if part.isEmpty then ['0'] else part)
  else
    let power := point - 1
    let size := (toString power.natAbs).toList
    let mantissa := match shown with
      | [] => []
      | [d] => [d]
      | d :: rest => d :: '.' :: rest
    mantissa ++ 'e' :: (if power < 0 then '-' else '+') :: digitZeros (2 - size.length) ++ size

def toText : Binary64 → String
  | finite negative mantissa power =>
    let sign := if negative then "-" else ""
    if mantissa = 0 then sign ++ "0.0"
    else
      let (c, e) := shortest mantissa power
      let digits := Nat.toDigits 10 c
      sign ++ String.ofList (layout digits (digits.length + e))
  | infinite negative => if negative then "-inf" else "inf"
  | nan => "nan"

end BindingPower.Binary64

/-! Binary64 numbers, held exactly: a mantissa below 2^53 times a power of two that is at least
2^-1074. -/
namespace BindingPower

inductive Binary64
  | finite (negative : Bool) (mantissa : Nat) (exponent : Int)
  | infinite (negative : Bool)
  | nan
  deriving DecidableEq, Repr

/-- How many decimal digits a number is written with. -/
def decimalLength (n : Nat) : Nat := (Nat.toDigits 10 n).length

namespace Binary64

/-- The nearest integer to a quotient, of two the even one. -/
def roundDiv (num den : Nat) : Nat :=
  let q := num / den
  let r := num % den
  if 2 * r < den then q
  else if den < 2 * r then q + 1
  else q + q % 2

/-- A power of two, or one where the exponent is negative: that power divides the other side. -/
def twoTo (exponent : Int) : Nat := Nat.pow 2 exponent.toNat

/-- A power of ten, or one where the exponent is negative. -/
def tenTo (exponent : Int) : Nat := Nat.pow 10 exponent.toNat

/-- The quotient of two numbers after division by a power of two, not yet rounded. -/
def scaled (num den : Nat) (power : Int) : Nat × Nat :=
  (num * twoTo (-power), den * twoTo power)

/-- The nearest number to a positive quotient: the power is chosen so that the mantissa has 53
bits, unless that is below the least power there is. -/
def ofQuotient (negative : Bool) (num den : Nat) : Binary64 :=
  let guess : Int := (num.log2 : Int) - den.log2 - 53
  let (n, d) := scaled num den guess
  let power := max (-1074) (if n / d < twoTo 53 then guess else guess + 1)
  let (n, d) := scaled num den power
  let mantissa := roundDiv n d
  let (mantissa, power) := if mantissa = twoTo 53 then (twoTo 52, power + 1) else (mantissa, power)
  if 971 < power then infinite negative else finite negative mantissa power

/-- The nearest number to a decimal, given by its digits and a power of ten. -/
def ofDecimal (negative : Bool) (digits : Nat) (power : Int) : Binary64 :=
  if digits = 0 then finite negative 0 (-1074)
  else
    let magnitude := (decimalLength digits : Int) + power
    if 310 < magnitude then infinite negative
    else if magnitude < -330 then finite negative 0 (-1074)
    else ofQuotient negative (digits * tenTo power) (tenTo (-power))

/-- The integer part; there is none beyond the finite numbers. -/
def truncate? : Binary64 → Option Int
  | finite negative mantissa power =>
    let n : Int := (mantissa * twoTo power / twoTo (-power) : Nat)
    some (if negative then -n else n)
  | _ => none

def isZero : Binary64 → Bool
  | finite _ mantissa _ => mantissa == 0
  | _ => false

def isOne : Binary64 → Bool
  | finite false mantissa power => mantissa * twoTo power == twoTo (-power)
  | _ => false

end Binary64

end BindingPower

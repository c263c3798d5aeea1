import Stackable.Number.Decimal

/-!
# Numbers of a settings file

Integers are words of 64 bits, in decimal with a sign or in base sixteen, eight or two without
one. A number with a fraction or an exponent is a double. An underscore may stand between two
digits.
-/

set_option autoImplicit false

namespace Stackable.Toml.Number

def isDigit (base : Nat) (c : Char) : Bool :=
  match Decimal.digitValue? c with
  | some d => decide (d < base)
  | none => false

/-- Digits and the rest behind them. An underscore is taken only with a digit behind it. -/
def grouped (base : Nat) : List Char → List Char × List Char
  | [] => ([], [])
  | '_' :: c :: cs =>
    if isDigit base c then (grouped base cs).map (c :: ·) id else ([], '_' :: c :: cs)
  | c :: cs => if isDigit base c then (grouped base cs).map (c :: ·) id else ([], c :: cs)

def digits? (base : Nat) : List Char → Option (List Char × List Char)
  | [] => none
  | c :: cs => if isDigit base c then some (grouped base (c :: cs)) else none

def whole? : List Char → Option (List Char × List Char)
  | '0' :: cs => some (['0'], cs)
  | cs => digits? 10 cs

def sign : List Char → Bool × List Char
  | '+' :: cs => (false, cs)
  | '-' :: cs => (true, cs)
  | cs => (false, cs)

def word? (v : Int) : Option Int :=
  if -9223372036854775808 ≤ v ∧ v ≤ 9223372036854775807 then some v else none

def radixInteger? (base : Nat) (cs : List Char) : Option (Int × List Char) := do
  let (digits, cs) ← digits? base cs
  return (← word? (Decimal.digitsValue base digits), cs)

def integer? : List Char → Option (Int × List Char)
  | '0' :: 'x' :: cs => radixInteger? 16 cs
  | '0' :: 'o' :: cs => radixInteger? 8 cs
  | '0' :: 'b' :: cs => radixInteger? 2 cs
  | cs => do
    let (negative, cs) := sign cs
    let (digits, cs) ← whole? cs
    let value : Int := Decimal.digitsValue 10 digits
    return (← word? (if negative then -value else value), cs)

def fraction? : List Char → Option (List Char × List Char)
  | '.' :: cs => digits? 10 cs
  | _ => none

def exponent? : List Char → Option (Int × List Char)
  | [] => none
  | c :: cs =>
    if c = 'e' ∨ c = 'E' then do
      let (negative, cs) := sign cs
      let (digits, cs) ← digits? 10 cs
      let value : Int := Decimal.digitsValue 10 digits
      return (if negative then -value else value, cs)
    else none

/-- The digits of a fraction and an exponent. One of the two has to be there. -/
def scaled? (cs : List Char) : Option (List Char × Int × List Char) :=
  match fraction? cs with
  | some (digits, cs) =>
    match exponent? cs with
    | some (power, cs) => some (digits, power, cs)
    | none => some (digits, 0, cs)
  | none => (exponent? cs).map fun (power, cs) => ([], power, cs)

/-- A double with a sign. One that is too large is refused unless it is negative. -/
def finish? (negative : Bool) (x : Float) : Option Float :=
  if negative then some (-x) else if x.isInf then none else some x

def special? : List Char → Option (Float × List Char)
  | 'i' :: 'n' :: 'f' :: cs => some (1.0 / 0.0, cs)
  | 'n' :: 'a' :: 'n' :: cs => some (0.0 / 0.0, cs)
  | _ => none

def real? (cs : List Char) : Option (Float × List Char) := do
  let (negative, cs) := sign cs
  match special? cs with
  | some (x, cs) => return (if negative then -x else x, cs)
  | none =>
    let (whole, cs) ← whole? cs
    let (fraction, power, cs) ← scaled? cs
    let magnitude := Decimal.toFloat (Decimal.digitsValue 10 (whole ++ fraction)) (power - fraction.length)
    return (← finish? negative magnitude, cs)

end Stackable.Toml.Number

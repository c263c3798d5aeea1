import Stackable.Number.Binary64

/-!
# Decimal numerals of doubles

A decimal `digits · 10 ^ scale` is read as the nearest double, and a double is written with the
fewest digits that read back as the same double; of two such numerals the nearer one is taken.
-/

set_option autoImplicit false

namespace Stackable.Decimal

def digitValue? (c : Char) : Option Nat :=
  if '0' ≤ c ∧ c ≤ '9' then some (c.toNat - '0'.toNat)
  else if 'a' ≤ c ∧ c ≤ 'f' then some (c.toNat - 'a'.toNat + 10)
  else if 'A' ≤ c ∧ c ≤ 'F' then some (c.toNat - 'A'.toNat + 10)
  else none

def digitsValue (base : Nat) (digits : List Char) : Nat :=
  digits.foldl (fun n c => n * base + (digitValue? c).getD 0) 0

/-- The double nearest to `digits · 10 ^ scale`. Scales that no double reaches are decided by the
number of digits alone. -/
def toFloat (digits : Nat) (scale : Int) : Float :=
  let order : Int := (Nat.log2 digits : Int) / 4 + scale
  let length : Int := (Nat.log2 digits : Int) + scale
  if digits = 0 then 0.0
  else if 400 < order then Binary64.ofRatio false (Nat.pow 2 2000) 1
  else if length < -400 then 0.0
  else if scale < 0 then Binary64.ofRatio false digits (Nat.pow 10 scale.natAbs)
  else Binary64.ofRatio false (digits * Nat.pow 10 scale.toNat) 1

/-- The numbers that round to a double, in units of `unit`: the double itself is `4 · mantissa`
units and the interval reaches `below` units down and two units up. -/
structure Interval where
  centre : Nat
  below : Nat
  closed : Bool
  unitNum : Nat
  unitDen : Nat

def Interval.ofFinite (mantissa : Nat) (exponent : Int) : Interval :=
  let e := exponent - 2
  { centre := 4 * mantissa
    below := if mantissa = Nat.pow 2 52 ∧ Binary64.leastExponent < exponent then 1 else 2
    closed := mantissa % 2 == 0
    unitNum := if e < 0 then 1 else Nat.pow 2 e.toNat
    unitDen := if e < 0 then Nat.pow 2 e.natAbs else 1 }

def Interval.contains (i : Interval) (num den : Nat) : Bool :=
  let point := num * i.unitDen
  let low := (i.centre - i.below) * i.unitNum * den
  let high := (i.centre + 2) * i.unitNum * den
  if i.closed then decide (low ≤ point ∧ point ≤ high) else decide (low < point ∧ point < high)

/-- The numeral on the grid of `10 ^ place` that is nearest among those that round to the
double. -/
def Interval.onGrid? (i : Interval) (place : Int) : Option Nat :=
  let up := if place < 0 then 1 else Nat.pow 10 place.toNat
  let down := if place < 0 then Nat.pow 10 place.natAbs else 1
  let num := i.centre * i.unitNum * down
  let den := i.unitDen * up
  let q := num / den
  let r := num % den
  let lower := i.contains (q * up) down
  let upper := i.contains ((q + 1) * up) down
  if lower && upper then some (if 2 * r < den then q else q + 1)
  else if lower then some q
  else if upper then some (q + 1)
  else none

/-- The number of digits before the decimal point of the double, at most one too many. -/
def Interval.magnitude (i : Interval) : Int :=
  let num := i.centre * i.unitNum
  if i.unitDen ≤ num then ((Nat.toDigits 10 (num / i.unitDen)).length : Int)
  else -((Nat.toDigits 10 (i.unitDen / num)).length : Int) + 1

def Interval.search (i : Interval) : Nat → Int → Nat × Int
  | 0, place => (i.centre * i.unitNum / i.unitDen, place)
  | fuel + 1, place =>
    match i.onGrid? place with
    | some digits => (digits, place)
    | none => i.search fuel (place - 1)

def dropZeros : Nat → Nat → Int → Nat × Int
  | 0, digits, scale => (digits, scale)
  | fuel + 1, digits, scale =>
    if digits ≠ 0 ∧ digits % 10 = 0 then dropZeros fuel (digits / 10) (scale + 1) else (digits, scale)

/-- The fewest digits that read back as `mantissa · 2 ^ exponent`, with their scale. -/
def shortest (mantissa : Nat) (exponent : Int) : Nat × Int :=
  if mantissa = 0 then (0, 0)
  else
    let i := Interval.ofFinite mantissa exponent
    let (digits, scale) := i.search 20 i.magnitude
    dropZeros 20 digits scale

def positional (digits : Nat) (scale : Int) : String :=
  let text := toString digits
  if 0 ≤ scale then text ++ "".pushn '0' scale.toNat
  else
    let places := scale.natAbs
    let padded := if text.length ≤ places then "".pushn '0' (places + 1 - text.length) ++ text else text
    let whole := padded.length - places
    String.ofList (padded.toList.take whole) ++ "." ++ String.ofList (padded.toList.drop whole)

def scientific (digits : Nat) (scale : Int) : String :=
  let text := (toString digits).toList
  let exponent := scale + (text.length - 1 : Nat)
  let fraction := if text.length ≤ 1 then "" else "." ++ String.ofList (text.drop 1)
  String.ofList (text.take 1) ++ fraction ++ "e" ++ toString exponent

structure Layout where
  /-- Numerals whose leading digit stands for `10 ^ n` with `low ≤ n < high` are positional. -/
  positionalRange : Option (Int × Int)
  keepPoint : Bool

def Layout.plain : Layout := ⟨none, false⟩

/-- Values in dumps: positional from `1e-4` up to `1e16`, and always told apart from an integer. -/
def Layout.dump : Layout := ⟨some (-4, 16), true⟩

def Layout.write (l : Layout) (x : Float) : String :=
  match Binary64.shape x with
  | .nan => "NaN"
  | .infinite negative => if negative then "-inf" else "inf"
  | .finite negative mantissa exponent =>
    let (digits, scale) := shortest mantissa exponent
    let leading := scale + ((toString digits).length - 1 : Nat)
    let inRange := match l.positionalRange with
      | none => true
      | some (low, high) => digits == 0 || (decide (low ≤ leading) && decide (leading < high))
    let body :=
      if inRange then
        positional digits scale ++ (if l.keepPoint && decide (0 ≤ scale) then ".0" else "")
      else scientific digits scale
    (if negative then "-" else "") ++ body

end Stackable.Decimal

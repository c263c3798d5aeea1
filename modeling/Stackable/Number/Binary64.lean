/-!
# Binary floating point by exact arithmetic

A finite double is `mantissa · 2 ^ exponent` with a mantissa below `2 ^ 53` and an exponent of at
least `-1074`. Ratios of natural numbers are rounded to the nearest such value, ties to the even
mantissa.
-/

set_option autoImplicit false

namespace Stackable.Binary64

def leastExponent : Int := -1074

/-- `num / den` divided by `2 ^ exponent`, as a ratio. -/
def scaled (num den : Nat) (exponent : Int) : Nat × Nat :=
  if exponent < 0 then (num * Nat.pow 2 exponent.natAbs, den) else (num, den * Nat.pow 2 exponent.toNat)

/-- The quotient rounded to the nearest integer, ties to even. -/
def roundEven (num den : Nat) : Nat :=
  let q := num / den
  let r := num % den
  if 2 * r < den then q
  else if den < 2 * r then q + 1
  else q + q % 2

/-- The exponent of the grid that gives `num / den` a mantissa of 53 bits, or fewer at the lower
end of the range. -/
def gridExponent (num den : Nat) : Int :=
  let guess : Int := (Nat.log2 num : Int) - (Nat.log2 den : Int) - 52
  let (n, d) := scaled num den guess
  max leastExponent (if n / d < Nat.pow 2 52 then guess - 1 else guess)

/-- The bits of the double nearest to `num / den`. A value beyond the largest double gives the
bits of infinity. -/
def ratioBits (num den : Nat) : Nat :=
  if num = 0 then 0
  else
    let exponent := gridExponent num den
    let (n, d) := scaled num den exponent
    let mantissa := roundEven n d
    let bits :=
      if mantissa < Nat.pow 2 52 then mantissa
      else (exponent + 1075).toNat * Nat.pow 2 52 + (mantissa - Nat.pow 2 52)
    min bits (2047 * Nat.pow 2 52)

def ofRatio (negative : Bool) (num den : Nat) : Float :=
  let bits := ratioBits num den
  Float.ofBits (UInt64.ofNat (if negative then Nat.pow 2 63 + bits else bits))

def ofInt (n : Int) : Float := ofRatio (n < 0) n.natAbs 1

inductive Shape where
  | nan
  | infinite (negative : Bool)
  | finite (negative : Bool) (mantissa : Nat) (exponent : Int)
deriving Repr, DecidableEq

def shapeOfBits (bits : Nat) : Shape :=
  let negative : Bool := decide (Nat.pow 2 63 ≤ bits)
  let field : Nat := bits / Nat.pow 2 52 % 2048
  let fraction := bits % Nat.pow 2 52
  if field = 2047 then
    if fraction = 0 then .infinite negative else .nan
  else if field = 0 then .finite negative fraction leastExponent
  else .finite negative (Nat.pow 2 52 + fraction) ((field : Int) - 1075)

def shape (x : Float) : Shape := shapeOfBits x.toBits.toNat

def truncate (negative : Bool) (mantissa : Nat) (exponent : Int) : Int :=
  let magnitude := if exponent < 0 then mantissa / Nat.pow 2 exponent.natAbs else mantissa * Nat.pow 2 exponent.toNat
  if negative then -magnitude else magnitude

/-- The remainder of a division whose quotient is cut to an integer, with the sign of the
dividend. It is exact, so no rounding is involved. -/
def remainder (x y : Float) : Float :=
  match shape x, shape y with
  | .finite negative m e, .finite _ m' e' =>
    if m' = 0 then nanValue
    else
      let least := min e e'
      let rest := (m * Nat.pow 2 (e - least).toNat) % (m' * Nat.pow 2 (e' - least).toNat)
      if least < 0 then ofRatio negative rest (Nat.pow 2 least.natAbs)
      else ofRatio negative (rest * Nat.pow 2 least.toNat) 1
  | .finite _ _ _, .infinite _ => x
  | _, _ => nanValue
where
  nanValue : Float := Float.ofBits 0x7ff8000000000000

end Stackable.Binary64

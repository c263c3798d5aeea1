import Stackable.Number.Decimal
import Stackable.Symbol.Special

/-!
# Constants

Values known before a program runs, and the reasons why an expression has none. Integers are
signed words of 128 bits, wide enough for every type of integers.
-/

set_option autoImplicit false

namespace Stackable

inductive ConstValue where
  | int (value : Int)
  | real (value : Float)
  | bool (value : Bool)
  | char (value : Char)
  | string (value : String)
  | null
deriving Repr

namespace ConstValue

/-- The value as an integer; a character counts by its code point. -/
def int? : ConstValue → Option Int
  | .int v => some v
  | .char c => some c.toNat
  | _ => none

def bool? : ConstValue → Option Bool
  | .bool b => some b
  | _ => none

def real? : ConstValue → Option Float
  | .real v => some v
  | v => v.int?.map Binary64.ofInt

def text : ConstValue → String
  | .int v => toString v
  | .real v => Decimal.Layout.plain.write v
  | .bool b => if b then "true" else "false"
  | .char c => "'" ++ String.singleton c ++ "'"
  | .string s => "\"" ++ s ++ "\""
  | .null => "null"

end ConstValue

inductive ConstError where
  | notConstant
  | cycle (name : String)
  | overflow
  | divideByZero
  | outOfRange (value : Int) (target : SpecialType)
deriving Repr, DecidableEq

def ConstError.message : ConstError → String
  | .notConstant => "expression is not a compile-time constant"
  | .cycle name => "constant '" ++ name ++ "' depends on itself"
  | .overflow => "constant arithmetic overflows"
  | .divideByZero => "division by zero in a constant expression"
  | .outOfRange value target =>
    "constant value " ++ toString value ++ " does not fit in " ++ target.metadataName

end Stackable

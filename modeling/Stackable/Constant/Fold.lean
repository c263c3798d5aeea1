import Stackable.Constant.Value
import Stackable.Syntax.Expr

/-!
# Folding

The meaning of operators and casts on constants. Integer arithmetic is exact or fails; a left
shift drops the bits that leave the word.
-/

set_option autoImplicit false

namespace Stackable.Fold

abbrev Result := Except ConstError ConstValue

def wordMin : Int := -170141183460469231731687303715884105728
def wordMax : Int := 170141183460469231731687303715884105727

def word (v : Int) : Result :=
  if wordMin ≤ v ∧ v ≤ wordMax then .ok (.int v) else .error .overflow

/-- The word with the lowest 128 bits of an integer. -/
def wrapped (v : Int) : Result := .ok (.int (v.bmod (Nat.pow 2 128)))

def bits (v : Int) : BitVec 128 := BitVec.ofInt 128 v

def unary (op : UnaryOp) (operand : ConstValue) : Result :=
  match op, operand with
  | .plus, .real v => .ok (.real v)
  | .neg, .real v => .ok (.real (-v))
  | .not, .bool b => .ok (.bool !b)
  | .plus, _ | .neg, _ | .bitNot, _ =>
    match operand.int? with
    | some v =>
      match op with
      | .plus => .ok (.int v)
      | .neg => word (-v)
      | _ => .ok (.int (-v - 1))
    | none => .error .notConstant
  | _, _ => .error .notConstant

def strings (op : BinOp) (l r : String) : Result :=
  match op with
  | .add => .ok (.string (l ++ r))
  | .eq => .ok (.bool (l == r))
  | .ne => .ok (.bool (l != r))
  | _ => .error .notConstant

def bools (op : BinOp) (l r : Bool) : Result :=
  match op with
  | .and | .bitAnd => .ok (.bool (l && r))
  | .or | .bitOr => .ok (.bool (l || r))
  | .bitXor | .ne => .ok (.bool (l != r))
  | .eq => .ok (.bool (l == r))
  | _ => .error .notConstant

/-- Division goes toward zero and the remainder has the sign of the dividend. Only the lowest six
bits of a shift count matter. -/
def integers (op : BinOp) (l r : Int) : Result :=
  match op with
  | .add => word (l + r)
  | .sub => word (l - r)
  | .mul => word (l * r)
  | .div => if r = 0 then .error .divideByZero else word (l.tdiv r)
  | .mod =>
    if r = 0 then .error .divideByZero
    else if l = wordMin ∧ r = -1 then .error .overflow
    else .ok (.int (l.tmod r))
  | .shl => wrapped (l * (Nat.pow 2 (r % 64).toNat : Nat))
  | .shr => .ok (.int (l.fdiv (Nat.pow 2 (r % 64).toNat : Nat)))
  | .bitAnd => .ok (.int (bits l &&& bits r).toInt)
  | .bitOr => .ok (.int (bits l ||| bits r).toInt)
  | .bitXor => .ok (.int (bits l ^^^ bits r).toInt)
  | .eq => .ok (.bool (decide (l = r)))
  | .ne => .ok (.bool (decide (l ≠ r)))
  | .lt => .ok (.bool (decide (l < r)))
  | .gt => .ok (.bool (decide (r < l)))
  | .le => .ok (.bool (decide (l ≤ r)))
  | .ge => .ok (.bool (decide (r ≤ l)))
  | .and | .or | .coalesce => .error .notConstant

def reals (op : BinOp) (l r : Float) : Result :=
  match op with
  | .add => .ok (.real (l + r))
  | .sub => .ok (.real (l - r))
  | .mul => .ok (.real (l * r))
  | .div => .ok (.real (l / r))
  | .mod => .ok (.real (Binary64.remainder l r))
  | .eq => .ok (.bool (l == r))
  | .ne => .ok (.bool (l != r))
  | .lt => .ok (.bool (decide (l < r)))
  | .gt => .ok (.bool (decide (r < l)))
  | .le => .ok (.bool (decide (l ≤ r)))
  | .ge => .ok (.bool (decide (r ≤ l)))
  | _ => .error .notConstant

def numbers (op : BinOp) (l r : ConstValue) : Result :=
  match l.int?, r.int? with
  | some l, some r => integers op l r
  | _, _ =>
    match l.real?, r.real? with
    | some l, some r => reals op l r
    | _, _ => .error .notConstant

def binary (op : BinOp) (l r : ConstValue) : Result :=
  match l, r with
  | .string l, .string r => strings op l r
  | .bool l, .bool r => bools op l r
  | _, _ => numbers op l r

/-- The integer that a value is cast to: a double has to be whole, and one beyond the words
counts as the nearest word. -/
def castInt? (value : ConstValue) : Option Int :=
  match value with
  | .real x =>
    match Binary64.shape x with
    | .finite negative mantissa exponent =>
      if exponent < 0 ∧ mantissa % Nat.pow 2 exponent.natAbs ≠ 0 then none
      else some (max wordMin (min wordMax (Binary64.truncate negative mantissa exponent)))
    | _ => none
  | v => v.int?

def castIntegral (target : SpecialType) (least greatest v : Int) : Result :=
  if v < least ∨ greatest < v then .error (.outOfRange v target)
  else if target = .char then
    if v.toNat.isValidChar then .ok (.char (Char.ofNat v.toNat)) else .error (.outOfRange v target)
  else .ok (.int v)

/-- Casts are checked: an integer that the type does not hold is an error. -/
def cast (target : SpecialType) (value : ConstValue) : Result :=
  match target.integralRange? with
  | some (least, greatest) =>
    match castInt? value with
    | some v => castIntegral target least greatest v
    | none => .error .notConstant
  | none =>
    match target, value with
    | .single, _ | .double, _ | .decimal, _ | .half, _ =>
      match value.real? with
      | some x => .ok (.real x)
      | none => .error .notConstant
    | .boolean, .bool _ | .string, .string _ | .string, .null | .object, .null => .ok value
    | _, _ => .error .notConstant

end Stackable.Fold

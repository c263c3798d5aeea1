import Stackable.Allocation.Site

/-!
# How many bytes an array takes

The width of an element times the number of elements, where both are known. Widths are known for
the numeric types of the runtime with a fixed width, for `bool` and for `char`.
-/

set_option autoImplicit false

namespace Stackable

def sizeThreshold : Nat := 1024

/-- The largest number of bytes that can be counted; stands for a width that is not known. -/
def unboundedWidth : Nat := 18446744073709551615

inductive SizeFailure where
  | unresolved
  /-- More than one dimension, or an array of arrays. -/
  | rank
  /-- Neither a literal nor a named constant, or beyond what can be counted. -/
  | nonConstantCount
deriving Repr, DecidableEq

def SizeFailure.message : SizeFailure → String
  | .unresolved => "array type did not resolve"
  | .rank => "array has more than one dimension"
  | .nonConstantCount => "element count is not a compile-time constant"

inductive SizeVerdict where
  | sized (bytes : Nat)
  | exceeds (bytes : Nat)
  | indeterminate (failure : SizeFailure)
deriving Repr, DecidableEq

def SpecialType.width? : SpecialType → Option Nat
  | .boolean | .byte | .sbyte => some 1
  | .int16 | .uint16 | .char | .half => some 2
  | .int32 | .uint32 | .single => some 4
  | .int64 | .uint64 | .double => some 8
  | .decimal => some 16
  | .intPtr | .uintPtr | .object | .string | .void => none

def widthNamed (metadataName : String) : Nat :=
  ((SpecialType.ofMetadataName? metadataName).bind SpecialType.width?).getD unboundedWidth

/-- Declared types have no known width, whatever their names are. -/
def TypeSymbol.width? : TypeSymbol → Option Nat
  | .special t => t.width?
  | _ => none

namespace Site

def countOf? (v : Int) : Option Nat :=
  if 0 ≤ v ∧ v ≤ unboundedWidth then some v.toNat else none

def elementCount? (s : Site) (m : Model) : Option Nat := do
  match (← (← s.ranks.head?).sizes.head?) with
  | none => s.initializer.map List.length
  | some size =>
    let size := size.unparenthesized
    match size.kind with
    | .int v _ => countOf? v
    | _ => if m.isConstantReference size then countOf? (← (← m.constantValue? size).int?) else none

/-- The verdict on a number of elements of a type; a product that cannot be counted is as large
as can be. -/
def sizeOfElements (element : TypeSymbol) (count : Nat) : SizeVerdict :=
  match element.width? with
  | none => .exceeds unboundedWidth
  | some width =>
    let bytes := min (width * count) unboundedWidth
    if sizeThreshold < bytes then .exceeds bytes else .sized bytes

def size (s : Site) (m : Model) : SizeVerdict :=
  match m.arrayType? s.expr with
  | none => .indeterminate .unresolved
  | some (element, rank) =>
    if 1 < rank ∨ element.isArray then .indeterminate .rank
    else
      match s.elementCount? m with
      | none => .indeterminate .nonConstantCount
      | some count => sizeOfElements element count

end Site

end Stackable

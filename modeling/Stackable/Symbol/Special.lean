import Stackable.Token.Basic

/-!
# Types of the runtime

The types that the runtime itself knows, by their names in metadata.
-/

set_option autoImplicit false

namespace Stackable

inductive SpecialType where
  | boolean | byte | sbyte | int16 | uint16 | int32 | uint32 | int64 | uint64 | char | half
  | single | double | decimal | intPtr | uintPtr | object | string | void
deriving Repr, DecidableEq

namespace SpecialType

def all : List SpecialType :=
  [.boolean, .byte, .sbyte, .int16, .uint16, .int32, .uint32, .int64, .uint64, .char, .half,
   .single, .double, .decimal, .intPtr, .uintPtr, .object, .string, .void]

/-- The name without its namespace: `Int32` for `int`. -/
def metadataName : SpecialType → String
  | .boolean => "Boolean"
  | .byte => "Byte"
  | .sbyte => "SByte"
  | .int16 => "Int16"
  | .uint16 => "UInt16"
  | .int32 => "Int32"
  | .uint32 => "UInt32"
  | .int64 => "Int64"
  | .uint64 => "UInt64"
  | .char => "Char"
  | .half => "Half"
  | .single => "Single"
  | .double => "Double"
  | .decimal => "Decimal"
  | .intPtr => "IntPtr"
  | .uintPtr => "UIntPtr"
  | .object => "Object"
  | .string => "String"
  | .void => "Void"

def ofMetadataName? (name : String) : Option SpecialType := all.find? (·.metadataName == name)

def ofPredefined : PredefinedType → SpecialType
  | .bool => .boolean
  | .byte => .byte
  | .sbyte => .sbyte
  | .short => .int16
  | .ushort => .uint16
  | .int => .int32
  | .uint => .uint32
  | .long => .int64
  | .ulong => .uint64
  | .char => .char
  | .float => .single
  | .double => .double
  | .decimal => .decimal
  | .object => .object
  | .string => .string
  | .void => .void

def integralRange? : SpecialType → Option (Int × Int)
  | .byte => some (0, 255)
  | .sbyte => some (-128, 127)
  | .int16 => some (-32768, 32767)
  | .uint16 | .char => some (0, 65535)
  | .int32 => some (-2147483648, 2147483647)
  | .uint32 => some (0, 4294967295)
  | .int64 | .intPtr => some (-9223372036854775808, 9223372036854775807)
  | .uint64 | .uintPtr => some (0, 18446744073709551615)
  | _ => none

end SpecialType

inductive TypeSymbol where
  | special (type : SpecialType)
  | named (qualifiedName : String)
  /-- `rank` counts the dimensions of the outermost bracket pair: `int[][,]` is an array of rank
  one over `int[,]`. -/
  | array (element : TypeSymbol) (rank : Nat)
  | pointer (inner : TypeSymbol)
  | nullable (inner : TypeSymbol)
  | unknown
deriving Repr, DecidableEq

namespace TypeSymbol

def isArray : TypeSymbol → Bool
  | .array _ _ => true
  | _ => false

def rankText (rank : Nat) : String := "[" ++ "".pushn ',' (rank - 1) ++ "]"

/-- The type with the bracket pairs of the arrays around it, which stand outermost first. -/
def textWithin (brackets : String) : TypeSymbol → String
  | .special t => "System." ++ t.metadataName ++ brackets
  | .named name => name ++ brackets
  | .array element rank => element.textWithin (brackets ++ rankText rank)
  | .pointer inner => inner.textWithin "" ++ "*" ++ brackets
  | .nullable inner => inner.textWithin "" ++ "?" ++ brackets
  | .unknown => "?" ++ brackets

def text (t : TypeSymbol) : String := t.textWithin ""

def arrays (element : TypeSymbol) (ranks : List Nat) : TypeSymbol :=
  ranks.foldr (fun rank inner => .array inner rank) element

end TypeSymbol

end Stackable

/-!
# Values for other programs

A tree of values as text: two blanks for each level, members in the order given.
-/

set_option autoImplicit false

namespace Stackable

inductive JsonValue where
  | null
  | bool (value : Bool)
  | number (value : Nat)
  | string (value : String)
  | array (items : List JsonValue)
  | object (members : List (String × JsonValue))

namespace JsonValue

def hex4 (n : Nat) : List Char :=
  let digits := Nat.toDigits 16 n
  List.replicate (4 - digits.length) '0' ++ digits

def escape (c : Char) : List Char :=
  match c with
  | '"' => ['\\', '"']
  | '\\' => ['\\', '\\']
  | '\x08' => ['\\', 'b']
  | '\t' => ['\\', 't']
  | '\n' => ['\\', 'n']
  | '\x0c' => ['\\', 'f']
  | '\r' => ['\\', 'r']
  | _ => if c.toNat < 0x20 then '\\' :: 'u' :: hex4 c.toNat else [c]

def quoted (s : String) : String := "\"" ++ String.ofList (s.toList.flatMap escape) ++ "\""

def indent (depth : Nat) : String := "".pushn ' ' (2 * depth)

/-- Items on lines of their own, one level below the brackets. -/
def bracketed (depth : Nat) (opening closing : String) (items : List String) : String :=
  if items.isEmpty then opening ++ closing
  else
    opening ++ "\n" ++
      String.intercalate ",\n" (items.map (indent (depth + 1) ++ ·)) ++ "\n" ++ indent depth ++ closing

mutual

def writeAt (depth : Nat) : JsonValue → String
  | .null => "null"
  | .bool b => if b then "true" else "false"
  | .number n => toString n
  | .string s => quoted s
  | .array items => bracketed depth "[" "]" (writeItems (depth + 1) items)
  | .object members => bracketed depth "\x7b" "\x7d" (writeMembers (depth + 1) members)

def writeItems (depth : Nat) : List JsonValue → List String
  | [] => []
  | v :: rest => v.writeAt depth :: writeItems depth rest

def writeMembers (depth : Nat) : List (String × JsonValue) → List String
  | [] => []
  | (key, v) :: rest => (quoted key ++ ": " ++ v.writeAt depth) :: writeMembers depth rest

end

def write (v : JsonValue) : String := v.writeAt 0

def optional {α : Type} (key : String) (f : α → JsonValue) : Option α → List (String × JsonValue)
  | some a => [(key, f a)]
  | none => []

end JsonValue

end Stackable

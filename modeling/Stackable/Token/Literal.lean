import Stackable.Token.Basic
import Stackable.Number.Decimal

/-!
# Literals

How the digits, suffixes and escapes of a literal are split and what they stand for. Every
function reads the text from its start and says how many characters it takes.
-/

set_option autoImplicit false

namespace Stackable.Literal

def isDigit (c : Char) : Bool := '0' ≤ c && c ≤ '9'

def isHexDigit (c : Char) : Bool := (Decimal.digitValue? c).isSome

def isBinaryDigit (c : Char) : Bool := c == '0' || c == '1'

def orUnderscore (isMember : Char → Bool) (c : Char) : Bool := isMember c || c == '_'

def dropUnderscores (digits : List Char) : List Char := digits.filter (· != '_')

/-! ## Numbers -/

def intSuffix : List Char → Nat × Option IntSuffix
  | c :: rest =>
    let next := rest.headD ' '
    if c == 'u' || c == 'U' then
      if next == 'l' || next == 'L' then (2, some .ul) else (1, some .u)
    else if c == 'l' || c == 'L' then
      if next == 'u' || next == 'U' then (2, some .ul) else (1, some .l)
    else (0, none)
  | [] => (0, none)

def realSuffix : List Char → Nat × Option RealSuffix
  | c :: _ =>
    if c == 'f' || c == 'F' then (1, some .f)
    else if c == 'd' || c == 'D' then (1, some .d)
    else if c == 'm' || c == 'M' then (1, some .m)
    else (0, none)
  | [] => (0, none)

def exponent? : List Char → Option (Nat × Int)
  | mark :: rest =>
    if mark == 'e' || mark == 'E' then
      let sign := rest.headD ' '
      let signSize := if sign == '+' || sign == '-' then 1 else 0
      let digits := (rest.drop signSize).takeWhile isDigit
      let value : Int := Decimal.digitsValue 10 digits
      if digits.isEmpty then none
      else some (1 + signSize + digits.length, if sign == '-' then -value else value)
    else none
  | [] => none

/-- The value of an integer literal; it has at least one digit and fits in 64 bits. -/
def intValue? (base : Nat) (digits : List Char) : Option Nat :=
  let digits := dropUnderscores digits
  let value := Decimal.digitsValue base digits
  if digits.isEmpty || Nat.pow 2 64 ≤ value then none else some value

def realValue (whole fraction : List Char) (exponent : Int) : Float :=
  let fraction := dropUnderscores fraction
  Decimal.toFloat (Decimal.digitsValue 10 (dropUnderscores whole ++ fraction))
    (exponent - fraction.length)

/-! ## Escapes -/

/-- The character with a code point, if that is one: a surrogate is not. -/
def charOfCode? (code : Nat) : Option Char :=
  if code.isValidChar then some (Char.ofNat code) else none

def hexEscape? (least most : Nat) (cs : List Char) : Option (Char × Nat) :=
  let digits := (cs.take most).takeWhile isHexDigit
  if digits.length < least then none
  else (charOfCode? (Decimal.digitsValue 16 digits)).map (·, digits.length)

/-- The character that the text behind a backslash stands for, and how many characters spell
it. -/
def escape? : List Char → Option (Char × Nat)
  | [] => none
  | c :: cs =>
    match c with
    | 'n' => some ('\n', 1)
    | 'r' => some ('\r', 1)
    | 't' => some ('\t', 1)
    | 'a' => some ('\x07', 1)
    | 'b' => some ('\x08', 1)
    | 'f' => some ('\x0c', 1)
    | 'v' => some ('\x0b', 1)
    | '\\' => some ('\\', 1)
    | '0' => some ('\x00', 1)
    | '\'' => some ('\'', 1)
    | '"' => some ('"', 1)
    | 'u' => (hexEscape? 4 4 cs).map fun (c, n) => (c, n + 1)
    | 'x' => (hexEscape? 1 4 cs).map fun (c, n) => (c, n + 1)
    | _ => none

def unescape? : List Char → Option (List Char)
  | [] => some []
  | c :: cs =>
    if c = '\\' then
      match escape? cs with
      | some (e, n) => (unescape? (cs.drop n)).map (e :: ·)
      | none => none
    else (unescape? cs).map (c :: ·)
termination_by cs => cs.length
decreasing_by all_goals (simp only [List.length_drop, List.length_cons]; omega)

def undouble : List Char → List Char
  | '"' :: '"' :: cs => '"' :: undouble cs
  | c :: cs => c :: undouble cs
  | [] => []

/-! ## Extents -/

/-- The length of a regular literal's text, and whether a quote closes it. An unclosed one ends
at the newline, at the end of the input, or at a backslash that stands before one of them. -/
def quotedExtent : List Char → Nat × Bool
  | [] => (0, false)
  | '"' :: _ => (0, true)
  | '\n' :: _ => (0, false)
  | ['\\'] => (0, false)
  | '\\' :: '\n' :: _ => (0, false)
  | '\\' :: _ :: cs => (quotedExtent cs).map (· + 2) id
  | _ :: cs => (quotedExtent cs).map (· + 1) id

def verbatimExtent : List Char → Nat × Bool
  | [] => (0, false)
  | '"' :: '"' :: cs => (verbatimExtent cs).map (· + 2) id
  | '"' :: _ => (0, true)
  | _ :: cs => (verbatimExtent cs).map (· + 1) id

/-- The length of a character literal's text, if the literal is well formed up to its closing
quote: one plain character, one escaped character, or a hexadecimal escape. -/
def characterExtent? : List Char → Option Nat
  | '\\' :: 'u' :: cs => closedHex? 4 4 cs
  | '\\' :: 'x' :: cs => closedHex? 1 4 cs
  | '\\' :: c :: '\'' :: _ => if c = '\n' then none else some 2
  | c :: '\'' :: _ => if c = '\'' ∨ c = '\\' ∨ c = '\n' then none else some 1
  | _ => none
where
  closedHex? (least most : Nat) (cs : List Char) : Option Nat :=
    let size := ((cs.take most).takeWhile isHexDigit).length
    if least ≤ size ∧ cs[size]? = some '\'' then some (size + 2) else none

end Stackable.Literal

import Stackable.Token.Literal

/-!
# From text to tokens

The text is taken apart from its start: at each point the longest lexical unit is cut off, and it
is a blank, a token or a fault. What the cut is worth depends on the cut text alone.
-/

set_option autoImplicit false

namespace Stackable

namespace LexError

inductive Cause where
  | unexpectedCharacter (c : Char)
  | unterminatedString
  | invalidEscape
  | invalidNumber
deriving Repr, DecidableEq

def Cause.message : Cause → String
  | .unexpectedCharacter c => "Unexpected character '" ++ String.singleton c ++ "'"
  | .unterminatedString => "Unterminated string"
  | .invalidEscape => "Invalid escape sequence"
  | .invalidNumber => "Invalid number"

def Cause.hint : Cause → Option String
  | .unexpectedCharacter _ => none
  | .unterminatedString => some "Add a closing '\"'"
  | .invalidEscape => some "Valid: \\n \\r \\t \\a \\b \\f \\v \\\\ \\0 \\' \\\" \\uXXXX \\xH"
  | .invalidNumber => some "Integer literals must fit in 64 bits"

/-- The part of a faulty cut from `start` to `stop` that is reported. -/
def Cause.extent (start stop : Nat) : Cause → Span
  | .unexpectedCharacter c => ⟨start, start + c.utf8Size⟩
  | .invalidEscape => ⟨start, start + 1⟩
  | .unterminatedString | .invalidNumber => ⟨start, stop⟩

end LexError

structure LexError where
  cause : LexError.Cause
  span : Span
deriving Repr, DecidableEq

def LexError.message (e : LexError) : String := e.cause.message

def LexError.hint (e : LexError) : Option String := e.cause.hint

namespace Lexer

open Literal

inductive Piece where
  | blank
  | token (kind : TokenKind)
  | fault (cause : LexError.Cause)

/-- A cut: its first character and `extra` more. -/
structure Munch where
  extra : Nat
  piece : Piece

def isBlank (c : Char) : Bool := c == ' ' || c == '\t' || c == '\r' || c == '\n' || c == '\x0c'

def isNameStart (c : Char) : Bool := ('a' ≤ c && c ≤ 'z') || ('A' ≤ c && c ≤ 'Z') || c == '_'

def isNamePart (c : Char) : Bool := isNameStart c || isDigit c

def toLineEnd (cs : List Char) : Munch := ⟨(cs.takeWhile (· != '\n')).length, .blank⟩

def commentExtent : List Char → Nat
  | [] => 0
  | '*' :: '/' :: _ => 2
  | _ :: cs => commentExtent cs + 1

def intPiece (base : Nat) (digits : List Char) (suffix : Option IntSuffix) : Piece :=
  match intValue? base digits with
  | some value => .token (.int value suffix)
  | none => .fault .invalidNumber

def radixNumber (base : Nat) (isMember : Char → Bool) (cs : List Char) : Munch :=
  let digits := cs.takeWhile (orUnderscore isMember)
  let (size, suffix) := intSuffix (cs.drop digits.length)
  ⟨1 + digits.length + size, intPiece base digits suffix⟩

/-- A decimal literal: a fraction, an exponent or a real suffix makes it real. -/
def decimalNumber (c : Char) (cs : List Char) : Munch :=
  let more := cs.takeWhile (orUnderscore isDigit)
  let rest := cs.drop more.length
  let fraction :=
    if rest.head? = some '.' ∧ isDigit ((rest.drop 1).headD ' ') then
      (rest.drop 1).takeWhile (orUnderscore isDigit)
    else []
  let point := if fraction.isEmpty then 0 else 1 + fraction.length
  let exponent := exponent? (rest.drop point)
  let (exponentSize, power) := exponent.getD (0, 0)
  let (size, suffix) := realSuffix (rest.drop (point + exponentSize))
  if point = 0 ∧ exponent = none ∧ suffix = none then
    let (size, suffix) := intSuffix rest
    ⟨more.length + size, intPiece 10 (c :: more) suffix⟩
  else
    ⟨more.length + point + exponentSize + size,
      .token (.real (realValue (c :: more) fraction power) suffix)⟩

def number (c : Char) (cs : List Char) : Munch :=
  let mark := cs.headD ' '
  let digit := (cs.drop 1).headD ' '
  if c == '0' && (mark == 'x' || mark == 'X') && orUnderscore isHexDigit digit then
    radixNumber 16 isHexDigit (cs.drop 1)
  else if c == '0' && (mark == 'b' || mark == 'B') && orUnderscore isBinaryDigit digit then
    radixNumber 2 isBinaryDigit (cs.drop 1)
  else decimalNumber c cs

def wordKind (word : String) : TokenKind :=
  if word == "true" then .bool true
  else if word == "false" then .bool false
  else match Keyword.ofText? word with
    | some k => .keyword k
    | none => .ident word

def word (c : Char) (cs : List Char) : Munch :=
  let more := cs.takeWhile isNamePart
  ⟨more.length, .token (wordKind (String.ofList (c :: more)))⟩

def quoted (opening : Nat) (cs : List Char) : Munch :=
  let (size, closed) := quotedExtent cs
  if closed then
    ⟨opening + size + 1, match unescape? (cs.take size) with
      | some text => .token (.string (String.ofList text))
      | none => .fault .invalidEscape⟩
  else ⟨opening + size, .fault .unterminatedString⟩

def verbatim (cs : List Char) : Munch :=
  let (size, closed) := verbatimExtent cs
  if closed then ⟨size + 2, .token (.string (String.ofList (undouble (cs.take size))))⟩
  else ⟨size + 1, .fault .unterminatedString⟩

/-- The text behind `$@"` or `@$"`: such literals are refused, and skipped up to their closing
quote. -/
def interpolatedVerbatim (cs : List Char) : Munch :=
  let (size, closed) := verbatimExtent cs
  ⟨2 + size + (if closed then 1 else 0), .fault .unterminatedString⟩

/-- A malformed character literal gives up its quote only, or four characters when it starts like
a hexadecimal escape that goes on. -/
def brokenCharacter (cs : List Char) : Munch :=
  match cs with
  | '\\' :: 'x' :: h :: _ :: _ =>
    ⟨if isHexDigit h then 3 else 0, .fault (.unexpectedCharacter '\'')⟩
  | _ => ⟨0, .fault (.unexpectedCharacter '\'')⟩

def character (cs : List Char) : Munch :=
  match characterExtent? cs with
  | some size =>
    ⟨size + 1, match unescape? (cs.take size) with
      | some [c] => .token (.char c)
      | _ => .fault .invalidEscape⟩
  | none => brokenCharacter cs

def marked (c : Char) (cs : List Char) : Munch :=
  let other := if c == '@' then '$' else '@'
  match cs with
  | '"' :: rest => if c == '@' then verbatim rest else quoted 1 rest
  | d :: rest =>
    if d == other then
      match rest with
      | '"' :: rest => interpolatedVerbatim rest
      | _ => ⟨1, .fault (.unexpectedCharacter c)⟩
    else if c == '@' && isNameStart d then
      let more := rest.takeWhile isNamePart
      ⟨1 + more.length, .token (.ident (String.ofList (d :: more)))⟩
    else ⟨0, .fault (.unexpectedCharacter c)⟩
  | [] => ⟨0, .fault (.unexpectedCharacter c)⟩

def punctuation (c : Char) (cs : List Char) : Munch :=
  match Punct.longest? (c :: cs) with
  | some p => ⟨p.chars.length - 1, .token (.punct p)⟩
  | none => ⟨0, .fault (.unexpectedCharacter c)⟩

def munch (c : Char) (cs : List Char) : Munch :=
  if isBlank c then ⟨(cs.takeWhile isBlank).length, .blank⟩
  else if isDigit c then number c cs
  else if isNameStart c then word c cs
  else if c == '#' then toLineEnd cs
  else if c == '"' then quoted 0 cs
  else if c == '\'' then character cs
  else if c == '@' || c == '$' then marked c cs
  else if c == '/' && cs.head? == some '/' then toLineEnd cs
  else if c == '/' && cs.head? == some '*' then ⟨1 + commentExtent (cs.drop 1), .blank⟩
  else punctuation c cs

def maxErrors : Nat := 20

structure Result where
  tokens : List Token
  errors : List LexError

/-- The units of a text that starts at `offset`, with room for `budget` errors. -/
def run (offset budget : Nat) : List Char → Result
  | [] => ⟨[], []⟩
  | c :: cs =>
    if budget = 0 then ⟨[], []⟩
    else
      let m := munch c cs
      let stop := offset + c.utf8Size + Text.byteSize (cs.take m.extra)
      match m.piece with
      | .blank => run stop budget (cs.drop m.extra)
      | .token kind =>
        let r := run stop budget (cs.drop m.extra)
        ⟨⟨kind, offset, stop⟩ :: r.tokens, r.errors⟩
      | .fault cause =>
        let r := run stop (budget - 1) (cs.drop m.extra)
        ⟨r.tokens, ⟨cause, cause.extent offset stop⟩ :: r.errors⟩
termination_by cs => cs.length
decreasing_by all_goals (simp only [List.length_drop, List.length_cons]; omega)

def tokenize (source : List Char) : Result :=
  let r := run 0 maxErrors source
  let stop := Text.byteSize source
  ⟨r.tokens ++ [⟨.eof, stop, stop⟩], r.errors⟩

def Result.isOk (r : Result) : Bool := r.errors.isEmpty

end Lexer

end Stackable

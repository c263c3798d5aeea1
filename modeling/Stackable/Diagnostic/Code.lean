import Stackable.Parser.Error
import Stackable.Rule.Basic
import Stackable.Text.Distance

/-!
# Codes

Errors in a source have codes, findings have the names of their rules. Both can be looked up and
explained.
-/

set_option autoImplicit false

namespace Stackable

inductive Category where
  | grammar
  | performance
deriving Repr, DecidableEq

def Category.text : Category → String
  | .grammar => "Syntax"
  | .performance => "Performance"

inductive ErrorCode where
  | unexpectedCharacter | unterminatedString | invalidEscape | invalidNumber
  | unexpectedToken | missingToken | unsupported
deriving Repr, DecidableEq

namespace ErrorCode

def all : List ErrorCode :=
  [.unexpectedCharacter, .unterminatedString, .invalidEscape, .invalidNumber, .unexpectedToken,
   .missingToken, .unsupported]

def text : ErrorCode → String
  | .unexpectedCharacter => "E0001"
  | .unterminatedString => "E0002"
  | .invalidEscape => "E0003"
  | .invalidNumber => "E0004"
  | .unexpectedToken => "E0100"
  | .missingToken => "E0101"
  | .unsupported => "E0102"

def title : ErrorCode → String
  | .unexpectedCharacter => "unexpected character"
  | .unterminatedString => "unterminated string literal"
  | .invalidEscape => "invalid escape sequence"
  | .invalidNumber => "invalid number literal"
  | .unexpectedToken => "unexpected token"
  | .missingToken => "expected token not found"
  | .unsupported => "unsupported syntax"

def category (_ : ErrorCode) : Category := .grammar

def ofText? (text : String) : Option ErrorCode := all.find? (·.text == text)

end ErrorCode

def Rule.categoryOf (r : Rule) : Category := if r.category == "performance" then .performance else .grammar

def Category.ofCode? (code : String) : Option Category :=
  match ErrorCode.ofText? code with
  | some c => some c.category
  | none => (Rule.find? code).map Rule.categoryOf

def LexError.code (e : LexError) : ErrorCode :=
  match e.cause with
  | .unexpectedCharacter _ => .unexpectedCharacter
  | .unterminatedString => .unterminatedString
  | .invalidEscape => .invalidEscape
  | .invalidNumber => .invalidNumber

/-- Where the input ends inside brackets nothing particular is missing. -/
def Expected.code (e : Expected) (found : TokenKind) : ErrorCode :=
  match e with
  | .mark .rParen | .mark .rBracket => if found.isEof then .unexpectedToken else .missingToken
  | .arraySize => .unexpectedToken
  | _ => .missingToken

def ParseError.code (e : ParseError) : ErrorCode :=
  match e.cause with
  | .expected what found => what.code found
  | .unguarded _ => .missingToken
  | .finalizer | .indexer | .operatorDeclaration => .unsupported
  | .nesting => .unexpectedToken

/-! ## Explanations -/

/-- The lines of a text; a newline at the end starts no line. -/
def textLines (text : List Char) : List (List Char) :=
  let lines := text.splitOn '\n'
  if lines.getLast? = some [] then lines.dropLast else lines

def Rule.explain (r : Rule) : String :=
  let sample := (textLines r.sample.toList).map fun line =>
    "    " ++ String.ofList (line.dropWhile (· == ' ')) ++ "\n"
  r.id ++ ": " ++ r.title ++ "\n\ncategory: " ++ r.category ++ "\ndefault severity: " ++ r.severity.text ++
    "\n\n" ++ r.description ++ "\n\nfix: " ++ r.fix ++ "\n\nexample:\n" ++ String.join sample

def ErrorCode.explain (c : ErrorCode) : String :=
  c.text ++ ": " ++ c.title ++ "\ncategory: " ++ c.category.text ++
    "\n\nRun `stacklint check <file>` to see this error in context."

def explain? (code : String) : Option String :=
  match Rule.find? code with
  | some r => some r.explain
  | none => (ErrorCode.ofText? code).map ErrorCode.explain

def Rule.suggest? (id : String) : Option String := Text.didYouMean? id (Rule.all.map (·.id))

end Stackable

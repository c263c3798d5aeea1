import Stackable.Toml.Number
import Stackable.Toml.Value

/-!
# Reading settings

The text format of settings. A reader takes what it reads from the front of a text and returns
the rest. No setting is an array of tables, so the header of one is refused.
-/

set_option autoImplicit false

namespace Stackable.Toml

def isBlank (c : Char) : Bool := c == ' ' || c == '\t'

def skipBlanks (cs : List Char) : List Char := cs.dropWhile isBlank

/-- A character that stands for itself in a string or a comment: no control other than a tab. -/
def isPlain (c : Char) : Bool := c == '\t' || (0x20 ≤ c.toNat && c.toNat ≠ 0x7F)

def skipComment : List Char → List Char
  | '#' :: cs => cs.dropWhile isPlain
  | cs => cs

def newline? : List Char → Option (List Char)
  | '\n' :: cs => some cs
  | '\r' :: '\n' :: cs => some cs
  | _ => none

def lineEnd? (cs : List Char) : Option (List Char) :=
  match skipComment (skipBlanks cs) with
  | [] => some []
  | cs => newline? cs

def skipGaps (inComment : Bool) : List Char → List Char
  | [] => []
  | '\r' :: '\n' :: cs => skipGaps false cs
  | c :: cs =>
    if c = '\n' then skipGaps false cs
    else if inComment then if isPlain c then skipGaps true cs else c :: cs
    else if c = '#' then skipGaps true cs
    else if isBlank c then skipGaps false cs
    else c :: cs

/-! ## Strings -/

def escaped? : Char → Option Char
  | 'b' => some '\x08'
  | 't' => some '\t'
  | 'n' => some '\n'
  | 'f' => some '\x0c'
  | 'r' => some '\r'
  | '"' => some '"'
  | '\\' => some '\\'
  | _ => none

def codePoint? (digits : List Char) : Option Char := do
  let n ← digits.foldlM (fun n d => (Decimal.digitValue? d).map (n * 16 + ·)) 0
  if n.isValidChar then some (Char.ofNat n) else none

abbrev Text := List Char × List Char

def cons? (c : Option Char) (rest : Option Text) : Option Text := do
  let (text, rest) ← rest
  return ((← c) :: text, rest)

def basicText : List Char → Option Text
  | [] => none
  | '"' :: cs => some ([], cs)
  | '\\' :: 'u' :: a :: b :: c :: d :: cs => cons? (codePoint? [a, b, c, d]) (basicText cs)
  | '\\' :: 'U' :: a :: b :: c :: d :: e :: f :: g :: h :: cs =>
    cons? (codePoint? [a, b, c, d, e, f, g, h]) (basicText cs)
  | '\\' :: e :: cs => cons? (escaped? e) (basicText cs)
  | c :: cs => if isPlain c && c != '\\' then cons? (some c) (basicText cs) else none

def isLineRest (cs : List Char) : Bool := (newline? (skipBlanks cs)).isSome

/-- A string of several lines behind its opening quotes. A backslash at the end of a line takes away
all blanks and newlines that follow; `trimming` says that this is under way. -/
def basicLines (trimming : Bool) : List Char → Option Text
  | [] => none
  | '"' :: '"' :: '"' :: '"' :: '"' :: cs => some (['"', '"'], cs)
  | '"' :: '"' :: '"' :: '"' :: cs => some (['"'], cs)
  | '"' :: '"' :: '"' :: cs => some ([], cs)
  | '\r' :: '\n' :: cs =>
    if trimming then basicLines true cs else cons? (some '\n') (basicLines false cs)
  | '\\' :: 'u' :: a :: b :: c :: d :: cs => cons? (codePoint? [a, b, c, d]) (basicLines false cs)
  | '\\' :: 'U' :: a :: b :: c :: d :: e :: f :: g :: h :: cs =>
    cons? (codePoint? [a, b, c, d, e, f, g, h]) (basicLines false cs)
  | '\\' :: e :: cs =>
    if isLineRest (e :: cs) then basicLines true cs
    else cons? (escaped? e) (basicLines false cs)
  | c :: cs =>
    if trimming && (isBlank c || c == '\n') then basicLines true cs
    else if c = '\n' || (isPlain c && c != '\\') then cons? (some c) (basicLines false cs)
    else none

def literalText : List Char → Option Text
  | [] => none
  | c :: cs =>
    if c = '\'' then some ([], cs)
    else if isPlain c then cons? (some c) (literalText cs)
    else none

def literalLines : List Char → Option Text
  | [] => none
  | '\'' :: '\'' :: '\'' :: '\'' :: '\'' :: cs => some (['\'', '\''], cs)
  | '\'' :: '\'' :: '\'' :: '\'' :: cs => some (['\''], cs)
  | '\'' :: '\'' :: '\'' :: cs => some ([], cs)
  | '\r' :: '\n' :: cs => cons? (some '\n') (literalLines cs)
  | c :: cs => if c = '\n' || isPlain c then cons? (some c) (literalLines cs) else none

def skipFirstNewline (cs : List Char) : List Char := (newline? cs).getD cs

/-! ## Keys -/

def isBareChar (c : Char) : Bool := c.isAlphanum || c == '_' || c == '-'

def simpleKey? (cs : List Char) : Option (String × List Char) :=
  let ofText := fun (t : Text) => (String.ofList t.1, t.2)
  match cs with
  | '"' :: cs => (basicText cs).map ofText
  | '\'' :: cs => (literalText cs).map ofText
  | _ =>
    if (cs.takeWhile isBareChar).isEmpty then none
    else some (String.ofList (cs.takeWhile isBareChar), cs.dropWhile isBareChar)

/-- How many keys a dotted key has at most, and how deep arrays and tables in braces nest. -/
def maxDepth : Nat := 79

def keysUpTo? : Nat → List Char → Option (List String × List Char)
  | 0, _ => none
  | count + 1, cs => do
    let (key, cs) ← simpleKey? (skipBlanks cs)
    match skipBlanks cs with
    | '.' :: cs =>
      let (path, cs) ← keysUpTo? count cs
      return (key :: path, cs)
    | cs => return ([key], cs)

def keyPath? (cs : List Char) : Option (List String × List Char) := keysUpTo? maxDepth cs

/-! ## Values -/

abbrev ValueReader := List Char → Option (Value × List Char)

/-- A moment or a number: the first of the readings that there is. -/
def quantity? : ValueReader := fun cs =>
  match Moment.read? cs, Number.real? cs with
  | some (m, cs), _ => some (.moment m, cs)
  | none, some (x, cs) => some (.real x, cs)
  | none, none => (Number.integer? cs).map fun (v, cs) => (.integer v, cs)

def scalar? : ValueReader := fun cs =>
  let ofText := fun (t : Text) => (Value.string (String.ofList t.1), t.2)
  match cs with
  | '"' :: '"' :: '"' :: cs => (basicLines false (skipFirstNewline cs)).map ofText
  | '"' :: cs => (basicText cs).map ofText
  | '\'' :: '\'' :: '\'' :: cs => (literalLines (skipFirstNewline cs)).map ofText
  | '\'' :: cs => (literalText cs).map ofText
  | 't' :: 'r' :: 'u' :: 'e' :: cs => some (.bool true, cs)
  | 'f' :: 'a' :: 'l' :: 's' :: 'e' :: cs => some (.bool false, cs)
  | cs => quantity? cs

def pair? (value? : ValueReader) (cs : List Char) : Option (Pair × List Char) := do
  let (path, cs) ← keyPath? cs
  match cs with
  | '=' :: cs =>
    let (v, cs) ← value? (skipBlanks cs)
    return (⟨path.dropLast, path.getLastD "", v⟩, cs)
  | _ => none

def items? (value? : ValueReader) : Nat → List Char → Option (List Value × List Char)
  | 0, _ => none
  | count + 1, cs =>
    match skipGaps false cs with
    | ']' :: cs => some ([], cs)
    | cs => do
      let (v, cs) ← value? cs
      match skipGaps false cs with
      | ',' :: cs =>
        let (vs, cs) ← items? value? count cs
        return (v :: vs, cs)
      | ']' :: cs => return ([v], cs)
      | _ => none

/-- At most `count` settings of a table in braces, on one line and with no comma at the end. -/
def members? (value? : ValueReader) : Nat → List Char → Option (List Pair × List Char)
  | 0, _ => none
  | count + 1, cs => do
    let (p, cs) ← pair? value? cs
    match skipBlanks cs with
    | ',' :: cs =>
      let (ps, cs) ← members? value? count cs
      return (p :: ps, cs)
    | '}' :: cs => return ([p], cs)
    | _ => none

def array? (value? : ValueReader) : ValueReader := fun cs =>
  (items? value? (cs.length + 1) cs).map fun (items, cs) => (.array items, cs)

def inlineTable? (value? : ValueReader) : ValueReader := fun cs => do
  let (pairs, cs) ← match skipBlanks cs with
    | '}' :: cs => some ([], cs)
    | cs => members? value? (cs.length + 1) cs
  return (.table .inline (← entriesOfPairs? pairs), cs)

/-- A value in which arrays and tables nest at most as deep as is given. -/
def valueWithin? : Nat → ValueReader
  | 0, cs => scalar? cs
  | depth + 1, cs =>
    match cs with
    | '[' :: cs => array? (valueWithin? depth) cs
    | '{' :: cs => inlineTable? (valueWithin? depth) cs
    | cs => scalar? cs

def value? : ValueReader := valueWithin? maxDepth

/-! ## Documents -/

def lines? : Nat → List Char → Option (List Line)
  | 0, _ => none
  | count + 1, cs =>
    match skipBlanks cs with
    | [] => some []
    | '[' :: cs => do
      let (path, cs) ← keyPath? cs
      match cs with
      | ']' :: cs => return .header path :: (← lines? count (← lineEnd? cs))
      | _ => none
    | cs => do
      if cs.head? = some '#' ∨ (newline? cs).isSome then lines? count (← lineEnd? cs)
      else
        let (p, cs) ← pair? value? cs
        return .pair p :: (← lines? count (← lineEnd? cs))

def skipMark : List Char → List Char
  | '\ufeff' :: cs => cs
  | cs => cs

def read? (text : List Char) : Option Entries :=
  let cs := skipMark text
  (lines? (cs.length + 1) cs).bind entriesOfLines?

end Stackable.Toml

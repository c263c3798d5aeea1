import Stackable.Source.Span

/-!
# Tokens

The lexical units of C#. Contextual keywords (`var`, `async`, `await`, `yield`, `get`, `set`,
`init`, `where`, `when`, `switch`, `case`) are names; the grammar tells them apart by position.
-/

set_option autoImplicit false

namespace Stackable

/-- Reserved words, apart from the two Boolean literals. -/
inductive Keyword where
  | usingKw | namespaceKw | classKw | structKw | interfaceKw | enumKw | recordKw | publicKw
  | privateKw | protectedKw | internalKw | staticKw | constKw | readonlyKw | unsafeKw
  | abstractKw | virtualKw | overrideKw | sealedKw | externKw | volatileKw | newKw | boolKw
  | byteKw | sbyteKw | shortKw | ushortKw | intKw | uintKw | longKw | ulongKw | charKw | floatKw
  | doubleKw | decimalKw | objectKw | stringKw | voidKw | returnKw | ifKw | elseKw | forKw
  | foreachKw | inKw | whileKw | doKw | breakKw | continueKw | throwKw | tryKw | catchKw
  | finallyKw | thisKw | baseKw | typeofKw | sizeofKw | defaultKw | stackallocKw | isKw | asKw
  | refKw | outKw | paramsKw | nullKw
deriving Repr, DecidableEq, Inhabited

namespace Keyword

def all : List Keyword :=
  [.usingKw, .namespaceKw, .classKw, .structKw, .interfaceKw, .enumKw, .recordKw, .publicKw,
   .privateKw, .protectedKw, .internalKw, .staticKw, .constKw, .readonlyKw, .unsafeKw,
   .abstractKw, .virtualKw, .overrideKw, .sealedKw, .externKw, .volatileKw, .newKw, .boolKw,
   .byteKw, .sbyteKw, .shortKw, .ushortKw, .intKw, .uintKw, .longKw, .ulongKw, .charKw, .floatKw,
   .doubleKw, .decimalKw, .objectKw, .stringKw, .voidKw, .returnKw, .ifKw, .elseKw, .forKw,
   .foreachKw, .inKw, .whileKw, .doKw, .breakKw, .continueKw, .throwKw, .tryKw, .catchKw,
   .finallyKw, .thisKw, .baseKw, .typeofKw, .sizeofKw, .defaultKw, .stackallocKw, .isKw, .asKw,
   .refKw, .outKw, .paramsKw, .nullKw]

def text : Keyword → String
  | .usingKw => "using"
  | .namespaceKw => "namespace"
  | .classKw => "class"
  | .structKw => "struct"
  | .interfaceKw => "interface"
  | .enumKw => "enum"
  | .recordKw => "record"
  | .publicKw => "public"
  | .privateKw => "private"
  | .protectedKw => "protected"
  | .internalKw => "internal"
  | .staticKw => "static"
  | .constKw => "const"
  | .readonlyKw => "readonly"
  | .unsafeKw => "unsafe"
  | .abstractKw => "abstract"
  | .virtualKw => "virtual"
  | .overrideKw => "override"
  | .sealedKw => "sealed"
  | .externKw => "extern"
  | .volatileKw => "volatile"
  | .newKw => "new"
  | .boolKw => "bool"
  | .byteKw => "byte"
  | .sbyteKw => "sbyte"
  | .shortKw => "short"
  | .ushortKw => "ushort"
  | .intKw => "int"
  | .uintKw => "uint"
  | .longKw => "long"
  | .ulongKw => "ulong"
  | .charKw => "char"
  | .floatKw => "float"
  | .doubleKw => "double"
  | .decimalKw => "decimal"
  | .objectKw => "object"
  | .stringKw => "string"
  | .voidKw => "void"
  | .returnKw => "return"
  | .ifKw => "if"
  | .elseKw => "else"
  | .forKw => "for"
  | .foreachKw => "foreach"
  | .inKw => "in"
  | .whileKw => "while"
  | .doKw => "do"
  | .breakKw => "break"
  | .continueKw => "continue"
  | .throwKw => "throw"
  | .tryKw => "try"
  | .catchKw => "catch"
  | .finallyKw => "finally"
  | .thisKw => "this"
  | .baseKw => "base"
  | .typeofKw => "typeof"
  | .sizeofKw => "sizeof"
  | .defaultKw => "default"
  | .stackallocKw => "stackalloc"
  | .isKw => "is"
  | .asKw => "as"
  | .refKw => "ref"
  | .outKw => "out"
  | .paramsKw => "params"
  | .nullKw => "null"

def ofText? (word : String) : Option Keyword := all.find? (·.text == word)

end Keyword

inductive Punct where
  | questionQuestionEq | ltLtEq | gtGtEq | eqEq | bangEq | ltEq | gtEq | ampAmp | pipePipe
  | questionQuestion | questionDot | plusPlus | minusMinus | arrow | fatArrow | ltLt | gtGt
  | colonColon | plusEq | minusEq | starEq | slashEq | percentEq | ampEq | pipeEq | caretEq
  | plus | minus | star | slash | percent | eq | lt | gt | bang | question | dot | amp | pipe
  | caret | tilde | lBrace | rBrace | lParen | rParen | lBracket | rBracket | colon | semi
  | comma
deriving Repr, DecidableEq, Inhabited

namespace Punct

/-- Every mark, longest first. -/
def all : List Punct :=
  [.questionQuestionEq, .ltLtEq, .gtGtEq, .eqEq, .bangEq, .ltEq, .gtEq, .ampAmp, .pipePipe,
   .questionQuestion, .questionDot, .plusPlus, .minusMinus, .arrow, .fatArrow, .ltLt, .gtGt,
   .colonColon, .plusEq, .minusEq, .starEq, .slashEq, .percentEq, .ampEq, .pipeEq, .caretEq,
   .plus, .minus, .star, .slash, .percent, .eq, .lt, .gt, .bang, .question, .dot, .amp, .pipe,
   .caret, .tilde, .lBrace, .rBrace, .lParen, .rParen, .lBracket, .rBracket, .colon, .semi,
   .comma]

def chars : Punct → List Char
  | .questionQuestionEq => ['?', '?', '=']
  | .ltLtEq => ['<', '<', '=']
  | .gtGtEq => ['>', '>', '=']
  | .eqEq => ['=', '=']
  | .bangEq => ['!', '=']
  | .ltEq => ['<', '=']
  | .gtEq => ['>', '=']
  | .ampAmp => ['&', '&']
  | .pipePipe => ['|', '|']
  | .questionQuestion => ['?', '?']
  | .questionDot => ['?', '.']
  | .plusPlus => ['+', '+']
  | .minusMinus => ['-', '-']
  | .arrow => ['-', '>']
  | .fatArrow => ['=', '>']
  | .ltLt => ['<', '<']
  | .gtGt => ['>', '>']
  | .colonColon => [':', ':']
  | .plusEq => ['+', '=']
  | .minusEq => ['-', '=']
  | .starEq => ['*', '=']
  | .slashEq => ['/', '=']
  | .percentEq => ['%', '=']
  | .ampEq => ['&', '=']
  | .pipeEq => ['|', '=']
  | .caretEq => ['^', '=']
  | .plus => ['+']
  | .minus => ['-']
  | .star => ['*']
  | .slash => ['/']
  | .percent => ['%']
  | .eq => ['=']
  | .lt => ['<']
  | .gt => ['>']
  | .bang => ['!']
  | .question => ['?']
  | .dot => ['.']
  | .amp => ['&']
  | .pipe => ['|']
  | .caret => ['^']
  | .tilde => ['~']
  | .lBrace => ['{']
  | .rBrace => ['}']
  | .lParen => ['(']
  | .rParen => [')']
  | .lBracket => ['[']
  | .rBracket => [']']
  | .colon => [':']
  | .semi => [';']
  | .comma => [',']

def text (p : Punct) : String := String.ofList p.chars

def longest? (input : List Char) : Option Punct := all.find? (·.chars.isPrefixOf input)

end Punct

inductive IntSuffix where
  | u | l | ul
deriving Repr, DecidableEq

inductive RealSuffix where
  | f | d | m
deriving Repr, DecidableEq

inductive TokenKind where
  | int (value : Nat) (suffix : Option IntSuffix)
  | real (value : Float) (suffix : Option RealSuffix)
  | string (value : String)
  | char (value : Char)
  | bool (value : Bool)
  | ident (name : String)
  | keyword (word : Keyword)
  | punct (mark : Punct)
  | eof
deriving Repr, Inhabited

structure Token where
  kind : TokenKind
  span : Span
deriving Repr, Inhabited

inductive PredefinedType where
  | bool | byte | sbyte | short | ushort | int | uint | long | ulong
  | char | float | double | decimal | object | string | void
deriving Repr, DecidableEq

inductive Modifier where
  | publicMod | privateMod | protectedMod | internalMod | staticMod | constMod | readonlyMod
  | unsafeMod | abstractMod | virtualMod | overrideMod | sealedMod | externMod | volatileMod
  | newMod | asyncMod | partialMod
deriving Repr, DecidableEq

namespace Keyword

def predefined? : Keyword → Option PredefinedType
  | .boolKw => some .bool
  | .byteKw => some .byte
  | .sbyteKw => some .sbyte
  | .shortKw => some .short
  | .ushortKw => some .ushort
  | .intKw => some .int
  | .uintKw => some .uint
  | .longKw => some .long
  | .ulongKw => some .ulong
  | .charKw => some .char
  | .floatKw => some .float
  | .doubleKw => some .double
  | .decimalKw => some .decimal
  | .objectKw => some .object
  | .stringKw => some .string
  | .voidKw => some .void
  | _ => none

def modifier? : Keyword → Option Modifier
  | .publicKw => some .publicMod
  | .privateKw => some .privateMod
  | .protectedKw => some .protectedMod
  | .internalKw => some .internalMod
  | .staticKw => some .staticMod
  | .constKw => some .constMod
  | .readonlyKw => some .readonlyMod
  | .unsafeKw => some .unsafeMod
  | .abstractKw => some .abstractMod
  | .virtualKw => some .virtualMod
  | .overrideKw => some .overrideMod
  | .sealedKw => some .sealedMod
  | .externKw => some .externMod
  | .volatileKw => some .volatileMod
  | .newKw => some .newMod
  | _ => none

end Keyword

def PredefinedType.keyword : PredefinedType → Keyword
  | .bool => .boolKw
  | .byte => .byteKw
  | .sbyte => .sbyteKw
  | .short => .shortKw
  | .ushort => .ushortKw
  | .int => .intKw
  | .uint => .uintKw
  | .long => .longKw
  | .ulong => .ulongKw
  | .char => .charKw
  | .float => .floatKw
  | .double => .doubleKw
  | .decimal => .decimalKw
  | .object => .objectKw
  | .string => .stringKw
  | .void => .voidKw

namespace TokenKind

def describe : TokenKind → String
  | .int _ _ | .real _ _ => "a number"
  | .string _ => "a string"
  | .char _ => "a character"
  | .bool _ => "'true' or 'false'"
  | .ident _ => "a name"
  | .keyword word => "'" ++ word.text ++ "'"
  | .punct mark => "'" ++ mark.text ++ "'"
  | .eof => "end of file"

def predefined? : TokenKind → Option PredefinedType
  | .keyword word => word.predefined?
  | _ => none

def modifier? : TokenKind → Option Modifier
  | .keyword word => word.modifier?
  | _ => none

def isPredefined (k : TokenKind) : Bool := k.predefined?.isSome

def isModifier (k : TokenKind) : Bool := k.modifier?.isSome

def isKeyword (k : TokenKind) (word : Keyword) : Bool :=
  match k with
  | .keyword w => w == word
  | _ => false

def isPunct (k : TokenKind) (mark : Punct) : Bool :=
  match k with
  | .punct m => m == mark
  | _ => false

def isIdent : TokenKind → Bool
  | .ident _ => true
  | _ => false

/-- The name `name`, as a contextual keyword is recognised. -/
def isName (k : TokenKind) (name : String) : Bool :=
  match k with
  | .ident n => n == name
  | _ => false

def isEof : TokenKind → Bool
  | .eof => true
  | _ => false

end TokenKind

theorem PredefinedType.predefined?_keyword (p : PredefinedType) :
    p.keyword.predefined? = some p := by
  cases p <;> rfl

theorem Keyword.keyword_of_predefined? {k : Keyword} {p : PredefinedType}
    (h : k.predefined? = some p) : p.keyword = k := by
  cases k <;> simp [Keyword.predefined?] at h <;> subst h <;> rfl

end Stackable

import Stackable.Token.Lexer

/-!
# What can be wrong with a token sequence

An error is a cause and a place. Wording and hints follow from the cause alone.
-/

set_option autoImplicit false

namespace Stackable

inductive Expected where
  | mark (p : Punct)
  | word (k : Keyword)
  | name
  | type
  | expression
  | typeDeclaration
  | memberDeclaration
  | chainTarget
  | accessor
  | body
  | arraySize
  | caseLabel
deriving Repr, DecidableEq

def Expected.describe : Expected → String
  | .mark p => (TokenKind.punct p).describe
  | .word k => (TokenKind.keyword k).describe
  | .name => "name"
  | .type => "type"
  | .expression => "expression"
  | .typeDeclaration => "type declaration"
  | .memberDeclaration => "member declaration"
  | .chainTarget => "'base' or 'this'"
  | .accessor => "'get', 'set' or 'init'"
  | .body => (TokenKind.punct .lBrace).describe ++ ", '=>' or ';'"
  | .arraySize => "array size or initializer"
  | .caseLabel => "'case' or 'default'"

def Expected.message (e : Expected) (found : TokenKind) : String :=
  let plain := "Expected " ++ e.describe ++ ", found " ++ found.describe
  match e with
  | .mark .lBrace => "Expected " ++ e.describe ++ " to start block, found " ++ found.describe
  | .mark .rBrace => "Expected " ++ e.describe ++ " to close block, found " ++ found.describe
  | .mark .rParen => if found.isEof then "Unclosed '(' - missing ')'" else plain
  | .mark .rBracket => if found.isEof then "Unclosed '[' - missing ']'" else plain
  | .arraySize => "Array creation needs a size or an initializer"
  | _ => plain

def Expected.hint (e : Expected) (found : TokenKind) : Option String :=
  match e with
  | .mark .semi =>
    if found.isPunct .rBrace then some "the previous statement is missing its ';'"
    else some "end statements and field declarations with ';'"
  | .mark .lBrace => some ("blocks start with " ++ e.describe)
  | .mark .rBrace => some ("every " ++ describe (.mark .lBrace) ++ " needs a matching " ++ e.describe)
  | .body => some "give the member a body, an expression body, or end it with ';'"
  | .mark .lParen => some "conditions and argument lists are wrapped in parentheses"
  | .mark .rParen => if found.isEof then some "add ')' to close the parenthesis" else none
  | .mark .rBracket => if found.isEof then some "add ']' to close the bracket" else none
  | .mark .gt => some "close the type argument list with '>'"
  | .expression =>
    if found.isPunct .eq then some "put the value after '='"
    else if found.isPunct .semi then some "statement is incomplete"
    else some "try a value, variable, or method call"
  | .name =>
    match found with
    | .int _ _ => some "names can't start with a number"
    | _ =>
      if found.isPredefined || found.isModifier then
        some "prefix a keyword with '@' to use it as a name"
      else some "names start with a letter or '_'"
  | .type => some "try a type like 'int', 'byte[]', or a class name"
  | .typeDeclaration =>
    some "start with 'class', 'struct', 'interface', 'record', 'enum', 'namespace' or 'using'"
  | .memberDeclaration =>
    some "members are fields, methods, constructors, properties or nested types"
  | .accessor => some "property accessors are 'get', 'set' or 'init'"
  | .arraySize => some "write 'new T[n]' or 'new T[] { ... }'"
  | _ => none

namespace ParseError

inductive Cause where
  | expected (what : Expected) (found : TokenKind)
  | unguarded (found : TokenKind)
  | finalizer
  | indexer
  | operatorDeclaration
  /-- The recursion outran the tokens that were left to read. -/
  | nesting
deriving Repr

def Cause.message : Cause → String
  | .expected what found => what.message found
  | .unguarded found => "Expected 'catch' or 'finally', found " ++ found.describe
  | .finalizer => "Finalizers are not supported"
  | .indexer => "Indexers are not supported"
  | .operatorDeclaration => "Operator declarations are not supported"
  | .nesting => "Nesting is too deep"

def Cause.hint : Cause → Option String
  | .expected what found => what.hint found
  | .unguarded _ => some "a 'try' block needs at least one 'catch' or a 'finally'"
  | .finalizer => some "move cleanup into a Dispose method"
  | .indexer | .operatorDeclaration | .nesting => none

end ParseError

structure ParseError where
  cause : ParseError.Cause
  span : Span
deriving Repr

def ParseError.message (e : ParseError) : String := e.cause.message

def ParseError.hint (e : ParseError) : Option String := e.cause.hint

inductive SourceError where
  | lexical (e : LexError)
  | syntactic (e : ParseError)

namespace SourceError

def span : SourceError → Span
  | .lexical e => e.span
  | .syntactic e => e.span

def message : SourceError → String
  | .lexical e => e.message
  | .syntactic e => e.message

def hint : SourceError → Option String
  | .lexical e => e.hint
  | .syntactic e => e.hint

end SourceError

end Stackable

import Stackable.Parser.Error
import Stackable.Parser.Lookahead
import Stackable.Syntax.Decl

/-!
# Reading tokens

A parser consumes tokens from the front of those that remain, hands out node numbers, and
remembers the errors it recovered from. It never gives a token back. An error leaves the state
as it was when the error arose.
-/

set_option autoImplicit false

namespace Stackable

structure ParseState where
  rest : List Token
  prevEnd : Nat
  /-- Half of a `>>` is still to be read as a `>`. -/
  pendingGt : Bool
  errors : List ParseError
  nextId : NodeId
  endOffset : Nat

def ParseState.ofTokens (tokens : List Token) : ParseState :=
  { rest := tokens
    prevEnd := 0
    pendingGt := false
    errors := []
    nextId := 0
    endOffset := match tokens.getLast? with
      | some t => t.span.stop
      | none => 0 }

/-- The first token that remains; past the last one everything is the end. -/
def ParseState.current (s : ParseState) : Token :=
  s.rest.headD ⟨.eof, s.endOffset, s.endOffset⟩

abbrev Parse := EStateM ParseError ParseState

namespace Parse

variable {α β : Type}

/-- Errors after which recovery is given up. -/
def maxErrors : Nat := 20

def current : Parse Token := return (← get).current

def currentKind : Parse TokenKind := return (← get).current.kind

def currentStart : Parse Nat := return (← get).current.span.start

def peekKind (n : Nat) : Parse TokenKind := return Tokens.kind ((← get).rest.drop n)

def remaining : Parse (List Token) := return (← get).rest

def atEnd : Parse Bool := return (← currentKind).isEof

/-- Reads one token; at the end nothing is consumed. -/
def advance : Parse Token := do
  let s ← get
  match s.rest with
  | [] => return s.current
  | t :: ts =>
    if t.kind.isEof then return t
    else
      set { s with rest := ts, prevEnd := t.span.stop }
      return t

def skip (n : Nat) : Parse Unit :=
  modify fun s =>
    { s with
      rest := s.rest.drop n
      prevEnd := match (s.rest.take n).getLast? with
        | some t => t.span.stop
        | none => s.prevEnd }

def prevEnd : Parse Nat := return (← get).prevEnd

def spanFrom (start : Nat) : Parse Span := return ⟨start, ← prevEnd⟩

def freshId : Parse NodeId := modifyGet fun s => (s.nextId, { s with nextId := s.nextId + 1 })

def failAt (cause : ParseError.Cause) (span : Span) : Parse α := throw ⟨cause, span⟩

def failExpected (what : Expected) : Parse α := do
  let t ← current
  failAt (.expected what t.kind) t.span

def check (p : Punct) : Parse Bool := return (← currentKind).isPunct p

def checkWord (w : Keyword) : Parse Bool := return (← currentKind).isKeyword w

def checkName (name : String) : Parse Bool := return (← currentKind).isName name

def accept (p : Punct) : Parse Bool := do
  if ← check p then
    let _ ← advance
    return true
  else return false

def acceptWord (w : Keyword) : Parse Bool := do
  if ← checkWord w then
    let _ ← advance
    return true
  else return false

def expect (p : Punct) : Parse Unit := do
  unless ← accept p do failExpected (.mark p)

def expectWord (w : Keyword) : Parse Unit := do
  unless ← acceptWord w do failExpected (.word w)

def expectName : Parse String := do
  match ← currentKind with
  | .ident name =>
    let _ ← advance
    return name
  | _ => failExpected .name

def pendingGt : Parse Bool := return (← get).pendingGt

def setPendingGt (b : Bool) : Parse Unit := modify fun s => { s with pendingGt := b }

def expectClosingAngle : Parse Unit := do
  if ← pendingGt then setPendingGt false
  else if ← accept .gt then return
  else if ← accept .gtGt then setPendingGt true
  else failExpected (.mark .gt)

/-- Keeps an error; answers whether reading should go on. -/
def recordError (e : ParseError) : Parse Bool :=
  modifyGet fun s =>
    let errors := s.errors ++ [e]
    (decide (errors.length < maxErrors), { s with errors })

def attempt (p : Parse α) : Parse (Except ParseError α) := fun s =>
  match p s with
  | .ok a s => .ok (.ok a) s
  | .error e s => .ok (.error e) s

def iterate (body : α → Parse (α ⊕ β)) : Nat → α → Parse β
  | 0, _ => do failAt .nesting (← current).span
  | n + 1, a => do
    match ← body a with
    | .inl next => iterate body n next
    | .inr result => return result

/-- Repeats `body` until it yields a result. Each repetition reads a token, so the tokens that
remain bound their number. -/
def loop (body : α → Parse (α ⊕ β)) (start : α) : Parse β := do
  iterate body ((← remaining).length + 1) start

def commaSeparated (item : Parse α) : Parse (List α) :=
  loop (fun items => do
    let items := items ++ [← item]
    if ← accept .comma then return .inl items else return .inr items) []

def countCommas : Parse Nat :=
  loop (fun n => do
    if ← accept .comma then return .inl (n + 1) else return .inr n) 0

def finishExpr (start : Nat) (kind : ExprKind Expr) : Parse Expr :=
  return ⟨← freshId, kind, ← spanFrom start⟩

def finishStmt (start : Nat) (kind : StmtKind Stmt) : Parse Stmt :=
  return ⟨← freshId, kind, ← spanFrom start⟩

def skipAttributes : Parse Unit :=
  loop (fun () => do
    if ← check .lBracket then
      let opening ← advance
      let (size, closed) := Tokens.toClosingBracket 1 (← remaining)
      skip size
      if closed then return .inl ()
      else failAt (.expected (.mark .rBracket) .eof) opening.span
    else return .inr ()) ()

/-- After an error, passes over `distance` tokens, or one if the error left no progress since
`before`. -/
def recover (before : List Token) (distance : List Token → Nat) : Parse Unit := do
  skip (distance (← remaining))
  if (← remaining).length = before.length then
    let _ ← advance

end Parse

/-- The parsers that a grammar rule may call once it has read a token. -/
structure Rules where
  type : Parse TypeRef
  expr : Parse Expr
  /-- An expression whose operators bind at least as tightly as the given power. -/
  exprAbove : Nat → Parse Expr
  varInitializer : Parse Expr
  stmt : Parse Stmt
  member : String → Parse Member
  decl : Parse Decl

end Stackable

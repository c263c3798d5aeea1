import Stackable.Parser.TypeRef

/-!
# Reading expressions

Operators bind by power: an operator is taken into the expression at hand if its left power
reaches the least one asked for, and its right operand is read with its right power. Assignment
binds weakest and to the right.
-/

set_option autoImplicit false

namespace Stackable

namespace Power

def conditional : Nat := 2
def relational : Nat := 17
def unary : Nat := 25
def postfixed : Nat := 27

end Power

/-- An operator between two operands, with its left and right powers. -/
def Punct.binary? : Punct → Option (BinOp × Nat × Nat)
  | .questionQuestion => some (.coalesce, 4, 3)
  | .pipePipe => some (.or, 5, 6)
  | .ampAmp => some (.and, 7, 8)
  | .pipe => some (.bitOr, 9, 10)
  | .caret => some (.bitXor, 11, 12)
  | .amp => some (.bitAnd, 13, 14)
  | .eqEq => some (.eq, 15, 16)
  | .bangEq => some (.ne, 15, 16)
  | .lt => some (.lt, Power.relational, Power.relational + 1)
  | .gt => some (.gt, Power.relational, Power.relational + 1)
  | .ltEq => some (.le, Power.relational, Power.relational + 1)
  | .gtEq => some (.ge, Power.relational, Power.relational + 1)
  | .ltLt => some (.shl, 19, 20)
  | .gtGt => some (.shr, 19, 20)
  | .plus => some (.add, 21, 22)
  | .minus => some (.sub, 21, 22)
  | .star => some (.mul, 23, 24)
  | .slash => some (.div, 23, 24)
  | .percent => some (.mod, 23, 24)
  | _ => none

def Punct.unary? : Punct → Option UnaryOp
  | .minus => some .neg
  | .plus => some .plus
  | .bang => some .not
  | .tilde => some .bitNot
  | .plusPlus => some .preInc
  | .minusMinus => some .preDec
  | .amp => some .addressOf
  | .star => some .deref
  | _ => none

def Punct.assign? : Punct → Option AssignOp
  | .eq => some .assign
  | .plusEq => some .add
  | .minusEq => some .sub
  | .starEq => some .mul
  | .slashEq => some .div
  | .percentEq => some .mod
  | .ampEq => some .bitAnd
  | .pipeEq => some .bitOr
  | .caretEq => some .bitXor
  | .ltLtEq => some .shl
  | .gtGtEq => some .shr
  | .questionQuestionEq => some .coalesce
  | _ => none

def Punct.isPostfix : Punct → Bool
  | .lParen | .lBracket | .dot | .questionDot | .arrow | .plusPlus | .minusMinus => true
  | _ => false

def TokenKind.binary? : TokenKind → Option (BinOp × Nat × Nat)
  | .punct p => p.binary?
  | _ => none

def TokenKind.assign? : TokenKind → Option AssignOp
  | .punct p => p.assign?
  | _ => none

def TokenKind.isPostfix : TokenKind → Bool
  | .punct p => p.isPostfix
  | _ => false

def TokenKind.argModifier? : TokenKind → Option ArgModifier
  | .keyword .refKw => some .byRef
  | .keyword .outKw => some .byOut
  | .keyword .inKw => some .byIn
  | _ => none

namespace Parse

/-! ## Arguments and initializers -/

def argumentName : Parse (Option String) := do
  match ← currentKind with
  | .ident name =>
    if (← peekKind 1).isPunct .colon then
      let _ ← advance
      let _ ← advance
      return some name
    else return none
  | _ => return none

def argumentModifier : Parse (Option ArgModifier) := do
  match (← currentKind).argModifier? with
  | some m =>
    let _ ← advance
    return some m
  | none => return none

/-- The variable that `out T x` declares, as a name. -/
def outVariable (r : Rules) : Parse Expr := do
  let _ ← type r
  let start ← currentStart
  let name ← expectName
  finishExpr start (.ident name)

def argument (r : Rules) : Parse (Argument Expr) := do
  let name ← argumentName
  let modifier ← argumentModifier
  if modifier = some .byOut && Tokens.startsOutVariable (← remaining) then
    return ⟨name, modifier, ← outVariable r⟩
  else return ⟨name, modifier, ← r.expr⟩

def argumentList (r : Rules) (close : Punct) : Parse (List (Argument Expr)) := do
  if ← check close then return [] else commaSeparated (argument r)

def arguments (r : Rules) : Parse (List (Argument Expr)) := do
  expect .lParen
  let args ← argumentList r .rParen
  expect .rParen
  return args

def initializerElements (r : Rules) : Parse (List Expr) := do
  expect .lBrace
  let elements ← loop (fun elements => do
    if (← check .rBrace) || (← atEnd) then return .inr elements
    else
      let elements := elements ++ [← r.varInitializer]
      if ← accept .comma then return .inl elements else return .inr elements) []
  expect .rBrace
  return elements

def optionalInitializer (r : Rules) : Parse (Option (List Expr)) := do
  if ← check .lBrace then return some (← initializerElements r) else return none

/-! ## Operands -/

def leaf (start : Nat) (kind : ExprKind Expr) : Parse Expr := do
  let _ ← advance
  finishExpr start kind

/-- A name; type arguments behind it carry no value. -/
def nameExpr (r : Rules) (start : Nat) (name : String) : Parse Expr := do
  let generic := Tokens.startsGenericArgs ((← remaining).drop 1)
  let _ ← advance
  if generic then
    let _ ← typeArgs r
  finishExpr start (.ident name)

def unaryExpr (r : Rules) (start : Nat) (op : UnaryOp) : Parse Expr := do
  let _ ← advance
  let operand ← r.exprAbove Power.unary
  finishExpr start (.unary op operand)

def parenthesized (r : Rules) (start : Nat) : Parse Expr := do
  if Tokens.startsCast ((← remaining).drop 1) then
    let _ ← advance
    let t ← type r
    expect .rParen
    let operand ← r.exprAbove Power.unary
    finishExpr start (.cast t operand)
  else
    let _ ← advance
    let inner ← r.expr
    expect .rParen
    finishExpr start (.paren inner)

def parenthesizedType (r : Rules) : Parse TypeRef := do
  expect .lParen
  let t ← type r
  expect .rParen
  return t

def defaultExpr (r : Rules) (start : Nat) : Parse Expr := do
  let _ ← advance
  if (← check .lParen) && (Tokens.scanType ((← remaining).drop 1)).isSome then
    let t ← parenthesizedType r
    finishExpr start (.defaultOf (some t))
  else finishExpr start (.defaultOf none)

def sizedRank (r : Rules) : Parse (RankSpecifier Expr) := do
  let start ← currentStart
  expect .lBracket
  let sizes ← commaSeparated do
    if (← check .comma) || (← check .rBracket) then return none
    else return some (← r.expr)
  expect .rBracket
  return ⟨sizes, ← spanFrom start⟩

def sizedRanks (r : Rules) : Parse (List (RankSpecifier Expr)) :=
  loop (fun ranks => do
    if ← check .lBracket then return .inl (ranks ++ [← sizedRank r]) else return .inr ranks) []

/-- Every dimension of the first bracket pair has a size. -/
def isSized (ranks : List (RankSpecifier Expr)) : Bool :=
  match ranks with
  | rank :: _ => rank.sizes.all (·.isSome)
  | [] => false

/-- `new T[n]` behind its type; a size or an initializer tells how long the array is. -/
def arrayCreation (r : Rules) (start : Nat) (element : TypeRef) : Parse Expr := do
  let ranks ← sizedRanks r
  let initializer ← optionalInitializer r
  if initializer.isNone && !isSized ranks then
    failAt (.expected .arraySize (← currentKind)) (← spanFrom start)
  else finishExpr start (.arrayCreation element ranks initializer)

/-- `new T(args)` behind its type; arguments or an initializer have to follow. -/
def objectCreation (r : Rules) (start : Nat) (t : TypeRef) : Parse Expr := do
  let hasArgs ← check .lParen
  let args ← if hasArgs then arguments r else pure []
  let initializer ← optionalInitializer r
  if !hasArgs && initializer.isNone then failExpected (.mark .lParen)
  else finishExpr start (.objectCreation (some t) args initializer)

def implicitArrayCreation (r : Rules) (start : Nat) : Parse Expr := do
  expect .lBracket
  let _ ← countCommas
  expect .rBracket
  let elements ← initializerElements r
  finishExpr start (.implicitArrayCreation elements)

def newExpr (r : Rules) (start : Nat) : Parse Expr := do
  expectWord .newKw
  if ← check .lBracket then implicitArrayCreation r start
  else if ← check .lParen then
    let args ← arguments r
    let initializer ← optionalInitializer r
    finishExpr start (.objectCreation none args initializer)
  else
    let t ← nonArrayType r
    if ← check .lBracket then arrayCreation r start t else objectCreation r start t

def stackAlloc (r : Rules) (start : Nat) : Parse Expr := do
  expectWord .stackallocKw
  let element ← if ← check .lBracket then pure none else some <$> nonArrayType r
  expect .lBracket
  let size ← if ← check .rBracket then pure none else some <$> r.expr
  expect .rBracket
  let initializer ← optionalInitializer r
  finishExpr start (.stackAlloc element size initializer)

def keywordExpr (r : Rules) (start : Nat) (w : Keyword) : Parse Expr := do
  match w.predefined? with
  | some p => leaf start (.ident p.keyword.text)
  | none =>
    match w with
    | .nullKw => leaf start .null
    | .thisKw => leaf start .this
    | .baseKw => leaf start .base
    | .newKw => newExpr r start
    | .stackallocKw => stackAlloc r start
    | .typeofKw =>
      let _ ← advance
      let t ← parenthesizedType r
      finishExpr start (.typeOf t)
    | .sizeofKw =>
      let _ ← advance
      let t ← parenthesizedType r
      finishExpr start (.sizeOfType t)
    | .defaultKw => defaultExpr r start
    | _ => failExpected .expression

def operand (r : Rules) : Parse Expr := do
  let start ← currentStart
  match ← currentKind with
  | .int value suffix => leaf start (.int value suffix)
  | .real value suffix => leaf start (.real value suffix)
  | .string value => leaf start (.string value)
  | .char value => leaf start (.char value)
  | .bool value => leaf start (.bool value)
  | .ident name =>
    if name == "await" && Tokens.startsOperand (← peekKind 1) then unaryExpr r start .await
    else nameExpr r start name
  | .keyword w => keywordExpr r start w
  | .punct .lParen => parenthesized r start
  | .punct p =>
    match p.unary? with
    | some op => unaryExpr r start op
    | none => failExpected .expression
  | .eof => failExpected .expression

/-! ## Operators -/

def memberAccess (r : Rules) (start : Nat) (object : Expr) : Parse Expr := do
  let conditional ← check .questionDot
  let _ ← advance
  let generic := Tokens.startsGenericArgs ((← remaining).drop 1)
  let name ← expectName
  if generic then
    let _ ← typeArgs r
  finishExpr start (.member object name conditional)

def postfixExpr (r : Rules) (start : Nat) (lhs : Expr) : Parse Expr := do
  match ← currentKind with
  | .punct .lParen =>
    let args ← arguments r
    finishExpr start (.invocation lhs args)
  | .punct .lBracket =>
    let _ ← advance
    let args ← argumentList r .rBracket
    expect .rBracket
    finishExpr start (.elementAccess lhs args)
  | .punct .plusPlus => leaf start (.suffixed .inc lhs)
  | .punct .minusMinus => leaf start (.suffixed .dec lhs)
  | _ => memberAccess r start lhs

/-- `is null` and `is not null` are comparisons. -/
def nullTest (start : Nat) (lhs : Expr) (negated : Bool) : Parse Expr := do
  let nullStart ← currentStart
  let null ← leaf nullStart .null
  finishExpr start (.binary (if negated then .ne else .eq) lhs null)

def designation : Parse (Option String) := do
  match ← currentKind with
  | .ident name =>
    let _ ← advance
    return some name
  | _ => return none

def typeTest (r : Rules) (start : Nat) (lhs : Expr) : Parse Expr := do
  if ← acceptWord .asKw then
    let t ← type r
    finishExpr start (.asType lhs t)
  else
    expectWord .isKw
    let negated := (← currentKind).isName "not" && (← peekKind 1).isKeyword .nullKw
    if negated then
      let _ ← advance
    if ← checkWord .nullKw then nullTest start lhs negated
    else
      let t ← type r
      let name ← designation
      finishExpr start (.isType lhs t name)

def conditionalExpr (r : Rules) (start : Nat) (cond : Expr) : Parse Expr := do
  let _ ← advance
  let whenTrue ← r.expr
  expect .colon
  let whenFalse ← r.exprAbove Power.conditional
  finishExpr start (.conditional cond whenTrue whenFalse)

/-- Takes one more operator into `lhs`, if one comes that binds tightly enough. -/
def extend (r : Rules) (start least : Nat) (lhs : Expr) : Parse (Expr ⊕ Expr) := do
  let k ← currentKind
  if k.isPostfix then
    if Power.postfixed < least then return .inr lhs else return .inl (← postfixExpr r start lhs)
  else if k.isKeyword .isKw || k.isKeyword .asKw then
    if Power.relational < least then return .inr lhs else return .inl (← typeTest r start lhs)
  else if k.isPunct .question then
    if Power.conditional < least then return .inr lhs
    else return .inl (← conditionalExpr r start lhs)
  else
    match k.binary? with
    | some (op, left, right) =>
      if left < least then return .inr lhs
      else
        let _ ← advance
        let rhs ← r.exprAbove right
        return .inl (← finishExpr start (.binary op lhs rhs))
    | none => return .inr lhs

def exprAbove (r : Rules) (least : Nat) : Parse Expr := do
  let start ← currentStart
  let lhs ← operand r
  loop (extend r start least) lhs

def expr (r : Rules) : Parse Expr := do
  let start ← currentStart
  let target ← exprAbove r 0
  match (← currentKind).assign? with
  | some op =>
    let _ ← advance
    let value ← r.expr
    finishExpr start (.assign op target value)
  | none => return target

def varInitializer (r : Rules) : Parse Expr := do
  if ← check .lBrace then
    let start ← currentStart
    let elements ← initializerElements r
    finishExpr start (.arrayInitializer elements)
  else expr r

end Parse

end Stackable

import Stackable.Parser.Expr

/-!
# Reading statements

An error inside a block is kept, and reading goes on with the next statement of the block.
-/

set_option autoImplicit false

namespace Stackable.Parse

/-! ## Declarators -/

def optionalVarInitializer (r : Rules) : Parse (Option Initializer) := do
  if ← check .eq then
    let mark ← advance
    return some ⟨mark.span, ← varInitializer r⟩
  else return none

def declaratorTail (r : Rules) (name : String) (nameSpan : Span) : Parse Declarator := do
  let init ← optionalVarInitializer r
  return ⟨← freshId, name, nameSpan, init, ← spanFrom nameSpan.start⟩

def declarator (r : Rules) : Parse Declarator := do
  let nameSpan := (← current).span
  let name ← expectName
  declaratorTail r name nameSpan

def localDecl (r : Rules) (isConst : Bool) : Parse LocalDecl := do
  let t ← type r
  let declarators ← commaSeparated (declarator r)
  return ⟨t, isConst, declarators⟩

/-! ## Blocks -/

/-- One more statement, if the block does not end here. -/
def blockStep (r : Rules) (body : List Stmt) : Parse (List Stmt ⊕ List Stmt) := do
  if (← check .rBrace) || (← atEnd) then return .inr body
  else
    let before ← remaining
    match ← attempt r.stmt with
    | .ok s => return .inl (body ++ [s])
    | .error e =>
      if ← recordError e then
        recover before Tokens.toStmt
        return .inl body
      else
        skip (Tokens.toClosingBrace 1 (← remaining))
        return .inr body

def block (r : Rules) : Parse (List Stmt) := do
  expect .lBrace
  let body ← loop (blockStep r) []
  expect .rBrace
  return body

/-! ## Statements by their first token -/

def condition (r : Rules) : Parse Expr := do
  expect .lParen
  let e ← r.expr
  expect .rParen
  return e

def ifStmt (r : Rules) : Parse (StmtKind Stmt) := do
  expectWord .ifKw
  let cond ← condition r
  let whenTrue ← r.stmt
  let whenFalse ← if ← acceptWord .elseKw then some <$> r.stmt else pure none
  return .ite cond whenTrue whenFalse

def declOrExpr (r : Rules) : Parse Stmt := do
  let start ← currentStart
  if Tokens.startsLocalDecl (← remaining) then
    let d ← localDecl r false
    finishStmt start (.localDecl d)
  else
    let e ← r.expr
    finishStmt start (.expr e)

def forInit (r : Rules) : Parse (List Stmt) := do
  if ← check .semi then return []
  else if Tokens.startsLocalDecl (← remaining) then return [← declOrExpr r]
  else
    commaSeparated do
      let start ← currentStart
      let e ← r.expr
      finishStmt start (.expr e)

def forStmt (r : Rules) : Parse (StmtKind Stmt) := do
  expectWord .forKw
  expect .lParen
  let init ← forInit r
  expect .semi
  let cond ← if ← check .semi then pure none else some <$> r.expr
  expect .semi
  let update ← if ← check .rParen then pure [] else commaSeparated r.expr
  expect .rParen
  let body ← r.stmt
  return .forLoop init cond update body

def forEachStmt (r : Rules) : Parse (StmtKind Stmt) := do
  expectWord .foreachKw
  expect .lParen
  let t ← type r
  let name ← expectName
  expectWord .inKw
  let iter ← r.expr
  expect .rParen
  let body ← r.stmt
  return .forEach t name iter body

def caught (r : Rules) : Parse (Option TypeRef × Option String) := do
  if ← accept .lParen then
    let t ← type r
    let name ← designation
    expect .rParen
    return (some t, name)
  else return (none, none)

def catchFilter (r : Rules) : Parse (Option Expr) := do
  if ← checkName "when" then
    let _ ← advance
    return some (← condition r)
  else return none

/-- A handler. Its filter is read and left out. -/
def catchClause (r : Rules) : Parse (CatchClause Stmt) := do
  let start ← currentStart
  expectWord .catchKw
  let (t, name) ← caught r
  let _ ← catchFilter r
  let body ← block r
  return ⟨t, name, body, ← spanFrom start⟩

def catchClauses (r : Rules) : Parse (List (CatchClause Stmt)) :=
  loop (fun clauses => do
    if ← checkWord .catchKw then return .inl (clauses ++ [← catchClause r])
    else return .inr clauses) []

def tryStmt (r : Rules) : Parse (StmtKind Stmt) := do
  let trySpan := (← current).span
  expectWord .tryKw
  let body ← block r
  let catches ← catchClauses r
  let finish ← if ← acceptWord .finallyKw then some <$> block r else pure none
  if catches.isEmpty && finish.isNone then failAt (.unguarded (← currentKind)) trySpan
  else return .tryCatch body catches finish

def atDefaultLabel : Parse Bool :=
  return (← currentKind).isKeyword .defaultKw && (← peekKind 1).isPunct .colon

def caseLabels (r : Rules) : Parse (List (Option Expr)) :=
  loop (fun labels => do
    if ← checkName "case" then
      let _ ← advance
      let label ← r.expr
      expect .colon
      return .inl (labels ++ [some label])
    else if ← atDefaultLabel then
      skip 2
      return .inl (labels ++ [none])
    else return .inr labels) []

def switchBody (r : Rules) : Parse (List Stmt) :=
  loop (fun body => do
    if (← check .rBrace) || (← atEnd) || (← checkName "case") || (← atDefaultLabel) then
      return .inr body
    else return .inl (body ++ [← r.stmt])) []

def switchSection (r : Rules) : Parse (SwitchSection Stmt) := do
  let labels ← caseLabels r
  if labels.isEmpty then failExpected .caseLabel else return ⟨labels, ← switchBody r⟩

def switchStmt (r : Rules) : Parse (StmtKind Stmt) := do
  let _ ← advance
  let subject ← condition r
  expect .lBrace
  let sections ← loop (fun sections => do
    if (← check .rBrace) || (← atEnd) then return .inr sections
    else return .inl (sections ++ [← switchSection r])) []
  expect .rBrace
  return .switch subject sections

def usingStmt (r : Rules) : Parse (StmtKind Stmt) := do
  expectWord .usingKw
  expect .lParen
  let resource ← declOrExpr r
  expect .rParen
  let body ← r.stmt
  return .usingBlock resource body

def fixedStmt (r : Rules) : Parse (StmtKind Stmt) := do
  let _ ← advance
  expect .lParen
  let d ← localDecl r false
  expect .rParen
  let body ← r.stmt
  return .fixed d body

def lockStmt (r : Rules) : Parse (StmtKind Stmt) := do
  let _ ← advance
  let subject ← condition r
  let body ← r.stmt
  return .lock subject body

def localStmt (r : Rules) (isConst : Bool) : Parse (StmtKind Stmt) := do
  let d ← localDecl r isConst
  expect .semi
  return .localDecl d

def optionalValue (r : Rules) : Parse (Option Expr) := do
  let value ← if ← check .semi then pure none else some <$> r.expr
  expect .semi
  return value

/-- What starts like no other statement: a local declaration or an expression. -/
def plainStmt (r : Rules) : Parse (StmtKind Stmt) := do
  if Tokens.startsLocalDecl (← remaining) then localStmt r false
  else
    let e ← expr r
    expect .semi
    return .expr e

def contextualStmt (r : Rules) (name : String) : Parse (StmtKind Stmt) := do
  let next ← peekKind 1
  if name == "yield" && next.isKeyword .returnKw then
    skip 2
    let value ← r.expr
    expect .semi
    return .yieldReturn value
  else if name == "yield" && next.isKeyword .breakKw then
    skip 2
    expect .semi
    return .yieldBreak
  else if name == "fixed" && next.isPunct .lParen then fixedStmt r
  else if name == "lock" && next.isPunct .lParen then lockStmt r
  else if name == "switch" && next.isPunct .lParen then switchStmt r
  else plainStmt r

def keywordStmt (r : Rules) (w : Keyword) : Parse (StmtKind Stmt) := do
  match w with
  | .ifKw => ifStmt r
  | .whileKw =>
    let _ ← advance
    let cond ← condition r
    let body ← r.stmt
    return .whileLoop cond body
  | .doKw =>
    let _ ← advance
    let body ← r.stmt
    expectWord .whileKw
    let cond ← condition r
    expect .semi
    return .doWhile body cond
  | .forKw => forStmt r
  | .foreachKw => forEachStmt r
  | .returnKw =>
    let _ ← advance
    return .ret (← optionalValue r)
  | .throwKw =>
    let _ ← advance
    return .throwStmt (← optionalValue r)
  | .breakKw =>
    let _ ← advance
    expect .semi
    return .breakStmt
  | .continueKw =>
    let _ ← advance
    expect .semi
    return .continueStmt
  | .tryKw => tryStmt r
  | .unsafeKw =>
    if (← peekKind 1).isPunct .lBrace then
      let _ ← advance
      return .unsafeBlock (← block r)
    else plainStmt r
  | .constKw =>
    let _ ← advance
    localStmt r true
  | .usingKw =>
    if (← peekKind 1).isPunct .lParen then usingStmt r
    else
      let _ ← advance
      localStmt r false
  | _ => plainStmt r

def stmt (r : Rules) : Parse Stmt := do
  let start ← currentStart
  let kind ← match ← currentKind with
    | .punct .lBrace => do
      let body ← block r
      pure (.block body)
    | .punct .semi => do
      let _ ← advance
      pure .empty
    | .keyword w => keywordStmt r w
    | .ident name => contextualStmt r name
    | _ => plainStmt r
  finishStmt start kind

end Stackable.Parse

import Stackable.Parser.Stmt

/-!
# Reading declarations

An error inside a type or a namespace is kept, and reading goes on with the next member or
declaration.
-/

set_option autoImplicit false

namespace Stackable

def TokenKind.typeKind? : TokenKind → Option TypeKind
  | .keyword .classKw => some .classType
  | .keyword .structKw => some .structType
  | .keyword .interfaceKw => some .interfaceType
  | .keyword .enumKw => some .enumType
  | .keyword .recordKw => some .recordType
  | _ => none

def TokenKind.paramModifier? : TokenKind → Option ParamModifier
  | .keyword .refKw => some .byRef
  | .keyword .outKw => some .byOut
  | .keyword .inKw => some .byIn
  | .keyword .paramsKw => some .paramArray
  | .keyword .thisKw => some .receiver
  | _ => none

def TokenKind.accessorKind? : TokenKind → Option AccessorKind
  | .ident "get" => some .get
  | .ident "set" => some .set
  | .ident "init" => some .init
  | _ => none

namespace Parse

/-! ## Parts of members -/

def modifierAt (k next : TokenKind) : Option Modifier :=
  match k with
  | .keyword w => w.modifier?
  | .ident "async" => if Tokens.continuesModifiers next then some .asyncMod else none
  | .ident "partial" => if Tokens.continuesModifiers next then some .partialMod else none
  | _ => none

def modifiers : Parse (List Modifier) :=
  loop (fun list => do
    match modifierAt (← currentKind) (← peekKind 1) with
    | some m =>
      let _ ← advance
      return .inl (list ++ [m])
    | none => return .inr list) []

def typeParams : Parse (List String) := do
  expect .lt
  let names ← commaSeparated do
    skipAttributes
    unless ← acceptWord .inKw do
      let _ ← acceptWord .outKw
    expectName
  expectClosingAngle
  return names

def optionalTypeParams : Parse (List String) := do
  if ← check .lt then typeParams else return []

def skipConstraints : Parse Unit := do
  if ← checkName "where" then skip (Tokens.toBody (← remaining))

def param (r : Rules) : Parse Param := do
  skipAttributes
  let start ← currentStart
  let modifier := (← currentKind).paramModifier?
  if modifier.isSome then
    let _ ← advance
  let t ← type r
  let name ← expectName
  let default ← if ← accept .eq then some <$> r.expr else pure none
  return ⟨name, t, modifier, default, ← spanFrom start⟩

def params (r : Rules) : Parse (List Param) := do
  expect .lParen
  let list ← if ← check .rParen then pure [] else commaSeparated (param r)
  expect .rParen
  return list

def fnBody (r : Rules) : Parse (Option FnBody) := do
  match ← currentKind with
  | .punct .lBrace =>
    let body ← block r
    return some (.block body)
  | .punct .fatArrow =>
    let _ ← advance
    let e ← r.expr
    expect .semi
    return some (.expr e)
  | .punct .semi =>
    let _ ← advance
    return none
  | _ => failExpected .body

/-! ## Members -/

def method (r : Rules) (modifiers : List Modifier) (returnType : TypeRef) (name : String)
    (nameSpan : Span) : Parse MethodDecl := do
  let typeParams ← optionalTypeParams
  let list ← params r
  skipConstraints
  let body ← fnBody r
  return ⟨modifiers, returnType, name, nameSpan, typeParams, list, body⟩

def constructorChain (r : Rules) : Parse (Option ConstructorChain) := do
  if ← accept .colon then
    let k ← currentKind
    if k.isKeyword .baseKw || k.isKeyword .thisKw then
      let _ ← advance
      let args ← arguments r
      return some ⟨k.isKeyword .baseKw, args⟩
    else failExpected .chainTarget
  else return none

def constructor (r : Rules) (modifiers : List Modifier) : Parse ConstructorDecl := do
  let nameSpan := (← current).span
  let name ← expectName
  let list ← params r
  let chain ← constructorChain r
  let body ← fnBody r
  return ⟨modifiers, name, nameSpan, list, chain, body⟩

def accessor (r : Rules) : Parse Accessor := do
  skipAttributes
  let start ← currentStart
  let mods ← modifiers
  match (← currentKind).accessorKind? with
  | some kind =>
    let _ ← advance
    let body ← fnBody r
    return ⟨← freshId, kind, mods, body, ← spanFrom start⟩
  | none => failExpected .accessor

def accessors (r : Rules) : Parse (List Accessor) := do
  expect .lBrace
  let list ← loop (fun list => do
    if (← check .rBrace) || (← atEnd) then return .inr list
    else return .inl (list ++ [← accessor r])) []
  expect .rBrace
  return list

def propertyInitializer (r : Rules) : Parse (Option Initializer) := do
  match ← optionalVarInitializer r with
  | some init =>
    expect .semi
    return some init
  | none => return none

def property (r : Rules) (modifiers : List Modifier) (t : TypeRef) (name : String)
    (nameSpan : Span) : Parse PropertyDecl := do
  if ← accept .fatArrow then
    let e ← r.expr
    expect .semi
    return ⟨modifiers, t, name, nameSpan, [], some e, none⟩
  else
    let list ← accessors r
    let init ← propertyInitializer r
    return ⟨modifiers, t, name, nameSpan, list, none, init⟩

def fieldDeclarators (r : Rules) (name : String) (nameSpan : Span) : Parse (List Declarator) := do
  let first ← declaratorTail r name nameSpan
  let list ← if ← accept .comma then commaSeparated (declarator r) else pure []
  expect .semi
  return first :: list

/-- A name, or `IFoo.Bar` for the member of an interface. -/
def memberName : Parse String := do
  let first ← expectName
  loop (fun (name : String) => do
    if (← check .dot) && (← peekKind 1).isIdent then
      let _ ← advance
      return .inl (name ++ "." ++ (← expectName))
    else return .inr name) first

def typedMember (r : Rules) (modifiers : List Modifier) : Parse (MemberKind Member) := do
  let t ← type r
  if ← checkWord .thisKw then failAt .indexer (← current).span
  else if ← checkName "operator" then failAt .operatorDeclaration (← current).span
  else
    let start ← currentStart
    let name ← memberName
    let nameSpan ← spanFrom start
    match ← currentKind with
    | .punct .lParen | .punct .lt => return .method (← method r modifiers t name nameSpan)
    | .punct .lBrace | .punct .fatArrow => return .property (← property r modifiers t name nameSpan)
    | .punct .eq | .punct .semi | .punct .comma =>
      return .field ⟨modifiers, t, ← fieldDeclarators r name nameSpan⟩
    | _ => failExpected .memberDeclaration

def enumMember (r : Rules) : Parse Member := do
  skipAttributes
  let start ← currentStart
  let nameSpan := (← current).span
  let name ← expectName
  let value ← if ← accept .eq then some <$> r.expr else pure none
  return ⟨← freshId, .enumMember ⟨name, nameSpan, value⟩, ← spanFrom start⟩

def enumMembers (r : Rules) : Parse (List Member) :=
  loop (fun list => do
    if (← check .rBrace) || (← atEnd) then return .inr list
    else
      let list := list ++ [← enumMember r]
      if ← accept .comma then return .inl list else return .inr list) []

def membersStep (r : Rules) (name : String) (list : List Member) :
    Parse (List Member ⊕ List Member) := do
  if (← check .rBrace) || (← atEnd) then return .inr list
  else if ← accept .semi then return .inl list
  else
    let before ← remaining
    match ← attempt (r.member name) with
    | .ok m => return .inl (list ++ [m])
    | .error e =>
      if ← recordError e then
        recover before (Tokens.toMember 0)
        return .inl list
      else
        skip (Tokens.toClosingBrace 1 (← remaining))
        return .inr list

def members (r : Rules) (name : String) : Parse (List Member) := loop (membersStep r name) []

/-- The types behind `:`; arguments for a record's base are read and left out. -/
def bases (r : Rules) : Parse (List TypeRef) := do
  if ← accept .colon then
    commaSeparated do
      let t ← type r
      if ← check .lParen then
        let _ ← arguments r
      return t
  else return []

def skipRecordKind : Parse Unit := do
  unless ← acceptWord .classKw do
    let _ ← acceptWord .structKw

def typeDecl (r : Rules) (modifiers : List Modifier) : Parse (TypeDecl Member) := do
  match (← currentKind).typeKind? with
  | none => failExpected .typeDeclaration
  | some kind =>
    let _ ← advance
    let isRecord := kind == .recordType
    if isRecord then skipRecordKind
    let nameSpan := (← current).span
    let name ← expectName
    let typeParams ← optionalTypeParams
    if isRecord && (← check .lParen) then
      let _ ← params r
    let baseTypes ← bases r
    skipConstraints
    if isRecord && (← check .semi) then
      let _ ← advance
      return ⟨kind, name, nameSpan, modifiers, typeParams, baseTypes, []⟩
    else
      expect .lBrace
      let list ← if kind == .enumType then enumMembers r else members r name
      expect .rBrace
      let _ ← accept .semi
      return ⟨kind, name, nameSpan, modifiers, typeParams, baseTypes, list⟩

/-- A member of the type with the given name, which is also the name of its constructors. -/
def member (r : Rules) (typeName : String) : Parse Member := do
  skipAttributes
  let start ← currentStart
  let mods ← modifiers
  let k ← currentKind
  let next ← peekKind 1
  let kind ←
    if k.typeKind?.isSome then MemberKind.typeDecl <$> typeDecl r mods
    else if k.isName typeName && next.isPunct .lParen then MemberKind.constructor <$> constructor r mods
    else if k.isPunct .tilde then do failAt .finalizer (← current).span
    else typedMember r mods
  return ⟨← freshId, kind, ← spanFrom start⟩

/-! ## Namespaces -/

/-- One more declaration, if there is one. The brace that closes a namespace is no end at the
top. -/
def namespaceStep (decl : Parse Decl) (topLevel : Bool) (list : List Decl) :
    Parse (List Decl ⊕ List Decl) := do
  if (← atEnd) || (!topLevel && (← check .rBrace)) then return .inr list
  else
    let before ← remaining
    match ← attempt decl with
    | .ok d => return .inl (list ++ [d])
    | .error e =>
      if ← recordError e then
        recover before (Tokens.toDecl 0)
        return .inl list
      else return .inr list

def namespaceBody (decl : Parse Decl) (topLevel : Bool) : Parse (List Decl) :=
  loop (namespaceStep decl topLevel) []

def usingAlias : Parse (Option String) := do
  if (← peekKind 1).isPunct .eq then
    let name ← expectName
    let _ ← advance
    return some name
  else return none

/-- The name in a directive; type arguments count for nothing, and marks leave none. -/
def usingPath (t : TypeRef) : List String :=
  match t.kind with
  | .named path _ => path
  | .predefined p => [p.keyword.text]
  | _ => []

def usingDirective (r : Rules) : Parse UsingDirective := do
  expectWord .usingKw
  let isStatic ← acceptWord .staticKw
  let aliasName ← usingAlias
  let t ← type r
  expect .semi
  return ⟨usingPath t, aliasName, isStatic⟩

def namespaceName : Parse (List String) := do
  let first ← expectName
  loop (fun (path : List String) => do
    if ← accept .dot then return .inl (path ++ [← expectName]) else return .inr path) [first]

def namespaceDecl (r : Rules) : Parse (NamespaceDecl Decl) := do
  expectWord .namespaceKw
  let name ← namespaceName
  if ← accept .semi then return ⟨name, ← namespaceBody r.decl true, true⟩
  else
    expect .lBrace
    let decls ← namespaceBody r.decl false
    expect .rBrace
    return ⟨name, decls, false⟩

def topTypeDecl (r : Rules) : Parse (TypeDecl Member) := do
  let mods ← modifiers
  typeDecl r mods

def decl (r : Rules) : Parse Decl := do
  skipAttributes
  let start ← currentStart
  let kind ← match ← currentKind with
    | .keyword .usingKw => DeclKind.usingDecl <$> usingDirective r
    | .keyword .namespaceKw => DeclKind.namespaceDecl <$> namespaceDecl r
    | _ => DeclKind.typeDecl <$> topTypeDecl r
  return ⟨← freshId, kind, ← spanFrom start⟩

end Parse

/-! ## The grammar as a whole -/

/-- The rules of the grammar, each of which may call `r` once it has read a token. -/
def Rules.step (r : Rules) : Rules :=
  { type := Parse.type r
    expr := Parse.expr r
    exprAbove := Parse.exprAbove r
    varInitializer := Parse.varInitializer r
    stmt := Parse.stmt r
    member := Parse.member r
    decl := Parse.decl r }

def Rules.exhausted : Rules :=
  let fail {α : Type} : Parse α := do Parse.failAt .nesting (← Parse.current).span
  ⟨fail, fail, fun _ => fail, fail, fail, fun _ => fail, fail⟩

/-- The rules for texts in which at most `n` calls nest. -/
def Rules.depth : Nat → Rules
  | 0 => .exhausted
  | n + 1 => (Rules.depth n).step

namespace Parse

/-- A call nests inside another one only behind a token, so the tokens that remain bound the
depth. -/
def withRules {α : Type} (p : Rules → Parse α) : Parse α := do
  p (Rules.depth ((← remaining).length + 1))

def expression : Parse Expr := withRules (·.expr)

/-- All declarations up to the end, and the errors met since the last call. -/
def compilationUnit : Parse (CompilationUnit × List ParseError) := do
  let decls ← withRules fun r => namespaceBody r.decl true
  let errors := (← get).errors
  modify fun s => { s with errors := [] }
  return (⟨decls, ⟨0, (← get).endOffset⟩⟩, errors)

end Parse

def parseTokens (tokens : List Token) : CompilationUnit × List ParseError :=
  match Parse.compilationUnit (ParseState.ofTokens tokens) with
  | .ok result _ => result
  | .error e s => (⟨[], ⟨0, s.endOffset⟩⟩, s.errors ++ [e])

/-- The unit that a source spells, and what is wrong with the source: lexical errors first. -/
def parseSource (source : List Char) : CompilationUnit × List SourceError :=
  let lexed := Lexer.tokenize source
  let (unit, errors) := parseTokens lexed.tokens
  (unit, lexed.errors.map .lexical ++ errors.map .syntactic)

end Stackable

import Stackable.Syntax.Decl
import Stackable.Table

/-!
# Symbols

What a source declares: types, fields, methods and constructors, numbered in the order in which
they are written. A type comes before its members, and learns their numbers once they are known.
-/

set_option autoImplicit false

namespace Stackable

abbrev SymbolId := Nat

inductive SymbolKind where
  /-- Members are fields, methods, constructors and nested types. -/
  | type (kind : TypeKind) (members : List SymbolId)
  | field (owner : SymbolId) (isConst : Bool)
  | method (owner : SymbolId) (isAsync : Bool)
  | constructor (owner : SymbolId)
deriving Repr, DecidableEq

structure Symbol where
  id : SymbolId
  name : String
  /-- Namespaces, enclosing types and the name itself, with dots between them. -/
  qualifiedName : String
  kind : SymbolKind
  node : NodeId
  span : Span
deriving Repr, DecidableEq

def Symbol.isType (s : Symbol) : Bool :=
  match s.kind with
  | .type _ _ => true
  | _ => false

/-- The number of a symbol is its place. -/
structure SymbolTable where
  symbols : List Symbol
  nodes : Table NodeId SymbolId
  types : Table String (List SymbolId)

namespace SymbolTable

def empty : SymbolTable := ⟨[], .empty, .empty⟩

def size (t : SymbolTable) : Nat := t.symbols.length

def get? (t : SymbolTable) (id : SymbolId) : Option Symbol := t.symbols[id]?

def push (t : SymbolTable) (s : Symbol) : SymbolTable where
  symbols := t.symbols ++ [s]
  nodes := t.nodes.insert s.node t.size
  types :=
    if s.isType then t.types.insert s.name ((t.types.get? s.name).getD [] ++ [t.size]) else t.types

def insert (t : SymbolTable) (name qualifiedName : String) (kind : SymbolKind) (node : NodeId)
    (span : Span) : SymbolId × SymbolTable :=
  (t.size, t.push ⟨t.size, name, qualifiedName, kind, node, span⟩)

def setMembers (t : SymbolTable) (id : SymbolId) (members : List SymbolId) : SymbolTable where
  symbols := t.symbols.modify id fun s =>
    match s.kind with
    | .type kind _ => { s with kind := .type kind members }
    | _ => s
  nodes := t.nodes
  types := t.types

/-- The symbol that a node declares; of several the latest. -/
def byNode? (t : SymbolTable) (node : NodeId) : Option Symbol := t.nodes.get? node >>= t.get?

def typesNamed (t : SymbolTable) (name : String) : List Symbol :=
  ((t.types.get? name).getD []).filterMap t.get?

def member? (t : SymbolTable) (owner : SymbolId) (name : String) : Option Symbol :=
  t.get? owner >>= fun s =>
    match s.kind with
    | .type _ members => (members.filterMap t.get?).find? (·.name == name)
    | _ => none

end SymbolTable

/-! ## Collecting -/

/-- Adds to the table, and gives the numbers of the members that were added. -/
abbrev Collect := StateM SymbolTable

def addSymbol (name qualifiedName : String) (kind : SymbolKind) (node : NodeId) (span : Span) :
    Collect SymbolId :=
  fun t => t.insert name qualifiedName kind node span

def collectDeclarators (owner : SymbolId) (qualified : String) (isConst : Bool) :
    List Declarator → Collect (List SymbolId)
  | [] => return []
  | d :: ds => do
    let id ← addSymbol d.name (qualified ++ "." ++ d.name) (.field owner isConst) d.id d.nameSpan
    return id :: (← collectDeclarators owner qualified isConst ds)

mutual

def collectType (path : List String) (node : NodeId) : TypeDecl Member → Collect SymbolId
  | ⟨kind, name, nameSpan, _, _, _, members⟩ => do
    let path := path ++ [name]
    let id ← addSymbol name (String.intercalate "." path) (.type kind []) node nameSpan
    let inner ← collectMembers id path members
    modify (·.setMembers id inner)
    return id

def Member.collect (owner : SymbolId) (path : List String) : Member → Collect (List SymbolId)
  | ⟨_, .field d, _⟩ =>
    collectDeclarators owner (String.intercalate "." path) (d.modifiers.contains .constMod)
      d.declarators
  | ⟨id, .method d, _⟩ => do
    let kind := .method owner (d.modifiers.contains .asyncMod)
    return [← addSymbol d.name (String.intercalate "." path ++ "." ++ d.name) kind id d.nameSpan]
  | ⟨id, .constructor d, _⟩ => do
    let kind := .constructor owner
    return [← addSymbol d.name (String.intercalate "." path ++ "." ++ d.name) kind id d.nameSpan]
  | ⟨id, .typeDecl d, _⟩ => return [← collectType path id d]
  | ⟨_, .property _, _⟩ | ⟨_, .enumMember _, _⟩ => return []

def collectMembers (owner : SymbolId) (path : List String) :
    List Member → Collect (List SymbolId)
  | [] => return []
  | m :: ms => return (← m.collect owner path) ++ (← collectMembers owner path ms)

end

mutual

def Decl.collect (path : List String) : Decl → Collect Unit
  | ⟨_, .usingDecl _, _⟩ => return
  | ⟨_, .namespaceDecl ⟨name, decls, _⟩, _⟩ => collectDecls (path ++ name) decls
  | ⟨id, .typeDecl d, _⟩ => do let _ ← collectType path id d

def collectDecls (path : List String) : List Decl → Collect Unit
  | [] => return
  | d :: ds => do
    d.collect path
    collectDecls path ds

end

def SymbolTable.ofUnit (unit : CompilationUnit) : SymbolTable :=
  ((collectDecls [] unit.decls).run .empty).2

end Stackable

import Stackable.Symbol.Special
import Stackable.Symbol.Table
import Stackable.Syntax.Tree

/-!
# What names and types refer to

A simple name is looked up among the parameters and locals of the function around it, and then
among the fields of the types around it, innermost first. A local counts as a constant only
where it is the one local of its name in the whole function and in scope.
-/

set_option autoImplicit false

namespace Stackable

structure Model where
  tree : SyntaxTree
  symbols : SymbolTable

def Model.ofUnit (unit : CompilationUnit) : Model := ⟨.ofUnit unit, .ofUnit unit⟩

inductive Binding where
  | constLocal (d : Declarator)
  | constField (d : Declarator)
  | variable
  | parameter
  | field
  | unresolved

inductive LocalDeclaration where
  | constant (d : Declarator)
  | variable

namespace Model

/-! ## Types -/

/-- A dotted path names a declared type if it ends the type's qualified name. -/
def isNamedBy (path : List String) (s : Symbol) : Bool :=
  let suffix := String.intercalate "." path
  s.qualifiedName == suffix || ('.' :: suffix.toList).isSuffixOf s.qualifiedName.toList

/-- The first declared type that a path names. -/
def findType? (m : Model) (path : List String) : Option Symbol :=
  path.getLast?.bind fun last => (m.symbols.typesNamed last).find? (isNamedBy path)

def runtimeType? (path : List String) : Option SpecialType :=
  match path with
  | ["nint"] => some .intPtr
  | ["nuint"] => some .uintPtr
  | [name] | ["System", name] => SpecialType.ofMetadataName? name
  | _ => none

/-- What a written name stands for; declared types come before those of the runtime. -/
def resolveName (m : Model) (path : List String) (isGeneric : Bool) : TypeSymbol :=
  match m.findType? path with
  | some s => .named s.qualifiedName
  | none =>
    match if isGeneric then none else runtimeType? path with
    | some t => .special t
    | none => .unknown

def resolveType (m : Model) : TypeRef → TypeSymbol
  | ⟨.predefined p, _⟩ => .special (.ofPredefined p)
  | ⟨.named path args, _⟩ => m.resolveName path (!args.isEmpty)
  | ⟨.array element ranks, _⟩ => .arrays (m.resolveType element) ranks
  | ⟨.pointer inner, _⟩ => .pointer (m.resolveType inner)
  | ⟨.nullable inner, _⟩ => .nullable (m.resolveType inner)

def arrayType? (m : Model) (e : Expr) : Option (TypeSymbol × Nat) :=
  match e.kind with
  | .arrayCreation element (outer :: inner) _ =>
    some (.arrays (m.resolveType element) (inner.map (·.sizes.length)), outer.sizes.length)
  | _ => none

/-! ## Locals -/

def isConstLocal (m : Model) (d : Declarator) : Bool :=
  match m.tree.parent? d.id with
  | some (.stmt ⟨_, .localDecl l, _⟩) => l.isConst
  | _ => false

def outArguments (args : List (Argument Expr)) (name : String) : List LocalDeclaration :=
  (args.filter fun a => a.modifier == some .byOut && a.expr.ident? == some name).map
    fun _ => .variable

def declaredBy (m : Model) (name : String) : Node → List LocalDeclaration
  | .declarator d =>
    if d.name == name then [if m.isConstLocal d then .constant d else .variable] else []
  | .stmt s =>
    match s.kind with
    | .forEach _ var _ _ => if var == name then [.variable] else []
    | .tryCatch _ catches _ =>
      (catches.filter fun c => c.name == some name).map fun _ => .variable
    | _ => []
  | .expr e =>
    match e.kind with
    | .isType _ _ designation => if designation == some name then [.variable] else []
    | .invocation _ args | .elementAccess _ args | .objectCreation _ args _ => outArguments args name
    | _ => []
  | _ => []

def localDeclarations (m : Model) (member : Member) (name : String) : List LocalDeclaration :=
  (Node.member member).descendants.flatMap (m.declaredBy name)

/-- What is around the statement of a declarator. -/
def scope? (m : Model) (d : Declarator) : Option Node :=
  m.tree.parent? d.id >>= fun stmt => m.tree.parent? stmt.id

/-- The declarator ends before the use, and its scope is around the use. -/
def inScope (m : Model) (d : Declarator) (use : NodeId) : Bool :=
  match m.scope? d, m.tree.node? use with
  | some scope, some n =>
    decide (d.span.stop ≤ n.span.start) && (m.tree.ancestors use).any (·.id == scope.id)
  | _, _ => false

/-! ## Names -/

def fieldBinding? (members : List Member) (name : String) : Option Binding :=
  members.findSome? fun member =>
    match member.kind with
    | .field f =>
      (f.declarators.find? (·.name == name)).map fun d =>
        if f.modifiers.contains .constMod then .constField d else .field
    | _ => none

def bindLocal? (m : Model) (f : Function) (use : NodeId) (name : String) : Option Binding :=
  if f.params.any (·.name == name) then some .parameter
  else
    match m.localDeclarations f.member name with
    | [] => none
    | [.constant d] => some (if m.inScope d use then .constLocal d else .variable)
    | _ => some .variable

/-- What the types around a use say about a name, innermost first. -/
def bindField (ancestors : List Node) (name : String) : Binding :=
  ((ancestors.filterMap Node.typeDecl?).findSome? fun t => fieldBinding? t.members name).getD
    .unresolved

def bindSimple (m : Model) (use : NodeId) (name : String) : Binding :=
  let ancestors := m.tree.ancestors use
  match (ancestors.findSome? Node.function?).bind fun f => m.bindLocal? f use name with
  | some binding => binding
  | none => bindField ancestors name

def dottedPath? : Expr → Option (List String)
  | ⟨_, .ident name, _⟩ => some [name]
  | ⟨_, .member object name false, _⟩ => (dottedPath? object).map (· ++ [name])
  | _ => none

def bindQualified (m : Model) (path : List String) (name : String) : Binding :=
  (((m.findType? path).bind fun s => (m.tree.node? s.node).bind Node.typeDecl?).bind
    fun t => fieldBinding? t.members name).getD .unresolved

def bind (m : Model) (e : Expr) : Binding :=
  let e := e.unparenthesized
  match e.kind with
  | .ident name => m.bindSimple e.id name
  | .member object name false =>
    match dottedPath? object with
    | some path => m.bindQualified path name
    | none => .unresolved
  | _ => .unresolved

/-- The expression names a constant, whether that has a value or not. -/
def isConstantReference (m : Model) (e : Expr) : Bool :=
  match m.bind e with
  | .constLocal _ | .constField _ => true
  | _ => false

end Model

end Stackable

import Stackable.Syntax.TypeRef

/-!
# Expressions

Every expression carries a node number and the span it was read from. `ExprKind ε` is one layer
of an expression whose operands are of type `ε`; `ExprKind.operands` lists them in the order in
which they are written.
-/

set_option autoImplicit false

namespace Stackable

/-- Numbers given to nodes in the order in which they are completed. -/
abbrev NodeId := Nat

inductive BinOp where
  | add | sub | mul | div | mod | eq | ne | lt | gt | le | ge
  | and | or | bitAnd | bitOr | bitXor | shl | shr | coalesce
deriving Repr, DecidableEq

inductive UnaryOp where
  | neg | plus | not | bitNot | preInc | preDec
  | addressOf
  | deref
  | await
deriving Repr, DecidableEq

inductive PostfixOp where
  | inc | dec
deriving Repr, DecidableEq

inductive AssignOp where
  | assign | add | sub | mul | div | mod | bitAnd | bitOr | bitXor | shl | shr | coalesce
deriving Repr, DecidableEq

inductive ArgModifier where
  | byRef | byOut | byIn
deriving Repr, DecidableEq

structure Argument (ε : Type) where
  name : Option String
  modifier : Option ArgModifier
  expr : ε
deriving Repr

/-- One bracket pair of an array creation, with a size or nothing for each dimension. -/
structure RankSpecifier (ε : Type) where
  sizes : List (Option ε)
  span : Span
deriving Repr

inductive ExprKind (ε : Type) where
  | int (value : Nat) (suffix : Option IntSuffix)
  | real (value : Float) (suffix : Option RealSuffix)
  | string (value : String)
  | char (value : Char)
  | bool (value : Bool)
  | null
  | ident (name : String)
  | this
  | base
  | member (object : ε) (name : String) (conditional : Bool)
  | invocation (callee : ε) (args : List (Argument ε))
  | elementAccess (object : ε) (args : List (Argument ε))
  /-- `new T(args)` with its initializer; the type is absent from a target-typed `new()`. -/
  | objectCreation (type : Option TypeRef) (args : List (Argument ε)) (initializer : Option (List ε))
  | arrayCreation (element : TypeRef) (ranks : List (RankSpecifier ε)) (initializer : Option (List ε))
  | implicitArrayCreation (elements : List ε)
  /-- `stackalloc T[n]`; the type may be left to the initializer. -/
  | stackAlloc (element : Option TypeRef) (size : Option ε) (initializer : Option (List ε))
  | arrayInitializer (elements : List ε)
  | assign (op : AssignOp) (target value : ε)
  | conditional (cond whenTrue whenFalse : ε)
  | binary (op : BinOp) (left right : ε)
  | unary (op : UnaryOp) (operand : ε)
  | suffixed (op : PostfixOp) (operand : ε)
  | cast (type : TypeRef) (expr : ε)
  /-- `x is T`, which declares `designation` if there is one. -/
  | isType (expr : ε) (type : TypeRef) (designation : Option String)
  | asType (expr : ε) (type : TypeRef)
  | typeOf (type : TypeRef)
  | sizeOfType (type : TypeRef)
  | defaultOf (type : Option TypeRef)
  | paren (inner : ε)
deriving Repr

structure Expr where
  id : NodeId
  kind : ExprKind Expr
  span : Span
deriving Repr

instance : Inhabited Expr := ⟨⟨0, .null, ⟨0, 0⟩⟩⟩

namespace ExprKind

variable {ε : Type}

/-- The operands of a layer, in the order in which they are written. -/
def operands : ExprKind ε → List ε
  | .member object _ _ => [object]
  | .invocation callee args => callee :: args.map (·.expr)
  | .elementAccess object args => object :: args.map (·.expr)
  | .objectCreation _ args initializer => args.map (·.expr) ++ initializer.getD []
  | .arrayCreation _ ranks initializer =>
    (ranks.flatMap fun r => r.sizes.filterMap fun size => size) ++ initializer.getD []
  | .implicitArrayCreation elements | .arrayInitializer elements => elements
  | .stackAlloc _ size initializer => size.toList ++ initializer.getD []
  | .assign _ target value => [target, value]
  | .conditional cond whenTrue whenFalse => [cond, whenTrue, whenFalse]
  | .binary _ left right => [left, right]
  | .unary _ operand | .suffixed _ operand => [operand]
  | .cast _ expr | .isType expr _ _ | .asType expr _ | .paren expr => [expr]
  | _ => []

end ExprKind

namespace Expr

private theorem sizeOf_lt_of_mem_args {args : List (Argument Expr)} {x : Expr}
    (h : x ∈ args.map (·.expr)) : sizeOf x < sizeOf args := by
  obtain ⟨a, ha, rfl⟩ := List.mem_map.1 h
  have := List.sizeOf_lt_of_mem ha
  obtain ⟨name, modifier, expr⟩ := a
  simp only [Argument.mk.sizeOf_spec] at this ⊢
  omega

private theorem sizeOf_lt_of_mem_getD {elements : Option (List Expr)} {x : Expr}
    (h : x ∈ elements.getD []) : sizeOf x < sizeOf elements := by
  cases elements with
  | none => simp at h
  | some l =>
    have := List.sizeOf_lt_of_mem h
    simp only [Option.getD_some] at this
    simp only [Option.some.sizeOf_spec]
    omega

private theorem sizeOf_lt_of_mem_sizes {ranks : List (RankSpecifier Expr)} {x : Expr}
    (h : x ∈ ranks.flatMap fun r => r.sizes.filterMap fun size => size) :
    sizeOf x < sizeOf ranks := by
  obtain ⟨r, hr, hx⟩ := List.mem_flatMap.1 h
  obtain ⟨size, hs, rfl⟩ := List.mem_filterMap.1 hx
  have outer := List.sizeOf_lt_of_mem hr
  have inner := List.sizeOf_lt_of_mem hs
  cases r
  simp only [RankSpecifier.mk.sizeOf_spec, Option.some.sizeOf_spec] at outer inner
  omega

theorem sizeOf_lt_of_mem_operands {e c : Expr} (h : c ∈ e.kind.operands) : sizeOf c < sizeOf e := by
  obtain ⟨id, kind, span⟩ := e
  suffices sizeOf c < sizeOf kind by simp only [mk.sizeOf_spec]; omega
  cases kind
  case invocation callee args | elementAccess callee args =>
    rcases List.mem_cons.1 h with rfl | h
    · simp; omega
    · have := sizeOf_lt_of_mem_args h
      simp; omega
  case objectCreation type args initializer =>
    rcases List.mem_append.1 h with h | h
    · have := sizeOf_lt_of_mem_args h
      simp; omega
    · have := sizeOf_lt_of_mem_getD h
      simp; omega
  case arrayCreation element ranks initializer =>
    rcases List.mem_append.1 h with h | h
    · have := sizeOf_lt_of_mem_sizes h
      simp; omega
    · have := sizeOf_lt_of_mem_getD h
      simp; omega
  case stackAlloc element size initializer =>
    rcases List.mem_append.1 h with h | h
    · cases size <;> simp at h
      subst h
      simp; omega
    · have := sizeOf_lt_of_mem_getD h
      simp; omega
  case implicitArrayCreation elements | arrayInitializer elements =>
    have : sizeOf c < sizeOf elements := List.sizeOf_lt_of_mem h
    simp; omega
  case assign | conditional | binary | unary | suffixed | cast | isType | asType | paren | member =>
    simp only [ExprKind.operands, List.mem_cons, List.not_mem_nil, or_false] at h
    rcases h with rfl | rfl | rfl <;> simp <;> omega
  all_goals simp [ExprKind.operands] at h

def ident? (e : Expr) : Option String :=
  match e.kind with
  | .ident name => some name
  | _ => none

def unparenthesized : Expr → Expr
  | ⟨_, .paren inner, _⟩ => inner.unparenthesized
  | e => e

end Expr

end Stackable

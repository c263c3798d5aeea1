import Stackable.Syntax.Expr

/-!
# Statements

`StmtKind σ` is one layer of a statement whose nested statements are of type `σ`.
-/

set_option autoImplicit false

namespace Stackable

/-- `= value` behind a declared name; `mark` covers the `=`. -/
structure Initializer where
  mark : Span
  value : Expr
deriving Repr

structure Declarator where
  id : NodeId
  name : String
  nameSpan : Span
  init : Option Initializer
  span : Span
deriving Repr

structure LocalDecl where
  type : TypeRef
  isConst : Bool
  declarators : List Declarator
deriving Repr

/-- The labels of a group of a switch statement, absent for `default`, and its statements. -/
structure SwitchSection (σ : Type) where
  labels : List (Option Expr)
  body : List σ
deriving Repr

structure CatchClause (σ : Type) where
  type : Option TypeRef
  name : Option String
  body : List σ
  span : Span
deriving Repr

inductive StmtKind (σ : Type) where
  | block (body : List σ)
  | localDecl (decl : LocalDecl)
  | expr (value : Expr)
  | ret (value : Option Expr)
  | ite (cond : Expr) (whenTrue : σ) (whenFalse : Option σ)
  /-- The initialisation holds local or expression statements. -/
  | forLoop (init : List σ) (cond : Option Expr) (update : List Expr) (body : σ)
  | forEach (type : TypeRef) (name : String) (iter : Expr) (body : σ)
  | whileLoop (cond : Expr) (body : σ)
  | doWhile (body : σ) (cond : Expr)
  | switch (subject : Expr) (sections : List (SwitchSection σ))
  | breakStmt
  | continueStmt
  | throwStmt (value : Option Expr)
  | yieldReturn (value : Expr)
  | yieldBreak
  | unsafeBlock (body : List σ)
  | fixed (decl : LocalDecl) (body : σ)
  | usingBlock (resource : σ) (body : σ)
  | lock (subject : Expr) (body : σ)
  | tryCatch (body : List σ) (catches : List (CatchClause σ)) (finish : Option (List σ))
  | empty
deriving Repr

structure Stmt where
  id : NodeId
  kind : StmtKind Stmt
  span : Span
deriving Repr

instance : Inhabited Stmt := ⟨⟨0, .empty, ⟨0, 0⟩⟩⟩

end Stackable

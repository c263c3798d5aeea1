import Stackable.Model.Evaluation

/-!
# Allocation sites

An allocation site is an explicitly typed array creation together with the function whose frame
could hold the array and the local that the array is bound to.
-/

set_option autoImplicit false

namespace Stackable

inductive SizeSpec where
  | literal
  | namedConstant
  /-- Left to the initializer. -/
  | omitted
  | nonConstant
deriving Repr, DecidableEq

structure Site where
  expr : Expr
  element : TypeRef
  ranks : List (RankSpecifier Expr)
  initializer : Option (List Expr)
  sizeSpec : SizeSpec
  /-- Absent in field initializers, property accessors and wherever else there is no frame. -/
  function : Option Function
  /-- The local that the array is the whole initial value of. -/
  localVar : Option Declarator

namespace Site

/-- The method or constructor around a node. The nearest member or accessor decides, and a field,
a property or an accessor has no frame. -/
def enclosingFunction? : List Node → Option Function
  | [] => none
  | .accessor _ :: _ => none
  | .member m :: _ => m.function?
  | _ :: around => enclosingFunction? around

def boundLocal? : List Node → Option Declarator
  | .declarator d :: .stmt ⟨_, .localDecl _, _⟩ :: _ => some d
  | _ => none

def sizeExpr? (ranks : List (RankSpecifier Expr)) : Option Expr :=
  (ranks.head?.bind (·.sizes.head?)).join.map Expr.unparenthesized

def sizeSpecOf (m : Model) (ranks : List (RankSpecifier Expr)) : SizeSpec :=
  match sizeExpr? ranks with
  | none => .omitted
  | some ⟨_, .int _ _, _⟩ => .literal
  | some size => if m.isConstantReference size then .namedConstant else .nonConstant

def ofExpr? (m : Model) (e : Expr) : Option Site :=
  match e.kind with
  | .arrayCreation element ranks initializer =>
    let around := m.tree.ancestors e.id
    some ⟨e, element, ranks, initializer, sizeSpecOf m ranks, enclosingFunction? around,
      boundLocal? around⟩
  | _ => none

/-- The number of dimensions of the outermost brackets. -/
def rank (s : Site) : Nat := ((s.ranks.head?.map (·.sizes.length)).getD 0)

end Site

end Stackable

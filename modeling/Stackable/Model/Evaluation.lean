import Stackable.Model.Binding
import Stackable.Constant.Fold

/-!
# The values of constant expressions

Evaluation follows the expression, and at a name goes on with the initial value of the constant
that it names. A constant that is being evaluated already depends on itself.
-/

set_option autoImplicit false

namespace Stackable.Model

open Fold (Result)

/-- What ends an evaluation without a value: the expression has none, or more constants are under
way than the bound allows. -/
inductive Halt where
  | refused (cause : ConstError)
  | exhausted
deriving Repr, DecidableEq

def evalWith (m : Model) (ofName : Expr → Except Halt ConstValue) : Expr → Except Halt ConstValue
  | ⟨_, .int v _, _⟩ => .ok (.int v)
  | ⟨_, .real v _, _⟩ => .ok (.real v)
  | ⟨_, .bool b, _⟩ => .ok (.bool b)
  | ⟨_, .char c, _⟩ => .ok (.char c)
  | ⟨_, .string s, _⟩ => .ok (.string s)
  | ⟨_, .null, _⟩ => .ok .null
  | ⟨_, .paren inner, _⟩ => m.evalWith ofName inner
  | ⟨_, .unary op operand, _⟩ => do
    let v ← m.evalWith ofName operand
    (Fold.unary op v).mapError .refused
  | ⟨_, .binary op left right, _⟩ => do
    let l ← m.evalWith ofName left
    let r ← m.evalWith ofName right
    (Fold.binary op l r).mapError .refused
  | ⟨_, .conditional cond whenTrue whenFalse, _⟩ => do
    match (← m.evalWith ofName cond).bool? with
    | some true => m.evalWith ofName whenTrue
    | some false => m.evalWith ofName whenFalse
    | none => .error (.refused .notConstant)
  | ⟨_, .cast type inner, _⟩ => do
    let v ← m.evalWith ofName inner
    match m.resolveType type with
    | .special target => (Fold.cast target v).mapError .refused
    | _ => .error (.refused .notConstant)
  | ⟨id, .ident name, span⟩ => ofName ⟨id, .ident name, span⟩
  | ⟨id, .member object name conditional, span⟩ => ofName ⟨id, .member object name conditional, span⟩
  | _ => .error (.refused .notConstant)

/-- The value of a name while the constants `visiting` are being evaluated, of which there may be
`depth` more. -/
def evalName (m : Model) : Nat → List NodeId → Expr → Except Halt ConstValue
  | depth, visiting, e =>
    match m.bind e with
    | .constLocal d | .constField d =>
      if visiting.contains d.id then .error (.refused (.cycle d.name))
      else
        match d.init, depth with
        | none, _ => .error (.refused .notConstant)
        | some _, 0 => .error .exhausted
        | some init, depth + 1 => m.evalWith (m.evalName depth (d.id :: visiting)) init.value
    | _ => .error (.refused .notConstant)

/-- The value of an expression, or why it has none. The constants under way are distinct nodes of
the tree, so that its size leaves room for all of them. -/
def evaluate (m : Model) (e : Expr) : Result :=
  match m.evalWith (m.evalName m.tree.size []) e with
  | .ok v => .ok v
  | .error (.refused cause) => .error cause
  | .error .exhausted => .error .notConstant

def constantValue? (m : Model) (e : Expr) : Option ConstValue := (m.evaluate e).toOption

end Stackable.Model
